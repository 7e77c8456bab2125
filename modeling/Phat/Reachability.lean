import Phat.Independence
import Phat.Printing

/-! Which objects a call of `resolveInstance` resolves, and that the printer only meets
those. -/
namespace Phat
open DepthFirst (Visits entered)

/-- The objects `collectStats` calls `resolveInstance` on. -/
def Jdump.selected (jf : Jdump) (ckey : BitVec 64) (os : List ObjRef) : List ObjRef :=
  os.filter fun o => ckey = (jf.hobject o).classId

section Collect
variable {jf : Jdump} {S : ObjRef → Prop} {depth fuel : Nat} {lk : Look} {sure : Prop}
  {s : Screen} {measure : (ObjRef → Bool) → ObjRef → Nat → Nat}

/-- Resolving and printing in turns. -/
theorem collectFrom_shown (region : jf.Region S depth)
    (enough : jf.stored.toFinset.card + depth < fuel) (grounded : Grounded jf S lk)
    (lowers : sure → Lowers jf S measure) (ckey : BitVec 64) {os : List ObjRef}
    (inside : ∀ o ∈ jf.selected ckey os, S o)
    (prints : sure → ∀ visit, ∀ o ∈ os, measure visit o 0 < fuel) :
    (∃ lk' s' trace, collectFrom jf fuel ckey os lk s = .ok (lk', s') ∧ Grows jf s s' ∧
      Visits jf.graph lk.memo (jf.selected ckey os) trace lk'.memo ∧
      Ran jf (fun _ => False) (fun _ => False) lk lk' trace ∧ Grounded jf S lk') ∨
    ∃ stop s', collectFrom jf fuel ckey os lk s = .error (stop, s') ∧ Grows jf s s' ∧
      (sure → jf.Denied lk (jf.selected ckey os)) := by
  induction os generalizing lk s with
  | nil => exact .inl ⟨lk, s, [], rfl, .refl s, .nil _, .refl grounded.ready, grounded⟩
  | cons o os ih =>
    have prints' : sure → ∀ visit, ∀ x ∈ os, measure visit x 0 < fuel :=
      fun certain visit x member => prints certain visit x (.tail _ member)
    by_cases wanted : ckey = (jf.hobject o).classId
    · have chosen : jf.selected ckey (o :: os) = o :: jf.selected ckey os :=
        List.filter_cons_of_pos (by simpa using wanted)
      rw [chosen] at inside ⊢
      rw [collectFrom, if_pos wanted]
      have here := inside o List.mem_cons_self
      rcases resolveInstance_grounded region enough grounded here with
        ⟨⟨lk₁, a⟩, ok, trace, call, ran, grounded₁⟩ | ⟨stop, refused⟩
      · rw [ok]
        simp only
        rcases @printInstance_shown jf S depth fuel lk₁ sure o s measure region grounded₁ lowers 0
            false false here call.seen_self
            (fun certain => prints certain s.visit o List.mem_cons_self) with
          ⟨s₁, shown, grows⟩ | ⟨unsure, s₁, cut, grows⟩
        · rw [shown]
          simp only
          rcases @ih lk₁ s₁ grounded₁ (fun x member => inside x (.tail _ member)) prints' with
            ⟨lk', s', trace', done, more, calls, ran', grounded'⟩ | ⟨stop, s', failed, more, why⟩
          · exact .inl ⟨lk', s', trace ++ trace', done, grows.trans more, .cons call calls,
              ran.trans ran' fun _ impossible => impossible.elim, grounded'⟩
          · refine .inr ⟨stop, s', failed, grows.trans more, fun certain => ?_⟩
            refine ran.denied (fun x member => ?_) (why certain) (List.subset_cons_self _ _)
            exact ⟨o, List.mem_cons_self, call.reach member⟩
        · rw [cut]
          exact .inr ⟨.fuel, s₁, rfl, grows, fun certain => absurd certain unsure⟩
      · rw [stop]
        exact .inr ⟨.nomem, s, rfl, .refl s, fun _ =>
          refused.sub (List.cons_subset_cons o (List.nil_subset _))⟩
    · have chosen : jf.selected ckey (o :: os) = jf.selected ckey os :=
        List.filter_cons_of_neg (by simpa using wanted)
      rw [chosen] at inside ⊢
      rw [collectFrom, if_neg wanted]
      exact ih grounded inside prints'

end Collect

theorem resolveInstances_grounded {jf : Jdump} {depth fuel : Nat} {memory lk : Look}
    (resolvable : jf.Resolvable depth) (enough : jf.stored.toFinset.card + depth < fuel)
    (run : resolveInstances jf fuel (.initial memory) = .ok lk) :
    Grounded jf (· ∈ jf.stored) lk ∧ ∀ o ∈ jf.stored, (lk.objects o).resolved = true := by
  rcases resolveAll_grounded resolvable.region enough (.initial jf _ memory) (fun _ => id) with
    ⟨lk', ok, trace, calls, _, grounded⟩ | ⟨stop, _⟩
  · rw [resolveInstances, ok] at run
    cases run
    exact ⟨grounded, fun o member => calls.seen_roots member⟩
  · rw [resolveInstances, stop] at run
    cases run

/-- What is on the screen when printing ends or the program stops. -/
def Printed.screen {α : Type} (result : Printed α) (out : α → Screen) : Screen :=
  match result with
  | .ok a => out a
  | .error (_, s) => s

end Phat
