import Mathlib.Algebra.Group.Prod
import Mathlib.Algebra.Ring.Pi
import Mathlib.Data.Fintype.Basic
import Phat.Foundation.DepthFirstTotals

/-! Dependence of the final cells on what the unassigned cells held. Over the
gradient type `ν → R` the unassigned own cell of `x` is the unit vector at `x`, and
a final cell is independent of every unassigned one exactly if it is zero. The first
call that meets a running node leaves a nonzero gradient in its caller, so zero
gradients everywhere mean that no running node was ever met. -/
namespace Phat.DepthFirst
variable {ν ι R : Type} [DecidableEq ν]

section Cells
variable {A : Type} [Add A] [Zero A] {g : Graph ν ι A} {m m' : Memo ν A} {v w : ν}
  {acts : List (Act ν ι)} {trace : List (Event ν ι A)} {a : A} {ws : List ν}

theorem Perform.total_frame (run : Perform g m v acts trace m') {x : ν}
    (marked : m.seen x = true) (other : x ≠ v) : m'.total x = m.total x := by
  obtain ⟨own, below⟩ := run.frame marked other
  rw [Memo.total, own, below, Memo.total]

theorem Perform.entered_ne (run : Perform g m v acts trace m') (marked : m.seen v = true) {x : ν}
    (member : x ∈ entered trace) : x ≠ v := by
  rintro rfl
  rw [run.entered_fresh.2 x member] at marked
  cases marked

theorem Visit.entered_ne (call : Visit g m w trace m' a) (marked : m.seen v = true) {x : ν}
    (member : x ∈ entered trace) : x ≠ v := by
  rintro rfl
  rw [call.entered_fresh.2 x member] at marked
  cases marked

omit [Zero A] in
theorem Memo.total_add_of_ne (m : Memo ν A) (a : A) {x v : ν} (other : x ≠ v) :
    (m.add v a).total x = m.total x := by
  rw [Memo.total, Memo.below_add_of_ne _ _ other, Memo.own_add, Memo.total]

omit [Zero A] in
theorem Memo.total_settle_of_ne (m : Memo ν A) (a : A) {x w : ν} (other : x ≠ w) :
    (m.settle w a).total x = m.total x := by
  rw [Memo.total, Memo.own_settle_of_ne _ _ other, Memo.below_settle, Memo.total]

theorem Visit.total_frame (call : Visit g m w trace m' a) {x : ν} (marked : m.seen x = true) :
    m'.total x = m.total x := by
  cases call with
  | seen => rfl
  | idle => rfl
  | enter fresh _ run =>
    have apart : x ≠ w := by rintro rfl; simp [marked] at fresh
    rw [Memo.total_settle_of_ne _ _ apart, run.total_frame (by simp [marked]) apart]
    rfl

theorem Visits.total_frame (calls : Visits g m ws trace m') {x : ν} (marked : m.seen x = true) :
    m'.total x = m.total x := by
  induction calls with
  | nil => rfl
  | cons call _ ih =>
    rw [ih ((call.seen_iff x).mpr (.inl marked)), call.total_frame marked]

end Cells

variable [CommRing R] {g : Graph ν ι (ν → R)} {m m' : Memo ν (ν → R)} {v : ν}
  {acts : List (Act ν ι)} {trace : List (Event ν ι (ν → R))} {ws : List ν} {bound : Nat}
  {running : ν → Prop}

/-- What the caller's gradient looks like once a running node has been met: odd at
the caller itself, or a small positive multiple at another node. Either way it is
not zero, and `left` further calls keep it so. -/
def Tainted (bound : Nat) (v : ν) (d : ν → R) (left : Nat) : Prop :=
  (∃ r, d v = r + (1 + r)) ∨
    (d v = 0 ∧ ∃ z, z ≠ v ∧ ∃ k : Nat, 1 ≤ k ∧ k + left ≤ bound ∧ d z = (k : R))

omit [DecidableEq ν] in
theorem Tainted.relax {d : ν → R} {left : Nat} (tainted : Tainted bound v d (left + 1)) :
    Tainted bound v d left := by
  rcases tainted with odd | ⟨zero, z, other, k, positive, small, value⟩
  · exact .inl odd
  · exact .inr ⟨zero, z, other, k, positive, by omega, value⟩

/-- Meeting the caller itself doubles and adds one; meeting a suspended ancestor
adds that ancestor's unit vector. -/
theorem Tainted.self {d : ν → R} {left : Nat} :
    Tainted bound v (d + (Pi.single v 1 + d)) left :=
  .inl ⟨d v, by simp⟩

theorem Tainted.ancestor {d : ν → R} {left : Nat} {w : ν} (other : w ≠ v)
    (tainted : Tainted bound v d (left + 1)) : Tainted bound v (d + Pi.single w 1) left := by
  have keep : (d + Pi.single w 1 : ν → R) v = d v := by simp [Ne.symm other]
  rcases tainted with ⟨r, odd⟩ | ⟨zero, z, apart, k, positive, small, value⟩
  · exact .inl ⟨r, keep.trans odd⟩
  · refine .inr ⟨keep.trans zero, z, apart, ?_⟩
    by_cases same : z = w
    · subst same
      exact ⟨k + 1, by omega, by omega, by simp [value]⟩
    · exact ⟨k, positive, by omega, by simp [same, value]⟩

theorem Tainted.first {left : Nat} {w : ν} (small : 1 + left ≤ bound) :
    Tainted bound v (Pi.single w (1 : R)) left := by
  by_cases same : w = v
  · subst same
    exact .inl ⟨0, by simp⟩
  · refine .inr ⟨by simp [Ne.symm same], w, same, 1, le_rfl, small, by simp⟩

omit [DecidableEq ν] in
theorem Tainted.ne_zero {d : ν → R} (odd : ∀ r : R, r + (1 + r) ≠ 0)
    (cast : ∀ k : Nat, 1 ≤ k → k ≤ bound → (k : R) ≠ 0) (tainted : Tainted bound v d 0) :
    d ≠ 0 := by
  rintro rfl
  rcases tainted with ⟨r, value⟩ | ⟨_, z, _, k, positive, small, value⟩
  · exact odd r value.symm
  · exact cast k positive small value.symm

/-- Running nodes hold their unit vector, the suspended ones nothing else; finished
nodes hold nothing. -/
structure Tangent (running : ν → Prop) (v : ν) (m : Memo ν (ν → R)) : Prop where
  marked : ∀ p, running p → m.seen p = true
  own : ∀ p, running p → m.own p = Pi.single p 1
  suspended : ∀ p, running p → p ≠ v → m.below p = 0
  done : ∀ x, m.seen x = true → ¬ running x → m.total x = 0

theorem Tangent.add (tangent : Tangent running v m) (runs : running v) (d : ν → R) :
    Tangent running v (m.add v d) where
  marked := tangent.marked
  own := tangent.own
  suspended p up other := by rw [Memo.below_add_of_ne _ _ other]; exact tangent.suspended p up other
  done x marked finished := by
    have apart : x ≠ v := by rintro rfl; exact finished runs
    rw [Memo.total_add_of_ne _ _ apart]
    exact tangent.done x marked finished

/-- After a call on an unmarked node whose cells end at zero. -/
theorem Tangent.visit {w : ν} {a : ν → R} (tangent : Tangent running v m)
    (call : Visit g m w trace m' a) (fresh : m.seen w = false)
    (final : ∀ x ∈ entered trace, m'.total x = 0) : Tangent running v m' where
  marked p up := (call.seen_iff p).mpr (.inl (tangent.marked p up))
  own p up := by
    have apart : p ≠ w := by rintro rfl; simp [tangent.marked p up] at fresh
    cases call with
    | seen marked => exact tangent.own p up
    | idle => exact tangent.own p up
    | enter _ _ run =>
      rw [Memo.own_settle_of_ne _ _ apart, (run.frame (by simp [tangent.marked p up]) apart).1]
      exact tangent.own p up
  suspended p up other := by
    have apart : p ≠ w := by rintro rfl; simp [tangent.marked p up] at fresh
    cases call with
    | seen marked => exact tangent.suspended p up other
    | idle => exact tangent.suspended p up other
    | enter _ _ run =>
      rw [Memo.below_settle, (run.frame (by simp [tangent.marked p up]) apart).2]
      exact tangent.suspended p up other
  done x marked finished := by
    rcases (call.seen_iff x).mp marked with old | member
    · rw [call.total_frame old]
      exact tangent.done x old finished
    · exact final x member

/-- Entering an unmarked node suspends the caller, whose gradient is still zero. -/
theorem Tangent.enter {w : ν} (tangent : Tangent running v m) (start : m.below v = 0)
    (unassigned : m.own w = Pi.single w 1) :
    Tangent (fun x => x = w ∨ running x) w (m.mark w) where
  marked := by
    rintro p (rfl | up)
    · simp
    · simp [tangent.marked p up]
  own := by
    rintro p (rfl | up)
    · exact unassigned
    · exact tangent.own p up
  suspended := by
    rintro p (rfl | up) other
    · exact absurd rfl other
    · by_cases self : p = v
      · exact self ▸ start
      · exact tangent.suspended p up self
  done x seen finished := by
    rw [not_or] at finished
    exact tangent.done x (((Memo.seen_mark m w x).mp seen).resolve_left finished.1) finished.2

/-- The cells of an unmarked node as a gradient run starts with them. -/
def Unassigned (m : Memo ν (ν → R)) : Prop :=
  ∀ x, m.seen x = false → m.own x = Pi.single x 1 ∧ m.below x = 0

theorem Unassigned.mark (fresh : Unassigned m) (w : ν) : Unassigned (m.mark w) := by
  intro x unseen
  rw [← Bool.not_eq_true, Memo.seen_mark, not_or, Bool.not_eq_true] at unseen
  exact fresh x unseen.2

theorem Unassigned.visit {w : ν} {a : ν → R} (fresh : Unassigned m)
    (call : Visit g m w trace m' a) : Unassigned m' := by
  intro x unseen
  cases call with
  | seen => exact fresh x unseen
  | idle => exact fresh.mark w x unseen
  | enter _ _ run =>
    have apart : x ≠ w := by
      rintro rfl
      rw [Memo.seen_settle, run.seen_mono (by simp)] at unseen
      cases unseen
    have clear : (m.mark w).seen x = false := by
      rw [← Bool.not_eq_true] at unseen ⊢
      exact fun seen => unseen (run.seen_mono seen)
    rw [Memo.own_settle_of_ne _ _ apart, Memo.below_settle, (run.frame_unseen unseen apart).1,
      (run.frame_unseen unseen apart).2]
    exact fresh.mark w x clear

theorem Visit.below_frame {w : ν} {a : ν → R} (call : Visit g m w trace m' a)
    (fresh : m.seen w = false) (marked : m.seen v = true) : m'.below v = m.below v := by
  have apart : v ≠ w := by rintro rfl; simp [marked] at fresh
  cases call with
  | seen => rfl
  | idle => rfl
  | enter _ _ run =>
    rw [Memo.below_settle, (run.frame (by simp [marked]) apart).2, Memo.below_mark]

theorem Visit.value_zero {w : ν} {a : ν → R} (call : Visit g m w trace m' a)
    (fresh : m.seen w = false) (final : ∀ x ∈ entered trace, m'.total x = 0) : a = 0 := by
  cases call with
  | seen marked => simp [marked] at fresh
  | idle => rfl
  | enter => exact final w (by simp)

/-- A tainted caller stays tainted to the end of its actions. -/
theorem Perform.tainted (run : Perform g m v acts trace m') (tangent : Tangent running v m)
    (runs : running v) (final : ∀ x ∈ entered trace, m'.total x = 0)
    (taint : Tainted bound v (m.below v) (targets acts).length) :
    Tainted bound v (m'.below v) 0 := by
  induction acts generalizing m trace with
  | nil =>
    cases run
    exact taint
  | cons act acts ih =>
    cases act with
    | touch i =>
      cases run with
      | touch rest => exact ih rest tangent final taint
    | follow w =>
      rw [targets_follow, List.length_cons] at taint
      cases old : m.seen w with
      | true =>
        cases run with
        | idle fresh => simp [old] at fresh
        | enter fresh => simp [old] at fresh
        | seen _ rest =>
          refine ih rest (tangent.add runs _) final ?_
          rw [Memo.below_add_self]
          by_cases self : w = v
          · subst self
            rw [Memo.total, tangent.own w runs]
            exact .self
          · by_cases up : running w
            · rw [Memo.total, tangent.own w up, tangent.suspended w up self, add_zero]
              exact taint.ancestor self
            · rw [tangent.done w old up, add_zero]
              exact taint.relax
      | false =>
        obtain ⟨first, rest, m₁, a, call, remaining, rfl⟩ := run.follow_inv
        have marked := tangent.marked v runs
        have inner : ∀ x ∈ entered first, m₁.total x = 0 := by
          intro x member
          have apart := call.entered_ne marked member
          have seen : m₁.seen x = true := (call.seen_iff x).mpr (.inr member)
          rw [← Memo.total_add_of_ne m₁ a apart, ← remaining.total_frame seen apart]
          exact final x (by simp [member])
        refine ih remaining ((tangent.visit call old inner).add runs a)
          (fun x member => final x (by simp [member])) ?_
        rw [Memo.below_add_self, call.below_frame old marked, call.value_zero old inner, add_zero]
        exact taint.relax

section Clean
variable (odd : ∀ r : R, r + (1 + r) ≠ 0) (cast : ∀ k : Nat, 1 ≤ k → k ≤ bound → (k : R) ≠ 0)
  (short : ∀ x, (targets (g.acts x)).length ≤ bound) (own : ∀ x, g.own x = 0)
include odd cast short own

/-- With zero final gradients no running node is ever called and no idle node is
entered: everything finished is accessible. -/
theorem Perform.accessible (run : Perform g m v acts trace m') (tangent : Tangent running v m)
    (runs : running v) (start : m.below v = 0)
    (fresh : Unassigned m)
    (length : (targets acts).length ≤ bound) (final : ∀ x ∈ entered trace, m'.total x = 0)
    (last : m'.below v = 0)
    (acc : ∀ x, m.seen x = true → ¬ running x → Acc (fun b a => g.Edge a b) x ∧ ¬ g.idle x) :
    (∀ t ∈ targets acts, Acc (fun b a => g.Edge a b) t) ∧
      ∀ x ∈ entered trace, Acc (fun b a => g.Edge a b) x ∧ ¬ g.idle x := by
  induction run generalizing running with
  | nil => exact ⟨by simp, by simp⟩
  | touch _ ih => exact ih tangent runs start fresh length final last acc
  | @seen m m' v w acts trace old rest ih =>
    rw [targets_follow, List.length_cons] at length
    by_cases up : running w
    · -- the first meeting with a running node taints the caller for good
      have tainted : Tainted bound v ((m.add v (m.total w)).below v) (targets acts).length := by
        rw [Memo.below_add_self, start, zero_add, Memo.total, tangent.own w up]
        have idle : m.below w = 0 := by
          by_cases self : w = v
          · exact self ▸ start
          · exact tangent.suspended w up self
        rw [idle, add_zero]
        exact .first (by omega)
      exact absurd last ((rest.tainted (tangent.add runs _) runs final tainted).ne_zero odd cast)
    · have value := tangent.done w old up
      have unchanged : m.add v (m.total w) = m := by
        rw [value, Memo.add, add_zero, Function.update_eq_self]
      rw [unchanged] at ih
      obtain ⟨tails, inside⟩ := ih tangent runs start fresh (by omega) final last acc
      exact ⟨by simpa using ⟨(acc w old up).1, tails⟩, by simpa using inside⟩
  | @idle m m' v w acts trace clear idle rest =>
    -- an idle node keeps its unit vector
    have apart : w ≠ v := by rintro rfl; simp [tangent.marked w runs] at clear
    have value := rest.total_frame (x := w) (by simp) apart
    rw [final w (by simp), Memo.total_add_of_ne _ _ apart, Memo.total, Memo.own_mark,
      Memo.below_mark, (fresh w clear).1, (fresh w clear).2, add_zero] at value
    have one : (1 : R) = 0 := by simpa using congrFun value.symm w
    exact absurd (by rw [Nat.cast_one]; exact one) (cast 1 le_rfl (by
      rw [targets_follow, List.length_cons] at length
      omega))
  | @enter m m₁ m' v w acts inner trace clear busy call rest innerIh restIh =>
    rw [targets_follow, List.length_cons] at length
    have marked := tangent.marked v runs
    have apart : v ≠ w := by rintro rfl; simp [marked] at clear
    have visit : Visit g m w _ _ _ := .enter clear busy call
    have kept : ∀ x, (m₁.settle w (g.own w)).seen x = true → x ≠ v →
        m'.total x = (m₁.settle w (g.own w)).total x := by
      intro x seen other
      rw [rest.total_frame seen other, Memo.total_add_of_ne _ _ other]
    have entering : ∀ x ∈ entered (ν := ν) (ι := ι) (A := ν → R) (.enter w :: (inner ++
        [.ret w ((m₁.settle w (g.own w)).total w)])), (m₁.settle w (g.own w)).total x = 0 := by
      intro x member
      have other := visit.entered_ne marked member
      rw [← kept x ((visit.seen_iff x).mpr (.inr member)) other]
      refine final x ?_
      simp only [entered_enter, entered_append, entered_ret, entered_nil, List.append_nil,
        List.mem_cons, List.mem_append] at member ⊢
      tauto
    have below : m₁.below w = 0 := by
      have value := entering w (by simp)
      rwa [Memo.total, Memo.own_settle_self, own, zero_add, Memo.below_settle] at value
    obtain ⟨edges, inside⟩ := innerIh (tangent.enter start (fresh w clear).1) (.inl rfl)
      (fresh w clear).2 (fresh.mark w) (short w)
      (fun x member => by
        have other := call.entered_ne (by simp) member
        rw [← Memo.total_settle_of_ne m₁ (g.own w) other]
        exact entering x (by simp [member])) below
      (fun x seen finished => by
        rw [not_or] at finished
        exact acc x (((Memo.seen_mark m w x).mp seen).resolve_left finished.1) finished.2)
    have reached : Acc (fun b a => g.Edge a b) w := ⟨w, fun y edge => edges y edge⟩
    have value := visit.value_zero clear entering
    have unchanged : (m₁.settle w (g.own w)).add v ((m₁.settle w (g.own w)).total w) =
        m₁.settle w (g.own w) := by
      rw [value, Memo.add, add_zero, Function.update_eq_self]
    rw [unchanged] at restIh rest
    obtain ⟨tails, later⟩ := restIh (tangent.visit visit clear entering) runs
      ((visit.below_frame clear marked).trans start) (fresh.visit visit)
      (by omega) (fun x member => final x (by simp [member])) last
      (fun x seen finished => by
        rw [Memo.seen_settle, call.seen_iff, Memo.seen_mark] at seen
        rcases seen with (rfl | old) | member
        · exact ⟨reached, busy⟩
        · exact acc x old finished
        · exact inside x member)
    refine ⟨by simpa using ⟨reached, tails⟩, ?_⟩
    intro x member
    simp only [entered_enter, entered_append, entered_ret, List.mem_cons, List.mem_append] at member
    rcases member with rfl | member | member
    · exact ⟨reached, busy⟩
    · exact inside x member
    · exact later x member

theorem Visit.accessible {w : ν} {a : ν → R} (call : Visit g m w trace m' a)
    (fresh : Unassigned m) (done : ∀ x, m.seen x = true → m.total x = 0)
    (final : ∀ x ∈ entered trace, m'.total x = 0) (positive : 1 ≤ bound)
    (acc : ∀ x, m.seen x = true → Acc (fun b a => g.Edge a b) x ∧ ¬ g.idle x) :
    ∀ x ∈ entered trace, Acc (fun b a => g.Edge a b) x ∧ ¬ g.idle x := by
  cases call with
  | seen => simp
  | idle clear =>
    have value := final w (by simp)
    rw [Memo.total, Memo.own_mark, Memo.below_mark, (fresh w clear).1, (fresh w clear).2,
      add_zero] at value
    have one : (1 : R) = 0 := by simpa using congrFun value w
    exact absurd (by rw [Nat.cast_one]; exact one) (cast 1 le_rfl positive)
  | @enter _ m₁ _ inner clear busy run =>
    have tangent : Tangent (fun x => x = w ∨ False) w (m.mark w) := by
      refine ⟨?_, ?_, ?_, ?_⟩
      · rintro p (rfl | impossible)
        · simp
        · exact impossible.elim
      · rintro p (rfl | impossible)
        · exact (fresh p clear).1
        · exact impossible.elim
      · rintro p (rfl | impossible) other
        · exact absurd rfl other
        · exact impossible.elim
      · intro x seen finished
        exact done x (((Memo.seen_mark m w x).mp seen).resolve_left
          fun same => finished (.inl same))
    have below : m₁.below w = 0 := by
      have value := final w (by simp)
      rwa [Memo.total, Memo.own_settle_self, own, zero_add, Memo.below_settle] at value
    obtain ⟨edges, inside⟩ := run.accessible odd cast short own tangent (.inl rfl)
      (fresh w clear).2 (fresh.mark w) (short w)
      (fun x member => by
        have other := run.entered_ne (by simp) member
        rw [← Memo.total_settle_of_ne m₁ (g.own w) other]
        exact final x (by simp [member])) below
      (fun x seen finished => acc x (((Memo.seen_mark m w x).mp seen).resolve_left
        fun same => finished (.inl same)))
    intro x member
    simp only [entered_enter, entered_append, entered_ret, entered_nil, List.append_nil,
      List.mem_cons] at member
    rcases member with rfl | member
    · exact ⟨⟨x, fun y edge => edges y edge⟩, busy⟩
    · exact inside x member

theorem Visits.accessible (calls : Visits g m ws trace m') (fresh : Unassigned m)
    (done : ∀ x, m.seen x = true → m.total x = 0)
    (final : ∀ x ∈ entered trace, m'.total x = 0) (positive : 1 ≤ bound)
    (acc : ∀ x, m.seen x = true → Acc (fun b a => g.Edge a b) x ∧ ¬ g.idle x) :
    ∀ x ∈ entered trace, Acc (fun b a => g.Edge a b) x ∧ ¬ g.idle x := by
  induction calls with
  | nil => simp
  | @cons m m₁ m' w ws a first rest call calls ih =>
    have middle : ∀ x ∈ entered first, m₁.total x = 0 := by
      intro x member
      rw [← calls.total_frame ((call.seen_iff x).mpr (.inr member))]
      exact final x (by simp [member])
    have head := call.accessible odd cast short own fresh done middle positive acc
    have tail := ih (fresh.visit call)
      (fun x seen => by
        rcases (call.seen_iff x).mp seen with old | member
        · rw [call.total_frame old]
          exact done x old
        · exact middle x member)
      (fun x member => final x (by simp [member]))
      (fun x seen => by
        rcases (call.seen_iff x).mp seen with old | member
        · exact acc x old
        · exact head x member)
    intro x member
    rw [entered_append, List.mem_append] at member
    exact member.elim (head x) (tail x)

end Clean

/-- A memo with nothing marked, nothing added and the given unassigned own cells. -/
def Memo.start {A : Type} [Zero A] (own : ν → A) : Memo ν A := ⟨fun _ => false, own, fun _ => 0⟩

omit [DecidableEq ν] in
theorem Memo.map_start {A B : Type} [AddCommMonoid A] [AddCommMonoid B] (f : A →+ B) (own : ν → A) :
    (Memo.start own).map f = .start fun v => f (own v) := by
  simp [Memo.start, Memo.map]

/-- If the final totals of one order of calls are the same for all contents of the
unassigned cells, the called part of the graph has neither cycle nor idle node. -/
theorem accessible_of_independent {nodes : Finset ν} {h : Graph ν ι R}
    (odd : ∀ r : R, r + (1 + r) ≠ 0) (cast : ∀ k : Nat, 1 ≤ k → k ≤ bound → (k : R) ≠ 0)
    (positive : 1 ≤ bound) (short : ∀ x, (targets (h.acts x)).length ≤ bound)
    (inside : ∀ x ∈ nodes, ∀ y, h.Edge x y → y ∈ nodes) (roots : ∀ x ∈ ws, x ∈ nodes)
    (independent : ∀ (own₁ own₂ : ν → R) trace₁ trace₂ m₁ m₂,
      Visits h (.start own₁) ws trace₁ m₁ → Visits h (.start own₂) ws trace₂ m₂ →
      ∀ x, m₁.seen x = true → m₁.total x = m₂.total x) {x : ν} (root : x ∈ ws) :
    Acc (fun b a => h.Edge a b) x ∧ ¬ h.idle x := by
  -- one run over values paired with gradients
  let paired : Graph ν ι (R × (ν → R)) := h.map fun r => (r, 0)
  let cells : Memo ν (R × (ν → R)) := .start fun v => (0, Pi.single v 1)
  obtain ⟨trace, m', calls⟩ := visits_total (g := paired) inside roots cells
  have values := calls.map (AddMonoidHom.fst R (ν → R))
  rw [Memo.map_start] at values
  have zero : ∀ y, m'.seen y = true → (m'.total y).2 = 0 := by
    intro y seen
    funext z
    -- moving the unassigned cell of `z` by one moves a total by its gradient at `z`
    have moved := calls.map (AddMonoidHom.fst R (ν → R) +
      (Pi.evalAddMonoidHom (fun _ => R) z).comp (AddMonoidHom.snd R (ν → R)))
    rw [Memo.map_start] at moved
    have same : paired.map (AddMonoidHom.fst R (ν → R) +
        (Pi.evalAddMonoidHom (fun _ => R) z).comp (AddMonoidHom.snd R (ν → R))) = h := by
      simp [paired, Graph.map]
    have equal := independent _ _ _ _ _ _ values (same ▸ moved) y seen
    rw [Memo.total_map, Memo.total_map] at equal
    simpa using equal.symm
  have gradients := calls.map (AddMonoidHom.snd R (ν → R))
  rw [Memo.map_start] at gradients
  have result := gradients.accessible odd cast short (fun _ => rfl) (fun y _ => ⟨rfl, rfl⟩)
    (fun y seen => by cases seen)
    (fun y member => by
      rw [Memo.total_map]
      exact zero y ((gradients.seen_iff y).mpr (.inr member)))
    positive (fun y seen => by cases seen) x
    (((gradients.seen_iff x).mp (gradients.seen_roots root)).resolve_left (by
      intro seen
      cases seen))
  exact result

end Phat.DepthFirst
