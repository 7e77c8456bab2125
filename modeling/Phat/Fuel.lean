import Phat.Print
import Phat.Hierarchy

/-! A bound that was enough stays enough: a larger one changes no result. -/
namespace Phat

section Classes
variable {jf : Jdump} {fuel : Nat} {c : ClassRef} {lk lk' : Look}

theorem resolveSClassSize_mono {n : Int} (run : jf.resolveSClassSize fuel c = .ok n) :
    jf.resolveSClassSize (fuel + 1) c = .ok n := by
  induction fuel generalizing c n with
  | zero => cases run
  | succ fuel ih =>
    rw [Jdump.resolveSClassSize] at run ⊢
    split
    · rename_i root
      rwa [if_pos root] at run
    · rename_i more
      rw [if_neg more] at run
      cases found : jf.getSuperClass c with
      | none =>
        rw [found] at run
        cases run
      | some super =>
        rw [found] at run
        simp only at run ⊢
        cases above : jf.resolveSClassSize fuel super with
        | error stop =>
          rw [above] at run
          cases run
        | ok m =>
          rw [above] at run
          rw [ih above]
          exact run

theorem fillValues_mono {n fieldNo index size : Nat} {cc : ClassRef} {target : Int}
    (run : fillValues jf fuel c n cc fieldNo target index lk = .ok (size, lk')) :
    fillValues jf (fuel + 1) c n cc fieldNo target index lk = .ok (size, lk') := by
  induction n generalizing cc fieldNo target index lk with
  | zero => exact run
  | succ n ih =>
    rw [fillValues] at run ⊢
    cases seek : jf.seekField fuel cc fieldNo target with
    | error stop =>
      rw [seek] at run
      cases run
    | ok found =>
      rw [seek] at run
      rw [seekField_mono seek]
      simp only at run ⊢
      split at run
      · cases run
      · rename_i decl here
        split at run
        · cases run
        · rename_i values stored
          exact ih run

theorem layOut_mono {tfields : Int} (run : layOut jf fuel lk c tfields = .ok lk') :
    layOut jf (fuel + 1) lk c tfields = .ok lk' := by
  rw [layOut] at run ⊢
  split
  · rename_i some
    rw [if_pos some] at run
    split
    · rename_i many
      rwa [if_pos many] at run
    · rename_i few
      rw [if_neg few] at run
      simp only at run ⊢
      split at run
      · cases run
      · rename_i index lk₁ filled
        rw [fillValues_mono filled]
        exact run
  · rename_i none
    rwa [if_neg none] at run

theorem resolveClassNode_mono (run : resolveClassNode jf fuel lk c = .ok lk') :
    resolveClassNode jf (fuel + 1) lk c = .ok lk' := by
  induction fuel generalizing c lk lk' with
  | zero => cases run
  | succ fuel ih =>
    rw [resolveClassNode] at run ⊢
    split
    · rename_i marked
      rwa [if_pos marked] at run
    · rename_i unmarked
      rw [if_neg unmarked] at run
      cases size : jf.resolveSClassSize (fuel + 1) c with
      | error stop =>
        rw [size] at run
        cases run
      | ok tfields =>
        rw [size] at run
        rw [resolveSClassSize_mono size]
        simp only at run ⊢
        cases found : jf.getSuperClass c with
        | none =>
          simp only [found] at run ⊢
          split at run
          · cases run
          · rename_i lk₁ laid
            rw [layOut_mono laid]
            exact run
        | some super =>
          simp only [found] at run ⊢
          split at run
          · cases run
          · rename_i lk₁ above
            rw [ih above]
            simp only
            split at run
            · cases run
            · rename_i lk₂ laid
              rw [layOut_mono laid]
              exact run

end Classes

section Objects
variable {jf : Jdump} {fuel : Nat} {o : ObjRef} {c : ClassRef} {lk lk' : Look}
  {visit visit' : Look → ObjRef → Except Stop (Look × BitVec 64)}

/-- `visit'` ends wherever `visit` does, with the same result. -/
def Extends (visit visit' : Look → ObjRef → Except Stop (Look × BitVec 64)) : Prop :=
  ∀ lk o result, visit lk o = .ok result → visit' lk o = .ok result

theorem followRef_mono (extend : Extends visit visit') {ident : BitVec 64}
    (run : followRef visit jf lk o ident = .ok lk') : followRef visit' jf lk o ident = .ok lk' := by
  rw [followRef] at run ⊢
  split
  · rename_i unknown
    rwa [unknown] at run
  · rename_i dref known
    rw [known] at run
    simp only at run
    split at run
    · cases run
    · rename_i call
      rw [extend _ _ _ call]
      exact run

theorem elementLoop_mono (extend : Extends visit visit') {n i : Nat}
    (run : elementLoop visit jf o n i lk = .ok lk') : elementLoop visit' jf o n i lk = .ok lk' := by
  induction n generalizing i lk with
  | zero => exact run
  | succ n ih =>
    rw [elementLoop] at run ⊢
    split at run
    · cases run
    · rename_i ident here
      split at run
      · cases run
      · rename_i lk₁ followed
        rw [followRef_mono extend followed]
        exact ih run

theorem followStored_mono (extend : Extends visit visit') {stored : Option Hvalue}
    (run : followStored visit jf lk o stored = .ok lk') :
    followStored visit' jf lk o stored = .ok lk' := by
  unfold followStored at run ⊢
  split
  · exact followRef_mono extend run
  · rename_i other
    split at run
    · exact absurd rfl (other _)
    · exact run

theorem fieldLoop_mono (extend : Extends visit visit') {n i : Nat} {size : BitVec 64}
    {result : Look × BitVec 64} (run : fieldLoop visit jf o c n i size lk = .ok result) :
    fieldLoop visit' jf o c n i size lk = .ok result := by
  induction n generalizing i size lk with
  | zero => exact run
  | succ n ih =>
    rw [fieldLoop] at run ⊢
    split at run
    · rename_i info _ here
      simp only at run ⊢
      split at run
      · cases run
      · rename_i lk₁ stored
        split at run
        · cases run
        · rename_i lk₂ followed
          rw [followStored_mono extend followed]
          exact ih run
    · cases run

theorem resolveOarray_mono (extend : Extends visit visit') {result : Look × BitVec 64}
    (run : resolveOarray visit jf lk o c = .ok result) :
    resolveOarray visit' jf lk o c = .ok result := by
  rw [resolveOarray] at run ⊢
  split
  · rename_i none
    rwa [if_pos none] at run
  · rename_i some
    rw [if_neg some] at run
    split
    · rename_i many
      rwa [if_pos many] at run
    · rename_i few
      rw [if_neg few] at run
      simp only at run ⊢
      split at run
      · cases run
      · rename_i lk₁ loop
        rw [elementLoop_mono extend loop]
        exact run

theorem resolveFields_mono (extend : Extends visit visit') {result : Look × BitVec 64}
    (run : resolveFields visit jf lk o c = .ok result) :
    resolveFields visit' jf lk o c = .ok result := by
  rw [resolveFields] at run ⊢
  simp only at run ⊢
  split at run
  · cases run
  · rename_i lk₁ size loop
    rw [fieldLoop_mono extend loop]
    exact run

theorem resolveInstance_extends (fuel : Nat) :
    Extends (resolveInstance jf fuel) (resolveInstance jf (fuel + 1)) := by
  induction fuel with
  | zero =>
    intro lk o result run
    cases run
  | succ fuel ih =>
    intro lk o result run
    rw [resolveInstance] at run ⊢
    split
    · rename_i marked
      rwa [if_pos marked] at run
    · rename_i unmarked
      rw [if_neg unmarked] at run
      simp only at run ⊢
      split at run
      · cases run
      · rename_i c classOf
        split at run
        · cases run
        · rename_i lk₁ laid
          have more : (if (((lk.setObj o { lk.objects o with resolved := true }).note
              (.enter o)).classes c).resolved = true
                then .ok ((lk.setObj o { lk.objects o with resolved := true }).note (.enter o))
                else resolveClassNode jf (fuel + 1 + 1) ((lk.setObj o
                  { lk.objects o with resolved := true }).note (.enter o)) c) = .ok lk₁ := by
            split
            · rename_i marked
              rwa [if_pos marked] at laid
            · rename_i open_
              rw [if_neg open_] at laid
              exact resolveClassNode_mono laid
          rw [more]
          simp only
          split at run
          · exact run
          · exact resolveOarray_mono ih run
          · exact resolveFields_mono ih run

theorem resolveAll_mono {os : List ObjRef} (run : resolveAll jf fuel os lk = .ok lk') {more : Nat}
    (enough : fuel ≤ more) : resolveAll jf more os lk = .ok lk' := by
  have extend : Extends (resolveInstance jf fuel) (resolveInstance jf more) := by
    induction enough with
    | refl => exact fun _ _ _ same => same
    | step _ ih =>
      intro lk o result run
      exact resolveInstance_extends _ lk o result (ih lk o result run)
  induction os generalizing lk with
  | nil => exact run
  | cons o os ih =>
    rw [resolveAll] at run ⊢
    split at run
    · cases run
    · rename_i call
      rw [extend _ _ _ call]
      exact ih run

theorem resolveAll_cons {o : ObjRef} {os : List ObjRef} {n : BitVec 64}
    (call : resolveInstance jf fuel lk o = .ok (lk', n)) :
    resolveAll jf fuel (o :: os) lk = resolveAll jf fuel os lk' := by
  simp only [resolveAll, call]

/-- What printing in between does not touch. -/
theorem collectFrom_resolves {ckey : BitVec 64} {os : List ObjRef} {s s' : Screen}
    (run : collectFrom jf fuel ckey os lk s = .ok (lk', s')) :
    resolveAll jf fuel (os.filter fun o => ckey = (jf.hobject o).classId) lk = .ok lk' := by
  induction os generalizing lk s with
  | nil =>
    cases run
    rfl
  | cons o os ih =>
    rw [collectFrom] at run
    by_cases wanted : ckey = (jf.hobject o).classId
    · rw [if_pos wanted] at run
      have first : (o :: os).filter (fun o => ckey = (jf.hobject o).classId) =
          o :: os.filter fun o => ckey = (jf.hobject o).classId :=
        List.filter_cons_of_pos (by simpa using wanted)
      split at run
      · cases run
      · rename_i call
        split at run
        · cases run
        · rw [first, resolveAll_cons call]
          exact ih run
    · rw [if_neg wanted] at run
      rw [List.filter_cons_of_neg (by simpa using wanted)]
      exact ih run

end Objects

end Phat
