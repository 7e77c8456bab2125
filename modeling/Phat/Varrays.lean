import Phat.Repetition

/-! The primitive arrays of the heap: what resolving leaves in their records, whatever else
is resolved before and after. The classes need not be fit for it; where they are not, a run
stops. -/
namespace Phat

/-- What its turn leaves in the record of a primitive array with elements. -/
structure ArrayRead (jf : Jdump) (o : ObjRef) (ho : ObjLook) : Prop where
  xclassId : ho.xclassId = jf.xclassOf o
  osize : ho.osize = varraySize (jf.kindOf o) (jf.hobject o).count
  data : ∀ width, elementCase (jf.kindOf o) = some (width, true) →
    ho.hvalues = .bytes (jf.arrayData o width).1

/-- Of the primitive arrays those that are resolved have been read. -/
structure ArraysRead (jf : Jdump) (lk : Look) : Prop where
  fresh : ∀ o, (jf.hobject o).htype = .hVarray → (lk.objects o).resolved = false →
    (lk.objects o).xclassId = 0
  read : ∀ o, (jf.hobject o).htype = .hVarray → (lk.objects o).resolved = true →
    (jf.hobject o).count ≠ 0 → ArrayRead jf o (lk.objects o)

/-- A call keeps that. -/
def ReadsArrays (jf : Jdump) (visit : Look → ObjRef → Except Stop (Look × BitVec 64)) : Prop :=
  ∀ lk o lk' a, ArraysRead jf lk → visit lk o = .ok (lk', a) → ArraysRead jf lk'

section Varrays
variable {jf : Jdump} {lk lk' : Look} {o : ObjRef} {c : ClassRef} {a : BitVec 64}
  {visit : Look → ObjRef → Except Stop (Look × BitVec 64)}

theorem ArraysRead.initial (jf : Jdump) (memory : Look) : ArraysRead jf (.initial memory) where
  fresh _ _ _ := rfl
  read _ _ resolved := by cases resolved

theorem ArraysRead.congr (arrays : ArraysRead jf lk)
    (same : ∀ x, (jf.hobject x).htype = .hVarray → lk'.objects x = lk.objects x) :
    ArraysRead jf lk' where
  fresh x varray := by
    rw [same x varray]
    exact arrays.fresh x varray
  read x varray := by
    rw [same x varray]
    exact arrays.read x varray

/-- An assignment to the record of another object. -/
theorem ArraysRead.setObj (arrays : ArraysRead jf lk) (other : (jf.hobject o).htype ≠ .hVarray)
    (ho : ObjLook) : ArraysRead jf (lk.setObj o ho) := by
  refine arrays.congr fun x varray => Look.objects_setObj_of_ne _ _ _ ?_
  rintro rfl
  exact other varray

theorem ArraysRead.touch (arrays : ArraysRead jf lk) (pos : Nat) :
    ArraysRead jf ({ lk with pos := pos }.note (.touch pos)) :=
  arrays.congr fun _ _ => rfl

theorem followRef_arrays (reads : ReadsArrays jf visit) (other : (jf.hobject o).htype ≠ .hVarray)
    (arrays : ArraysRead jf lk) {ident : BitVec 64}
    (run : followRef visit jf lk o ident = .ok lk') : ArraysRead jf lk' := by
  rw [followRef] at run
  split at run
  · cases run
    exact arrays
  · rename_i dref _
    split at run
    · cases run
    · rename_i lk₁ size call
      obtain ⟨objects, _⟩ := arcAdd_frame run
      have called := reads lk dref lk₁ size arrays call
      have added := called.setObj other
        { lk₁.objects o with csize := (lk₁.objects o).csize + size }
      exact added.congr fun x _ => by rw [objects]

theorem elementLoop_arrays (reads : ReadsArrays jf visit)
    (other : (jf.hobject o).htype ≠ .hVarray) (arrays : ArraysRead jf lk) {n i : Nat}
    (run : elementLoop visit jf o n i lk = .ok lk') : ArraysRead jf lk' := by
  induction n generalizing i lk with
  | zero =>
    cases run
    exact arrays
  | succ n ih =>
    rw [elementLoop] at run
    split at run
    · cases run
    · split at run
      · cases run
      · rename_i lk₁ followed
        exact ih (followRef_arrays reads other arrays followed) run

theorem storeSlot_arrays (other : (jf.hobject o).htype ≠ .hVarray) (arrays : ArraysRead jf lk)
    {i : Nat} {stored : Option Hvalue} (run : storeSlot lk o i stored = .ok lk') :
    ArraysRead jf lk' := by
  unfold storeSlot at run
  split at run
  · cases run
    exact arrays
  · split at run
    · split at run
      · cases run
        exact arrays.setObj other _
      · cases run
    · cases run

theorem fieldLoop_arrays (reads : ReadsArrays jf visit)
    (other : (jf.hobject o).htype ≠ .hVarray) (arrays : ArraysRead jf lk) {n i : Nat}
    {size size' : BitVec 64} (run : fieldLoop visit jf o c n i size lk = .ok (lk', size')) :
    ArraysRead jf lk' := by
  induction n generalizing i size lk with
  | zero =>
    cases run
    exact arrays
  | succ n ih =>
    rw [fieldLoop] at run
    split at run
    · rename_i info _ _
      generalize readField jf o i info.ftype _ = field at run
      simp only at run
      split at run
      · cases run
      · rename_i lk₁ stored
        have first := storeSlot_arrays other (arrays.touch field.pos) stored
        split at run
        · cases run
        · rename_i lk₂ followed
          unfold followStored at followed
          split at followed
          · exact ih (followRef_arrays reads other first followed) run
          · cases followed
            exact ih first run
    · cases run

theorem Look.settle_objects (lk : Look) (o : ObjRef) (c : ClassRef) (size : BitVec 64) :
    (lk.settle o c size).objects =
      Function.update lk.objects o { lk.objects o with osize := size } := rfl

theorem ArraysRead.settle (arrays : ArraysRead jf lk) (other : (jf.hobject o).htype ≠ .hVarray)
    (c : ClassRef) (size : BitVec 64) : ArraysRead jf (lk.settle o c size) :=
  (arrays.setObj other _).congr fun _ _ => rfl

theorem resolveOarray_arrays (reads : ReadsArrays jf visit)
    (other : (jf.hobject o).htype ≠ .hVarray) (arrays : ArraysRead jf lk)
    (run : resolveOarray visit jf lk o c = .ok (lk', a)) : ArraysRead jf lk' := by
  rw [resolveOarray] at run
  simp only at run
  split at run
  · cases run
    exact arrays.congr fun _ _ => rfl
  · split at run
    · cases run
    · generalize readElements jf o _ 0 _ = elements at run
      split at run
      · cases run
      · rename_i lk₁ loop
        have first := elementLoop_arrays reads other
          ((arrays.setObj other _).touch elements.2) loop
        cases run
        exact (first.settle other c _).congr fun _ _ => rfl

theorem resolveFields_arrays (reads : ReadsArrays jf visit)
    (other : (jf.hobject o).htype ≠ .hVarray) (arrays : ArraysRead jf lk)
    (run : resolveFields visit jf lk o c = .ok (lk', a)) : ArraysRead jf lk' := by
  rw [resolveFields] at run
  simp only at run
  split at run
  · cases run
  · rename_i lk₁ size loop
    have first := fieldLoop_arrays reads other (arrays.setObj other _) loop
    cases run
    exact (first.settle other c _).congr fun _ _ => rfl

/-- The turn of a primitive array. It reads the array and leaves the other records alone. -/
theorem resolveVarray_reads (classOf : jf.classOf o = some c)
    (fresh : (lk.objects o).xclassId = 0) (run : resolveVarray jf lk o c = .ok (lk', a)) :
    (∀ x, x ≠ o → lk'.objects x = lk.objects x) ∧
      ((lk'.objects o).resolved = (lk.objects o).resolved) ∧
      ((jf.hobject o).count ≠ 0 → ArrayRead jf o (lk'.objects o)) := by
  rw [resolveVarray] at run
  generalize (if maxCount 8 ≤ (jf.hobject o).count.toNat then Hvalues.null else .bytes []) =
    hvalues at run
  simp only at run
  split at run
  · rename_i none
    cases run
    refine ⟨fun x apart => ?_, ?_, fun some => absurd none some⟩
    · simp [Look.note, Look.setObj, apart]
    · simp [Look.note, Look.setObj]
  · split at run
    · cases run
    · rename_i xclass found
      simp only [Look.setObj_setObj, Look.objects_setObj_self] at run found
      have own : jf.xclassOf o = xclass := by
        rw [Jdump.xclassOf, classOf]
        simp only
        rw [← fresh, found, Option.getD_some]
      have kind : jf.kindOf o = arrayKind xclass (jf.hobject o).classId := by
        rw [Jdump.kindOf, own]
      rw [← kind] at run
      split at run
      · rename_i width case
        split at run
        · cases run
        · cases run
          refine ⟨fun x apart => ?_, ?_, fun _ => ⟨?_, ?_, fun other also => ?_⟩⟩
          · simp [Look.note, Look.setObj, Look.settle_objects, apart]
          · simp [Look.note, Look.setObj, Look.settle_objects]
          · simp [Look.note, Look.setObj, Look.settle_objects, own]
          · simp [Look.note, Look.setObj, Look.settle_objects]
          · rw [case] at also
            cases also
            simp [Look.note, Look.setObj, Look.settle_objects, Jdump.arrayData]
      · rename_i unread
        cases run
        refine ⟨fun x apart => ?_, ?_, fun _ => ⟨?_, ?_, fun other also => ?_⟩⟩
        · simp [Look.note, Look.setObj, Look.settle_objects, apart]
        · simp [Look.note, Look.setObj, Look.settle_objects]
        · simp [Look.note, Look.setObj, Look.settle_objects, own]
        · simp [Look.note, Look.setObj, Look.settle_objects]
        · exact absurd also (unread other)

theorem resolveInstance_arrays (fuel : Nat) : ReadsArrays jf (resolveInstance jf fuel) := by
  induction fuel with
  | zero =>
    intro lk o lk' a _ run
    cases run
  | succ fuel ih =>
    intro lk o lk' a arrays run
    cases unmarked : (lk.objects o).resolved with
    | true =>
      rw [resolveInstance_marked fuel unmarked] at run
      cases run
      exact arrays.congr fun _ _ => rfl
    | false =>
      rw [resolveInstance] at run
      simp only [unmarked, Bool.false_eq_true, if_false] at run
      split at run
      · cases run
      · rename_i c classOf
        split at run
        · cases run
        · rename_i lk₁ laid
          have objects : lk₁.objects =
              (lk.setObj o { lk.objects o with resolved := true }).objects := by
            split at laid
            · cases laid
              rfl
            · have same := resolveClassNode_frame laid ((lk.setObj o
                { lk.objects o with resolved := true }).note (.enter o))
              rw [laid] at same
              rw [Except.ok.inj same]
              rfl
          have marked : (jf.hobject o).htype ≠ .hVarray → ArraysRead jf lk₁ := fun other =>
            (arrays.setObj other _).congr fun _ _ => by rw [objects]
          cases htype : (jf.hobject o).htype with
          | hVarray =>
            simp only [htype] at run
            have fresh : (lk₁.objects o).xclassId = 0 := by
              rw [objects, Look.objects_setObj_self]
              exact arrays.fresh o htype unmarked
            have resolved : (lk₁.objects o).resolved = true := by
              rw [objects, Look.objects_setObj_self]
            obtain ⟨others, still, read⟩ := resolveVarray_reads classOf fresh run
            have same : ∀ x, x ≠ o → lk'.objects x = lk.objects x := by
              intro x apart
              rw [others x apart, objects, Look.objects_setObj_of_ne _ _ _ apart]
            constructor
            · intro x varray unresolved
              by_cases here : x = o
              · subst here
                rw [still, resolved] at unresolved
                cases unresolved
              · rw [same x here] at unresolved ⊢
                exact arrays.fresh x varray unresolved
            · intro x varray done some
              by_cases here : x = o
              · subst here
                exact read some
              · rw [same x here] at done ⊢
                exact arrays.read x varray done some
          | hOarray =>
            simp only [htype] at run
            have other : (jf.hobject o).htype ≠ .hVarray := by rw [htype]; decide
            exact resolveOarray_arrays ih other (marked other) run
          | hInstance =>
            simp only [htype] at run
            have other : (jf.hobject o).htype ≠ .hVarray := by rw [htype]; decide
            exact resolveFields_arrays ih other (marked other) run

/-- In whatever order the objects are resolved. -/
theorem resolveAll_arrays {fuel : Nat} {os : List ObjRef} (arrays : ArraysRead jf lk)
    (run : resolveAll jf fuel os lk = .ok lk') : ArraysRead jf lk' := by
  induction os generalizing lk with
  | nil =>
    cases run
    exact arrays
  | cons o os ih =>
    rw [resolveAll] at run
    split at run
    · cases run
    · rename_i lk₁ a call
      exact ih (resolveInstance_arrays fuel lk o lk₁ a arrays call) run

end Varrays

end Phat
