import Phat.Retained

/-! A later call of `resolveInstance` on the same object. Nothing but the turn of an object
assigns the members its value is made of, so it returns what the first call returned,
unless that call left one of them unassigned. -/
namespace Phat

section Classes
variable {jf : Jdump} {fuel : Nat} {c : ClassRef} {lk lk' : Look}

/-- Class resolution reads and writes nothing but classes. -/
theorem fillValues_frame {n fieldNo index size : Nat} {cc : ClassRef} {target : Int}
    (run : fillValues jf fuel c n cc fieldNo target index lk = .ok (size, lk')) (other : Look) :
    fillValues jf fuel c n cc fieldNo target index { other with classes := lk.classes } =
      .ok (size, { other with classes := lk'.classes }) := by
  induction n generalizing cc fieldNo target index lk with
  | zero =>
    cases run
    rfl
  | succ n ih =>
    rw [fillValues] at run ⊢
    split at run
    · cases run
    · rename_i cc fieldNo target found
      split at run
      · cases run
      · rename_i decl here
        simp only at run ⊢
        split at run
        · cases run
        · rename_i values stored
          have same : storeValue (lk.classes c).values (target + fieldNo) (layoutField jf
              { other with classes := lk.classes } c cc fieldNo decl index) = .ok values := stored
          rw [same]
          exact ih run

theorem layOut_frame {tfields : Int} (run : layOut jf fuel lk c tfields = .ok lk') (other : Look) :
    layOut jf fuel { other with classes := lk.classes } c tfields =
      .ok { other with classes := lk'.classes } := by
  rw [layOut] at run ⊢
  split
  · rename_i some
    rw [if_pos some] at run
    split
    · rename_i many
      rw [if_pos many] at run
      cases run
    · rename_i few
      rw [if_neg few] at run
      simp only at run ⊢
      split at run
      · cases run
      · rename_i index lk₁ filled
        have same := fillValues_frame filled other
        simp only [Look.setClass] at same ⊢
        rw [same]
        cases run
        rfl
  · rename_i none
    rw [if_neg none] at run
    cases run
    rfl

theorem resolveClassNode_frame (run : resolveClassNode jf fuel lk c = .ok lk') (other : Look) :
    resolveClassNode jf fuel { other with classes := lk.classes } c =
      .ok { other with classes := lk'.classes } := by
  induction fuel generalizing c lk lk' with
  | zero => cases run
  | succ fuel ih =>
    rw [resolveClassNode] at run ⊢
    split
    · rename_i marked
      rw [if_pos marked] at run
      cases run
      rfl
    · rename_i unmarked
      rw [if_neg unmarked] at run
      cases size : jf.resolveSClassSize (fuel + 1) c with
      | error stop =>
        rw [size] at run
        cases run
      | ok tfields =>
        simp only [size] at run ⊢
        cases found : jf.getSuperClass c with
        | none =>
          simp only [found] at run ⊢
          split at run
          · cases run
          · rename_i lk₂ laid
            have laid' := layOut_frame laid other
            simp only [Look.setClass] at laid' ⊢
            rw [laid']
            cases run
            rfl
        | some super =>
          simp only [found] at run ⊢
          split at run
          · cases run
          · rename_i lk₁ above
            have above' := ih above
            simp only [Look.setClass] at above' ⊢
            rw [above']
            simp only
            split at run
            · cases run
            · rename_i lk₂ laid
              rw [layOut_frame laid other]
              cases run
              rfl

end Classes

/-- Nothing has been added to an object before its turn. -/
def Look.Clear (lk : Look) : Prop :=
  ∀ x, (lk.objects x).resolved = false → (lk.objects x).csize = 0

/-- In the whole of a run, the call that entered `x` returned `a`, and so did every call
on `x` after it. -/
def Repeats (jf : Jdump) (x : ObjRef) (a : BitVec 64) (whole : Trace) : Prop :=
  ∃ fuel lk lk' after, (lk.objects x).resolved = false ∧
    resolveInstance jf fuel lk x = .ok (lk', a) ∧ whole = lk'.trace ++ after ∧
    ∀ b, .ret x b ∈ after → b = a

/-- What a part of a run does to the values of objects other than the running ones. -/
structure Kept (jf : Jdump) (running : ObjRef → Prop) (lk lk' : Look) (trace : Trace) : Prop where
  traced : lk'.trace = lk.trace ++ trace
  marked : ∀ x, (lk.objects x).resolved = true → (lk'.objects x).resolved = true
  clear : lk'.Clear
  total : ∀ x, ¬ running x → (lk.objects x).resolved = true → lk'.total x = lk.total x
  same : ∀ x b, ¬ running x → (lk.objects x).resolved = true → .ret x b ∈ trace → b = lk.total x
  entered : ∀ x, (lk.objects x).resolved = false → (lk'.objects x).resolved = true →
    ¬ jf.Empty x → Repeats jf x (lk'.total x) lk'.trace

section Kept
variable {jf : Jdump} {running : ObjRef → Prop} {lk lk₁ lk' : Look} {trace trace' : Trace}
  {o : ObjRef} {c : ClassRef} {visit : Look → ObjRef → Except Stop (Look × BitVec 64)}

theorem Kept.refl (clear : lk.Clear) : Kept jf running lk lk [] where
  traced := (List.append_nil _).symm
  marked _ resolved := resolved
  clear := clear
  total _ _ _ := rfl
  same x b _ _ member := by cases member
  entered x fresh resolved := by
    rw [fresh] at resolved
    cases resolved

theorem Kept.trans (first : Kept jf running lk lk₁ trace) (second : Kept jf running lk₁ lk' trace')
    (started : ∀ x, running x → (lk.objects x).resolved = true) :
    Kept jf running lk lk' (trace ++ trace') where
  traced := by rw [second.traced, first.traced, List.append_assoc]
  marked x resolved := second.marked x (first.marked x resolved)
  clear := second.clear
  total x still resolved :=
    (second.total x still (first.marked x resolved)).trans (first.total x still resolved)
  same x b still resolved member := by
    rcases List.mem_append.mp member with early | late
    · exact first.same x b still resolved early
    · rw [second.same x b still (first.marked x resolved) late, first.total x still resolved]
  entered x fresh resolved full := by
    have still : ¬ running x := by
      intro runs
      rw [started x runs] at fresh
      cases fresh
    cases before : (lk₁.objects x).resolved with
    | true =>
      obtain ⟨fuel, lk₂, lk₃, after, unmarked, call, whole, repeated⟩ :=
        first.entered x fresh before full
      rw [second.total x still before]
      refine ⟨fuel, lk₂, lk₃, after ++ trace', unmarked, call, ?_, ?_⟩
      · rw [second.traced, whole, List.append_assoc]
      · intro b member
        rcases List.mem_append.mp member with early | late
        · exact repeated b early
        · exact second.same x b still before late
    | false => exact second.entered x before resolved full

theorem Kept.weaken (kept : Kept jf (fun _ => False) lk lk' trace) : Kept jf running lk lk' trace :=
  { kept with
    total := fun x _ => kept.total x id
    same := fun x b _ => kept.same x b id }

/-- An instant of the turn of `o`. -/
theorem Kept.instant (clear : lk.Clear) (turn : (lk.objects o).resolved = true)
    (still : (lk'.objects o).resolved = true) (others : ∀ x, x ≠ o → lk'.objects x = lk.objects x)
    (traced : lk'.trace = lk.trace ++ trace) (own : ∀ x b, .ret x b ∈ trace → x = o) :
    Kept jf (· = o) lk lk' trace where
  traced := traced
  marked x resolved := by
    by_cases here : x = o
    · rw [here]
      exact still
    · rw [others x here]
      exact resolved
  clear x fresh := by
    have apart : x ≠ o := by
      rintro rfl
      rw [still] at fresh
      cases fresh
    rw [others x apart] at fresh ⊢
    exact clear x fresh
  total x apart _ := by rw [Look.total, others x apart, Look.total]
  same x b apart _ member := absurd (own x b member) apart
  entered x fresh resolved _ := by
    have apart : x ≠ o := by
      rintro rfl
      rw [turn] at fresh
      cases fresh
    rw [others x apart, fresh] at resolved
    cases resolved

theorem arcAdd_frame {hop hoc : ObjRef} {n : Int} (run : arcAdd jf lk hop hoc n = .ok lk') :
    lk'.objects = lk.objects ∧ lk'.trace = lk.trace := by
  rw [arcAdd] at run
  split at run
  · split at run
    · cases run
      exact ⟨rfl, rfl⟩
    · rw [newArc] at run
      split at run
      · cases run
      · cases run
        rw [putArc]
        constructor
        · simp only [Look.setClass]
          split <;> rfl
        · simp only [Look.setClass]
          split <;> rfl
  · cases run

/-- Calls of `visit` keep the value of every object. -/
def Keeps (jf : Jdump) (visit : Look → ObjRef → Except Stop (Look × BitVec 64)) : Prop :=
  ∀ lk x lk' a, lk.Clear → visit lk x = .ok (lk', a) →
    ∃ trace, Kept jf (fun _ => False) lk lk' trace

theorem followRef_kept (keeps : Keeps jf visit) (clear : lk.Clear)
    (turn : (lk.objects o).resolved = true) {ident : BitVec 64}
    (run : followRef visit jf lk o ident = .ok lk') : ∃ trace, Kept jf (· = o) lk lk' trace := by
  rw [followRef] at run
  split at run
  · cases run
    exact ⟨[], .refl clear⟩
  · rename_i dref _
    split at run
    · cases run
    · rename_i lk₁ size call
      obtain ⟨trace, kept⟩ := keeps lk dref lk₁ size clear call
      obtain ⟨objects, traced⟩ := arcAdd_frame run
      have still := kept.marked o turn
      have added : Kept jf (· = o) lk₁ lk' [] := by
        apply Kept.instant kept.clear still
        · rw [objects, Look.objects_setObj_self]
          exact still
        · intro x apart
          rw [objects, Look.objects_setObj_of_ne _ _ _ apart]
        · rw [traced, List.append_nil]
          rfl
        · intro x b member
          cases member
      exact ⟨trace ++ [], kept.weaken.trans added fun x same => same ▸ turn⟩

theorem elementLoop_kept (keeps : Keeps jf visit) (clear : lk.Clear)
    (turn : (lk.objects o).resolved = true) {n i : Nat}
    (run : elementLoop visit jf o n i lk = .ok lk') : ∃ trace, Kept jf (· = o) lk lk' trace := by
  induction n generalizing i lk with
  | zero =>
    cases run
    exact ⟨[], .refl clear⟩
  | succ n ih =>
    rw [elementLoop] at run
    split at run
    · cases run
    · split at run
      · cases run
      · rename_i lk₁ followed
        obtain ⟨trace, first⟩ := followRef_kept keeps clear turn followed
        obtain ⟨trace', second⟩ := ih first.clear (first.marked o turn) run
        exact ⟨trace ++ trace', first.trans second fun x same => same ▸ turn⟩

theorem storeSlot_kept {stored : Option Hvalue} {i : Nat} (clear : lk.Clear)
    (turn : (lk.objects o).resolved = true) (run : storeSlot lk o i stored = .ok lk') :
    Kept jf (· = o) lk lk' [] := by
  unfold storeSlot at run
  split at run
  · cases run
    exact .refl clear
  · split at run
    · split at run
      · cases run
        apply Kept.instant clear turn
        · rw [Look.objects_setObj_self]
          exact turn
        · exact fun x apart => Look.objects_setObj_of_ne _ _ _ apart
        · exact (List.append_nil _).symm
        · intro x b member
          cases member
      · cases run
    · cases run

theorem followStored_kept (keeps : Keeps jf visit) (clear : lk.Clear)
    (turn : (lk.objects o).resolved = true) {stored : Option Hvalue}
    (run : followStored visit jf lk o stored = .ok lk') :
    ∃ trace, Kept jf (· = o) lk lk' trace := by
  unfold followStored at run
  split at run
  · exact followRef_kept keeps clear turn run
  · cases run
    exact ⟨[], .refl clear⟩

theorem fieldLoop_kept (keeps : Keeps jf visit) (clear : lk.Clear)
    (turn : (lk.objects o).resolved = true) {n i : Nat} {size size' : BitVec 64}
    (run : fieldLoop visit jf o c n i size lk = .ok (lk', size')) :
    ∃ trace, Kept jf (· = o) lk lk' trace := by
  induction n generalizing i size lk with
  | zero =>
    cases run
    exact ⟨[], .refl clear⟩
  | succ n ih =>
    rw [fieldLoop] at run
    split at run
    · rename_i info _ _
      simp only at run
      have moved : ∀ pos, Kept jf (· = o) lk ({ lk with pos := pos }.note (.touch pos))
          [.touch pos] := by
        intro pos
        apply Kept.instant clear turn
        · exact turn
        · exact fun _ _ => rfl
        · rfl
        · intro x b member
          cases List.mem_singleton.mp member
      split at run
      · cases run
      · rename_i lk₁ stored
        have first := (moved _).trans (storeSlot_kept (moved _).clear turn stored)
          fun x same => same ▸ turn
        split at run
        · cases run
        · rename_i lk₂ followed
          obtain ⟨trace, second⟩ := followStored_kept keeps first.clear (first.marked o turn) followed
          have both := first.trans second fun x same => same ▸ turn
          obtain ⟨trace', third⟩ := ih both.clear (both.marked o turn) run
          exact ⟨_, both.trans third fun x same => same ▸ turn⟩
    · cases run

/-- The end of a turn that assigns the sizes. -/
theorem Kept.settle (kept : Kept jf (· = o) lk lk₁ trace) (turn : (lk.objects o).resolved = true)
    (c : ClassRef) (size a : BitVec 64) :
    Kept jf (· = o) lk ((lk₁.settle o c size).note (.ret o a)) (trace ++ [.ret o a]) := by
  have still := kept.marked o turn
  refine kept.trans (.instant kept.clear still ?_ ?_ rfl ?_) fun x same => same ▸ turn
  · simpa [Look.settle, Look.note, Look.setClass, Look.setObj] using still
  · intro x apart
    simp [Look.settle, Look.note, Look.setClass, Look.setObj, apart]
  · intro x b member
    cases List.mem_singleton.mp member
    rfl

theorem resolveVarray_kept (clear : lk.Clear) (turn : (lk.objects o).resolved = true)
    (csize : (lk.objects o).csize = 0) (varray : (jf.hobject o).htype = .hVarray) {a : BitVec 64}
    (run : resolveVarray jf lk o c = .ok (lk', a)) :
    ∃ trace, Kept jf (· = o) lk lk' trace ∧ (¬ jf.Empty o → a = lk'.total o) := by
  have assigned : ∀ ho : ObjLook, ho.resolved = true → ho.csize = 0 → ∀ pos size,
      ∃ trace, Kept jf (· = o) lk
        ((({ lk.setObj o ho with pos := pos }.note (.touch pos)).settle o c size).note
          (.ret o size)) trace ∧
        (¬ jf.Empty o → size = Look.total ((({ lk.setObj o ho with pos := pos }.note
          (.touch pos)).settle o c size).note (.ret o size)) o) := by
    intro ho marked below pos size
    have first : Kept jf (· = o) lk ({ lk.setObj o ho with pos := pos }.note (.touch pos))
        [.touch pos] := by
      apply Kept.instant clear turn
      · simp [Look.note, Look.setObj, marked]
      · intro x apart
        simp [Look.note, Look.setObj, apart]
      · rfl
      · intro x b member
        cases List.mem_singleton.mp member
    refine ⟨_, first.settle turn c size size, fun _ => ?_⟩
    simp [Look.total, Look.settle, Look.note, Look.setClass, Look.setObj, below]
  rw [resolveVarray] at run
  generalize (if maxCount 8 ≤ (jf.hobject o).count.toNat then Hvalues.null else .bytes []) =
    hvalues at run
  simp only at run
  split at run
  · rename_i none
    have empty : jf.Empty o := ⟨by rw [varray]; decide, none⟩
    cases run
    refine ⟨[.ret o 0], ?_, fun full => absurd empty full⟩
    apply Kept.instant clear turn
    · simpa [Look.leave, Look.note, Look.setObj] using turn
    · intro x apart
      simp [Look.note, Look.setObj, apart]
    · rfl
    · intro x b member
      cases List.mem_singleton.mp member
      rfl
  · split at run
    · cases run
    · rename_i xclass _
      simp only [Look.setObj_setObj, Look.objects_setObj_self] at run
      split at run
      · split at run
        · cases run
        · cases run
          exact assigned { lk.objects o with hvalues := .bytes _, xclassId := xclass } turn csize _ _
      · cases run
        exact assigned { lk.objects o with hvalues := hvalues, xclassId := xclass } turn csize _ _

theorem resolveOarray_kept (keeps : Keeps jf visit) (clear : lk.Clear)
    (turn : (lk.objects o).resolved = true) (oarray : (jf.hobject o).htype = .hOarray)
    {a : BitVec 64} (run : resolveOarray visit jf lk o c = .ok (lk', a)) :
    ∃ trace, Kept jf (· = o) lk lk' trace ∧ (¬ jf.Empty o → a = lk'.total o) := by
  rw [resolveOarray] at run
  simp only at run
  split at run
  · rename_i none
    have empty : jf.Empty o := ⟨by rw [oarray]; decide, none⟩
    cases run
    refine ⟨[.ret o 0], ?_, fun full => absurd empty full⟩
    apply Kept.instant clear turn
    · exact turn
    · exact fun _ _ => rfl
    · rfl
    · intro x b member
      cases List.mem_singleton.mp member
      rfl
  · split at run
    · cases run
    · generalize readElements jf o _ 0 _ = elements at run
      have first : Kept jf (· = o) lk ({ lk.setObj o { lk.objects o with
          hvalues := .values (elements.1.map .ident) } with pos := elements.2 }.note
            (.touch elements.2)) [.touch elements.2] := by
        apply Kept.instant clear turn
        · simpa [Look.note, Look.setObj] using turn
        · intro x apart
          simp [Look.note, Look.setObj, apart]
        · rfl
        · intro x b member
          cases List.mem_singleton.mp member
      split at run
      · cases run
      · rename_i lk₁ loop
        obtain ⟨trace, second⟩ := elementLoop_kept keeps first.clear (first.marked o turn) loop
        have both := first.trans second fun x same => same ▸ turn
        cases run
        exact ⟨_, both.settle turn c _ _, fun _ => rfl⟩

theorem resolveFields_kept (keeps : Keeps jf visit) (clear : lk.Clear)
    (turn : (lk.objects o).resolved = true) {a : BitVec 64}
    (run : resolveFields visit jf lk o c = .ok (lk', a)) :
    ∃ trace, Kept jf (· = o) lk lk' trace ∧ a = lk'.total o := by
  rw [resolveFields] at run
  simp only at run
  have first : Kept jf (· = o) lk (lk.setObj o { lk.objects o with
      hvalues := instanceSlots (lk.classes c).tfields (lk.objects o).hvalues }) [] := by
    apply Kept.instant clear turn
    · simpa [Look.setObj] using turn
    · intro x apart
      simp [Look.setObj, apart]
    · exact (List.append_nil _).symm
    · intro x b member
      cases member
  split at run
  · cases run
  · rename_i lk₁ size loop
    obtain ⟨trace, second⟩ := fieldLoop_kept keeps first.clear (first.marked o turn) loop
    have both := first.trans second fun x same => same ▸ turn
    cases run
    exact ⟨_, both.settle turn c _ _, rfl⟩

/-- What a call does on an object that is resolved already: it returns the value kept. -/
theorem resolveInstance_marked (fuel : Nat) (marked : (lk.objects o).resolved = true) :
    resolveInstance jf (fuel + 1) lk o = .ok (lk.note (.ret o (lk.total o)), lk.total o) := by
  rw [resolveInstance]
  simp only [marked, if_true]
  rfl

theorem resolveInstance_keeps (fuel : Nat) : Keeps jf (resolveInstance jf fuel) := by
  induction fuel with
  | zero =>
    intro lk o lk' a _ run
    cases run
  | succ fuel ih =>
    intro lk o lk' a clear run
    cases fresh : (lk.objects o).resolved with
    | true =>
      rw [resolveInstance_marked fuel fresh] at run
      cases run
      refine ⟨[.ret o (lk.total o)], rfl, fun _ same => same, clear, fun _ _ _ => rfl, ?_, ?_⟩
      · intro x b _ _ member
        cases List.mem_singleton.mp member
        rfl
      · intro x unmarked resolved
        change (lk.objects x).resolved = true at resolved
        rw [unmarked] at resolved
        cases resolved
    | false =>
      have call := run
      rw [resolveInstance] at run
      simp only [fresh, Bool.false_eq_true, if_false] at run
      split at run
      · cases run
      · rename_i c classOf
        split at run
        · cases run
        · rename_i lk₁ laid
          have frame : lk₁.objects = (lk.setObj o { lk.objects o with resolved := true }).objects ∧
              lk₁.trace = lk.trace ++ [.enter o] := by
            split at laid
            · cases laid
              exact ⟨rfl, rfl⟩
            · have same := resolveClassNode_frame laid ((lk.setObj o
                { lk.objects o with resolved := true }).note (.enter o))
              rw [laid] at same
              have whole := Except.ok.inj same
              rw [whole]
              exact ⟨rfl, rfl⟩
          obtain ⟨objects, traced⟩ := frame
          have self : lk₁.objects o = { lk.objects o with resolved := true } := by
            rw [objects, Look.objects_setObj_self]
          have others : ∀ x, x ≠ o → lk₁.objects x = lk.objects x := by
            intro x apart
            rw [objects, Look.objects_setObj_of_ne _ _ _ apart]
          have turn : (lk₁.objects o).resolved = true := by
            rw [self]
          have clear₁ : lk₁.Clear := by
            intro x unmarked
            have apart : x ≠ o := by
              rintro rfl
              rw [turn] at unmarked
              cases unmarked
            rw [others x apart] at unmarked ⊢
            exact clear x unmarked
          have csize : (lk₁.objects o).csize = 0 := by
            rw [self]
            exact clear o fresh
          have finished : ∃ trace, Kept jf (· = o) lk₁ lk' trace ∧ (¬ jf.Empty o → a = lk'.total o) := by
            split at run
            · exact resolveVarray_kept clear₁ turn csize ‹_› run
            · exact resolveOarray_kept ih clear₁ turn ‹_› run
            · obtain ⟨trace, kept, total⟩ := resolveFields_kept ih clear₁ turn run
              exact ⟨trace, kept, fun _ => total⟩
          obtain ⟨trace, kept, total⟩ := finished
          have apart : ∀ x, (lk.objects x).resolved = true → x ≠ o := by
            rintro x resolved rfl
            rw [fresh] at resolved
            cases resolved
          refine ⟨.enter o :: trace, ?_, ?_, kept.clear, ?_, ?_, ?_⟩
          · rw [kept.traced, traced, List.append_assoc]
            rfl
          · intro x resolved
            apply kept.marked
            rwa [others x (apart x resolved)]
          · intro x _ resolved
            have other := apart x resolved
            rw [kept.total x other (by rwa [others x other]), Look.total, others x other, Look.total]
          · intro x b _ resolved member
            have other := apart x resolved
            rcases List.mem_cons.mp member with wrong | member
            · cases wrong
            · rw [kept.same x b other (by rwa [others x other]) member, Look.total, others x other,
                Look.total]
          · intro x unmarked resolved full
            by_cases here : x = o
            · subst here
              rw [← total full]
              refine ⟨fuel + 1, lk, lk', [], fresh, call, (List.append_nil _).symm, ?_⟩
              intro b member
              cases member
            · exact kept.entered x (by rwa [others x here]) resolved full

theorem resolveAll_kept {fuel : Nat} {os : List ObjRef} (clear : lk.Clear)
    (run : resolveAll jf fuel os lk = .ok lk') : ∃ trace, Kept jf (fun _ => False) lk lk' trace := by
  induction os generalizing lk with
  | nil =>
    cases run
    exact ⟨[], .refl clear⟩
  | cons o os ih =>
    rw [resolveAll] at run
    split at run
    · cases run
    · rename_i lk₁ a call
      obtain ⟨trace, first⟩ := resolveInstance_keeps fuel lk o lk₁ a clear call
      obtain ⟨trace', second⟩ := ih first.clear run
      exact ⟨trace ++ trace', first.trans second fun _ impossible => impossible.elim⟩

end Kept

/-- Whatever memory a run starts in and whatever outermost calls it makes, all calls on `o`
from the one that enters it on return one value; and a further one would, too, changing
nothing but the record of it. -/
def Repeating (jf : Jdump) (o : ObjRef) : Prop :=
  ∀ memory roots fuel lk, resolveAll jf fuel roots (.initial memory) = .ok lk →
    (lk.objects o).resolved = true → ∃ a, Repeats jf o a lk.trace ∧
      ∀ more, resolveInstance jf (more + 1) lk o = .ok (lk.note (.ret o a), a)

section Empty
variable {jf : Jdump} {fuel : Nat} {lk lk' : Look} {o : ObjRef} {c : ClassRef} {a : BitVec 64}

theorem Look.initial_clear (memory : Look) : (Look.initial memory).Clear := fun _ _ => rfl

theorem repeating_of_full (full : ¬ jf.Empty o) : Repeating jf o := by
  intro memory roots fuel lk run resolved
  obtain ⟨trace, kept⟩ := resolveAll_kept (Look.initial_clear memory) run
  refine ⟨lk.total o, kept.entered o rfl resolved full, fun more => ?_⟩
  exact resolveInstance_marked more resolved

/-- What resolving the class before the turn of `o` leaves. -/
def laidFor (jf : Jdump) (fuel : Nat) (lk : Look) (o : ObjRef) (c : ClassRef) : Except Stop Look :=
  let lk := (lk.setObj o { lk.objects o with resolved := true }).note (.enter o)
  if (lk.classes c).resolved then .ok lk else resolveClassNode jf fuel lk c

/-- It leaves everything but classes alone, and looks at nothing else. -/
theorem laidFor_frame {lk₁ : Look} (laid : laidFor jf fuel lk o c = .ok lk₁) :
    lk₁ = { (lk.setObj o { lk.objects o with resolved := true }).note (.enter o) with
      classes := lk₁.classes } ∧
    ∀ other : Look, other.classes = lk.classes → laidFor jf fuel other o c =
      .ok { (other.setObj o { other.objects o with resolved := true }).note (.enter o) with
        classes := lk₁.classes } := by
  rw [laidFor] at laid
  simp only at laid
  split at laid
  · rename_i marked
    cases laid
    refine ⟨rfl, fun other same => ?_⟩
    have marked' : (lk.classes c).resolved = true := marked
    rw [laidFor]
    simp only [Look.note, Look.setObj, same, marked', if_true]
  · rename_i unmarked
    have frame := resolveClassNode_frame laid
    constructor
    · exact Except.ok.inj (laid.symm.trans (frame ((lk.setObj o
        { lk.objects o with resolved := true }).note (.enter o))))
    · intro other same
      have unmarked' : ¬ (lk.classes c).resolved = true := unmarked
      have again := frame ((other.setObj o { other.objects o with resolved := true }).note (.enter o))
      rw [laidFor]
      simp only [Look.note, Look.setObj, same, if_neg unmarked'] at again ⊢
      exact again

/-- The call that enters an empty array assigns neither of its sizes. -/
theorem resolveInstance_empty {lk₁ : Look} (empty : jf.Empty o)
    (fresh : (lk.objects o).resolved = false) (classOf : jf.classOf o = some c)
    (laid : laidFor jf (fuel + 1) lk o c = .ok lk₁) : ∃ hvalues, resolveInstance jf (fuel + 1) lk o =
      .ok ((lk₁.setObj o { lk₁.objects o with hvalues := hvalues }).leave o 0) := by
  obtain ⟨array, none⟩ := empty
  rw [Jdump.classOf] at classOf
  rw [laidFor] at laid
  rw [resolveInstance]
  simp only [fresh, Bool.false_eq_true, if_false, classOf] at laid ⊢
  rw [laid]
  simp only
  split
  · rw [resolveVarray]
    simp only [if_pos none]
    exact ⟨_, rfl⟩
  · rw [resolveOarray]
    simp only [if_pos none]
    refine ⟨(lk₁.objects o).hvalues, ?_⟩
    have same : lk₁.setObj o { lk₁.objects o with hvalues := (lk₁.objects o).hvalues } = lk₁ := by
      rw [Look.setObj, Function.update_eq_self]
    rw [same]
  · rename_i inst
    exact absurd inst array

theorem resolveInstance_laid (fresh : (lk.objects o).resolved = false)
    (run : resolveInstance jf fuel lk o = .ok (lk', a)) : ∃ less c lk₁, fuel = less + 1 ∧
      jf.classOf o = some c ∧ laidFor jf (less + 1) lk o c = .ok lk₁ := by
  obtain _ | fuel := fuel
  · cases run
  rw [resolveInstance] at run
  simp only [fresh, Bool.false_eq_true, if_false] at run
  split at run
  · cases run
  · rename_i c classOf
    split at run
    · cases run
    · rename_i lk₁ laid
      exact ⟨fuel, c, lk₁, rfl, classOf, laid⟩

/-- So it returns 0. -/
theorem resolveInstance_empty_ok (empty : jf.Empty o) (fresh : (lk.objects o).resolved = false)
    (run : resolveInstance jf fuel lk o = .ok (lk', a)) :
    a = 0 ∧ lk'.trace = lk.trace ++ [.enter o, .ret o 0] ∧ lk'.total o = lk.total o ∧
      (lk'.objects o).resolved = true := by
  obtain ⟨less, c, lk₁, rfl, classOf, laid⟩ := resolveInstance_laid fresh run
  obtain ⟨hvalues, value⟩ := resolveInstance_empty empty fresh classOf laid
  rw [(laidFor_frame laid).1, run] at value
  cases value
  refine ⟨rfl, ?_, ?_, ?_⟩
  · simp [Look.note, Look.setObj]
  · simp [Look.total, Look.note, Look.setObj]
  · simp [Look.note, Look.setObj]

/-- A second call returns what `osize` happened to hold. -/
theorem not_repeating_of_empty (empty : jf.Empty o) {memory : Look}
    (run : resolveInstance jf fuel (.initial memory) o = .ok (lk', a)) : ¬ Repeating jf o := by
  intro repeating
  obtain ⟨less, c, lk₁, rfl, classOf, laid⟩ := resolveInstance_laid rfl run
  -- the same run in memory where `osize` is not zero
  let other : Look := { memory with
    objects := Function.update memory.objects o { memory.objects o with osize := 1 } }
  obtain ⟨hvalues, first⟩ := resolveInstance_empty empty rfl classOf
    ((laidFor_frame laid).2 (.initial other) rfl)
  generalize (Look.setObj _ o _).leave o 0 = result at first
  obtain ⟨lk₂, b⟩ := result
  obtain ⟨rfl, traced, total, resolved⟩ := resolveInstance_empty_ok empty rfl first
  have one : lk₂.total o = 1 := by
    rw [total]
    simp [Look.total, Look.initial, other, ObjLook.fresh]
  have second := @resolveInstance_marked jf lk₂ o less resolved
  rw [one] at second
  have both : resolveAll jf (less + 1) [o, o] (.initial other) = .ok (lk₂.note (.ret o 1)) := by
    simp only [resolveAll, first, second]
  obtain ⟨v, ⟨fuel, lk₃, lk₄, after, fresh, call, whole, repeated⟩, _⟩ :=
    repeating other _ _ _ both resolved
  obtain ⟨rfl, traced', _, _⟩ := resolveInstance_empty_ok empty fresh call
  have events : [.enter o, .ret o 0, .ret o 1] = lk₃.trace ++ [.enter o, .ret o 0] ++ after := by
    rw [← traced', ← whole]
    simp only [Look.note, traced, Look.initial, List.nil_append, List.cons_append]
  cases before : lk₃.trace with
  | nil =>
    rw [before] at events
    simp only [List.nil_append, List.cons_append, List.cons.injEq, true_and] at events
    have wrong := repeated 1 (by rw [← events]; exact List.mem_cons_self)
    exact absurd wrong (by decide)
  | cons event events' =>
    rw [before] at events
    simp only [List.cons_append, List.cons.injEq] at events
    cases events' with
    | nil =>
      simp only [List.nil_append, List.cons_append, List.cons.injEq, reduceCtorEq, false_and,
        and_false] at events
    | cons event' events' =>
      have length := congrArg List.length events.2
      simp only [List.length_cons, List.length_append, List.length_nil] at length
      omega

end Empty

theorem resolution_repeats (jf : Jdump) (o : ObjRef) :
    (¬ jf.Empty o → Repeating jf o) ∧
    ((∃ memory fuel lk a, resolveInstance jf fuel (.initial memory) o = .ok (lk, a)) →
      (Repeating jf o ↔ ¬ jf.Empty o)) := by
  refine ⟨repeating_of_full, ?_⟩
  rintro ⟨memory, fuel, lk, a, run⟩
  constructor
  · intro repeating empty
    exact not_repeating_of_empty empty run repeating
  · exact repeating_of_full

/-- Two object arrays, the second of which has no elements. -/
def sampleHollow : Jdump :=
  { sampleHeap [0, 0, 0, 2] with
    hobjects := ⟨2, fun o => ⟨.hOarray, BitVec.ofNat 64 (o + 1), 2, 0, if o = 0 then 1 else 0, 0⟩⟩ }

theorem sampleHollow_returns (o : ObjRef) (bound : o < 2) : ∃ lk a,
    resolveInstance sampleHollow 6 (.initial .zero) o = .ok (lk, a) := by
  have ends : ∀ o < 2, (resolveInstance sampleHollow 6 (.initial .zero) o).toOption.isSome := by
    decide +kernel
  obtain ⟨⟨lk, a⟩, some⟩ := Option.isSome_iff_exists.mp (ends o bound)
  exact ⟨lk, a, ok_of_toOption some⟩

theorem resolution_repeats_sampleHollow : Repeating sampleHollow 0 := by
  obtain ⟨lk, a, run⟩ := sampleHollow_returns 0 (by decide)
  apply ((resolution_repeats sampleHollow 0).2 ⟨.zero, 6, lk, a, run⟩).mpr
  intro empty
  exact absurd empty.2 (by decide)

theorem resolution_differs_sampleHollow : ¬ Repeating sampleHollow 1 := by
  obtain ⟨lk, a, run⟩ := sampleHollow_returns 1 (by decide)
  apply not_repeating_of_empty _ run
  exact ⟨by decide, by decide⟩

end Phat
