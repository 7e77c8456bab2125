import Phat.Changes
import Phat.Footprint

/-! Whether the members of class records are assigned before they are read. The arcs of
a class never are, and its superclass and counts only if it has been dumped. -/
namespace Phat

/-- An earlier class dump of the run has assigned the members of the class that are always
of use, and one its number of fields if that is. -/
def Dumped (past : List Machine) (jf : Jdump) (c : ClassRef) : Prop :=
  (∃ m ∈ past, ∃ cstats cfields, m.dumps = some ⟨c, some cstats, cfields⟩) ∧
  ((jf.cinfo c).superId ≠ 0 → ∃ m ∈ past, ∃ cstats cfields, m.dumps = some ⟨c, cstats, some cfields⟩)

/-- The call is one of `resolveClassNode`, and each class it looks at has been dumped. -/
def Call.Prepared (past : List Machine) (jf : Jdump) : Call → Prop
  | .node _ lk c => ∀ s x, jf.Resolving lk c s → jf.Upward s x → Dumped past jf x
  | .arc _ _ _ => False

/-- A run of the program, with the states it has come through. -/
inductive Run : List Machine → Machine → Prop where
  | start {d : Dump} (memory : Look) : d.jf.Opened → d.lk = .initial memory → Run [] ⟨.records, d⟩
  | step {past : List Machine} {m m' : Machine} : Run past m → Step m m' → Run (past ++ [m]) m'

section Assigned
attribute [local irreducible] readIdent readUintLocal readUshortLocal readUshort readPool
  readStatics readFields readWords readIdents readClassHeader

variable {jf jf' : Jdump} {hsize hsize' : Count} {sum sum' : Summary} {c : ClassRef}
  {member : Member}

/-- All members hold the same. -/
def Jdump.Kept (jf jf' : Jdump) : Prop := ∀ c member, jf.SameMember jf' c member

theorem Jdump.Kept.of_cinfos (same : jf'.cinfos = jf.cinfos) : jf.Kept jf' := by
  intro c member
  cases member <;> simp [SameMember, cinfo, same]

theorem Jdump.SameMember.trans {jf₁ : Jdump} (first : jf.SameMember jf₁ c member)
    (second : jf₁.SameMember jf' c member) : jf.SameMember jf' c member := by
  cases member with
  | fields => exact ⟨second.1.trans first.1, second.2.trans first.2⟩
  | children => trivial
  | parents => trivial
  | _ => exact Eq.trans second first

theorem Jdump.Kept.trans {jf₁ : Jdump} (first : jf.Kept jf₁) (second : jf₁.Kept jf') :
    jf.Kept jf' :=
  fun c member => (first c member).trans (second c member)

/-- A record is allocated, and `mkcinfo` assigns other members. -/
theorem mkcinfo_kept (jf : Jdump) (cid nid : BitVec 64) (name : Option CString) :
    jf.Kept (jf.mkcinfo cid nid name).2 := by
  intro c member
  by_cases here : c = jf.cinfos.next
  · subst here
    cases member <;> simp [Jdump.SameMember, Jdump.mkcinfo, Jdump.cinfo]
  · cases member <;> simp [Jdump.SameMember, Jdump.mkcinfo, Jdump.cinfo,
      Store.get_alloc_of_ne _ _ here]

theorem countInstance_kept (jf : Jdump) (c : ClassRef) :
    jf.Kept (jf.modifyClass c fun ci => { ci with count := ci.count + 1 }) := by
  intro x member
  by_cases here : x = c
  · subst here
    cases member <;> simp [Jdump.SameMember, Jdump.modifyClass, Jdump.cinfo]
  · cases member <;> simp [Jdump.SameMember, Jdump.modifyClass, Jdump.cinfo,
      Store.get_modify_of_ne _ _ here]

theorem arrayClass_kept (jf : Jdump) (cname : CString) (elemClassId : BitVec 64) :
    jf.Kept (arrayClass jf cname elemClassId).2 := by
  rw [arrayClass]
  split
  · exact .of_cinfos rfl
  · exact (mkcinfo_kept jf _ _ _).trans (.of_cinfos rfl)

theorem storeArray_kept (jf : Jdump) (f : FILE) (cname : CString) (ht : HType)
    (elemClassId raw ide : BitVec 64) (c : ClassRef) (elsz : Nat) (isz : BitVec 32) : jf.Kept
      (storeArray (arrayClass { jf with fin := f } cname elemClassId).2 ht raw ide c elsz isz) :=
  @Jdump.Kept.trans { jf with fin := f } _ _ (arrayClass_kept _ _ _) (.of_cinfos rfl)

theorem readArray_kept {prim : Bool} (read : readArray jf hsize prim = .ok (jf', hsize')) :
    jf.Kept jf' := by
  cases readArray_cases read with
  | coded => exact storeArray_kept jf _ _ _ _ _ _ _ _ _
  | named => exact storeArray_kept jf _ _ _ _ _ _ _ _ _

theorem readInstance_kept (read : readInstance jf hsize = .ok (jf', hsize')) : jf.Kept jf' := by
  rw [readInstance] at read
  simp only at read
  split at read
  · cases read
  · rename_i c _
    split at read
    · cases read
    · rename_i keep _
      cases read
      refine @Jdump.Kept.trans { jf with fin := _ } _ _ (countInstance_kept _ c) (.of_cinfos ?_)
      cases keep <;> rfl

theorem readPlain_kept {rtype : Byte} {rlen : BitVec 32}
    (read : readPlain rtype jf rlen = .ok jf') : jf.Kept jf' := by
  rw [readPlain] at read
  split at read
  · rw [readUtf8] at read
    simp only at read
    split at read
    · cases read
    · cases read
      exact .of_cinfos rfl
  · rw [readLoadClass] at read
    simp only at read
    split at read
    · cases read
    · cases read
      exact @Jdump.Kept.trans { jf with fin := _ } _ _ (mkcinfo_kept _ _ _ _) (.of_cinfos rfl)
  · rw [readFrame] at read
    simp only at read
    split at read
    · cases read
    · cases read
      exact .of_cinfos rfl
  · cases read
    exact .of_cinfos rfl
  · cases read
    exact .of_cinfos rfl

/-- What a class dump does to the class records. -/
structure ClassCounts.Fills (dump : ClassCounts) (jf jf' : Jdump) : Prop where
  others : ∀ x, x ≠ dump.c → jf'.cinfo x = jf.cinfo x
  cstats : (jf'.cinfo dump.c).cstats = dump.cstats.getD (jf.cinfo dump.c).cstats
  cfields : (jf'.cinfo dump.c).cfields = dump.cfields.getD (jf.cinfo dump.c).cfields

theorem readClass_fillsCounts (read : readClass jf hsize = .ok (jf', hsize')) :
    ∃ dump, classCounts jf hsize = some dump ∧ dump.Fills jf jf' := by
  rw [readClass] at read
  rw [classCounts]
  cases found : jf.cTable.lookup32 (key (readIdent jf.identsz jf.fin).1) with
  | none =>
    simp only [found] at read
    cases read
  | some c =>
    simp only [found] at read ⊢
    cases read
    refine ⟨_, rfl, fun x apart => ?_, ?_, ?_⟩
    · simp only [Jdump.cinfo, Jdump.modifyClass]
      exact Store.get_modify_of_ne _ _ apart
    all_goals
      simp only [Jdump.cinfo, Jdump.modifyClass, Store.get_modify_self]
      rfl

theorem rootKind_dump {rtype : Byte} (tag : rtype.toNat = 0x20) : rootKind rtype = none := by
  simp only [rootKind, tag]

theorem heapCase_counts {rtype : Byte}
    (read : heapCase rtype jf hsize sum = .ok (jf', hsize', sum')) :
    (rtype.toNat ≠ 0x20 ∧ jf.Kept jf') ∨
    (rtype.toNat = 0x20 ∧ ∃ dump, classCounts jf hsize = some dump ∧ dump.Fills jf jf') := by
  cases heapCase_cases read with
  | root root =>
    refine .inl ⟨fun tag => ?_, .of_cinfos rfl⟩
    rw [rootKind_dump tag] at root
    cases root
  | classDump tag inner => exact .inr ⟨tag, readClass_fillsCounts inner⟩
  | instanceDump tag inner => exact .inl ⟨by omega, readInstance_kept inner⟩
  | objArray tag inner => exact .inl ⟨by omega, readArray_kept inner⟩
  | primArray tag inner => exact .inl ⟨by omega, readArray_kept inner⟩
  | unknown _ other =>
    refine .inl ⟨fun tag => other ?_, .of_cinfos rfl⟩
    rw [tag]
    exact .head _

theorem readTag_cinfos {tag : Option (Byte × BitVec 32)} (read : readTag jf = .ok (jf', tag)) :
    jf'.cinfos = jf.cinfos := by
  rw [readTag] at read
  simp only at read
  split at read
  · cases read
    rfl
  · split at read
    · cases read
    · split at read
      · cases read
      · cases read
        rfl

/-- A step keeps the members that a class dump assigns, or is a class dump. -/
theorem Step.counts {m m' : Machine} (step : Step m m') :
    (m.dumps = none ∧ m.d.jf.Kept m'.d.jf) ∨
    ∃ dump, m.dumps = some dump ∧ dump.Fills m.d.jf m'.d.jf := by
  cases step with
  | record tag _ body =>
    exact .inl ⟨rfl, .trans (.of_cinfos (readTag_cinfos tag)) (readPlain_kept body)⟩
  | heap tag =>
    have same := readTag_cinfos tag
    exact .inl ⟨rfl, .of_cinfos same⟩
  | sub more pass =>
    rcases heapCase_counts pass with ⟨other, kept⟩ | ⟨tag, dump, here, fills⟩
    · refine .inl ⟨if_neg fun both => other both.2, ?_⟩
      exact kept
    · refine .inr ⟨dump, (if_pos ⟨more, tag⟩).trans here, ?_⟩
      exact ⟨fills.others, fills.cstats, fills.cfields⟩
  | look empty look =>
    obtain ⟨f, same⟩ := lookHeap_fin look
    refine .inl ⟨if_neg fun both => both.1 empty, .of_cinfos ?_⟩
    rw [same]
  | finish tag => exact .inl ⟨rfl, .of_cinfos (readTag_cinfos tag)⟩

end Assigned

section Order
variable {jf jf' : Jdump} {fuel : Nat} {past : List Machine} {m m' : Machine} {c : ClassRef}
  {member : Member}

theorem AssignedFirst.append {accesses later : List Access} (first : AssignedFirst accesses)
    (known : ∀ c member, .read c member ∈ later → .assign c member ∈ accesses) :
    AssignedFirst (accesses ++ later) := by
  intro before c member after split
  rcases List.append_eq_append_iff.mp split with ⟨mid, rfl, rest⟩ | ⟨mid, rfl, rest⟩
  · apply List.mem_append_left
    apply known c member
    rw [rest]
    exact List.mem_append_right _ List.mem_cons_self
  · cases mid with
    | nil =>
      rw [List.append_nil] at known
      rw [List.nil_append] at rest
      apply known c member
      rw [← rest]
      exact List.mem_cons_self
    | cons access mid =>
      cases rest
      exact first before c member mid rfl

theorem mem_countAccesses {number array : Member} {old : BitVec 16} {count : Option (BitVec 16)}
    {access : Access} : access ∈ countAccesses c number array old count ↔
      (count.isSome = true ∧ access = .assign c number) ∨
      (0 < (count.getD old).toNat ∧ access = .assign c array) := by
  rw [countAccesses, List.mem_append]
  apply or_congr <;> split <;> simp_all

/-- Reading a class dump reads none of the members. -/
theorem read_mem_accesses (read : .read c member ∈ m.accesses fuel) :
    ∃ call ∈ m.calls fuel, .read c member ∈ call.accesses m.d.jf := by
  rw [Machine.accesses, List.mem_append] at read
  rcases read with dumping | looking
  · cases dump : m.dumps with
    | none =>
      rw [dump] at dumping
      cases dumping
    | some dump =>
      simp only [dump, Option.elim_some, classAccesses, List.mem_cons, List.mem_append,
        mem_countAccesses, reduceCtorEq, and_false, or_self] at dumping
  · exact List.mem_flatMap.mp looking

theorem Machine.dumps_assign {dump : ClassCounts} (dumps : m.dumps = some dump) {access : Access}
    (assigned : access ∈ classAccesses m.d.jf dump) : access ∈ m.accesses fuel := by
  rw [accesses, dumps]
  exact List.mem_append_left _ assigned

/-- Where a count has been assigned and is not zero, its array has been assigned too. -/
structure Backed (fuel : Nat) (past : List Machine) (jf : Jdump) : Prop where
  statics : ∀ c, (∃ m ∈ past, ∃ cstats cfields, m.dumps = some ⟨c, some cstats, cfields⟩) →
    0 < (jf.cinfo c).cstats.toNat → .assign c .statics ∈ past.flatMap (Machine.accesses fuel)
  fields : ∀ c, (∃ m ∈ past, ∃ cstats cfields, m.dumps = some ⟨c, cstats, some cfields⟩) →
    0 < (jf.cinfo c).cfields.toNat → .assign c .fields ∈ past.flatMap (Machine.accesses fuel)

theorem Backed.keep (backed : Backed fuel past jf) (none : m.dumps = .none) (kept : jf.Kept jf') :
    Backed fuel (past ++ [m]) jf' := by
  have earlier : ∀ dump, (∃ m' ∈ past ++ [m], m'.dumps = some dump) →
      ∃ m' ∈ past, m'.dumps = some dump := by
    rintro dump ⟨m', member, dumps⟩
    rcases List.mem_append.mp member with before | here
    · exact ⟨m', before, dumps⟩
    · rw [List.mem_singleton.mp here, none] at dumps
      cases dumps
  constructor
  · rintro c ⟨m', member, cstats, cfields, dumps⟩ some
    obtain ⟨m'', before, again⟩ := earlier _ ⟨m', member, dumps⟩
    rw [kept c .cstats] at some
    rw [List.flatMap_append]
    exact List.mem_append_left _ (backed.statics c ⟨m'', before, _, _, again⟩ some)
  · rintro c ⟨m', member, cstats, cfields, dumps⟩ some
    obtain ⟨m'', before, again⟩ := earlier _ ⟨m', member, dumps⟩
    rw [kept c .cfields] at some
    rw [List.flatMap_append]
    exact List.mem_append_left _ (backed.fields c ⟨m'', before, _, _, again⟩ some)

theorem Backed.fill {dump : ClassCounts} (backed : Backed fuel past m.d.jf)
    (dumps : m.dumps = some dump) (fills : dump.Fills m.d.jf jf') :
    Backed fuel (past ++ [m]) jf' := by
  have earlier : ∀ other : ClassCounts, other.c ≠ dump.c →
      (∃ m' ∈ past ++ [m], m'.dumps = some other) → ∃ m' ∈ past, m'.dumps = some other := by
    rintro other apart ⟨m', member, here⟩
    rcases List.mem_append.mp member with before | last
    · exact ⟨m', before, here⟩
    · rw [List.mem_singleton.mp last, dumps] at here
      cases here
      exact absurd rfl apart
  have now : ∀ {access}, access ∈ classAccesses m.d.jf dump →
      access ∈ (past ++ [m]).flatMap (Machine.accesses fuel) := by
    intro access assigned
    rw [List.flatMap_append, List.flatMap_singleton]
    exact List.mem_append_right _ (Machine.dumps_assign dumps assigned)
  constructor
  · rintro c ⟨m', member, cstats, cfields, here⟩ some
    by_cases same : c = dump.c
    · subst same
      rw [fills.cstats] at some
      apply now
      rw [classAccesses, List.mem_cons, List.mem_append, mem_countAccesses]
      exact .inr (.inl (.inr ⟨some, rfl⟩))
    · obtain ⟨m'', before, again⟩ := earlier _ same ⟨m', member, here⟩
      rw [fills.others c same] at some
      rw [List.flatMap_append]
      exact List.mem_append_left _ (backed.statics c ⟨m'', before, _, _, again⟩ some)
  · rintro c ⟨m', member, cstats, cfields, here⟩ some
    by_cases same : c = dump.c
    · subst same
      rw [fills.cfields] at some
      apply now
      rw [classAccesses, List.mem_cons, List.mem_append, mem_countAccesses, mem_countAccesses]
      exact .inr (.inr (.inr ⟨some, rfl⟩))
    · obtain ⟨m'', before, again⟩ := earlier _ same ⟨m', member, here⟩
      rw [fills.others c same] at some
      rw [List.flatMap_append]
      exact List.mem_append_left _ (backed.fields c ⟨m'', before, _, _, again⟩ some)

theorem Backed.step (backed : Backed fuel past m.d.jf) (step : Step m m') :
    Backed fuel (past ++ [m]) m'.d.jf := by
  rcases step.counts with ⟨none, kept⟩ | ⟨dump, dumps, fills⟩
  · exact backed.keep none kept
  · exact backed.fill dumps fills

theorem Run.backed (run : Run past m) : Backed fuel past m.d.jf := by
  induction run with
  | start =>
    constructor
    all_goals
      rintro c ⟨m, member, _⟩
      cases member
  | step _ step ih => exact ih.step step

/-- What a dumped class is used for has been assigned. -/
theorem Backed.uses (backed : Backed fuel past jf) (dumped : Dumped past jf c)
    (uses : jf.Uses c member) : .assign c member ∈ past.flatMap (Machine.accesses fuel) := by
  obtain ⟨⟨m, earlier, cstats, cfields, dumps⟩, fields⟩ := dumped
  have always : ∀ access ∈ classAccesses m.d.jf ⟨c, some cstats, cfields⟩,
      access ∈ past.flatMap (Machine.accesses fuel) := fun access assigned =>
    List.mem_flatMap.mpr ⟨m, earlier, Machine.dumps_assign dumps assigned⟩
  cases member with
  | superId => exact always _ List.mem_cons_self
  | cstats =>
    apply always
    rw [classAccesses, List.mem_cons, List.mem_append, mem_countAccesses]
    exact .inr (.inl (.inl ⟨rfl, rfl⟩))
  | statics => exact backed.statics c ⟨m, earlier, _, _, dumps⟩ uses
  | cfields =>
    obtain ⟨m', earlier', _, _, dumps'⟩ := fields uses
    refine List.mem_flatMap.mpr ⟨m', earlier', Machine.dumps_assign dumps' ?_⟩
    rw [classAccesses, List.mem_cons, List.mem_append, mem_countAccesses, mem_countAccesses]
    exact .inr (.inr (.inl ⟨rfl, rfl⟩))
  | fields => exact backed.fields c (fields uses.1) uses.2
  | children => exact uses.elim
  | parents => exact uses.elim

end Order

/-- Everything read in a run has been assigned in it, as long as every call of
`resolveClassNode` comes after the dumps of the classes it looks at, and no reference to
an object is met, as `arc_add` reads the arcs of a class before it assigns them. -/
theorem members_assigned_first {fuel : Nat} {past : List Machine} {m : Machine} (run : Run past m)
    (prepared : ∀ before m', before ++ [m'] <+: past ++ [m] →
      ∀ call ∈ m'.calls fuel, call.Prepared before m'.d.jf) :
    AssignedFirst ((past ++ [m]).flatMap (Machine.accesses fuel)) := by
  have last : ∀ {past m}, Run past m → (∀ call ∈ m.calls fuel, call.Prepared past m.d.jf) →
      ∀ c member, .read c member ∈ m.accesses fuel →
        .assign c member ∈ past.flatMap (Machine.accesses fuel) := by
    intro past m run prepared c member read
    obtain ⟨call, listed, reads⟩ := read_mem_accesses read
    have ready := prepared call listed
    cases call with
    | node fuel lk c' =>
      obtain ⟨s, resolving, upward, uses⟩ := nodeAccesses_uses reads
      exact run.backed.uses (ready s c resolving upward) uses
    | arc => exact ready.elim
  have nothing : AssignedFirst [] := by
    intro before c member after split
    cases before <;> cases split
  induction run with
  | start memory opened fresh =>
    rw [List.flatMap_append, List.flatMap_singleton]
    exact nothing.append (last (.start memory opened fresh) (prepared [] _ List.prefix_rfl))
  | @step past m m' run step ih =>
    rw [List.flatMap_append, List.flatMap_singleton]
    refine (ih fun before m'' earlier => ?_).append
      (last (run.step step) (prepared (past ++ [m]) m' List.prefix_rfl))
    exact prepared before m'' (earlier.trans (List.prefix_append _ _))

/-- A step, by evaluation. -/
def Machine.next (fuel : Nat) (m : Machine) : Option Machine :=
  match m.control with
  | .done => none
  | .subs hsize sum =>
    if hsize.left = 0 then (lookHeap fuel m.d).toOption.map fun d => ⟨.records, d⟩
    else (heapPass m.d.jf hsize sum).toOption.map fun result =>
      ⟨.subs result.2.1 result.2.2, { m.d with jf := result.1 }⟩
  | .records =>
    match readTag m.d.jf with
    | .error _ => none
    | .ok (jf, none) => some ⟨.done, { m.d with jf := jf }⟩
    | .ok (jf, some (rtype, rlen)) =>
      if rtype.toNat = 0x0c then
        some ⟨.subs ⟨rlen, false⟩ .zero, { m.d with jf := enterHeap jf }⟩
      else (readPlain rtype jf rlen).toOption.map fun jf => ⟨.records, { m.d with jf := jf }⟩

theorem Machine.step_next {fuel : Nat} {m m' : Machine} (next : m.next fuel = some m') :
    Step m m' := by
  obtain ⟨control, d⟩ := m
  cases control with
  | done => cases next
  | subs hsize sum =>
    simp only [Machine.next] at next
    split at next
    · rename_i empty
      obtain ⟨d', look, rfl⟩ := Option.map_eq_some_iff.mp next
      cases result : lookHeap fuel d with
      | error =>
        rw [result] at look
        cases look
      | ok =>
        rw [result] at look
        cases look
        exact .look empty result
    · rename_i more
      obtain ⟨⟨jf, hsize', sum'⟩, pass, rfl⟩ := Option.map_eq_some_iff.mp next
      cases result : heapPass d.jf hsize sum with
      | error =>
        rw [result] at pass
        cases pass
      | ok =>
        rw [result] at pass
        cases pass
        exact .sub more result
  | records =>
    simp only [Machine.next] at next
    split at next
    · cases next
    · rename_i tag
      cases next
      exact .finish tag
    · rename_i jf rtype rlen tag
      split at next
      · rename_i heap
        cases next
        exact .heap tag heap
      · rename_i plain
        obtain ⟨jf', body, rfl⟩ := Option.map_eq_some_iff.mp next
        cases result : readPlain rtype jf rlen with
        | error =>
          rw [result] at body
          cases body
        | ok =>
          rw [result] at body
          cases body
          exact .record tag plain result

/-- The states of a run over the given number of steps, as long as there are any. -/
def Machine.path (fuel : Nat) : Nat → List Machine → Machine → List Machine × Machine
  | 0, past, m => (past, m)
  | n + 1, past, m =>
    match m.next fuel with
    | none => (past, m)
    | some m' => path fuel n (past ++ [m]) m'

theorem Run.path {past : List Machine} {m : Machine} (run : Run past m) (fuel n : Nat) :
    Run (m.path fuel n past).1 (m.path fuel n past).2 := by
  induction n generalizing past m with
  | zero => exact run
  | succ n ih =>
    rw [Machine.path]
    cases next : m.next fuel with
    | none => exact run
    | some m' => exact ih (run.step (Machine.step_next next))

/-- The string `A` under 7 and class 3 of that name. -/
def loadedClass : List Byte :=
  [0x01, 0, 0, 0, 0, 0, 0, 0, 5, 0, 0, 0, 7, 0x41,
    0x02, 0, 0, 0, 0, 0, 0, 0, 16, 0, 0, 0, 1, 0, 0, 0, 3, 0, 0, 0, 0, 0, 0, 0, 7]

/-- Instance 1 of class 3, without a body. -/
def instanceDump : List Byte := [0x21, 0, 0, 0, 1, 0, 0, 0, 0, 0, 0, 0, 3, 0, 0, 0, 0]

/-- Class 3, without superclass, constants, statics and fields. -/
def emptyClassDump : List Byte := [0x20, 0, 0, 0, 3] ++ List.replicate 38 0

/-- The state in which the heap of a dump of class 3 has been read. -/
def sampleLook (heap : List Byte) (subs : Nat) : List Machine × Machine :=
  Machine.path 8 (3 + subs) [] ⟨.records, .start (loadedClass ++
    ([0x0c, 0, 0, 0, 0, 0, 0, 0, BitVec.ofNat 8 heap.length] ++ heap)) .four (some [chr '*'])⟩

theorem sampleLook_run (heap : List Byte) (subs : Nat) :
    Run (sampleLook heap subs).1 (sampleLook heap subs).2 :=
  Run.path (.start .zero (Jdump.start_opened _ _ _) rfl) 8 _

/-- The instance is resolved and its class has not been dumped. -/
theorem sampleLook_undumped : Run (sampleLook instanceDump 1).1 (sampleLook instanceDump 1).2 ∧
    ¬ AssignedFirst (((sampleLook instanceDump 1).1 ++ [(sampleLook instanceDump 1).2]).flatMap
      (Machine.accesses 8)) := by
  refine ⟨sampleLook_run _ _, fun first => ?_⟩
  have log : ((sampleLook instanceDump 1).1 ++ [(sampleLook instanceDump 1).2]).flatMap
      (Machine.accesses 8) = [.read 0 .superId, .read 0 .cstats, .read 0 .superId] := by
    decide +kernel
  rw [log] at first
  cases first [] 0 .superId [.read 0 .cstats, .read 0 .superId] rfl

/-- The call resolves a root class that an earlier class dump has filled. -/
def Call.rooted (past : List Machine) (jf : Jdump) : Call → Bool
  | .node _ _ c => (jf.cinfo c).superId = 0 && (jf.cTable.lookup32 0).isNone &&
      past.any fun m => m.dumps.any fun dump =>
        dump.c = c && dump.cstats.isSome && dump.cfields.isSome
  | .arc _ _ _ => false

theorem Call.rooted_prepared {past : List Machine} {jf : Jdump} {call : Call}
    (rooted : call.rooted past jf = true) : call.Prepared past jf := by
  cases call with
  | arc => cases rooted
  | node fuel lk c =>
    simp only [Call.rooted, Bool.and_eq_true, decide_eq_true_eq, Option.isNone_iff_eq_none,
      List.any_eq_true, Option.any_eq_true] at rooted
    obtain ⟨⟨top, none⟩, m, earlier, ⟨c', cstats, cfields⟩, dumps, ⟨same, stats⟩, fields⟩ := rooted
    obtain rfl : c = c' := same.symm
    obtain ⟨cstats, rfl⟩ := Option.isSome_iff_exists.mp stats
    obtain ⟨cfields, rfl⟩ := Option.isSome_iff_exists.mp fields
    intro s x resolving upward
    have last : jf.getSuperClass c = .none := by
      rw [Jdump.getSuperClass, top]
      exact none
    have self : s = c := by
      rcases Relation.ReflTransGen.cases_head resolving with same | ⟨_, ⟨found, _⟩, _⟩
      · exact same.symm
      · rw [last] at found
        cases found
    subst s
    have here : x = c := by
      rcases Relation.ReflTransGen.cases_head upward with same | ⟨_, ⟨more, _⟩, _⟩
      · exact same.symm
      · exact absurd top more
    subst x
    exact ⟨⟨m, earlier, cstats, _, dumps⟩, fun _ => ⟨m, earlier, _, cfields, dumps⟩⟩

/-- All calls along the rest of a run are of that kind. -/
def rootedCalls (fuel : Nat) : List Machine → List Machine → Bool
  | _, [] => true
  | past, m :: rest =>
    ((m.calls fuel).all fun call => call.rooted past m.d.jf) && rootedCalls fuel (past ++ [m]) rest

theorem rootedCalls_prepared {fuel : Nat} {past before rest after : List Machine} {m : Machine}
    (rooted : rootedCalls fuel past rest = true) (split : rest = before ++ m :: after) :
    ∀ call ∈ m.calls fuel, call.Prepared (past ++ before) m.d.jf := by
  induction before generalizing past rest with
  | nil =>
    subst split
    rw [List.nil_append, rootedCalls, Bool.and_eq_true, List.all_eq_true] at rooted
    rw [List.append_nil]
    exact fun call listed => Call.rooted_prepared (rooted.1 call listed)
  | cons m' before ih =>
    subst split
    rw [List.cons_append, rootedCalls, Bool.and_eq_true] at rooted
    have rest := ih rooted.2 rfl
    rwa [List.append_assoc] at rest

theorem members_assigned_first_sampleLook : ∃ past m, Run past m ∧
    (m.calls 8).length = 1 ∧ AssignedFirst ((past ++ [m]).flatMap (Machine.accesses 8)) := by
  have rooted : rootedCalls 8 [] ((sampleLook (emptyClassDump ++ instanceDump) 2).1 ++
      [(sampleLook (emptyClassDump ++ instanceDump) 2).2]) = true := by decide +kernel
  have some : ((sampleLook (emptyClassDump ++ instanceDump) 2).2.calls 8).length = 1 := by
    decide +kernel
  have run := sampleLook_run (emptyClassDump ++ instanceDump) 2
  generalize (sampleLook (emptyClassDump ++ instanceDump) 2).1 = past at rooted run
  generalize (sampleLook (emptyClassDump ++ instanceDump) 2).2 = m at rooted run some
  refine ⟨past, m, run, some, members_assigned_first run ?_⟩
  rintro before m' ⟨after, split⟩
  have here : past ++ [m] = before ++ m' :: after := by
    rw [← split, List.append_assoc]
    rfl
  have prepared := rootedCalls_prepared rooted here
  rwa [List.nil_append] at prepared

end Phat
