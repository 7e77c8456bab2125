import Phat.Initialised
import Phat.Naming
import Phat.Widths

/-! The classes of arrays. `readArray` looks one up by its name, and enters an invented one in the
tables if there is none: its name under the type code, itself under the next number. -/
namespace Phat
open HashIndex

namespace Jdump

/-- The state behind the tag of a sub-record, in which `readHeap` calls its reader. -/
def tagRead (jf : Jdump) (hsize : Count) : Jdump :=
  { jf.note (.sub jf.fin.pos hsize.left) with fin := jf.fin.getc.2 }

/-- The class identifier of an object array, as `readArray` reads it. -/
def arrayClassId (jf : Jdump) : BitVec 64 :=
  let (_, f) := readIdent jf.identsz jf.fin
  let (_, f) := readUintLocal f
  let (_, f) := readUintLocal f
  (readIdent jf.identsz f).1

/-- The identifiers that UTF8 and LOAD_CLASS records have bound lead to the same entries. -/
structure BindingsKept (jf jf' : Jdump) : Prop where
  strings : ∀ x ∈ stringsOf jf.log, jf'.sbTable.lookup32 (key x.1) = jf.sbTable.lookup32 (key x.1)
  classes : ∀ x ∈ classesOf jf.log, jf'.cTable.lookup32 (key x.1) = jf.cTable.lookup32 (key x.1)

/-- A class can be invented for arrays of this type code: no string is bound under the key of the
code, unless to the same name, and no class under the next number. -/
structure Harmless (jf : Jdump) (code : BitVec 64) (cname : CString) : Prop where
  strings : ∀ x ∈ stringsOf jf.log, key x.1 = key code → jf.sbTable.lookup32 (key x.1) = some cname
  classes : ∀ x ∈ classesOf jf.log, key x.1 ≠ key (BitVec.ofNat 64 (jf.fakeClass + 1))

/-- What the fallback of `readArray` writes is as it was. -/
structure NothingInvented (jf jf' : Jdump) : Prop where
  cinfos : jf'.cinfos = jf.cinfos
  sbTable : jf'.sbTable = jf.sbTable
  cTable : jf'.cTable = jf.cTable
  rcTable : jf'.rcTable = jf.rcTable
  fakeClass : jf'.fakeClass = jf.fakeClass

/-- The class has a name, and under it a class is found whose name has the same CRC-32. -/
def Findable (jf : Jdump) (c : ClassRef) : Prop :=
  ∃ cname d dname, (jf.cinfo c).name = some cname ∧ jf.findClass cname = some d ∧
    (jf.cinfo d).name = some dname ∧ Crc32.crc32 dname = Crc32.crc32 cname

variable {jf jf' : Jdump} {hs hs' : Count} {c d : ClassRef} {cname : CString} {sig : Byte}
  {width : Nat} {prim : Bool}

theorem Indexed.findable {k : Key} (indexed : jf.Indexed)
    (found : jf.cTable.lookup32 k = some c) : jf.Findable c := by
  obtain ⟨cname, member⟩ := indexed.classes k c found
  obtain ⟨⟨dname, d⟩, newest, inside, known⟩ := indexed.findClass_recorded member
  have hash : nameHash (dname, d) = Crc32.crc32 cname := newest_hash newest
  exact ⟨cname, d, dname, (mem_recorded.mp member).2, known, (mem_recorded.mp inside).2, hash⟩

theorem bindingsKept_of_same (sbTable : jf'.sbTable = jf.sbTable)
    (cTable : jf'.cTable = jf.cTable) : jf.BindingsKept jf' :=
  ⟨fun _ _ => by rw [sbTable], fun _ _ => by rw [cTable]⟩

/-- Inventing keeps the bindings exactly if it is harmless; the new class is none of the old. -/
theorem Indexed.invent_kept_iff (indexed : jf.Indexed) {code : BitVec 64}
    (sbTable : jf'.sbTable = jf.sbTable.insert32 (key code) cname)
    (cTable : jf'.cTable = jf.cTable.insert32 (key (BitVec.ofNat 64 (jf.fakeClass + 1)))
      jf.cinfos.next) : jf.BindingsKept jf' ↔ jf.Harmless code cname := by
  constructor
  · intro kept
    refine ⟨fun x member same => ?_, fun x member same => ?_⟩
    · rw [← kept.strings x member, sbTable, same, Table.lookup32_insert32_self]
    · have found := kept.classes x member
      rw [cTable, same, Table.lookup32_insert32_self] at found
      obtain ⟨cname, recorded⟩ := indexed.classes _ _ found.symm
      exact absurd (indexed.allocated _ (mem_recorded.mp recorded).1) (lt_irrefl _)
  · intro harmless
    refine ⟨fun x member => ?_, fun x member => ?_⟩
    · rw [sbTable, Table.lookup32_insert32]
      split
      · rename_i same
        exact (harmless.strings x member same).symm
      · rfl
    · rw [cTable, Table.lookup32_insert32_of_ne _ _ (harmless.classes x member)]

/-- The position in the file does not matter for the class of an array. -/
theorem arrayClass_moved (jf : Jdump) (f : FILE) (cname : CString) (code : BitVec 64) :
    (arrayClass { jf with fin := f } cname code).2.sbTable = (arrayClass jf cname code).2.sbTable ∧
      (arrayClass { jf with fin := f } cname code).2.cTable =
        (arrayClass jf cname code).2.cTable := by
  cases found : jf.findClass cname with
  | none =>
    have found' : ({ jf with fin := f } : Jdump).findClass cname = none := found
    rw [arrayClass, arrayClass, found, found']
    exact ⟨rfl, rfl⟩
  | some c =>
    have found' : ({ jf with fin := f } : Jdump).findClass cname = some c := found
    rw [arrayClass_known _ found, arrayClass_known _ found']
    exact ⟨rfl, rfl⟩

section Readers
attribute [local irreducible] readIdent readUintLocal arrayClass

/-- An array of a known type code gets its class from `arrayClass`. -/
theorem readArray_coded (code : primType jf.primDump.1 = some (sig, width))
    (read : readArray jf hs true = .ok (jf', hs')) :
    jf'.sbTable = (arrayClass jf [chr '[', sig] jf.primDump.1).2.sbTable ∧
      jf'.cTable = (arrayClass jf [chr '[', sig] jf.primDump.1).2.cTable := by
  have head : (jf.arrayHead true).1 = jf.primDump.1 := rfl
  cases readArray_cases read with
  | coded _ known =>
    rw [head, code] at known
    cases known
    exact arrayClass_moved jf _ _ _
  | named other =>
    have none := other rfl
    rw [head, code] at none
    cases none

/-- Any other array gets the class that is found under the name of a class of `cTable`. -/
theorem Indexed.readArray_known (indexed : jf.Indexed)
    (plain : prim = true → primType jf.primDump.1 = none)
    (read : readArray jf hs prim = .ok (jf', hs')) :
    jf'.sbTable = jf.sbTable ∧ jf'.cTable = jf.cTable := by
  cases readArray_cases read with
  | coded isPrim coded =>
    subst isPrim
    have none := plain rfl
    rw [show jf.primDump.1 = (jf.arrayHead true).1 from rfl, coded] at none
    cases none
  | @named c cname _ found name _ =>
    obtain ⟨cname', member⟩ := indexed.classes _ c found
    rw [show cname' = cname from Option.some.inj ((mem_recorded.mp member).2.symm.trans name)]
      at member
    obtain ⟨e, _, _, known⟩ := indexed.findClass_recorded member
    have moved := fun f id => arrayClass_moved jf f cname id
    simp only [arrayClass_known _ known] at moved
    exact moved _ _

/-- In the branch for objects nothing is invented if the class can be found by its name; it
stops where there is no room for a copy of the name. -/
theorem Findable.readArray (findable : jf.Findable c)
    (plain : prim = true → primType (jf.arrayHead prim).1 = none)
    (present : jf.cTable.lookup32 (key (jf.arrayHead prim).1) = some c) :
    ∃ cname, (jf.cinfo c).name = some cname ∧
      (maxCount 1 ≤ 2 + cname.length → readArray jf hs prim = .error .nomem) ∧
      (2 + cname.length < maxCount 1 →
        ∃ jf' hs', readArray jf hs prim = .ok (jf', hs') ∧ jf.NothingInvented jf') := by
  obtain ⟨cname, d, _, name, known, _⟩ := findable
  have array : ∀ f id, arrayClass { jf with fin := f } cname id = (d, { jf with fin := f }) :=
    fun f id => arrayClass_known id known
  have named : ∀ f : FILE, (({ jf with fin := f } : Jdump).cinfo c).name = some cname :=
    fun _ => name
  refine ⟨cname, name, ?_⟩
  cases prim with
  | true =>
    have code := plain rfl
    simp only [arrayHead, if_true] at code present
    rw [Phat.readArray]
    simp only [if_true, code, present, named, array]
    refine ⟨fun long => if_pos long, fun room => ?_⟩
    rw [if_neg (Nat.not_le_of_lt room)]
    exact ⟨_, _, rfl, rfl, rfl, rfl, rfl, rfl⟩
  | false =>
    simp only [arrayHead, Bool.false_eq_true, if_false] at present
    rw [Phat.readArray]
    simp only [Bool.false_eq_true, if_false, present, named, array]
    refine ⟨fun long => if_pos long, fun room => ?_⟩
    rw [if_neg (Nat.not_le_of_lt room)]
    exact ⟨_, _, rfl, rfl, rfl, rfl, rfl, rfl⟩

/-- An object array of a class with a name is stored with the class found under that name. -/
theorem readArray_objects (found : jf.cTable.lookup32 (key jf.arrayClassId) = some c)
    (name : (jf.cinfo c).name = some cname) (known : jf.findClass cname = some d) :
    (maxCount 1 ≤ 2 + cname.length → readArray jf hs false = .error .nomem) ∧
    (2 + cname.length < maxCount 1 → ∃ jf' hs', readArray jf hs false = .ok (jf', hs') ∧
      jf'.hTable.lookup32 (key (readIdent jf.identsz jf.fin).1) = some jf.hobjects.next ∧
      (jf'.hobject jf.hobjects.next).classId = (jf.cinfo d).ident ∧ jf'.cTable = jf.cTable) := by
  rw [arrayClassId] at found
  simp only at found
  have array : ∀ f id, arrayClass { jf with fin := f } cname id = (d, { jf with fin := f }) :=
    fun f id => arrayClass_known id known
  have named : ∀ f : FILE, (({ jf with fin := f } : Jdump).cinfo c).name = some cname :=
    fun _ => name
  rw [readArray]
  simp only [Bool.false_eq_true, if_false, found, named, array]
  refine ⟨fun long => if_pos long, fun room => ?_⟩
  rw [if_neg (Nat.not_le_of_lt room)]
  refine ⟨_, _, rfl, ?_, ?_, rfl⟩
  · exact Table.lookup32_insert32_self _ _ _
  · simp [storeArray, makeObj, modifyObj, hobject, note]

end Readers

theorem arrayClass_new (code : BitVec 64) (unknown : jf.findClass cname = none) :
    (arrayClass jf cname code).2.sbTable = jf.sbTable.insert32 (key code) cname ∧
      (arrayClass jf cname code).2.cTable =
        jf.cTable.insert32 (key (BitVec.ofNat 64 (jf.fakeClass + 1))) jf.cinfos.next := by
  rw [arrayClass, unknown]
  exact ⟨rfl, rfl⟩

theorem Indexed.readArray_kept_iff (indexed : jf.Indexed)
    (read : readArray jf hs prim = .ok (jf', hs')) : jf.BindingsKept jf' ↔
      ∀ sig width, prim = true → primType jf.primDump.1 = some (sig, width) →
        jf.findClass [chr '[', sig] = none → jf.Harmless jf.primDump.1 [chr '[', sig] := by
  have plainly : (prim = true → primType jf.primDump.1 = none) → jf.BindingsKept jf' := by
    intro plain
    obtain ⟨sbTable, cTable⟩ := indexed.readArray_known plain read
    exact bindingsKept_of_same sbTable cTable
  cases prim with
  | false => simp [plainly]
  | true =>
    cases code : primType jf.primDump.1 with
    | none => simp [plainly, code]
    | some coded =>
      obtain ⟨sig, width⟩ := coded
      obtain ⟨sbTable, cTable⟩ := readArray_coded code read
      cases found : jf.findClass [chr '[', sig] with
      | some c =>
        rw [arrayClass_known _ found] at sbTable cTable
        refine ⟨fun _ sig' width' _ coded unknown => ?_, fun _ =>
          bindingsKept_of_same sbTable cTable⟩
        cases coded
        rw [found] at unknown
        cases unknown
      | none =>
        obtain ⟨names, classes⟩ := arrayClass_new jf.primDump.1 found
        rw [indexed.invent_kept_iff (sbTable.trans names) (cTable.trans classes)]
        constructor
        · intro harmless sig' width' _ coded _
          cases coded
          exact harmless
        · intro harmless
          exact harmless sig width rfl rfl found

theorem Indexed.tagRead (indexed : jf.Indexed) (hsize : Count) : (jf.tagRead hsize).Indexed :=
  (indexed.change (.sub jf jf.fin.pos hsize.left)).change (.move _ _)

end Jdump

/-- An array keeps all bindings exactly if its class is found or can be invented harmlessly. -/
theorem array_keeps_bindings {s t : Machine} {hsize hs hs' : Count} {jf' : Jdump} {prim : Bool}
    (opened : s.d.jf.Opened) (run : Steps s t)
    (read : readArray (t.d.jf.tagRead hsize) hs prim = .ok (jf', hs')) :
    t.d.jf.BindingsKept jf' ↔ ∀ sig width, prim = true →
      primType (t.d.jf.tagRead hsize).primDump.1 = some (sig, width) →
      t.d.jf.findClass [chr '[', sig] = none →
        t.d.jf.Harmless (t.d.jf.tagRead hsize).primDump.1 [chr '[', sig] := by
  have indexed := (opened.indexed.changes run.changes).tagRead hsize
  obtain ⟨kept, harmless⟩ := indexed.readArray_kept_iff read
  constructor
  · rintro ⟨strings, classes⟩ sig width isPrim coded unknown
    obtain ⟨texts, loaded⟩ := kept ⟨strings, classes⟩ sig width isPrim coded unknown
    exact ⟨texts, loaded⟩
  · intro each
    obtain ⟨strings, classes⟩ := harmless fun sig width isPrim coded unknown =>
      ⟨(each sig width isPrim coded unknown).strings, (each sig width isPrim coded unknown).classes⟩
    exact ⟨strings, classes⟩

/-- The string `A` under this identifier, and an empty byte array. -/
def boundString (ident : Byte) : List Byte :=
  [0x01, 0, 0, 0, 0, 0, 0, 0, 5, 0, 0, 0, ident, 0x41,
    0x0c, 0, 0, 0, 0, 0, 0, 0, 14, 0x23, 0, 0, 0, 5, 0, 0, 0, 0, 0, 0, 0, 0, 8]

/-- The state in which the heap segment of a dump has been entered, after so many records. -/
def sampleEntered (bytes : List Byte) (records : Nat) : List Machine × Machine :=
  Machine.path 0 (records + 1) [] ⟨.records, .start bytes .four none⟩

theorem Run.steps {past : List Machine} {m : Machine} (run : Run past m) :
    ∃ s : Machine, s.d.jf.Opened ∧ Steps s m := by
  induction run with
  | start memory opened _ => exact ⟨_, opened, .refl⟩
  | step _ step ih =>
    obtain ⟨s, opened, steps⟩ := ih
    exact ⟨s, opened, steps.tail step⟩

theorem sampleEntered_steps (bytes : List Byte) (records : Nat) :
    ∃ s : Machine, s.d.jf.Opened ∧ Steps s (sampleEntered bytes records).2 :=
  (Run.path (.start .zero (Jdump.start_opened bytes .four none) rfl) 0 (records + 1)).steps

theorem array_keeps_bindings_boundString : ∃ (t : Machine) (hs hs' : Count) (jf' : Jdump),
    readArray (t.d.jf.tagRead hs) hs true = .ok (jf', hs') ∧
      stringsOf t.d.jf.log = [(20, [0x41])] ∧ t.d.jf.findClass [chr '[', chr 'B'] = none ∧
      t.d.jf.BindingsKept jf' := by
  obtain ⟨s, opened, run⟩ := sampleEntered_steps (boundString 20) 1
  have read : (readArray ((sampleEntered (boundString 20) 1).2.d.jf.tagRead ⟨14, false⟩)
      ⟨14, false⟩ true).toOption.isSome = true := by decide +kernel
  obtain ⟨⟨jf', hs'⟩, read⟩ := Option.isSome_iff_exists.mp read
  have read := ok_of_toOption read
  have strings : stringsOf (sampleEntered (boundString 20) 1).2.d.jf.log = [(20, [0x41])] := by
    decide +kernel
  have classes : classesOf (sampleEntered (boundString 20) 1).2.d.jf.log = [] := by
    decide +kernel
  have code : ((sampleEntered (boundString 20) 1).2.d.jf.tagRead ⟨14, false⟩).primDump.1 = 8 := by
    decide +kernel
  refine ⟨_, _, _, jf', read, strings, by decide +kernel, ?_⟩
  refine (array_keeps_bindings opened run read).mpr fun sig width _ _ _ => ⟨?_, ?_⟩
  · rw [strings, code]
    intro x member same
    rw [List.mem_singleton] at member
    subst member
    exact absurd same (by decide)
  · rw [classes]
    exact fun x member => absurd member List.not_mem_nil

/-- Under identifier 8 the string is displaced by the name of the class of byte arrays. -/
theorem boundString_displaced : ∃ (s t : Machine) (hs hs' : Count) (jf' : Jdump),
    s.d.jf.Opened ∧ Steps s t ∧ readArray (t.d.jf.tagRead hs) hs true = .ok (jf', hs') ∧
      ¬ t.d.jf.BindingsKept jf' := by
  obtain ⟨s, opened, run⟩ := sampleEntered_steps (boundString 8) 1
  have state : (readArray ((sampleEntered (boundString 8) 1).2.d.jf.tagRead ⟨14, false⟩)
      ⟨14, false⟩ true).toOption.map (fun result => result.1.sbTable.lookup32 8) =
        some (some [chr '[', chr 'B']) := by decide +kernel
  obtain ⟨⟨jf', hs'⟩, read, displaced⟩ := Option.map_eq_some_iff.mp state
  refine ⟨s, _, _, hs', jf', opened, run, ok_of_toOption read, fun kept => ?_⟩
  have strings : stringsOf (sampleEntered (boundString 8) 1).2.d.jf.log = [(8, [0x41])] := by
    decide +kernel
  have same := kept.strings (8, [0x41]) (by rw [strings]; exact .head _)
  rw [show jf'.sbTable.lookup32 (key 8) = _ from displaced] at same
  exact absurd same (by decide +kernel)

/-- An object array of a known class is stored, unless there is no room for a copy of its name,
and with that class exactly if the class last entered under the hash of its name has its
identifier. -/
theorem object_array_class {s t : Machine} {hsize : Count} {c : ClassRef} (hs : Count)
    (opened : s.d.jf.Opened) (run : Steps s t)
    (loaded : t.d.jf.cTable.lookup32 (key (t.d.jf.tagRead hsize).arrayClassId) = some c) :
    let A := (t.d.jf.tagRead hsize).arrayClassId
    let o := t.d.jf.hobjects.next
    ∃ cname, (t.d.jf.cinfo c).name = some cname ∧
      (maxCount 1 ≤ 2 + cname.length →
        readArray (t.d.jf.tagRead hsize) hs false = .error .nomem) ∧
      (2 + cname.length < maxCount 1 → ∃ jf' hs',
        readArray (t.d.jf.tagRead hsize) hs false = .ok (jf', hs') ∧
        jf'.hTable.lookup32 (key (readIdent t.d.jf.identsz (t.d.jf.tagRead hsize).fin).1) =
          some o ∧
        ((jf'.hobject o).classId = A ↔ ¬ Hidden nameHash t.d.jf.recorded (Crc32.crc32 cname)
          fun e => (t.d.jf.cinfo e.2).ident = A) ∧
        ((jf'.hobject o).classId = A → jf'.classOf o = some c)) := by
  intro A o
  have indexed := opened.indexed.changes run.changes
  obtain ⟨cname, member⟩ := indexed.classes _ c loaded
  obtain ⟨e, newest, _, known⟩ := indexed.findClass_recorded member
  have name := (Jdump.mem_recorded.mp member).2
  obtain ⟨refused, granted⟩ :=
    @Jdump.readArray_objects (t.d.jf.tagRead hsize) hs c e.2 cname loaded name known
  refine ⟨cname, name, refused, fun room => ?_⟩
  obtain ⟨jf', hs', read, stored, classId, cTable⟩ := granted room
  refine ⟨jf', hs', read, stored, ?_, fun same => ?_⟩
  · rw [← newest_wanted_iff, newest, show (jf'.hobject o).classId = (t.d.jf.cinfo e.2).ident
      from classId]
    constructor
    · rintro same e' found
      cases found
      exact same
    · exact fun wanted => wanted e rfl
  · rw [Jdump.classOf, same, cTable]
    exact loaded

/-- Every class of `cTable` can be found by its name, and the branch of `readArray` for objects
invents none for an array of such a class: it returns, or it stops before the lookup. -/
theorem classes_stay_findable {s t : Machine} (opened : s.d.jf.Opened) (run : Steps s t) :
    (∀ k c, t.d.jf.cTable.lookup32 k = some c → t.d.jf.Findable c) ∧
      ∀ hsize hs prim c, let jf := t.d.jf.tagRead hsize
        (prim = true → primType (jf.arrayHead prim).1 = none) →
        jf.cTable.lookup32 (key (jf.arrayHead prim).1) = some c →
        ∃ cname, (jf.cinfo c).name = some cname ∧
          (maxCount 1 ≤ 2 + cname.length → readArray jf hs prim = .error .nomem) ∧
          (2 + cname.length < maxCount 1 →
            ∃ jf' hs', readArray jf hs prim = .ok (jf', hs') ∧ jf.NothingInvented jf') := by
  have indexed := opened.indexed.changes run.changes
  refine ⟨fun k c found => indexed.findable found, ?_⟩
  intro hsize hs prim c jf plain present
  exact ((indexed.tagRead hsize).findable present).readArray plain present

/-- The string `A` under 7, classes 100 and 200 of that name, and an empty array of this class. -/
def twinClasses (classId : Byte) : List Byte :=
  [0x01, 0, 0, 0, 0, 0, 0, 0, 5, 0, 0, 0, 7, 0x41,
    0x02, 0, 0, 0, 0, 0, 0, 0, 16, 0, 0, 0, 1, 0, 0, 0, 100, 0, 0, 0, 0, 0, 0, 0, 7,
    0x02, 0, 0, 0, 0, 0, 0, 0, 16, 0, 0, 0, 2, 0, 0, 0, 200, 0, 0, 0, 0, 0, 0, 0, 7,
    0x0c, 0, 0, 0, 0, 0, 0, 0, 17, 0x22, 0, 0, 0, 5, 0, 0, 0, 0, 0, 0, 0, 0, 0, 0, 0, classId]

theorem object_array_class_twinClasses : ∃ (t : Machine) (hs hs' : Count) (jf' : Jdump),
    readArray (t.d.jf.tagRead hs) hs false = .ok (jf', hs') ∧
      t.d.jf.recorded = [([0x41], 1), ([0x41], 0)] ∧
      (jf'.hobject t.d.jf.hobjects.next).classId = 200 ∧
      jf'.classOf t.d.jf.hobjects.next = some 1 := by
  obtain ⟨s, opened, run⟩ := sampleEntered_steps (twinClasses 200) 3
  have classId : ((sampleEntered (twinClasses 200) 3).2.d.jf.tagRead ⟨17, false⟩).arrayClassId =
      200 := by decide +kernel
  have recorded : (sampleEntered (twinClasses 200) 3).2.d.jf.recorded =
      [([0x41], 1), ([0x41], 0)] := by decide +kernel
  have ident : ((sampleEntered (twinClasses 200) 3).2.d.jf.cinfo 1).ident = 200 := by
    decide +kernel
  obtain ⟨cname, name, _, granted⟩ :=
    @object_array_class s _ ⟨17, false⟩ 1 ⟨17, false⟩ opened run (by decide +kernel)
  have text : cname = [0x41] := Option.some.inj (name.symm.trans (by decide +kernel))
  obtain ⟨jf', hs', read, _, same, classOf⟩ := granted (by rw [text]; decide)
  rw [classId] at same classOf
  have stored := same.mpr (newest_wanted_iff.mp fun e found => ?_)
  · exact ⟨_, _, hs', jf', read, recorded, stored, classOf stored⟩
  · rw [recorded] at found
    rw [text] at found
    change newest nameHash _ (nameHash ([0x41], 1)) = some e at found
    rw [newest_cons_self] at found
    cases found
    exact ident

/-- Class 100 is found under the name of class 200, and nothing is invented for its array. -/
theorem classes_stay_findable_twinClasses : ∃ (t : Machine) (hs hs' : Count) (jf' : Jdump),
    t.d.jf.cTable.lookup32 (key 100) = some 0 ∧ t.d.jf.findClass [0x41] = some 1 ∧
      t.d.jf.Findable 0 ∧
      readArray (t.d.jf.tagRead hs) hs false = .ok (jf', hs') ∧
      (t.d.jf.tagRead hs).NothingInvented jf' := by
  obtain ⟨s, opened, run⟩ := sampleEntered_steps (twinClasses 100) 3
  obtain ⟨findable, fallback⟩ := classes_stay_findable opened run
  have loaded : (sampleEntered (twinClasses 100) 3).2.d.jf.cTable.lookup32 (key 100) = some 0 := by
    decide +kernel
  have found : (sampleEntered (twinClasses 100) 3).2.d.jf.findClass [0x41] = some 1 := by
    decide +kernel
  have present : ((sampleEntered (twinClasses 100) 3).2.d.jf.tagRead ⟨17, false⟩).cTable.lookup32
      (key (((sampleEntered (twinClasses 100) 3).2.d.jf.tagRead ⟨17, false⟩).arrayHead false).1) =
        some 0 := by decide +kernel
  obtain ⟨cname, name, _, granted⟩ := fallback ⟨17, false⟩ ⟨17, false⟩ false 0 (by simp) present
  have text : cname = [0x41] := Option.some.inj (name.symm.trans (by decide +kernel))
  obtain ⟨jf', hs', read, nothing⟩ := granted (by rw [text]; decide)
  exact ⟨_, _, hs', jf', loaded, found, findable _ _ loaded, read, nothing⟩

/-- An array of class 100 becomes one of class 200. -/
theorem twinClasses_confused : ∃ (s t : Machine) (hs hs' : Count) (c : ClassRef) (jf' : Jdump),
    s.d.jf.Opened ∧ Steps s t ∧
      t.d.jf.cTable.lookup32 (key (t.d.jf.tagRead hs).arrayClassId) = some c ∧
      readArray (t.d.jf.tagRead hs) hs false = .ok (jf', hs') ∧
      (jf'.hobject t.d.jf.hobjects.next).classId ≠ (t.d.jf.tagRead hs).arrayClassId := by
  obtain ⟨s, opened, run⟩ := sampleEntered_steps (twinClasses 100) 3
  have state : (readArray ((sampleEntered (twinClasses 100) 3).2.d.jf.tagRead ⟨17, false⟩)
      ⟨17, false⟩ false).toOption.map (fun result => (result.1.hobject
        (sampleEntered (twinClasses 100) 3).2.d.jf.hobjects.next).classId) = some 200 := by
    decide +kernel
  obtain ⟨⟨jf', hs'⟩, read, classId⟩ := Option.map_eq_some_iff.mp state
  refine ⟨s, _, _, hs', 0, jf', opened, run, by decide +kernel, ok_of_toOption read, ?_⟩
  rw [show (jf'.hobject _).classId = _ from classId]
  decide +kernel

end Phat
