import Phat.ClassDump

/-! What `readHeap` leaves in `hTable` and in the counts of the classes when every class has
been loaded. An account of the sub-records, the latest first, takes the place of the loop. -/
namespace Phat

namespace SubRecord

/-- The identifier of the object that the sub-record describes. -/
def objectId : SubRecord → Option (List Byte)
  | instanceDump ident _ _ _ => some ident
  | objArray ident _ _ _ => some ident
  | primArray ident _ _ _ => some ident
  | _ => none

def htype : SubRecord → Option HType
  | instanceDump .. => some .hInstance
  | objArray .. => some .hOarray
  | primArray .. => some .hVarray
  | _ => none

/-- The values of the fields, or the elements. -/
def contents : SubRecord → List Byte
  | instanceDump _ _ _ body => body
  | objArray _ _ _ elements => elements.flatten
  | primArray _ _ _ elements => elements.flatten
  | _ => []

/-- Size and number of the elements of an array. -/
def elements (identsz : IdentSize) : SubRecord → Option (Nat × Nat)
  | objArray _ _ _ elements => some (identsz.size, elements.length)
  | primArray _ _ type elements => some (elementWidth identsz type, elements.length)
  | _ => none

/-- The class that an instance dump names. -/
def namedClass (jf : Jdump) : SubRecord → Option ClassRef
  | instanceDump _ _ classId _ => jf.cTable.lookup32 (keyOf classId)
  | _ => none

end SubRecord

section Account
variable (jf : Jdump)

def naming (c : ClassRef) (past : List SubRecord) : Nat :=
  past.countP fun record => record.namedClass jf = some c

/-- Arrays are retained. Of the instances of a class only the first 49999 are, unless it is
the class of strings. -/
def retainedAfter (past : List SubRecord) : SubRecord → Bool
  | .instanceDump _ _ classId _ => (jf.cTable.lookup32 (keyOf classId)).any fun c =>
      jf.findClass javaLangStringName = some c ∨ (jf.cinfo c).count + naming jf c past + 1 < 50000
  | .objArray .. => true
  | .primArray .. => true
  | _ => false

/-- The last retained sub-record with the identifier, and what was before it. -/
def lastRetained (ident : List Byte) : List SubRecord → Option (List SubRecord × SubRecord)
  | [] => none
  | record :: past =>
    if record.objectId = some ident ∧ retainedAfter jf past record then some (past, record)
    else lastRetained ident past

end Account

/-- The class with the identifier has been loaded, and its name is known. -/
structure Jdump.LoadedAs (jf : Jdump) (classId : List Byte) (c : ClassRef) : Prop where
  found : jf.cTable.lookup32 (keyOf classId) = some c
  allocated : c < jf.cinfos.next
  ident : (jf.cinfo c).ident = plain classId
  name : ∃ name, (jf.cinfo c).name = some name ∧ (jf.findClass name).isSome = true

/-- A sub-record that describes an object, with all the classes it needs. -/
structure SubRecord.Provided (jf : Jdump) (record : SubRecord) : Prop where
  object : record.objectId.isSome = true
  wellFormed : record.WellFormed jf.fVersion jf.identsz
  loaded : ∀ classId, record.classId = some classId → ∃ c, jf.LoadedAs classId c
  array : ∀ ident stack type elements, record = .primArray ident stack type elements →
    ∀ sig elsz, primType (type.setWidth 64) = some (sig, elsz) →
      (jf.findClass [chr '[', sig]).isSome = true

/-- The record of an object says what the sub-record at `pos` says. -/
structure Describes (identsz : IdentSize) (pos : Nat) (record : SubRecord) (ho : Hobject) :
    Prop where
  instId : record.objectId.map plain = some ho.instId
  htype : record.htype = some ho.htype
  fpos : ho.fpos = pos + (record.encode.length - record.contents.length)
  elements : ∀ size count, record.elements identsz = some (size, count) →
    ho.size = size ∧ ho.count = BitVec.ofNat 32 count

/-- What stands in `hTable` under an identifier after the sub-records. -/
def Held (jf jf' : Jdump) (ident : List Byte) : Option (List SubRecord × SubRecord) → Prop
  | none => jf'.hTable.lookup32 (keyOf ident) = jf.hTable.lookup32 (keyOf ident)
  | some (past, record) => ∃ o, jf'.hTable.lookup32 (keyOf ident) = some o ∧
      jf.hobjects.next ≤ o ∧ o < jf'.hobjects.next ∧
      Describes jf.identsz (jf.fin.pos + (past.flatMap SubRecord.encode).length) record
        (jf'.hobject o)

section Effects

/-- The counts have grown; nothing else has happened to the classes. -/
structure Tallied (jf jf' : Jdump) (amount : ClassRef → Nat) : Prop where
  cTable : jf'.cTable = jf.cTable
  rcTable : jf'.rcTable = jf.rcTable
  next : jf'.cinfos.next = jf.cinfos.next
  cinfo : ∀ c, jf'.cinfo c = { jf.cinfo c with count := (jf.cinfo c).count + amount c }

/-- A new object stands in `hTable` under the identifier. -/
structure Stored (jf jf' : Jdump) (ident : List Byte) : Prop where
  hTable : jf'.hTable = jf.hTable.insert32 (keyOf ident) jf.hobjects.next
  next : jf'.hobjects.next = jf.hobjects.next + 1
  kept : ∀ o, o ≠ jf.hobjects.next → jf'.hobject o = jf.hobject o

variable {jf jf' : Jdump} {hs hs' : Count} {sum : Summary} {ident stack classId more : List Byte}
  {c : ClassRef}

theorem Tallied.of_same (cTable : jf'.cTable = jf.cTable) (rcTable : jf'.rcTable = jf.rcTable)
    (cinfos : jf'.cinfos = jf.cinfos) : Tallied jf jf' fun _ => 0 := by
  constructor
  · exact cTable
  · exact rcTable
  · rw [cinfos]
  · intro c
    rw [Jdump.cinfo, cinfos]
    rfl

theorem Tallied.of_count (cTable : jf'.cTable = jf.cTable) (rcTable : jf'.rcTable = jf.rcTable)
    (cinfos : jf'.cinfos = jf.cinfos.modify c fun ci => { ci with count := ci.count + 1 }) :
    Tallied jf jf' fun x => if x = c then 1 else 0 := by
  constructor
  · exact cTable
  · exact rcTable
  · rw [cinfos]
    rfl
  · intro x
    rw [Jdump.cinfo, cinfos]
    by_cases here : x = c
    · subst here
      rw [Store.get_modify_self, if_pos rfl]
    · rw [Store.get_modify_of_ne _ _ here, if_neg here]
      rfl

theorem Tallied.trans {jf₁ : Jdump} {amount amount' : ClassRef → Nat}
    (first : Tallied jf jf₁ amount) (second : Tallied jf₁ jf' amount') :
    Tallied jf jf' fun c => amount c + amount' c := by
  constructor
  · rw [second.cTable, first.cTable]
  · rw [second.rcTable, first.rcTable]
  · rw [second.next, first.next]
  · intro c
    rw [second.cinfo, first.cinfo, Nat.add_assoc]

theorem Stored.of_make {init fill : Hobject → Hobject}
    (hTable : jf'.hTable = jf.hTable.insert32 (keyOf ident) jf.hobjects.next)
    (hobjects : jf'.hobjects = (jf.hobjects.alloc init).modify jf.hobjects.next fill) :
    Stored jf jf' ident ∧
      jf'.hobject jf.hobjects.next = fill (init (jf.hobject jf.hobjects.next)) := by
  constructor
  · constructor
    · exact hTable
    · rw [hobjects]
      rfl
    · intro o other
      rw [Jdump.hobject, hobjects, Store.get_modify_of_ne _ _ other,
        Store.get_alloc_of_ne _ _ other]
  · rw [Jdump.hobject, hobjects, Store.get_modify_self, Store.get_alloc_self]

theorem Tallied.loadedAs {amount : ClassRef → Nat} (tallied : Tallied jf jf' amount)
    (loaded : jf.LoadedAs classId c) : jf'.LoadedAs classId c := by
  obtain ⟨name, known, found⟩ := loaded.name
  constructor
  · rw [tallied.cTable]
    exact loaded.found
  · rw [tallied.next]
    exact loaded.allocated
  · rw [tallied.cinfo]
    exact loaded.ident
  · refine ⟨name, ?_, ?_⟩
    · rw [tallied.cinfo]
      exact known
    · rw [Jdump.findClass, tallied.rcTable]
      exact found

/-- Whether the case of `HPROF_GC_INSTANCE_DUMP` retains an instance of the class. -/
def keeps (jf : Jdump) (c : ClassRef) : Prop :=
  jf.findClass javaLangStringName = some c ∨ (jf.cinfo c).count + 1 < 50000

/-- The test of the program: two loaded classes with one identifier are the same. -/
theorem retained_eq {s : ClassRef} {stringId : List Byte} {jf₁ : Jdump}
    (found : jf.findClass javaLangStringName = some s) (loaded : jf.LoadedAs stringId s)
    (named : jf.LoadedAs classId c) (string : jf₁.javaLangString = some s)
    (tallied : Tallied jf jf₁ fun x => if x = c then 1 else 0) :
    ∃ keep, retained jf₁ c (plain classId) = .ok keep ∧ (keep = true ↔ keeps jf c) := by
  have count : (jf₁.cinfo c).count = (jf.cinfo c).count + 1 := by
    rw [tallied.cinfo, if_pos rfl]
  have ident : (jf₁.cinfo s).ident = (jf.cinfo s).ident := by
    rw [tallied.cinfo]
  have same : plain classId = (jf.cinfo s).ident ↔ s = c := by
    constructor
    · intro equal
      rw [loaded.ident] at equal
      have here : keyOf classId = keyOf stringId := congrArg key equal
      have one := named.found
      rw [here, loaded.found, Option.some.injEq] at one
      exact one
    · rintro rfl
      exact named.ident.symm
  unfold keeps
  rw [retained, count, string, found, Option.some.injEq]
  by_cases few : 50000 > (jf.cinfo c).count + 1
  · refine ⟨true, if_pos few, ?_⟩
    exact iff_of_true rfl (.inr few)
  · refine ⟨decide (plain classId = (jf₁.cinfo s).ident), if_neg few, ?_⟩
    rw [decide_eq_true_eq, ident, same]
    constructor
    · exact .inl
    · intro either
      exact either.resolve_right few

section Readers
attribute [local irreducible] readIdent readUintLocal

theorem readIdent_plain {f : FILE} (rest : f.rest = ident ++ more) (length : ident.length = 4) :
    ∃ f', readIdent .four f = (plain ident, f') ∧ Past f f' ident more := by
  obtain ⟨value, past⟩ := @readIdent_piece _ _ _ IdentSize.four rest length
  exact ⟨_, Prod.ext value rfl, past⟩

theorem readUintLocal_word {f : FILE} {word : List Byte} (rest : f.rest = word ++ more)
    (length : word.length = 4) :
    ∃ f', readUintLocal f = (BitVec.ofNat 32 (BigEndian.number word), f') ∧ Past f f' word more := by
  obtain ⟨value, past⟩ := readUintLocal_piece rest length
  exact ⟨_, Prod.ext value rfl, past⟩

theorem readInstance_stores {s : ClassRef} {stringId : List Byte} {n : Nat}
    (four : jf.identsz = .four)
    (rest : jf.fin.rest = ident ++ (stack ++ (classId ++ (BigEndian.digits 4 n ++ more))))
    (identLength : ident.length = 4) (stackLength : stack.length = 4)
    (classLength : classId.length = 4) (named : jf.LoadedAs classId c)
    (string : jf.javaLangString = some s) (found : jf.findClass javaLangStringName = some s)
    (loaded : jf.LoadedAs stringId s) (read : readInstance jf hs = .ok (jf', hs')) :
    Tallied jf jf' (fun x => if x = c then 1 else 0) ∧
      (keeps jf c → Stored jf jf' ident ∧
        (jf'.hobject jf.hobjects.next).htype = .hInstance ∧
        (jf'.hobject jf.hobjects.next).instId = plain ident ∧
        (jf'.hobject jf.hobjects.next).fpos = jf.fin.pos + 16) ∧
      (¬ keeps jf c → jf'.hTable = jf.hTable ∧ jf'.hobjects = jf.hobjects) := by
  obtain ⟨f₁, first, past₁⟩ := readIdent_plain rest identLength
  obtain ⟨f₂, second, past₂⟩ := readUintLocal_word past₁.rest stackLength
  obtain ⟨f₃, third, past₃⟩ := readIdent_plain past₂.rest classLength
  obtain ⟨f₄, fourth, past₄⟩ := readUintLocal_word past₃.rest (BigEndian.length_digits 4 n)
  have pos : f₄.pos = jf.fin.pos + 16 := by
    rw [past₄.reads.pos, past₃.reads.pos, past₂.reads.pos, past₁.reads.pos, identLength,
      stackLength, classLength, BigEndian.length_digits]
  have class' : jf.cTable.lookup32 (key (plain classId)) = some c := named.found
  have tallied : Tallied jf ({ jf with fin := f₄ }.modifyClass c fun ci =>
      { ci with count := ci.count + 1 }) (fun x => if x = c then 1 else 0) := .of_count rfl rfl rfl
  obtain ⟨keep, kept, means⟩ := retained_eq found loaded named (by exact string) tallied
  rw [readInstance] at read
  simp only [four, first, second, third, fourth, class'] at read
  rw [← four] at read
  simp only [kept] at read
  cases keep with
  | true =>
    have keep : keeps jf c := means.mp rfl
    have hobjects : jf'.hobjects = (jf.hobjects.alloc fun ho => { ho with
        htype := .hInstance, classId := plain classId, instId := plain ident, fpos := 0,
        size := 0 }).modify jf.hobjects.next fun ho => { ho with fpos := f₄.pos } := by
      cases read
      rfl
    have hTable : jf'.hTable = jf.hTable.insert32 (keyOf ident) jf.hobjects.next := by
      cases read
      rfl
    obtain ⟨stored, made⟩ := Stored.of_make hTable hobjects
    cases read
    refine ⟨.of_count rfl rfl rfl, fun _ => ⟨stored, ?_⟩, fun dropped => absurd keep dropped⟩
    rw [made]
    exact ⟨rfl, rfl, pos⟩
  | false =>
    have dropped : ¬ keeps jf c := fun keep => absurd (means.mpr keep) (by decide)
    cases read
    exact ⟨.of_count rfl rfl rfl, fun keep => absurd keep dropped, fun _ => ⟨rfl, rfl⟩⟩

/-- What an array leaves when its class is known. -/
structure ArrayStored (jf jf' : Jdump) (ident : List Byte) (ht : HType) (pos elsz n : Nat) :
    Prop where
  tallied : Tallied jf jf' fun _ => 0
  stored : Stored jf jf' ident
  htype : (jf'.hobject jf.hobjects.next).htype = ht
  instId : (jf'.hobject jf.hobjects.next).instId = plain ident
  fpos : (jf'.hobject jf.hobjects.next).fpos = pos
  size : (jf'.hobject jf.hobjects.next).size = elsz
  count : (jf'.hobject jf.hobjects.next).count = BitVec.ofNat 32 n

theorem storeArray_stores (f : FILE) (ht : HType) (raw : BitVec 64) (c : ClassRef)
    (elsz n : Nat) : ArrayStored jf
      (storeArray { jf with fin := f } ht raw (plain ident) c elsz (BitVec.ofNat 32 n))
      ident ht f.pos elsz n := by
  obtain ⟨stored, made⟩ := @Stored.of_make jf
    (storeArray { jf with fin := f } ht raw (plain ident) c elsz (BitVec.ofNat 32 n)) ident
    (fun ho => { ho with
      htype := ht, classId := (jf.cinfo c).ident, instId := plain ident, fpos := 0, size := 0 })
    (fun ho => { ho with fpos := f.pos, size := elsz, count := BitVec.ofNat 32 n }) rfl rfl
  constructor
  · exact .of_same rfl rfl rfl
  · exact stored
  all_goals rw [made]

theorem readObjArray_stores {n : Nat} (four : jf.identsz = .four)
    (rest : jf.fin.rest = ident ++ (stack ++ (BigEndian.digits 4 n ++ (classId ++ more))))
    (identLength : ident.length = 4) (stackLength : stack.length = 4)
    (classLength : classId.length = 4) (short : n < 2 ^ 32) (named : jf.LoadedAs classId c)
    (read : readArray jf hs false = .ok (jf', hs')) :
    ArrayStored jf jf' ident .hOarray (jf.fin.pos + 16) 4 n := by
  obtain ⟨f₁, first, past₁⟩ := readIdent_plain rest identLength
  obtain ⟨f₂, second, past₂⟩ := readUintLocal_word past₁.rest stackLength
  obtain ⟨f₃, third, past₃⟩ := readUintLocal_word past₂.rest (BigEndian.length_digits 4 n)
  obtain ⟨f₄, fourth, past₄⟩ := readIdent_plain past₃.rest classLength
  have pos : f₄.pos = jf.fin.pos + 16 := by
    rw [past₄.reads.pos, past₃.reads.pos, past₂.reads.pos, past₁.reads.pos, identLength,
      stackLength, classLength, BigEndian.length_digits]
  rw [BigEndian.number_digits, Nat.mod_eq_of_lt (by omega)] at third
  have class' : jf.cTable.lookup32 (key (plain classId)) = some c := named.found
  obtain ⟨cname, name, known⟩ := named.name
  have name' : ({ jf with fin := f₄ }.cinfo c).name = some cname := name
  rw [Option.isSome_iff_exists] at known
  obtain ⟨c', known⟩ := known
  have array := @arrayClass_known { jf with fin := f₄ } cname c' (plain classId) known
  rw [readArray] at read
  simp only [Bool.false_eq_true, if_false, four, first, second, third, fourth, class'] at read
  rw [← four] at read
  simp only [name', array] at read
  split at read
  · cases read
  · cases read
    have size : 4 = jf.identsz.size := by rw [four]; rfl
    rw [← pos, size]
    exact storeArray_stores _ _ _ _ _ _

theorem readPrimArray_stores {n elsz : Nat} {type sig : Byte} (four : jf.identsz = .four)
    (rest : jf.fin.rest = ident ++ (stack ++ (BigEndian.digits 4 n ++ (type :: more))))
    (identLength : ident.length = 4) (stackLength : stack.length = 4) (short : n < 2 ^ 32)
    (code : primType (type.setWidth 64) = some (sig, elsz))
    (known : (jf.findClass [chr '[', sig]).isSome = true)
    (read : readArray jf hs true = .ok (jf', hs')) :
    ArrayStored jf jf' ident .hVarray (jf.fin.pos + 13) elsz n := by
  obtain ⟨f₁, first, past₁⟩ := readIdent_plain rest identLength
  obtain ⟨f₂, second, past₂⟩ := readUintLocal_word past₁.rest stackLength
  obtain ⟨f₃, third, past₃⟩ := readUintLocal_word past₂.rest (BigEndian.length_digits 4 n)
  obtain ⟨value, fourth⟩ := getc_of_rest past₃.rest
  have pos : f₃.getc.2.pos = jf.fin.pos + 13 := by
    rw [fourth.pos, past₃.reads.pos, past₂.reads.pos, past₁.reads.pos, identLength,
      stackLength, BigEndian.length_digits]
  have elem : BitVec.ofInt 64 f₃.getc.1 = type.setWidth 64 := by
    rw [value]
    apply BitVec.eq_of_toNat_eq
    simp
  rw [BigEndian.number_digits, Nat.mod_eq_of_lt (by omega)] at third
  rw [Option.isSome_iff_exists] at known
  obtain ⟨c', known⟩ := known
  have array := @arrayClass_known { jf with fin := f₃.getc.2 } [chr '[', sig] c'
    (type.setWidth 64) known
  rw [readArray] at read
  simp only [if_true, four, first, second, third, elem, code] at read
  rw [← four] at read
  simp only [array] at read
  cases read
  rw [← pos]
  exact storeArray_stores _ _ _ _ _ _

/-- What a pass over a sub-record does to the classes and the objects. -/
structure Enters (jf jf' : Jdump) (record : SubRecord) : Prop where
  tallied : Tallied jf jf' fun c => naming jf c [record]
  retained : retainedAfter jf [] record = true →
    (∀ ident, record.objectId = some ident → Stored jf jf' ident) ∧
      Describes jf.identsz jf.fin.pos record (jf'.hobject jf.hobjects.next)
  dropped : retainedAfter jf [] record = false → jf'.hTable = jf.hTable ∧ jf'.hobjects = jf.hobjects

theorem ArrayStored.enters {ht : HType} {record : SubRecord} {elsz n : Nat} {log : List Event}
    (array : ArrayStored { jf with fin := jf.fin.getc.2, log := log } jf' ident ht
      (jf.fin.pos + (record.encode.length - record.contents.length)) elsz n)
    (object : record.objectId = some ident) (htype : record.htype = some ht)
    (elements : record.elements jf.identsz = some (elsz, n))
    (always : retainedAfter jf [] record = true) (anonymous : record.namedClass jf = none) :
    Enters jf jf' record := by
  constructor
  · have none : ∀ c, naming jf c [record] = 0 := by
      intro c
      rw [naming, List.countP_singleton, anonymous]
      rfl
    simp only [none]
    exact ⟨array.tallied.cTable, array.tallied.rcTable, array.tallied.next, array.tallied.cinfo⟩
  · intro _
    constructor
    · intro ident' same
      rw [object, Option.some.injEq] at same
      rw [← same]
      exact ⟨array.stored.hTable, array.stored.next, array.stored.kept⟩
    · constructor
      · rw [object, array.instId]
        rfl
      · rw [htype, array.htype]
      · exact array.fpos
      · intro size count same
        rw [elements] at same
        cases same
        exact ⟨array.size, array.count⟩
  · intro never
    rw [always] at never
    cases never

theorem naming_singleton {record : SubRecord} {c : ClassRef} (x : ClassRef)
    (named : record.namedClass jf = some c) :
    naming jf x [record] = if x = c then 1 else 0 := by
  rw [naming, List.countP_singleton, named]
  by_cases here : x = c
  · rw [if_pos here, here]
    exact if_pos (decide_eq_true rfl)
  · rw [if_neg here]
    exact if_neg fun same => here (Option.some.inj (of_decide_eq_true same)).symm

theorem heapPass_enters {record : SubRecord} {s : ClassRef} {stringId : List Byte}
    {sum' : Summary} (four : jf.identsz = .four) (provided : record.Provided jf)
    (string : jf.javaLangString = some s) (found : jf.findClass javaLangStringName = some s)
    (loaded : jf.LoadedAs stringId s) (rest : jf.fin.rest = record.encode ++ more)
    (pass : heapPass jf hs sum = .ok (jf', hs', sum')) : Enters jf jf' record := by
  have layout : jf.fin.rest = record.tag :: (record.body ++ more) := rest
  obtain ⟨_, start⟩ := getc_piece layout
  have after := start.rest
  have first : jf.fin.getc.2.pos = jf.fin.pos + 1 := start.reads.pos
  rw [heapPass_switch layout] at pass
  have unread : ∀ log, Tallied jf { jf with fin := jf.fin.getc.2, log := log } fun _ => 0 :=
    fun log => .of_same rfl rfl rfl
  have wellFormed := provided.wellFormed
  rw [four] at wellFormed
  have size : IdentSize.four.size = 4 := rfl
  cases record with
  | root rtype body => cases provided.object
  | classDump ident header statics fields => cases provided.object
  | instanceDump ident stack classId body =>
    obtain ⟨⟨jf₁, hs₁⟩, read, same⟩ := map_ok pass
    cases same
    obtain ⟨identLength, stackLength, classLength, short⟩ := wellFormed
    obtain ⟨c, named⟩ := provided.loaded classId rfl
    simp only [SubRecord.body, List.append_assoc] at after
    obtain ⟨tallied, kept, dropped⟩ := readInstance_stores (by exact four) (by exact after)
      identLength stackLength classLength ((unread _).loadedAs named) (by exact string)
      (by exact found) ((unread _).loadedAs loaded) read
    have keep : retainedAfter jf [] (.instanceDump ident stack classId body) = true ↔ keeps jf c := by
      rw [retainedAfter, named.found, Option.any_some, decide_eq_true_eq, naming, List.countP_nil]
      exact Iff.rfl
    have head : (SubRecord.instanceDump ident stack classId body).encode.length - body.length =
        1 + 16 := by
      simp only [SubRecord.encode, SubRecord.body, List.length_cons, List.length_append,
        BigEndian.length_digits, identLength, stackLength, classLength]
      omega
    constructor
    · have one := fun x => naming_singleton x
        (show (SubRecord.instanceDump ident stack classId body).namedClass jf = some c from named.found)
      simp only [one]
      exact ⟨tallied.cTable, tallied.rcTable, tallied.next, tallied.cinfo⟩
    · intro retains
      obtain ⟨stored, htype, instId, fpos⟩ := kept (keep.mp retains)
      constructor
      · intro ident' same
        cases same
        exact ⟨stored.hTable, stored.next, stored.kept⟩
      · constructor
        · exact congrArg some instId.symm
        · exact congrArg some htype.symm
        · rw [SubRecord.contents, head, ← Nat.add_assoc, ← first]
          exact fpos
        · intro size count same
          cases same
    · intro drops
      apply dropped
      intro keeps
      rw [keep.mpr keeps] at drops
      cases drops
  | objArray ident stack classId elements =>
    obtain ⟨⟨jf₁, hs₁⟩, read, same⟩ := map_ok pass
    cases same
    obtain ⟨identLength, stackLength, classLength, short, uniform⟩ := wellFormed
    obtain ⟨c, named⟩ := provided.loaded classId rfl
    simp only [SubRecord.body, List.append_assoc] at after
    have array := readObjArray_stores (by exact four) (by exact after) identLength stackLength
      classLength short ((unread _).loadedAs named) read
    have head : (SubRecord.objArray ident stack classId elements).encode.length -
        elements.flatten.length = 1 + 16 := by
      simp only [SubRecord.encode, SubRecord.body, List.length_cons, List.length_append,
        BigEndian.length_digits, identLength, stackLength, classLength]
      omega
    rw [first, Nat.add_assoc, ← head] at array
    apply ArrayStored.enters array rfl rfl ?_ rfl rfl
    rw [SubRecord.elements, four]
    rfl
  | primArray ident stack type elements =>
    obtain ⟨⟨jf₁, hs₁⟩, read, same⟩ := map_ok pass
    cases same
    obtain ⟨identLength, stackLength, ⟨low, high⟩, short, uniform⟩ := wellFormed
    obtain ⟨sig, elsz, code⟩ := SubRecord.primType_of_code low high
    have known := provided.array _ _ _ _ rfl sig elsz code
    simp only [SubRecord.body, List.append_assoc, List.cons_append] at after
    have array := readPrimArray_stores (by exact four) (by exact after) identLength stackLength
      short code (by exact known) read
    have head : (SubRecord.primArray ident stack type elements).encode.length -
        elements.flatten.length = 1 + 13 := by
      simp only [SubRecord.encode, SubRecord.body, List.length_cons, List.length_append,
        BigEndian.length_digits, identLength, stackLength]
      omega
    rw [first, Nat.add_assoc, ← head] at array
    apply ArrayStored.enters array rfl rfl ?_ rfl rfl
    rw [SubRecord.elements, elementWidth, code]

end Readers

end Effects

section Run

/-- What holds after the sub-records, the latest of which stands first. -/
structure Accounts (jf jf' : Jdump) (past : List SubRecord) : Prop where
  tallied : Tallied jf jf' fun c => naming jf c past
  table : ∀ ident, ident.length = jf.identsz.size → Held jf jf' ident (lastRetained jf ident past)
  kept : ∀ o < jf.hobjects.next, jf'.hobject o = jf.hobject o
  grown : jf.hobjects.next ≤ jf'.hobjects.next
  pos : jf'.fin.pos = jf.fin.pos + (past.flatMap SubRecord.encode).length
  identsz : jf'.identsz = jf.identsz
  fVersion : jf'.fVersion = jf.fVersion

variable {jf jf₁ jf' : Jdump} {hs hs' : Count} {sum sum' : Summary} {ident more : List Byte}
  {record : SubRecord} {past : List SubRecord}

theorem keyOf_injective {ident' : List Byte} (length : ident.length = 4)
    (length' : ident'.length = 4) (same : keyOf ident = keyOf ident') : ident = ident' := by
  have bound := BigEndian.number_lt ident
  have bound' := BigEndian.number_lt ident'
  rw [length] at bound
  rw [length'] at bound'
  apply BigEndian.number_injective (length.trans length'.symm)
  have number := congrArg BitVec.toNat same
  simp only [keyOf, key, BitVec.toNat_setWidth, BitVec.toNat_ofNat] at number
  omega

theorem Held.mono {holder : Option (List SubRecord × SubRecord)} (held : Held jf jf₁ ident holder)
    (lookup : jf'.hTable.lookup32 (keyOf ident) = jf₁.hTable.lookup32 (keyOf ident))
    (kept : ∀ o < jf₁.hobjects.next, jf'.hobject o = jf₁.hobject o)
    (grown : jf₁.hobjects.next ≤ jf'.hobjects.next) : Held jf jf' ident holder := by
  cases holder with
  | none => exact lookup.trans held
  | some holder =>
    obtain ⟨o, found, new, made, describes⟩ := held
    refine ⟨o, lookup.trans found, new, made.trans_le grown, ?_⟩
    rw [kept o made]
    exact describes

/-- The test made after some sub-records is the one that the state they leave answers. -/
theorem retainedAfter_state (accounts : Accounts jf jf₁ past) (record : SubRecord) :
    retainedAfter jf₁ [] record = retainedAfter jf past record := by
  cases record with
  | instanceDump ident stack classId body =>
    have string : jf₁.findClass javaLangStringName = jf.findClass javaLangStringName := by
      rw [Jdump.findClass, accounts.tallied.rcTable]
      rfl
    have count : ∀ c, (jf₁.cinfo c).count + naming jf₁ c [] =
        (jf.cinfo c).count + naming jf c past := by
      intro c
      rw [accounts.tallied.cinfo]
      rfl
    rw [retainedAfter, retainedAfter, accounts.tallied.cTable, string]
    simp only [count]
  | _ => rfl

theorem naming_cons (c : ClassRef) : naming jf c (record :: past) =
    naming jf c past + naming jf c [record] := by
  rw [naming, naming, naming, ← List.singleton_append, List.countP_append, Nat.add_comm]

/-- A sub-record that is retained has an identifier, and is stored under it. -/
theorem Enters.stored (enters : Enters jf₁ jf' record)
    (keep : retainedAfter jf₁ [] record = true) :
    ∃ ident, record.objectId = some ident ∧ Stored jf₁ jf' ident := by
  obtain ⟨stored, describes⟩ := enters.retained keep
  have object := describes.instId
  rw [Option.map_eq_some_iff] at object
  obtain ⟨ident, object, _⟩ := object
  exact ⟨ident, object, stored ident object⟩

theorem Enters.grown (enters : Enters jf₁ jf' record) :
    jf₁.hobjects.next ≤ jf'.hobjects.next ∧
      ∀ o < jf₁.hobjects.next, jf'.hobject o = jf₁.hobject o := by
  cases keep : retainedAfter jf₁ [] record with
  | true =>
    obtain ⟨_, _, stored⟩ := enters.stored keep
    rw [stored.next]
    exact ⟨Nat.le_succ _, fun o before => stored.kept o (Nat.ne_of_lt before)⟩
  | false =>
    obtain ⟨_, same⟩ := enters.dropped keep
    rw [same]
    exact ⟨le_rfl, fun o _ => by rw [Jdump.hobject, same]⟩

theorem SubRecord.objectId_length {fVersion : Nat} (wellFormed : record.WellFormed fVersion .four)
    (object : record.objectId = some ident) : ident.length = 4 := by
  cases record with
  | root => cases object
  | classDump => cases object
  | instanceDump =>
    cases object
    exact wellFormed.1
  | objArray =>
    cases object
    exact wellFormed.1
  | primArray =>
    cases object
    exact wellFormed.1

theorem Accounts.step (four : jf.identsz = .four) (accounts : Accounts jf jf₁ past)
    (enters : Enters jf₁ jf' record) (wellFormed : record.WellFormed jf.fVersion jf.identsz)
    (onePass : OnePass jf₁ jf' hs hs' ⟨record.body.length, true⟩) :
    Accounts jf jf' (record :: past) := by
  have test := retainedAfter_state accounts record
  have naming₁ : ∀ c, naming jf₁ c [record] = naming jf c [record] := by
    intro c
    have class' : record.namedClass jf₁ = record.namedClass jf := by
      cases record with
      | instanceDump ident stack classId body =>
        rw [SubRecord.namedClass, accounts.tallied.cTable]
        rfl
      | _ => rfl
    rw [naming, naming, List.countP_singleton, List.countP_singleton, class']
  obtain ⟨grown, kept⟩ := enters.grown
  constructor
  · have tallied := accounts.tallied.trans enters.tallied
    have amount : ∀ c, naming jf c (record :: past) =
        naming jf c past + naming jf c [record] := naming_cons
    simp only [naming₁] at tallied
    simp only [amount]
    exact tallied
  · intro ident length
    rw [lastRetained]
    by_cases holds : record.objectId = some ident ∧ retainedAfter jf past record = true
    · rw [if_pos holds]
      obtain ⟨object, keep⟩ := holds
      rw [← test] at keep
      obtain ⟨stored, describes⟩ := enters.retained keep
      have stored := stored ident object
      refine ⟨jf₁.hobjects.next, ?_, accounts.grown, ?_, ?_⟩
      · rw [stored.hTable]
        exact Table.lookup32_insert32_self _ _ _
      · rw [stored.next]
        exact Nat.lt_succ_self _
      · rw [← accounts.pos, ← accounts.identsz]
        exact describes
    · rw [if_neg holds]
      apply (accounts.table ident length).mono ?_ kept grown
      cases keep : retainedAfter jf₁ [] record with
      | true =>
        obtain ⟨other, object, stored⟩ := enters.stored keep
        have apart : keyOf ident ≠ keyOf other := by
          intro same
          apply holds
          rw [four] at wellFormed length
          rw [keyOf_injective length (SubRecord.objectId_length wellFormed object) same, ← test]
          exact ⟨object, keep⟩
        rw [stored.hTable]
        exact Table.lookup32_insert32_of_ne _ _ apart
      | false => rw [(enters.dropped keep).1]
  · intro o before
    rw [kept o (before.trans_le accounts.grown), accounts.kept o before]
  · exact accounts.grown.trans grown
  · have pos : jf'.fin.pos = jf₁.fin.pos + (1 + record.body.length) := onePass.pos
    rw [pos, accounts.pos, List.flatMap_cons, List.length_append, SubRecord.encode,
      List.length_cons]
    omega
  · rw [onePass.identsz, accounts.identsz]
  · rw [onePass.fVersion, accounts.fVersion]

theorem SubRecord.Provided.later {amount : ClassRef → Nat} (tallied : Tallied jf jf₁ amount)
    (identsz : jf₁.identsz = jf.identsz) (fVersion : jf₁.fVersion = jf.fVersion)
    (provided : record.Provided jf) : record.Provided jf₁ := by
  constructor
  · exact provided.object
  · rw [identsz, fVersion]
    exact provided.wellFormed
  · intro classId needed
    obtain ⟨c, loaded⟩ := provided.loaded classId needed
    exact ⟨c, tallied.loadedAs loaded⟩
  · intro ident stack type elements same sig elsz code
    rw [Jdump.findClass, tallied.rcTable]
    exact provided.array ident stack type elements same sig elsz code

/-- Counting leaves the names of the classes. -/
theorem Tallied.roomy_iff {amount : ClassRef → Nat} (tallied : Tallied jf jf₁ amount)
    (record : SubRecord) : record.Roomy jf₁.ledger ↔ record.Roomy jf.ledger := by
  have names : ∀ k, (jf₁.ledger.classes k).map LoadedClass.name =
      (jf.ledger.classes k).map LoadedClass.name := by
    intro k
    simp only [Jdump.ledger, tallied.cTable, tallied.next, tallied.cinfo]
    cases jf.cTable.lookup32 k with
    | none => rfl
    | some c =>
      rw [Option.bind_some, Option.bind_some]
      split
      · rw [Option.map_map, Option.map_map]
        rfl
      · rfl
  cases record with
  | objArray ident stack classId elements =>
    have by_name : ∀ ledger : Ledger, SubRecord.Roomy ledger (.objArray ident stack classId
        elements) ↔ ∀ name, (ledger.classes (keyOf classId)).map LoadedClass.name = some name →
          2 + name.length < maxCount 1 := by
      intro ledger
      constructor
      · intro roomy name found
        obtain ⟨entry, here, rfl⟩ := Option.map_eq_some_iff.mp found
        exact roomy entry here
      · intro roomy entry here
        exact roomy entry.name (by rw [here]; rfl)
    rw [by_name, by_name, names]
  | _ => exact Iff.rfl

theorem SubRecord.Provided.loaded_named {record : SubRecord} (provided : record.Provided jf) :
    record.Loaded jf := by
  intro classId needed
  obtain ⟨c, known⟩ := provided.loaded classId needed
  obtain ⟨name, here, _⟩ := known.name
  exact ⟨c, known.found, known.allocated, by rw [here]; rfl⟩

/-- The loop keeps the account, as long as the copies of the names are made. -/
theorem heapLoop_accounts {records : List SubRecord} {s : ClassRef} {stringId : List Byte}
    (four : jf.identsz = .four) (provided : ∀ record ∈ records, record.Provided jf₁)
    (string : jf₁.javaLangString = some s) (found : jf₁.findClass javaLangStringName = some s)
    (loaded : jf₁.LoadedAs stringId s) (accounts : Accounts jf jf₁ past)
    (rest : jf₁.fin.rest = records.flatMap SubRecord.encode ++ more)
    (left : hs.left.toNat = (records.flatMap SubRecord.encode).length) :
    ((∀ record ∈ records, record.Roomy jf₁.ledger) →
      ∃ jf' hs' sum', (∀ fuel, records.length ≤ fuel →
          heapLoop fuel jf₁ hs sum = .ok (jf', hs', sum')) ∧
        Accounts jf jf' (records.reverse ++ past)) ∧
    ((∃ record ∈ records, ¬ record.Roomy jf₁.ledger) → ∀ fuel, records.length ≤ fuel →
      heapLoop fuel jf₁ hs sum = .error .nomem) := by
  induction records generalizing jf₁ hs sum past with
  | nil =>
    have empty : hs.left = 0 := BitVec.eq_of_toNat_eq left
    refine ⟨fun _ => ⟨jf₁, hs, sum, fun fuel _ => heapLoop_zero _ _ _ empty, accounts⟩, ?_⟩
    rintro ⟨record, member, _⟩
    cases member
  | cons record records ih =>
    have going := SubRecord.left_ne_zero left
    rw [List.flatMap_cons, List.append_assoc] at rest
    rw [List.flatMap_cons, List.length_append] at left
    have first := provided record List.mem_cons_self
    have some : jf₁.javaLangString.isSome = true := by
      rw [string]
      rfl
    by_cases roomy : record.Roomy jf₁.ledger
    · obtain ⟨jf₂, hs₂, pass, onePass, after, counts, _, _⟩ := @heapPass_record jf₁ hs sum _
        jf₁.ledger record first.wellFormed jf₁.tracks_ledger first.loaded_named.known roomy
        (.inl some) rest (by omega)
      have counted := counts.left
      have enters := heapPass_enters (accounts.identsz.trans four) first string found loaded rest
        pass
      have wellFormed := first.wellFormed
      rw [accounts.fVersion, accounts.identsz] at wellFormed
      have found₂ : jf₂.findClass javaLangStringName = Option.some s := by
        rw [Jdump.findClass, enters.tallied.rcTable]
        exact found
      obtain ⟨passes, refused⟩ := @ih jf₂ hs₂ (sum.plus (.of [record.tag])) (record :: past)
        (fun other member => (provided other (.tail _ member)).later enters.tallied
          onePass.identsz onePass.fVersion)
        (onePass.string.trans string) found₂ (enters.tallied.loadedAs loaded)
        (accounts.step four enters wellFormed onePass) after (by omega)
      constructor
      · intro room
        obtain ⟨jf', hs', sum', run, accounts'⟩ := passes fun other member =>
          (enters.tallied.roomy_iff other).mpr (room other (.tail _ member))
        refine ⟨jf', hs', sum', fun fuel enough => ?_, ?_⟩
        · obtain ⟨fuel, rfl⟩ : ∃ n, fuel = n + 1 :=
            ⟨fuel - 1, by rw [List.length_cons] at enough; omega⟩
          rw [heapLoop_ok fuel going pass, run fuel (by simpa using enough)]
        · rw [List.reverse_cons, List.append_assoc]
          exact accounts'
      · rintro ⟨other, member, full⟩ fuel enough
        obtain ⟨fuel, rfl⟩ : ∃ n, fuel = n + 1 :=
          ⟨fuel - 1, by rw [List.length_cons] at enough; omega⟩
        rw [heapLoop_ok fuel going pass]
        refine refused ⟨other, ?_, ?_⟩ fuel (by simpa using enough)
        · rcases List.mem_cons.mp member with rfl | later
          · exact absurd roomy full
          · exact later
        · exact fun room => full ((enters.tallied.roomy_iff other).mp room)
    · refine ⟨fun room => absurd (room record List.mem_cons_self) roomy, fun _ fuel enough => ?_⟩
      obtain ⟨fuel, rfl⟩ : ∃ n, fuel = n + 1 :=
        ⟨fuel - 1, by rw [List.length_cons] at enough; omega⟩
      exact heapLoop_error fuel going
        (heapPass_nomem first.wellFormed jf₁.tracks_ledger roomy rest)

theorem heap_entered (d : Dump) (records : List SubRecord) (four : d.jf.identsz = .four)
    (provided : ∀ record ∈ records, record.Provided d.jf)
    (string : ∃ s stringId, d.jf.findClass javaLangStringName = some s ∧ d.jf.LoadedAs stringId s)
    (plain : d.jf.fclass = none) (rest : d.jf.fin.rest = records.flatMap SubRecord.encode ++ more)
    (short : (records.flatMap SubRecord.encode).length < 2 ^ 32) :
    let hsize := BitVec.ofNat 32 (records.flatMap SubRecord.encode).length
    ((∀ record ∈ records, record.Roomy d.jf.ledger) →
      ∃ jf', (∀ fuel, records.length ≤ fuel → readHeap fuel d hsize = .ok { d with jf := jf' }) ∧
        (∀ c, (jf'.cinfo c).count = (d.jf.cinfo c).count + naming d.jf c records) ∧
        (∀ ident, ident.length = 4 →
          Held d.jf jf' ident (lastRetained d.jf ident records.reverse)) ∧
        ∀ o < d.jf.hobjects.next, jf'.hobject o = d.jf.hobject o) ∧
    ((∃ record ∈ records, ¬ record.Roomy d.jf.ledger) → ∀ fuel, records.length ≤ fuel →
      readHeap fuel d hsize = .error .nomem) := by
  intro hsize
  obtain ⟨s, stringId, found, loaded⟩ := string
  have left : hsize.toNat = (records.flatMap SubRecord.encode).length := by
    rw [BitVec.toNat_ofNat, Nat.mod_eq_of_lt short]
  have entered : Tallied d.jf (enterHeap d.jf) fun _ => 0 := .of_same rfl rfl rfl
  have start : Accounts d.jf (enterHeap d.jf) [] :=
    ⟨entered, fun _ _ => rfl, fun _ _ => rfl, le_rfl, rfl, rfl, rfl⟩
  obtain ⟨passes, refused⟩ := @heapLoop_accounts d.jf (enterHeap d.jf) ⟨hsize, false⟩ .zero more []
    records s stringId four (fun record member => (provided record member).later entered rfl rfl)
    found found (entered.loadedAs loaded) start rest left
  constructor
  · intro room
    obtain ⟨jf', hs', sum', run, accounts⟩ := passes fun record member =>
      (entered.roomy_iff record).mpr (room record member)
    rw [List.append_nil] at accounts
    refine ⟨jf', fun fuel enough => readHeap_plain (run fuel enough) plain, fun c => ?_, ?_,
      accounts.kept⟩
    · rw [accounts.tallied.cinfo, naming, naming, List.countP_reverse]
    · intro ident length
      apply accounts.table ident
      rw [four]
      exact length
  · rintro ⟨record, member, full⟩ fuel enough
    apply readHeap_nomem
    exact refused ⟨record, member, fun room => full ((entered.roomy_iff record).mp room)⟩ fuel
      enough

/-- Two instances of java/lang/String, an array of them and an array of characters. The
last sub-record describes the object of the second one anew. -/
def sampleObjects : List SubRecord :=
  [.instanceDump [0, 0, 0, 2] [0, 0, 0, 0] [0, 0, 0, 1] [0, 0, 0, 42],
    .objArray [0, 0, 0, 3] [0, 0, 0, 0] [0, 0, 0, 1] [[0, 0, 0, 2], [0, 0, 0, 2]],
    .primArray [0, 0, 0, 4] [0, 0, 0, 0] 5 [[0, 1], [0, 2], [0, 3]],
    .instanceDump [0, 0, 0, 3] [0, 0, 0, 0] [0, 0, 0, 1] []]

/-- Classes 1 and 9, named java/lang/String and [C, have been loaded. -/
def sampleObjectsDump : Dump :=
  let d := Dump.start (sampleObjects.flatMap SubRecord.encode) .four none
  { d with jf := { d.jf with
    cTable := (d.jf.cTable.insert32 1 0).insert32 9 1
    rcTable := (d.jf.rcTable.insert32 (Crc32.crc32 javaLangStringName) 0).insert32
      (Crc32.crc32 [chr '[', chr 'C']) 1
    cinfos := (d.jf.cinfos.alloc fun ci => { ci with
      ident := 1, name := some javaLangStringName, count := 7 }).alloc fun ci => { ci with
        ident := 9, name := some [chr '[', chr 'C'] } } }

theorem heap_entered_sample : ∃ jf', readHeap 4 sampleObjectsDump 83 =
      .ok { sampleObjectsDump with jf := jf' } ∧ (jf'.cinfo 0).count = 9 ∧
    ∃ o, jf'.hTable.lookup32 3 = some o ∧ (jf'.hobject o).htype = .hInstance ∧
      (jf'.hobject o).fpos = 83 := by
  have loaded : sampleObjectsDump.jf.LoadedAs [0, 0, 0, 1] 0 := by
    constructor
    · decide +kernel
    · decide +kernel
    · decide +kernel
    · exact ⟨javaLangStringName, by decide +kernel, by decide +kernel⟩
  have provided : ∀ record ∈ sampleObjects, record.Provided sampleObjectsDump.jf := by
    have needed : ∀ record ∈ sampleObjects, ∀ classId, record.classId = some classId →
        ∃ c, sampleObjectsDump.jf.LoadedAs classId c := by
      intro record member classId needed
      simp only [sampleObjects, List.mem_cons, List.not_mem_nil, or_false] at member
      rcases member with rfl | rfl | rfl | rfl <;> cases needed <;> exact ⟨0, loaded⟩
    intro record member
    have classes := needed record member
    simp only [sampleObjects, List.mem_cons, List.not_mem_nil, or_false] at member
    rcases member with rfl | rfl | rfl | rfl
    · exact ⟨rfl, ⟨rfl, rfl, rfl, by decide⟩, classes, fun _ _ _ _ same => by cases same⟩
    · exact ⟨rfl, ⟨rfl, rfl, rfl, by decide, by decide⟩, classes,
        fun _ _ _ _ same => by cases same⟩
    · refine ⟨rfl, ⟨rfl, rfl, by decide, by decide, by decide⟩, classes, ?_⟩
      intro _ _ _ _ same sig elsz code
      cases same
      cases code
      decide +kernel
    · exact ⟨rfl, ⟨rfl, rfl, rfl, by decide⟩, classes, fun _ _ _ _ same => by cases same⟩
  have rest : sampleObjectsDump.jf.fin.rest = sampleObjects.flatMap SubRecord.encode ++ [] := by
    decide +kernel
  have room : ∀ record ∈ sampleObjects, record.Roomy sampleObjectsDump.jf.ledger := by
    intro record member
    simp only [sampleObjects, List.mem_cons, List.not_mem_nil, or_false] at member
    rcases member with rfl | rfl | rfl | rfl
    · trivial
    · intro entry found
      have known : some entry = some ⟨javaLangStringName, 7⟩ :=
        found.symm.trans (by decide +kernel)
      cases known
      decide
    · trivial
    · trivial
  obtain ⟨jf', run, counts, table, _⟩ := (@heap_entered [] sampleObjectsDump sampleObjects rfl
    provided ⟨0, _, by decide +kernel, loaded⟩ rfl rest (by decide +kernel)).1 room
  have count : (sampleObjectsDump.jf.cinfo 0).count + naming sampleObjectsDump.jf 0 sampleObjects =
      9 := by decide +kernel
  have length : BitVec.ofNat 32 (sampleObjects.flatMap SubRecord.encode).length = 83 := by
    decide +kernel
  have whole := run 4 le_rfl
  rw [length] at whole
  refine ⟨jf', whole, (counts 0).trans count, ?_⟩
  have last : lastRetained sampleObjectsDump.jf [0, 0, 0, 3] sampleObjects.reverse =
      some ((sampleObjects.take 3).reverse,
        .instanceDump [0, 0, 0, 3] [0, 0, 0, 0] [0, 0, 0, 1] []) := by
    change lastRetained _ _ (.instanceDump [0, 0, 0, 3] [0, 0, 0, 0] [0, 0, 0, 1] [] ::
      (sampleObjects.take 3).reverse) = _
    rw [lastRetained, if_pos ⟨rfl, by decide +kernel⟩]
  generalize sampleObjects.reverse = latest at table last
  have held := table [0, 0, 0, 3] (by decide)
  rw [last] at held
  obtain ⟨o, found, _, _, describes⟩ := held
  refine ⟨o, found, ?_, ?_⟩
  · exact (Option.some.inj describes.htype).symm
  · rw [describes.fpos]
    decide +kernel

end Run

end Phat
