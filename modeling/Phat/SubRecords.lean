import Phat.Framing
import Phat.Ledger

/-! Heap sub-records as the format writes them. `readHeap` takes every sequence of well
formed ones apart exactly at their boundaries. -/
namespace Phat

structure StaticEntry where
  ident : List Byte
  type : Byte
  value : List Byte

structure FieldEntry where
  ident : List Byte
  type : Byte

/-- The pieces of a sub-record as they stand in the file. The counts are not among them:
they are the lengths of the lists. -/
inductive SubRecord where
  | root (rtype : Byte) (body : List Byte)
  | classDump (ident header : List Byte) (statics : List StaticEntry) (fields : List FieldEntry)
  | instanceDump (ident stack classId body : List Byte)
  | objArray (ident stack classId : List Byte) (elements : List (List Byte))
  | primArray (ident stack : List Byte) (type : Byte) (elements : List (List Byte))

def StaticEntry.encode (entry : StaticEntry) : List Byte :=
  entry.ident ++ entry.type :: entry.value

def FieldEntry.encode (entry : FieldEntry) : List Byte :=
  entry.ident ++ [entry.type]

def validSig (sig : Byte) : Bool :=
  sig ∈ ['L', '[', 'Z', 'B', 'S', 'C', 'I', 'J', 'F', 'D'].map chr

structure StaticEntry.WellFormed (fVersion : Nat) (identsz : IdentSize) (entry : StaticEntry) :
    Prop where
  ident : entry.ident.length = identsz.size
  type : validSig (typeSig fVersion entry.type)
  value : entry.value.length = fieldSize identsz (typeSig fVersion entry.type)
  bool : typeSig fVersion entry.type = chr 'Z' → entry.value = [0] ∨ entry.value = [1]

structure FieldEntry.WellFormed (fVersion : Nat) (identsz : IdentSize) (entry : FieldEntry) :
    Prop where
  ident : entry.ident.length = identsz.size
  type : validSig (typeSig fVersion entry.type)

namespace SubRecord

def tag : SubRecord → Byte
  | root rtype _ => rtype
  | classDump .. => 0x20
  | instanceDump .. => 0x21
  | objArray .. => 0x22
  | primArray .. => 0x23

/-- The sub-record without its tag. -/
def body : SubRecord → List Byte
  | root _ body => body
  | classDump ident header statics fields =>
    (ident ++ header) ++ (BigEndian.digits 2 0 ++
      (BigEndian.digits 2 statics.length ++ (statics.flatMap StaticEntry.encode ++
        (BigEndian.digits 2 fields.length ++ fields.flatMap FieldEntry.encode))))
  | instanceDump ident stack classId body =>
    (ident ++ stack ++ classId) ++ (BigEndian.digits 4 body.length ++ body)
  | objArray ident stack classId elements =>
    (ident ++ stack) ++ (BigEndian.digits 4 elements.length ++ (classId ++ elements.flatten))
  | primArray ident stack type elements =>
    (ident ++ stack) ++ (BigEndian.digits 4 elements.length ++ type :: elements.flatten)

def encode (record : SubRecord) : List Byte := record.tag :: record.body

/-- The identifier of the class that the sub-record needs in `cTable`. -/
def classId : SubRecord → Option (List Byte)
  | classDump ident _ _ _ => some ident
  | instanceDump _ _ classId _ => some classId
  | objArray _ _ classId _ => some classId
  | _ => none

/-- A class dump's `header` is its stack trace number, six identifiers and the size. -/
def WellFormed (fVersion : Nat) (identsz : IdentSize) : SubRecord → Prop
  | root rtype body => ∃ kind, rootKind rtype = some kind ∧
      body.length = kind.idents * identsz.size + 4 * kind.words
  | classDump ident header statics fields =>
      ident.length = identsz.size ∧ header.length = 6 * identsz.size + 8 ∧
      statics.length < 2 ^ 16 ∧ (∀ entry ∈ statics, entry.WellFormed fVersion identsz) ∧
      fields.length < 2 ^ 16 ∧ (∀ entry ∈ fields, entry.WellFormed fVersion identsz)
  | instanceDump ident stack classId body =>
      ident.length = identsz.size ∧ stack.length = 4 ∧ classId.length = identsz.size ∧
      body.length < 2 ^ 32
  | objArray ident stack classId elements =>
      ident.length = identsz.size ∧ stack.length = 4 ∧ classId.length = identsz.size ∧
      elements.length < 2 ^ 32 ∧ ∀ element ∈ elements, element.length = identsz.size
  | primArray ident stack type elements =>
      ident.length = identsz.size ∧ stack.length = 4 ∧ (4 ≤ type.toNat ∧ type.toNat ≤ 11) ∧
      elements.length < 2 ^ 32 ∧ ∀ element ∈ elements, element.length = elementWidth identsz type

end SubRecord

section Lengths
variable {fVersion : Nat} {identsz : IdentSize}

theorem flatten_length {elements : List (List Byte)} {width : Nat}
    (uniform : ∀ element ∈ elements, element.length = width) :
    elements.flatten.length = width * elements.length := by
  induction elements with
  | nil => rfl
  | cons element elements ih =>
    have first := uniform element List.mem_cons_self
    have later := ih fun other member => uniform other (.tail _ member)
    rw [List.flatten_cons, List.length_append, first, later, List.length_cons, Nat.mul_succ,
      Nat.add_comm]

theorem whole_append {front more : List Byte} {n : Nat} (length : front.length = n) :
    whole (front ++ more) n = some ⟨n, true⟩ := by
  rw [whole, if_pos]
  rw [List.length_append]
  omega

theorem numberAt_digits {width n : Nat} (fits : n < 256 ^ width) (more : List Byte) :
    numberAt width (BigEndian.digits width n ++ more) = some n := by
  have length := BigEndian.length_digits width n
  rw [numberAt, if_pos (by rw [List.length_append]; omega), List.take_left' length,
    BigEndian.number_digits, Nat.mod_eq_of_lt fits]

theorem StaticEntry.WellFormed.legal {entry : StaticEntry}
    (wellFormed : entry.WellFormed fVersion identsz) (more : List Byte) :
    legal (typeSig fVersion entry.type) (entry.value ++ more) = true := by
  rw [Phat.legal, decide_eq_true_eq]
  by_cases bool : typeSig fVersion entry.type = chr 'Z'
  · rcases wellFormed.bool bool with value | value
    · exact .inr (.inl (by rw [value]; rfl))
    · exact .inr (.inr (by rw [value]; rfl))
  · exact .inl bool

theorem entriesSpan_statics {statics : List StaticEntry}
    (wellFormed : ∀ entry ∈ statics, entry.WellFormed fVersion identsz) (more : List Byte) :
    entriesSpan fVersion identsz identsz.size statics.length
        (statics.flatMap StaticEntry.encode ++ more) =
      some ⟨(statics.flatMap StaticEntry.encode).length, true⟩ := by
  induction statics with
  | nil => rfl
  | cons entry statics ih =>
    have first := wellFormed entry List.mem_cons_self
    have later := ih fun other member => wellFormed other (.tail _ member)
    have layout : (entry :: statics).flatMap StaticEntry.encode ++ more =
        entry.ident ++ (entry.type :: (entry.value ++
          (statics.flatMap StaticEntry.encode ++ more))) := by
      simp [StaticEntry.encode]
    have value : valueSpan fVersion identsz (entry.type :: (entry.value ++
        (statics.flatMap StaticEntry.encode ++ more))) = some ⟨1 + entry.value.length, true⟩ := by
      rw [valueSpan, if_pos (by rw [List.length_append, first.value]; omega), first.legal,
        first.value]
    have tail : (entry.ident ++ (entry.type :: (entry.value ++
        (statics.flatMap StaticEntry.encode ++ more)))).drop
          (identsz.size + (1 + entry.value.length)) =
        statics.flatMap StaticEntry.encode ++ more := by
      rw [← first.ident, ← List.drop_drop, List.drop_left, Nat.add_comm 1, List.drop_succ_cons,
        List.drop_left]
    rw [List.length_cons, entriesSpan, layout, List.drop_left' first.ident, value]
    simp only
    rw [tail, later]
    simp only [StaticEntry.encode, List.flatMap_cons, List.length_append, List.length_cons,
      first.ident, Bool.and_self, Option.some.injEq, Span.mk.injEq, and_true]
    omega

theorem fields_length {fields : List FieldEntry}
    (wellFormed : ∀ entry ∈ fields, entry.WellFormed fVersion identsz) :
    (fields.flatMap FieldEntry.encode).length = fields.length * (identsz.size + 1) := by
  induction fields with
  | nil => simp
  | cons entry fields ih =>
    have first := wellFormed entry List.mem_cons_self
    have later := ih fun other member => wellFormed other (.tail _ member)
    rw [List.flatMap_cons, List.length_append, later, FieldEntry.encode, List.length_append,
      first.ident, List.length_singleton, List.length_cons, Nat.succ_mul, Nat.add_comm]

end Lengths

namespace SubRecord
variable {fVersion : Nat} {identsz : IdentSize}

theorem classSpan_body {ident header : List Byte} {statics : List StaticEntry}
    {fields : List FieldEntry}
    (wellFormed : (classDump ident header statics fields).WellFormed fVersion identsz)
    (more : List Byte) :
    classSpan fVersion identsz ((classDump ident header statics fields).body ++ more) =
      some ⟨(classDump ident header statics fields).body.length, true⟩ := by
  obtain ⟨identLength, headerLength, staticCount, staticEntries, fieldCount, fieldEntries⟩ :=
    wellFormed
  have fixed : (ident ++ header).length = 7 * identsz.size + 8 := by
    rw [List.length_append]
    omega
  have fieldsLength := fields_length fieldEntries
  have lists : listsSpan fVersion identsz (BigEndian.digits 2 0 ++
      (BigEndian.digits 2 statics.length ++ (statics.flatMap StaticEntry.encode ++
        (BigEndian.digits 2 fields.length ++ (fields.flatMap FieldEntry.encode ++ more))))) =
      some ⟨2 + 0 + (2 + (statics.flatMap StaticEntry.encode).length) +
        (2 + fields.length * (identsz.size + 1)), true⟩ := by
    have afterStatics : (BigEndian.digits 2 statics.length ++
        (statics.flatMap StaticEntry.encode ++ (BigEndian.digits 2 fields.length ++
          (fields.flatMap FieldEntry.encode ++ more)))).drop
            (2 + (statics.flatMap StaticEntry.encode).length) =
        BigEndian.digits 2 fields.length ++ (fields.flatMap FieldEntry.encode ++ more) := by
      rw [← List.append_assoc, List.drop_left' (by simp)]
    have last : whole (BigEndian.digits 2 fields.length ++
        (fields.flatMap FieldEntry.encode ++ more)) (2 + fields.length * (identsz.size + 1)) =
        some ⟨2 + fields.length * (identsz.size + 1), true⟩ := by
      rw [← List.append_assoc]
      exact whole_append (by rw [List.length_append, BigEndian.length_digits, fieldsLength])
    simp only [listsSpan, Option.bind_eq_bind]
    rw [numberAt_digits (by decide), Option.bind_some, entriesSpan, Option.bind_some]
    simp only [Nat.add_zero]
    rw [List.drop_left' (BigEndian.length_digits 2 0), numberAt_digits (by omega), Option.bind_some,
      List.drop_left' (BigEndian.length_digits 2 _), entriesSpan_statics staticEntries,
      Option.bind_some, afterStatics, numberAt_digits (by omega), Option.bind_some, last,
      Option.bind_some]
    rfl
  simp only [body, List.append_assoc]
  rw [← List.append_assoc ident]
  simp only [classSpan, Option.bind_eq_bind]
  rw [List.drop_left' fixed, lists, Option.bind_some]
  simp only [List.length_append, BigEndian.length_digits, fieldsLength, identLength, headerLength,
    Option.some.injEq, Span.mk.injEq, and_true]
  omega

theorem primType_of_code {type : Byte} (low : 4 ≤ type.toNat) (high : type.toNat ≤ 11) :
    ∃ sig elsz, primType (type.setWidth 64) = some (sig, elsz) := by
  have codes : ∀ code : Byte, 4 ≤ code.toNat → code.toNat ≤ 11 →
      (primType (code.setWidth 64)).isSome = true := by decide +kernel
  have known := codes type low high
  rw [Option.isSome_iff_exists] at known
  obtain ⟨⟨sig, elsz⟩, known⟩ := known
  exact ⟨sig, elsz, known⟩

theorem instanceSpan_body {ident stack classId data : List Byte}
    (wellFormed : (instanceDump ident stack classId data).WellFormed fVersion identsz)
    (more : List Byte) :
    instanceSpan identsz ((instanceDump ident stack classId data).body ++ more) =
      some ⟨(instanceDump ident stack classId data).body.length, true⟩ := by
  obtain ⟨identLength, stackLength, classLength, short⟩ := wellFormed
  have fixed : (ident ++ stack ++ classId).length = 2 * identsz.size + 4 := by
    simp only [List.length_append]
    omega
  have length : (instanceDump ident stack classId data).body.length =
      2 * identsz.size + 8 + data.length := by
    rw [body, List.length_append, fixed, List.length_append, BigEndian.length_digits]
    omega
  have size : numberAt 4 (((instanceDump ident stack classId data).body ++ more).drop
      (2 * identsz.size + 4)) = some data.length := by
    rw [body, List.append_assoc, List.drop_left' fixed, List.append_assoc,
      numberAt_digits (by omega)]
  rw [instanceSpan, size, Option.bind_eq_bind, Option.bind_some, whole_append length, length]

theorem objArraySpan_body {ident stack classId : List Byte} {elements : List (List Byte)}
    (wellFormed : (objArray ident stack classId elements).WellFormed fVersion identsz)
    (more : List Byte) :
    objArraySpan identsz ((objArray ident stack classId elements).body ++ more) =
      some ⟨(objArray ident stack classId elements).body.length, true⟩ := by
  obtain ⟨identLength, stackLength, classLength, short, uniform⟩ := wellFormed
  have fixed : (ident ++ stack).length = identsz.size + 4 := by
    rw [List.length_append]
    omega
  have length : (objArray ident stack classId elements).body.length =
      2 * identsz.size + 8 + identsz.size * elements.length := by
    rw [body, List.length_append, fixed, List.length_append, BigEndian.length_digits,
      List.length_append, flatten_length uniform]
    omega
  have size : numberAt 4 (((objArray ident stack classId elements).body ++ more).drop
      (identsz.size + 4)) = some elements.length := by
    rw [body, List.append_assoc, List.drop_left' fixed, List.append_assoc,
      numberAt_digits (by omega)]
  rw [objArraySpan, size, Option.bind_eq_bind, Option.bind_some, whole_append length, length]

theorem primArraySpan_body {ident stack : List Byte} {type : Byte} {elements : List (List Byte)}
    (wellFormed : (primArray ident stack type elements).WellFormed fVersion identsz)
    (more : List Byte) :
    primArraySpan identsz ((primArray ident stack type elements).body ++ more) =
      some ⟨(primArray ident stack type elements).body.length, true⟩ := by
  obtain ⟨identLength, stackLength, code, short, uniform⟩ := wellFormed
  have fixed : (ident ++ stack).length = identsz.size + 4 := by
    rw [List.length_append]
    omega
  have length : (primArray ident stack type elements).body.length =
      identsz.size + 9 + elementWidth identsz type * elements.length := by
    rw [body, List.length_append, fixed, List.length_append, BigEndian.length_digits,
      List.length_cons, flatten_length uniform]
    omega
  have size : numberAt 4 (((primArray ident stack type elements).body ++ more).drop
      (identsz.size + 4)) = some elements.length := by
    rw [body, List.append_assoc, List.drop_left' fixed, List.append_assoc,
      numberAt_digits (by omega)]
  have here : (((primArray ident stack type elements).body ++ more).drop
      (identsz.size + 8)).head? = some type := by
    rw [body, List.append_assoc, show identsz.size + 8 = identsz.size + 4 + 4 from rfl,
      ← List.drop_drop, List.drop_left' fixed, List.append_assoc,
      List.drop_left' (BigEndian.length_digits 4 _), List.cons_append, List.head?_cons]
  rw [primArraySpan, size, here]
  simp only [Option.bind_eq_bind, Option.bind_some]
  rw [whole_append length, length]

theorem span_body {record : SubRecord} (wellFormed : record.WellFormed fVersion identsz)
    (more : List Byte) :
    span fVersion identsz record.tag (record.body ++ more) = some ⟨record.body.length, true⟩ := by
  cases record with
  | root rtype data =>
    obtain ⟨kind, found, length⟩ := wellFormed
    simp only [span, tag, body, found]
    rw [whole_append length, length]
  | classDump ident header statics fields => exact classSpan_body wellFormed more
  | instanceDump ident stack classId data => exact instanceSpan_body wellFormed more
  | objArray ident stack classId elements => exact objArraySpan_body wellFormed more
  | primArray ident stack type elements => exact primArraySpan_body wellFormed more

end SubRecord

/-- `cTable` holds an allocated class record with a name under `k`. -/
def Jdump.Named (jf : Jdump) (k : Key) : Prop :=
  ∃ c, jf.cTable.lookup32 k = some c ∧ c < jf.cinfos.next ∧ (jf.cinfo c).name.isSome = true

/-- The key under which the class with an identifier of these bytes stands. -/
def keyOf (ident : List Byte) : Key := key (BitVec.ofNat 64 (BigEndian.number ident))

def SubRecord.Loaded (jf : Jdump) (record : SubRecord) : Prop :=
  ∀ ident, record.classId = some ident → jf.Named (keyOf ident)

namespace SubRecord

/-- The ledger after the sub-record. -/
def enter (ledger : Ledger) : SubRecord → Ledger
  | instanceDump _ _ classId _ => ledger.countInstance (keyOf classId)
  | objArray _ _ classId _ => (ledger.classes (keyOf classId)).elim ledger fun entry =>
      ledger.invent entry.name (keyOf classId)
  | primArray _ _ type _ => (primType (type.setWidth 64)).elim ledger fun coded =>
      ledger.invent [chr '[', coded.1] (key (type.setWidth 64))
  | _ => ledger

def Known (ledger : Ledger) (record : SubRecord) : Prop :=
  ∀ ident, record.classId = some ident → (ledger.classes (keyOf ident)).isSome = true

/-- `talloc_zero_array` has room for the copy of the name of the class. -/
def Roomy (ledger : Ledger) : SubRecord → Prop
  | objArray _ _ classId _ => ∀ entry, ledger.classes (keyOf classId) = some entry →
      2 + entry.name.length < maxCount 1
  | _ => True

/-- With this one fewer than 50000 instances of the class are counted. -/
def Few (ledger : Ledger) : SubRecord → Prop
  | instanceDump _ _ classId _ => ∀ entry, ledger.classes (keyOf classId) = some entry →
      entry.count + 1 < 50000
  | _ => True

end SubRecord

section Faults
variable {jf jf' : Jdump} {identsz : IdentSize} {f : FILE} {ledger : Ledger}

theorem SubRecord.classes_enter {k : Key} (record : SubRecord)
    (known : (ledger.classes k).isSome = true) :
    ((record.enter ledger).classes k).isSome = true := by
  cases record with
  | instanceDump ident stack classId data => exact Ledger.known_countInstance known
  | objArray ident stack classId elements =>
    rw [enter]
    cases ledger.classes (keyOf classId) with
    | none => exact known
    | some entry => exact Ledger.known_invent entry.name known
  | primArray ident stack type elements =>
    rw [enter]
    cases primType (type.setWidth 64) with
    | none => exact known
    | some coded => exact Ledger.known_invent _ known
  | _ => exact known

theorem SubRecord.known_enter {record other : SubRecord} (known : other.Known ledger) :
    other.Known (record.enter ledger) :=
  fun ident needed => record.classes_enter (known ident needed)

theorem Tracks.named {k : Key} (tracks : Tracks jf ledger)
    (known : (ledger.classes k).isSome = true) : jf.Named k := by
  obtain ⟨entry, found⟩ := Option.isSome_iff_exists.mp known
  obtain ⟨c, here, allocated, name⟩ := tracks.classes k entry found
  exact ⟨c, here, allocated, by rw [name]; rfl⟩

theorem SubRecord.Loaded.known {record : SubRecord} (loaded : record.Loaded jf) :
    record.Known jf.ledger := by
  intro ident needed
  obtain ⟨c, found, allocated, name⟩ := loaded ident needed
  simp only [Jdump.ledger, found, Option.bind_some, if_pos allocated, Option.isSome_map, name]

theorem readIdent_key {ident more : List Byte} (rest : f.rest = ident ++ more)
    (length : ident.length = identsz.size) : key (readIdent identsz f).1 = keyOf ident := by
  have has : f.Has identsz.size := by
    apply FILE.has_of_rest identsz.size_pos
    rw [rest, List.length_append]
    omega
  have ahead : f.ahead identsz.size = ident := by
    change f.rest.take identsz.size = ident
    rw [rest, List.take_left' length]
  have raw : rawIdent identsz f = BitVec.ofNat 64 (BigEndian.number ident) := by
    rw [← ahead]
    exact if_pos has
  rw [(readIdent_decodes identsz f).low, raw, keyOf]

section Readers
attribute [local irreducible] readIdent readUintLocal readClassHeader readClassLists
variable {hs : Count} {sum : Summary} {more : List Byte}

theorem readClass_ok {ident : List Byte} (rest : jf.fin.rest = ident ++ more)
    (length : ident.length = jf.identsz.size) (named : jf.Named (keyOf ident)) :
    ∃ result, readClass jf hs = .ok result := by
  obtain ⟨c, found, _, _⟩ := named
  rw [← readIdent_key rest length] at found
  rw [readClass]
  simp only [found]
  exact ⟨_, rfl⟩

theorem retained_ok (c : ClassRef) (classId : BitVec 64)
    (string : jf.javaLangString.isSome = true) : ∃ keep, retained jf c classId = .ok keep := by
  rw [Option.isSome_iff_exists] at string
  obtain ⟨string, found⟩ := string
  rw [retained, found]
  split
  · exact ⟨true, rfl⟩
  · exact ⟨_, rfl⟩

theorem instanceClass_key {ident stack classId : List Byte}
    (rest : jf.fin.rest = (ident ++ stack ++ classId) ++ more)
    (identLength : ident.length = jf.identsz.size) (stackLength : stack.length = 4)
    (classLength : classId.length = jf.identsz.size) : key jf.instanceClass = keyOf classId := by
  rw [List.append_assoc, List.append_assoc] at rest
  have first := readIdent_reads (show jf.identsz.size ≤ jf.fin.rest.length by
    rw [rest, List.length_append]; omega)
  have afterIdent := first.rest
  rw [rest, List.drop_left' identLength] at afterIdent
  have second := (readUintLocal_reads (show 4 ≤ (readIdent jf.identsz jf.fin).2.rest.length by
    rw [afterIdent, List.length_append]; omega)).rest
  rw [afterIdent, List.drop_left' stackLength] at second
  exact readIdent_key second classLength

/-- Whether an instance is retained, once it has been counted. -/
theorem retained_counted {k : Key} {entry : LoadedClass} {c : ClassRef} (tallies : Tallies jf ledger)
    (known : ledger.classes k = some entry) (found : jf.cTable.lookup32 k = some c)
    (classId : BitVec 64) :
    (entry.count + 1 < 50000 → retained (jf.modifyClass c fun ci =>
      { ci with count := ci.count + 1 }) c classId = .ok true) ∧
    (¬ entry.count + 1 < 50000 → jf.javaLangString = none → retained (jf.modifyClass c fun ci =>
      { ci with count := ci.count + 1 }) c classId = .error .null) := by
  have count : ((jf.modifyClass c fun ci => { ci with count := ci.count + 1 }).cinfo c).count =
      entry.count + 1 := by
    simp only [Jdump.modifyClass, Jdump.cinfo, Store.get_modify_self]
    rw [tallies.counts k entry c known found]
  have string : (jf.modifyClass c fun ci => { ci with count := ci.count + 1 }).javaLangString =
      jf.javaLangString := rfl
  constructor
  · intro few
    rw [retained, count, if_pos few]
  · intro many none
    rw [retained, count, if_neg many, string, none]

theorem readInstance_ok {classId : List Byte} (same : key jf.instanceClass = keyOf classId)
    (tracks : Tracks jf ledger) (known : (ledger.classes (keyOf classId)).isSome = true)
    (spared : jf.javaLangString.isSome = true ∨ Tallies jf ledger ∧
      ∀ entry, ledger.classes (keyOf classId) = some entry → entry.count + 1 < 50000) :
    ∃ result, readInstance jf hs = .ok result := by
  obtain ⟨entry, here⟩ := Option.isSome_iff_exists.mp known
  obtain ⟨c, found, _, _⟩ := tracks.classes _ entry here
  have looked := found
  rw [← same, Jdump.instanceClass] at looked
  have kept : ∃ keep, retained ({ jf with fin := (readUintLocal (readIdent jf.identsz
      (readUintLocal (readIdent jf.identsz jf.fin).2).2).2).2 }.modifyClass c fun ci =>
        { ci with count := ci.count + 1 }) c jf.instanceClass = .ok keep := by
    rcases spared with string | ⟨tallies, few⟩
    · exact retained_ok c _ string
    · exact ⟨true, (@retained_counted { jf with fin := _ } ledger _ entry c
        ⟨tallies.absent, tallies.allocated, tallies.apart, tallies.counts⟩ here found _).1
        (few entry here)⟩
  obtain ⟨keep, kept⟩ := kept
  rw [Jdump.instanceClass] at kept
  rw [readInstance]
  simp only [looked, kept]
  exact ⟨_, rfl⟩

/-- `jf->javaLangString->ident` is followed where the class has been counted often enough. -/
theorem readInstance_null {classId : List Byte} (same : key jf.instanceClass = keyOf classId)
    (tracks : Tracks jf ledger) (tallies : Tallies jf ledger) (string : jf.javaLangString = none)
    {entry : LoadedClass} (here : ledger.classes (keyOf classId) = some entry)
    (many : ¬ entry.count + 1 < 50000) : readInstance jf hs = .error .null := by
  obtain ⟨c, found, _, _⟩ := tracks.classes _ entry here
  have looked := found
  rw [← same, Jdump.instanceClass] at looked
  have stopped := (@retained_counted { jf with fin := (readUintLocal (readIdent jf.identsz
      (readUintLocal (readIdent jf.identsz jf.fin).2).2).2).2 } ledger _ entry c
    ⟨tallies.absent, tallies.allocated, tallies.apart, tallies.counts⟩ here found
    jf.instanceClass).2 many string
  rw [Jdump.instanceClass] at stopped
  rw [readInstance]
  simp only [looked, stopped]

/-- What follows the header of an array. -/
theorem arrayHeader_rest {ident stack : List Byte} {n : Nat}
    (rest : jf.fin.rest = (ident ++ stack) ++ (BigEndian.digits 4 n ++ more))
    (identLength : ident.length = jf.identsz.size) (stackLength : stack.length = 4)
    (short : n < 2 ^ 32) :
    (readUintLocal (readUintLocal (readIdent jf.identsz jf.fin).2).2).2.rest = more := by
  have fixed : (ident ++ stack).length = jf.identsz.size + 4 := by
    rw [List.length_append]
    omega
  have size : numberAt 4 (jf.fin.rest.drop (jf.identsz.size + 4)) = some n := by
    rw [rest, List.drop_left' fixed, numberAt_digits (by omega)]
  have header := (arrayHeader_reads size).1.rest
  rwa [rest, show jf.identsz.size + 8 = jf.identsz.size + 4 + 4 from rfl, ← List.drop_drop,
    List.drop_left' fixed, List.drop_left' (BigEndian.length_digits 4 n)] at header

theorem objArray_key {ident stack classId : List Byte} {n : Nat}
    (rest : jf.fin.rest = (ident ++ stack) ++ (BigEndian.digits 4 n ++ (classId ++ more)))
    (identLength : ident.length = jf.identsz.size) (stackLength : stack.length = 4)
    (classLength : classId.length = jf.identsz.size) (short : n < 2 ^ 32) :
    key (jf.arrayHead false).1 = keyOf classId :=
  readIdent_key (arrayHeader_rest rest identLength stackLength short) classLength

theorem primArray_code {ident stack : List Byte} {type : Byte} {n : Nat}
    (rest : jf.fin.rest = (ident ++ stack) ++ (BigEndian.digits 4 n ++ type :: more))
    (identLength : ident.length = jf.identsz.size) (stackLength : stack.length = 4)
    (short : n < 2 ^ 32) : (jf.arrayHead true).1 = type.setWidth 64 := by
  have value := (getc_of_rest (arrayHeader_rest rest identLength stackLength short)).1
  change BitVec.ofInt 64 (readUintLocal (readUintLocal (readIdent jf.identsz
    jf.fin).2).2).2.getc.1 = type.setWidth 64
  rw [value]
  apply BitVec.eq_of_toNat_eq
  simp

/-- An array of objects is read if and only if there is room for the copy of the name. -/
theorem readObjArray_result {classId : List Byte} (same : key (jf.arrayHead false).1 = keyOf classId)
    (tracks : Tracks jf ledger) {entry : LoadedClass}
    (here : ledger.classes (keyOf classId) = some entry) :
    (2 + entry.name.length < maxCount 1 → ∃ result, readArray jf hs false = .ok result) ∧
    (¬ 2 + entry.name.length < maxCount 1 → readArray jf hs false = .error .nomem) := by
  obtain ⟨c, found, _, name⟩ := tracks.classes _ entry here
  rw [← same] at found
  change jf.cTable.lookup32 (key (readIdent jf.identsz _).1) = some c at found
  have kept : ∀ f, ({ jf with fin := f }.cinfo c).name = some entry.name := fun _ => name
  rw [readArray]
  simp only [Bool.false_eq_true, if_false, found]
  rw [kept]
  constructor
  · intro room
    simp only [if_neg (Nat.not_le.mpr room)]
    exact ⟨_, rfl⟩
  · intro full
    simp only [if_pos (Nat.not_lt.mp full)]

theorem readObjArray_null (absent : jf.cTable.lookup32 (key (jf.arrayHead false).1) = none) :
    readArray jf hs false = .error .null := by
  change jf.cTable.lookup32 (key (readIdent jf.identsz _).1) = none at absent
  rw [readArray]
  simp only [Bool.false_eq_true, if_false, absent]

theorem readPrimArray_ok {type : Byte} (code : (jf.arrayHead true).1 = type.setWidth 64)
    (low : 4 ≤ type.toNat) (high : type.toNat ≤ 11) :
    ∃ result, readArray jf hs true = .ok result := by
  obtain ⟨sig, elsz, known⟩ := SubRecord.primType_of_code low high
  rw [← code] at known
  change primType (BitVec.ofInt 64 _) = some (sig, elsz) at known
  rw [readArray]
  simp only [if_true]
  rw [known]
  exact ⟨_, rfl⟩

end Readers

section Cases
variable {hs hs' : Count} {sum sum' : Summary} {more : List Byte} {record : SubRecord}

theorem SubRecord.instance_key {ident stack classId data : List Byte}
    (wellFormed : (instanceDump ident stack classId data).WellFormed jf.fVersion jf.identsz)
    (rest : jf.fin.rest = (instanceDump ident stack classId data).body ++ more) :
    key jf.instanceClass = keyOf classId := by
  obtain ⟨identLength, stackLength, classLength, _⟩ := wellFormed
  rw [body, List.append_assoc] at rest
  exact instanceClass_key rest identLength stackLength classLength

theorem SubRecord.obj_key {ident stack classId : List Byte} {elements : List (List Byte)}
    (wellFormed : (objArray ident stack classId elements).WellFormed jf.fVersion jf.identsz)
    (rest : jf.fin.rest = (objArray ident stack classId elements).body ++ more) :
    key (jf.arrayHead false).1 = keyOf classId := by
  obtain ⟨identLength, stackLength, classLength, short, _⟩ := wellFormed
  have layout : jf.fin.rest = (ident ++ stack) ++ (BigEndian.digits 4 elements.length ++
      (classId ++ (elements.flatten ++ more))) := by
    rw [rest]
    simp only [body, List.append_assoc]
  exact objArray_key layout identLength stackLength classLength short

theorem SubRecord.prim_code {ident stack : List Byte} {type : Byte} {elements : List (List Byte)}
    (wellFormed : (primArray ident stack type elements).WellFormed jf.fVersion jf.identsz)
    (rest : jf.fin.rest = (primArray ident stack type elements).body ++ more) :
    (jf.arrayHead true).1 = type.setWidth 64 := by
  obtain ⟨identLength, stackLength, _, short, _⟩ := wellFormed
  have layout : jf.fin.rest = (ident ++ stack) ++ (BigEndian.digits 4 elements.length ++
      type :: (elements.flatten ++ more)) := by
    rw [rest]
    simp only [body, List.append_assoc, List.cons_append]
  exact primArray_code layout identLength stackLength short

/-- No pointer the readers follow is NULL. -/
theorem heapCase_ok (wellFormed : record.WellFormed jf.fVersion jf.identsz)
    (rest : jf.fin.rest = record.body ++ more) (tracks : Tracks jf ledger)
    (known : record.Known ledger) (roomy : record.Roomy ledger)
    (spared : jf.javaLangString.isSome = true ∨ Tallies jf ledger ∧ record.Few ledger) :
    ∃ result, heapCase record.tag jf hs sum = .ok result := by
  have mapped : ∀ {α β : Type} {x : Except Stop α} {g : α → β},
      (∃ a, x = .ok a) → ∃ b, x.map g = .ok b := by
    rintro α β _ g ⟨a, rfl⟩
    exact ⟨g a, rfl⟩
  cases record with
  | root rtype data =>
    obtain ⟨kind, found, _⟩ := wellFormed
    simp only [SubRecord.tag, heapCase, found]
    exact ⟨_, rfl⟩
  | classDump ident header statics fields =>
    obtain ⟨identLength, _⟩ := wellFormed
    simp only [SubRecord.body, List.append_assoc] at rest
    exact mapped (readClass_ok rest identLength (tracks.named (known ident rfl)))
  | instanceDump ident stack classId data =>
    exact mapped (readInstance_ok (SubRecord.instance_key wellFormed rest) tracks
      (known classId rfl) spared)
  | objArray ident stack classId elements =>
    obtain ⟨entry, here⟩ := Option.isSome_iff_exists.mp (known classId rfl)
    exact mapped ((readObjArray_result (SubRecord.obj_key wellFormed rest) tracks here).1
      (roomy entry here))
  | primArray ident stack type elements =>
    have code := SubRecord.prim_code wellFormed rest
    obtain ⟨_, _, ⟨low, high⟩, _⟩ := wellFormed
    exact mapped (readPrimArray_ok code low high)

/-- There is no room for the copy of the name. -/
theorem heapCase_nomem (wellFormed : record.WellFormed jf.fVersion jf.identsz)
    (rest : jf.fin.rest = record.body ++ more) (tracks : Tracks jf ledger)
    (full : ¬ record.Roomy ledger) : heapCase record.tag jf hs sum = .error .nomem := by
  cases record with
  | objArray ident stack classId elements =>
    rw [SubRecord.Roomy] at full
    push Not at full
    obtain ⟨entry, here, long⟩ := full
    have stopped := (@readObjArray_result jf ledger hs classId
      (SubRecord.obj_key wellFormed rest) tracks entry here).2 (Nat.not_lt.mpr long)
    change (readArray jf hs false).map _ = _
    rw [stopped]
    rfl
  | _ => exact absurd trivial full

theorem heapCase_null (wellFormed : record.WellFormed jf.fVersion jf.identsz)
    (rest : jf.fin.rest = record.body ++ more) (tracks : Tracks jf ledger)
    (tallies : Tallies jf ledger) (string : jf.javaLangString = none)
    (many : ¬ record.Few ledger) : heapCase record.tag jf hs sum = .error .null := by
  cases record with
  | instanceDump ident stack classId data =>
    rw [SubRecord.Few] at many
    push Not at many
    obtain ⟨entry, here, often⟩ := many
    have stopped := @readInstance_null jf ledger hs classId
      (SubRecord.instance_key wellFormed rest) tracks tallies string entry here
      (Nat.not_lt.mpr often)
    change (readInstance jf hs).map _ = _
    rw [stopped]
    rfl
  | _ => exact absurd trivial many

theorem SubRecord.unloaded {classId : List Byte} (tallies : Tallies jf ledger)
    (unknown : ¬ record.Known ledger) (names : ∀ ident, record.classId = some ident →
      ident = classId) : jf.cTable.lookup32 (keyOf classId) = none := by
  rw [Known] at unknown
  push Not at unknown
  obtain ⟨ident, named, absent⟩ := unknown
  rw [← names ident named]
  exact tallies.absent _ (Option.not_isSome_iff_eq_none.mp absent)

/-- A class that has not been loaded is followed as a NULL. -/
theorem heapCase_unloaded (wellFormed : record.WellFormed jf.fVersion jf.identsz)
    (rest : jf.fin.rest = record.body ++ more) (tallies : Tallies jf ledger)
    (unknown : ¬ record.Known ledger) : heapCase record.tag jf hs sum = .error .null := by
  have absent := fun classId => @SubRecord.unloaded jf ledger record classId tallies unknown
  cases record with
  | classDump ident header statics fields =>
    have none := absent ident fun _ named => (Option.some.inj named).symm
    obtain ⟨identLength, _⟩ := wellFormed
    simp only [SubRecord.body, List.append_assoc] at rest
    rw [← readIdent_key rest identLength] at none
    change (readClass jf hs).map _ = _
    rw [readClass]
    simp only [none]
    rfl
  | instanceDump ident stack classId data =>
    have none := absent classId fun _ named => (Option.some.inj named).symm
    rw [← SubRecord.instance_key wellFormed rest, Jdump.instanceClass] at none
    change (readInstance jf hs).map _ = _
    rw [readInstance]
    simp only [none]
    rfl
  | objArray ident stack classId elements =>
    have none := absent classId fun _ named => (Option.some.inj named).symm
    rw [← SubRecord.obj_key wellFormed rest] at none
    change (readArray jf hs false).map _ = _
    rw [readObjArray_null none]
    rfl
  | root rtype data => exact absurd (fun _ named => by cases named) unknown
  | primArray ident stack type elements => exact absurd (fun _ named => by cases named) unknown

/-- The ledger goes along with the readers. -/
theorem heapCase_tracks (wellFormed : record.WellFormed jf.fVersion jf.identsz)
    (rest : jf.fin.rest = record.body ++ more) (tracks : Tracks jf ledger)
    (known : record.Known ledger)
    (read : heapCase record.tag jf hs sum = .ok (jf', hs', sum')) :
    Tracks jf' (record.enter ledger) ∧ (Tallies jf ledger → Tallies jf' (record.enter ledger)) := by
  cases record with
  | root rtype data =>
    obtain ⟨kind, found, _⟩ := wellFormed
    simp only [SubRecord.tag, heapCase, found] at read
    cases read
    exact ⟨⟨tracks.strings, tracks.serials, tracks.classes, tracks.hashes, tracks.fakeClass⟩,
      fun tallies => ⟨tallies.absent, tallies.allocated, tallies.apart, tallies.counts⟩⟩
  | classDump ident header statics fields =>
    obtain ⟨⟨jf₁, hs₁⟩, inner, same⟩ := map_ok read
    cases same
    exact readClass_tracks tracks inner
  | instanceDump ident stack classId data =>
    obtain ⟨⟨jf₁, hs₁⟩, inner, same⟩ := map_ok read
    cases same
    rw [SubRecord.enter, ← SubRecord.instance_key wellFormed rest]
    exact readInstance_tracks tracks inner
  | objArray ident stack classId elements =>
    obtain ⟨⟨jf₁, hs₁⟩, inner, same⟩ := map_ok read
    cases same
    have sameKey := SubRecord.obj_key wellFormed rest
    obtain ⟨entry, here⟩ := Option.isSome_iff_exists.mp (known classId rfl)
    obtain ⟨c, found, _, name⟩ := tracks.classes _ entry here
    rw [SubRecord.enter, here, Option.elim_some, ← sameKey]
    cases readArray_cases inner with
    | coded prim => cases prim
    | named _ found' name' =>
      rw [sameKey, found, Option.some.injEq] at found'
      subst found'
      rw [name, Option.some.injEq] at name'
      subst name'
      exact arrayStored_tracks tracks _ _ _ _
  | primArray ident stack type elements =>
    obtain ⟨⟨jf₁, hs₁⟩, inner, same⟩ := map_ok read
    cases same
    have code := SubRecord.prim_code wellFormed rest
    obtain ⟨_, _, ⟨low, high⟩, _⟩ := wellFormed
    obtain ⟨sig, elsz, coded⟩ := SubRecord.primType_of_code low high
    rw [SubRecord.enter, coded, Option.elim_some, ← code]
    rw [← code] at coded
    cases readArray_cases inner with
    | coded _ coded' =>
      rw [coded, Option.some.injEq, Prod.mk.injEq] at coded'
      obtain ⟨rfl, rfl⟩ := coded'
      exact arrayStored_tracks tracks _ _ _ _
    | named none =>
      rw [none rfl] at coded
      cases coded

end Cases

end Faults

section Segment
variable {jf jf' : Jdump} {hs : Count} {sum : Summary} {more : List Byte} {ledger : Ledger}

/-- The first byte of a sub-record is its tag. -/
theorem heapPass_tag {record : SubRecord} (rest : jf.fin.rest = record.encode ++ more) :
    ∃ jf₀ : Jdump, jf₀.fin.rest = record.body ++ more ∧
      heapPass jf hs sum = heapCase record.tag jf₀ (hs.sub 1) sum ∧
      jf₀.fVersion = jf.fVersion ∧ jf₀.identsz = jf.identsz ∧
      jf₀.javaLangString = jf.javaLangString ∧ (Tracks jf ledger → Tracks jf₀ ledger) ∧
      (Tallies jf ledger → Tallies jf₀ ledger) := by
  rw [SubRecord.encode, List.cons_append] at rest
  obtain ⟨_, start⟩ := getc_of_rest rest
  refine ⟨_, ?_, heapPass_switch rest, rfl, rfl, rfl, ?_, ?_⟩
  · change jf.fin.getc.2.rest = _
    rw [start.rest, rest]
    rfl
  · intro tracks
    exact ⟨tracks.strings, tracks.serials, tracks.classes, tracks.hashes, tracks.fakeClass⟩
  · intro tallies
    exact ⟨tallies.absent, tallies.allocated, tallies.apart, tallies.counts⟩

/-- A pass over one well-formed sub-record. -/
theorem heapPass_record {record : SubRecord}
    (wellFormed : record.WellFormed jf.fVersion jf.identsz) (tracks : Tracks jf ledger)
    (known : record.Known ledger) (roomy : record.Roomy ledger)
    (spared : jf.javaLangString.isSome = true ∨ Tallies jf ledger ∧ record.Few ledger)
    (rest : jf.fin.rest = record.encode ++ more)
    (fits : record.encode.length ≤ hs.left.toNat) :
    ∃ jf' hs', heapPass jf hs sum = .ok (jf', hs', sum.plus (.of [record.tag])) ∧
      OnePass jf jf' hs hs' ⟨record.body.length, true⟩ ∧ jf'.fin.rest = more ∧
      Counts hs hs' record.encode.length ∧ Tracks jf' (record.enter ledger) ∧
      (Tallies jf ledger → Tallies jf' (record.enter ledger)) := by
  have length : record.encode.length = 1 + record.body.length := by
    rw [SubRecord.encode, List.length_cons, Nat.add_comm]
  obtain ⟨jf₀, after, switch, fVersion, identsz, string, tracked, tallied⟩ :=
    @heapPass_tag jf hs sum more ledger record rest
  have shape := wellFormed
  rw [← fVersion, ← identsz] at shape
  rw [← string] at spared
  obtain ⟨⟨jf', hs', sum'⟩, case⟩ := @heapCase_ok jf₀ ledger (hs.sub 1) sum more record shape after
    (tracked tracks) known roomy (spared.imp_right fun both => ⟨tallied both.1, both.2⟩)
  have ledgers := heapCase_tracks shape after (tracked tracks) known case
  have read : heapPass jf hs sum = .ok (jf', hs', sum') := switch.trans case
  rw [SubRecord.encode, List.cons_append] at rest
  obtain ⟨onePass, rfl⟩ :=
    heapPass_passes rest (SubRecord.span_body wellFormed more) read (by rw [← length]; exact fits)
  refine ⟨jf', hs', read, onePass, ?_, ?_, ledgers.1, fun tallies => ledgers.2 (tallied tallies)⟩
  · rw [FILE.rest, onePass.bytes, onePass.pos, ← List.drop_drop]
    change (jf.fin.rest.drop _) = more
    rw [rest, Nat.add_comm, List.drop_succ_cons, List.drop_left]
  · rcases onePass.counted with ⟨_, unsound⟩ | ⟨m, _, counts, exact⟩
    · cases unsound
    · rw [length]
      rw [exact.mpr rfl] at counts
      exact counts

theorem heapPass_nomem {record : SubRecord}
    (wellFormed : record.WellFormed jf.fVersion jf.identsz) (tracks : Tracks jf ledger)
    (full : ¬ record.Roomy ledger) (rest : jf.fin.rest = record.encode ++ more) :
    heapPass jf hs sum = .error .nomem := by
  obtain ⟨jf₀, after, switch, fVersion, identsz, _, tracked, _⟩ :=
    @heapPass_tag jf hs sum more ledger record rest
  rw [← fVersion, ← identsz] at wellFormed
  rw [switch]
  exact heapCase_nomem wellFormed after (tracked tracks) full

theorem heapPass_unloaded {record : SubRecord}
    (wellFormed : record.WellFormed jf.fVersion jf.identsz) (tallies : Tallies jf ledger)
    (unknown : ¬ record.Known ledger) (rest : jf.fin.rest = record.encode ++ more) :
    heapPass jf hs sum = .error .null := by
  obtain ⟨jf₀, after, switch, fVersion, identsz, _, _, tallied⟩ :=
    @heapPass_tag jf hs sum more ledger record rest
  rw [← fVersion, ← identsz] at wellFormed
  rw [switch]
  exact heapCase_unloaded wellFormed after (tallied tallies) unknown

theorem heapPass_null {record : SubRecord}
    (wellFormed : record.WellFormed jf.fVersion jf.identsz) (tracks : Tracks jf ledger)
    (tallies : Tallies jf ledger) (string : jf.javaLangString = none)
    (many : ¬ record.Few ledger) (rest : jf.fin.rest = record.encode ++ more) :
    heapPass jf hs sum = .error .null := by
  obtain ⟨jf₀, after, switch, fVersion, identsz, string₀, tracked, tallied⟩ :=
    @heapPass_tag jf hs sum more ledger record rest
  rw [← fVersion, ← identsz] at wellFormed
  rw [switch]
  exact heapCase_null wellFormed after (tracked tracks) (tallied tallies)
    (string₀.trans string) many

/-- For every array of objects there is room for the copy of the name that its class has by
then. -/
def RoomFor : Ledger → List SubRecord → Prop
  | _, [] => True
  | ledger, record :: records => record.Roomy ledger ∧ RoomFor (record.enter ledger) records

/-- Where the sub-records start that follow each other from `pos` on. -/
def startsFrom (pos : Nat) : List SubRecord → List Nat
  | [] => []
  | record :: records => pos :: startsFrom (pos + record.encode.length) records

/-- What the loop leaves after well-formed sub-records: it has started a pass at each of
them in order, and nothing is left of the count. -/
structure Framed (jf jf' : Jdump) (records : List SubRecord) (more : List Byte) : Prop where
  starts : startsOf jf'.log = (startsFrom jf.fin.pos records).reverse ++ startsOf jf.log
  pos : jf'.fin.pos = jf.fin.pos + (records.flatMap SubRecord.encode).length
  rest : jf'.fin.rest = more

theorem SubRecord.left_ne_zero {record : SubRecord} {records : List SubRecord}
    (left : hs.left.toNat = ((record :: records).flatMap SubRecord.encode).length) :
    hs.left ≠ 0 := by
  intro empty
  have zero : hs.left.toNat = 0 := by rw [empty]; rfl
  have positive : 0 < record.encode.length := Nat.succ_pos _
  rw [List.flatMap_cons, List.length_append] at left
  omega

theorem heapLoop_records {records : List SubRecord}
    (wellFormed : ∀ record ∈ records, record.WellFormed jf.fVersion jf.identsz)
    (tracks : Tracks jf ledger) (known : ∀ record ∈ records, record.Known ledger)
    (string : jf.javaLangString.isSome = true)
    (rest : jf.fin.rest = records.flatMap SubRecord.encode ++ more)
    (left : hs.left.toNat = (records.flatMap SubRecord.encode).length) :
    (RoomFor ledger records → ∃ jf', (∀ fuel, records.length ≤ fuel → heapLoop fuel jf hs sum =
        .ok (jf', ⟨0, hs.wrapped⟩, sum.plus (.of (records.map SubRecord.tag)))) ∧
      Framed jf jf' records more) ∧
    (¬ RoomFor ledger records → ∀ fuel, records.length ≤ fuel →
      heapLoop fuel jf hs sum = .error .nomem) := by
  induction records generalizing jf hs sum ledger with
  | nil =>
    have empty : hs.left = 0 := BitVec.eq_of_toNat_eq left
    refine ⟨fun _ => ⟨jf, fun fuel _ => ?_, ⟨rfl, rfl, rest⟩⟩, fun full => absurd trivial full⟩
    rw [heapLoop_zero _ _ _ empty, ← empty]
    rfl
  | cons record records ih =>
    have going := SubRecord.left_ne_zero left
    rw [List.flatMap_cons, List.append_assoc] at rest
    rw [List.flatMap_cons, List.length_append] at left
    have here := wellFormed record List.mem_cons_self
    by_cases roomy : record.Roomy ledger
    · obtain ⟨jf₁, hs₁, pass, onePass, after, counts, tracks₁, _⟩ :=
        @heapPass_record jf hs sum _ ledger record here tracks (known record List.mem_cons_self)
          roomy (.inl string) rest (by omega)
      have counted := counts.left
      obtain ⟨passes, refused⟩ := @ih jf₁ hs₁ (sum.plus (.of [record.tag])) (record.enter ledger)
        (by
          intro other member
          rw [onePass.fVersion, onePass.identsz]
          exact wellFormed other (.tail _ member))
        tracks₁ (fun other member => SubRecord.known_enter (known other (.tail _ member)))
        (by rw [onePass.string]; exact string) after (by omega)
      constructor
      · rintro ⟨_, room⟩
        obtain ⟨jf', run, framed⟩ := passes room
        refine ⟨jf', fun fuel enough => ?_, ⟨?_, ?_, framed.rest⟩⟩
        · obtain ⟨fuel, rfl⟩ : ∃ n, fuel = n + 1 :=
            ⟨fuel - 1, by rw [List.length_cons] at enough; omega⟩
          rw [heapLoop_ok fuel going pass, run fuel (by simpa using enough), counts.wrapped,
            Summary.plus_assoc, ← Summary.of_cons, List.map_cons]
        · have pos : jf₁.fin.pos = jf.fin.pos + record.encode.length := by
            rw [onePass.pos, SubRecord.encode, List.length_cons, Nat.add_comm 1]
          rw [framed.starts, onePass.starts, startsFrom, List.reverse_cons, List.append_assoc, pos]
          rfl
        · rw [framed.pos, onePass.pos, List.flatMap_cons, List.length_append, SubRecord.encode,
            List.length_cons, Nat.add_comm 1, Nat.add_assoc]
      · intro full fuel enough
        obtain ⟨fuel, rfl⟩ : ∃ n, fuel = n + 1 :=
          ⟨fuel - 1, by rw [List.length_cons] at enough; omega⟩
        rw [heapLoop_ok fuel going pass]
        exact refused (fun room => full ⟨roomy, room⟩) fuel (by simpa using enough)
    · refine ⟨fun room => absurd room.1 roomy, fun _ fuel enough => ?_⟩
      obtain ⟨fuel, rfl⟩ : ∃ n, fuel = n + 1 :=
        ⟨fuel - 1, by rw [List.length_cons] at enough; omega⟩
      exact heapLoop_error fuel going (heapPass_nomem here tracks roomy rest)

/-- Without a class to look at, `readHeap` ends where its loop does. -/
theorem readHeap_plain {d : Dump} {fuel : Nat} {hsize : BitVec 32}
    (segment : readSegment fuel d.jf hsize = .ok (jf', hs, sum)) (plain : d.jf.fclass = none) :
    readHeap fuel d hsize = .ok { d with jf := jf' } := by
  obtain ⟨steps, _⟩ := heapLoop_steps (d := { d with jf := enterHeap d.jf }) segment
  have unseen : jf'.fclass = none := by
    rw [steps.changes.fclass]
    exact plain
  simp only [readHeap, segment, lookHeap, unseen]

section Framed
variable {d : Dump} {records : List SubRecord}

/-- What the loop of `readHeap` does in a segment. -/
theorem readSegment_records
    (wellFormed : ∀ record ∈ records, record.WellFormed d.jf.fVersion d.jf.identsz)
    (loaded : ∀ record ∈ records, record.Loaded d.jf)
    (string : (d.jf.findClass javaLangStringName).isSome = true)
    (rest : d.jf.fin.rest = records.flatMap SubRecord.encode ++ more)
    (short : (records.flatMap SubRecord.encode).length < 2 ^ 32) :
    let hsize := BitVec.ofNat 32 (records.flatMap SubRecord.encode).length
    (RoomFor d.jf.ledger records → ∃ jf', Framed d.jf jf' records more ∧
      ∀ fuel, records.length ≤ fuel → readSegment fuel d.jf hsize =
        .ok (jf', ⟨0, false⟩, .of (records.map SubRecord.tag))) ∧
    (¬ RoomFor d.jf.ledger records → ∀ fuel, records.length ≤ fuel →
      readSegment fuel d.jf hsize = .error .nomem) := by
  intro hsize
  have left : hsize.toNat = (records.flatMap SubRecord.encode).length := by
    rw [BitVec.toNat_ofNat, Nat.mod_eq_of_lt short]
  obtain ⟨passes, refused⟩ := @heapLoop_records (enterHeap d.jf) ⟨hsize, false⟩ .zero more
    d.jf.ledger records wellFormed d.jf.tracks_ledger.enterHeap
    (fun record member => (loaded record member).known) string rest left
  constructor
  · intro room
    obtain ⟨jf', run, ⟨starts, pos, after⟩⟩ := passes room
    refine ⟨jf', ⟨starts, pos, after⟩, fun fuel enough => ?_⟩
    rw [readSegment]
    change heapLoop fuel (enterHeap d.jf) _ _ = _
    rw [run fuel enough, Summary.zero_plus]
  · exact refused

theorem readHeap_nomem {fuel : Nat} {hsize : BitVec 32}
    (segment : readSegment fuel d.jf hsize = .error .nomem) :
    readHeap fuel d hsize = .error .nomem := by
  simp only [readHeap, segment]

end Framed

theorem segment_framed (d : Dump) (records : List SubRecord)
    (wellFormed : ∀ record ∈ records, record.WellFormed d.jf.fVersion d.jf.identsz)
    (loaded : ∀ record ∈ records, record.Loaded d.jf)
    (string : (d.jf.findClass javaLangStringName).isSome = true) (plain : d.jf.fclass = none)
    (rest : d.jf.fin.rest = records.flatMap SubRecord.encode ++ more)
    (short : (records.flatMap SubRecord.encode).length < 2 ^ 32) :
    let hsize := BitVec.ofNat 32 (records.flatMap SubRecord.encode).length
    (RoomFor d.jf.ledger records → ∃ jf', Framed d.jf jf' records more ∧
      ∀ fuel, records.length ≤ fuel →
        readSegment fuel d.jf hsize =
            .ok (jf', ⟨0, false⟩, .of (records.map SubRecord.tag)) ∧
          readHeap fuel d hsize = .ok { d with jf := jf' }) ∧
    (¬ RoomFor d.jf.ledger records → ∀ fuel, records.length ≤ fuel →
      readHeap fuel d hsize = .error .nomem) := by
  intro hsize
  obtain ⟨passes, refused⟩ := readSegment_records wellFormed loaded string rest short
  constructor
  · intro room
    obtain ⟨jf', framed, run⟩ := passes room
    refine ⟨jf', framed, fun fuel enough => ?_⟩
    have segment := run fuel enough
    exact ⟨segment, readHeap_plain segment plain⟩
  · intro full fuel enough
    exact readHeap_nomem (refused full fuel enough)

/-- One sub-record of each layout. -/
def sampleRecords : List SubRecord :=
  [.root 0xff [0, 0, 0, 7],
    .classDump [0, 0, 0, 1] (List.replicate 32 0) [⟨[0, 0, 0, 5], 4, [1]⟩] [⟨[0, 0, 0, 6], 10⟩],
    .instanceDump [0, 0, 0, 2] [0, 0, 0, 0] [0, 0, 0, 1] [0, 0, 0, 42],
    .objArray [0, 0, 0, 3] [0, 0, 0, 0] [0, 0, 0, 1] [[0, 0, 0, 2], [0, 0, 0, 2]],
    .primArray [0, 0, 0, 4] [0, 0, 0, 0] 5 [[0, 1], [0, 2], [0, 3]]]

/-- A state in which class 1, named java/lang/String, has been loaded. -/
def sampleDump : Dump :=
  let d := Dump.start (sampleRecords.flatMap SubRecord.encode) .four none
  { d with jf := { d.jf with
    cTable := d.jf.cTable.insert32 1 0
    rcTable := d.jf.rcTable.insert32 (Crc32.crc32 javaLangStringName) 0
    cinfos := d.jf.cinfos.alloc fun ci => { ci with ident := 1, name := some javaLangStringName } } }

theorem segment_framed_sample : ∃ jf',
    Framed sampleDump.jf jf' sampleRecords [] ∧ ∀ fuel, 5 ≤ fuel →
      readSegment fuel sampleDump.jf 125 =
        .ok (jf', ⟨0, false⟩, ⟨0, 0, 0, 0, 0, 0, 0, 0, 1, 1, 1, 1⟩) ∧
      readHeap fuel sampleDump 125 = .ok { sampleDump with jf := jf' } := by
  have room : RoomFor sampleDump.jf.ledger sampleRecords := by
    refine ⟨trivial, trivial, trivial, ?_, trivial, trivial⟩
    intro entry found
    have counted : some entry = some ⟨javaLangStringName, 1⟩ :=
      found.symm.trans (by decide +kernel)
    cases counted
    decide
  refine (segment_framed sampleDump sampleRecords ?_ ?_ ?_ rfl ?_ ?_).1 room
  · intro record member
    simp only [sampleRecords, List.mem_cons, List.not_mem_nil, or_false] at member
    rcases member with rfl | rfl | rfl | rfl | rfl
    · exact ⟨rootUnknown, rfl, rfl⟩
    · refine ⟨rfl, rfl, by decide, ?_, by decide, ?_⟩
      · intro entry member
        obtain rfl := List.mem_singleton.mp member
        exact ⟨rfl, rfl, rfl, fun _ => .inr rfl⟩
      · intro entry member
        obtain rfl := List.mem_singleton.mp member
        exact ⟨rfl, rfl⟩
    · exact ⟨rfl, rfl, rfl, by decide⟩
    · exact ⟨rfl, rfl, rfl, by decide, by decide⟩
    · exact ⟨rfl, rfl, by decide, by decide, by decide⟩
  · have named : sampleDump.jf.Named (keyOf [0, 0, 0, 1]) :=
      ⟨0, Table.lookup32_insert32_self _ _ _, by decide, rfl⟩
    intro record member ident needed
    simp only [sampleRecords, List.mem_cons, List.not_mem_nil, or_false] at member
    rcases member with rfl | rfl | rfl | rfl | rfl <;> cases needed <;> exact named
  · exact congrArg Option.isSome (Table.lookup32_insert32_self _ _ _)
  · simp only [List.append_nil]
    rfl
  · decide +kernel

def sampleArrays : List SubRecord := [.objArray [0, 0, 0, 3] [0, 0, 0, 0] [0, 0, 0, 2] []]

/-- A state in which class 1, named java/lang/String, and class 2 have been loaded. -/
def namedDump (name : CString) : Dump :=
  let d := Dump.start (sampleArrays.flatMap SubRecord.encode) .four none
  { d with jf := { d.jf with
    cTable := (d.jf.cTable.insert32 1 0).insert32 2 1
    rcTable := (d.jf.rcTable.insert32 (Crc32.crc32 name) 1).insert32
      (Crc32.crc32 javaLangStringName) 0
    cinfos := (d.jf.cinfos.alloc fun ci => { ci with
      ident := 1, name := some javaLangStringName }).alloc fun ci => { ci with
        ident := 2, name := some name } } }

/-- The copy of a name of 2147483645 bytes is refused. -/
theorem long_name_refused : ¬ ∀ (d : Dump) (records : List SubRecord) (more : List Byte),
    (∀ record ∈ records, record.WellFormed d.jf.fVersion d.jf.identsz) →
    (∀ record ∈ records, record.Loaded d.jf) →
    (d.jf.findClass javaLangStringName).isSome = true → d.jf.fclass = none →
    d.jf.fin.rest = records.flatMap SubRecord.encode ++ more →
    (records.flatMap SubRecord.encode).length < 2 ^ 32 →
    ∃ jf', Framed d.jf jf' records more ∧ ∀ fuel, records.length ≤ fuel →
      readHeap fuel d (BitVec.ofNat 32 (records.flatMap SubRecord.encode).length) =
        .ok { d with jf := jf' } := by
  intro claimed
  have wellFormed : ∀ version, ∀ record ∈ sampleArrays, record.WellFormed version .four := by
    intro version record member
    obtain rfl := List.mem_singleton.mp member
    exact ⟨rfl, rfl, rfl, by decide, by decide⟩
  -- whatever the name, until its length is looked at
  have stops : ∀ name : CString, ¬ 2 + name.length < maxCount 1 → False := by
    intro name long
    have named : (namedDump name).jf.Named (keyOf [0, 0, 0, 2]) :=
      ⟨1, Table.lookup32_insert32_self _ _ _, Nat.lt_succ_self _, rfl⟩
    have loaded : ∀ record ∈ sampleArrays, record.Loaded (namedDump name).jf := by
      intro record member ident needed
      obtain rfl := List.mem_singleton.mp member
      cases needed
      exact named
    have string : ((namedDump name).jf.findClass javaLangStringName).isSome = true :=
      congrArg Option.isSome (Table.lookup32_insert32_self _ _ _)
    have rest : (namedDump name).jf.fin.rest = sampleArrays.flatMap SubRecord.encode ++ [] := by
      rw [List.append_nil]
      rfl
    have full : ¬ RoomFor (namedDump name).jf.ledger sampleArrays := by
      rintro ⟨roomy, _⟩
      apply long
      refine roomy ⟨name, ((namedDump name).jf.cinfo 1).count⟩ ?_
      have found : (namedDump name).jf.cTable.lookup32 (keyOf [0, 0, 0, 2]) = some 1 :=
        Table.lookup32_insert32_self _ _ _
      simp only [Jdump.ledger, found, Option.bind_some]
      rfl
    obtain ⟨jf', _, run⟩ := claimed (namedDump name) sampleArrays [] (wellFormed _) loaded string
      rfl rest (by decide +kernel)
    have stopped := readHeap_nomem ((readSegment_records (wellFormed _) loaded string
      rest (by decide +kernel)).2 full 1 le_rfl)
    rw [run 1 le_rfl] at stopped
    cases stopped
  apply stops (List.replicate 2147483645 0)
  rw [List.length_replicate]
  decide

end Segment

end Phat
