import Phat.ClassDump
import Phat.Forward
import Phat.Header

/-! Dump files as the format writes them: a header and records of every kind, the heap
dumps among them with everything a class dump may have in it. -/
namespace Phat

/-- A sub-record of a heap dump; a class dump may have a constant pool here. -/
inductive HeapRecord where
  | sub (record : SubRecord)
  | classDump (body : ClassBody)

namespace HeapRecord

def encode : HeapRecord → List Byte
  | sub record => record.encode
  | classDump body => 0x20 :: body.encode

def WellFormed (fVersion : Nat) (identsz : IdentSize) : HeapRecord → Prop
  | sub record => record.WellFormed fVersion identsz ∧ record.tag ≠ 0x20
  | classDump body => body.WellFormed fVersion identsz

/-- The ledger after the sub-record. -/
def enter (ledger : Ledger) : HeapRecord → Ledger
  | sub record => record.enter ledger
  | classDump _ => ledger

/-- The pass over the sub-record comes to its end: its class has been loaded, there is room
for the copy of a name, and an instance of a class with many is compared with the class of
strings only if there is one. -/
def Passes (string : Bool) (ledger : Ledger) : HeapRecord → Prop
  | sub record =>
    record.Known ledger ∧ record.Roomy ledger ∧ (string = true ∨ record.Few ledger)
  | classDump body => (ledger.classes (keyOf body.ident)).isSome = true

/-- The bytes of the sub-record that `readHeap` does not count. -/
def missed (fVersion : Nat) : HeapRecord → Nat
  | sub _ => 0
  | classDump body => poolMissed fVersion body.pool + staticsMissed fVersion body.statics

/-- All bytes are counted. -/
def Exact (fVersion : Nat) : HeapRecord → Prop
  | sub _ => True
  | classDump body => body.pool = [] ∧
      ∀ entry ∈ body.statics, legal (typeSig fVersion entry.type) entry.value = true

end HeapRecord

def AllPass (string : Bool) : Ledger → List HeapRecord → Prop
  | _, [] => True
  | ledger, record :: records =>
    record.Passes string ledger ∧ AllPass string (record.enter ledger) records

/-- What a record consists of after its time stamp and length. -/
inductive Content where
  | utf8 (ident text : List Byte)
  | loadClass (serial classId stack nameId : List Byte)
  | frame (idents serial line : List Byte)
  | trace (serial thread : List Byte) (frames : List (List Byte))
  | heapDump (records : List HeapRecord)
  | other (tag : Byte) (body : List Byte)

namespace Content

def tag : Content → Byte
  | utf8 .. => 0x01
  | loadClass .. => 0x02
  | frame .. => 0x04
  | trace .. => 0x05
  | heapDump .. => 0x0c
  | other tag _ => tag

def body : Content → List Byte
  | utf8 ident text => ident ++ text
  | loadClass serial classId stack nameId => serial ++ (classId ++ (stack ++ nameId))
  | frame idents serial line => idents ++ (serial ++ line)
  | trace serial thread frames =>
    (serial ++ thread) ++ (BigEndian.digits 4 frames.length ++ frames.flatten)
  | heapDump records => records.flatMap HeapRecord.encode
  | other _ body => body

def WellFormed (fVersion : Nat) (identsz : IdentSize) : Content → Prop
  | utf8 ident _ => ident.length = identsz.size
  | loadClass serial classId stack nameId =>
      serial.length = 4 ∧ classId.length = identsz.size ∧ stack.length = 4 ∧
      nameId.length = identsz.size
  | frame idents serial line =>
      idents.length = 4 * identsz.size ∧ serial.length = 4 ∧ line.length = 4
  | trace serial thread frames =>
      serial.length = 4 ∧ thread.length = 4 ∧ ∀ frame ∈ frames, frame.length = identsz.size
  | heapDump records => ∀ record ∈ records, record.WellFormed fVersion identsz
  | other tag _ => tag ∉ ([0x01, 0x02, 0x04, 0x05, 0x0c] : List Byte)

/-- The ledger after the record. -/
def enter (ledger : Ledger) : Content → Ledger
  | utf8 ident text => ledger.addString (keyOf ident) (hideSpecials (text.takeWhile (· ≠ 0)))
  | loadClass serial classId _ nameId => (ledger.strings (keyOf nameId)).elim ledger fun name =>
      (ledger.addSerial (BitVec.ofNat 32 (BigEndian.number serial))).addClass (keyOf classId) name
  | heapDump records => records.foldl HeapRecord.enter ledger
  | _ => ledger

/-- Nothing stops the program in the record: `talloc_zero_array` makes room for a string,
what the record refers to has come before it, and the sub-records of a heap dump are
passed. -/
def Passes (ledger : Ledger) : Content → Prop
  | utf8 _ text => text.length + 1 < maxCount 1
  | loadClass _ _ _ nameId => (ledger.strings (keyOf nameId)).isSome = true
  | frame _ serial _ => ledger.serials (BitVec.ofNat 32 (BigEndian.number serial)) = true
  | heapDump records => AllPass (ledger.hashes (Crc32.crc32 javaLangStringName)) ledger records
  | _ => True

end Content

structure Record where
  time : List Byte
  content : Content

def Record.encode (record : Record) : List Byte :=
  record.content.tag :: (record.time ++ (BigEndian.digits 4 record.content.body.length ++
    record.content.body))

structure Record.WellFormed (fVersion : Nat) (identsz : IdentSize) (record : Record) : Prop where
  time : record.time.length = 4
  length : record.content.body.length < 2 ^ 32
  content : record.content.WellFormed fVersion identsz

/-- Where the records start that follow each other from `pos` on. -/
def recordsFrom (pos : Nat) : List Record → List Nat
  | [] => []
  | record :: records => pos :: recordsFrom (pos + record.encode.length) records

/-- The tables and the ledger agree about the records read so far. -/
structure Knows (jf : Jdump) (ledger : Ledger) : Prop extends Tracks jf ledger, Tallies jf ledger

section Persist
variable {jf jf' : Jdump} {ledger : Ledger} {content : Content}

theorem Change.fVersion (change : Change jf jf') : jf'.fVersion = jf.fVersion := by
  cases change with
  | invent cname elemClassId => exact (arrayClass_keeps cname elemClassId).2.1
  | _ => rfl

theorem Changes.fVersion (changes : Changes jf jf') : jf'.fVersion = jf.fVersion := by
  induction changes with
  | refl => rfl
  | tail _ change ih => rw [change.fVersion, ih]

theorem Knows.of_same (knows : Knows jf ledger) (sbTable : jf'.sbTable = jf.sbTable)
    (scTable : jf'.scTable = jf.scTable) (cTable : jf'.cTable = jf.cTable)
    (rcTable : jf'.rcTable = jf.rcTable) (cinfos : jf'.cinfos = jf.cinfos)
    (fakeClass : jf'.fakeClass = jf.fakeClass) : Knows jf' ledger := by
  refine ⟨⟨?_, ?_, ?_, ?_, ?_⟩, ⟨?_, ?_, ?_, ?_⟩⟩
  · rw [sbTable]
    exact knows.strings
  · rw [scTable]
    exact knows.serials
  · simp only [Jdump.cinfo, cTable, cinfos]
    exact knows.classes
  · rw [rcTable]
    exact knows.hashes
  · rw [fakeClass]
    exact knows.fakeClass
  · rw [cTable]
    exact knows.absent
  · rw [cTable, cinfos]
    exact knows.allocated
  · rw [cTable]
    exact knows.apart
  · simp only [Jdump.cinfo, cTable, cinfos]
    exact knows.counts

/-- What reading a record other than a heap dump comes to. -/
structure Taken (jf jf' : Jdump) (ledger : Ledger) (content : Content) (more : List Byte) :
    Prop where
  fin : Past jf.fin jf'.fin content.body more
  records : recordStarts jf'.log = recordStarts jf.log
  changes : Changes jf jf'
  knows : Knows jf' (content.enter ledger)

end Persist

section Plain
attribute [local irreducible] readIdent readUintLocal readIdents readWords

variable {jf : Jdump} {ledger : Ledger} {more : List Byte}

theorem fread_piece {f : FILE} {piece : List Byte} (rest : f.rest = piece ++ more) :
    f.fread piece.length = (piece, f.seekCur piece.length) := by
  have data : (f.bytes.drop f.pos).take piece.length = piece := by
    rw [← FILE.rest, rest, List.take_left]
  rw [FILE.fread, data]
  rfl

/-- A string of 2147483646 bytes or more is not read. -/
theorem readUtf8_takes {ident text : List Byte} (identLength : ident.length = jf.identsz.size)
    (short : (ident ++ text).length < 2 ^ 32) (rest : jf.fin.rest = (ident ++ text) ++ more)
    (knows : Knows jf ledger) :
    let rlen := BitVec.ofNat 32 (ident ++ text).length
    (text.length + 1 < maxCount 1 → ∃ jf', readUtf8 jf rlen = .ok jf' ∧
      Taken jf jf' ledger (.utf8 ident text) more) ∧
    (¬ text.length + 1 < maxCount 1 → readUtf8 jf rlen = .error .nomem) := by
  intro rlen
  rw [List.append_assoc] at rest
  rw [List.length_append] at short
  have size : rlen.toNat = jf.identsz.size + text.length := by
    simp only [rlen, BitVec.toNat_ofNat, List.length_append, identLength]
    omega
  have width := jf.identsz.width_toNat
  have limit : maxCount 1 = 0x7FFFFFFF := rfl
  have len : (utf8Len jf.identsz rlen).toNat = text.length := by
    simp only [utf8Len, BitVec.toNat_sub]
    omega
  have count : (utf8Count jf.identsz rlen).toNat = (text.length + 1) % 2 ^ 32 := by
    simp only [utf8Count, BitVec.toNat_sub, BitVec.toNat_add]
    have one : (1 : BitVec 32).toNat = 1 := rfl
    omega
  have negative : (utf8Len jf.identsz rlen).toInt < 0 ↔ 2 ^ 31 ≤ text.length := by
    rw [BitVec.toInt_eq_toNat_cond, len]
    split <;> omega
  constructor
  · intro fits
    have allowed : ¬ (maxCount 1 ≤ (utf8Count jf.identsz rlen).toNat ∨
        (utf8Len jf.identsz rlen).toInt < 0) := by
      rw [count, negative]
      omega
    obtain ⟨_, first⟩ := readIdent_piece rest identLength
    have keyed := readIdent_key rest identLength
    have run : readUtf8 jf rlen = .ok ({ jf with
        fin := (readIdent jf.identsz jf.fin).2.seekCur text.length
        sbTable := jf.sbTable.insert32 (keyOf ident) (hideSpecials (text.takeWhile (· ≠ 0))) }.note
          (.string (rawIdent jf.identsz jf.fin) (hideSpecials (text.takeWhile (· ≠ 0))))) := by
      rw [readUtf8]
      simp only [if_neg allowed, len, fread_piece first.rest, keyed]
    have tracks := @Tracks.addString jf ledger (keyOf ident)
      (hideSpecials (text.takeWhile (· ≠ 0))) knows.toTracks
    refine ⟨_, run, ?_, rfl, readUtf8_changes run, ?_⟩
    · exact first.trans (.of_reads first.rest ⟨rfl, rfl⟩)
    · exact ⟨⟨tracks.strings, tracks.serials, tracks.classes, tracks.hashes, tracks.fakeClass⟩,
        ⟨knows.absent, knows.allocated, knows.apart, knows.counts⟩⟩
  · intro long
    have refused : maxCount 1 ≤ (utf8Count jf.identsz rlen).toNat ∨
        (utf8Len jf.identsz rlen).toInt < 0 := by
      rw [count, negative]
      omega
    rw [readUtf8]
    simp only [if_pos refused]

theorem readLoadClass_takes {serial classId stack nameId : List Byte}
    (wellFormed : Content.WellFormed jf.fVersion jf.identsz (.loadClass serial classId stack nameId))
    (rest : jf.fin.rest = Content.body (.loadClass serial classId stack nameId) ++ more)
    (knows : Knows jf ledger) :
    (Content.Passes ledger (.loadClass serial classId stack nameId) →
      ∃ jf', readLoadClass jf = .ok jf' ∧
        Taken jf jf' ledger (.loadClass serial classId stack nameId) more) ∧
    (¬ Content.Passes ledger (.loadClass serial classId stack nameId) →
      readLoadClass jf = .error .null) := by
  obtain ⟨serialLength, classLength, stackLength, nameLength⟩ := wellFormed
  have layout : jf.fin.rest = serial ++ (classId ++ (stack ++ (nameId ++ more))) := by
    rw [rest]
    simp only [Content.body, List.append_assoc]
  obtain ⟨number, first⟩ := readUintLocal_piece layout serialLength
  have second := (readIdent_piece first.rest classLength).2
  have third := (readUintLocal_piece second.rest stackLength).2
  have fourth := (readIdent_piece third.rest nameLength).2
  have classKey := readIdent_key first.rest classLength
  have nameKey := readIdent_key third.rest nameLength
  have found := knows.strings (keyOf nameId)
  rw [Content.Passes]
  cases text : ledger.strings (keyOf nameId) with
  | none =>
    rw [text, ← nameKey] at found
    refine ⟨fun known => absurd known Bool.false_ne_true, fun _ => ?_⟩
    rw [readLoadClass]
    simp only [← found]
  | some name =>
  refine ⟨fun _ => ?_, fun unknown => absurd rfl unknown⟩
  rw [text, ← nameKey] at found
  have run : ∃ jf', readLoadClass jf = .ok jf' ∧
      jf'.fin = (readIdent jf.identsz (readUintLocal (readIdent jf.identsz
        (readUintLocal jf.fin).2).2).2).2 ∧
      recordStarts jf'.log = recordStarts jf.log ∧
      jf'.sbTable = jf.sbTable ∧
      jf'.scTable = jf.scTable.insert32 (BitVec.ofNat 32 (BigEndian.number serial)) jf.cinfos.next ∧
      jf'.cTable = jf.cTable.insert32 (keyOf classId) jf.cinfos.next ∧
      jf'.rcTable = jf.rcTable.insert32 (Crc32.crc32 name) jf.cinfos.next ∧
      (∃ cid nid, jf'.cinfos = (jf.mkcinfo cid nid (some name)).2.cinfos) ∧
      jf'.fakeClass = jf.fakeClass := by
    rw [readLoadClass]
    simp only [← found, number, classKey]
    exact ⟨_, rfl, rfl, rfl, rfl, rfl, rfl, rfl, ⟨_, _, rfl⟩, rfl⟩
  obtain ⟨jf', run, fin, records, sbTable, scTable, cTable, rcTable, ⟨cid, nid, cinfos⟩,
    fakeClass⟩ := run
  have changes := readLoadClass_changes run
  refine ⟨jf', run, ?_, records, changes, ?_⟩
  · rw [fin]
    have past := ((first.trans second).trans third).trans fourth
    simpa only [Content.body, List.append_assoc] using past
  · rw [Content.enter, text, Option.elim_some]
    have entered := @Tracks.addSerial jf ledger (BitVec.ofNat 32 (BigEndian.number serial))
      jf.cinfos.next knows.toTracks
    have tallied : Tallies jf' (ledger.addClass (keyOf classId) name) :=
      knows.toTallies.addClass cTable cinfos
    exact ⟨entered.addClass sbTable scTable fakeClass cTable rcTable cinfos,
      ⟨tallied.absent, tallied.allocated, tallied.apart, tallied.counts⟩⟩

theorem readIdents_piece {identsz : IdentSize} {f : FILE} {idents : List Byte} {n : Nat}
    (rest : f.rest = idents ++ more) (length : idents.length = n * identsz.size) :
    Past f (readIdents identsz n f) idents more := by
  apply Past.of_reads rest
  rw [length]
  apply readIdents_reads
  rw [rest, List.length_append]
  omega

theorem readFrame_takes {idents serial line : List Byte}
    (wellFormed : Content.WellFormed jf.fVersion jf.identsz (.frame idents serial line))
    (rest : jf.fin.rest = Content.body (.frame idents serial line) ++ more)
    (knows : Knows jf ledger) :
    (Content.Passes ledger (.frame idents serial line) → ∃ jf', readFrame jf = .ok jf' ∧
      Taken jf jf' ledger (.frame idents serial line) more) ∧
    (¬ Content.Passes ledger (.frame idents serial line) → readFrame jf = .error .null) := by
  obtain ⟨identsLength, serialLength, lineLength⟩ := wellFormed
  have layout : jf.fin.rest = idents ++ (serial ++ (line ++ more)) := by
    rw [rest]
    simp only [Content.body, List.append_assoc]
  have first := readIdents_piece layout identsLength
  obtain ⟨number, second⟩ := readUintLocal_piece first.rest serialLength
  have third := (readUintLocal_piece second.rest lineLength).2
  have present := knows.serials (BitVec.ofNat 32 (BigEndian.number serial))
  rw [Content.Passes, present, ← number]
  cases found : jf.scTable.lookup32 (readUintLocal (readIdents jf.identsz 4 jf.fin)).1 with
  | none =>
    refine ⟨fun known => absurd known Bool.false_ne_true, fun _ => ?_⟩
    rw [readFrame]
    simp only [found]
  | some c =>
  refine ⟨fun _ => ?_, fun unknown => absurd rfl unknown⟩
  have run : readFrame jf = .ok { jf with
      fin := (readUintLocal (readUintLocal (readIdents jf.identsz 4 jf.fin)).2).2 } := by
    rw [readFrame]
    simp only [found]
  refine ⟨_, run, ?_, rfl, .single (.move _ _), knows.of_same rfl rfl rfl rfl rfl rfl⟩
  have past := (first.trans second).trans third
  simpa only [Content.body, List.append_assoc] using past

theorem readTrace_takes {serial thread : List Byte} {frames : List (List Byte)}
    (wellFormed : Content.WellFormed jf.fVersion jf.identsz (.trace serial thread frames))
    (short : (Content.body (.trace serial thread frames)).length < 2 ^ 32)
    (rest : jf.fin.rest = Content.body (.trace serial thread frames) ++ more)
    (knows : Knows jf ledger) : Taken jf (readTrace jf) ledger (.trace serial thread frames) more := by
  obtain ⟨serialLength, threadLength, uniform⟩ := wellFormed
  have flat := flatten_length uniform
  have count : frames.length < 2 ^ 30 := by
    simp only [Content.body, List.length_append, BigEndian.length_digits, flat] at short
    have four : 4 ≤ jf.identsz.size := by cases jf.identsz <;> decide
    have product := Nat.mul_le_mul_right frames.length four
    omega
  have layout : jf.fin.rest = (serial ++ thread) ++ (BigEndian.digits 4 frames.length ++
      (frames.flatten ++ more)) := by
    rw [rest]
    simp only [Content.body, List.append_assoc]
  have fixed : (serial ++ thread).length = 4 * 2 := by
    rw [List.length_append]
    omega
  have first : Past jf.fin (readWords 2 jf.fin) (serial ++ thread)
      (BigEndian.digits 4 frames.length ++ (frames.flatten ++ more)) := by
    apply Past.of_reads layout
    rw [fixed]
    apply readWords_reads
    rw [layout, List.length_append]
    omega
  obtain ⟨number, second⟩ := readUintLocal_piece first.rest (BigEndian.length_digits 4 _)
  have value : (readUintLocal (readWords 2 jf.fin)).1.toInt.toNat = frames.length := by
    rw [number, BigEndian.number_digits, BitVec.toInt_eq_toNat_cond, BitVec.toNat_ofNat]
    split <;> omega
  have third := @readIdents_piece more jf.identsz _ _ frames.length second.rest
    (by rw [flat, Nat.mul_comm])
  have run : readTrace jf = { jf with
      fin := readIdents jf.identsz frames.length (readUintLocal (readWords 2 jf.fin)).2 } := by
    rw [readTrace]
    simp only [value]
  rw [run]
  refine ⟨?_, rfl, .single (.move _ _), knows.of_same rfl rfl rfl rfl rfl rfl⟩
  have past := (first.trans second).trans third
  simpa only [Content.body, List.append_assoc] using past

/-- A record other than a heap dump. -/
theorem readPlain_takes {content : Content} (wellFormed : content.WellFormed jf.fVersion jf.identsz)
    (short : content.body.length < 2 ^ 32) (plain : ∀ records, content ≠ .heapDump records)
    (rest : jf.fin.rest = content.body ++ more) (knows : Knows jf ledger) :
    let rlen := BitVec.ofNat 32 content.body.length
    (content.Passes ledger →
      ∃ jf', readPlain content.tag jf rlen = .ok jf' ∧ Taken jf jf' ledger content more) ∧
    (¬ content.Passes ledger → ∃ stop, readPlain content.tag jf rlen = .error stop) := by
  intro rlen
  cases content with
  | utf8 ident text =>
    have result := readUtf8_takes wellFormed short rest knows
    exact ⟨result.1, fun stops => ⟨_, result.2 stops⟩⟩
  | loadClass serial classId stack nameId =>
    have result := readLoadClass_takes wellFormed rest knows
    exact ⟨result.1, fun stops => ⟨_, result.2 stops⟩⟩
  | frame idents serial line =>
    have result := readFrame_takes wellFormed rest knows
    exact ⟨result.1, fun stops => ⟨_, result.2 stops⟩⟩
  | trace serial thread frames =>
    exact ⟨fun _ => ⟨_, rfl, readTrace_takes wellFormed short rest knows⟩,
      fun long => absurd trivial long⟩
  | heapDump records => exact absurd rfl (plain records)
  | other tag body =>
    refine ⟨fun _ => ?_, fun long => absurd trivial long⟩
    have size : rlen.toNat = body.length := by
      rw [BitVec.toNat_ofNat]
      exact Nat.mod_eq_of_lt short
    have skips : readPlain tag jf rlen = .ok { jf with fin := jf.fin.seekCur body.length } := by
      have apart : ∀ n : Nat, (BitVec.ofNat 8 n) ∈ ([0x01, 0x02, 0x04, 0x05, 0x0c] : List Byte) →
          tag.toNat ≠ n := by
        intro n member same
        exact wellFormed ((byte_eq same).symm ▸ member)
      rw [readPlain]
      split
      · rename_i same
        exact absurd same (apart 1 (by decide))
      · rename_i same
        exact absurd same (apart 2 (by decide))
      · rename_i same
        exact absurd same (apart 4 (by decide))
      · rename_i same
        exact absurd same (apart 5 (by decide))
      · rw [size]
    exact ⟨_, skips, .of_reads rest ⟨rfl, rfl⟩, rfl, .single (.move _ _),
      knows.of_same rfl rfl rfl rfl rfl rfl⟩

end Plain

section Header
variable {f : FILE} {more : List Byte}

theorem versionBytes_piece {text : List Byte} (nonzero : ∀ b ∈ text, b ≠ 0) {n : Nat}
    (short : text.length < n) (rest : f.rest = text ++ 0 :: more) :
    (versionBytes n f).1 = text ++ [0] ∧ Past f (versionBytes n f).2 (text ++ [0]) more := by
  induction text generalizing n f with
  | nil =>
    obtain ⟨n, rfl⟩ : ∃ m, n = m + 1 := ⟨n - 1, by rw [List.length_nil] at short; omega⟩
    obtain ⟨value, _⟩ := getc_of_rest rest
    obtain ⟨code, past⟩ := getc_piece rest
    have some : f.getc.1 ≠ EOF := by
      rw [value]
      exact (uchar_ne_EOF _).symm
    rw [versionBytes]
    simp only [if_neg some, code, if_true]
    exact ⟨rfl, past⟩
  | cons b text ih =>
    obtain ⟨n, rfl⟩ : ∃ m, n = m + 1 := ⟨n - 1, by rw [List.length_cons] at short; omega⟩
    obtain ⟨value, _⟩ := getc_of_rest rest
    obtain ⟨code, past⟩ := getc_piece rest
    have some : f.getc.1 ≠ EOF := by
      rw [value]
      exact (uchar_ne_EOF _).symm
    obtain ⟨bytes, later⟩ := @ih f.getc.2 (fun other member => nonzero other (.tail _ member)) n
      (by rw [List.length_cons] at short; omega) past.rest
    rw [versionBytes]
    simp only [if_neg some, code, if_neg (nonzero b List.mem_cons_self), bytes]
    refine ⟨rfl, ?_⟩
    have both : Past f (versionBytes n f.getc.2).2 ([b] ++ (text ++ [0])) more :=
      Past.trans (by simpa using past) later
    exact both

/-- A header of one of the versions the program knows is read. -/
theorem readHeader_encode {header : Header} {text : CString}
    (valid : (text, header.fVersion) ∈ versionTexts) (memory : List Byte)
    (rest : f.rest = header.encode text ++ more) :
    ∃ date f', readHeader memory f = .ok (⟨header.fVersion, header.identsz, date⟩, f') ∧
      Past f f' (header.encode text) more := by
  have lengths : ∀ entry ∈ versionTexts, entry.1.length < 39 := by decide
  have nonzero := versionTexts_nonzero _ valid
  have short := lengths _ valid
  have found := versionTexts_lookup_self _ valid
  have layout : f.rest = BigEndian.digits 4 MAGIC_HEADER.toNat ++ (text ++ 0 ::
      (BigEndian.digits 4 header.identsz.size ++ (BigEndian.digits 8 header.date.toNat ++ more))) := by
    rw [rest]
    simp [Header.encode]
  have same : BitVec.ofNat 32 (BigEndian.number (BigEndian.digits 4 MAGIC_HEADER.toNat)) =
      MAGIC_HEADER := by decide
  have known : identSize (BitVec.ofNat 32 (BigEndian.number (BigEndian.digits 4
      header.identsz.size))) = some header.identsz := by
    cases header.identsz <;> decide
  have terminated : (text ++ [0] ++ memory).takeWhile (· ≠ 0) = text := by
    rw [List.append_assoc, List.takeWhile_append_of_pos (by simpa using nonzero)]
    simp
  obtain ⟨f₁, magic, first⟩ := readUint_piece layout (BigEndian.length_digits 4 _)
  obtain ⟨bytes, second⟩ := versionBytes_piece nonzero short first.rest
  have version : readVersion memory f₁ = (some header.fVersion, (versionBytes 39 f₁).2) := by
    rw [readVersion]
    simp only [bytes, terminated, found, List.append_eq_nil_iff, List.cons_ne_nil, and_false,
      if_false]
  obtain ⟨f₃, size, third⟩ := readUint_piece second.rest (BigEndian.length_digits 4 _)
  obtain ⟨f₄, date, fourth⟩ := readUlong_piece third.rest (BigEndian.length_digits 8 _)
  refine ⟨spread (BigEndian.digits 8 header.date.toNat), f₄, ?_, ?_⟩
  · rw [readHeader]
    simp only [magic, same, ne_eq, not_true_eq_false, if_false, version, size, known, date]
  · have start : Past f f₁ (BigEndian.digits 4 MAGIC_HEADER.toNat) ((text ++ [0]) ++
        (BigEndian.digits 4 header.identsz.size ++ (BigEndian.digits 8 header.date.toNat ++ more))) := by
      simpa using first
    have past := ((start.trans second).trans third).trans fourth
    simpa [Header.encode] using past

end Header

end Phat
