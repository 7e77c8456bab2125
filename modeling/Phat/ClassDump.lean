import Phat.Longs
import Phat.Pieces
import Phat.SubRecords

/-! A class dump with everything the format has in it. `readClass` moves past it in any
case; what it counts and records is right unless there is a constant pool, a boolean
other than 0 and 1, or a number that needs the upper half of eight bytes. -/
namespace Phat

structure PoolEntry where
  index : List Byte
  type : Byte
  value : List Byte

def PoolEntry.encode (entry : PoolEntry) : List Byte :=
  entry.index ++ entry.type :: entry.value

/-- The pieces of a class dump. `others` are the identifiers of the loader, the signers
and the protection domain, the two reserved ones and the size of an instance. -/
structure ClassBody where
  ident : List Byte
  stack : List Byte
  superId : List Byte
  others : List Byte
  pool : List PoolEntry
  statics : List StaticEntry
  fields : List FieldEntry

def ClassBody.lists (body : ClassBody) : List Byte :=
  (BigEndian.digits 2 body.pool.length ++ body.pool.flatMap PoolEntry.encode) ++
    ((BigEndian.digits 2 body.statics.length ++ body.statics.flatMap StaticEntry.encode) ++
      (BigEndian.digits 2 body.fields.length ++ body.fields.flatMap FieldEntry.encode))

def ClassBody.encode (body : ClassBody) : List Byte :=
  (body.ident ++ (body.stack ++ body.superId ++ body.others)) ++ body.lists

/-- A value of one of the types of the format, with as many bytes as the type says. -/
structure Typed (fVersion : Nat) (identsz : IdentSize) (type : Byte) (value : List Byte) :
    Prop where
  valid : validSig (typeSig fVersion type)
  length : value.length = fieldSize identsz (typeSig fVersion type)

structure ClassBody.WellFormed (fVersion : Nat) (identsz : IdentSize) (body : ClassBody) :
    Prop where
  ident : body.ident.length = identsz.size
  stack : body.stack.length = 4
  superId : body.superId.length = identsz.size
  others : body.others.length = 5 * identsz.size + 4
  poolCount : body.pool.length < 2 ^ 16
  pool : ∀ entry ∈ body.pool, entry.index.length = 2 ∧
    Typed fVersion identsz entry.type entry.value
  staticCount : body.statics.length < 2 ^ 16
  statics : ∀ entry ∈ body.statics, entry.ident.length = identsz.size ∧
    Typed fVersion identsz entry.type entry.value
  fieldCount : body.fields.length < 2 ^ 16
  fields : ∀ entry ∈ body.fields, entry.ident.length = identsz.size ∧
    validSig (typeSig fVersion entry.type)

/-- The number that some bytes spell. -/
def plain (bytes : List Byte) : BitVec 64 := BitVec.ofNat 64 (BigEndian.number bytes)

/-- The value that some bytes spell, by its type; floating-point values are not stored. -/
def meant (sig : Byte) (bytes : List Byte) : Hvalue :=
  if sig = chr '[' ∨ sig = chr 'L' then .ident (plain bytes)
  else if sig = chr 'Z' ∨ sig = chr 'B' then .b (bytes.headD 0)
  else if sig = chr 'S' ∨ sig = chr 'C' then .c (BitVec.ofNat 16 (BigEndian.number bytes))
  else if sig = chr 'I' then .i (BitVec.ofNat 32 (BigEndian.number bytes))
  else if sig = chr 'J' then .j (plain bytes)
  else .unset

structure RecordedStatic (fVersion : Nat) (entry : StaticEntry) (static : Static) : Prop where
  instId : static.instId = plain entry.ident
  htype : static.htype = typeSig fVersion entry.type
  hvalue : typeSig fVersion entry.type ≠ chr 'F' → typeSig fVersion entry.type ≠ chr 'D' →
    static.hvalue = meant (typeSig fVersion entry.type) entry.value

/-- Class `c` has been filled in from `body`, and `hs` less what was read is left. -/
structure Parsed (body : ClassBody) (c : ClassRef) (jf jf' : Jdump) (hs hs' : Count) : Prop where
  bytes : jf'.fin.bytes = jf.fin.bytes
  consumed : jf'.fin.pos = jf.fin.pos + body.encode.length
  left : hs'.left = hs.left - BitVec.ofNat 32 body.encode.length
  superId : (jf'.cinfo c).superId = plain body.superId
  cstats : (jf'.cinfo c).cstats.toNat = body.statics.length
  statics : ∀ (i : Nat) entry, body.statics[i]? = some entry →
    ∃ static, (jf'.cinfo c).statics[i]? = some static ∧ RecordedStatic jf.fVersion entry static
  cfields : (jf'.cinfo c).cfields.toNat = body.fields.length
  fields : ∀ (i : Nat) entry, body.fields[i]? = some entry →
    (jf'.cinfo c).fields[i]? = some ⟨plain entry.ident, typeSig jf.fVersion entry.type⟩

/-- An identifier that `readIdent` decodes. -/
def Clean (identsz : IdentSize) (ident : List Byte) : Prop := identsz = .eight → Narrow ident

/-- A value that `readUlong` is used for. -/
def wide (identsz : IdentSize) (sig : Byte) : Bool :=
  sig = chr 'J' ∨ (identsz = .eight ∧ (sig = chr '[' ∨ sig = chr 'L'))

/-- The class dumps that `readClass` takes right. -/
structure ClassBody.Exact (fVersion : Nat) (identsz : IdentSize) (body : ClassBody) : Prop where
  pool : body.pool = []
  bools : ∀ entry ∈ body.statics, legal (typeSig fVersion entry.type) entry.value = true
  superId : Clean identsz body.superId
  statics : ∀ entry ∈ body.statics, Clean identsz entry.ident ∧
    (wide identsz (typeSig fVersion entry.type) = true → Narrow entry.value)
  fields : ∀ entry ∈ body.fields, Clean identsz entry.ident

/-- `n` bytes have been read, and all but `k` of them subtracted. -/
def Uncounted (hs hs' : Count) (n k : Nat) : Prop :=
  hs'.left + BitVec.ofNat 32 n = hs.left + BitVec.ofNat 32 k

/-- What `readPool` does not count: the type byte, and with a boolean other than 0 and 1
two bytes more. -/
def poolMissed (fVersion : Nat) (pool : List PoolEntry) : Nat :=
  (pool.map fun entry => if legal (typeSig fVersion entry.type) entry.value then 1 else 3).sum

/-- What `readStatics` does not count. -/
def staticsMissed (fVersion : Nat) (statics : List StaticEntry) : Nat :=
  (statics.map fun entry => if legal (typeSig fVersion entry.type) entry.value then 0 else 2).sum

section Uncounted
variable {hs hs' hs'' : Count} {n m k l : Nat}

theorem Uncounted.refl (hs : Count) : Uncounted hs hs 0 0 := rfl

theorem Uncounted.trans (first : Uncounted hs hs' n k) (second : Uncounted hs' hs'' m l) :
    Uncounted hs hs'' (n + m) (k + l) := by
  unfold Uncounted at *
  rw [BitVec.ofNat_add, BitVec.ofNat_add]
  bv_omega

theorem Uncounted.sub {b : BitVec 32} (short : BitVec.ofNat 32 n = b + BitVec.ofNat 32 k) :
    Uncounted hs (hs.sub b) n k := by
  unfold Uncounted Count.sub
  rw [short]
  bv_omega

/-- Nothing is missing if and only if the count is right. -/
theorem Uncounted.exact_iff (uncounted : Uncounted hs hs' n k) (small : k < 2 ^ 32) :
    hs'.left = hs.left - BitVec.ofNat 32 n ↔ k = 0 := by
  unfold Uncounted at uncounted
  constructor
  · intro exact
    rw [exact, BitVec.sub_add_cancel] at uncounted
    have zero : (BitVec.ofNat 32 k).toNat = 0 := by bv_omega
    rw [BitVec.toNat_ofNat] at zero
    omega
  · rintro rfl
    bv_omega

end Uncounted

/-- What `readStatics` makes of an entry. -/
def decodedStatic (fVersion : Nat) (identsz : IdentSize) (entry : StaticEntry) : Static :=
  ⟨identOf identsz entry.ident, typeSig fVersion entry.type,
    valueOf identsz (typeSig fVersion entry.type) entry.value⟩

def decodedField (fVersion : Nat) (identsz : IdentSize) (entry : FieldEntry) : FieldDecl :=
  ⟨identOf identsz entry.ident, typeSig fVersion entry.type⟩

section Lists
attribute [local irreducible] readIdent readUintLocal readUshortLocal readUshort readValue

variable {fVersion : Nat} {identsz : IdentSize} {f : FILE} {hs : Count} {more : List Byte}

theorem Typed.some {type : Byte} {value : List Byte} (typed : Typed fVersion identsz type value) :
    0 < value.length := by
  rw [typed.length]
  exact fieldSize_pos (by simpa [validSig] using typed.valid)

theorem legal_append {sig : Byte} {value : List Byte} (some : 0 < value.length) :
    legal sig (value ++ more) = legal sig value := by
  cases value with
  | nil => cases some
  | cons => rfl

/-- Only a boolean is not legal, which is one byte. -/
theorem Typed.illegal {type : Byte} {value : List Byte} (typed : Typed fVersion identsz type value)
    (illegal : legal (typeSig fVersion type) value = false) : value.length = 1 := by
  have bool : typeSig fVersion type = chr 'Z' := by
    by_contra other
    simp [legal, other] at illegal
  rw [typed.length, bool]
  rfl

theorem unsigned_natCast (n : Nat) : unsigned n = BitVec.ofNat 32 n := BitVec.ofInt_natCast 32 n

/-- A value with its type byte. -/
theorem readValue_piece {type : Byte} {value : List Byte}
    (typed : Typed fVersion identsz type value) (rest : f.rest = type :: (value ++ more)) :
    (readValue fVersion identsz f).1 =
        ⟨if legal (typeSig fVersion type) value then value.length else -1,
          typeSig fVersion type, valueOf identsz (typeSig fVersion type) value⟩ ∧
      Past f (readValue fVersion identsz f).2 (type :: value) more := by
  obtain ⟨code, start⟩ := getc_piece rest
  have switch : readValue fVersion identsz f =
      readTyped identsz (typeSig fVersion type) f.getc.2 := by
    unfold readValue
    rw [← code]
    rfl
  have fits : fieldSize identsz (typeSig fVersion type) ≤ f.getc.2.rest.length := by
    rw [start.rest, List.length_append, ← typed.length]
    exact Nat.le_add_right _ _
  have some := typed.some
  have has : f.getc.2.Has (fieldSize identsz (typeSig fVersion type)) :=
    FILE.has_piece start.rest typed.length (typed.length ▸ some)
  obtain ⟨reads, rc⟩ := readTyped_reads fits
  have value := readTyped_value has
  rw [start.rest, legal_append some, ← typed.length] at rc
  rw [FILE.ahead_piece start.rest typed.length] at value
  rw [← typed.length] at reads
  rw [switch]
  constructor
  · have htype := @readTyped_htype f.getc.2 identsz (typeSig fVersion type)
    rw [← rc, ← value]
    exact congrArg (fun sig => Value.mk _ sig _) htype
  · exact start.trans (.of_reads start.rest reads)

theorem readPool_pieces {pool : List PoolEntry}
    (wellFormed : ∀ entry ∈ pool, entry.index.length = 2 ∧
      Typed fVersion identsz entry.type entry.value)
    (rest : f.rest = pool.flatMap PoolEntry.encode ++ more) (hs : Count) :
    Past f (readPool fVersion identsz pool.length f hs).1 (pool.flatMap PoolEntry.encode) more ∧
      Uncounted hs (readPool fVersion identsz pool.length f hs).2
        (pool.flatMap PoolEntry.encode).length (poolMissed fVersion pool) := by
  induction pool generalizing f hs with
  | nil => exact ⟨.of_reads rest (.refl f), .refl hs⟩
  | cons entry pool ih =>
    obtain ⟨indexLength, typed⟩ := wellFormed entry List.mem_cons_self
    have layout : f.rest = entry.index ++ (entry.type :: (entry.value ++
        (pool.flatMap PoolEntry.encode ++ more))) := by
      rw [rest]
      simp [PoolEntry.encode]
    have index := (readUshortLocal_piece layout indexLength).2
    obtain ⟨value, body⟩ := readValue_piece typed index.rest
    have after := (index.trans body).rest
    obtain ⟨past, uncounted⟩ := ih (fun other member => wellFormed other (.tail _ member)) after
      ((hs.sub 2).sub (unsigned (readValue fVersion identsz (readUshortLocal f).2).1.rc))
    rw [List.length_cons, readPool_succ, List.flatMap_cons]
    refine ⟨(index.trans body).trans past, ?_⟩
    have two : Uncounted hs (hs.sub 2) 2 0 := .sub rfl
    have counted : Uncounted (hs.sub 2)
        ((hs.sub 2).sub (unsigned (readValue fVersion identsz (readUshortLocal f).2).1.rc))
        (1 + entry.value.length)
        (if legal (typeSig fVersion entry.type) entry.value then 1 else 3) := by
      apply Uncounted.sub
      rw [value]
      split
      · rw [unsigned_natCast, Nat.add_comm, BitVec.ofNat_add]
      · rename_i illegal
        rw [typed.illegal (by simpa using illegal)]
        change _ = unsigned (-1) + 3#32
        decide
    have length : (entry.encode ++ pool.flatMap PoolEntry.encode).length =
        2 + (1 + entry.value.length) + (pool.flatMap PoolEntry.encode).length := by
      rw [PoolEntry.encode, List.length_append, List.length_append, indexLength, List.length_cons,
        Nat.add_comm 1]
    have missed : poolMissed fVersion (entry :: pool) =
        0 + (if legal (typeSig fVersion entry.type) entry.value then 1 else 3) +
          poolMissed fVersion pool := by
      rw [Nat.zero_add]
      rfl
    rw [length, missed]
    exact (two.trans counted).trans uncounted

theorem readStatics_cons (f : FILE) (hs : Count) (n : Nat) :
    (readStatics fVersion identsz (n + 1) f hs).1 =
      ⟨(readIdent identsz f).1, (readValue fVersion identsz (readIdent identsz f).2).1.htype,
        (readValue fVersion identsz (readIdent identsz f).2).1.hvalue⟩ ::
        (readStatics fVersion identsz n (readValue fVersion identsz (readIdent identsz f).2).2
          ((hs.sub identsz.width).sub
            (unsigned (1 + (readValue fVersion identsz (readIdent identsz f).2).1.rc)))).1 := rfl

theorem readStatics_pieces {statics : List StaticEntry}
    (wellFormed : ∀ entry ∈ statics, entry.ident.length = identsz.size ∧
      Typed fVersion identsz entry.type entry.value)
    (rest : f.rest = statics.flatMap StaticEntry.encode ++ more) (hs : Count) :
    (readStatics fVersion identsz statics.length f hs).1 =
        statics.map (decodedStatic fVersion identsz) ∧
      Past f (readStatics fVersion identsz statics.length f hs).2.1
        (statics.flatMap StaticEntry.encode) more ∧
      Uncounted hs (readStatics fVersion identsz statics.length f hs).2.2
        (statics.flatMap StaticEntry.encode).length (staticsMissed fVersion statics) := by
  induction statics generalizing f hs with
  | nil => exact ⟨rfl, .of_reads rest (.refl f), .refl hs⟩
  | cons entry statics ih =>
    obtain ⟨identLength, typed⟩ := wellFormed entry List.mem_cons_self
    have layout : f.rest = entry.ident ++ (entry.type :: (entry.value ++
        (statics.flatMap StaticEntry.encode ++ more))) := by
      rw [rest]
      simp [StaticEntry.encode]
    obtain ⟨instId, name⟩ := readIdent_piece layout identLength
    obtain ⟨value, body⟩ := readValue_piece typed name.rest
    have after := (name.trans body).rest
    obtain ⟨values, past, uncounted⟩ := ih (fun other member => wellFormed other (.tail _ member))
      after ((hs.sub identsz.width).sub
        (unsigned (1 + (readValue fVersion identsz (readIdent identsz f).2).1.rc)))
    rw [List.length_cons, readStatics_cons, readStatics_succ, List.flatMap_cons]
    refine ⟨?_, (name.trans body).trans past, ?_⟩
    · rw [values, instId, value, List.map_cons, decodedStatic]
    · have width : Uncounted hs (hs.sub identsz.width) identsz.size 0 := .sub (by simp [IdentSize.width])
      have counted : Uncounted (hs.sub identsz.width) ((hs.sub identsz.width).sub
          (unsigned (1 + (readValue fVersion identsz (readIdent identsz f).2).1.rc)))
          (1 + entry.value.length)
          (if legal (typeSig fVersion entry.type) entry.value then 0 else 2) := by
        apply Uncounted.sub
        rw [value]
        split
        · have rc : (1 : Int) + entry.value.length = (1 + entry.value.length : Nat) := by omega
          rw [rc, unsigned_natCast, BitVec.add_zero]
        · rename_i illegal
          rw [typed.illegal (by simpa using illegal)]
          rfl
      have length : (entry.encode ++ statics.flatMap StaticEntry.encode).length =
          identsz.size + (1 + entry.value.length) +
            (statics.flatMap StaticEntry.encode).length := by
        rw [StaticEntry.encode, List.length_append, List.length_append, identLength,
          List.length_cons, Nat.add_comm 1]
      have missed : staticsMissed fVersion (entry :: statics) =
          0 + (if legal (typeSig fVersion entry.type) entry.value then 0 else 2) +
            staticsMissed fVersion statics := by
        rw [Nat.zero_add]
        rfl
      rw [length, missed]
      exact (width.trans counted).trans uncounted

theorem readFields_cons (f : FILE) (hs : Count) (n : Nat) :
    (readFields fVersion identsz (n + 1) f hs).1 =
      ⟨(readIdent identsz f).1, typeSig fVersion (uchar (readIdent identsz f).2.getc.1)⟩ ::
        (readFields fVersion identsz n (readIdent identsz f).2.getc.2
          (hs.sub (1 + identsz.width))).1 := rfl

theorem readFields_pieces {fields : List FieldEntry}
    (wellFormed : ∀ entry ∈ fields, entry.ident.length = identsz.size ∧
      validSig (typeSig fVersion entry.type))
    (rest : f.rest = fields.flatMap FieldEntry.encode ++ more) (hs : Count) :
    (readFields fVersion identsz fields.length f hs).1 =
        fields.map (decodedField fVersion identsz) ∧
      Past f (readFields fVersion identsz fields.length f hs).2.1
        (fields.flatMap FieldEntry.encode) more ∧
      Uncounted hs (readFields fVersion identsz fields.length f hs).2.2
        (fields.flatMap FieldEntry.encode).length 0 := by
  induction fields generalizing f hs with
  | nil => exact ⟨rfl, .of_reads rest (.refl f), .refl hs⟩
  | cons entry fields ih =>
    obtain ⟨identLength, _⟩ := wellFormed entry List.mem_cons_self
    have layout : f.rest = entry.ident ++ (entry.type ::
        (fields.flatMap FieldEntry.encode ++ more)) := by
      rw [rest]
      simp [FieldEntry.encode]
    obtain ⟨ident, name⟩ := readIdent_piece layout identLength
    obtain ⟨code, type⟩ := getc_piece name.rest
    have entryPast : Past f (readIdent identsz f).2.getc.2 (entry.ident ++ [entry.type])
        (fields.flatMap FieldEntry.encode ++ more) := Past.trans name type
    obtain ⟨decls, past, uncounted⟩ := ih (fun other member => wellFormed other (.tail _ member))
      entryPast.rest (hs.sub (1 + identsz.width))
    rw [List.length_cons, readFields_cons, readFields_succ, List.flatMap_cons]
    refine ⟨?_, entryPast.trans past, ?_⟩
    · rw [decls, ident, code, List.map_cons, decodedField]
    · have first : Uncounted hs (hs.sub (1 + identsz.width)) (1 + identsz.size) 0 := by
        apply Uncounted.sub
        rw [BitVec.add_zero, BitVec.ofNat_add]
        rfl
      have length : (entry.encode ++ fields.flatMap FieldEntry.encode).length =
          1 + identsz.size + (fields.flatMap FieldEntry.encode).length := by
        rw [FieldEntry.encode, List.length_append, List.length_append, identLength,
          List.length_singleton, Nat.add_comm 1]
      rw [length]
      exact first.trans uncounted

/-- The lists of a class record after the dump, as they have been decoded. -/
structure Listed (fVersion : Nat) (identsz : IdentSize) (body : ClassBody) (ci : Cinfo) : Prop where
  cstats : ci.cstats.toNat = body.statics.length
  statics : ∀ (i : Nat) entry, body.statics[i]? = some entry →
    ci.statics[i]? = some (decodedStatic fVersion identsz entry)
  cfields : ci.cfields.toNat = body.fields.length
  fields : ∀ (i : Nat) entry, body.fields[i]? = some entry →
    ci.fields[i]? = some (decodedField fVersion identsz entry)

theorem readClassLists_lists (ci : Cinfo) (f : FILE) (hs : Count) :
    let pool := readPool fVersion identsz (readUshortLocal f).1.toNat (readUshortLocal f).2
      (hs.sub 2)
    let cstats := (readUshort pool.1).1.getD ci.cstats
    let statics := readStatics fVersion identsz cstats.toNat (readUshort pool.1).2 (pool.2.sub 2)
    let cfields := (readUshort statics.2.1).1.getD ci.cfields
    let fields := readFields fVersion identsz cfields.toNat (readUshort statics.2.1).2
      (statics.2.2.sub 2)
    (readClassLists fVersion identsz ci f hs).1 = { ci with
      cstats := cstats
      statics := if 0 < cstats.toNat then statics.1 else ci.statics
      cfields := cfields
      fields := if 0 < cfields.toNat then fields.1 else ci.fields
      block := if 0 < cfields.toNat then ci.block + 1 else ci.block } := rfl

/-- Entry `i` of a list that was allocated for as many entries as there are. -/
theorem getElem?_allocated {α β : Type} {entries : List α} {decode : α → β} {n : Nat} {i : Nat}
    {entry : α} {old : List β} (count : n = entries.length) (here : entries[i]? = some entry) :
    (if 0 < n then entries.map decode else old)[i]? = some (decode entry) := by
  obtain ⟨inside, _⟩ := List.getElem?_eq_some_iff.mp here
  rw [if_pos (by omega), List.getElem?_map, here, Option.map_some]

theorem readClassLists_pieces {body : ClassBody} (wellFormed : body.WellFormed fVersion identsz)
    (rest : f.rest = body.lists ++ more) (ci : Cinfo) (hs : Count) :
    let result := readClassLists fVersion identsz ci f hs
    Listed fVersion identsz body result.1 ∧ result.1.superId = ci.superId ∧
      Past f result.2.1 body.lists more ∧
      Uncounted hs result.2.2 body.lists.length
        (poolMissed fVersion body.pool + staticsMissed fVersion body.statics) := by
  intro result
  have two : ∀ hs : Count, Uncounted hs (hs.sub 2) 2 0 := fun hs => .sub rfl
  have layout : f.rest = BigEndian.digits 2 body.pool.length ++
      (body.pool.flatMap PoolEntry.encode ++ (BigEndian.digits 2 body.statics.length ++
        (body.statics.flatMap StaticEntry.encode ++ (BigEndian.digits 2 body.fields.length ++
          (body.fields.flatMap FieldEntry.encode ++ more))))) := by
    rw [rest]
    simp only [ClassBody.lists, List.append_assoc]
  have lists := @readClassLists_lists fVersion identsz ci f hs
  have tail := readClassLists_tail fVersion identsz ci f hs
  change result.1 = _ at lists
  change result.2 = _ at tail
  -- the constant pool
  obtain ⟨cpool, start⟩ := readUshortLocal_piece layout (BigEndian.length_digits 2 _)
  have poolCount := number_digits_two wellFormed.poolCount
  rw [← cpool] at poolCount
  rw [poolCount] at lists tail
  obtain ⟨poolPast, poolCounted⟩ := readPool_pieces wellFormed.pool start.rest (hs.sub 2)
  generalize readPool fVersion identsz body.pool.length (readUshortLocal f).2 (hs.sub 2) = pool
    at *
  -- the statics
  obtain ⟨cstats, toStatics⟩ := readUshort_piece poolPast.rest (BigEndian.length_digits 2 _)
  have staticCount := number_digits_two wellFormed.staticCount
  rw [cstats, Option.getD_some, staticCount] at lists tail
  obtain ⟨values, staticsPast, staticsCounted⟩ :=
    readStatics_pieces wellFormed.statics toStatics.rest (pool.2.sub 2)
  generalize readStatics fVersion identsz body.statics.length (readUshort pool.1).2
    (pool.2.sub 2) = statics at *
  -- the fields
  obtain ⟨cfields, toFields⟩ := readUshort_piece staticsPast.rest (BigEndian.length_digits 2 _)
  have fieldCount := number_digits_two wellFormed.fieldCount
  rw [cfields, Option.getD_some, fieldCount] at lists tail
  obtain ⟨decls, fieldsPast, fieldsCounted⟩ :=
    readFields_pieces wellFormed.fields toFields.rest (statics.2.2.sub 2)
  rw [values, decls] at lists
  refine ⟨⟨?_, ?_, ?_, ?_⟩, ?_, ?_, ?_⟩
  · rw [lists]
    exact staticCount
  · intro i entry here
    rw [lists]
    exact getElem?_allocated rfl here
  · rw [lists]
    exact fieldCount
  · intro i entry here
    rw [lists]
    exact getElem?_allocated rfl here
  · rw [lists]
  · rw [tail]
    have past := ((((start.trans poolPast).trans toStatics).trans staticsPast).trans
      toFields).trans fieldsPast
    simpa only [ClassBody.lists, List.append_assoc] using past
  · rw [tail]
    have counted := (((two hs).trans poolCounted).trans (((two pool.2).trans staticsCounted).trans
      ((two statics.2.2).trans fieldsCounted)))
    simpa only [ClassBody.lists, List.length_append, BigEndian.length_digits, Nat.zero_add,
      Nat.add_zero] using counted

theorem readClassHeader_pieces {stack superId others : List Byte} (stackLength : stack.length = 4)
    (superLength : superId.length = identsz.size) (othersLength : others.length = 5 * identsz.size + 4)
    (rest : f.rest = (stack ++ superId ++ others) ++ more) :
    (readClassHeader identsz f).1.superId = identOf identsz superId ∧
      Past f (readClassHeader identsz f).2 (stack ++ superId ++ others) more := by
  have length : (stack ++ superId ++ others).length = 6 * identsz.size + 8 := by
    simp only [List.length_append]
    omega
  constructor
  · have layout : f.rest = stack ++ (superId ++ (others ++ more)) := by
      rw [rest, List.append_assoc, List.append_assoc]
    exact (readIdent_piece (readUintLocal_piece layout stackLength).2.rest superLength).1
  · apply Past.of_reads rest
    rw [length]
    apply readClassHeader_reads
    rw [rest, List.length_append]
    omega

end Lists

section Dump
attribute [local irreducible] readIdent readClassHeader readClassLists

variable {jf : Jdump} {body : ClassBody} {c : ClassRef} {more : List Byte}

/-- What `readClass` does with a well-formed body, right or not. -/
theorem readClass_pieces (wellFormed : body.WellFormed jf.fVersion jf.identsz)
    (rest : jf.fin.rest = body.encode ++ more)
    (found : jf.cTable.lookup32 (keyOf body.ident) = some c) (hs : Count) :
    ∃ jf' hs', readClass jf hs = .ok (jf', hs') ∧ Past jf.fin jf'.fin body.encode more ∧
      Uncounted hs hs' body.encode.length
        (poolMissed jf.fVersion body.pool + staticsMissed jf.fVersion body.statics) ∧
      Listed jf.fVersion jf.identsz body (jf'.cinfo c) ∧
      (jf'.cinfo c).superId = identOf jf.identsz body.superId := by
  have layout : jf.fin.rest = body.ident ++ ((body.stack ++ body.superId ++ body.others) ++
      (body.lists ++ more)) := by
    rw [rest]
    simp only [ClassBody.encode, List.append_assoc]
  have ident := (readIdent_piece layout wellFormed.ident).2
  obtain ⟨superId, header⟩ := readClassHeader_pieces wellFormed.stack wellFormed.superId
    wellFormed.others ident.rest
  obtain ⟨listed, kept, lists, counted⟩ := readClassLists_pieces wellFormed header.rest
    { jf.cinfo c with
      superId := (readClassHeader jf.identsz (readIdent jf.identsz jf.fin).2).1.superId
      loaderId := (readClassHeader jf.identsz (readIdent jf.identsz jf.fin).2).1.loaderId
      signerId := (readClassHeader jf.identsz (readIdent jf.identsz jf.fin).2).1.signerId
      domainId := (readClassHeader jf.identsz (readIdent jf.identsz jf.fin).2).1.domainId }
    (hs.sub (7 * jf.identsz.width + 8))
  rw [← readIdent_key layout wellFormed.ident] at found
  rw [readClass]
  simp only [found]
  refine ⟨_, _, rfl, ?_, ?_, ?_, ?_⟩
  · have past := (ident.trans header).trans lists
    exact past
  · have fixed : Uncounted hs (hs.sub (7 * jf.identsz.width + 8)) (7 * jf.identsz.size + 8) 0 := by
      apply Uncounted.sub
      cases jf.identsz <;> rfl
    have length : body.encode.length = 7 * jf.identsz.size + 8 + body.lists.length := by
      simp only [ClassBody.encode, List.length_append, wellFormed.ident, wellFormed.stack,
        wellFormed.superId, wellFormed.others]
      omega
    rw [length, ← Nat.zero_add (poolMissed _ _ + _)]
    exact fixed.trans counted
  · rw [Jdump.cinfo, Jdump.modifyClass, Store.get_modify_self]
    exact listed
  · rw [Jdump.cinfo, Jdump.modifyClass, Store.get_modify_self]
    exact kept.trans superId

end Dump

section Meaning
variable {fVersion : Nat} {identsz : IdentSize}

theorem identOf_plain_iff {ident : List Byte} (length : ident.length = identsz.size) :
    identOf identsz ident = plain ident ↔ Clean identsz ident := by
  cases identsz with
  | four => exact ⟨fun _ eight => IdentSize.noConfusion eight, fun _ => rfl⟩
  | eight => exact ⟨fun same _ => (spread_eq_iff length).mp same, fun clean =>
      (spread_eq_iff length).mpr (clean rfl)⟩

/-- The readers get a value right unless it takes `readUlong` to read a number that needs
the upper half. -/
theorem valueOf_meant_iff {sig : Byte} {bytes : List Byte}
    (length : bytes.length = fieldSize identsz sig) (single : sig ≠ chr 'F')
    (double : sig ≠ chr 'D') :
    valueOf identsz sig bytes = meant sig bytes ↔ (wide identsz sig = true → Narrow bytes) := by
  unfold valueOf meant
  by_cases ref : sig = chr '[' ∨ sig = chr 'L'
  · have size : fieldSize identsz sig = identsz.size := by
      rcases ref with rfl | rfl <;> rfl
    have other : sig ≠ chr 'J' := by rcases ref with rfl | rfl <;> decide
    rw [if_pos ref, if_pos ref, Hvalue.ident.injEq, identOf_plain_iff (length.trans size)]
    simp [wide, other, ref, Clean]
  rw [if_neg ref, if_neg ref]
  by_cases byte : sig = chr 'Z' ∨ sig = chr 'B'
  · have narrow : wide identsz sig = false := by
      rcases byte with rfl | rfl <;> cases identsz <;> rfl
    rw [if_pos byte, if_pos byte, narrow]
    simp
  rw [if_neg byte, if_neg byte]
  by_cases short : sig = chr 'S' ∨ sig = chr 'C'
  · have narrow : wide identsz sig = false := by
      rcases short with rfl | rfl <;> cases identsz <;> rfl
    rw [if_pos short, if_pos short, narrow]
    simp
  rw [if_neg short, if_neg short]
  by_cases int : sig = chr 'I'
  · have narrow : wide identsz sig = false := by
      subst int
      cases identsz <;> rfl
    rw [if_pos int, if_pos int, narrow]
    simp
  rw [if_neg int, if_neg int]
  by_cases long : sig = chr 'J'
  · subst long
    rw [if_pos rfl, if_pos rfl, Hvalue.j.injEq, plain, spread_eq_iff length]
    simp [wide]
  rw [if_neg long, if_neg long, if_neg single, if_neg double]
  simp [wide, long, ref]

theorem recorded_iff {entry : StaticEntry} (length : entry.ident.length = identsz.size)
    (typed : Typed fVersion identsz entry.type entry.value) :
    RecordedStatic fVersion entry (decodedStatic fVersion identsz entry) ↔
      Clean identsz entry.ident ∧
        (wide identsz (typeSig fVersion entry.type) = true → Narrow entry.value) := by
  constructor
  · rintro ⟨instId, _, hvalue⟩
    refine ⟨(identOf_plain_iff length).mp instId, fun isWide => ?_⟩
    have single : typeSig fVersion entry.type ≠ chr 'F' := by
      intro float
      rw [float] at isWide
      cases identsz <;> cases isWide
    have double : typeSig fVersion entry.type ≠ chr 'D' := by
      intro float
      rw [float] at isWide
      cases identsz <;> cases isWide
    exact (valueOf_meant_iff typed.length single double).mp (hvalue single double) isWide
  · rintro ⟨clean, narrow⟩
    constructor
    · exact (identOf_plain_iff length).mpr clean
    · rfl
    · intro single double
      exact (valueOf_meant_iff typed.length single double).mpr narrow

theorem poolMissed_le (pool : List PoolEntry) : poolMissed fVersion pool ≤ 3 * pool.length := by
  induction pool with
  | nil => exact le_rfl
  | cons entry pool ih =>
    rw [poolMissed, List.map_cons, List.sum_cons, List.length_cons]
    rw [poolMissed] at ih
    split <;> omega

theorem poolMissed_eq_zero {pool : List PoolEntry} :
    poolMissed fVersion pool = 0 ↔ pool = [] := by
  cases pool with
  | nil => exact ⟨fun _ => rfl, fun _ => rfl⟩
  | cons entry pool =>
    rw [poolMissed, List.map_cons, List.sum_cons]
    constructor
    · intro none
      split at none <;> omega
    · intro empty
      cases empty

theorem staticsMissed_le (statics : List StaticEntry) :
    staticsMissed fVersion statics ≤ 2 * statics.length := by
  induction statics with
  | nil => exact le_rfl
  | cons entry statics ih =>
    rw [staticsMissed, List.map_cons, List.sum_cons, List.length_cons]
    rw [staticsMissed] at ih
    split <;> omega

theorem staticsMissed_eq_zero {statics : List StaticEntry} : staticsMissed fVersion statics = 0 ↔
    ∀ entry ∈ statics, legal (typeSig fVersion entry.type) entry.value = true := by
  induction statics with
  | nil => simp [staticsMissed]
  | cons entry statics ih =>
    rw [List.forall_mem_cons, ← ih, staticsMissed, List.map_cons, List.sum_cons,
      Nat.add_eq_zero_iff]
    apply and_congr_left
    intro _
    split <;> simp [*]

end Meaning

/-- A class dump is parsed right if and only if it is exact. -/
theorem class_dump_parsed {jf : Jdump} {body : ClassBody} {c : ClassRef} {more : List Byte}
    (wellFormed : body.WellFormed jf.fVersion jf.identsz)
    (rest : jf.fin.rest = body.encode ++ more)
    (found : jf.cTable.lookup32 (keyOf body.ident) = some c) (hs : Count) :
    ∃ jf' hs', readClass jf hs = .ok (jf', hs') ∧
      (Parsed body c jf jf' hs hs' ↔ body.Exact jf.fVersion jf.identsz) := by
  obtain ⟨jf', hs', run, past, uncounted, listed, superId⟩ :=
    readClass_pieces wellFormed rest found hs
  have poolLimit := @poolMissed_le jf.fVersion body.pool
  have staticsLimit := @staticsMissed_le jf.fVersion body.statics
  have pools := wellFormed.poolCount
  have staticCount := wellFormed.staticCount
  have counted := uncounted.exact_iff (by omega)
  rw [Nat.add_eq_zero_iff, poolMissed_eq_zero, staticsMissed_eq_zero] at counted
  refine ⟨jf', hs', run, fun parsed => ?_, fun exact => ?_⟩
  · obtain ⟨pool, bools⟩ := counted.mp parsed.left
    constructor
    · exact pool
    · exact bools
    · exact (identOf_plain_iff wellFormed.superId).mp (superId.symm.trans parsed.superId)
    · intro entry member
      obtain ⟨i, here⟩ := List.mem_iff_getElem?.mp member
      obtain ⟨static, recorded, right⟩ := parsed.statics i entry here
      rw [listed.statics i entry here, Option.some.injEq] at recorded
      subst recorded
      obtain ⟨length, typed⟩ := wellFormed.statics entry member
      exact (recorded_iff length typed).mp right
    · intro entry member
      obtain ⟨i, here⟩ := List.mem_iff_getElem?.mp member
      have recorded := parsed.fields i entry here
      rw [listed.fields i entry here, Option.some.injEq, decodedField, FieldDecl.mk.injEq]
        at recorded
      obtain ⟨length, _⟩ := wellFormed.fields entry member
      exact (identOf_plain_iff length).mp recorded.1
  · constructor
    · exact past.reads.bytes
    · exact past.reads.pos
    · exact counted.mpr ⟨exact.pool, exact.bools⟩
    · exact superId.trans ((identOf_plain_iff wellFormed.superId).mpr exact.superId)
    · exact listed.cstats
    · intro i entry here
      have member := List.mem_of_getElem? here
      obtain ⟨length, typed⟩ := wellFormed.statics entry member
      exact ⟨_, listed.statics i entry here,
        (recorded_iff length typed).mpr (exact.statics entry member)⟩
    · exact listed.cfields
    · intro i entry here
      have member := List.mem_of_getElem? here
      obtain ⟨length, _⟩ := wellFormed.fields entry member
      rw [listed.fields i entry here, decodedField,
        (identOf_plain_iff length).mpr (exact.fields entry member)]

/-- Class 1 has been loaded, and the file goes on with the body of a dump of it. -/
def sampleBody (identsz : IdentSize) (body : ClassBody) : Jdump :=
  { Jdump.start body.encode identsz none with
    fVersion := 1
    cTable := Table.empty.insert32 1 0 }

/-- A class with a static reference and an integer field. -/
def samplePlain : ClassBody where
  ident := [0, 0, 0, 0, 0, 0, 0, 1]
  stack := [0, 0, 0, 0]
  superId := [0, 0, 0, 0, 0, 0, 0, 2]
  others := List.replicate 44 0
  pool := []
  statics := [⟨[0, 0, 0, 0, 0, 0, 0, 5], 2, [0, 0, 0, 0, 0, 0, 0, 9]⟩]
  fields := [⟨[0, 0, 0, 0, 0, 0, 0, 6], 10⟩]

theorem class_dump_parsed_sample : ∃ jf' hs',
    readClass (sampleBody .eight samplePlain) ⟨96, false⟩ = .ok (jf', hs') ∧
      (Parsed samplePlain 0 (sampleBody .eight samplePlain) jf' ⟨96, false⟩ hs' ↔
        samplePlain.Exact 1 .eight) := by
  have wellFormed : samplePlain.WellFormed 1 .eight := by
    refine ⟨rfl, rfl, rfl, rfl, by decide, ?_, by decide, ?_, by decide, ?_⟩
    · intro entry member
      cases member
    · intro entry member
      obtain rfl := List.mem_singleton.mp member
      exact ⟨rfl, rfl, rfl⟩
    · intro entry member
      obtain rfl := List.mem_singleton.mp member
      exact ⟨rfl, rfl⟩
  refine @class_dump_parsed (sampleBody .eight samplePlain) samplePlain 0 [] wellFormed ?_ ?_ _
  · exact (List.append_nil _).symm
  · exact Table.lookup32_insert32_self _ _ _

/-- A class with one integer in its constant pool. -/
def samplePool : ClassBody :=
  ⟨[0, 0, 0, 1], [0, 0, 0, 0], [0, 0, 0, 0], List.replicate 24 0, [⟨[0, 1], 10, [0, 0, 0, 7]⟩], [], []⟩

/-- The type byte in the constant pool is not counted. -/
theorem pool_uncounted : ¬ ∀ (jf : Jdump) (body : ClassBody) (c : ClassRef) (more : List Byte)
    (hs : Count), body.WellFormed jf.fVersion jf.identsz → jf.fin.rest = body.encode ++ more →
    jf.cTable.lookup32 (keyOf body.ident) = some c →
    ∃ jf' hs', readClass jf hs = .ok (jf', hs') ∧ Parsed body c jf jf' hs hs' := by
  intro claimed
  have wellFormed : samplePool.WellFormed 1 .four := by
    refine ⟨rfl, rfl, rfl, rfl, by decide, ?_, by decide, ?_, by decide, ?_⟩
    · intro entry member
      obtain rfl := List.mem_singleton.mp member
      exact ⟨rfl, rfl, rfl⟩
    · intro entry member
      cases member
    · intro entry member
      cases member
  have found : (sampleBody .four samplePool).cTable.lookup32 (keyOf samplePool.ident) = some 0 :=
    Table.lookup32_insert32_self _ _ _
  have rest : (sampleBody .four samplePool).fin.rest = samplePool.encode ++ [] :=
    (List.append_nil _).symm
  obtain ⟨jf', hs', run, parsed⟩ := claimed _ _ _ _ ⟨49, false⟩ wellFormed rest found
  obtain ⟨jf'', hs'', run', _, uncounted, _⟩ := readClass_pieces wellFormed rest found ⟨49, false⟩
  obtain ⟨_, rfl⟩ : jf' = jf'' ∧ hs' = hs'' := by
    rw [run] at run'
    cases run'
    exact ⟨rfl, rfl⟩
  have none := (uncounted.exact_iff (by decide)).mp parsed.left
  cases none

end Phat
