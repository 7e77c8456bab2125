import Phat.Foundation.BigEndian

/-! The dump file as the C library shows it to the readers, and the readers of
phat.c. `__BIGENDIAN` is defined nowhere, so the first branch of each
`#if __BYTE_ORDER == __BIGENDIAN` is not compiled; the second one is modelled. -/
namespace Phat

abbrev Byte := BitVec 8

/-- A `char` constant. -/
def chr (c : Char) : Byte := BitVec.ofNat 8 c.toNat

/-- `stale` is what successive uninitialised destinations hold when a read into them
fails; `reads` counts the destinations used so far. -/
structure FILE where
  bytes : List Byte
  pos : Nat
  stale : Nat → BitVec 64
  reads : Nat

def EOF : Int := -1

namespace FILE

def getc (f : FILE) : Int × FILE :=
  match f.bytes[f.pos]? with
  | some b => ((b.toNat : Int), { f with pos := f.pos + 1 })
  | none => (EOF, f)

def fread (n : Nat) (f : FILE) : List Byte × FILE :=
  let bytes := (f.bytes.drop f.pos).take n
  (bytes, { f with pos := f.pos + bytes.length })

/-- `fseek(fin, n, SEEK_CUR)`; the position may pass the end of the file. -/
def seekCur (n : Nat) (f : FILE) : FILE := { f with pos := f.pos + n }

/-- `fseeko(fin, pos, SEEK_SET)` -/
def seekSet (pos : Nat) (f : FILE) : FILE := { f with pos := pos }

end FILE

/-- Conversion of an `int` to `unsigned char`. -/
def uchar (ch : Int) : Byte := BitVec.ofInt 8 ch

/-- `none` stands for the result -1, with the destination left as it was. -/
def readUshort (f : FILE) : Option (BitVec 16) × FILE :=
  match f.fread 2 with
  | ([b0, b1], f) => (some (b0.setWidth 16 <<< 8 ||| b1.setWidth 16), f)
  | (_, f) => (none, f)

/-- `((b0 << 8 | b1) << 8 | b2) << 8 | b3` in `int` arithmetic. -/
def assemble (b0 b1 b2 b3 : Byte) : BitVec 32 :=
  ((b0.setWidth 32 <<< 8 ||| b1.setWidth 32) <<< 8 ||| b2.setWidth 32) <<< 8 ||| b3.setWidth 32

def readUint (f : FILE) : Option (BitVec 32) × FILE :=
  match f.fread 4 with
  | ([b0, b1, b2, b3], f) => (some (assemble b0 b1 b2 b3), f)
  | (_, f) => (none, f)

/-- In the second assignment `+` binds tighter than `<<`, so the sum of the shifted
high half and the three middle bytes is shifted once more before `sb[7]` is ored in.
Both halves are `int` expressions and are sign-extended. -/
def readUlong (f : FILE) : Option (BitVec 64) × FILE :=
  match f.fread 8 with
  | ([b0, b1, b2, b3, b4, b5, b6, b7], f) =>
    let val : BitVec 64 := (assemble b0 b1 b2 b3).signExtend 64
    let middle : BitVec 32 :=
      (b4.setWidth 32 <<< 8 ||| b5.setWidth 32) <<< 8 ||| b6.setWidth 32
    (some ((val <<< 32 + middle.signExtend 64) <<< 8 ||| b7.setWidth 64), f)
  | (_, f) => (none, f)

/-- `identsz`, which `readDump` admits only as 4 or 8. -/
inductive IdentSize where
  | four
  | eight
deriving DecidableEq

def IdentSize.size : IdentSize → Nat
  | .four => 4
  | .eight => 8

/-- `readIdent` into a local that held `old`. -/
def readIdentOver (identsz : IdentSize) (old : BitVec 64) (f : FILE) : BitVec 64 × FILE :=
  match identsz with
  | .four =>
    let (val, f) := readUint f
    ((val.getD (old.setWidth 32)).setWidth 64, f)
  | .eight =>
    let (lval, f) := readUlong f
    (lval.getD old, f)

namespace FILE

/-- The next uninitialised destination. -/
def old (f : FILE) : BitVec 64 := f.stale f.reads

def used (f : FILE) : FILE := { f with reads := f.reads + 1 }

end FILE

/-- `readIdent` into a fresh local. -/
def readIdent (identsz : IdentSize) (f : FILE) : BitVec 64 × FILE :=
  let (ident, f') := readIdentOver identsz f.old f
  (ident, f'.used)

/-- `readUint` into a fresh local. -/
def readUintLocal (f : FILE) : BitVec 32 × FILE :=
  let (val, f') := readUint f
  (val.getD (f.old.setWidth 32), f'.used)

/-- `readUshort` into a fresh local. -/
def readUshortLocal (f : FILE) : BitVec 16 × FILE :=
  let (val, f') := readUshort f
  (val.getD (f.old.setWidth 16), f'.used)

section Readers
variable {f : FILE}

/-- The next `n` bytes of the file, when they are there. -/
def FILE.Has (f : FILE) (n : Nat) : Prop := f.pos + n ≤ f.bytes.length

/-- The next `n` bytes, or those left. -/
def FILE.ahead (f : FILE) (n : Nat) : List Byte := (f.bytes.drop f.pos).take n

theorem FILE.length_ahead {n : Nat} (has : f.Has n) : (f.ahead n).length = n := by
  rw [FILE.Has] at has
  simp only [FILE.ahead, List.length_take, List.length_drop]
  omega

theorem FILE.getc_of_has (has : f.Has 1) :
    ∃ b, f.getc = ((b.toNat : Int), { f with pos := f.pos + 1 }) ∧ f.ahead 1 = [b] := by
  rw [FILE.Has] at has
  have bound : f.pos < f.bytes.length := has
  refine ⟨f.bytes[f.pos], ?_, ?_⟩
  · simp [FILE.getc, bound]
  · rw [FILE.ahead, List.drop_eq_getElem_cons bound]
    rfl

theorem FILE.getc_of_end (short : ¬ f.Has 1) : f.getc = (EOF, f) := by
  rw [FILE.Has] at short
  have bound : f.bytes.length ≤ f.pos := by omega
  simp [FILE.getc, bound]

theorem FILE.fread_of_has {n : Nat} (has : f.Has n) : f.fread n = (f.ahead n, f.seekCur n) := by
  have length := FILE.length_ahead has
  simp only [FILE.ahead] at length
  simp only [FILE.fread, FILE.ahead, FILE.seekCur, length]

/-- A short read stops at the end of the file. -/
theorem FILE.fread_of_short {n : Nat} (some : 0 < n) (short : ¬ f.Has n) :
    (f.fread n).1.length < n ∧ (f.fread n).2 = { f with pos := max f.pos f.bytes.length } := by
  rw [FILE.Has] at short
  simp only [FILE.fread, List.length_take, List.length_drop, FILE.mk.injEq, true_and, and_true]
  omega

@[simp] theorem uchar_toNat (b : Byte) : uchar (b.toNat : Int) = b := by
  simp [uchar]

@[simp] theorem uchar_EOF : uchar EOF = 255#8 := by decide

theorem shift_or (width : Nat) (high : BitVec width) (low : Byte)
    (room : high.toNat * 256 + 256 ≤ 2 ^ width) (wide : 8 ≤ width) :
    (high <<< 8 ||| low.setWidth width).toNat = high.toNat * 256 + low.toNat := by
  have digit := low.isLt
  have fits : low.toNat < 2 ^ width := by
    have := Nat.pow_le_pow_right (n := 2) (by decide) wide
    omega
  simp only [BitVec.toNat_or, BitVec.toNat_shiftLeft, BitVec.toNat_setWidth]
  rw [Nat.mod_eq_of_lt fits, Nat.shiftLeft_eq, Nat.mod_eq_of_lt (by omega), ← Nat.shiftLeft_eq,
    ← Nat.shiftLeft_add_eq_or_of_lt (by omega), Nat.shiftLeft_eq]

theorem toNat_assemble (b0 b1 b2 b3 : Byte) :
    (assemble b0 b1 b2 b3).toNat = BigEndian.number [b0, b1, b2, b3] := by
  have d0 := b0.isLt
  have d1 := b1.isLt
  have d2 := b2.isLt
  have start : (b0.setWidth 32).toNat = b0.toNat := by
    rw [BitVec.toNat_setWidth, Nat.mod_eq_of_lt (by omega)]
  have first := shift_or 32 (b0.setWidth 32) b1 (by rw [start]; omega) (by decide)
  rw [start] at first
  have second := shift_or 32 (b0.setWidth 32 <<< 8 ||| b1.setWidth 32) b2
    (by rw [first]; omega) (by decide)
  rw [first] at second
  have third := shift_or 32 ((b0.setWidth 32 <<< 8 ||| b1.setWidth 32) <<< 8 ||| b2.setWidth 32) b3
    (by rw [second]; omega) (by decide)
  rw [assemble, third, second]
  simp only [BigEndian.number, List.foldl_cons, List.foldl_nil, Nat.zero_mul, Nat.zero_add]

theorem length_two {l : List Byte} (length : l.length = 2) : ∃ b0 b1, l = [b0, b1] := by
  match l, length with
  | [b0, b1], _ => exact ⟨b0, b1, rfl⟩

theorem length_four {l : List Byte} (length : l.length = 4) :
    ∃ b0 b1 b2 b3, l = [b0, b1, b2, b3] := by
  match l, length with
  | [b0, b1, b2, b3], _ => exact ⟨b0, b1, b2, b3, rfl⟩

theorem length_eight {l : List Byte} (length : l.length = 8) :
    ∃ b0 b1 b2 b3 b4 b5 b6 b7, l = [b0, b1, b2, b3, b4, b5, b6, b7] := by
  match l, length with
  | [b0, b1, b2, b3, b4, b5, b6, b7], _ => exact ⟨b0, b1, b2, b3, b4, b5, b6, b7, rfl⟩

theorem toNat_pair (b0 b1 : Byte) :
    (b0.setWidth 16 <<< 8 ||| b1.setWidth 16).toNat = BigEndian.number [b0, b1] := by
  have d0 := b0.isLt
  have start : (b0.setWidth 16).toNat = b0.toNat := by
    rw [BitVec.toNat_setWidth, Nat.mod_eq_of_lt (by omega)]
  rw [shift_or 16 (b0.setWidth 16) b1 (by rw [start]; omega) (by decide), start]
  simp only [BigEndian.number, List.foldl_cons, List.foldl_nil, Nat.zero_mul, Nat.zero_add]

theorem readUshort_of_has (has : f.Has 2) :
    readUshort f = (some (BitVec.ofNat 16 (BigEndian.number (f.ahead 2))), f.seekCur 2) := by
  obtain ⟨b0, b1, ahead⟩ := length_two (FILE.length_ahead has)
  rw [readUshort, FILE.fread_of_has has, ahead]
  simp only [Prod.mk.injEq, Option.some.injEq, and_true]
  rw [← toNat_pair, BitVec.ofNat_toNat, BitVec.setWidth_eq]

theorem readUint_of_has (has : f.Has 4) :
    readUint f = (some (BitVec.ofNat 32 (BigEndian.number (f.ahead 4))), f.seekCur 4) := by
  obtain ⟨b0, b1, b2, b3, ahead⟩ := length_four (FILE.length_ahead has)
  rw [readUint, FILE.fread_of_has has, ahead]
  simp only [Prod.mk.injEq, Option.some.injEq, and_true]
  rw [← toNat_assemble, BitVec.ofNat_toNat, BitVec.setWidth_eq]

/-- What `readUlong` makes of eight bytes. -/
def spread (bytes : List Byte) : BitVec 64 :=
  ((readUlong ⟨bytes, 0, fun _ => 0, 0⟩).1).getD 0

theorem readUlong_of_has (has : f.Has 8) :
    readUlong f = (some (spread (f.ahead 8)), f.seekCur 8) := by
  obtain ⟨b0, b1, b2, b3, b4, b5, b6, b7, ahead⟩ := length_eight (FILE.length_ahead has)
  rw [readUlong, FILE.fread_of_has has, ahead]
  rfl

theorem readUshort_of_short (short : ¬ f.Has 2) :
    readUshort f = (none, { f with pos := max f.pos f.bytes.length }) := by
  obtain ⟨length, left⟩ := FILE.fread_of_short (by decide) short
  rw [readUshort]
  split
  · rename_i b0 b1 _ got
    rw [got] at length
    exact absurd length (lt_irrefl _)
  · rename_i got
    simp only [got] at left
    rw [left]

theorem readUint_of_short (short : ¬ f.Has 4) :
    readUint f = (none, { f with pos := max f.pos f.bytes.length }) := by
  obtain ⟨length, left⟩ := FILE.fread_of_short (by decide) short
  rw [readUint]
  split
  · rename_i got
    rw [got] at length
    exact absurd length (lt_irrefl _)
  · rename_i got
    simp only [got] at left
    rw [left]

theorem readUlong_of_short (short : ¬ f.Has 8) :
    readUlong f = (none, { f with pos := max f.pos f.bytes.length }) := by
  obtain ⟨length, left⟩ := FILE.fread_of_short (by decide) short
  rw [readUlong]
  split
  · rename_i got
    rw [got] at length
    exact absurd length (lt_irrefl _)
  · rename_i got
    simp only [got] at left
    rw [left]

theorem toNat_signExtend_shift (high : BitVec 32) :
    (high.signExtend 64 <<< 32).toNat = high.toNat * 2 ^ 32 := by
  have bound := high.isLt
  rw [BitVec.toNat_shiftLeft, BitVec.toNat_signExtend, BitVec.toNat_setWidth, Nat.shiftLeft_eq]
  split <;> omega

/-- The three middle bytes, which the sign extension leaves alone. -/
theorem toNat_middle (b4 b5 b6 : Byte) :
    (((b4.setWidth 32 <<< 8 ||| b5.setWidth 32) <<< 8 ||| b6.setWidth 32).signExtend 64).toNat =
      BigEndian.number [b4, b5, b6] := by
  have value : ((b4.setWidth 32 <<< 8 ||| b5.setWidth 32) <<< 8 ||| b6.setWidth 32).toNat =
      BigEndian.number [b4, b5, b6] := by
    have value := toNat_assemble 0 b4 b5 b6
    simpa [assemble, BigEndian.number] using value
  have bound := BigEndian.number_lt [b4, b5, b6]
  simp only [List.length_cons, List.length_nil] at bound
  rw [BitVec.signExtend_eq_setWidth_of_msb_false, BitVec.toNat_setWidth, value]
  · omega
  · rw [BitVec.msb_eq_false_iff_two_mul_lt]
    omega

/-- Of the upper four bytes the first is lost and a zero comes in at the end. -/
theorem spread_eq (b0 b1 b2 b3 b4 b5 b6 b7 : Byte) :
    spread [b0, b1, b2, b3, b4, b5, b6, b7] =
      BitVec.ofNat 64 (BigEndian.number [b1, b2, b3, 0, b4, b5, b6, b7]) := by
  have high := BigEndian.number_append [b0, b1, b2, b3] [b4, b5, b6]
  have upper := BigEndian.number_append [b0] [b1, b2, b3]
  have kept := BigEndian.number_append [b1, b2, b3, 0] [b4, b5, b6, b7]
  have shifted := BigEndian.number_append [b1, b2, b3] [0]
  have lower := BigEndian.number_append [b4, b5, b6] [b7]
  have zero : BigEndian.number [0] = 0 := rfl
  have single : BigEndian.number [b7] = b7.toNat := by
    simp only [BigEndian.number, List.foldl_cons, List.foldl_nil, Nat.zero_mul, Nat.zero_add]
  have three := BigEndian.number_lt [b1, b2, b3]
  have middle := BigEndian.number_lt [b4, b5, b6]
  simp only [List.cons_append, List.nil_append, List.length_cons, List.length_nil] at *
  have digit := b7.isLt
  have sum : ((assemble b0 b1 b2 b3).signExtend 64 <<< 32 + ((b4.setWidth 32 <<< 8 |||
      b5.setWidth 32) <<< 8 ||| b6.setWidth 32).signExtend 64).toNat =
      (BigEndian.number [b0, b1, b2, b3] * 2 ^ 32 + BigEndian.number [b4, b5, b6]) % 2 ^ 64 := by
    rw [BitVec.toNat_add, toNat_signExtend_shift, toNat_middle, toNat_assemble]
  -- shifting once more drops the first byte
  have dropped : ((assemble b0 b1 b2 b3).signExtend 64 <<< 32 + ((b4.setWidth 32 <<< 8 |||
      b5.setWidth 32) <<< 8 ||| b6.setWidth 32).signExtend 64) <<< 8 =
      BitVec.ofNat 64 (BigEndian.number [b1, b2, b3] * 2 ^ 32 + BigEndian.number [b4, b5, b6]) <<<
        8 := by
    apply BitVec.eq_of_toNat_eq
    rw [BitVec.toNat_shiftLeft, BitVec.toNat_shiftLeft, sum, BitVec.toNat_ofNat, Nat.shiftLeft_eq,
      Nat.shiftLeft_eq]
    omega
  have room : (BitVec.ofNat 64 (BigEndian.number [b1, b2, b3] * 2 ^ 32 +
      BigEndian.number [b4, b5, b6])).toNat =
      BigEndian.number [b1, b2, b3] * 2 ^ 32 + BigEndian.number [b4, b5, b6] := by
    rw [BitVec.toNat_ofNat]
    omega
  apply BitVec.eq_of_toNat_eq
  simp only [spread, readUlong, FILE.fread, List.drop_zero, List.take_succ_cons, List.take_zero,
    Option.getD_some, dropped]
  rw [shift_or _ _ _ (by rw [room]; omega) (by decide), room, BitVec.toNat_ofNat, kept, shifted,
    lower, zero, single]
  omega

/-- Eight bytes are put together wrongly, but not when the upper four are zero. -/
theorem spread_of_small {bytes : List Byte} (length : bytes.length = 8)
    (small : BigEndian.number bytes < 2 ^ 32) :
    spread bytes = BitVec.ofNat 64 (BigEndian.number bytes) := by
  obtain ⟨b0, b1, b2, b3, b4, b5, b6, b7, rfl⟩ := length_eight length
  have split := BigEndian.number_append [b0, b1, b2, b3] [b4, b5, b6, b7]
  simp only [List.cons_append, List.nil_append, List.length_cons, List.length_nil] at split
  have zero : [b0, b1, b2, b3] = [0, 0, 0, 0] := by
    apply BigEndian.number_injective
    · rfl
    · change BigEndian.number [b0, b1, b2, b3] = 0
      omega
  simp only [List.cons.injEq, and_true] at zero
  obtain ⟨rfl, rfl, rfl, rfl⟩ := zero
  exact spread_eq 0 0 0 0 b4 b5 b6 b7

/-- The lower four are put together rightly in any case. -/
theorem spread_setWidth {bytes : List Byte} (length : bytes.length = 8) :
    (spread bytes).setWidth 32 = BitVec.ofNat 32 (BigEndian.number bytes) := by
  obtain ⟨b0, b1, b2, b3, b4, b5, b6, b7, rfl⟩ := length_eight length
  have kept := BigEndian.number_append [b1, b2, b3, 0] [b4, b5, b6, b7]
  have split := BigEndian.number_append [b0, b1, b2, b3] [b4, b5, b6, b7]
  simp only [List.cons_append, List.nil_append, List.length_cons, List.length_nil] at kept split
  rw [spread_eq, BitVec.setWidth_ofNat_of_le (by decide)]
  apply BitVec.eq_of_toNat_eq
  rw [BitVec.toNat_ofNat, BitVec.toNat_ofNat, kept, split]
  omega

/-- Where a read of `n` bytes leaves the file. -/
def FILE.past (f : FILE) (n : Nat) : Nat :=
  if f.pos + n ≤ f.bytes.length then f.pos + n else max f.pos f.bytes.length

theorem FILE.past_of_has {n : Nat} (has : f.Has n) : f.past n = f.pos + n := if_pos has

theorem FILE.past_of_short {n : Nat} (short : ¬ f.Has n) : f.past n = max f.pos f.bytes.length :=
  if_neg short

@[simp] theorem getc_file : f.getc.2 = { f with pos := f.past 1 } := by
  by_cases has : f.Has 1
  · obtain ⟨b, read, _⟩ := FILE.getc_of_has has
    rw [read, FILE.past_of_has has]
  · rw [FILE.getc_of_end has, FILE.past_of_short has]
    rw [FILE.Has] at has
    rw [max_eq_left (by omega)]

@[simp] theorem readUshort_file : (readUshort f).2 = { f with pos := f.past 2 } := by
  by_cases has : f.Has 2
  · rw [readUshort_of_has has, FILE.past_of_has has, FILE.seekCur]
  · rw [readUshort_of_short has, FILE.past_of_short has]

@[simp] theorem readUint_file : (readUint f).2 = { f with pos := f.past 4 } := by
  by_cases has : f.Has 4
  · rw [readUint_of_has has, FILE.past_of_has has, FILE.seekCur]
  · rw [readUint_of_short has, FILE.past_of_short has]

@[simp] theorem readUlong_file : (readUlong f).2 = { f with pos := f.past 8 } := by
  by_cases has : f.Has 8
  · rw [readUlong_of_has has, FILE.past_of_has has, FILE.seekCur]
  · rw [readUlong_of_short has, FILE.past_of_short has]

@[simp] theorem readUshortLocal_file :
    (readUshortLocal f).2 = { f with pos := f.past 2, reads := f.reads + 1 } := by
  change (readUshort f).2.used = _
  rw [readUshort_file, FILE.used]

@[simp] theorem readUintLocal_file :
    (readUintLocal f).2 = { f with pos := f.past 4, reads := f.reads + 1 } := by
  change (readUint f).2.used = _
  rw [readUint_file, FILE.used]

@[simp] theorem readIdentOver_file (identsz : IdentSize) (old : BitVec 64) :
    (readIdentOver identsz old f).2 = { f with pos := f.past identsz.size } := by
  cases identsz
  · rw [readIdentOver, readUint_file]
    rfl
  · rw [readIdentOver, readUlong_file]
    rfl

@[simp] theorem readIdent_file (identsz : IdentSize) :
    (readIdent identsz f).2 = { f with pos := f.past identsz.size, reads := f.reads + 1 } := by
  change (readIdentOver identsz f.old f).2.used = _
  rw [readIdentOver_file, FILE.used]

/-- What `readIdent` makes of the bytes of an identifier. -/
def identOf (identsz : IdentSize) (bytes : List Byte) : BitVec 64 :=
  match identsz with
  | .four => BitVec.ofNat 64 (BigEndian.number bytes)
  | .eight => spread bytes

theorem readIdentOver_of_has {identsz : IdentSize} (old : BitVec 64) (has : f.Has identsz.size) :
    (readIdentOver identsz old f).1 = identOf identsz (f.ahead identsz.size) := by
  cases identsz
  · have bound := BigEndian.number_lt (f.ahead 4)
    have length : (f.ahead 4).length = 4 := FILE.length_ahead has
    rw [length] at bound
    simp only [readIdentOver, readUint_of_has has, Option.getD_some, identOf, IdentSize.size]
    apply BitVec.eq_of_toNat_eq
    simp only [BitVec.toNat_setWidth, BitVec.toNat_ofNat]
    omega
  · simp only [readIdentOver, readUlong_of_has has, Option.getD_some, identOf, IdentSize.size]

theorem readIdent_of_has {identsz : IdentSize} (has : f.Has identsz.size) :
    (readIdent identsz f).1 = identOf identsz (f.ahead identsz.size) :=
  readIdentOver_of_has f.old has

end Readers

end Phat
