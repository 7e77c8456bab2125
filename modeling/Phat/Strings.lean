import Phat.Dump
import Phat.Counting

/-! The buffer of an `HPROF_UTF8` record, what is stored in it, and the string that is
recorded. -/
namespace Phat

/-- The size of the buffer, if `talloc_zero_array` grants it. -/
def utf8Size (identsz : IdentSize) (rlen : BitVec 32) : Option Nat :=
  if maxCount 1 ≤ (utf8Count identsz rlen).toNat then none
  else some (utf8Count identsz rlen).toNat

/-- What `fread` may store: `slen` as a `size_t`. -/
def utf8Limit (identsz : IdentSize) (rlen : BitVec 32) : Nat :=
  ((utf8Len identsz rlen).signExtend 64).toNat

/-- The buffer with `data` at its front. -/
def utf8Buffer (size : Nat) (data : List Byte) : List Byte :=
  data ++ List.replicate (size - data.length) 0

/-- `hideSpecials` in place; none if it runs off the end. -/
def hideScan : List Byte → Option (List Byte)
  | [] => none
  | b :: sb =>
    if b = 0 then some (b :: sb)
    else (hideScan sb).map fun rest => (if special b then chr '.' else b) :: rest

/-- The text of the record up to its first zero. -/
def utf8Text (jf : Jdump) (rlen : BitVec 32) : CString :=
  ((readIdent jf.identsz jf.fin).2.rest.take (rlen.toNat - jf.identsz.size)).takeWhile (· ≠ 0)

/-- Only control bytes are hidden. -/
def legible (text : CString) : CString := text.map fun b => if b.toNat < 0x20 then chr '.' else b

/-- The record is read within its buffer, and the text in it is recorded. -/
structure Utf8Recorded (jf : Jdump) (rlen : BitVec 32) : Prop where
  room : ∃ size, utf8Size jf.identsz rlen = some size ∧ utf8Limit jf.identsz rlen + 1 ≤ size
  scan : ∀ size, utf8Size jf.identsz rlen = some size →
    ∃ usb, hideScan (utf8Buffer size ((readIdent jf.identsz jf.fin).2.fread
        (utf8Limit jf.identsz rlen)).1) = some usb ∧
      usb.takeWhile (· ≠ 0) = legible (utf8Text jf rlen)
  recorded : ∃ jf', readUtf8 jf rlen = .ok jf' ∧
    jf'.sbTable.lookup32 (key (readIdent jf.identsz jf.fin).1) =
      some (legible (utf8Text jf rlen))

/-- The record is long enough for its identifier and not too long for a buffer, and its
text is ASCII. -/
structure Plain (jf : Jdump) (rlen : BitVec 32) : Prop where
  ident : jf.identsz.size ≤ rlen.toNat
  small : rlen.toNat - jf.identsz.size + 1 < maxCount 1
  ascii : ∀ b ∈ utf8Text jf rlen, b.toNat < 0x80

section Strings
variable {jf : Jdump} {rlen : BitVec 32} {identsz : IdentSize} {text : CString}

theorem special_iff (b : Byte) : special b = true ↔ b.toNat < 0x20 ∨ 0x80 ≤ b.toNat := by
  have newline : (chr '\n').toNat = 10 := by decide
  have feed : (chr '\r').toNat = 13 := by decide
  have bound := b.isLt
  rw [special, decide_eq_true_iff, ← BitVec.toNat_inj, ← BitVec.toNat_inj, newline, feed,
    BitVec.toInt_eq_toNat_cond]
  split <;> omega

/-- A text is recorded as it is just when all of its bytes are ASCII. -/
theorem hideSpecials_eq_legible : hideSpecials text = legible text ↔ ∀ b ∈ text, b.toNat < 0x80 := by
  rw [hideSpecials, legible, List.map_inj_left]
  have dot : (chr '.').toNat = 0x2e := by decide
  constructor
  · intro same b member
    by_contra high
    have changed := same b member
    rw [if_pos ((special_iff b).mpr (by omega)), if_neg (by omega)] at changed
    rw [← changed] at high
    omega
  · intro ascii b member
    have low := ascii b member
    by_cases control : b.toNat < 0x20
    · rw [if_pos ((special_iff b).mpr (.inl control)), if_pos control]
    · rw [if_neg, if_neg control]
      rw [special_iff]
      omega

/-- With a zero in the buffer the scan ends there, and nothing behind it is touched. -/
theorem hideScan_of_zero {sb : List Byte} (zero : 0 ∈ sb) :
    ∃ usb, hideScan sb = some usb ∧
      usb.takeWhile (· ≠ 0) = hideSpecials (sb.takeWhile (· ≠ 0)) := by
  induction sb with
  | nil => cases zero
  | cons b sb ih =>
    by_cases here : b = 0
    · subst here
      exact ⟨0 :: sb, by rw [hideScan, if_pos rfl], by simp [hideSpecials]⟩
    · obtain ⟨usb, scanned, text⟩ := ih ((List.mem_cons.mp zero).resolve_left (Ne.symm here))
      refine ⟨(if special b then chr '.' else b) :: usb, ?_, ?_⟩
      · rw [hideScan, if_neg here, scanned, Option.map_some]
      · have shown : (if special b then chr '.' else b) ≠ 0 := by
          split
          · decide
          · exact here
        rw [List.takeWhile_cons_of_pos (by simpa using shown),
          List.takeWhile_cons_of_pos (by simpa using here), text]
        rfl

theorem utf8Buffer_text {size : Nat} {data : List Byte} (more : data.length < size) :
    0 ∈ utf8Buffer size data ∧
      (utf8Buffer size data).takeWhile (· ≠ 0) = data.takeWhile (· ≠ 0) := by
  obtain ⟨k, rest⟩ : ∃ k, size - data.length = k + 1 := ⟨size - data.length - 1, by omega⟩
  rw [utf8Buffer, rest, List.replicate_succ]
  refine ⟨by simp, ?_⟩
  rw [List.takeWhile_append]
  split
  · rename_i all
    rw [List.takeWhile_cons_of_neg (by simp), List.append_nil]
    exact ((List.takeWhile_prefix _).eq_of_length all).symm
  · rfl

/-- A negative `slen` is a huge `size_t`. -/
theorem utf8Limit_eq (identsz : IdentSize) (rlen : BitVec 32) :
    utf8Limit identsz rlen = (utf8Len identsz rlen).toNat +
      if (utf8Len identsz rlen).toNat < 2 ^ 31 then 0 else 2 ^ 64 - 2 ^ 32 := by
  have bound := (utf8Len identsz rlen).isLt
  rw [utf8Limit, BitVec.toNat_signExtend, BitVec.toNat_setWidth, Nat.mod_eq_of_lt (by omega),
    BitVec.msb_eq_decide]
  simp only [decide_eq_true_eq]
  split <;> split <;> omega

/-- The buffer has room for what `fread` may store and a zero just when it is granted and
the identifier fits in the record. -/
theorem utf8_room : (∃ size, utf8Size identsz rlen = some size ∧ utf8Limit identsz rlen + 1 ≤ size) ↔
    identsz.size ≤ rlen.toNat ∧ rlen.toNat - identsz.size + 1 < maxCount 1 := by
  have width := identsz.width_toNat
  have small : identsz.size < 9 := by cases identsz <;> decide
  have granted : maxCount 1 = 0x7FFFFFFF := by decide
  have bound := rlen.isLt
  have length : (utf8Len identsz rlen).toNat = (rlen.toNat + (2 ^ 32 - identsz.size)) % 2 ^ 32 := by
    rw [utf8Len, BitVec.toNat_sub, width, Nat.add_comm]
  have count : (utf8Count identsz rlen).toNat =
      (1 + rlen.toNat + (2 ^ 32 - identsz.size)) % 2 ^ 32 := by
    rw [utf8Count, BitVec.toNat_sub, BitVec.toNat_add, width]
    have one : (1 : BitVec 32).toNat = 1 := rfl
    omega
  rw [utf8Size, utf8Limit_eq, length, count, granted]
  constructor
  · rintro ⟨size, alloc, room⟩
    split at alloc
    · cases alloc
    · cases alloc
      split at room <;> omega
  · rintro ⟨ident, few⟩
    refine ⟨_, if_neg (by omega), ?_⟩
    rw [if_pos (by omega)]
    omega

/-- What `readUtf8` records when the buffer is big enough. -/
theorem readUtf8_text (ident : jf.identsz.size ≤ rlen.toNat)
    (few : rlen.toNat - jf.identsz.size + 1 < maxCount 1) :
    (∃ jf', readUtf8 jf rlen = .ok jf' ∧
      jf'.sbTable.lookup32 (key (readIdent jf.identsz jf.fin).1) =
        some (hideSpecials (utf8Text jf rlen))) ∧
    ∀ size, utf8Size jf.identsz rlen = some size →
      ∃ usb, hideScan (utf8Buffer size ((readIdent jf.identsz jf.fin).2.fread
        (utf8Limit jf.identsz rlen)).1) = some usb ∧
        usb.takeWhile (· ≠ 0) = hideSpecials (utf8Text jf rlen) := by
  have room := utf8_room.mpr ⟨ident, few⟩
  obtain ⟨size, alloc, room⟩ := room
  have granted : maxCount 1 = 0x7FFFFFFF := by decide
  have bound := rlen.isLt
  have width := jf.identsz.width_toNat
  have wide : jf.identsz.size < 9 := by cases jf.identsz <;> decide
  have length : (utf8Len jf.identsz rlen).toNat = rlen.toNat - jf.identsz.size := by
    rw [utf8Len, BitVec.toNat_sub, width]
    omega
  have limit : utf8Limit jf.identsz rlen = rlen.toNat - jf.identsz.size := by
    rw [utf8Limit_eq, length, if_pos (by omega), Nat.add_zero]
  constructor
  · have allowed : ¬ (maxCount 1 ≤ (utf8Count jf.identsz rlen).toNat ∨
        (utf8Len jf.identsz rlen).toInt < 0) := by
      rw [utf8Size] at alloc
      split at alloc
      · cases alloc
      · rename_i fits
        rw [BitVec.toInt_eq_toNat_cond, length]
        split <;> omega
    rw [readUtf8]
    simp only [if_neg allowed, length]
    exact ⟨_, rfl, Table.lookup32_insert32_self _ _ _⟩
  · intro other alloc'
    rw [alloc] at alloc'
    cases alloc'
    rw [limit] at room ⊢
    have few : ((readIdent jf.identsz jf.fin).2.fread (rlen.toNat - jf.identsz.size)).1.length <
        size := by
      have taken := List.length_take_le (rlen.toNat - jf.identsz.size)
        (readIdent jf.identsz jf.fin).2.rest
      exact Nat.lt_of_le_of_lt taken (by omega)
    obtain ⟨zero, text⟩ := utf8Buffer_text few
    obtain ⟨usb, scanned, shown⟩ := hideScan_of_zero zero
    exact ⟨usb, scanned, by rw [shown, text]; rfl⟩

/-- A record is read within its buffer, with its text unchanged but for control bytes, just
when it is plain. -/
theorem utf8_recorded (jf : Jdump) (rlen : BitVec 32) : Utf8Recorded jf rlen ↔ Plain jf rlen := by
  constructor
  · intro record
    obtain ⟨ident, few⟩ := utf8_room.mp record.room
    obtain ⟨⟨jf', run, found⟩, _⟩ := readUtf8_text ident few
    obtain ⟨jf'', run', found'⟩ := record.recorded
    rw [run] at run'
    cases run'
    rw [found, Option.some.injEq] at found'
    exact ⟨ident, few, hideSpecials_eq_legible.mp found'⟩
  · intro plain
    obtain ⟨recorded, scan⟩ := readUtf8_text plain.ident plain.small
    rw [hideSpecials_eq_legible.mpr plain.ascii] at recorded scan
    exact ⟨utf8_room.mpr ⟨plain.ident, plain.small⟩, scan, recorded⟩

/-- A string of one letter beyond ASCII, in UTF-8. -/
def accented : Jdump := .start [0, 0, 0, 1, 0xC3, 0xA9] .four none

/-- Two dots are recorded for it. -/
theorem accented_hidden : ¬ Utf8Recorded accented 6 := by
  intro record
  have run : ∀ jf', readUtf8 accented 6 = .ok jf' →
      jf'.sbTable.lookup32 1 = some [chr '.', chr '.'] := by
    intro jf' run
    cases run
    decide +kernel
  obtain ⟨jf', read, found⟩ := record.recorded
  have ident : key (readIdent accented.identsz accented.fin).1 = 1 := by decide +kernel
  have kept : legible (utf8Text accented 6) = [0xC3, 0xA9] := by decide +kernel
  rw [ident, run jf' read, kept] at found
  exact absurd found (by decide)

end Strings

end Phat
