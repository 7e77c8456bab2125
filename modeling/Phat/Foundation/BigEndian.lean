import Mathlib.Data.BitVec
import Mathlib.Tactic.Ring

/-! Big-endian positional numbers over bytes. Widths are list lengths, so the
same facts serve every field size of a binary format. -/
namespace Phat.BigEndian

/-- The number a byte string spells, most significant byte first. -/
def number (bytes : List (BitVec 8)) : Nat :=
  bytes.foldl (fun acc b => acc * 256 + b.toNat) 0

/-- The last `width` base-256 digits of a number. -/
def digits : Nat → Nat → List (BitVec 8)
  | 0, _ => []
  | width + 1, n => digits width (n / 256) ++ [BitVec.ofNat 8 n]

@[simp] theorem number_nil : number [] = 0 := rfl

theorem number_concat (bytes : List (BitVec 8)) (last : BitVec 8) :
    number (bytes ++ [last]) = number bytes * 256 + last.toNat := by
  simp only [number, List.foldl_append, List.foldl_cons, List.foldl_nil]

theorem number_append (high low : List (BitVec 8)) :
    number (high ++ low) = number high * 256 ^ low.length + number low := by
  induction low using List.reverseRecOn with
  | nil => simp
  | append_singleton low last ih =>
    rw [← List.append_assoc, number_concat, ih, number_concat, List.length_append,
      List.length_singleton, pow_succ]
    ring

theorem number_lt (bytes : List (BitVec 8)) : number bytes < 256 ^ bytes.length := by
  induction bytes using List.reverseRecOn with
  | nil => simp
  | append_singleton bytes last ih =>
    have digit := last.isLt
    rw [number_concat, List.length_append, List.length_singleton, pow_succ]
    omega

/-- A width and a number determine the bytes. -/
theorem number_injective {xs ys : List (BitVec 8)} (length : xs.length = ys.length)
    (same : number xs = number ys) : xs = ys := by
  induction xs using List.reverseRecOn generalizing ys with
  | nil => exact (List.length_eq_zero_iff.mp length.symm).symm
  | append_singleton xs x ih =>
    rw [List.length_append, List.length_singleton] at length
    rcases List.eq_nil_or_concat' ys with rfl | ⟨ys, y, rfl⟩
    · simp at length
    · rw [List.length_append, List.length_singleton] at length
      rw [number_concat, number_concat] at same
      have digit := x.isLt
      have digit' := y.isLt
      have last : x = y := BitVec.eq_of_toNat_eq (by omega)
      have front : xs = ys := by
        apply ih <;> omega
      rw [front, last]

@[simp] theorem length_digits (width n : Nat) : (digits width n).length = width := by
  induction width generalizing n with
  | zero => rfl
  | succ width ih => simp only [digits, List.length_append, ih, List.length_singleton]

theorem number_digits (width n : Nat) : number (digits width n) = n % 256 ^ width := by
  induction width generalizing n with
  | zero => simp [digits, Nat.mod_one]
  | succ width ih =>
    have split : n % (256 * 256 ^ width) = n % 256 + 256 * (n / 256 % 256 ^ width) :=
      Nat.mod_mul
    rw [digits, number_concat, ih, BitVec.toNat_ofNat, pow_succ' 256 width, split]
    omega

end Phat.BigEndian
