import Mathlib.Data.BitVec
import Phat.Forward

/-! The loop of `readHeap` ends. While there are bytes left each pass reads one at least;
behind the last byte each pass takes the same odd number off `hsize`, and every count is a
multiple of it modulo 2^32. -/
namespace Phat

/-- The bytes of the file ahead of the position. -/
def FILE.unread (f : FILE) : Nat := f.bytes.length - f.pos

/-- What a pass takes off `hsize` when the file has ended: the tag and the identifier of an
unknown root. -/
def IdentSize.lap : IdentSize → BitVec 32
  | .four => 5
  | .eight => 9

/-- The inverse of `lap` modulo 2^32. -/
def IdentSize.inverse : IdentSize → BitVec 32
  | .four => 0xCCCCCCCD
  | .eight => 0x38E38E39

/-- The passes it takes from a count down to zero, behind the end of the file. -/
def laps (identsz : IdentSize) (left : BitVec 32) : BitVec 32 := left * identsz.inverse

section Laps
variable {identsz : IdentSize} {left : BitVec 32}

theorem laps_mul (identsz : IdentSize) (left : BitVec 32) : laps identsz left * identsz.lap = left := by
  have unit : identsz.inverse * identsz.lap = 1#32 := by cases identsz <;> decide
  rw [laps, BitVec.mul_assoc, unit, BitVec.mul_one]

/-- No count but zero is no passes away. -/
theorem laps_ne_zero (some : left ≠ 0) : laps identsz left ≠ 0 := by
  intro none
  apply some
  rw [← laps_mul identsz left, none, zero_mul]

theorem laps_sub (identsz : IdentSize) (left : BitVec 32) :
    laps identsz (left - identsz.lap) = laps identsz left - 1 := by
  have unit : identsz.lap * identsz.inverse = 1 := by cases identsz <;> decide
  rw [laps, laps, sub_mul, unit]

/-- Each pass brings the end nearer. -/
theorem laps_toNat (some : left ≠ 0) :
    (laps identsz (left - identsz.lap)).toNat + 1 = (laps identsz left).toNat := by
  have more := @laps_ne_zero identsz _ some
  rw [laps_sub]
  bv_omega

end Laps

section Ending
variable {jf jf' : Jdump} {hsize hsize' : Count} {sum sum' : Summary} {fuel : Nat}

theorem retained_error {c : ClassRef} {classId : BitVec 64} {stop : Stop}
    (error : retained jf c classId = .error stop) : stop = .null := by
  rw [retained] at error
  split at error
  · cases error
  · split at error
    · cases error
      rfl
    · cases error

theorem readClass_error {stop : Stop} (error : readClass jf hsize = .error stop) :
    stop = .null := by
  rw [readClass] at error
  simp only at error
  split at error
  · cases error
    rfl
  · cases error

theorem readInstance_error {stop : Stop} (error : readInstance jf hsize = .error stop) :
    stop = .null := by
  rw [readInstance] at error
  simp only at error
  split at error
  · cases error
    rfl
  · split at error
    · rename_i retention
      cases error
      exact retained_error retention
    · cases error

theorem readArray_error {prim : Bool} {stop : Stop} (error : readArray jf hsize prim = .error stop) :
    stop = .null ∨ stop = .nomem := by
  rw [readArray] at error
  simp only at error
  split at error
  · cases error
  · split at error
    · cases error
      exact .inl rfl
    · split at error
      · cases error
        exact .inl rfl
      · split at error
        · cases error
          exact .inr rfl
        · cases error

/-- A NULL class stops the program, or there is no room for its name; nothing else does in the
switch. -/
theorem heapCase_error {rtype : Byte} {stop : Stop}
    (error : heapCase rtype jf hsize sum = .error stop) : stop = .null ∨ stop = .nomem := by
  rw [heapCase] at error
  split at error
  · cases error
  · split at error
    · exact .inl (readClass_error (map_error error))
    · exact .inl (readInstance_error (map_error error))
    · exact readArray_error (map_error error)
    · exact readArray_error (map_error error)
    · cases error

/-- Behind the last byte `getc` gives the tag of an unknown root for ever. -/
theorem heapPass_ended (ended : ¬ jf.fin.Has 1)
    (pass : heapPass jf hsize sum = .ok (jf', hsize', sum')) :
    hsize'.left = hsize.left - jf.identsz.lap := by
  simp only [heapPass, Jdump.note, FILE.getc_of_end ended, uchar_EOF, heapStep] at pass
  have root : heapCase 255#8 { jf with log := .sub jf.fin.pos hsize.left :: jf.log } (hsize.sub 1)
      sum = .ok ((readRoot rootUnknown { jf with log := .sub jf.fin.pos hsize.left :: jf.log }
        (hsize.sub 1)).1, (readRoot rootUnknown { jf with log := .sub jf.fin.pos hsize.left :: jf.log }
          (hsize.sub 1)).2, sum) := rfl
  rw [root] at pass
  cases pass
  have lap : ∀ identsz : IdentSize, hsize.left - 1 - (1 * identsz.width + 0) =
      hsize.left - identsz.lap := by
    intro identsz
    cases identsz with
    | four =>
      simp only [IdentSize.width, IdentSize.size, IdentSize.lap]
      bv_omega
    | eight =>
      simp only [IdentSize.width, IdentSize.size, IdentSize.lap]
      bv_omega
  exact lap jf.identsz

theorem heapPass_stays (pass : heapPass jf hsize sum = .ok (jf', hsize', sum')) :
    jf'.identsz = jf.identsz ∧ jf'.fin.bytes = jf.fin.bytes ∧ jf.fin.pos ≤ jf'.fin.pos ∧
      (jf.fin.Has 1 → jf.fin.pos < jf'.fin.pos) := by
  obtain ⟨⟨⟨bytes, pos⟩, _⟩, further⟩ := heapPass_forward pass
  exact ⟨(heapPass_changes pass).identsz, bytes, pos, further⟩

/-- The passes that are left at most. -/
def passesLeft (jf : Jdump) (hsize : Count) : Nat :=
  if jf.fin.unread = 0 then (laps jf.identsz hsize.left).toNat else jf.fin.unread + 2 ^ 32

theorem heapPass_passesLeft (more : hsize.left ≠ 0)
    (pass : heapPass jf hsize sum = .ok (jf', hsize', sum')) :
    passesLeft jf' hsize' < passesLeft jf hsize := by
  obtain ⟨identsz, bytes, pos, further⟩ := heapPass_stays pass
  by_cases has : jf.fin.Has 1
  · have later := further has
    have bound := (laps jf'.identsz hsize'.left).isLt
    have fewer : jf'.fin.unread < jf.fin.unread := by
      rw [FILE.Has] at has
      rw [FILE.unread, FILE.unread, bytes]
      omega
    rw [passesLeft, passesLeft, if_neg (Nat.ne_zero_of_lt fewer)]
    split <;> omega
  · have ended : jf.fin.unread = 0 := by
      rw [FILE.Has] at has
      rw [FILE.unread]
      omega
    have still : jf'.fin.unread = 0 := by
      rw [FILE.unread] at ended ⊢
      rw [bytes]
      omega
    rw [passesLeft, passesLeft, if_pos ended, if_pos still, identsz, heapPass_ended has pass]
    have lap := @laps_toNat jf.identsz _ more
    omega

/-- The loop ends, or a NULL stops the program. -/
theorem heapLoop_ends (enough : passesLeft jf hsize ≤ fuel) :
    (∃ result, heapLoop fuel jf hsize sum = .ok result) ∨
      heapLoop fuel jf hsize sum = .error .null ∨ heapLoop fuel jf hsize sum = .error .nomem := by
  induction fuel generalizing jf hsize sum with
  | zero =>
    have done : hsize.left = 0 := by
      by_contra more
      have lap := @laps_toNat jf.identsz _ more
      rw [passesLeft] at enough
      split at enough <;> omega
    exact .inl ⟨_, heapLoop_zero _ _ _ done⟩
  | succ fuel ih =>
    by_cases empty : hsize.left = 0
    · exact .inl ⟨_, heapLoop_zero _ _ _ empty⟩
    · cases pass : heapPass jf hsize sum with
      | error stop =>
        rcases heapCase_error pass with rfl | rfl
        · exact .inr (.inl (heapLoop_error _ empty pass))
        · exact .inr (.inr (heapLoop_error _ empty pass))
      | ok result =>
        obtain ⟨jf', hsize', sum'⟩ := result
        rw [heapLoop_ok _ empty pass]
        have nearer := heapPass_passesLeft empty pass
        exact ih (by omega)

theorem passesLeft_le (jf : Jdump) (hsize : Count) :
    passesLeft jf hsize ≤ jf.fin.unread + 2 ^ 32 := by
  have bound := (laps jf.identsz hsize.left).isLt
  rw [passesLeft]
  split <;> omega

end Ending

/-- From any state, with any `hsize`, so many passes are enough for the rest of the file
and the count that is left then. -/
theorem segment_ends (jf : Jdump) (hsize : BitVec 32) :
    ∃ passes ≤ jf.fin.unread + 2 ^ 32, ∀ fuel, passes ≤ fuel →
      (∃ result, readSegment fuel jf hsize = .ok result) ∨
        readSegment fuel jf hsize = .error .null ∨ readSegment fuel jf hsize = .error .nomem :=
  ⟨_, passesLeft_le { jf with javaLangString := jf.findClass javaLangStringName } ⟨hsize, false⟩,
    fun _ enough => heapLoop_ends enough⟩

end Phat
