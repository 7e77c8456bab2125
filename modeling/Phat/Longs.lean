import Phat.Decoding
import Phat.Header

/-! Eight bytes as one number. The upper half is shifted eight places too far, so a number
is decoded to itself exactly when it fits in the lower half. -/
namespace Phat

/-- The upper four of eight bytes are zero. -/
def Narrow (bytes : List Byte) : Prop := bytes.take 4 = [0, 0, 0, 0]

/-- The number the next eight bytes spell. -/
def FILE.wide (f : FILE) : BitVec 64 := BitVec.ofNat 64 (BigEndian.number (f.ahead 8))

section Spread
variable {xs ys : List Byte}

theorem number_wide {bytes : List Byte} (length : bytes.length = 8) :
    (BitVec.ofNat 64 (BigEndian.number bytes)).toNat = BigEndian.number bytes := by
  have bound := BigEndian.number_lt bytes
  rw [length] at bound
  rw [BitVec.toNat_ofNat]
  omega

/-- Equal numbers have equal bytes. -/
theorem wide_injective (length : xs.length = 8) (length' : ys.length = 8)
    (same : BitVec.ofNat 64 (BigEndian.number xs) = BitVec.ofNat 64 (BigEndian.number ys)) :
    xs = ys := by
  apply BigEndian.number_injective
  · rw [length, length']
  · rw [← number_wide length, ← number_wide length', same]

theorem spread_eq_iff (length : xs.length = 8) :
    spread xs = BitVec.ofNat 64 (BigEndian.number xs) ↔ Narrow xs := by
  obtain ⟨b0, b1, b2, b3, b4, b5, b6, b7, rfl⟩ := length_eight length
  rw [spread_eq, Narrow]
  simp only [List.take_succ_cons, List.take_zero, List.cons.injEq, and_true]
  constructor
  · intro same
    have bytes := wide_injective rfl rfl same
    simp only [List.cons.injEq, and_true] at bytes
    obtain ⟨first, second, third, fourth⟩ := bytes
    subst fourth third second first
    exact ⟨rfl, rfl, rfl, rfl⟩
  · rintro ⟨rfl, rfl, rfl, rfl⟩
    rfl

/-- The first byte is all that is lost. -/
theorem spread_inj_iff (length : xs.length = 8) (length' : ys.length = 8) :
    spread xs = spread ys ↔ xs.drop 1 = ys.drop 1 := by
  obtain ⟨a0, a1, a2, a3, a4, a5, a6, a7, rfl⟩ := length_eight length
  obtain ⟨b0, b1, b2, b3, b4, b5, b6, b7, rfl⟩ := length_eight length'
  rw [spread_eq, spread_eq]
  simp only [List.drop_succ_cons, List.drop_zero]
  constructor
  · intro same
    have bytes := wide_injective rfl rfl same
    simp only [List.cons.injEq, and_true, true_and] at bytes ⊢
    exact bytes
  · intro rest
    simp only [List.cons.injEq, and_true] at rest
    obtain ⟨rfl, rfl, rfl, rfl, rfl, rfl, rfl⟩ := rest
    rfl

theorem Narrow.eq_of_drop (narrow : Narrow xs) (narrow' : Narrow ys)
    (rest : xs.drop 1 = ys.drop 1) : xs = ys := by
  cases xs with
  | nil => cases narrow
  | cons x xs =>
    cases ys with
    | nil => cases narrow'
    | cons y ys =>
      simp only [Narrow, List.take_succ_cons, List.cons.injEq] at narrow narrow'
      rw [narrow.1, narrow'.1]
      exact congrArg _ rest

end Spread

/-- Whatever reads the next eight bytes as one number gets the number they spell: an
identifier, a long static with the type byte before it, a long field at its place in a
body, the date of a header. -/
structure LongDecoded (f : FILE) : Prop where
  ulong : (readUlong f).1 = some f.wide
  ident : (readIdent .eight f).1 = f.wide
  static : ∀ fVersion identsz (g : FILE), g.getc.2 = f →
    typeSig fVersion (uchar g.getc.1) = chr 'J' →
    (readValue fVersion identsz g).1.hvalue = .j f.wide
  field : ∀ (jf : Jdump) o i, jf.fin.seekSet f.pos = f →
    (readField jf o i (chr 'J') f.pos).stored = some (.j f.wide)
  date : ∀ sb file header, readHeader sb file = .ok (header, f.seekCur 8) → header.date = f.wide

section Readers
variable {f g : FILE}

theorem seekCur_injective {n : Nat} (same : f.seekCur n = g.seekCur n) : f = g := by
  obtain ⟨bytes, pos, stale, reads⟩ := f
  obtain ⟨bytes', pos', stale', reads'⟩ := g
  simp only [FILE.seekCur, FILE.mk.injEq] at same ⊢
  obtain ⟨bytes, pos, rest⟩ := same
  exact ⟨bytes, by omega, rest⟩

/-- The date is made of the last eight bytes of the header. -/
theorem readHeader_date {sb : List Byte} {file : FILE} {header : Header}
    (read : readHeader sb file = .ok (header, g)) :
    ∃ f : FILE, f.Has 8 ∧ g = f.seekCur 8 ∧ header.date = spread (f.ahead 8) := by
  unfold readHeader at read
  split at read
  · cases read
  · split at read
    · cases read
    · split at read
      · cases read
      · split at read
        · cases read
        · split at read
          · cases read
          · split at read
            · cases read
            · rename_i f _ _ _ _ _ date f' last
              cases read
              by_cases has : FILE.Has f 8
              · rw [readUlong_of_has has] at last
                cases last
                exact ⟨f, has, rfl, rfl⟩
              · rw [readUlong_of_short has] at last
                cases last

theorem readIdent_eight (has : f.Has 8) : (readIdent .eight f).1 = spread (f.ahead 8) :=
  @readIdent_of_has f .eight has

theorem LongDecoded.of_narrow (has : f.Has 8) (narrow : Narrow (f.ahead 8)) : LongDecoded f := by
  have right : spread (f.ahead 8) = f.wide := (spread_eq_iff (FILE.length_ahead has)).mpr narrow
  constructor
  · rw [readUlong_of_has has, right]
  · rw [readIdent_eight has, right]
  · intro fVersion identsz g after type
    have value := @readTyped_value identsz f (chr 'J') has
    change (readTyped identsz (typeSig fVersion (uchar g.getc.1)) g.getc.2).1.hvalue = _
    rw [type, after, value]
    exact congrArg Hvalue.j right
  · intro jf o i here
    have value : (readField jf o i (chr 'J') f.pos).stored =
        ((readUlong (jf.fin.seekSet f.pos)).1).map .j := rfl
    rw [value, here, readUlong_of_has has, right]
    rfl
  · intro sb file header read
    obtain ⟨f', _, same, date⟩ := readHeader_date read
    rw [date, ← seekCur_injective same, right]

theorem longs_decoded_iff (f : FILE) (has : f.Has 8) :
    (LongDecoded f ↔ Narrow (f.ahead 8)) ∧
    (∀ g : FILE, g.Has 8 → ((readIdent .eight f).1 = (readIdent .eight g).1 ↔
      (f.ahead 8).drop 1 = (g.ahead 8).drop 1)) ∧
    (∀ g : FILE, g.Has 8 → Narrow (f.ahead 8) → Narrow (g.ahead 8) →
      (readIdent .eight f).1 = (readIdent .eight g).1 → f.ahead 8 = g.ahead 8) := by
  have told : ∀ g : FILE, g.Has 8 → ((readIdent .eight f).1 = (readIdent .eight g).1 ↔
      (f.ahead 8).drop 1 = (g.ahead 8).drop 1) := by
    intro g has'
    rw [readIdent_eight has, readIdent_eight has']
    exact spread_inj_iff (FILE.length_ahead has) (FILE.length_ahead has')
  refine ⟨⟨fun decoded => ?_, .of_narrow has⟩, told, ?_⟩
  · have ulong := decoded.ulong
    rw [readUlong_of_has has, Option.some.injEq] at ulong
    exact (spread_eq_iff (FILE.length_ahead has)).mp ulong
  · intro g has' narrow narrow' same
    exact narrow.eq_of_drop narrow' ((told g has').mp same)

/-- Eight bytes in memory. -/
def sampleWord (bytes : List Byte) : FILE := ⟨bytes, 0, fun _ => 0, 0⟩

theorem longs_decoded_iff_sample :
    LongDecoded (sampleWord [0, 0, 0, 0, 1, 2, 3, 4]) ∧
      (readIdent .eight (sampleWord [0, 0, 0, 0, 1, 2, 3, 4])).1 =
        (readIdent .eight (sampleWord [9, 0, 0, 0, 1, 2, 3, 4])).1 := by
  obtain ⟨decoded, told, _⟩ := longs_decoded_iff (sampleWord [0, 0, 0, 0, 1, 2, 3, 4]) (Nat.le_refl 8)
  exact ⟨decoded.mpr rfl, (told (sampleWord [9, 0, 0, 0, 1, 2, 3, 4]) (Nat.le_refl 8)).mpr rfl⟩

/-- The number 2 ^ 32 becomes 2 ^ 40. -/
theorem long_misread : (readUlong (sampleWord [0, 0, 0, 1, 0, 0, 0, 0])).1 ≠
    some (sampleWord [0, 0, 0, 1, 0, 0, 0, 0]).wide := by
  decide +kernel

end Readers

end Phat
