import Mathlib.Data.List.TakeWhile
import Phat.Machine
import Phat.Header
import Phat.Span

/-! The buffer of `readVersion`: where its loop stores, where `strcmp` looks afterwards, and
the streams on which both keep to the bytes that are there. -/
namespace Phat

/-- The stores of the loop, with room for `n` more bytes behind the `len` in `sb`. -/
def versionStores : Nat → Nat → FILE → List (Nat × Byte)
  | 0, len, _ => [(1 + len, 0)]
  | n + 1, len, f =>
    let (ch, f) := f.getc
    if ch = EOF then []
    else if uchar ch = 0 then [(len, 0)]
    else (len, uchar ch) :: versionStores n (len + 1) f

/-- The places where `strcmp` looks, from place `i` of `sb` on. -/
def strcmpReads (i : Nat) : List Byte → CString → List Nat
  | b :: sb, c :: text => i :: if b = c then strcmpReads (i + 1) sb text else []
  | _, _ => [i]

/-- The comparisons up to the first text that is equal. -/
def versionReads (sb : List Byte) : List (CString × Nat) → List Nat
  | [] => []
  | (text, _) :: texts =>
    strcmpReads 0 sb text ++ if sb.takeWhile (· ≠ 0) = text then [] else versionReads sb texts

/-- Where the comparisons of `readVersion` look. -/
def comparedPlaces (memory : List Byte) (f : FILE) : List Nat :=
  let (sb, _) := versionBytes 39 f
  if sb = [] then [] else versionReads (sb ++ memory) versionTexts

/-- The header is read within the buffer, and it tells the version. -/
structure VersionRead (memory : List Byte) (f : FILE) : Prop where
  stores : ∀ store ∈ versionStores 39 0 f, store.1 < 40
  reads : ∀ i ∈ comparedPlaces memory f, i ∈ (versionStores 39 0 f).map Prod.fst
  returns : ∀ entry ∈ versionTexts,
    ((readVersion memory f).1 = some entry.2 ↔ entry.1 ++ [0] <+: f.rest)
  leaves : ∀ entry ∈ versionTexts, (readVersion memory f).1 = some entry.2 →
    Reads f (readVersion memory f).2 (entry.1.length + 1)
  otherwise : (∀ entry ∈ versionTexts, ¬ entry.1 ++ [0] <+: f.rest) →
    (readVersion memory f).1 = none

/-- A zero in the first 39 bytes, or fewer bytes that no version begins with. -/
def Delimited (rest : List Byte) : Prop :=
  0 ∈ rest.take 39 ∨
    (rest.length < 39 ∧ (rest = [] ∨ ∀ entry ∈ versionTexts, ¬ rest <+: entry.1))

section Loop
variable {f : FILE} {n : Nat}

/-- The text in front of the first zero, and the zero. -/
theorem versionBytes_text (n : Nat) (f : FILE) :
    (versionBytes n f).1 = (f.rest.take n).takeWhile (· ≠ 0) ++
        (if 0 ∈ f.rest.take n then [0] else []) ∧
      Reads f (versionBytes n f).2 (versionBytes n f).1.length := by
  induction n generalizing f with
  | zero => exact ⟨by simp [versionBytes], .refl f⟩
  | succ n ih =>
    cases rest : f.rest with
    | nil =>
      rw [versionBytes]
      simp only [FILE.getc_of_end (FILE.short_of_rest rest), if_true]
      exact ⟨rfl, .refl f⟩
    | cons b tail =>
      obtain ⟨value, reads⟩ := getc_of_rest rest
      have later : f.getc.2.rest = tail := by rw [reads.rest, rest, List.drop_one, List.tail_cons]
      have some : ¬ (b.toNat : Int) = EOF := fun ended => uchar_ne_EOF b ended.symm
      obtain ⟨bytes, past⟩ := @ih f.getc.2
      rw [later] at bytes
      rw [versionBytes]
      simp only [value, some, if_false, uchar_toNat]
      by_cases zero : b = 0
      · subst zero
        simp only [if_true]
        exact ⟨by simp, reads⟩
      · simp only [zero, if_false]
        refine ⟨?_, ?_⟩
        · have first : ¬ b = 0#8 := zero
          have back : ¬ 0#8 = b := fun same => first same.symm
          rw [bytes]
          simp [first, back]
        · rw [List.length_cons, Nat.add_comm]
          exact reads.trans past

/-- Each byte is stored behind the one before it; a zero comes behind them, and not next to
them, if the room is used up. -/
theorem versionStores_eq (n len : Nat) (f : FILE) :
    versionStores n len f = ((versionBytes n f).1.zipIdx len).map Prod.swap ++
      (if 0 ∉ f.rest.take n ∧ n ≤ f.rest.length then [(1 + len + n, 0)] else []) := by
  induction n generalizing f len with
  | zero => simp [versionStores, versionBytes]
  | succ n ih =>
    cases rest : f.rest with
    | nil =>
      simp [versionStores, versionBytes, FILE.getc_of_end (FILE.short_of_rest rest)]
    | cons b tail =>
      obtain ⟨value, reads⟩ := getc_of_rest rest
      have later : f.getc.2.rest = tail := by rw [reads.rest, rest, List.drop_one, List.tail_cons]
      have some : ¬ (b.toNat : Int) = EOF := fun ended => uchar_ne_EOF b ended.symm
      have stores := @ih (len + 1) f.getc.2
      rw [later] at stores
      rw [versionStores, versionBytes]
      simp only [value, some, if_false, uchar_toNat]
      by_cases zero : b = 0
      · subst zero
        simp
      · have back : ¬ 0#8 = b := fun same => zero same.symm
        have place : 1 + (len + 1) + n = 1 + len + (n + 1) := by omega
        simp only [zero, if_false, stores, place]
        simp [back]

/-- Unless the room is used up, the places stored at are those of the bytes read. -/
theorem versionStores_places (kept : 0 ∈ f.rest.take n ∨ f.rest.length < n) :
    (versionStores n 0 f).map Prod.fst = List.range' 0 (versionBytes n f).1.length := by
  have room : ¬ (0 ∉ f.rest.take n ∧ n ≤ f.rest.length) := by
    rintro ⟨none, full⟩
    rcases kept with zero | short
    · exact none zero
    · omega
  rw [versionStores_eq, if_neg room, List.append_nil, List.map_map]
  exact List.zipIdx_map_snd 0 _

end Loop

section Comparison
variable {memory sb text more : List Byte} {i : Nat} {texts : List (CString × Nat)}

/-- A zero in the first string stops the comparison. -/
theorem strcmpReads_zero {t : CString} (nonzero : ∀ c ∈ t, c ≠ 0) :
    ∀ j ∈ strcmpReads i (text ++ 0 :: more) t, j ≤ i + text.length := by
  induction text generalizing i t with
  | nil =>
    cases t with
    | nil => simp [strcmpReads]
    | cons c t =>
      have other : ¬ 0#8 = c := fun same => nonzero c List.mem_cons_self same.symm
      simp [strcmpReads, other]
  | cons b text ih =>
    cases t with
    | nil => simp [strcmpReads]
    | cons c t =>
      intro j member
      rw [List.cons_append, strcmpReads, List.mem_cons] at member
      rw [List.length_cons]
      rcases member with rfl | member
      · omega
      · split at member
        · have bound := @ih (i + 1) t (fun c member => nonzero c (.tail _ member)) j member
          omega
        · cases member

/-- So does a byte that differs. -/
theorem strcmpReads_differ {t : CString} (differ : ¬ sb <+: t) :
    ∀ j ∈ strcmpReads i (sb ++ memory) t, j < i + sb.length := by
  induction sb generalizing i t with
  | nil => exact absurd List.nil_prefix differ
  | cons b sb ih =>
    cases t with
    | nil => simp [strcmpReads]
    | cons c t =>
      intro j member
      rw [List.cons_append, strcmpReads, List.mem_cons] at member
      rw [List.length_cons]
      rcases member with rfl | member
      · omega
      · split at member
        · rename_i same
          subst same
          have bound := @ih (i + 1) t (fun tail => differ (List.cons_prefix_cons.mpr ⟨rfl, tail⟩))
            j member
          omega
        · cases member

/-- A string that the text begins with is followed past its last byte. -/
theorem strcmpReads_start {t : CString} (starts : sb <+: t) :
    i + sb.length ∈ strcmpReads i (sb ++ memory) t := by
  induction sb generalizing i t with
  | nil => cases memory <;> cases t <;> simp [strcmpReads]
  | cons b sb ih =>
    cases t with
    | nil => exact absurd starts (by simp)
    | cons c t =>
      obtain ⟨same, tail⟩ := List.cons_prefix_cons.mp starts
      have later := @ih (i + 1) t tail
      rw [List.cons_append, strcmpReads, if_pos same, List.length_cons]
      have place : i + (sb.length + 1) = i + 1 + sb.length := by omega
      rw [place]
      exact .tail _ later

theorem versionReads_mem {j : Nat} (member : j ∈ versionReads sb texts) :
    ∃ entry ∈ texts, j ∈ strcmpReads 0 sb entry.1 := by
  induction texts with
  | nil => cases member
  | cons entry texts ih =>
    rw [versionReads, List.mem_append] at member
    rcases member with here | later
    · exact ⟨entry, List.mem_cons_self, here⟩
    · split at later
      · cases later
      · obtain ⟨other, among, read⟩ := ih later
        exact ⟨other, .tail _ among, read⟩

/-- What is in memory behind a string without a zero only makes it longer. -/
theorem prefix_takeWhile (nonzero : ∀ b ∈ sb, b ≠ 0) (memory : List Byte) :
    sb <+: (sb ++ memory).takeWhile (· ≠ 0) := by
  rw [List.takeWhile_append_of_pos (by simpa using nonzero)]
  exact List.prefix_append _ _

/-- If one of the texts begins with the string, the comparisons go past its last byte. -/
theorem versionReads_prefix (nonzero : ∀ b ∈ sb, b ≠ 0)
    (starts : ∃ entry ∈ texts, sb <+: entry.1) : sb.length ∈ versionReads (sb ++ memory) texts := by
  induction texts with
  | nil => simp at starts
  | cons entry texts ih =>
    rw [versionReads, List.mem_append]
    by_cases here : sb <+: entry.1
    · have past := @strcmpReads_start memory sb 0 _ here
      rw [Nat.zero_add] at past
      exact .inl past
    · have unequal : ¬ (sb ++ memory).takeWhile (· ≠ 0) = entry.1 := by
        intro same
        exact here (same ▸ prefix_takeWhile nonzero memory)
      have later : ∃ other ∈ texts, sb <+: other.1 := by
        obtain ⟨other, member, starts⟩ := starts
        rcases List.mem_cons.mp member with rfl | member
        · exact absurd starts here
        · exact ⟨other, member, starts⟩
      rw [if_neg unequal]
      exact .inr (ih later)

end Comparison

section Version
variable {memory : List Byte} {f : FILE} {entry : CString × Nat}

theorem versionTexts_lookup (text : CString) (member : entry ∈ versionTexts) :
    versionTexts.lookup text = some entry.2 ↔ text = entry.1 := by
  have apart : ∀ entry ∈ versionTexts, ∀ other ∈ versionTexts,
      entry.2 = other.2 → entry.1 = other.1 := by decide
  constructor
  · intro found
    obtain ⟨before, after, layout, _⟩ := List.lookup_eq_some_iff.mp found
    have other : (text, entry.2) ∈ versionTexts := by
      rw [layout]
      exact List.mem_append_right _ List.mem_cons_self
    exact apart _ other _ member rfl
  · rintro rfl
    exact versionTexts_lookup_self entry member

theorem versionTexts_lookup_none {text : CString}
    (other : ∀ entry ∈ versionTexts, text ≠ entry.1) : versionTexts.lookup text = none := by
  rw [List.lookup_eq_none_iff]
  intro entry member
  simpa using other entry member

/-- A version is told apart by what stands in front of the first zero. -/
theorem prefix_zero_iff {text more : List Byte} {t : CString} (nonzero : ∀ b ∈ text, b ≠ 0)
    (ascii : ∀ b ∈ t, b ≠ 0) : t ++ [0] <+: text ++ 0 :: more ↔ text = t := by
  have first : ∀ {s tail : List Byte}, (∀ b ∈ s, b ≠ 0) →
      (s ++ 0 :: tail).takeWhile (· ≠ 0) = s := by
    intro s tail nonzero
    rw [List.takeWhile_append_of_pos (by simpa using nonzero)]
    simp
  constructor
  · rintro ⟨tail, whole⟩
    rw [List.append_assoc, List.singleton_append] at whole
    rw [← @first text more nonzero, ← whole, first ascii]
  · rintro rfl
    exact ⟨more, by simp⟩

/-- The text in front of the first zero of so many bytes. -/
theorem exists_text {rest : List Byte} {n : Nat} (zero : 0 ∈ rest.take n) :
    ∃ text more, rest = text ++ 0 :: more ∧ (∀ b ∈ text, b ≠ 0) ∧ text.length < n ∧
      (rest.take n).takeWhile (· ≠ 0) = text := by
  obtain ⟨text, more, split, first⟩ := List.eq_append_cons_of_mem zero
  have nonzero : ∀ b ∈ text, b ≠ 0 := by
    rintro b member rfl
    exact first member
  refine ⟨text, more ++ rest.drop n, ?_, nonzero, ?_, ?_⟩
  · rw [← List.cons_append, ← List.append_assoc, ← split, List.take_append_drop]
  · have length := congrArg List.length split
    rw [List.length_take, List.length_append, List.length_cons] at length
    omega
  · rw [split, List.takeWhile_append_of_pos (by simpa using nonzero)]
    simp

/-- The buffer is kept if there are few enough bytes and no comparison goes past them. -/
theorem buffer_kept (kept : 0 ∈ f.rest.take 39 ∨ f.rest.length < 39)
    (bound : (versionBytes 39 f).1.length < 40)
    (within : ∀ i ∈ comparedPlaces memory f, i < (versionBytes 39 f).1.length) :
    (∀ store ∈ versionStores 39 0 f, store.1 < 40) ∧
      ∀ i ∈ comparedPlaces memory f, i ∈ (versionStores 39 0 f).map Prod.fst := by
  have places := versionStores_places kept
  constructor
  · intro store member
    have place := List.mem_map_of_mem (f := Prod.fst) member
    rw [places, List.mem_range'_1] at place
    omega
  · intro i read
    rw [places, List.mem_range'_1]
    have small := within i read
    omega

theorem versionRead_of_zero (zero : 0 ∈ f.rest.take 39) : VersionRead memory f := by
  obtain ⟨text, more, rest, nonzero, short, front⟩ := exists_text zero
  obtain ⟨bytes, past⟩ := versionBytes_text 39 f
  rw [front, if_pos zero] at bytes
  have length : (versionBytes 39 f).1.length = text.length + 1 := by
    rw [bytes, List.length_append, List.length_singleton]
  have some : ¬ text ++ [0] = [] := by simp
  have ended : (text ++ [0] ++ memory).takeWhile (· ≠ 0) = text := by
    rw [List.append_assoc, List.takeWhile_append_of_pos (by simpa using nonzero)]
    simp
  have result : (readVersion memory f).1 = versionTexts.lookup text := by
    rw [readVersion]
    simp only [bytes, some, if_false, ended]
  have within : ∀ i ∈ comparedPlaces memory f, i < (versionBytes 39 f).1.length := by
    intro i read
    rw [comparedPlaces] at read
    simp only [bytes, some, if_false, List.append_assoc, List.singleton_append] at read
    obtain ⟨entry, member, read⟩ := versionReads_mem read
    have bound := strcmpReads_zero (versionTexts_nonzero entry member) i read
    omega
  obtain ⟨stores, reads⟩ := buffer_kept (.inl zero) (by omega) within
  refine ⟨stores, reads, ?_, ?_, ?_⟩
  · intro entry member
    rw [result, rest, versionTexts_lookup text member,
      prefix_zero_iff nonzero (versionTexts_nonzero entry member)]
  · intro entry member told
    rw [result, versionTexts_lookup text member] at told
    rw [length] at past
    rw [← told]
    exact past
  · intro none
    rw [result]
    apply versionTexts_lookup_none
    rintro entry member rfl
    apply none entry member
    rw [rest]
    exact ⟨more, by simp⟩

/-- Of a stream that ends before a zero all is read. -/
theorem versionBytes_short (none : 0 ∉ f.rest.take 39) (short : f.rest.length < 39) :
    (versionBytes 39 f).1 = f.rest ∧ ∀ b ∈ f.rest, b ≠ 0 := by
  have whole : f.rest.take 39 = f.rest := List.take_of_length_le (by omega)
  rw [whole] at none
  have nonzero : ∀ b ∈ f.rest, b ≠ 0 := by
    rintro b member rfl
    exact none member
  refine ⟨?_, nonzero⟩
  rw [(versionBytes_text 39 f).1, whole, if_neg none, List.append_nil, List.takeWhile_eq_self_iff]
  simpa using nonzero

theorem versionRead_of_short (none : 0 ∉ f.rest.take 39) (short : f.rest.length < 39)
    (differ : f.rest = [] ∨ ∀ entry ∈ versionTexts, ¬ f.rest <+: entry.1) :
    VersionRead memory f := by
  obtain ⟨bytes, nonzero⟩ := versionBytes_short none short
  have other : f.rest ≠ [] →
      ∀ entry ∈ versionTexts, (f.rest ++ memory).takeWhile (· ≠ 0) ≠ entry.1 := by
    intro some entry member same
    rcases differ with empty | differ
    · exact some empty
    · exact differ entry member (same ▸ prefix_takeWhile nonzero memory)
  have result : (readVersion memory f).1 = Option.none := by
    rw [readVersion]
    simp only [bytes]
    split
    · rfl
    · rename_i some
      exact versionTexts_lookup_none (other some)
  have within : ∀ i ∈ comparedPlaces memory f, i < (versionBytes 39 f).1.length := by
    intro i read
    rw [comparedPlaces] at read
    simp only [bytes] at read ⊢
    split at read
    · cases read
    · rename_i some
      obtain ⟨entry, member, read⟩ := versionReads_mem read
      have bound := strcmpReads_differ ((differ.resolve_left some) entry member) i read
      omega
  obtain ⟨stores, reads⟩ := @buffer_kept memory f (.inr short) (by rw [bytes]; omega) within
  refine ⟨stores, reads, ?_, ?_, fun _ => result⟩
  · intro entry member
    rw [result]
    constructor
    · intro told
      cases told
    · rintro ⟨more, rest⟩
      exact absurd rfl (nonzero 0 (by rw [← rest]; simp))
  · intro entry _ told
    rw [result] at told
    cases told

/-- A stream whose first 39 bytes have no zero is stored past the buffer, and one that ends
within a version is compared past its end. -/
theorem delimited_of_versionRead (read : VersionRead memory f) : Delimited f.rest := by
  by_cases zero : 0 ∈ f.rest.take 39
  · exact .inl zero
  right
  have short : f.rest.length < 39 := by
    by_contra full
    have past : (40, 0) ∈ versionStores 39 0 f := by
      rw [versionStores_eq, if_pos ⟨zero, by omega⟩]
      simp
    exact absurd (read.stores _ past) (by decide)
  refine ⟨short, ?_⟩
  by_contra bad
  rw [not_or] at bad
  obtain ⟨some, starts⟩ := bad
  obtain ⟨bytes, nonzero⟩ := versionBytes_short zero short
  have compared : f.rest.length ∈ comparedPlaces memory f := by
    rw [comparedPlaces]
    simp only [bytes, some, if_false]
    apply versionReads_prefix nonzero
    by_contra none
    exact starts fun entry member begins => none ⟨entry, member, begins⟩
  have stored := read.reads _ compared
  rw [versionStores_places (.inr short), bytes, List.mem_range'_1] at stored
  omega

/-- Whatever the buffer holds at first, the header is read within it, and tells the version,
just when the stream is delimited. -/
theorem version_read (memory : List Byte) (f : FILE) :
    VersionRead memory f ↔ Delimited f.rest := by
  constructor
  · exact delimited_of_versionRead
  · rintro (zero | ⟨short, differ⟩)
    · exact versionRead_of_zero zero
    · by_cases zero : 0 ∈ f.rest.take 39
      · exact versionRead_of_zero zero
      · exact versionRead_of_short zero short differ

/-- A long text without a zero. -/
def unendedHeader : FILE := ⟨List.replicate 50 (chr 'A'), 0, fun _ => 0, 0⟩

/-- The zero behind it is stored one byte behind the buffer. -/
theorem unendedHeader_overrun : ¬ VersionRead [] unendedHeader := by
  intro read
  have past : (40, 0) ∈ versionStores 39 0 unendedHeader := by decide +kernel
  exact absurd (read.stores _ past) (by decide)

end Version

end Phat
