import Phat.Layout
import Phat.Heap

/-! How many bytes a heap sub-record occupies by the format, read off the bytes alone,
and what the readers consume of them. Nothing here depends on the tables. -/
namespace Phat

/-- The bytes from the current position on. -/
def FILE.rest (f : FILE) : List Byte := f.bytes.drop f.pos

/-- `f'` is `f` after `n` bytes. -/
structure Reads (f f' : FILE) (n : Nat) : Prop where
  bytes : f'.bytes = f.bytes
  pos : f'.pos = f.pos + n

/-- The length of a piece of a sub-record. It is sound if `readClass` counts it as it
reads it. -/
structure Span where
  length : Nat
  sound : Bool
deriving DecidableEq

/-- A piece of `n` bytes, if there are so many. -/
def whole (rest : List Byte) (n : Nat) : Option Span :=
  if n ≤ rest.length then some ⟨n, true⟩ else none

def numberAt (width : Nat) (rest : List Byte) : Option Nat :=
  if width ≤ rest.length then some (BigEndian.number (rest.take width)) else none

def typeSig (fVersion : Nat) (type : Byte) : Byte :=
  if 1 ≤ fVersion then sigFromType type else type

/-- `readValue` returns -1 for the others. -/
def legal (sig : Byte) (value : List Byte) : Bool :=
  sig ≠ chr 'Z' ∨ value.head? = some 0 ∨ value.head? = some 1

/-- A type byte and a value of that type. -/
def valueSpan (fVersion : Nat) (identsz : IdentSize) : List Byte → Option Span
  | [] => none
  | type :: value =>
    let size := fieldSize identsz (typeSig fVersion type)
    if size ≤ value.length then some ⟨1 + size, legal (typeSig fVersion type) value⟩ else none

/-- Entries of `skip` bytes and a value each. -/
def entriesSpan (fVersion : Nat) (identsz : IdentSize) (skip : Nat) :
    Nat → List Byte → Option Span
  | 0, _ => some ⟨0, true⟩
  | n + 1, rest =>
    match valueSpan fVersion identsz (rest.drop skip) with
    | none => none
    | some value =>
      match entriesSpan fVersion identsz skip n (rest.drop (skip + value.length)) with
      | none => none
      | some tail => some ⟨skip + value.length + tail.length, value.sound && tail.sound⟩

/-- The lists of a class dump. `readClass` does not count the type bytes of the constant
pool. -/
def listsSpan (fVersion : Nat) (identsz : IdentSize) (rest : List Byte) : Option Span := do
  let cpool ← numberAt 2 rest
  let pool ← entriesSpan fVersion identsz 2 cpool (rest.drop 2)
  let rest := rest.drop (2 + pool.length)
  let cstats ← numberAt 2 rest
  let statics ← entriesSpan fVersion identsz identsz.size cstats (rest.drop 2)
  let rest := rest.drop (2 + statics.length)
  let cfields ← numberAt 2 rest
  let fields ← whole rest (2 + cfields * (identsz.size + 1))
  some ⟨2 + pool.length + (2 + statics.length) + fields.length, cpool = 0 && statics.sound⟩

def classSpan (fVersion : Nat) (identsz : IdentSize) (rest : List Byte) : Option Span := do
  let lists ← listsSpan fVersion identsz (rest.drop (7 * identsz.size + 8))
  some ⟨7 * identsz.size + 8 + lists.length, lists.sound⟩

def instanceSpan (identsz : IdentSize) (rest : List Byte) : Option Span := do
  let isz ← numberAt 4 (rest.drop (2 * identsz.size + 4))
  whole rest (2 * identsz.size + 8 + isz)

/-- A primitive array of unknown element type is read as an object array. -/
def elementWidth (identsz : IdentSize) (type : Byte) : Nat :=
  match primType (type.setWidth 64) with
  | some (_, elsz) => elsz
  | none => identsz.size

def primArraySpan (identsz : IdentSize) (rest : List Byte) : Option Span := do
  let isz ← numberAt 4 (rest.drop (identsz.size + 4))
  let type ← (rest.drop (identsz.size + 8)).head?
  whole rest (identsz.size + 9 + elementWidth identsz type * isz)

def objArraySpan (identsz : IdentSize) (rest : List Byte) : Option Span := do
  let isz ← numberAt 4 (rest.drop (identsz.size + 4))
  whole rest (2 * identsz.size + 8 + identsz.size * isz)

/-- The sub-record with tag `rtype` before `rest`, without the tag; none for an unknown
tag or where the file ends too early. -/
def span (fVersion : Nat) (identsz : IdentSize) (rtype : Byte) (rest : List Byte) : Option Span :=
  match rootKind rtype with
  | some kind => whole rest (kind.idents * identsz.size + 4 * kind.words)
  | none =>
    match rtype.toNat with
    | 0x20 => classSpan fVersion identsz rest
    | 0x21 => instanceSpan identsz rest
    | 0x22 => objArraySpan identsz rest
    | 0x23 => primArraySpan identsz rest
    | _ => none

def knownTag (rtype : Byte) : Bool :=
  (rootKind rtype).isSome || (0x20 ≤ rtype.toNat && rtype.toNat ≤ 0x23)

section Reads
variable {f f' f'' : FILE} {n m : Nat} {identsz : IdentSize}

theorem Reads.trans (first : Reads f f' n) (second : Reads f' f'' m) : Reads f f'' (n + m) := by
  constructor
  · rw [second.bytes, first.bytes]
  · rw [second.pos, first.pos, Nat.add_assoc]

theorem Reads.rest (reads : Reads f f' n) : f'.rest = f.rest.drop n := by
  rw [FILE.rest, FILE.rest, reads.bytes, reads.pos, List.drop_drop]

theorem FILE.has_of_rest (some : 0 < n) (fits : n ≤ f.rest.length) : f.Has n := by
  rw [FILE.rest, List.length_drop] at fits
  rw [FILE.Has]
  omega

theorem FILE.short_of_rest (rest : f.rest = []) : ¬ f.Has 1 := by
  rw [FILE.rest, List.drop_eq_nil_iff] at rest
  rw [FILE.Has]
  omega

theorem IdentSize.size_pos (identsz : IdentSize) : 0 < identsz.size := by
  cases identsz <;> decide

theorem readIdent_reads (fits : identsz.size ≤ f.rest.length) :
    Reads f (readIdent identsz f).2 identsz.size := by
  rw [readIdent_file, FILE.past_of_has (FILE.has_of_rest identsz.size_pos fits)]
  exact ⟨rfl, rfl⟩

theorem readUintLocal_reads (fits : 4 ≤ f.rest.length) : Reads f (readUintLocal f).2 4 := by
  rw [readUintLocal_file, FILE.past_of_has (FILE.has_of_rest (by decide) fits)]
  exact ⟨rfl, rfl⟩

theorem readUshortLocal_reads (fits : 2 ≤ f.rest.length) : Reads f (readUshortLocal f).2 2 := by
  rw [readUshortLocal_file, FILE.past_of_has (FILE.has_of_rest (by decide) fits)]
  exact ⟨rfl, rfl⟩

theorem readUlong_reads (fits : 8 ≤ f.rest.length) : Reads f (readUlong f).2.used 8 := by
  rw [readUlong_file, FILE.past_of_has (FILE.has_of_rest (by decide) fits)]
  exact ⟨rfl, rfl⟩

theorem getc_of_rest {b : Byte} {tail : List Byte} (rest : f.rest = b :: tail) :
    f.getc.1 = (b.toNat : Int) ∧ Reads f f.getc.2 1 := by
  have has : f.Has 1 := FILE.has_of_rest (by decide) (by rw [rest]; simp)
  obtain ⟨b', read, ahead⟩ := FILE.getc_of_has has
  have same : f.rest.take 1 = [b'] := ahead
  rw [rest, List.take_succ_cons, List.take_zero, List.cons.injEq] at same
  rw [read, same.1]
  exact ⟨rfl, rfl, rfl⟩

theorem Reads.refl (f : FILE) : Reads f f 0 := ⟨rfl, rfl⟩

theorem numberAt_fits {width k : Nat} {rest : List Byte} (parse : numberAt width rest = some k) :
    width ≤ rest.length ∧ k = BigEndian.number (rest.take width) := by
  rw [numberAt] at parse
  split at parse
  · rename_i fits
    cases parse
    exact ⟨fits, rfl⟩
  · cases parse

theorem number_take_lt {width : Nat} {rest : List Byte} (fits : width ≤ rest.length) :
    BigEndian.number (rest.take width) < 256 ^ width := by
  have bound := BigEndian.number_lt (rest.take width)
  rwa [List.length_take, min_eq_left fits] at bound

theorem readUint_number {k : Nat} (parse : numberAt 4 f.rest = some k) :
    Reads f (readUintLocal f).2 4 ∧ (readUintLocal f).1.toNat = k := by
  obtain ⟨fits, rfl⟩ := numberAt_fits parse
  have bound := number_take_lt fits
  refine ⟨readUintLocal_reads fits, ?_⟩
  change ((readUint f).1.getD _).toNat = _
  rw [readUint_of_has (FILE.has_of_rest (by decide) fits), Option.getD_some, BitVec.toNat_ofNat]
  exact Nat.mod_eq_of_lt bound

theorem readUshort_number {k : Nat} (parse : numberAt 2 f.rest = some k) :
    Reads f (readUshort f).2 2 ∧ ∀ old, ((readUshort f).1.getD old).toNat = k := by
  obtain ⟨fits, rfl⟩ := numberAt_fits parse
  have bound := number_take_lt fits
  have has := FILE.has_of_rest (by decide) fits
  constructor
  · rw [readUshort_file, FILE.past_of_has has]
    exact ⟨rfl, rfl⟩
  · intro old
    rw [readUshort_of_has has, Option.getD_some, BitVec.toNat_ofNat]
    exact Nat.mod_eq_of_lt bound

theorem readUshortLocal_number {k : Nat} (parse : numberAt 2 f.rest = some k) :
    Reads f (readUshortLocal f).2 2 ∧ (readUshortLocal f).1.toNat = k :=
  ⟨readUshortLocal_reads (numberAt_fits parse).1, (readUshort_number parse).2 _⟩

/-- The switch consumes what the type says and returns as much, except for a boolean
other than 0 and 1. -/
theorem readTyped_reads {sig : Byte} (fits : fieldSize identsz sig ≤ f.rest.length) :
    Reads f (readTyped identsz sig f).2 (fieldSize identsz sig) ∧
      (readTyped identsz sig f).1.rc =
        if legal sig f.rest then (fieldSize identsz sig : Int) else -1 := by
  have plain : ∀ {sig}, sig ≠ chr 'Z' → legal sig f.rest = true := by
    intro sig other
    simp [legal, other]
  have getc : 1 ≤ f.rest.length → Reads f f.getc.2 1 ∧ f.rest.head? = some (uchar f.getc.1) := by
    intro some
    obtain ⟨b, tail, rest⟩ := List.exists_cons_of_length_pos some
    obtain ⟨value, reads⟩ := getc_of_rest rest
    rw [value, uchar_toNat, rest]
    exact ⟨reads, rfl⟩
  unfold readTyped
  by_cases ref : sig = chr '[' ∨ sig = chr 'L'
  · have size : fieldSize identsz sig = identsz.size := by
      rcases ref with rfl | rfl <;> rfl
    have other : sig ≠ chr 'Z' := by rcases ref with rfl | rfl <;> decide
    rw [size] at fits ⊢
    rw [if_pos ref, plain other]
    exact ⟨readIdent_reads fits, rfl⟩
  rw [if_neg ref]
  by_cases bool : sig = chr 'Z'
  · subst bool
    have size : fieldSize identsz (chr 'Z') = 1 := rfl
    rw [size] at fits ⊢
    obtain ⟨reads, head⟩ := getc fits
    rw [if_pos rfl]
    refine ⟨reads, ?_⟩
    change (if uchar f.getc.1 ≠ 0 ∧ uchar f.getc.1 ≠ 1 then (-1 : Int) else 1) = _
    rw [legal, head]
    by_cases low : uchar f.getc.1 = 0 ∨ uchar f.getc.1 = 1
    · rw [if_neg fun both => low.elim both.1 both.2, if_pos (by simpa using low)]
      rfl
    · rw [if_pos (not_or.mp low), if_neg (by simpa using low)]
  rw [if_neg bool, plain bool]
  by_cases byte : sig = chr 'B'
  · subst byte
    have size : fieldSize identsz (chr 'B') = 1 := rfl
    rw [size] at fits ⊢
    rw [if_pos rfl]
    exact ⟨(getc fits).1, rfl⟩
  rw [if_neg byte]
  by_cases short : sig = chr 'S' ∨ sig = chr 'C'
  · have size : fieldSize identsz sig = 2 := by
      rcases short with rfl | rfl <;> rfl
    rw [size] at fits ⊢
    rw [if_pos short]
    exact ⟨readUshortLocal_reads fits, rfl⟩
  rw [if_neg short]
  by_cases int : sig = chr 'I'
  · subst int
    have size : fieldSize identsz (chr 'I') = 4 := rfl
    rw [size] at fits ⊢
    rw [if_pos rfl]
    exact ⟨readUintLocal_reads fits, rfl⟩
  rw [if_neg int]
  by_cases long : sig = chr 'J'
  · subst long
    have size : fieldSize identsz (chr 'J') = 8 := rfl
    rw [size] at fits ⊢
    rw [if_pos rfl]
    exact ⟨readUlong_reads fits, rfl⟩
  rw [if_neg long]
  by_cases float : sig = chr 'F'
  · subst float
    rw [if_pos rfl]
    exact ⟨⟨rfl, rfl⟩, rfl⟩
  rw [if_neg float]
  by_cases double : sig = chr 'D'
  · subst double
    rw [if_pos rfl]
    exact ⟨⟨rfl, rfl⟩, rfl⟩
  rw [if_neg double]
  have size : fieldSize identsz sig = 0 := by
    rw [not_or] at ref short
    simp [fieldSize, ref, bool, byte, short, int, long, float, double]
  rw [size]
  exact ⟨.refl f, rfl⟩

/-- A value with its type byte; its sound length is what `1 + readValue(...)` is. -/
theorem readValue_reads {fVersion : Nat} {value : Span}
    (parse : valueSpan fVersion identsz f.rest = some value) :
    Reads f (readValue fVersion identsz f).2 value.length ∧
      1 + (readValue fVersion identsz f).1.rc = if value.sound then (value.length : Int) else 0 := by
  cases rest : f.rest with
  | nil =>
    rw [rest] at parse
    cases parse
  | cons type tail =>
    rw [rest, valueSpan] at parse
    split at parse
    · rename_i fits
      cases parse
      obtain ⟨value, start⟩ := getc_of_rest rest
      have after : f.getc.2.rest = tail := by rw [start.rest, rest]; rfl
      have switch : readValue fVersion identsz f =
          readTyped identsz (typeSig fVersion type) f.getc.2 := by
        have sig : typeSig fVersion (uchar f.getc.1) = typeSig fVersion type := by
          rw [value, uchar_toNat]
        rw [← sig]
        rfl
      have typed := @readTyped_reads f.getc.2 identsz (typeSig fVersion type) (by rwa [after])
      rw [after] at typed
      rw [switch]
      refine ⟨start.trans typed.1, ?_⟩
      rw [typed.2]
      split <;> simp
    · cases parse

end Reads

end Phat
