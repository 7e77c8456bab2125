import Phat.Foundation.RunLength
import Phat.Dump

/-! The lines that `printInstance` prints for the elements of an object array: a run-length
listing in which stored objects are listed by themselves. -/
namespace Phat
open RunLength (Item Announced listing groups decode tally flush)

/-- An element as the loop takes it: a stored object, or else an identifier that is null or
unknown. -/
def Jdump.elementOf (jf : Jdump) (pid : BitVec 64) : BitVec 64 ⊕ ObjRef :=
  match if pid = 0 then none else jf.hTable.lookup32 (key pid) with
  | some dref => .inr dref
  | none => .inl pid

/-- A line of a listing, or a stored object, for which a call prints. -/
inductive Entry where
  | line (line : Line)
  | object (dref : ObjRef)
deriving DecidableEq

/-- What is printed for an item. -/
def entry : Item (BitVec 64) ObjRef → Entry
  | .label pid => .line (if pid = 0 then .null else .unknown (low32 pid))
  | .elements n => .line (.elements n)
  | .nested dref => .object dref

/-- The entries for the elements of an object array. -/
def Jdump.entries (jf : Jdump) (ids : List (BitVec 64)) : List Entry :=
  (listing 0 (BitVec.allOnes 64) (ids.map jf.elementOf)).map entry

/-- Entries printed one after the other. -/
def printEntries (visit : Screen → ObjRef → Printed Screen) :
    List Entry → Screen → Printed Screen
  | [], s => .ok s
  | .line line :: entries, s => printEntries visit entries (s.print line)
  | .object dref :: entries, s =>
    match visit s dref with
    | .error stop => .error stop
    | .ok s => printEntries visit entries s

/-- The item that an entry of a listing shows, an unknown identifier by its low 32 bits. -/
def readEntry : Entry → Option (Item (BitVec 64) ObjRef)
  | .line .null => some (.label 0)
  | .line (.unknown pid) => some (.label (pid.setWidth 64))
  | .line (.elements n) => some (.elements n)
  | .object dref => some (.nested dref)
  | _ => none

/-- The lines say what the elements are: every group of equal identifiers has its label
and its count, stored objects stand in their place, and all add up. -/
structure Lossless (elements : List (BitVec 64 ⊕ ObjRef)) (entries : List Entry) : Prop where
  groups : entries = (groups elements).map entry
  decoded : (entries.mapM readEntry).bind decode = some elements
  total : (entries.mapM readEntry).map tally = some elements.length

/-- Every identifier in the listing is shown in full. -/
def ShownInFull (elements : List (BitVec 64 ⊕ ObjRef)) : Prop :=
  ∀ pid, .inl pid ∈ elements → pid.toNat < 2 ^ 32

/-- What is read back of an identifier. -/
def readBack (pid : BitVec 64) : BitVec 64 := (low32 pid).setWidth 64

section Listing
variable {visit : Screen → ObjRef → Printed Screen} {jf : Jdump} {lk : Look} {o : ObjRef}

theorem printEntries_flush (n : Nat) (items : List (Item (BitVec 64) ObjRef)) (s : Screen) :
    printEntries visit ((flush n ++ items).map entry) s =
      printEntries visit (items.map entry) (printRun s n) := by
  rw [flush, printRun]
  split <;> rfl

/-- The loop prints the listing of the elements ahead. -/
theorem printOarrayLoop_listing (ids : List (BitVec 64)) (i n : Nat) (last : BitVec 64) (s : Screen)
    (held : ∀ j (more : j < ids.length), (lk.objects o).hvalues.identAt (i + j) = some ids[j]) :
    printOarrayLoop visit jf lk o false ids.length i n last s =
      printEntries visit ((listing n last (ids.map jf.elementOf)).map entry) s := by
  induction ids generalizing i n last s with
  | nil =>
    have flushed := @printEntries_flush visit n [] s
    rw [List.append_nil] at flushed
    rw [List.map_nil, listing, flushed]
    rfl
  | cons pid ids ih =>
    have first := held 0 (Nat.zero_lt_succ _)
    rw [Nat.add_zero, List.getElem_cons_zero] at first
    have later : ∀ j (more : j < ids.length),
        (lk.objects o).hvalues.identAt (i + 1 + j) = some ids[j] := by
      intro j more
      rw [Nat.add_assoc, Nat.add_comm 1]
      exact held (j + 1) (Nat.succ_lt_succ more)
    rw [List.length_cons, printOarrayLoop, first, List.map_cons]
    simp only [Bool.false_eq_true, false_and, if_false]
    unfold Jdump.elementOf
    cases (if pid = 0 then none else jf.hTable.lookup32 (key pid)) with
    | some dref =>
      simp only
      rw [listing, printEntries_flush, List.map_cons, entry, printEntries]
      cases visit (printRun s n) dref with
      | error stop => rfl
      | ok s' => exact ih (i + 1) 0 last s' later
    | none =>
      simp only
      rw [listing]
      by_cases same : last = pid
      · rw [if_neg (not_not.mpr same), if_neg (not_not.mpr same)]
        exact ih (i + 1) (n + 1) last s later
      · rw [if_pos same, if_pos same, printEntries_flush, List.map_cons, entry, printEntries]
        exact ih (i + 1) 1 pid _ later

theorem readEntry_entry (item : Item (BitVec 64) ObjRef) :
    readEntry (entry item) = some (item.mapLabel readBack) := by
  cases item with
  | label pid =>
    rw [entry]
    split
    · rename_i null
      rw [null]
      rfl
    · rfl
  | elements n => rfl
  | nested dref => rfl

theorem mapM_readEntry (items : List (Item (BitVec 64) ObjRef)) :
    (items.map entry).mapM readEntry = some (items.map (Item.mapLabel readBack)) := by
  induction items with
  | nil => rfl
  | cons item items ih =>
    rw [List.map_cons, List.mapM_cons, readEntry_entry, ih]
    rfl

/-- What is read of the lines of a listing. -/
theorem decode_entries (items : List (Item (BitVec 64) ObjRef)) :
    ((items.map entry).mapM readEntry).bind decode =
      (decode items).map (List.map (Sum.map readBack id)) := by
  rw [mapM_readEntry, Option.bind_some, RunLength.decode_mapLabel]

theorem shownInFull_iff (elements : List (BitVec 64 ⊕ ObjRef)) :
    elements.map (Sum.map readBack id) = elements ↔ ShownInFull elements := by
  have shown : ∀ pid : BitVec 64, readBack pid = pid ↔ pid.toNat < 2 ^ 32 := by
    intro pid
    rw [← BitVec.toNat_inj, readBack, low32, BitVec.toNat_setWidth, BitVec.toNat_setWidth]
    omega
  rw [ShownInFull]
  constructor
  · intro back pid member
    have fixed := List.map_inj_left.mp (back.trans (List.map_id elements).symm) (.inl pid) member
    exact (shown pid).mp (Sum.inl.inj fixed)
  · intro full
    refine (List.map_congr_left fun x member => ?_).trans (List.map_id elements)
    cases x with
    | inl pid => exact congrArg Sum.inl ((shown pid).mpr (full pid member))
    | inr dref => rfl

theorem lossless_iff (last : BitVec 64) (elements : List (BitVec 64 ⊕ ObjRef)) :
    Lossless elements ((listing 0 last elements).map entry) ↔
      Announced false last elements ∧ ShownInFull elements := by
  constructor
  · intro lossless
    have read := lossless.decoded
    rw [decode_entries] at read
    have announced : Announced false last elements := by
      apply RunLength.announced_of_decode
      intro unread
      rw [unread] at read
      cases read
    rw [(RunLength.listing_eq_groups_iff last elements).mpr announced, RunLength.decode_groups] at read
    exact ⟨announced, (shownInFull_iff elements).mp (Option.some.inj read)⟩
  · rintro ⟨announced, full⟩
    have same := (RunLength.listing_eq_groups_iff last elements).mpr announced
    refine ⟨by rw [same], ?_, ?_⟩
    · rw [decode_entries, same, RunLength.decode_groups, Option.map_some,
        (shownInFull_iff elements).mpr full]
    · rw [mapM_readEntry, Option.map_some, RunLength.tally_mapLabel, RunLength.tally_listing,
        Nat.zero_add]

end Listing

/-- An object array is printed as a listing of its elements, and it is lossless exactly if no
group at the front or behind a stored object has the label before it, the first label
counting as all ones, and no unknown identifier has more than the 32 bits printed of it. -/
theorem oarray_listed {jf : Jdump} {lk : Look} {o : ObjRef} (s : Screen) (fuel indent : Nat)
    (inString : Bool) (oarray : (jf.hobject o).htype = .hOarray) (unvisited : s.visit o = false)
    (shown : ¬ jf.beyond indent) {ids : List (BitVec 64)}
    (held : ∀ i (more : i < ids.length), (lk.objects o).hvalues.identAt i = some ids[i])
    (length : ids.length = (jf.hobject o).count.toNat) :
    printInstance jf lk (fuel + 1) s o indent false inString =
        printEntries (fun s dref => printInstance jf lk fuel s dref (1 + indent) false false)
          (jf.entries ids) ((s.print (.called o (lk.objects o).resolved)).print (.objectArray
            (low32 (jf.hobject o).instId) (low32 (jf.hobject o).classId) (jf.hobject o).count
            (low32 (lk.objects o).osize))) ∧
      (Lossless (ids.map jf.elementOf) (jf.entries ids) ↔
        Announced false (BitVec.allOnes 64) (ids.map jf.elementOf) ∧
          ShownInFull (ids.map jf.elementOf)) := by
  refine ⟨?_, lossless_iff _ _⟩
  have slots : ∀ j (more : j < ids.length),
      (lk.objects o).hvalues.identAt (0 + j) = some ids[j] := by
    intro j more
    rw [Nat.zero_add]
    exact held j more
  have fresh : ¬ (s.print (.called o (lk.objects o).resolved)).visit o = true := by
    change ¬ s.visit o = true
    rw [unvisited]
    decide
  rw [printInstance]
  simp only [if_neg fresh, if_neg shown, oarray]
  rw [printOarray, ← length]
  exact printOarrayLoop_listing ids 0 0 _ _ slots

/-- An object array of three elements, and an array without elements that is stored under
identifier 1. Identifiers have eight bytes. -/
def sampleListed : Jdump :=
  { Jdump.start [] .eight none with
    hTable := Table.empty.insert32 1 0
    hobjects := ⟨2, fun o => if o = 0 then ⟨.hVarray, 1, 8, 0, 0, 1⟩ else ⟨.hOarray, 2, 9, 0, 3, 4⟩⟩ }

def sampleSlots (ids : List (BitVec 64)) : Look :=
  { Look.zero with objects := fun _ => ⟨true, 0, 0, 0, .values (ids.map .ident)⟩ }

theorem oarray_listed_sample :
    Lossless ([0, 0, 1].map sampleListed.elementOf) (sampleListed.entries [0, 0, 1]) := by
  have listed := @oarray_listed sampleListed (sampleSlots [0, 0, 1]) 1 ⟨fun _ => false, []⟩ 1 0 false
    rfl rfl (by decide) [0, 0, 1] (by decide) rfl
  have elements : [0, 0, 1].map sampleListed.elementOf = [.inl 0, .inl 0, .inr 0] := by
    decide +kernel
  rw [elements] at listed ⊢
  exact listed.2.mpr ⟨by simp [Announced], by simp [ShownInFull]⟩

/-- The second null, behind an object, is only counted, and an identifier of more than 32 bits
is not shown in full. -/
theorem sampleListed_unlabelled :
    (printInstance sampleListed (sampleSlots [0, 1, 0]) 2 ⟨fun _ => false, []⟩ 1 0 false
      false).toOption.map Screen.lines = some [.called 1 true, .objectArray 2 9 3 0, .null, .elements 1,
          .called 0 true, .valueArray 1 8 0 0 0, .newline, .elements 1] ∧
      ¬ Lossless ([0, 1, 0].map sampleListed.elementOf) (sampleListed.entries [0, 1, 0]) ∧
      sampleListed.entries [0x10000000005] = sampleListed.entries [5] ∧
      ¬ Lossless ([0x10000000005].map sampleListed.elementOf)
        (sampleListed.entries [0x10000000005]) := by
  refine ⟨by decide +kernel, fun lossless => ?_, by decide +kernel, fun lossless => ?_⟩
  · have unsaid : ((sampleListed.entries [0, 1, 0]).mapM readEntry).bind decode = none := by
      decide +kernel
    rw [lossless.decoded] at unsaid
    cases unsaid
  · have said : ((sampleListed.entries [0x10000000005]).mapM readEntry).bind decode =
        some [.inl 5] := by decide +kernel
    rw [lossless.decoded] at said
    exact absurd said (by decide +kernel)

end Phat
