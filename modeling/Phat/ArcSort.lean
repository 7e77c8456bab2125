import Mathlib.Data.Prod.Lex
import Phat.Foundation.KeyedInsertion
import Phat.Foundation.Links
import Phat.MapGraph

/-! Sorting the arcs of a class. The relinking of `sort_parents` and `sort_children` is an insertion
sort, whatever the test; the test is `cmp_arc`, which narrows differences to `int`. -/
namespace Phat
open Links KeyedInsertion

namespace Relinking
variable {list : ArcList} {s : Relinking} {arc : ArcRef} {prev : Option ArcRef} {l m : List ArcRef}
  {stop : MapArc → MapArc → Bool}

theorem next_setNext (list : ArcList) (s : Relinking) (next' p : Option ArcRef) :
    (s.setNext list next' p).next list = Function.update (s.next list) p next' := by
  funext q
  cases p with
  | none =>
    cases q with
    | none => rfl
    | some b => simp [next, setNext]
  | some a =>
    cases q with
    | none => simp [next, setNext]
    | some b =>
      by_cases same : b = a
      · subst same
        simp [next, setNext, list.next_setNext]
      · simp [next, setNext, same]

/-- The arcs are as they were, but for the links of the list. -/
def SameArcs (list : ArcList) (s : Relinking) (arcs : ArcRef → MapArc) : Prop :=
  ∀ a, list.setNext none (s.arcs a) = list.setNext none (arcs a)

theorem SameArcs.setNext {arcs : ArcRef → MapArc} (same : s.SameArcs list arcs)
    (next' p : Option ArcRef) : (s.setNext list next' p).SameArcs list arcs := by
  intro a
  cases p with
  | none => exact same a
  | some b =>
    by_cases here : a = b
    · subst here
      simp [Relinking.setNext, list.setNext_setNext, same a]
    · simp [Relinking.setNext, here, same a]

theorem SameArcs.unlinked {arcs : ArcRef → MapArc} (same : s.SameArcs list arcs) (a : ArcRef) :
    (s.arcs a).unlinked = (arcs a).unlinked := by
  rw [← list.unlinked_setNext none, same a, list.unlinked_setNext]

/-- The inner loop stops at the place of the arc. -/
theorem findPrev_eq (test : MapArc → Bool) (r : ArcRef → ArcRef → Prop) [DecidableRel r]
    (stops : ∀ b ∈ l, test (s.arcs b) = true ↔ r arc b)
    (linked : Linked (list.links s.arcs) (s.next list prev) l) (fuel : Nat)
    (enough : l.length < fuel) :
    s.findPrev list test fuel prev = some (place r arc prev l) := by
  induction l generalizing fuel prev with
  | nil =>
    obtain ⟨fuel, rfl⟩ := Nat.exists_eq_add_of_lt enough
    simp only [linked_nil] at linked
    simp only [findPrev, linked, place]
  | cons b rest ih =>
    obtain ⟨fuel, rfl⟩ := Nat.exists_eq_add_of_lt enough
    obtain ⟨head, tail⟩ := linked
    have onward : Linked (list.links s.arcs) (s.next list (some b)) rest := tail
    simp only [findPrev, head, place, stops b List.mem_cons_self]
    split
    · rfl
    · refine ih (fun x member => stops x (.tail _ member)) onward _ ?_
      simp only [List.length_cons]
      omega

/-- The outer loop puts the arcs into the list one after the other, by a test that does not look
at links. -/
theorem sortArcs_spec {test : MapArc → MapArc → Bool} {arcs : ArcRef → MapArc}
    (blind : ∀ a a' b b' : MapArc, a.unlinked = a'.unlinked → b.unlinked = b'.unlinked →
      test a b = test a' b')
    {start : Option ArcRef} (linked : Linked (list.links s.arcs) start l)
    (sorted : Linked (list.links s.arcs) s.sorted m) (apart : ∀ a ∈ l, a ∉ m)
    (same : s.SameArcs list arcs) :
    ∃ s', (∀ fuel, 2 * l.length + m.length < fuel → sortArcs list test fuel start s = some s') ∧
      Linked (list.links s'.arcs) s'.sorted
        (l.foldl (fun m a => m.orderedInsert (fun a b => test (arcs a) (arcs b) = true) a) m) ∧
      s'.SameArcs list arcs ∧
      ∀ a, a ∉ l → a ∉ m → list.links s'.arcs a = list.links s.arcs a := by
  induction l generalizing s m start with
  | nil =>
    rw [linked_nil] at linked
    refine ⟨s, fun fuel enough => ?_, sorted, same, fun _ _ _ => rfl⟩
    obtain ⟨fuel, rfl⟩ := Nat.exists_eq_add_of_lt enough
    rw [linked]
    rfl
  | cons a rest ih =>
    let r : ArcRef → ArcRef → Prop := fun a b => test (arcs a) (arcs b) = true
    obtain ⟨nodup, _⟩ := List.nodup_cons.mp linked.nodup
    obtain ⟨rfl, tail⟩ := linked
    have fresh : a ∉ m := apart a List.mem_cons_self
    let prev := place r a none m
    let s₁ := (s.setNext list (s.next list prev) (some a)).setNext list (some a) prev
    have links : s₁.next list = linkIn (s.next list) a prev := by
      rw [next_setNext, next_setNext, linkIn]
    obtain ⟨inserted, frame⟩ := @place_linked _ m a (s.next list) none r _ _ sorted fresh
      (by simp) (by simp)
    rw [← links] at inserted frame
    have kept : ∀ b, b ≠ a → b ∉ m → list.links s₁.arcs b = list.links s.arcs b :=
      fun b other outside => frame (some b) (by simp [other]) (by simp) fun x member found =>
        outside (Option.some.inj found ▸ member)
    have others : ∀ b ∈ rest, b ≠ a := fun b member here => nodup (here ▸ member)
    obtain ⟨s', run, result, same', frame'⟩ := @ih s₁ (m.orderedInsert r a) _
      (tail.congr fun b member => kept b (others b member) (apart b (.tail _ member))) inserted
      (fun b member => by simp [others b member, apart b (.tail _ member)])
      ((same.setNext _ _).setNext _ _)
    refine ⟨s', fun fuel enough => ?_, result, same', fun b outside outside' => ?_⟩
    · obtain ⟨fuel, rfl⟩ := Nat.exists_eq_add_of_lt enough
      simp only [List.length_cons] at run ⊢
      have stops : ∀ b ∈ m, test (s.arcs a) (s.arcs b) = true ↔ r a b := by
        intro b _
        rw [blind _ _ _ _ (same.unlinked a) (same.unlinked b)]
      have found : s.findPrev list (test (s.arcs a)) (2 * (rest.length + 1) + m.length + fuel) none =
          some prev := findPrev_eq _ r stops sorted _ (by omega)
      simp only [sortArcs, found]
      refine run _ ?_
      rw [List.orderedInsert_length]
      omega
    · simp only [List.mem_cons, not_or] at outside
      rw [frame' b outside.2 (by simp [outside.1, outside'])]
      exact kept b outside.1 outside'

end Relinking

namespace MapGraph
variable {g g' : MapGraph} {list : ArcList} {stop : Int → Bool} {ho : ClassRef} {l : List ArcRef}
  {a b : ArcRef}

/-- The test of the sort for two arcs. -/
def Stops (g : MapGraph) (stop : Int → Bool) (a b : ArcRef) : Prop :=
  stop (g.cmpArc (g.arcs a) (g.arcs b)) = true

instance (g : MapGraph) (stop : Int → Bool) : DecidableRel (g.Stops stop) :=
  fun _ _ => inferInstanceAs (Decidable (_ = true))

/-- The list is rewritten to what the insertions make of it, and nothing else changes. -/
theorem sortList_spec (stop : Int → Bool) (linked : g.HasArcs list ho l) :
    ∃ g', (∀ fuel, 2 * l.length < fuel → sortList list stop fuel ho g = some g') ∧
      g'.HasArcs list ho (insertAll (g.Stops stop) l) ∧
      (∀ a, list.setNext none (g'.arcs a) = list.setNext none (g.arcs a)) ∧
      (∀ a, a ∉ l → list.links g'.arcs a = list.links g.arcs a) ∧
      (∀ c, c ≠ ho → g'.classes c = g.classes c) ∧
      g'.classes ho = list.setFirst (list.first (g'.classes ho)) (g.classes ho) := by
  have blind : ∀ a a' b b' : MapArc, a.unlinked = a'.unlinked → b.unlinked = b'.unlinked →
      stop (g.cmpArc a b) = stop (g.cmpArc a' b') := by
    intro a a' b b' sameA sameB
    rw [show g.cmpArc a b = g.cmpArc a.unlinked b.unlinked from rfl, sameA, sameB]
    rfl
  obtain ⟨s, run, sorted, same, frame⟩ := @Relinking.sortArcs_spec list ⟨g.arcs, none⟩ l []
    (fun arc other => stop (g.cmpArc arc other)) g.arcs blind _ linked rfl (by simp) fun _ => rfl
  refine ⟨{ g with arcs := s.arcs }.modifyClass ho (list.setFirst s.sorted), ?_, ?_, ?_, ?_, ?_, ?_⟩
  · intro fuel enough
    rw [sortList, run fuel enough]
    rfl
  · simp only [HasArcs, modifyClass, Function.update_self, list.first_setFirst]
    exact sorted
  · exact same
  · exact fun a outside => frame a outside (by simp)
  · exact fun c other => Function.update_of_ne other _ _
  · simp only [modifyClass, Function.update_self, list.first_setFirst]

/-- The key that `cmp_arc` describes: self arcs, arcs inside one cycle by count, and all others by
size and then by count. -/
def arcKey (g : MapGraph) (arc : MapArc) : ℕ ×ₗ (ℤ ×ₗ ℤ) :=
  if arc.parent = arc.child then toLex (0, toLex (0, 0))
  else if g.inCycle arc then toLex (1, toLex (arc.count.toInt, 0))
  else toLex (2, toLex (arc.size.toInt, arc.count.toInt))

/-- What two arcs of one key have in common. -/
theorem arcKey_eq {x y : MapArc} (same : g.arcKey x = g.arcKey y) :
    x.parent = x.child ∧ y.parent = y.child ∨
      x.parent ≠ x.child ∧ y.parent ≠ y.child ∧ g.inCycle x = g.inCycle y ∧ x.count = y.count ∧
        (g.inCycle x = false → x.size = y.size) := by
  unfold arcKey at same
  by_cases selfX : x.parent = x.child
  · by_cases selfY : y.parent = y.child
    · exact .inl ⟨selfX, selfY⟩
    · cases inY : g.inCycle y with
      | true => simp [selfX, selfY, inY] at same
      | false => simp [selfX, selfY, inY] at same
  · by_cases selfY : y.parent = y.child
    · cases inX : g.inCycle x with
      | true => simp [selfX, selfY, inX] at same
      | false => simp [selfX, selfY, inX] at same
    · refine .inr ⟨selfX, selfY, ?_⟩
      cases inX : g.inCycle x with
      | true =>
        cases inY : g.inCycle y with
        | true =>
          simp only [selfX, selfY, inX, inY, if_true, if_false, toLex_inj, Prod.mk.injEq,
            BitVec.toInt_inj, true_and, and_true] at same
          exact ⟨rfl, same, by simp⟩
        | false => simp [selfX, selfY, inX, inY] at same
      | false =>
        cases inY : g.inCycle y with
        | true => simp [selfX, selfY, inX, inY] at same
        | false =>
          simp only [selfX, selfY, inX, inY, Bool.false_eq_true, if_false, toLex_inj,
            Prod.mk.injEq, BitVec.toInt_inj, true_and] at same
          exact ⟨rfl, same.2, fun _ => same.1⟩

/-- `cmp_arc` tells arcs apart by their keys only. -/
theorem cmpArc_congr {x y : MapArc} (same : g.arcKey x = g.arcKey y) (z : MapArc) :
    g.cmpArc z x = g.cmpArc z y := by
  rcases arcKey_eq same with ⟨selfX, selfY⟩ | ⟨otherX, otherY, cycle, count, size⟩
  · simp only [cmpArc, selfX, selfY, if_true]
  · cases inX : g.inCycle x with
    | true => simp only [cmpArc, otherX, otherY, ← cycle, inX, count, if_true]
    | false =>
      simp only [cmpArc, otherX, otherY, ← cycle, inX, count, size inX, Bool.false_eq_true]

/-- Arcs of one key are equal for `cmp_arc`, unless they are self arcs. -/
theorem cmpArc_equal {x y : MapArc} (same : g.arcKey x = g.arcKey y) (other : x.parent ≠ x.child) :
    g.cmpArc x y = 0 := by
  rcases arcKey_eq same with ⟨selfX, _⟩ | ⟨_, otherY, cycle, count, size⟩
  · exact absurd selfX other
  · rw [← cmpArc_congr same x]
    cases inX : g.inCycle x with
    | true => simp [cmpArc, other, inX]
    | false => simp [cmpArc, other, inX]

/-- The keys of the arcs on a list. -/
def keyOf (g : MapGraph) (a : ArcRef) : ℕ ×ₗ (ℤ ×ₗ ℤ) := g.arcKey (g.arcs a)

def SelfArc (g : MapGraph) (a : ArcRef) : Prop := (g.arcs a).parent = (g.arcs a).child

/-- What an `int` keeps of a difference is positive. -/
def Positive (difference : Int) : Prop :=
  0 < difference % 2 ^ 32 ∧ difference % 2 ^ 32 < 2 ^ 31

/-- What an `int` keeps of a difference is negative. -/
def Negative (difference : Int) : Prop := 2 ^ 31 ≤ difference % 2 ^ 32

theorem narrow_toInt (x y : BitVec 64) : ((x - y).setWidth 32).toInt =
    if (x.toInt - y.toInt) % 2 ^ 32 < 2 ^ 31 then (x.toInt - y.toInt) % 2 ^ 32
    else (x.toInt - y.toInt) % 2 ^ 32 - 2 ^ 32 := by
  have low : (((x - y).setWidth 32).toNat : Int) = (x.toInt - y.toInt) % 2 ^ 32 := by
    have left := x.isLt
    have right := y.isLt
    rw [BitVec.toNat_setWidth, BitVec.toNat_sub, BitVec.toInt_eq_toNat_cond,
      BitVec.toInt_eq_toNat_cond]
    split <;> split <;> omega
  rw [BitVec.toInt_eq_toNat_cond, low]
  split <;> split <;> omega

theorem narrow_pos_iff (x y : BitVec 64) :
    0 < ((x - y).setWidth 32).toInt ↔ Positive (x.toInt - y.toInt) := by
  rw [narrow_toInt, Positive]
  split <;> omega

theorem narrow_neg_iff (x y : BitVec 64) :
    ((x - y).setWidth 32).toInt < 0 ↔ Negative (x.toInt - y.toInt) := by
  rw [narrow_toInt, Negative]
  split <;> omega

theorem narrow_zero_iff (x y : BitVec 64) :
    ((x - y).setWidth 32).toInt = 0 ↔ 2 ^ 32 ∣ x.toInt - y.toInt := by
  rw [narrow_toInt]
  split <;> omega

/-- Two arcs that only sizes and counts tell apart: neither is a self arc, and both are inside a
cycle or neither is. -/
def Alike (g : MapGraph) (b a : ArcRef) : Prop :=
  ¬ g.SelfArc b ∧ ¬ g.SelfArc a ∧ g.inCycle (g.arcs b) = g.inCycle (g.arcs a)

def countAbove (g : MapGraph) (b a : ArcRef) : Int :=
  (g.arcs b).count.toInt - (g.arcs a).count.toInt

def sizeAbove (g : MapGraph) (b a : ArcRef) : Int :=
  (g.arcs b).size.toInt - (g.arcs a).size.toInt

/-- The differences of sizes and counts, as far as an `int` keeps them, put `b` above `a`. -/
def Above (g : MapGraph) (b a : ArcRef) : Prop :=
  if g.inCycle (g.arcs b) then Positive (g.countAbove b a)
  else Positive (g.sizeAbove b a) ∨ 2 ^ 32 ∣ g.sizeAbove b a ∧ Positive (g.countAbove b a)

/-- They put `b` below `a`. -/
def Below (g : MapGraph) (b a : ArcRef) : Prop :=
  if g.inCycle (g.arcs b) then Negative (g.countAbove b a)
  else Negative (g.sizeAbove b a) ∨ 2 ^ 32 ∣ g.sizeAbove b a ∧ Negative (g.countAbove b a)

theorem cmpArc_alike_pos_iff (alike : g.Alike b a) :
    0 < g.cmpArc (g.arcs b) (g.arcs a) ↔ g.Above b a := by
  obtain ⟨otherB, otherA, cycle⟩ := alike
  rw [SelfArc] at otherB otherA
  rw [cmpArc, if_neg otherB, if_neg otherA, Above, ← cycle]
  split
  · exact narrow_pos_iff _ _
  · simp only
    rw [sizeAbove, countAbove, ← narrow_pos_iff, ← narrow_pos_iff, ← narrow_zero_iff]
    split <;> omega

theorem cmpArc_alike_neg_iff (alike : g.Alike b a) :
    g.cmpArc (g.arcs b) (g.arcs a) < 0 ↔ g.Below b a := by
  obtain ⟨otherB, otherA, cycle⟩ := alike
  rw [SelfArc] at otherB otherA
  rw [cmpArc, if_neg otherB, if_neg otherA, Below, ← cycle]
  split
  · exact narrow_neg_iff _ _
  · simp only
    rw [sizeAbove, countAbove, ← narrow_neg_iff, ← narrow_neg_iff, ← narrow_zero_iff]
    split <;> omega

/-- For arcs that self arcs and cycles tell apart the sign of `cmp_arc` is that of the keys. -/
theorem cmpArc_unlike (unlike : ¬ g.Alike b a) :
    (g.keyOf a < g.keyOf b → 0 < g.cmpArc (g.arcs b) (g.arcs a)) ∧
    (g.keyOf b < g.keyOf a → g.cmpArc (g.arcs b) (g.arcs a) < 0) := by
  rw [Alike, SelfArc, SelfArc] at unlike
  rw [keyOf, keyOf, arcKey, arcKey, cmpArc]
  by_cases selfB : (g.arcs b).parent = (g.arcs b).child
  · by_cases selfA : (g.arcs a).parent = (g.arcs a).child
    · simp [selfB, selfA]
    · rw [if_pos selfB, if_neg selfA, if_pos selfB]
      refine ⟨fun less => ?_, fun _ => by decide⟩
      split at less <;> simp [Prod.Lex.toLex_lt_toLex] at less
  · by_cases selfA : (g.arcs a).parent = (g.arcs a).child
    · rw [if_neg selfB, if_pos selfA, if_neg selfB, if_pos selfA]
      refine ⟨fun _ => by decide, fun less => ?_⟩
      split at less <;> simp [Prod.Lex.toLex_lt_toLex] at less
    · have cycle : g.inCycle (g.arcs b) ≠ g.inCycle (g.arcs a) :=
        fun same => unlike ⟨selfB, selfA, same⟩
      cases inB : g.inCycle (g.arcs b) with
      | true =>
        have inA : g.inCycle (g.arcs a) = false := by
          rw [inB] at cycle
          exact Bool.eq_false_of_not_eq_true (Ne.symm cycle)
        simp [selfB, selfA, inA, Prod.Lex.toLex_lt_toLex]
      | false =>
        have inA : g.inCycle (g.arcs a) = true := by
          rw [inB] at cycle
          exact Bool.eq_true_of_not_eq_false (Ne.symm cycle)
        simp [selfB, selfA, inA, Prod.Lex.toLex_lt_toLex]

theorem cmpArc_pos_iff (less : g.keyOf a < g.keyOf b) :
    0 < g.cmpArc (g.arcs b) (g.arcs a) ↔ (g.Alike b a → g.Above b a) := by
  by_cases alike : g.Alike b a
  · rw [cmpArc_alike_pos_iff alike]
    exact ⟨fun above _ => above, fun above => above alike⟩
  · exact ⟨fun _ same => absurd same alike, fun _ => (cmpArc_unlike alike).1 less⟩

theorem cmpArc_nonpos_iff (less : g.keyOf b < g.keyOf a) :
    g.cmpArc (g.arcs b) (g.arcs a) ≤ 0 ↔ (g.Alike b a → ¬ g.Above b a) := by
  by_cases alike : g.Alike b a
  · rw [← not_lt, cmpArc_alike_pos_iff alike]
    exact ⟨fun below _ => below, fun below => below alike⟩
  · exact ⟨fun _ same => absurd same alike, fun _ => ((cmpArc_unlike alike).2 less).le⟩

theorem cmpArc_neg_iff (less : g.keyOf b < g.keyOf a) :
    g.cmpArc (g.arcs b) (g.arcs a) < 0 ↔ (g.Alike b a → g.Below b a) := by
  by_cases alike : g.Alike b a
  · rw [cmpArc_alike_neg_iff alike]
    exact ⟨fun below _ => below, fun below => below alike⟩
  · exact ⟨fun _ same => absurd same alike, fun _ => (cmpArc_unlike alike).2 less⟩

theorem cmpArc_nonneg_iff (less : g.keyOf a < g.keyOf b) :
    0 ≤ g.cmpArc (g.arcs b) (g.arcs a) ↔ (g.Alike b a → ¬ g.Below b a) := by
  by_cases alike : g.Alike b a
  · rw [← not_lt, cmpArc_alike_neg_iff alike]
    exact ⟨fun above _ => above, fun above => above alike⟩
  · exact ⟨fun _ same => absurd same alike, fun _ => ((cmpArc_unlike alike).1 less).le⟩

/-- Where sizes and counts put an arc among those before it, in ascending order: it passes every
smaller one of its kind, and does not pass a greater one, unless one in between halts it first. -/
structure Ascends (g : MapGraph) (b : ArcRef) (earlier : List ArcRef) : Prop where
  pass : ∀ a ∈ earlier, g.Alike b a → g.keyOf a < g.keyOf b → g.Above b a
  halt : ∀ a ∈ earlier, g.Alike b a → g.keyOf b < g.keyOf a →
    (∃ p ∈ earlier, g.keyOf b ≤ g.keyOf p ∧ g.keyOf p < g.keyOf a) ∨ ¬ g.Above b a

/-- The same in descending order. -/
structure Descends (g : MapGraph) (b : ArcRef) (earlier : List ArcRef) : Prop where
  pass : ∀ a ∈ earlier, g.Alike b a → g.keyOf b < g.keyOf a → g.Below b a
  halt : ∀ a ∈ earlier, g.Alike b a → g.keyOf a < g.keyOf b →
    (∃ p ∈ earlier, g.keyOf p ≤ g.keyOf b ∧ g.keyOf a < g.keyOf p) ∨ ¬ g.Below b a

theorem fits_iff_ascends (earlier : List ArcRef) :
    Fits (g.Stops fun cmp => 0 ≥ cmp) g.keyOf b earlier ↔ g.Ascends b earlier := by
  have stops : ∀ a, g.Stops (fun cmp => 0 ≥ cmp) b a ↔ g.cmpArc (g.arcs b) (g.arcs a) ≤ 0 :=
    fun a => decide_eq_true_iff
  constructor
  · rintro ⟨pass, halt⟩
    refine ⟨fun a member alike less => ?_, fun a member alike less => ?_⟩
    · have passes := pass a member less
      rw [stops, not_le] at passes
      exact (cmpArc_pos_iff less).mp passes alike
    · refine (halt a member less).imp_right fun stop => ?_
      rw [stops] at stop
      exact (cmpArc_nonpos_iff less).mp stop alike
  · rintro ⟨pass, halt⟩
    refine ⟨fun a member less => ?_, fun a member less => ?_⟩
    · rw [stops, not_le]
      exact (cmpArc_pos_iff less).mpr fun alike => pass a member alike less
    · rw [stops, cmpArc_nonpos_iff less]
      by_cases alike : g.Alike b a
      · exact (halt a member alike less).imp_right fun below _ => below
      · exact .inr fun same => absurd same alike

theorem fits_iff_descends (earlier : List ArcRef) :
    Fits (g.Stops fun cmp => 0 ≤ cmp) (fun a => OrderDual.toDual (g.keyOf a)) b earlier ↔
      g.Descends b earlier := by
  have stops : ∀ a, g.Stops (fun cmp => 0 ≤ cmp) b a ↔ 0 ≤ g.cmpArc (g.arcs b) (g.arcs a) :=
    fun a => decide_eq_true_iff
  constructor
  · rintro ⟨pass, halt⟩
    refine ⟨fun a member alike less => ?_, fun a member alike less => ?_⟩
    · have passes := pass a member (OrderDual.toDual_lt_toDual.mpr less)
      rw [stops, not_le] at passes
      exact (cmpArc_neg_iff less).mp passes alike
    · refine (halt a member (OrderDual.toDual_lt_toDual.mpr less)).imp_right fun stop => ?_
      rw [stops] at stop
      exact (cmpArc_nonneg_iff less).mp stop alike
  · rintro ⟨pass, halt⟩
    refine ⟨fun a member less => ?_, fun a member less => ?_⟩
    · have greater := OrderDual.toDual_lt_toDual.mp less
      rw [stops, not_le]
      exact (cmpArc_neg_iff greater).mpr fun alike => pass a member alike greater
    · have smaller := OrderDual.toDual_lt_toDual.mp less
      rw [stops, cmpArc_nonneg_iff smaller]
      by_cases alike : g.Alike b a
      · exact (halt a member alike smaller).imp_right fun above _ => above
      · exact .inr fun same => absurd same alike

/-- Sizes and counts that an `int` can tell apart. -/
def Near (g : MapGraph) (l : List ArcRef) : Prop :=
  ∀ b ∈ l, ∀ a ∈ l, |g.sizeAbove b a| < 2 ^ 31 ∧ |g.countAbove b a| < 2 ^ 31

instance (g : MapGraph) (l : List ArcRef) : Decidable (g.Near l) :=
  inferInstanceAs (Decidable (∀ b ∈ l, ∀ a ∈ l, _))

/-- Such sizes and counts say which of two arcs of a kind has the greater key. -/
theorem above_iff (alike : g.Alike b a) (size : |g.sizeAbove b a| < 2 ^ 31)
    (count : |g.countAbove b a| < 2 ^ 31) :
    (g.Above b a ↔ g.keyOf a < g.keyOf b) ∧ (g.Below b a ↔ g.keyOf b < g.keyOf a) := by
  obtain ⟨otherB, otherA, cycle⟩ := alike
  rw [SelfArc] at otherB otherA
  rw [abs_lt] at size count
  rw [Above, Below, keyOf, keyOf, arcKey, arcKey, if_neg otherB, if_neg otherA, ← cycle]
  cases g.inCycle (g.arcs b) with
  | true =>
    simp only [if_true, Prod.Lex.toLex_lt_toLex, lt_self_iff_false, true_and, false_or, and_false,
      or_false]
    rw [Positive, Negative]
    rw [countAbove] at count ⊢
    omega
  | false =>
    simp only [Bool.false_eq_true, if_false, Prod.Lex.toLex_lt_toLex, lt_self_iff_false, true_and,
      false_or]
    rw [Positive, Positive, Negative, Negative]
    rw [countAbove] at count ⊢
    rw [sizeAbove] at size ⊢
    omega

theorem Near.ascends {l : List ArcRef} (near : g.Near l) (earlier : List ArcRef) (b : ArcRef)
    (later : List ArcRef) (split : l = earlier ++ b :: later) : g.Ascends b earlier := by
  have last : b ∈ l := by simp [split]
  have inside : ∀ a ∈ earlier, a ∈ l := fun a member => by simp [split, member]
  refine ⟨fun a member alike less => ?_, fun a member alike less => ?_⟩
  · obtain ⟨size, count⟩ := near b last a (inside a member)
    exact (above_iff alike size count).1.mpr less
  · obtain ⟨size, count⟩ := near b last a (inside a member)
    exact .inr fun above => lt_asymm less ((above_iff alike size count).1.mp above)

theorem Near.descends {l : List ArcRef} (near : g.Near l) (earlier : List ArcRef) (b : ArcRef)
    (later : List ArcRef) (split : l = earlier ++ b :: later) : g.Descends b earlier := by
  have last : b ∈ l := by simp [split]
  have inside : ∀ a ∈ earlier, a ∈ l := fun a member => by simp [split, member]
  refine ⟨fun a member alike less => ?_, fun a member alike less => ?_⟩
  · obtain ⟨size, count⟩ := near b last a (inside a member)
    exact (above_iff alike size count).2.mpr less
  · obtain ⟨size, count⟩ := near b last a (inside a member)
    exact .inr fun below => lt_asymm less ((above_iff alike size count).2.mp below)

/-- With one self arc at most, either test respects the key. -/
theorem stops_respects {earlier : List ArcRef} (equal : stop 0 = true) (fresh : b ∉ earlier)
    (single : ∀ a ∈ earlier, g.SelfArc a → g.SelfArc b → a = b) :
    Respects (g.Stops stop) g.keyOf b earlier := by
  refine ⟨fun a member same => ?_, fun a _ a' _ same stops => ?_⟩
  · have other : (g.arcs b).parent ≠ (g.arcs b).child := by
      intro selfB
      rcases arcKey_eq same with ⟨selfA, _⟩ | ⟨_, otherB, _⟩
      · exact fresh (single a member selfA selfB ▸ member)
      · exact otherB selfB
    rw [Stops, cmpArc_equal same.symm other]
    exact equal
  · rw [Stops] at stops ⊢
    rw [← cmpArc_congr same]
    exact stops

/-- The sort ends, and the list of the class is then a permutation of what it was, each arc in this
relation to those behind it. -/
def ListSorted (sort : Nat → Option MapGraph) (list : ArcList) (ho : ClassRef) (l : List ArcRef)
    (R : ArcRef → ArcRef → Prop) : Prop :=
  ∃ g' l', (∃ n, ∀ fuel, n < fuel → sort fuel = some g') ∧ g'.HasArcs list ho l' ∧ l'.Perm l ∧
    l'.Pairwise R

theorem sortList_sorted_iff (linked : g.HasArcs list ho l) (R : ArcRef → ArcRef → Prop) :
    ListSorted (fun fuel => sortList list stop fuel ho g) list ho l R ↔
      (insertAll (g.Stops stop) l).Pairwise R := by
  obtain ⟨g₁, run, result, _⟩ := sortList_spec stop linked
  constructor
  · rintro ⟨g₂, l', ⟨n, run'⟩, result', _, order⟩
    have same := (run (n + 2 * l.length + 1) (by omega)).symm.trans
      (run' (n + 2 * l.length + 1) (by omega))
    cases same
    rwa [← Linked.unique result' result]
  · exact fun order => ⟨g₁, _, ⟨_, run⟩, result, insertAll_perm l, order⟩

/-- Sorted exactly if every arc fits among those before it. -/
theorem sortList_fits_iff {κ : Type} [LinearOrder κ] (key : ArcRef → κ)
    (linked : g.HasArcs list ho l)
    (respects : ∀ earlier b later, l = earlier ++ b :: later →
      Respects (g.Stops stop) key b earlier) :
    ListSorted (fun fuel => sortList list stop fuel ho g) list ho l (fun a b => key a ≤ key b) ↔
      ∀ earlier b later, l = earlier ++ b :: later → Fits (g.Stops stop) key b earlier :=
  (sortList_sorted_iff linked _).trans (insertAll_ascending_iff respects)

theorem HasArcs.respects (linked : g.HasArcs list ho l)
    (single : ∀ a ∈ l, ∀ b ∈ l, g.SelfArc a → g.SelfArc b → a = b) (equal : stop 0 = true)
    (earlier : List ArcRef) (b : ArcRef) (later : List ArcRef) (split : l = earlier ++ b :: later) :
    Respects (g.Stops stop) g.keyOf b earlier := by
  have nodup := Linked.nodup linked
  rw [split] at nodup single
  refine stops_respects equal (fun member => ?_) fun a member => ?_
  · exact (List.nodup_append.mp nodup).2.2 b member b List.mem_cons_self rfl
  · exact single a (by simp [member]) b (by simp)

/-- `sort_parents` sorts in ascending and `sort_children` in descending order exactly if what an
`int` keeps of the differences of sizes and counts puts each arc at its place among those of its
kind before it in the list. -/
theorem arcs_sorted_iff (g : MapGraph) (ho : ClassRef) (parents children : List ArcRef)
    (hasParents : g.HasArcs parentList ho parents) (hasChildren : g.HasArcs childList ho children)
    (oneParent : ∀ a ∈ parents, ∀ b ∈ parents, g.SelfArc a → g.SelfArc b → a = b)
    (oneChild : ∀ a ∈ children, ∀ b ∈ children, g.SelfArc a → g.SelfArc b → a = b) :
    (ListSorted (fun fuel => sortParents fuel ho g) parentList ho parents
        (fun a b => g.keyOf a ≤ g.keyOf b) ↔
      ∀ earlier b later, parents = earlier ++ b :: later → g.Ascends b earlier) ∧
    (ListSorted (fun fuel => sortChildren fuel ho g) childList ho children
        (fun a b => g.keyOf b ≤ g.keyOf a) ↔
      ∀ earlier b later, children = earlier ++ b :: later → g.Descends b earlier) := by
  have ascending := sortList_fits_iff g.keyOf hasParents
    (@HasArcs.respects g parentList (fun cmp => 0 ≥ cmp) ho parents hasParents oneParent rfl)
  have respects : ∀ earlier b later, children = earlier ++ b :: later →
      Respects (g.Stops fun cmp => 0 ≤ cmp) (fun a => OrderDual.toDual (g.keyOf a)) b earlier := by
    intro earlier b later split
    obtain ⟨equal, same⟩ := @HasArcs.respects g childList (fun cmp => 0 ≤ cmp) ho children
      hasChildren oneChild rfl earlier b later split
    exact ⟨equal, same⟩
  have descending := sortList_fits_iff (fun a => OrderDual.toDual (g.keyOf a)) hasChildren respects
  simp only [fits_iff_ascends] at ascending
  simp only [fits_iff_descends] at descending
  exact ⟨ascending, descending⟩

/-- Class 0 with two parents, an arc to itself, and a child. -/
def fourArcs : MapGraph :=
  ((((bare fun _ => 0).linkArc 0 1 0 3).linkArc 1 2 0 5).linkArc 2 0 0 1).linkArc 3 0 1 7

theorem fourArcs_sorted :
    fourArcs.HasArcs parentList 0 [2, 1, 0] ∧ fourArcs.HasArcs childList 0 [3, 2] ∧
      ListSorted (fun fuel => sortParents fuel 0 fourArcs) parentList 0 [2, 1, 0]
        (fun a b => fourArcs.keyOf a ≤ fourArcs.keyOf b) ∧
      ListSorted (fun fuel => sortChildren fuel 0 fourArcs) childList 0 [3, 2]
        (fun a b => fourArcs.keyOf b ≤ fourArcs.keyOf a) := by
  have parents : fourArcs.HasArcs parentList 0 [2, 1, 0] := ⟨rfl, rfl, rfl, rfl⟩
  have children : fourArcs.HasArcs childList 0 [3, 2] := ⟨rfl, rfl, rfl⟩
  obtain ⟨ascending, descending⟩ := arcs_sorted_iff fourArcs 0 _ _ parents children
    (by unfold SelfArc; decide +kernel) (by unfold SelfArc; decide +kernel)
  have near : fourArcs.Near [2, 1, 0] ∧ fourArcs.Near [3, 2] := by decide +kernel
  exact ⟨parents, children, ascending.mpr near.1.ascends, descending.mpr near.2.descends⟩

/-- Two arcs whose sizes differ by 2 GB. -/
def wideArcs : MapGraph :=
  ((((bare fun _ => 0).linkArc 0 1 0 1).linkArc 1 2 0 1).modifyArc 0
    fun a => { a with size := 0x80000000 })

/-- The arc of the greater size comes first. -/
theorem wideArcs_unsorted : wideArcs.HasArcs parentList 0 [1, 0] ∧
    (∀ a ∈ [1, 0], ∀ b ∈ [1, 0], wideArcs.SelfArc a → wideArcs.SelfArc b → a = b) ∧
    ¬ ListSorted (fun fuel => sortParents fuel 0 wideArcs) parentList 0 [1, 0]
      (fun a b => wideArcs.keyOf a ≤ wideArcs.keyOf b) := by
  have parents : wideArcs.HasArcs parentList 0 [1, 0] := ⟨rfl, rfl, rfl⟩
  refine ⟨parents, by unfold SelfArc; decide +kernel, fun sorted => ?_⟩
  have order := (sortList_sorted_iff parents _).mp sorted
  exact absurd order (by decide +kernel)

end MapGraph

end Phat
