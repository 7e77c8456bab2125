import Mathlib.Data.List.Induction
import Mathlib.Data.List.Sort

/-! Insertion with a test that is not the order wanted. Each element is put in front of the first
one before which the test `r` stops it, and the list comes out in the order of a key exactly if
every stop and every failure to stop agreed with the key. -/
namespace Phat.KeyedInsertion
variable {α κ : Type} [LinearOrder κ] {r : α → α → Prop} {key : α → κ} {a b : α}
  {s l l' : List α}

/-- The elements put in one after the other. -/
def insertAll (r : α → α → Prop) [DecidableRel r] (l : List α) : List α :=
  l.foldl (fun sorted a => sorted.orderedInsert r a) []

/-- Going through these in order of the key, `b` is stopped by none of a smaller key, and before the
first of a greater key unless one in between stops it. -/
structure Fits (r : α → α → Prop) (key : α → κ) (b : α) (s : List α) : Prop where
  pass : ∀ a ∈ s, key a < key b → ¬ r b a
  halt : ∀ a ∈ s, key b < key a → (∃ p ∈ s, key b ≤ key p ∧ key p < key a) ∨ r b a

/-- The test depends on no more than the key, and stops at an equal one. -/
structure Respects (r : α → α → Prop) (key : α → κ) (b : α) (s : List α) : Prop where
  equal : ∀ a ∈ s, key a = key b → r b a
  same : ∀ a ∈ s, ∀ a' ∈ s, key a = key a' → r b a → r b a'

abbrev Ascending (key : α → κ) (l : List α) : Prop := l.Pairwise fun a b => key a ≤ key b

theorem insertAll_perm [DecidableRel r] (l : List α) : (insertAll r l).Perm l := by
  rw [insertAll, ← List.foldr_reverse]
  exact (List.perm_insertionSort r _).trans l.reverse_perm

theorem insertAll_append_singleton [DecidableRel r] (l : List α) (b : α) :
    insertAll r (l ++ [b]) = (insertAll r l).orderedInsert r b := by
  rw [insertAll, List.foldl_append]
  rfl

theorem Fits.perm (fits : Fits r key b s) (perm : s.Perm l) : Fits r key b l := by
  obtain ⟨pass, halt⟩ := fits
  refine ⟨fun a member => pass a (perm.mem_iff.mpr member), fun a member above => ?_⟩
  rcases halt a (perm.mem_iff.mpr member) above with ⟨p, between, bounds⟩ | stop
  · exact .inl ⟨p, perm.mem_iff.mp between, bounds⟩
  · exact .inr stop

omit [LinearOrder κ] in
theorem Respects.tail (respects : Respects r key b (a :: s)) : Respects r key b s :=
  ⟨fun x member => respects.equal x (.tail _ member),
    fun x member x' member' => respects.same x (.tail _ member) x' (.tail _ member')⟩

/-- Stopped by the first element. -/
theorem fits_head (ascending : Ascending key (a :: s)) (respects : Respects r key b (a :: s))
    (stop : r b a) : Fits r key b (a :: s) ↔ key b ≤ key a := by
  have least := (List.pairwise_cons.mp ascending).1
  constructor
  · intro fits
    by_contra above
    exact fits.pass a List.mem_cons_self (lt_of_not_ge above) stop
  · intro below
    refine ⟨fun x member less => ?_, fun x member above => ?_⟩
    · rcases List.mem_cons.mp member with rfl | member
      · exact absurd less (not_lt_of_ge below)
      · exact absurd less (not_lt_of_ge (below.trans (least x member)))
    · rcases List.mem_cons.mp member with rfl | inside
      · exact .inr stop
      · rcases (least x inside).lt_or_eq with less | equal
        · exact .inl ⟨a, List.mem_cons_self, below, less⟩
        · exact .inr (respects.same a List.mem_cons_self x member equal stop)

/-- Past the first element. -/
theorem fits_cons (ascending : Ascending key (a :: s)) (respects : Respects r key b (a :: s))
    (pass : ¬ r b a) : Fits r key b (a :: s) ↔ key a ≤ key b ∧ Fits r key b s := by
  have least := (List.pairwise_cons.mp ascending).1
  have other : key a ≠ key b := fun equal => pass (respects.equal a List.mem_cons_self equal)
  constructor
  · intro fits
    have below : key a ≤ key b := by
      by_contra above
      rcases fits.halt a List.mem_cons_self (lt_of_not_ge above) with ⟨p, member, _, less⟩ | stop
      · rcases List.mem_cons.mp member with rfl | member
        · exact lt_irrefl _ less
        · exact absurd less (not_lt_of_ge (least p member))
      · exact pass stop
    refine ⟨below, fun x member => fits.pass x (.tail _ member), fun x member above => ?_⟩
    rcases fits.halt x (.tail _ member) above with ⟨p, between, bound, less⟩ | stop
    · rcases List.mem_cons.mp between with rfl | between
      · exact absurd (le_antisymm below bound) other
      · exact .inl ⟨p, between, bound, less⟩
    · exact .inr stop
  · rintro ⟨below, fits⟩
    refine ⟨fun x member less => ?_, fun x member above => ?_⟩
    · rcases List.mem_cons.mp member with rfl | member
      · exact pass
      · exact fits.pass x member less
    · rcases List.mem_cons.mp member with rfl | member
      · exact absurd above (not_lt_of_ge below)
      · rcases fits.halt x member above with ⟨p, between, bounds⟩ | stop
        · exact .inl ⟨p, .tail _ between, bounds⟩
        · exact .inr stop

theorem orderedInsert_ascending_iff [DecidableRel r] (ascending : Ascending key s)
    (respects : Respects r key b s) : Ascending key (s.orderedInsert r b) ↔ Fits r key b s := by
  induction s with
  | nil => exact ⟨fun _ => ⟨by simp, by simp⟩, fun _ => by simp [Ascending]⟩
  | cons a s ih =>
    have least := (List.pairwise_cons.mp ascending).1
    by_cases stop : r b a
    · rw [List.orderedInsert_cons, if_pos stop, fits_head ascending respects stop, Ascending,
        List.pairwise_cons]
      constructor
      · exact fun sorted => sorted.1 a List.mem_cons_self
      · intro below
        refine ⟨fun x member => ?_, ascending⟩
        rcases List.mem_cons.mp member with rfl | member
        · exact below
        · exact below.trans (least x member)
    · rw [List.orderedInsert_cons, if_neg stop, fits_cons ascending respects stop, Ascending,
        List.pairwise_cons, ← ih (List.pairwise_cons.mp ascending).2 respects.tail]
      refine and_congr_left fun _ => ?_
      simp only [List.mem_orderedInsert, forall_eq_or_imp]
      exact and_iff_left least

/-- The list comes out in order exactly if each element fits among those before it. -/
theorem insertAll_ascending_iff [DecidableRel r]
    (respects : ∀ earlier b later, l = earlier ++ b :: later → Respects r key b earlier) :
    Ascending key (insertAll r l) ↔
      ∀ earlier b later, l = earlier ++ b :: later → Fits r key b earlier := by
  induction l using List.reverseRecOn with
  | nil => simp [insertAll, Ascending]
  | append_singleton l b ih =>
    have inner : ∀ earlier b' later, l = earlier ++ b' :: later → Respects r key b' earlier := by
      rintro earlier b' later rfl
      exact respects earlier b' (later ++ [b]) (by simp)
    have last : Respects r key b (insertAll r l) := by
      obtain ⟨equal, same⟩ := respects l b [] rfl
      have member : ∀ a, a ∈ insertAll r l → a ∈ l := fun a => (insertAll_perm l).mem_iff.mp
      exact ⟨fun a inside => equal a (member a inside),
        fun a inside a' inside' => same a (member a inside) a' (member a' inside')⟩
    rw [insertAll_append_singleton]
    constructor
    · intro sorted earlier b' later split
      have before := sorted.sublist (List.sublist_orderedInsert b _)
      rcases List.eq_nil_or_concat later with rfl | ⟨later, x, rfl⟩
      · obtain ⟨rfl, same⟩ := List.append_inj' split rfl
        obtain rfl := List.singleton_inj.mp same
        exact ((orderedInsert_ascending_iff before last).mp sorted).perm (insertAll_perm _)
      · rw [List.concat_eq_append, ← List.cons_append, ← List.append_assoc] at split
        obtain ⟨rfl, _⟩ := List.append_inj' split rfl
        exact (ih inner).mp before earlier b' later rfl
    · intro fits
      have before := (ih inner).mpr fun earlier b' later split =>
        fits earlier b' (later ++ [b]) (by simp [split])
      exact (orderedInsert_ascending_iff before last).mpr
        ((fits l b [] rfl).perm (insertAll_perm l).symm)

end Phat.KeyedInsertion
