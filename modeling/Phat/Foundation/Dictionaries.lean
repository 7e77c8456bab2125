import Mathlib.Logic.Function.Basic

/-! Dictionaries that live side by side. One that is transient does not outlive its last entry: it
goes when the removal of entries leaves it empty, but not for being empty before its first. -/
namespace Phat.Dictionaries
variable {ι κ α : Type}

structure Family (ι κ α : Type) where
  value : ι → κ → Option α
  live : ι → Prop
  transient : ι → Prop

namespace Family

@[ext] theorem ext' {F G : Family ι κ α} (value : F.value = G.value) (live : F.live = G.live)
    (transient : F.transient = G.transient) : F = G := by
  cases F
  cases G
  congr

/-- A new dictionary, empty. -/
def make [DecidableEq ι] (F : Family ι κ α) (i : ι) (transient : Prop) : Family ι κ α where
  value := Function.update F.value i fun _ => none
  live := Function.update F.live i True
  transient := Function.update F.transient i transient

def assign [DecidableEq ι] [DecidableEq κ] (F : Family ι κ α) (i : ι) (k : κ) (a : α) :
    Family ι κ α :=
  { F with value := Function.update F.value i (Function.update (F.value i) k (some a)) }

open Classical in
/-- The entries at these places are removed. -/
noncomputable def clear (F : Family ι κ α) (gone : ι → κ → Prop) : Family ι κ α where
  value i k := if gone i k then none else F.value i k
  live i := F.live i ∧ ¬ (F.transient i ∧ (∃ k, gone i k ∧ F.value i k ≠ none) ∧
    ∀ k, gone i k ∨ F.value i k = none)
  transient := F.transient

section Clear
variable {F : Family ι κ α} {gone gone' : ι → κ → Prop} {i : ι} {k : κ}

theorem value_clear_of (here : gone i k) : (F.clear gone).value i k = none := if_pos here

theorem value_clear_of_not (away : ¬ gone i k) : (F.clear gone).value i k = F.value i k := if_neg away

theorem value_clear_eq_none : (F.clear gone).value i k = none ↔ gone i k ∨ F.value i k = none := by
  by_cases here : gone i k
  · simp [value_clear_of here, here]
  · simp [value_clear_of_not here, here]

/-- Where nothing goes, nothing changes. -/
theorem live_clear_of_not (away : ∀ k, gone i k → F.value i k = none) :
    (F.clear gone).live i ↔ F.live i := by
  refine and_iff_left ?_
  rintro ⟨_, ⟨k, here, present⟩, _⟩
  exact present (away k here)

theorem clear_of_absent (away : ∀ i k, gone i k → F.value i k = none) : F.clear gone = F := by
  refine ext' ?_ ?_ rfl
  · funext i k
    by_cases here : gone i k
    · rw [value_clear_of here, away i k here]
    · exact value_clear_of_not here
  · funext i
    exact propext (live_clear_of_not (away i))

/-- Removing entries in two goes is removing them at once. -/
theorem clear_clear : (F.clear gone).clear gone' = F.clear fun i k => gone i k ∨ gone' i k := by
  refine ext' ?_ ?_ rfl
  · funext i k
    by_cases here : gone' i k
    · rw [value_clear_of here, value_clear_of (.inr here)]
    · rw [value_clear_of_not here]
      by_cases before : gone i k
      · rw [value_clear_of before, value_clear_of (.inl before)]
      · have neither : ¬ (gone i k ∨ gone' i k) := not_or.mpr ⟨before, here⟩
        rw [value_clear_of_not before]
        exact (if_neg neither).symm
  · funext i
    refine propext ?_
    rw [clear, clear, clear]
    constructor
    · rintro ⟨⟨live, notFirst⟩, notSecond⟩
      refine ⟨live, fun ⟨transient, ⟨k, here, present⟩, empty⟩ => ?_⟩
      by_cases emptied : ∀ k, gone i k ∨ F.value i k = none
      · exact notFirst ⟨transient, ⟨k, (emptied k).resolve_right present, present⟩, emptied⟩
      · obtain ⟨l, left⟩ := not_forall.mp emptied
        refine notSecond ⟨transient, ⟨l, ?_, value_clear_eq_none.not.mpr left⟩, fun j => ?_⟩
        · exact ((empty l).resolve_right (not_or.mp left).2).resolve_left (not_or.mp left).1
        · rcases empty j with (before | now) | none
          · exact .inr (value_clear_of before)
          · exact .inl now
          · exact .inr (value_clear_eq_none.mpr (.inr none))
    · rintro ⟨live, notBoth⟩
      refine ⟨⟨live, fun ⟨transient, ⟨k, here, present⟩, empty⟩ => ?_⟩,
        fun ⟨transient, ⟨k, here, present⟩, empty⟩ => ?_⟩
      · exact notBoth ⟨transient, ⟨k, .inl here, present⟩, fun j => (empty j).imp_left .inl⟩
      · obtain ⟨_, present⟩ := not_or.mp (mt value_clear_eq_none.mpr present)
        refine notBoth ⟨transient, ⟨k, .inr here, present⟩, fun j => ?_⟩
        rcases empty j with now | none
        · exact .inl (.inr now)
        · exact (value_clear_eq_none.mp none).imp_left .inl

end Clear

end Family

end Phat.Dictionaries
