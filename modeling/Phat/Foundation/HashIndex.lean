import Mathlib.Data.List.Basic

/-! An index that keeps one entry for each hash, the one last recorded under it, whether or not
it is the entry of what is looked up. -/
namespace Phat.HashIndex
variable {α β : Type} [DecidableEq β] {hash : α → β} {recorded : List α} {a : α} {h : β}

/-- What the index has under a hash; the entries recorded come with the last first. -/
def newest (hash : α → β) (recorded : List α) (h : β) : Option α :=
  recorded.find? fun a => hash a = h

/-- After every entry that is wanted under a hash another one has been recorded under it. -/
def Hidden (hash : α → β) (recorded : List α) (h : β) (Wanted : α → Prop) : Prop :=
  ∃ later a earlier, recorded = later ++ a :: earlier ∧ hash a = h ∧ ¬ Wanted a ∧
    ∀ b ∈ later, hash b = h → ¬ Wanted b

@[simp] theorem newest_nil : newest hash [] h = none := rfl

theorem newest_cons_self : newest hash (a :: recorded) (hash a) = some a := by
  simp [newest]

theorem newest_cons_of_ne (other : h ≠ hash a) :
    newest hash (a :: recorded) h = newest hash recorded h := by
  simp [newest, other.symm]

theorem newest_hash (found : newest hash recorded h = some a) : hash a = h := by
  simpa using List.find?_some found

theorem newest_exists (member : a ∈ recorded) :
    ∃ b, newest hash recorded (hash a) = some b ∧ b ∈ recorded := by
  have some : (newest hash recorded (hash a)).isSome = true := by
    rw [newest, List.find?_isSome]
    exact ⟨a, member, by simp⟩
  obtain ⟨b, found⟩ := Option.isSome_iff_exists.mp some
  exact ⟨b, found, List.mem_of_find?_eq_some found⟩

theorem newest_append (later earlier : List α) :
    newest hash (later ++ earlier) h = (newest hash later h).or (newest hash earlier h) :=
  List.find?_append

/-- The index has nothing but wanted entries under a hash exactly if none is hidden there. -/
theorem newest_wanted_iff {Wanted : α → Prop} :
    (∀ a, newest hash recorded h = some a → Wanted a) ↔ ¬ Hidden hash recorded h Wanted := by
  constructor
  · rintro wanted ⟨later, a, earlier, rfl, rfl, other, none⟩
    cases found : newest hash later (hash a) with
    | none =>
      refine other (wanted a ?_)
      rw [newest_append, found, newest_cons_self, Option.none_or]
    | some b =>
      refine none b (List.mem_of_find?_eq_some found) (newest_hash found) (wanted b ?_)
      rw [newest_append, found, Option.some_or]
  · intro clear a found
    by_contra other
    obtain ⟨same, later, earlier, split, none⟩ := List.find?_eq_some_iff_append.mp found
    refine clear ⟨later, a, earlier, split, by simpa using same, other, fun b member equal => ?_⟩
    exact absurd equal (by simpa using none b member)

omit [DecidableEq β] in
theorem not_hidden_of_all {Wanted : α → Prop}
    (wanted : ∀ b ∈ recorded, hash b = h → Wanted b) : ¬ Hidden hash recorded h Wanted := by
  rintro ⟨later, a, earlier, rfl, same, other, _⟩
  exact other (wanted a (List.mem_append_right later (.head _)) same)

end Phat.HashIndex
