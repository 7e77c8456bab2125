import Mathlib.Data.List.TakeWhile

/-! Run-length listings of a sequence in which some elements are listed by themselves. Equal
others that follow each other make up a group, which is listed by a label and a count. A
lister that remembers the last label even behind an element listed by itself leaves out the
label of a group when that is the same again. -/
namespace Phat.RunLength
variable {α β γ : Type}

inductive Item (α β : Type) where
  | label (a : α)
  | elements (n : Nat)
  | nested (b : β)
deriving DecidableEq

/-- The item with another label. -/
def Item.mapLabel (f : α → γ) : Item α β → Item γ β
  | .label a => .label (f a)
  | .elements n => .elements n
  | .nested b => .nested b

/-- What a listing says, if every count has its label. -/
def decode : List (Item α β) → Option (List (α ⊕ β))
  | [] => some []
  | .nested b :: items => (decode items).map (.inr b :: ·)
  | .label a :: .elements n :: items => (decode items).map (List.replicate n (.inl a) ++ ·)
  | _ => none

/-- The number of elements that a listing accounts for. -/
def tally : List (Item α β) → Nat
  | [] => 0
  | .nested _ :: items => 1 + tally items
  | .elements n :: items => n + tally items
  | .label _ :: items => tally items

def flush (n : Nat) : List (Item α β) := if n ≠ 0 then [.elements n] else []

theorem tally_flush (n : Nat) (items : List (Item α β)) :
    tally (flush n ++ items) = n + tally items := by
  rw [flush]
  split
  · rfl
  · rename_i none
    rw [List.nil_append, not_not.mp none, Nat.zero_add]

theorem tally_mapLabel (f : α → γ) (items : List (Item α β)) :
    tally (items.map (Item.mapLabel f)) = tally items := by
  induction items with
  | nil => rfl
  | cons item items ih =>
    cases item with
    | label a => rw [List.map_cons, Item.mapLabel, tally, tally, ih]
    | elements n => rw [List.map_cons, Item.mapLabel, tally, tally, ih]
    | nested b => rw [List.map_cons, Item.mapLabel, tally, tally, ih]

/-- Other labels stand for other elements. -/
theorem decode_mapLabel (f : α → γ) (items : List (Item α β)) :
    decode (items.map (Item.mapLabel f)) = (decode items).map (List.map (Sum.map f id)) := by
  induction items using decode.induct with
  | case1 => rfl
  | case2 b items ih =>
    rw [List.map_cons, Item.mapLabel, decode, decode, ih, Option.map_map, Option.map_map]
    rfl
  | case3 a n items ih =>
    rw [List.map_cons, List.map_cons, Item.mapLabel, Item.mapLabel, decode, decode, ih,
      Option.map_map, Option.map_map]
    congr 1
    funext rest
    simp
  | case4 items empty object group =>
    rw [decode.eq_4 _ empty object group]
    cases items with
    | nil => exact absurd rfl empty
    | cons item items =>
      cases item with
      | nested b => exact absurd rfl (object b items)
      | elements n => rfl
      | label a =>
        cases items with
        | nil => rfl
        | cons next items =>
          cases next with
          | elements n => exact absurd rfl (group a n items)
          | label a' => rfl
          | nested b => rfl

variable [DecidableEq α]

/-- Whether an element belongs to a group of `a`. -/
def sameAs (a : α) : α ⊕ β → Bool
  | .inl x => x = a
  | .inr _ => false

/-- The groups, each with a label of its own. -/
def groups : List (α ⊕ β) → List (Item α β)
  | [] => []
  | .inr b :: xs => .nested b :: groups xs
  | .inl a :: xs =>
    .label a :: .elements (1 + (xs.takeWhile (sameAs a)).length) :: groups (xs.dropWhile (sameAs a))
termination_by xs => xs.length
decreasing_by
  · exact Nat.lt_succ_self _
  · exact Nat.lt_succ_of_le (List.dropWhile_suffix _).length_le

/-- The lister, with `n` elements counted since the last label, which was `last`. -/
def listing : Nat → α → List (α ⊕ β) → List (Item α β)
  | n, _, [] => flush n
  | n, last, .inr b :: xs => flush n ++ .nested b :: listing 0 last xs
  | n, last, .inl a :: xs =>
    if last ≠ a then flush n ++ .label a :: listing 1 a xs else listing (n + 1) last xs

/-- At the front and behind an element listed by itself no group has the label before it;
`following` tells that the element before belongs to a group. -/
def Announced : Bool → α → List (α ⊕ β) → Prop
  | _, _, [] => True
  | _, last, .inr _ :: xs => Announced false last xs
  | following, last, .inl a :: xs => (following = false → last ≠ a) ∧ Announced true a xs

section Listing
variable {n : Nat} {last a : α} {xs : List (α ⊕ β)}

theorem sameAs_iff {x : α ⊕ β} : sameAs a x = true ↔ x = .inl a := by
  cases x with
  | inl x => simp [sameAs]
  | inr b => simp [sameAs]

theorem takeWhile_sameAs (a : α) (xs : List (α ⊕ β)) :
    xs.takeWhile (sameAs a) = List.replicate (xs.takeWhile (sameAs a)).length (.inl a) :=
  List.eq_replicate_of_mem fun _ member => sameAs_iff.mp (List.mem_takeWhile_imp member)

/-- The groups say what the sequence is. -/
theorem decode_groups (xs : List (α ⊕ β)) : decode (groups xs) = some xs := by
  induction xs using groups.induct with
  | case1 => rw [groups, decode]
  | case2 b xs ih => rw [groups, decode, ih, Option.map_some]
  | case3 a xs ih =>
    rw [groups, decode, ih, Option.map_some, Nat.add_comm, List.replicate_succ,
      ← takeWhile_sameAs, List.cons_append, List.takeWhile_append_dropWhile]

/-- No element is lost from the counts. -/
theorem tally_listing (n : Nat) (last : α) (xs : List (α ⊕ β)) :
    tally (listing n last xs) = n + xs.length := by
  induction xs generalizing n last with
  | nil =>
    have none := tally_flush n ([] : List (Item α β))
    rwa [List.append_nil] at none
  | cons x xs ih =>
    cases x with
    | inr b =>
      rw [listing, tally_flush, tally, ih, List.length_cons]
      omega
    | inl a =>
      rw [listing]
      split
      · rw [tally_flush, tally, ih, List.length_cons, Nat.add_comm 1]
      · rw [ih, List.length_cons]
        omega

/-- A group that has been begun is counted to its end. -/
theorem listing_begun (n : Nat) (last : α) (xs : List (α ⊕ β)) :
    listing (n + 1) last xs = .elements (n + 1 + (xs.takeWhile (sameAs last)).length) ::
      listing 0 last (xs.dropWhile (sameAs last)) := by
  induction xs generalizing n with
  | nil => rfl
  | cons x xs ih =>
    cases x with
    | inr b => rfl
    | inl a =>
      by_cases same : last = a
      · subst same
        have here : sameAs (β := β) last (.inl last) = true := by simp [sameAs]
        rw [listing, if_neg (not_not.mpr rfl), ih, List.takeWhile_cons_of_pos here,
          List.dropWhile_cons_of_pos here, List.length_cons]
        congr 2
        omega
      · have here : ¬ sameAs (β := β) last (.inl a) = true := by simp [sameAs, Ne.symm same]
        rw [listing, if_pos same, List.takeWhile_cons_of_neg here,
          List.dropWhile_cons_of_neg here, listing, if_pos same]
        rfl

/-- Within a group nothing is asked of its elements. -/
theorem announced_following (last : α) (xs : List (α ⊕ β)) :
    Announced true last xs ↔ Announced false last (xs.dropWhile (sameAs last)) := by
  induction xs with
  | nil => exact Iff.rfl
  | cons x xs ih =>
    cases x with
    | inr b => exact Iff.rfl
    | inl a =>
      by_cases same : last = a
      · subst same
        have here : sameAs (β := β) last (.inl last) = true := by simp [sameAs]
        rw [Announced, List.dropWhile_cons_of_pos here, ← ih]
        simp
      · have here : ¬ sameAs (β := β) last (.inl a) = true := by simp [sameAs, Ne.symm same]
        rw [Announced, List.dropWhile_cons_of_neg here, Announced]
        simp [same]

/-- The lister lists the groups if none has the label before it. -/
theorem listing_eq_groups_iff (last : α) (xs : List (α ⊕ β)) :
    listing 0 last xs = groups xs ↔ Announced false last xs := by
  induction xs using groups.induct generalizing last with
  | case1 =>
    rw [groups]
    exact iff_of_true rfl trivial
  | case2 b xs ih =>
    rw [groups, listing, Announced, ← ih]
    simp [flush]
  | case3 a xs ih =>
    rw [groups, listing, Announced, announced_following, ← ih]
    by_cases same : last = a
    · rw [if_neg (not_not.mpr same), listing_begun]
      simp [same]
    · rw [if_pos same, listing_begun]
      simp [flush, same]

/-- A listing that can be read has a label on every group. -/
theorem announced_of_decode {last : α} {xs : List (α ⊕ β)}
    (read : decode (listing 0 last xs) ≠ none) : Announced false last xs := by
  induction xs using groups.induct generalizing last with
  | case1 => trivial
  | case2 b xs ih =>
    apply ih
    intro unread
    apply read
    change (decode (listing 0 last xs)).map _ = none
    rw [unread, Option.map_none]
  | case3 a xs ih =>
    by_cases same : last = a
    · rw [listing, if_neg (not_not.mpr same), listing_begun] at read
      exact absurd rfl read
    · refine ⟨fun _ => same, (announced_following _ _).mpr (ih fun unread => ?_)⟩
      apply read
      rw [listing, if_pos same, listing_begun]
      change (decode (listing 0 a _)).map _ = none
      rw [unread, Option.map_none]

end Listing

end Phat.RunLength
