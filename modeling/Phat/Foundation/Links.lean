import Mathlib.Data.List.Sort
import Mathlib.Logic.Function.Basic

/-! Lists linked through a pointer in each node, and insertion into such a list in place. -/
namespace Phat.Links
variable {α : Type} {next next' : α → Option α} {start : Option α} {l l' : List α} {a b : α}

/-- Following the pointers leads through these nodes to NULL, which is `none`. -/
def Linked (next : α → Option α) : Option α → List α → Prop
  | start, [] => start = none
  | start, a :: rest => start = some a ∧ Linked next (next a) rest

@[simp] theorem linked_nil : Linked next start [] ↔ start = none := Iff.rfl

@[simp] theorem linked_cons :
    Linked next start (a :: l) ↔ start = some a ∧ Linked next (next a) l := Iff.rfl

theorem linked_none : Linked next none l ↔ l = [] := by
  cases l with
  | nil => simp
  | cons a l => simp

theorem linked_some : Linked next (some a) l ↔ ∃ rest, l = a :: rest ∧ Linked next (next a) rest := by
  cases l with
  | nil => simp
  | cons b l =>
    simp only [linked_cons, Option.some.injEq, List.cons.injEq]
    constructor
    · rintro ⟨rfl, linked⟩
      exact ⟨l, ⟨rfl, rfl⟩, linked⟩
    · rintro ⟨_, ⟨rfl, rfl⟩, linked⟩
      exact ⟨rfl, linked⟩

theorem Linked.unique (linked : Linked next start l) (linked' : Linked next start l') : l = l' := by
  induction l generalizing start l' with
  | nil =>
    rw [linked_nil] at linked
    rw [linked, linked_none] at linked'
    exact linked'.symm
  | cons a l ih =>
    obtain ⟨rfl, linked⟩ := linked
    obtain ⟨rest, rfl, onward⟩ := linked_some.mp linked'
    rw [ih linked onward]

/-- Only the pointers of the nodes on the list matter. -/
theorem Linked.congr (linked : Linked next start l) (same : ∀ a ∈ l, next' a = next a) :
    Linked next' start l := by
  induction l generalizing start with
  | nil => exact linked
  | cons a l ih =>
    obtain ⟨rfl, linked⟩ := linked
    refine ⟨rfl, ?_⟩
    rw [same a List.mem_cons_self]
    exact ih linked fun b member => same b (List.mem_cons_of_mem _ member)

theorem Linked.suffix (linked : Linked next start (l ++ a :: l')) :
    Linked next (some a) (a :: l') := by
  induction l generalizing start with
  | nil =>
    obtain ⟨rfl, linked⟩ := linked
    exact ⟨rfl, linked⟩
  | cons b l ih => exact ih linked.2

/-- A list that ends does not come back to a node. -/
theorem Linked.nodup (linked : Linked next start l) : l.Nodup := by
  induction l generalizing start with
  | nil => exact List.nodup_nil
  | cons a l ih =>
    obtain ⟨rfl, linked⟩ := linked
    refine List.nodup_cons.mpr ⟨fun again => ?_, ih linked⟩
    obtain ⟨between, after, rfl⟩ := List.append_of_mem again
    have same := linked.suffix.unique (show Linked next (some a) (a :: _) from ⟨rfl, linked⟩)
    have lengths := congrArg List.length same
    simp only [List.length_cons, List.length_append] at lengths
    omega

section Insertion
variable {links : Option α → Option α} {prev : Option α} {r : α → α → Prop} [DecidableRel r]

/-- The pointer behind which a node is inserted: `prev`, or that of the last node passed. The pointer
`none` is the one to the first node of the list. -/
def place (r : α → α → Prop) [DecidableRel r] (a : α) : Option α → List α → Option α
  | prev, [] => prev
  | prev, b :: rest => if r a b then prev else place r a (some b) rest

/-- The node `a` is linked in behind `prev`. -/
def linkIn [DecidableEq α] (links : Option α → Option α) (a : α) (prev : Option α) :
    Option α → Option α :=
  Function.update (Function.update links (some a) (links prev)) prev (some a)

variable [DecidableEq α]

theorem linkIn_self (other : some a ≠ prev) : linkIn links a prev (some a) = links prev := by
  rw [linkIn, Function.update_of_ne other, Function.update_self]

theorem linkIn_prev : linkIn links a prev prev = some a := Function.update_self ..

theorem linkIn_of_ne {q : Option α} (notNew : q ≠ some a) (notPrev : q ≠ prev) :
    linkIn links a prev q = links q := by
  rw [linkIn, Function.update_of_ne notPrev, Function.update_of_ne notNew]

/-- Linked in at once, the node comes in front of the list. -/
theorem linkIn_linked (linked : Linked (fun b => links (some b)) (links prev) l)
    (fresh : a ∉ l) (other : some a ≠ prev) (before : ∀ b ∈ l, some b ≠ prev) :
    Linked (fun b => linkIn links a prev (some b)) (linkIn links a prev prev) (a :: l) := by
  refine ⟨linkIn_prev, ?_⟩
  change Linked _ (linkIn links a prev (some a)) l
  rw [linkIn_self other]
  refine linked.congr fun b member => linkIn_of_ne (fun same => ?_) (before b member)
  exact fresh (Option.some.inj same ▸ member)

/-- Linked in at its place, it comes where an insertion into the list would put it; no pointers but
those of the list, of the node and `prev` have changed. -/
theorem place_linked (linked : Linked (fun b => links (some b)) (links prev) l)
    (fresh : a ∉ l) (other : some a ≠ prev) (before : ∀ b ∈ l, some b ≠ prev) :
    Linked (fun b => linkIn links a (place r a prev l) (some b))
      (linkIn links a (place r a prev l) prev) (l.orderedInsert r a) ∧
    ∀ q, q ≠ some a → q ≠ prev → (∀ b ∈ l, q ≠ some b) →
      linkIn links a (place r a prev l) q = links q := by
  induction l generalizing prev with
  | nil => exact ⟨linkIn_linked linked fresh other before, fun q notNew notPrev _ =>
      linkIn_of_ne notNew notPrev⟩
  | cons b rest ih =>
    by_cases stop : r a b
    · rw [place, if_pos stop, List.orderedInsert_cons, if_pos stop]
      exact ⟨linkIn_linked linked fresh other before, fun q notNew notPrev _ =>
        linkIn_of_ne notNew notPrev⟩
    · rw [place, if_neg stop, List.orderedInsert_cons, if_neg stop]
      have nodup := List.nodup_cons.mp linked.nodup
      obtain ⟨head, tail⟩ := linked
      simp only [List.mem_cons, not_or] at fresh
      obtain ⟨inserted, frame⟩ := @ih (some b) tail fresh.2 (by simp [fresh.1])
        fun x member same => nodup.1 (Option.some.inj same ▸ member)
      refine ⟨⟨?_, inserted⟩, fun q notNew _ outside => ?_⟩
      · rw [frame prev other.symm (before b List.mem_cons_self).symm
          fun x member => (before x (.tail _ member)).symm]
        exact head
      · exact frame q notNew (outside b List.mem_cons_self) fun x member =>
          outside x (.tail _ member)

end Insertion

end Phat.Links
