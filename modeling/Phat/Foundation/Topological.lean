import Mathlib.Data.Finset.Card
import Mathlib.Data.Finset.Filter
import Mathlib.Logic.Relation

/-! Nodes of a graph listed after the nodes their arcs lead to, and numbered in this order. Arcs from
a node to itself are passed over throughout. -/
namespace Phat.Topological
open Relation
variable {ν : Type} {edge : ν → ν → Prop} {c d x y : ν} {earlier order : List ν}

/-- Two nodes that reach each other. -/
def Mutual (edge : ν → ν → Prop) (x y : ν) : Prop := ReflTransGen edge x y ∧ ReflTransGen edge y x

/-- The nodes reached from these. -/
def Reached (edge : ν → ν → Prop) (roots : List ν) (x : ν) : Prop :=
  ∃ root ∈ roots, ReflTransGen edge root x

theorem Reached.tail {roots : List ν} (reached : Reached edge roots x) (arc : edge x y) :
    Reached edge roots y := by
  obtain ⟨root, member, path⟩ := reached
  exact ⟨root, member, path.tail arc⟩

section Finite
variable {nodes : Finset ν} {region : ν → Prop}

/-- On a finite set of nodes, where no two reach each other, what holds of a node as soon as it holds
of the nodes its arcs lead to holds of all. -/
theorem acyclic_induction {P : ν → Prop} (finite : ∀ x, region x → x ∈ nodes)
    (closed : ∀ x y, region x → edge x y → region y)
    (acyclic : ∀ x y, region x → Mutual edge x y → x = y)
    (step : ∀ x, region x → (∀ y, edge x y → y ≠ x → P y) → P x) (inside : region x) : P x := by
  classical
  -- A step down leaves the node itself out of what is reached.
  let reached : ν → Finset ν := fun x => nodes.filter fun y => ReflTransGen edge x y
  have descends : ∀ x y, region x → edge x y → y ≠ x → (reached y).card < (reached x).card := by
    intro x y inside arc other
    refine Finset.card_lt_card ((Finset.ssubset_iff_of_subset ?_).mpr ⟨x, ?_, ?_⟩)
    · intro z
      simp only [reached, Finset.mem_filter]
      exact fun ⟨member, path⟩ => ⟨member, .head arc path⟩
    · exact Finset.mem_filter.mpr ⟨finite x inside, .refl⟩
    · intro back
      exact other (acyclic x y inside ⟨.single arc, (Finset.mem_filter.mp back).2⟩).symm
  have bounded : ∀ n x, region x → (reached x).card < n → P x := by
    intro n
    induction n with
    | zero => exact fun x _ none => absurd none (Nat.not_lt_zero _)
    | succ n ih =>
      intro x inside small
      refine step x inside fun y arc other => ih y (closed x y inside arc) ?_
      have := descends x y inside arc other
      omega
  exact bounded _ x inside (Nat.lt_succ_self _)

end Finite

/-- The last node comes first. -/
def Ordered (edge : ν → ν → Prop) : List ν → Prop
  | [] => True
  | c :: earlier => c ∉ earlier ∧ (∀ d, edge c d → d ≠ c → d ∈ earlier) ∧ Ordered edge earlier

theorem Ordered.closed (ordered : Ordered edge order) (member : x ∈ order) (arc : edge x y) :
    y ∈ order := by
  by_cases here : y = x
  · exact here ▸ member
  · induction order with
    | nil => exact absurd member List.not_mem_nil
    | cons c earlier ih =>
      obtain ⟨_, below, ordered⟩ := ordered
      rcases List.mem_cons.mp member with rfl | member
      · exact .tail _ (below y arc here)
      · exact .tail _ (ih ordered member)

theorem Ordered.reached {roots : List ν} (ordered : Ordered edge order)
    (member : ∀ root ∈ roots, root ∈ order) (reached : Reached edge roots x) : x ∈ order := by
  obtain ⟨root, isRoot, path⟩ := reached
  induction path with
  | refl => exact member root isRoot
  | tail _ arc ih => exact ordered.closed ih arc

section Number
variable [DecidableEq ν]

/-- The number of a node, from 1 up; 0 if it is not listed. -/
def number : List ν → ν → Nat
  | [], _ => 0
  | c :: earlier, x => if x = c then earlier.length + 1 else number earlier x

theorem number_le (order : List ν) (x : ν) : number order x ≤ order.length := by
  induction order with
  | nil => exact le_refl 0
  | cons c earlier ih =>
    rw [number, List.length_cons]
    split
    · exact le_refl _
    · omega

theorem number_pos_iff : 0 < number order x ↔ x ∈ order := by
  induction order with
  | nil => simp [number]
  | cons c earlier ih =>
    rw [number, List.mem_cons, ← ih]
    split
    · rename_i here
      simp [here]
    · rename_i other
      simp [other]

theorem number_injective (member : x ∈ order) (same : number order x = number order y) : x = y := by
  induction order with
  | nil => exact absurd member List.not_mem_nil
  | cons c earlier ih =>
    have boundX := number_le earlier x
    have boundY := number_le earlier y
    rw [number, number] at same
    by_cases hereX : x = c
    · by_cases hereY : y = c
      · exact hereX.trans hereY.symm
      · rw [if_pos hereX, if_neg hereY] at same
        omega
    · by_cases hereY : y = c
      · rw [if_neg hereX, if_pos hereY] at same
        omega
      · rw [if_neg hereX, if_neg hereY] at same
        exact ih ((List.mem_cons.mp member).resolve_left hereX) same

theorem Ordered.number_surjective (ordered : Ordered edge order) {n : Nat} (positive : 0 < n)
    (bound : n ≤ order.length) : ∃ x ∈ order, number order x = n := by
  induction order with
  | nil => exact absurd (Nat.lt_of_lt_of_le positive bound) (lt_irrefl 0)
  | cons c earlier ih =>
    obtain ⟨fresh, _, ordered⟩ := ordered
    by_cases last : n = earlier.length + 1
    · exact ⟨c, List.mem_cons_self, by rw [number, if_pos rfl, last]⟩
    · rw [List.length_cons] at bound
      obtain ⟨x, member, found⟩ := ih ordered (by omega)
      have other : x ≠ c := fun same => fresh (same ▸ member)
      exact ⟨x, .tail _ member, by rw [number, if_neg other, found]⟩

/-- Arcs lead from greater to smaller numbers. -/
theorem Ordered.number_lt (ordered : Ordered edge order) (member : x ∈ order) (arc : edge x y)
    (other : y ≠ x) : number order y < number order x := by
  induction order with
  | nil => exact absurd member List.not_mem_nil
  | cons c earlier ih =>
    obtain ⟨fresh, below, ordered⟩ := ordered
    rcases List.mem_cons.mp member with rfl | member
    · rw [number, number, if_neg other, if_pos rfl]
      exact Nat.lt_succ_of_le (number_le earlier y)
    · have notX : x ≠ c := fun same => fresh (same ▸ member)
      have notY : y ≠ c := fun same => fresh (same ▸ ordered.closed member arc)
      rw [number, number, if_neg notX, if_neg notY]
      exact ih ordered member

end Number

end Phat.Topological
