import Phat.Foundation.HashIndex
import Phat.MapGraph

/-! Sorting by means of a table: `topo_sort` and `size_sort` enter each class under a key, and an
in-order walk lists what the table has kept. -/
namespace Phat
open Rbtree HashIndex

section Tabulated
variable {α : Type} {hash : α → Key} {as : List α} {a b : α} {x : Key}

/-- A table with each of these entered under its key, one after the other. -/
def tabulated (hash : α → Key) (as : List α) : Table α :=
  as.foldl (fun tab a => tab.insert32 (hash a) a) .empty

theorem tabulated_lookup32 (hash : α → Key) (as : List α) (x : Key) :
    (tabulated hash as).lookup32 x = newest hash as.reverse x := by
  induction as using List.reverseRecOn with
  | nil => rfl
  | append_singleton as a ih =>
    rw [tabulated, List.foldl_append, List.foldl_cons, List.foldl_nil, ← tabulated,
      List.reverse_append, List.reverse_singleton, List.singleton_append, Table.lookup32_insert32]
    split
    · rename_i here
      rw [here, newest_cons_self]
    · rename_i other
      rw [newest_cons_of_ne other, ih]

theorem tabulated_mem (entry : (x, a) ∈ (tabulated hash as).toList) : x = hash a ∧ a ∈ as := by
  rw [Table.mem_toList, tabulated_lookup32] at entry
  exact ⟨(newest_hash entry).symm, List.mem_reverse.mp (List.mem_of_find?_eq_some entry)⟩

theorem calls_tabulated (hash : α → Key) (as : List α) :
    calls arcIter (tabulated hash as).root = (tabulated hash as).toList.map Prod.snd := by
  rw [calls_arcIter, Node.inorder_toList, Table.toList]

theorem mem_calls_tabulated :
    a ∈ calls arcIter (tabulated hash as).root ↔ (hash a, a) ∈ (tabulated hash as).toList := by
  rw [calls_tabulated, List.mem_map]
  constructor
  · rintro ⟨⟨x, a'⟩, entry, rfl⟩
    rw [(tabulated_mem entry).1] at entry
    exact entry
  · exact fun entry => ⟨_, entry, rfl⟩

theorem calls_tabulated_subset (called : a ∈ calls arcIter (tabulated hash as).root) : a ∈ as :=
  (tabulated_mem (mem_calls_tabulated.mp called)).2

/-- The walk is in the order of the keys. -/
theorem calls_tabulated_pairwise (hash : α → Key) (as : List α) :
    (calls arcIter (tabulated hash as).root).Pairwise fun a b => hash a < hash b := by
  rw [calls_tabulated, List.pairwise_map]
  refine (tabulated hash as).ordered.imp_of_mem fun {p q} inP inQ less => ?_
  rw [← (tabulated_mem (show (p.1, p.2) ∈ _ from inP)).1,
    ← (tabulated_mem (show (q.1, q.2) ∈ _ from inQ)).1]
  exact less

/-- All are called exactly if no two of them share a key. -/
theorem calls_tabulated_perm_iff (distinct : as.Nodup) :
    (calls arcIter (tabulated hash as).root).Perm as ↔
      ∀ a ∈ as, ∀ b ∈ as, a ≠ b → hash a ≠ hash b := by
  have nodup : (calls arcIter (tabulated hash as).root).Nodup := by
    refine (calls_tabulated_pairwise hash as).imp fun less same => ?_
    rw [same] at less
    exact BitVec.lt_irrefl _ less
  constructor
  · intro perm a inA b inB other same
    have found := fun c (inside : c ∈ as) =>
      Table.mem_toList.mp (mem_calls_tabulated.mp (perm.mem_iff.mpr inside))
    have foundA := found a inA
    rw [same, found b inB] at foundA
    exact other (Option.some.inj foundA).symm
  · intro apart
    refine (List.perm_ext_iff_of_nodup nodup distinct).mpr fun a => ⟨calls_tabulated_subset, ?_⟩
    intro inside
    obtain ⟨b, found, member⟩ := @newest_exists _ _ _ hash _ _ (List.mem_reverse.mpr inside)
    have same : b = a := by
      by_contra other
      exact apart b (List.mem_reverse.mp member) a inside other (newest_hash found)
    rw [mem_calls_tabulated, Table.mem_toList, tabulated_lookup32, found, same]

/-- With all called, the walk is in another order too exactly if the keys agree with that order. -/
theorem calls_tabulated_order_iff {R : α → α → Prop}
    (perm : (calls arcIter (tabulated hash as).root).Perm as) :
    (calls arcIter (tabulated hash as).root).Pairwise R ↔
      ∀ a ∈ as, ∀ b ∈ as, hash a < hash b → R a b := by
  have byKey := calls_tabulated_pairwise hash as
  constructor
  · intro order a inA b inB
    let Agree : α → α → Prop := fun a b =>
      (hash a < hash b → R a b) ∧ (hash b < hash a → R b a)
    have symm : Std.Symm Agree := ⟨fun _ _ both => both.symm⟩
    have agree : (calls arcIter (tabulated hash as).root).Pairwise Agree := by
      refine (byKey.and order).imp fun both => ⟨fun _ => both.2, fun greater => ?_⟩
      exact absurd greater (BitVec.lt_asymm both.1)
    have every := agree.forall_of_forall fun a _ =>
      ⟨fun less => absurd less (BitVec.lt_irrefl _), fun less => absurd less (BitVec.lt_irrefl _)⟩
    exact (every (perm.mem_iff.mpr inA) (perm.mem_iff.mpr inB)).1
  · intro agree
    exact byKey.imp_of_mem fun inA inB less =>
      agree _ (perm.mem_iff.mp inA) _ (perm.mem_iff.mp inB) less

end Tabulated

namespace MapGraph
variable {g : MapGraph} {cs : List ClassRef}

/-- What the report sorts by. -/
def total (g : MapGraph) (ci : ClassRef) : BitVec 64 :=
  (g.classes ci).size + (g.classes ci).childSize

/-- `sizetab` after `size_sort` on each of these classes. -/
def sizeTab (g : MapGraph) (cs : List ClassRef) : Table ClassRef :=
  cs.foldl (fun sizetab ci => g.sizeSort ci sizetab) .empty

/-- The walk over `sizetab` calls for each of the classes once, in the order of the totals. -/
structure SizeSorted (g : MapGraph) (cs : List ClassRef) : Prop where
  once : ∀ ci, (calls arcIter (g.sizeTab cs).root).count ci = cs.count ci
  order : (calls arcIter (g.sizeTab cs).root).Pairwise fun a b => g.total a ≤ g.total b

theorem sizeTab_tabulated (g : MapGraph) (cs : List ClassRef) :
    g.sizeTab cs = tabulated (fun ci => key (g.total ci)) cs := rfl

/-- The walk is right exactly if the totals differ in their lower halves, by which they are sorted,
and these come in the same order as the totals. -/
theorem sizeSort_sorts_iff (g : MapGraph) (cs : List ClassRef) (distinct : cs.Nodup) :
    g.SizeSorted cs ↔ ∀ a ∈ cs, ∀ b ∈ cs, a ≠ b → key (g.total a) ≠ key (g.total b) ∧
      (key (g.total a) < key (g.total b) → g.total a ≤ g.total b) := by
  have perm_iff := @calls_tabulated_perm_iff _ (fun ci => key (g.total ci)) _ distinct
  constructor
  · rintro ⟨once, order⟩ a inA b inB other
    have perm := List.perm_iff_count.mpr once
    rw [sizeTab_tabulated] at perm order
    exact ⟨perm_iff.mp perm a inA b inB other, (calls_tabulated_order_iff perm).mp order a inA b inB⟩
  · intro apart
    have perm := perm_iff.mpr fun a inA b inB other => (apart a inA b inB other).1
    refine ⟨fun ci => perm.count_eq ci, (calls_tabulated_order_iff perm).mpr ?_⟩
    intro a inA b inB less
    refine (apart a inA b inB fun same => ?_).2 less
    rw [same] at less
    exact BitVec.lt_irrefl _ less

/-- Three classes of different sizes. -/
theorem sizeSort_sorts_three : (bare fun ci => BitVec.ofNat 64 (100 - ci)).SizeSorted [0, 1, 2] := by
  refine (sizeSort_sorts_iff _ _ (by decide)).mpr ?_
  decide

/-- Of two classes of one size the first is lost, and a class of 4 GB comes first of all. -/
theorem sizeSort_loses : ¬ (bare fun _ => 16).SizeSorted [0, 1] ∧
    ¬ (bare fun ci => if ci = 0 then 5 else 0x100000000).SizeSorted [0, 1] := by
  refine ⟨fun sorted => ?_, fun sorted => ?_⟩
  · exact absurd (sorted.once 0) (by decide +kernel)
  · exact absurd sorted.order (by decide +kernel)

/-- `topotab` after `topo_sort` on each of these classes. -/
def topoTab (g : MapGraph) (cs : List ClassRef) : Table ClassRef :=
  cs.foldl (fun topotab ci => g.topoSort ci topotab) .empty

/-- Classes with different numbers that fit the key are all in `topotab`, in ascending order. -/
theorem topoSort_sorts (distinct : cs.Nodup)
    (fits : ∀ ci ∈ cs, 0 ≤ (g.classes ci).topOrder ∧ (g.classes ci).topOrder < 2 ^ 32)
    (apart : ∀ a ∈ cs, ∀ b ∈ cs, (g.classes a).topOrder = (g.classes b).topOrder → a = b) :
    (calls arcIter (g.topoTab cs).root).Perm cs ∧ (calls arcIter (g.topoTab cs).root).Pairwise
      fun a b => (g.classes a).topOrder < (g.classes b).topOrder := by
  let hash : ClassRef → Key := fun ci => BitVec.ofInt 32 (g.classes ci).topOrder
  have number : ∀ ci ∈ cs, ((hash ci).toNat : Int) = (g.classes ci).topOrder := by
    intro ci member
    obtain ⟨positive, small⟩ := fits ci member
    rw [BitVec.toNat_ofInt, Int.toNat_of_nonneg (by omega)]
    exact Int.emod_eq_of_lt positive small
  have perm : (calls arcIter (tabulated hash cs).root).Perm cs := by
    refine (calls_tabulated_perm_iff distinct).mpr fun a inA b inB other same => other ?_
    refine apart a inA b inB ?_
    rw [← number a inA, ← number b inB, same]
  refine ⟨perm, (calls_tabulated_order_iff perm).mpr fun a inA b inB less => ?_⟩
  rw [← number a inA, ← number b inB]
  exact Int.ofNat_lt.mpr (BitVec.lt_def.mp less)

end MapGraph

end Phat
