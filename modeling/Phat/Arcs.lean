import Mathlib.Algebra.Order.BigOperators.Group.Finset
import Phat.Foundation.Adjacency
import Phat.Retained

/-! The graph of classes that `arc_add` builds: an arc for every pair of classes between
whose objects there are references, with their number, in the lists of both classes and in
the array `arcs`. -/
namespace Phat
open Adjacency (Net)

/-- The arcs and the lists they stand in. -/
def Look.net (lk : Look) : Net ClassRef where
  next := lk.arcs.next
  tail arc := (lk.arcs.get arc).parent
  head arc := (lk.arcs.get arc).child
  weight arc := (lk.arcs.get arc).count
  leaving c := (lk.classes c).children
  entering c := (lk.classes c).parents
  crossing := lk.arcTab

/-- The classes of the two objects of a link. -/
def Deed.pair (jf : Jdump) : Deed → Option (ClassRef × ClassRef)
  | .link o dref => Option.map₂ Prod.mk (jf.classOf o) (jf.classOf dref)
  | .settle _ => none

def Jdump.pairs (jf : Jdump) (deeds : Multiset Deed) : Multiset (ClassRef × ClassRef) :=
  deeds.filterMap (Deed.pair jf)

section Add
variable {jf : Jdump} {lk lk' : Look} {o dref : ObjRef} {p c : ClassRef}

theorem get_alloc {α β : Type} (s : Store α) (a : α) (member : α → β) :
    (fun arc => member ((s.alloc fun _ => a).get arc)) =
      Function.update (fun arc => member (s.get arc)) s.next (member a) := by
  funext arc
  by_cases here : arc = s.next
  · rw [here, Store.get_alloc_self, Function.update_self]
  · rw [Store.get_alloc_of_ne _ _ here, Function.update_of_ne here]

theorem putArc_net (lk : Look) (p c : ClassRef) (size : Int) :
    (putArc lk p c 1 size).net = lk.net.make p c := by
  obtain ⟨leaving, entering⟩ := putArc_lists lk p c 1 size
  simp only [Look.net, Net.make, putArc_arcs, putArc_arcTab, Net.mk.injEq]
  refine ⟨rfl, ?_, ?_, ?_, leaving, entering, trivial⟩
  · exact get_alloc lk.arcs _ Arc.parent
  · exact get_alloc lk.arcs _ Arc.child
  · exact get_alloc lk.arcs _ Arc.count

theorem arcAdd_net (parentOf : jf.classOf o = some p) (childOf : jf.classOf dref = some c)
    (added : arcAdd jf lk o dref 1 = .ok lk') : lk'.net = lk.net.add p c := by
  rw [Jdump.classOf] at parentOf childOf
  rw [arcAdd, parentOf, childOf] at added
  simp only at added
  have find : arcLookup lk p c = lk.net.find p c := rfl
  rw [find] at added
  rw [Net.add]
  cases found : lk.net.find p c with
  | some arc =>
    simp only [found] at added ⊢
    cases added
    simp only [Look.net, Net.bump, Net.mk.injEq, and_true]
    refine ⟨rfl, ?_, ?_, ?_⟩
    · funext other
      exact Store.get_modify_keep _ _ _ Arc.parent (by exact fun _ => rfl) _
    · funext other
      exact Store.get_modify_keep _ _ _ Arc.child (by exact fun _ => rfl) _
    · funext other
      by_cases here : other = arc
      · rw [here, Store.get_modify_self, Function.update_self]
      · rw [Store.get_modify_of_ne _ _ here, Function.update_of_ne here]
  | none =>
    simp only [found, newArc] at added ⊢
    split at added
    · cases added
    · cases added
      exact putArc_net lk p c _

theorem ArcsAlone.net (alone : ArcsAlone lk lk') : lk'.net = lk.net := by
  simp only [Look.net, alone.arcs, alone.arcTab, alone.children, alone.parents]

end Add

section Account
variable {jf : Jdump} {depth fuel : Nat} {o dref : ObjRef} {p c : ClassRef} {past : Multiset Deed}

/-- The arcs count the links. -/
def ArcsCounted (jf : Jdump) : Account := fun lk deeds => lk.net.Counts (jf.pairs deeds)

theorem Jdump.pairs_add (jf : Jdump) (deeds deeds' : Multiset Deed) :
    jf.pairs (deeds + deeds') = jf.pairs deeds + jf.pairs deeds' :=
  Multiset.filterMap_add _ _ _

theorem Jdump.pair_link : Deed.pair jf (.link o dref) = some (p, c) ↔
    jf.classOf o = some p ∧ jf.classOf dref = some c := by
  rw [Deed.pair, Option.map₂_eq_some_iff]
  constructor
  · rintro ⟨_, _, parentOf, childOf, same⟩
    cases same
    exact ⟨parentOf, childOf⟩
  · rintro ⟨parentOf, childOf⟩
    exact ⟨p, c, parentOf, childOf, rfl⟩

theorem Jdump.pairs_link (parentOf : jf.classOf o = some p) (childOf : jf.classOf dref = some c) :
    jf.pairs {.link o dref} = {(p, c)} :=
  Multiset.filterMap_cons_some _ _ _ (pair_link.mpr ⟨parentOf, childOf⟩)

theorem arcs_watched (resolvable : jf.Resolvable depth) : Watched jf (ArcsCounted jf) := by
  constructor
  · intro lk lk' past classes arcs arcTab arcsMax counts
    have net : lk'.net = lk.net := by
      simp only [Look.net, classes, arcs, arcTab]
    rw [ArcsCounted, net]
    exact counts
  · intro lk lk' o dref past stored target added counts
    obtain ⟨p, _, parentOf, _⟩ := resolvable.classes o stored
    obtain ⟨c, _, childOf, _⟩ := resolvable.classes dref target
    rw [ArcsCounted, arcAdd_net parentOf childOf added, Jdump.pairs_add,
      Jdump.pairs_link parentOf childOf]
    exact counts.add p c
  · intro lk o c past _ _ _ _ counts
    have alone := ArcsAlone.settle lk o c (jf.ownSize o) (.ret o 0)
    have net : (lk.settle o c (jf.ownSize o)).net = lk.net := alone.net
    rw [ArcsCounted, net, Jdump.pairs_add]
    exact (add_zero (jf.pairs past)).symm ▸ counts
  · intro lk lk' c cs fuel past run _ _ counts
    rw [ArcsCounted, (resolveClassNode_alone run).net]
    exact counts

/-- Counting the links of an object to a class. -/
theorem count_links (o : ObjRef) (acts : List (DepthFirst.Act ObjRef Nat)) (p c : ClassRef) :
    (jf.pairs (links o acts)).count (p, c) = if jf.classOf o = some p then
      (DepthFirst.targets acts).countP fun dref => jf.classOf dref = some c else 0 := by
  rw [links]
  generalize DepthFirst.targets acts = drefs
  induction drefs with
  | nil => split <;> rfl
  | cons dref drefs ih =>
    rw [List.map_cons, ← Multiset.cons_coe, ← Multiset.singleton_add, Jdump.pairs_add,
      Multiset.count_add, ih, List.countP_cons]
    have one : (jf.pairs {.link o dref}).count (p, c) =
        if jf.classOf o = some p ∧ jf.classOf dref = some c then 1 else 0 := by
      by_cases ends : jf.classOf o = some p ∧ jf.classOf dref = some c
      · rw [if_pos ends, Jdump.pairs_link ends.1 ends.2, Multiset.count_singleton_self]
      · rw [if_neg ends]
        apply Multiset.count_eq_zero_of_notMem
        rw [Jdump.pairs, Multiset.mem_filterMap]
        rintro ⟨deed, member, pair⟩
        rw [Multiset.mem_singleton.mp member] at pair
        exact ends (Jdump.pair_link.mp pair)
    rw [one]
    by_cases parentOf : jf.classOf o = some p
    · simp only [parentOf, true_and, if_true, decide_eq_true_eq]
      exact Nat.add_comm _ _
    · simp only [parentOf, false_and, if_false]

/-- The reference slots of objects of class `p` that lead to stored objects of class `c`. -/
noncomputable def Jdump.slotsBetween (jf : Jdump) (p c : ClassRef) : Nat :=
  ∑ o ∈ jf.stored.toFinset with jf.classOf o = some p,
    (jf.references o).countP fun dref => jf.classOf dref = some c

/-- What the turns of all stored objects count. -/
theorem count_deeds (jf : Jdump) (p c : ClassRef) :
    (jf.pairs (∑ o ∈ jf.stored.toFinset, jf.deeds o)).count (p, c) = jf.slotsBetween p c := by
  have one : ∀ o ∈ jf.stored.toFinset, (jf.pairs (jf.deeds o)).count (p, c) =
      if jf.classOf o = some p then
        (jf.references o).countP fun dref => jf.classOf dref = some c else 0 := by
    intro o member
    have rest : jf.pairs (jf.deeds o) = jf.pairs (links o (jf.objectActs o)) := by
      by_cases empty : jf.Empty o
      · rw [jf.deeds_empty empty]
      · rw [jf.deeds_busy empty, Jdump.pairs_add]
        exact add_zero _
    rw [rest, count_links, Jdump.references, Jdump.graph_acts (List.mem_toFinset.mp member)]
  have sum : ∀ objects : Finset ObjRef, (jf.pairs (∑ o ∈ objects, jf.deeds o)).count (p, c) =
      ∑ o ∈ objects, (jf.pairs (jf.deeds o)).count (p, c) := by
    intro objects
    induction objects using Finset.induction_on with
    | empty => rfl
    | insert o objects new ih =>
      rw [Finset.sum_insert new, Finset.sum_insert new, Jdump.pairs_add, Multiset.count_add, ih]
  rw [sum, Finset.sum_congr rfl one, Jdump.slotsBetween, Finset.sum_filter]

end Account

/-- The arcs are those between classes with references between their objects, one for each
pair of classes, each in the right lists and no others. -/
structure ClassArcs (jf : Jdump) (lk : Look) : Prop where
  single : ∀ arc < lk.arcs.next, ∀ other < lk.arcs.next,
    (lk.arcs.get arc).parent = (lk.arcs.get other).parent →
    (lk.arcs.get arc).child = (lk.arcs.get other).child → arc = other
  joined : ∀ p c,
    (∃ arc < lk.arcs.next, (lk.arcs.get arc).parent = p ∧ (lk.arcs.get arc).child = c) ↔
    ∃ o ∈ jf.stored, jf.classOf o = some p ∧ ∃ dref ∈ jf.references o, jf.classOf dref = some c
  count : ∀ arc < lk.arcs.next, (lk.arcs.get arc).count =
    jf.slotsBetween (lk.arcs.get arc).parent (lk.arcs.get arc).child
  children : ∀ p, (lk.classes p).children.Nodup ∧ ∀ arc, arc ∈ (lk.classes p).children ↔
    arc < lk.arcs.next ∧ (lk.arcs.get arc).parent = p
  parents : ∀ c, (lk.classes c).parents.Nodup ∧ ∀ arc, arc ∈ (lk.classes c).parents ↔
    arc < lk.arcs.next ∧ (lk.arcs.get arc).child = c
  arcTab : lk.arcTab.Nodup ∧ ∀ arc, arc ∈ lk.arcTab ↔
    arc < lk.arcs.next ∧ (lk.arcs.get arc).parent ≠ (lk.arcs.get arc).child
  room : lk.arcTab.length ≤ lk.arcsMax

theorem class_arcs {jf : Jdump} {depth fuel : Nat} (lk : Look) (resolvable : jf.Resolvable depth)
    (ready : Ready jf lk) (unresolved : ∀ o, (lk.objects o).resolved = false)
    (none : lk.arcs.next = 0) (arcTab : lk.arcTab = [])
    (lists : ∀ c, (lk.classes c).children = [] ∧ (lk.classes c).parents = [])
    (enough : jf.stored.toFinset.card + depth < fuel) :
    Outcome (jf.Denied lk jf.stored) (resolveInstances jf fuel lk) (ClassArcs jf) := by
  have start : ArcsCounted jf lk 0 :=
    Net.counts_empty none (fun p => (lists p).1) (fun c => (lists c).2) arcTab
  refine (resolveAll_account resolvable.region (arcs_watched resolvable) enough ready unresolved
    (fun _ => id) start).imp ?_
  rintro lk' ⟨ready', all, _, counts⟩
  have every : jf.stored.toFinset.filter (fun o => (lk'.objects o).resolved = true) =
      jf.stored.toFinset := by
    rw [Finset.filter_true_of_mem]
    intro o member
    exact all o (List.mem_toFinset.mp member)
  rw [every] at counts
  constructor
  · exact counts.single
  · intro p c
    refine (counts.joined p c).symm.trans ?_
    rw [← Multiset.count_pos, count_deeds, Jdump.slotsBetween, Finset.sum_pos_iff]
    constructor
    · rintro ⟨o, member, some⟩
      rw [Finset.mem_filter, List.mem_toFinset] at member
      rw [List.countP_pos_iff] at some
      obtain ⟨dref, reference, childOf⟩ := some
      exact ⟨o, member.1, member.2, dref, reference, of_decide_eq_true childOf⟩
    · rintro ⟨o, stored, parentOf, dref, reference, childOf⟩
      refine ⟨o, ?_, ?_⟩
      · rw [Finset.mem_filter, List.mem_toFinset]
        exact ⟨stored, parentOf⟩
      · rw [List.countP_pos_iff]
        exact ⟨dref, reference, decide_eq_true childOf⟩
  · intro arc present
    refine (counts.weight arc present).trans ?_
    rw [count_deeds]
    rfl
  · exact fun p => ⟨(counts.leaving p).nodup, (counts.leaving p).mem⟩
  · exact fun c => ⟨(counts.entering c).nodup, (counts.entering c).mem⟩
  · exact ⟨counts.crossing.nodup, counts.crossing.mem⟩
  · exact ready'.arcs.room

theorem class_arcs_sampleLink :
    Outcome (sampleLink.Denied (.initial .zero) sampleLink.stored)
      (resolveInstances sampleLink 6 (.initial .zero)) fun lk =>
      ∃ arc ∈ (lk.classes 2).children, (lk.arcs.get arc).child = 2 ∧ (lk.arcs.get arc).count = 1 := by
  have stored : sampleLink.stored = [0, 1] := sampleHeap_stored _
  have classOf : ∀ o ∈ sampleLink.stored, sampleLink.classOf o = some 2 := by
    rw [stored]
    decide
  obtain ⟨first, second⟩ := sampleLink_references
  have slots : sampleLink.slotsBetween 2 2 = 1 := by
    have every : sampleLink.stored.toFinset.filter (fun o => sampleLink.classOf o = some 2) =
        {0, 1} := by
      rw [stored]
      decide
    rw [Jdump.slotsBetween, every, Finset.sum_pair (by decide), first, second]
    decide
  refine (@class_arcs sampleLink 3 6 (.initial .zero) (sampleHeap_resolvable _) (.initial _ _)
    (fun _ => rfl) rfl rfl (fun _ => ⟨rfl, rfl⟩) (by decide)).imp ?_
  rintro lk arcs
  obtain ⟨arc, present, parent, child⟩ := (arcs.joined 2 2).mpr
    ⟨0, by decide, classOf 0 (by decide), 1, by rw [first]; decide, classOf 1 (by decide)⟩
  refine ⟨arc, ((arcs.children 2).2 arc).mpr ⟨present, parent⟩, child, ?_⟩
  rw [arcs.count arc present, parent, child, slots]
  rfl

/-- No arc is added for the field of a root class. -/
theorem sampleRoot_unconnected : sampleRoot.Resolvable 2 ∧ sampleRoot.NamesFirst 0 1 ∧
    ∃ lk, resolveInstances sampleRoot 5 (.initial .zero) = .ok lk ∧ lk.arcs.next = 0 := by
  have run : (resolveInstances sampleRoot 5 (.initial .zero)).toOption.map
      (fun lk => lk.arcs.next) = some 0 := by decide +kernel
  obtain ⟨lk, ok, none⟩ := Option.map_eq_some_iff.mp run
  exact ⟨sampleRoot_resolvable, sampleRoot_names, lk, ok_of_toOption ok, none⟩

end Phat
