import Mathlib.Algebra.BigOperators.Group.List.Basic
import Mathlib.Order.Interval.Finset.Nat
import Phat.Numbering
import Phat.SizeTable

/-! Sizes handed up along the arcs: once the classes that the arcs of a class lead to have their
`child_size`, one call of `prop_size` gives the class its own. -/
namespace Phat

/-- An arc without the sizes that it has inherited. -/
def MapArc.sizeless (arc : MapArc) : MapArc := { arc with size := 0, childSize := 0 }

namespace MapGraph
open Links Topological Relation

/-- What `prop_size` adds to a class for an arc. -/
def handed (g : MapGraph) (c : ClassRef) (arc : ArcRef) : BitVec 64 :=
  if (g.arcs arc).count = 0 ∨ (g.arcs arc).child = c then 0 else g.total (g.arcs arc).child

/-- The `child_size` of a class with these arcs, going by its children. -/
def inherited (g : MapGraph) (c : ClassRef) (l : List ArcRef) : BitVec 64 :=
  if (g.classes c).size = 0 then 0 else (l.map (g.handed c)).sum

/-- Nothing but `child_size` of classes, and the sizes of arcs, is different. -/
structure Grown (g g' : MapGraph) : Prop where
  classes : ∀ c, g'.classes c = { g.classes c with childSize := (g'.classes c).childSize }
  arcs : ∀ a, (g'.arcs a).sizeless = (g.arcs a).sizeless
  reports : g'.reports = g.reports

/-- The class has no `child_size` yet, and the classes below it have smaller numbers. -/
structure Ready (g : MapGraph) (c : ClassRef) (l : List ArcRef) : Prop where
  list : g.HasArcs childList c l
  zero : (g.classes c).childSize = 0
  head : (g.classes c).cycHead = c
  below : ∀ a ∈ l, (g.arcs a).child ≠ c →
    (g.classes (g.arcs a).child).cycHead = (g.arcs a).child ∧
      (g.classes (g.arcs a).child).topOrder < (g.classes c).topOrder

variable {g g' g'' : MapGraph} {c d : ClassRef} {arc : ArcRef} {l : List ArcRef}

theorem Grown.refl (g : MapGraph) : g.Grown g := ⟨fun _ => rfl, fun _ => rfl, rfl⟩

theorem Grown.trans (grown : g.Grown g') (grown' : g'.Grown g'') : g.Grown g'' := by
  refine ⟨fun c => ?_, fun a => (grown'.arcs a).trans (grown.arcs a),
    grown'.reports.trans grown.reports⟩
  rw [grown'.classes c, grown.classes c]

theorem Grown.child (grown : g.Grown g') (a : ArcRef) : (g'.arcs a).child = (g.arcs a).child := by
  simpa [MapArc.sizeless] using congrArg MapArc.child (grown.arcs a)

theorem Grown.count (grown : g.Grown g') (a : ArcRef) : (g'.arcs a).count = (g.arcs a).count := by
  simpa [MapArc.sizeless] using congrArg MapArc.count (grown.arcs a)

theorem Grown.nextChild (grown : g.Grown g') (a : ArcRef) :
    (g'.arcs a).nextChild = (g.arcs a).nextChild := by
  simpa [MapArc.sizeless] using congrArg MapArc.nextChild (grown.arcs a)

theorem Grown.handed (grown : g.Grown g')
    (same : (g.arcs arc).child ≠ c → (g'.classes (g.arcs arc).child).childSize =
      (g.classes (g.arcs arc).child).childSize) : g'.handed c arc = g.handed c arc := by
  rw [MapGraph.handed, MapGraph.handed, grown.child, grown.count]
  split
  · rfl
  · rename_i counted
    rw [not_or] at counted
    rw [total, total, grown.classes, same counted.2]

/-- The class gets this much more, and the arcs may have inherited sizes. -/
structure Gains (g : MapGraph) (c : ClassRef) (sum : BitVec 64) (g' : MapGraph) : Prop where
  grown : g.Grown g'
  gained : (g'.classes c).childSize = (g.classes c).childSize + sum
  others : ∀ x, x ≠ c → (g'.classes x).childSize = (g.classes x).childSize

theorem Gains.refl (g : MapGraph) (c : ClassRef) : g.Gains c 0 g :=
  ⟨.refl g, (BitVec.add_zero _).symm, fun _ _ => rfl⟩

theorem inheritSize_gains (head : (g.classes c).cycHead = c) (arc : ArcRef) (d : ClassRef) :
    g.Gains c (g.total d) (inheritSize c arc d g) := by
  have size : inheritSize c arc d g = (g.modifyArc arc fun a =>
      { a with size := (g.classes d).size, childSize := (g.classes d).childSize }).modifyClass c
        fun ci => { ci with childSize := ci.childSize + g.total d } := by
    simp [inheritSize, modifyArc, modifyClass, head, total]
  rw [size]
  refine ⟨⟨fun x => ?_, fun a => ?_, rfl⟩, ?_, fun x other => ?_⟩
  · by_cases here : x = c
    · subst here
      simp [modifyClass, modifyArc]
    · simp [modifyClass, modifyArc, here]
  · by_cases here : a = arc
    · subst here
      simp [modifyClass, modifyArc, MapArc.sizeless]
    · simp [modifyClass, modifyArc, here]
  · simp [modifyClass, modifyArc]
  · simp [modifyClass, modifyArc, other]

/-- One arc of a class: either it is passed over, or it leads to a smaller number. -/
theorem propArc_gains (head : (g.classes c).cycHead = c)
    (below : (g.arcs arc).child ≠ c →
      (g.classes (g.arcs arc).child).cycHead = (g.arcs arc).child ∧
        (g.classes (g.arcs arc).child).topOrder < (g.classes c).topOrder) :
    g.Gains c (g.handed c arc) (propArc c arc g) := by
  by_cases skipped : (g.arcs arc).count = 0 ∨ (g.arcs arc).child = c
  · rw [handed, if_pos skipped, propArc, if_pos skipped]
    exact .refl g c
  · rw [handed, if_neg skipped, propArc, if_neg skipped]
    rw [not_or] at skipped
    obtain ⟨own, less⟩ := below skipped.2
    rw [if_neg (not_not.mpr own), if_neg (not_le_of_gt less)]
    exact inheritSize_gains head _ _

theorem Gains.trans {sum sum' : BitVec 64} (gains : g.Gains c sum g')
    (gains' : g'.Gains c sum' g'') : g.Gains c (sum + sum') g'' := by
  refine ⟨gains.grown.trans gains'.grown, ?_, fun x other => ?_⟩
  · rw [gains'.gained, gains.gained, BitVec.add_assoc]
  · rw [gains'.others x other, gains.others x other]

theorem Gains.handed {sum : BitVec 64} (gains : g.Gains c sum g') (arc : ArcRef) :
    g'.handed c arc = g.handed c arc :=
  gains.grown.handed fun other => gains.others _ other

theorem Grown.links (grown : g.Grown g') {start : Option ArcRef}
    (linked : Linked (childList.links g.arcs) start l) :
    Linked (childList.links g'.arcs) start l :=
  linked.congr fun a _ => grown.nextChild a

theorem Grown.hasArcs (grown : g.Grown g') (list : g.HasArcs childList c l) :
    g'.HasArcs childList c l := by
  have first : (g'.classes c).children = (g.classes c).children := by rw [grown.classes]
  have linked := grown.links list
  rwa [show childList.first (g.classes c) = childList.first (g'.classes c) from first.symm] at linked

/-- What makes an arc safe is not changed by handing sizes up. -/
theorem Grown.below (grown : g.Grown g')
    (below : (g.arcs arc).child ≠ c → (g.classes (g.arcs arc).child).cycHead = (g.arcs arc).child ∧
      (g.classes (g.arcs arc).child).topOrder < (g.classes c).topOrder) :
    (g'.arcs arc).child ≠ c → (g'.classes (g'.arcs arc).child).cycHead = (g'.arcs arc).child ∧
      (g'.classes (g'.arcs arc).child).topOrder < (g'.classes c).topOrder := by
  rw [grown.child, grown.classes (g.arcs arc).child, grown.classes c]
  exact below

/-- The loop over the arcs hands up the sum. -/
theorem propArcs_gains {start : Option ArcRef} (head : (g.classes c).cycHead = c)
    (linked : Linked (childList.links g.arcs) start l)
    (below : ∀ a ∈ l, (g.arcs a).child ≠ c →
      (g.classes (g.arcs a).child).cycHead = (g.arcs a).child ∧
        (g.classes (g.arcs a).child).topOrder < (g.classes c).topOrder) :
    ∃ g', (∀ fuel, l.length < fuel → propArcs c fuel start g = some g') ∧
      g.Gains c (l.map (g.handed c)).sum g' := by
  induction l generalizing g start with
  | nil =>
    rw [linked_nil] at linked
    subst linked
    refine ⟨g, fun fuel enough => ?_, .refl g c⟩
    obtain ⟨fuel, rfl⟩ := Nat.exists_eq_add_of_lt enough
    rfl
  | cons a l ih =>
    obtain ⟨rfl, linked⟩ := linked
    have gains := propArc_gains head (below a List.mem_cons_self)
    have grown := gains.grown
    obtain ⟨g', run, gains'⟩ := ih (by rw [grown.classes]; exact head) (grown.links linked)
      fun b member => grown.below (below b (.tail _ member))
    refine ⟨g', fun fuel enough => ?_, ?_⟩
    · obtain ⟨fuel, rfl⟩ := Nat.exists_eq_add_of_lt enough
      have next : ((propArc c a g).arcs a).nextChild = childList.links g.arcs a := grown.nextChild a
      simp only [propArcs, next]
      refine run _ ?_
      simp only [List.length_cons]
      omega
    · rw [List.map_cons, List.sum_cons]
      have same : l.map ((propArc c a g).handed c) = l.map (g.handed c) :=
        List.map_congr_left fun b _ => gains.handed b
      rw [same] at gains'
      exact gains.trans gains'

theorem Ready.propSize (ready : g.Ready c l) :
    ∃ g', (∀ fuel, l.length < fuel → propSize fuel c g = some g') ∧
      g.Gains c (g.inherited c l) g' := by
  obtain ⟨list, _, head, below⟩ := ready
  by_cases empty : (g.classes c).size = 0
  · refine ⟨g, fun fuel _ => by rw [MapGraph.propSize, if_pos empty], ?_⟩
    rw [inherited, if_pos empty]
    exact .refl g c
  · obtain ⟨g', run, gains⟩ := propArcs_gains head list below
    refine ⟨g', fun fuel enough => ?_, ?_⟩
    · rw [MapGraph.propSize, if_neg empty]
      exact run fuel enough
    · rw [inherited, if_neg empty]
      exact gains

/-- A class waits for its turn while sizes are handed to another. -/
theorem Ready.grown (ready : g.Ready c l) (grown : g.Grown g')
    (same : (g'.classes c).childSize = (g.classes c).childSize) : g'.Ready c l := by
  obtain ⟨list, zero, head, below⟩ := ready
  refine ⟨grown.hasArcs list, same.trans zero, ?_, fun a member => grown.below (below a member)⟩
  rw [grown.classes]
  exact head

/-- What a class has inherited agrees with the sizes of its children still when these are final. -/
theorem Grown.inherited (grown : g.Grown g') (same : ∀ a ∈ l, (g.arcs a).child ≠ c →
    (g'.classes (g.arcs a).child).childSize = (g.classes (g.arcs a).child).childSize) :
    g'.inherited c l = g.inherited c l := by
  have sums : l.map (g'.handed c) = l.map (g.handed c) :=
    List.map_congr_left fun a member => grown.handed (same a member)
  rw [MapGraph.inherited, MapGraph.inherited, sums, grown.classes]

/-- Calls in the order of the numbers. -/
theorem propSizes_grown {order : List ClassRef}
    (ascending : order.Pairwise fun c d => (g.classes c).topOrder < (g.classes d).topOrder)
    (ready : ∀ c ∈ order, ∃ l, g.Ready c l) :
    ∃ g', Ends (fun fuel => propSizes fuel order g) g' ∧ g.Grown g' ∧
      (∀ c, c ∉ order → (g'.classes c).childSize = (g.classes c).childSize) ∧
      ∀ c ∈ order, ∀ l, g.HasArcs childList c l →
        (g'.classes c).childSize = g'.inherited c l := by
  induction order generalizing g with
  | nil => exact ⟨g, ⟨0, fun _ _ => rfl⟩, .refl g, fun _ _ => rfl, by simp⟩
  | cons c order ih =>
    obtain ⟨later, ascending⟩ := List.pairwise_cons.mp ascending
    obtain ⟨l, readyC⟩ := ready c List.mem_cons_self
    obtain ⟨g₁, run₁, gains⟩ := readyC.propSize
    have grown := gains.grown
    have others : ∀ d ∈ order, d ≠ c := fun d member same =>
      lt_irrefl _ (same ▸ later d member)
    obtain ⟨g₂, ⟨n, run₂⟩, grown₂, frame, result⟩ := @ih g₁
      (ascending.imp fun {d e} less => by rw [grown.classes d, grown.classes e]; exact less)
      fun d member => by
        obtain ⟨m, readyD⟩ := ready d (.tail _ member)
        exact ⟨m, readyD.grown grown (gains.others d (others d member))⟩
    refine ⟨g₂, ⟨n + l.length + 1, fun fuel enough => ?_⟩, grown.trans grown₂, ?_, ?_⟩
    · change propSizes fuel (c :: order) g = some g₂
      rw [propSizes, run₁ fuel (by omega)]
      exact run₂ fuel (by omega)
    · intro x outside
      rw [List.mem_cons, not_or] at outside
      rw [frame x outside.2, gains.others x outside.1]
    · intro d member m list
      rcases List.mem_cons.mp member with rfl | member
      · -- The children come earlier, so that nothing is handed to them any more.
        obtain rfl := Linked.unique readyC.list list
        have outside : d ∉ order := fun inside => others d inside rfl
        have early : ∀ a ∈ l, (g.arcs a).child ≠ d → (g.arcs a).child ∉ order :=
          fun a inside other again =>
            absurd ((readyC.below a inside other).2.trans (later _ again)) (lt_irrefl _)
        rw [frame d outside, gains.gained, readyC.zero]
        refine (BitVec.zero_add _).trans ((grown.trans grown₂).inherited fun a inside other => ?_).symm
        rw [frame _ (early a inside other), gains.others _ other]
      · exact result d member m (grown.hasArcs list)

/-- The numbers in `g₁` after calls for these roots in `g`. -/
structure Numbered (g : MapGraph) (nodes : Finset ClassRef) (roots : List ClassRef)
    (g₁ : MapGraph) : Prop where
  classes : ∀ c, g₁.classes c = { g.classes c with topOrder := (g₁.classes c).topOrder }
  arcs : g₁.arcs = g.arcs
  reached : ∀ c ∈ nodes, (g₁.classes c).isNumbered = true ↔ Reached g.ArcTo roots c
  exact : ∃ n : Nat,
    (∀ c ∈ nodes, (g₁.classes c).isNumbered = true →
      1 ≤ (g₁.classes c).topOrder ∧ (g₁.classes c).topOrder ≤ n) ∧
    ∀ k : Nat, 1 ≤ k → k ≤ n →
      ∃ c ∈ nodes, (g₁.classes c).isNumbered = true ∧ (g₁.classes c).topOrder = k
  distinct : ∀ c ∈ nodes, ∀ d ∈ nodes, (g₁.classes c).isNumbered = true →
    (g₁.classes c).topOrder = (g₁.classes d).topOrder → c = d
  descending : ∀ c ∈ nodes, ∀ d, (g₁.classes c).isNumbered = true → g.ArcTo c d → d ≠ c →
    (g₁.classes d).topOrder < (g₁.classes c).topOrder

section Numbered
variable {nodes : Finset ClassRef} {roots done : List ClassRef} {g₁ : MapGraph}
  (initial : g.Initial nodes) (searching : g.Searching done [] g₁)
include initial searching

theorem Searching.topOrder (member : c ∈ nodes) : (g₁.classes c).topOrder = number done c := by
  rw [searching.classes]
  simp only [placed, List.not_mem_nil, if_false]
  split
  · rfl
  · rename_i outside
    have none : number done c = 0 := by
      have := mt number_pos_iff.mp outside
      omega
    rw [none, (initial.fresh c member).topOrder]
    rfl

theorem Searching.isNumbered_iff (member : c ∈ nodes) :
    (g₁.classes c).isNumbered = true ↔ c ∈ done := by
  rw [MapClass.isNumbered_iff, searching.topOrder initial member, ← number_pos_iff]
  omega

theorem Searching.result (inside : ∀ c ∈ done, c ∈ nodes)
    (found : ∀ x, x ∈ done ↔ Reached g.ArcTo roots x) : g.Numbered nodes roots g₁ := by
  have top := fun {c} => @Searching.topOrder g c nodes done g₁ initial searching
  have numbered := fun {c} => @Searching.isNumbered_iff g c nodes done g₁ initial searching
  refine ⟨fun c => by rw [searching.classes], searching.arcs,
    fun c member => (numbered member).trans (found c), ⟨done.length, ?_, ?_⟩, ?_, ?_⟩
  · intro c member isNumbered
    have positive := number_pos_iff.mpr ((numbered member).mp isNumbered)
    have bound := number_le done c
    rw [top member]
    omega
  · intro k positive bound
    obtain ⟨c, member, same⟩ := searching.ordered.number_surjective positive bound
    refine ⟨c, inside c member, (numbered (inside c member)).mpr member, ?_⟩
    rw [top (inside c member), same]
  · intro c memberC d memberD isNumbered same
    rw [top memberC, top memberD] at same
    exact number_injective ((numbered memberC).mp isNumbered) (by omega)
  · intro c member d isNumbered arc other
    rw [top member, top (initial.inside c member d arc)]
    have less := searching.ordered.number_lt ((numbered member).mp isNumbered) arc other
    omega

end Numbered

section Order
variable {g₁ : MapGraph} {nodes : Finset ClassRef} {roots : List ClassRef}

/-- There are no more numbers than classes. -/
theorem Numbered.bound (numbered : g.Numbered nodes roots g₁) (member : c ∈ nodes)
    (isNumbered : (g₁.classes c).isNumbered = true) :
    1 ≤ (g₁.classes c).topOrder ∧ (g₁.classes c).topOrder ≤ nodes.card := by
  obtain ⟨n, between, every⟩ := numbered.exact
  obtain ⟨least, greatest⟩ := between c member isNumbered
  have covered : Finset.Icc 1 n ⊆ nodes.image fun c => (g₁.classes c).topOrder.toNat := by
    intro k inside
    obtain ⟨positive, small⟩ := Finset.mem_Icc.mp inside
    obtain ⟨d, isNode, _, same⟩ := every k positive small
    refine Finset.mem_image.mpr ⟨d, isNode, ?_⟩
    rw [same, Int.toNat_natCast]
  have few : n ≤ nodes.card := by
    calc n = (Finset.Icc 1 n).card := by simp
      _ ≤ (nodes.image fun c => (g₁.classes c).topOrder.toNat).card := Finset.card_le_card covered
      _ ≤ nodes.card := Finset.card_image_le
  omega

/-- The walk over `topotab` has the order in which sizes are handed up, unless there are more classes
than keys. -/
theorem Numbered.topoTab (numbered : g.Numbered nodes roots g₁) {cs : List ClassRef}
    (distinct : cs.Nodup) (exactly : ∀ c, c ∈ cs ↔ c ∈ nodes ∧ (g₁.classes c).isNumbered = true)
    (few : nodes.card < 2 ^ 32) :
    (calls arcIter (g₁.topoTab cs).root).Pairwise
        (fun c d => (g₁.classes c).topOrder < (g₁.classes d).topOrder) ∧
      ∀ c, c ∈ calls arcIter (g₁.topoTab cs).root ↔
        c ∈ nodes ∧ (g₁.classes c).isNumbered = true := by
  obtain ⟨perm, ascending⟩ := @topoSort_sorts g₁ cs distinct
    (fun c member => by
      obtain ⟨isNode, isNumbered⟩ := (exactly c).mp member
      have := numbered.bound isNode isNumbered
      omega)
    (fun c memberC d memberD same => by
      obtain ⟨isNodeC, isNumbered⟩ := (exactly c).mp memberC
      exact numbered.distinct c isNodeC d ((exactly d).mp memberD).1 isNumbered same)
  exact ⟨ascending, fun c => perm.mem_iff.trans (exactly c)⟩

end Order

/-- After the numbering of a graph without cycles but self arcs, `prop_size` in the order of the
numbers gives each class that is numbered the sum over its children, and no other class anything. -/
theorem sizes_propagated (g : MapGraph) (nodes : Finset ClassRef) (roots : List ClassRef)
    (initial : g.Initial nodes) (inside : ∀ c ∈ roots, c ∈ nodes)
    (acyclic : ∀ c ∈ nodes, ∀ d, Mutual g.ArcTo c d → c = d) :
    ∃ g₁, Ends (fun fuel => mgDfns fuel roots g) g₁ ∧ g.Numbered nodes roots g₁ ∧
      ∀ order : List ClassRef,
        order.Pairwise (fun c d => (g₁.classes c).topOrder < (g₁.classes d).topOrder) →
        (∀ c, c ∈ order ↔ c ∈ nodes ∧ (g₁.classes c).isNumbered = true) →
        ∃ g₂, Ends (fun fuel => propSizes fuel order g₁) g₂ ∧ g₁.Grown g₂ ∧
          g₂.reports = g.reports ∧ ∀ c ∈ nodes, ∀ l, g.HasArcs childList c l →
            (g₂.classes c).childSize =
              if (g₁.classes c).isNumbered = true then g₂.inherited c l else 0 := by
  have member := fun x => @Initial.reached_inside g x nodes roots initial inside
  obtain ⟨g₁, done, ends, searching, found⟩ := initial.dfns inside fun c d reached =>
    acyclic c (member c reached) d
  have numbered := searching.result initial (fun c isDone => member c ((found c).mp isDone)) found
  refine ⟨g₁, ends, numbered, fun order ascending exactly => ?_⟩
  have list : ∀ c l, g.HasArcs childList c l → g₁.HasArcs childList c l := by
    intro c l list
    rw [HasArcs, searching.arcs, searching.classes]
    exact list
  have zero : ∀ c ∈ nodes, (g₁.classes c).childSize = 0 := by
    intro c isNode
    rw [searching.classes]
    exact (initial.fresh c isNode).childSize
  have head : ∀ c ∈ nodes, (g₁.classes c).cycHead = c := by
    intro c isNode
    rw [searching.classes]
    exact (initial.fresh c isNode).cycHead
  obtain ⟨g₂, ends₂, grown, frame, sums⟩ := propSizes_grown ascending fun c inOrder => by
    obtain ⟨isNode, isNumbered⟩ := (exactly c).mp inOrder
    obtain ⟨l, listed⟩ := initial.lists c isNode
    refine ⟨l, list c l listed, zero c isNode, head c isNode, fun a onList other => ?_⟩
    rw [searching.arcs] at other ⊢
    have arc : g.ArcTo c (g.arcs a).child := ⟨l, listed, a, onList, rfl⟩
    exact ⟨head _ (initial.inside c isNode _ arc),
      numbered.descending c isNode _ isNumbered arc other⟩
  refine ⟨g₂, ends₂, grown, grown.reports.trans searching.reports, fun c isNode l listed => ?_⟩
  split
  · rename_i isNumbered
    exact sums c ((exactly c).mpr ⟨isNode, isNumbered⟩) l (list c l listed)
  · rename_i unnumbered
    rw [frame c fun inOrder => unnumbered ((exactly c).mp inOrder).2]
    exact zero c isNode

/-- Two classes of size 1, and an arc from the first to the second. -/
def oneArc : MapGraph := (bare fun _ => 1).linkArc 0 0 1 1

theorem oneArc_size (c : ClassRef) : (oneArc.classes c).size = 1 := by
  obtain ⟨_, same⟩ := @linkArc_classes (bare fun _ => 1) 0 0 1 1 c
  rw [oneArc, same]
  rfl

theorem oneArc_hasArcs (c : ClassRef) : oneArc.HasArcs childList c (if c = 0 then [0] else []) :=
  (bare_hasArcs _ c).linkArc List.not_mem_nil

theorem oneArc_arcTo (arc : oneArc.ArcTo c d) : c = 0 ∧ d = 1 := by
  have list := bare_hasArcs (fun _ => 1) c
  rcases arc.of_linkArc list List.not_mem_nil with ⟨l, list', a, member, _⟩ | both
  · rw [Linked.unique list' list] at member
    exact absurd member List.not_mem_nil
  · exact both

theorem oneArc_arc : oneArc.ArcTo 0 1 := ⟨[0], oneArc_hasArcs 0, 0, List.mem_singleton_self 0, rfl⟩

theorem oneArc_initial : oneArc.Initial {0, 1} := by
  refine (bare_initial _ _).linkArc (fun c _ l list => ?_) (by decide)
  rw [Linked.unique list (bare_hasArcs _ c)]
  exact List.not_mem_nil

theorem oneArc_upward (path : ReflTransGen oneArc.ArcTo c d) : c ≤ d := by
  induction path with
  | refl => exact le_refl c
  | tail _ arc ih =>
    obtain ⟨rfl, rfl⟩ := oneArc_arcTo arc
    exact Nat.le_succ_of_le ih

theorem oneArc_acyclic (mutually : Mutual oneArc.ArcTo c d) : c = d :=
  le_antisymm (oneArc_upward mutually.1) (oneArc_upward mutually.2)

/-- What the first class inherits once the second has its `child_size`. -/
theorem oneArc_inherited (size : ∀ c, (g.classes c).size = 1) (arcs : g.arcs = oneArc.arcs)
    (grown : g.Grown g') (below : (g'.classes 1).childSize = g'.inherited 1 []) :
    g'.inherited 0 [0] = 1 := by
  have size' : ∀ c, (g'.classes c).size = 1 := by
    intro c
    rw [grown.classes]
    exact size c
  have child : (g'.arcs 0).child = 1 := by
    rw [grown.child, arcs]
    rfl
  have count : (g'.arcs 0).count = 1 := by
    rw [grown.count, arcs]
    rfl
  simp [inherited, size'] at below
  simp [inherited, handed, total, size', child, count, below]

theorem sizes_propagated_oneArc : ∃ g₁ g₂,
    Ends (fun fuel => mgDfns fuel [0] oneArc) g₁ ∧ oneArc.Numbered {0, 1} [0] g₁ ∧
      Ends (fun fuel => propSizes fuel [1, 0] g₁) g₂ ∧ g₂.reports = [] ∧
      (g₂.classes 0).childSize = 1 := by
  obtain ⟨g₁, ends, numbered, sized⟩ := sizes_propagated oneArc {0, 1} [0] oneArc_initial
    (by decide) (fun c _ d => oneArc_acyclic)
  have first : (g₁.classes 0).isNumbered = true :=
    (numbered.reached 0 (by decide)).mpr ⟨0, List.mem_singleton_self 0, .refl⟩
  have second : (g₁.classes 1).isNumbered = true :=
    (numbered.reached 1 (by decide)).mpr ⟨0, List.mem_singleton_self 0, .single oneArc_arc⟩
  have less := numbered.descending 0 (by decide) 1 first oneArc_arc (by decide)
  obtain ⟨g₂, ends₂, grown, reports, sizes⟩ := sized [1, 0] (by simpa using less) fun c => by
    simp only [List.mem_cons, List.not_mem_nil, or_false, Finset.mem_insert, Finset.mem_singleton]
    constructor
    · rintro (rfl | rfl)
      · exact ⟨.inr rfl, second⟩
      · exact ⟨.inl rfl, first⟩
    · rintro ⟨rfl | rfl, _⟩
      · exact .inr rfl
      · exact .inl rfl
  refine ⟨g₁, g₂, ends, numbered, ends₂, reports, ?_⟩
  have size : ∀ c, (g₁.classes c).size = 1 := by
    intro c
    rw [numbered.classes]
    exact oneArc_size c
  have below := sizes 1 (by decide) [] rfl
  have above := sizes 0 (by decide) [0] ⟨rfl, rfl⟩
  rw [if_pos second] at below
  rw [if_pos first] at above
  exact above.trans (oneArc_inherited size numbered.arcs grown below)

/-- With the second class as root, the arc of the first leads to a greater number, and the first
class gets no `child_size`. -/
theorem unreached_unsized : oneArc.Initial {0, 1} ∧
    (∀ c ∈ ({0, 1} : Finset ClassRef), ∀ d, Mutual oneArc.ArcTo c d → c = d) ∧
    ∃ g₁ g₂, Ends (fun fuel => mgDfns fuel [1] oneArc) g₁ ∧
      (∀ c, c ∈ [1] ↔ c ∈ ({0, 1} : Finset ClassRef) ∧ (g₁.classes c).isNumbered = true) ∧
      Ends (fun fuel => propSizes fuel [1] g₁) g₂ ∧
      oneArc.ArcTo 0 1 ∧ ¬ (g₁.classes 1).topOrder < (g₁.classes 0).topOrder ∧
      oneArc.HasArcs childList 0 [0] ∧ (g₂.classes 0).childSize ≠ g₂.inherited 0 [0] := by
  refine ⟨oneArc_initial, fun c _ d => oneArc_acyclic, ?_⟩
  have inside : ∀ c ∈ [1], c ∈ ({0, 1} : Finset ClassRef) := by decide
  obtain ⟨g₁, done, ends, searching, found⟩ := oneArc_initial.dfns inside
    fun c d _ => oneArc_acyclic
  have second : 1 ∈ done := (found 1).mpr ⟨1, List.mem_singleton_self 1, .refl⟩
  have first : 0 ∉ done := by
    intro isDone
    obtain ⟨root, isRoot, path⟩ := (found 0).mp isDone
    rw [List.mem_singleton.mp isRoot] at path
    exact absurd (oneArc_upward path) (by decide)
  have numbered := fun c => @Searching.isNumbered_iff oneArc c {0, 1} done g₁ oneArc_initial searching
  have top := fun c => @Searching.topOrder oneArc c {0, 1} done g₁ oneArc_initial searching
  have less : ¬ (g₁.classes 1).topOrder < (g₁.classes 0).topOrder := by
    have positive := number_pos_iff.mpr second
    have zero := mt number_pos_iff.mp first
    rw [top 1 (by decide), top 0 (by decide)]
    omega
  have ready : g₁.Ready 1 [] := by
    refine ⟨?_, ?_, ?_, by simp⟩
    · rw [HasArcs, searching.classes]
      rfl
    · rw [searching.classes]
      rfl
    · rw [searching.classes]
      rfl
  obtain ⟨g₂, ends₂, grown, frame, sums⟩ := @propSizes_grown g₁ [1] (by simp) fun c member =>
    ⟨[], (List.mem_singleton.mp member).symm ▸ ready⟩
  refine ⟨g₁, g₂, ends, fun c => ?_, ends₂, oneArc_arc, less, ⟨rfl, rfl⟩, ?_⟩
  · constructor
    · intro member
      rw [List.mem_singleton.mp member]
      exact ⟨by decide, (numbered 1 (by decide)).mpr second⟩
    · rintro ⟨isNode, isNumbered⟩
      rcases Finset.mem_insert.mp isNode with rfl | isNode
      · exact absurd ((numbered 0 (by decide)).mp isNumbered) first
      · exact List.mem_singleton.mpr (Finset.mem_singleton.mp isNode)
  · have zero : (g₂.classes 0).childSize = 0 := by
      rw [frame 0 (by decide), searching.classes]
      rfl
    have size : ∀ c, (g₁.classes c).size = 1 := by
      intro c
      rw [searching.classes]
      exact oneArc_size c
    have below := sums 1 (List.mem_singleton_self 1) [] ready.list
    rw [zero, oneArc_inherited size searching.arcs grown below]
    decide

end MapGraph

end Phat
