import Phat.Foundation.Topological
import Phat.MapGraph

/-! The numbering of classes without cycles but self arcs: `mg_dfn` numbers a class after the classes
its arcs lead to, and `find_cycle` is only called for self arcs, where it does nothing. -/
namespace Phat.MapGraph
open Links Topological Relation

/-- What the run returns with any fuel from some amount on. -/
def Ends {σ : Type} (run : Nat → Option σ) (s : σ) : Prop :=
  ∃ n, ∀ fuel, n ≤ fuel → run fuel = some s

/-- Some arc on the list of children leads from class `c` to class `d`. -/
def ArcTo (g : MapGraph) (c d : ClassRef) : Prop :=
  ∃ l, g.HasArcs childList c l ∧ ∃ arc ∈ l, (g.arcs arc).child = d

/-- What `arc_init` assigns, apart from the lists. -/
structure Fresh (g : MapGraph) (c : ClassRef) : Prop where
  childSize : (g.classes c).childSize = 0
  printFlag : (g.classes c).printFlag = 0
  topOrder : (g.classes c).topOrder = mgDfnNan
  cycNum : (g.classes c).cycNum = 0
  cycHead : (g.classes c).cycHead = c
  cycNext : (g.classes c).cycNext = none

/-- A finite graph of classes before the numbering, with the lists of arcs in place. -/
structure Initial (g : MapGraph) (nodes : Finset ClassRef) : Prop where
  lists : ∀ c ∈ nodes, ∃ l, g.HasArcs childList c l
  inside : ∀ c ∈ nodes, ∀ d, g.ArcTo c d → d ∈ nodes
  fresh : ∀ c ∈ nodes, g.Fresh c
  depth : g.dfnDepth = 0
  counter : g.dfnCounter = mgDfnNan

/-- The `top_order` of a class when those on `path` are busy and those in `done` numbered. -/
def placed (g : MapGraph) (done path : List ClassRef) (c : ClassRef) : Int :=
  if c ∈ path then mgDfnBusy
  else if c ∈ done then number done c
  else (g.classes c).topOrder

/-- The entries of the stack, from the top down. -/
def Stacked (stack : Nat → DfStack) : List ClassRef → Prop
  | [] => True
  | c :: path => (stack (path.length + 1)).obj = c ∧ Stacked stack path

/-- The state of the search in a graph `g₀`: the classes on `path` are busy, the innermost first, and
those in `done` numbered, the last first. -/
structure Searching (g₀ : MapGraph) (done path : List ClassRef) (g : MapGraph) : Prop where
  classes : ∀ c, g.classes c = { g₀.classes c with topOrder := g₀.placed done path c }
  arcs : g.arcs = g₀.arcs
  depth : g.dfnDepth = path.length
  counter : g.dfnCounter = done.length
  stack : Stacked g.dfnStack path
  reports : g.reports = g₀.reports
  apart : ∀ c ∈ path, c ∉ done
  ordered : Ordered g₀.ArcTo done

/-- What a call of `mg_dfn` does in such a state, if the busy classes are above the class. -/
def Visits (g₀ : MapGraph) (c : ClassRef) : Prop :=
  ∀ done path g, g₀.Searching done path g → (∀ p ∈ path, ReflTransGen g₀.ArcTo p c ∧ p ≠ c) →
    ∃ g' done', Ends (fun fuel => mgDfn fuel c g) g' ∧ g₀.Searching done' path g' ∧
      done ⊆ done' ∧ c ∈ done' ∧ ∀ x ∈ done', x ∈ done ∨ ReflTransGen g₀.ArcTo c x

variable {g g' g₀ : MapGraph} {c d : ClassRef} {done path : List ClassRef}

theorem Stacked.congr {stack stack' : Nat → DfStack} (stacked : Stacked stack path)
    (same : ∀ i, i ≤ path.length → stack' i = stack i) : Stacked stack' path := by
  induction path with
  | nil => trivial
  | cons c path ih =>
    obtain ⟨top, below⟩ := stacked
    refine ⟨?_, ih below fun i bound => same i (Nat.le_succ_of_le bound)⟩
    rw [same (path.length + 1) (le_refl _)]
    exact top

theorem Searching.previsit (searching : g₀.Searching done path g) (fresh : c ∉ done) :
    g₀.Searching done (c :: path) (mgPrevisit c g) := by
  obtain ⟨classes, arcs, depth, counter, stack, reports, apart, ordered⟩ := searching
  refine ⟨fun x => ?_, arcs, ?_, counter, ⟨?_, stack.congr fun i bound => ?_⟩, reports, ?_, ordered⟩
  · by_cases here : x = c
    · subst here
      simp [mgPrevisit, modifyClass, classes, placed]
    · simp [mgPrevisit, modifyClass, classes, placed, here]
  · simp [mgPrevisit, modifyClass, depth]
  · simp [mgPrevisit, modifyClass, depth]
  · simp only [mgPrevisit, modifyClass, depth]
    exact Function.update_of_ne (by omega) _ _
  · intro x member
    rcases List.mem_cons.mp member with rfl | member
    · exact fresh
    · exact apart x member

/-- The class is numbered next, after those its arcs lead to. -/
theorem Searching.postvisit (searching : g₀.Searching done (c :: path) g) (outside : c ∉ path)
    (fresh : g₀.Fresh c) (below : ∀ d, g₀.ArcTo c d → d ≠ c → d ∈ done) :
    ∃ g', (∀ fuel, mgPostvisit (fuel + 2) c g = some g') ∧ g₀.Searching (c :: done) path g' := by
  obtain ⟨classes, arcs, depth, counter, ⟨_, stack⟩, reports, apart, ordered⟩ := searching
  have head : (g.classes c).cycHead = c := by rw [classes]; exact fresh.cycHead
  have next : (g.classes c).cycNext = none := by rw [classes]; exact fresh.cycNext
  refine ⟨{ ({ g with dfnCounter := g.dfnCounter + 1 } : MapGraph).modifyClass c fun ci =>
    { ci with topOrder := g.dfnCounter + 1 } with dfnDepth := g.dfnDepth - 1 }, fun fuel => ?_, ?_⟩
  · simp [mgPostvisit, head, numberMembers, modifyClass, next]
  · refine ⟨fun x => ?_, arcs, ?_, ?_, stack, reports, ?_, ?_⟩
    · by_cases here : x = c
      · subst here
        simp [modifyClass, classes, placed, outside, number, counter]
      · simp [modifyClass, classes, placed, here, number]
    · simp [depth]
    · simp [modifyClass, counter]
    · intro x member inside
      rcases List.mem_cons.mp inside with rfl | inside
      · exact outside member
      · exact apart x (.tail _ member) inside
    · exact ⟨apart c List.mem_cons_self, below, ordered⟩

/-- The class on top of the stack is found there at once. -/
theorem Searching.findCycle (searching : g₀.Searching done (c :: path) g) (fuel : Nat) :
    MapGraph.findCycle fuel c g = some g := by
  have depth : g.dfnDepth = path.length + 1 := searching.depth
  have top : (g.dfnStack (path.length + 1)).obj = c := searching.stack.1
  simp [MapGraph.findCycle, depth, cycleTop, top]

/-- A class that is numbered stays so. -/
theorem Searching.numbered (searching : g₀.Searching done path g) (member : c ∈ done)
    (fuel : Nat) : mgDfn (fuel + 1) c g = some g := by
  have outside : c ∉ path := fun busy => searching.apart c busy member
  have positive := number_pos_iff.mpr member
  have numbered : (g.classes c).isNumbered = true := by
    rw [MapClass.isNumbered_iff, searching.classes c]
    simp only [placed, outside, member, if_true, if_false]
    omega
  rw [mgDfn, if_pos numbered]

theorem Searching.busy (searching : g₀.Searching done (c :: path) g) (fuel : Nat) :
    mgDfn (fuel + 1) c g = some g := by
  have top : (g.classes c).topOrder = mgDfnBusy := by
    rw [searching.classes c]
    simp [placed]
  rw [mgDfn, if_neg (by simp [MapClass.isNumbered, top]),
    if_pos (by simp [MapClass.isBusy, top]; decide),
    searching.findCycle]

theorem Searching.unnumbered (searching : g₀.Searching done path g) (outside : c ∉ path)
    (fresh : g₀.Fresh c) (unseen : c ∉ done) : (g.classes c).isNumbered = false ∧
      (g.classes c).isBusy = false := by
  rw [searching.classes c]
  simp [MapClass.isNumbered, MapClass.isBusy, placed, outside, unseen, fresh.topOrder]

/-- A call for a class that an arc of the class on top of the stack leads to. -/
theorem Searching.follow (visits : d ≠ c → g₀.Visits d) (arc : g₀.ArcTo c d)
    (above : ∀ p ∈ path, ReflTransGen g₀.ArcTo p c ∧ p ≠ c)
    (acyclic : ∀ d, Mutual g₀.ArcTo c d → c = d) (searching : g₀.Searching done (c :: path) g) :
    ∃ g' done', Ends (fun fuel => mgDfn fuel d g) g' ∧ g₀.Searching done' (c :: path) g' ∧
      done ⊆ done' ∧ (d ≠ c → d ∈ done') ∧ ∀ x ∈ done', x ∈ done ∨ ReflTransGen g₀.ArcTo c x := by
  by_cases self : d = c
  · subst self
    refine ⟨g, done, ⟨1, fun fuel enough => ?_⟩, searching, fun _ member => member,
      fun other => absurd rfl other, fun _ member => .inl member⟩
    obtain ⟨fuel, rfl⟩ := Nat.exists_eq_add_of_le' enough
    exact searching.busy fuel
  · have higher : ∀ p ∈ c :: path, ReflTransGen g₀.ArcTo p d ∧ p ≠ d := by
      intro p member
      rcases List.mem_cons.mp member with rfl | member
      · exact ⟨.single arc, fun same => self same.symm⟩
      · refine ⟨(above p member).1.tail arc, fun same => self ?_⟩
        have back : ReflTransGen g₀.ArcTo d c := same ▸ (above p member).1
        exact (acyclic d ⟨.single arc, back⟩).symm
    obtain ⟨g', done', ends, search, kept, member, new⟩ := visits self done (c :: path) g searching
      higher
    refine ⟨g', done', ends, search, kept, fun _ => member, fun x inside => ?_⟩
    exact (new x inside).imp_right fun path => .head arc path

/-- The loop over the arcs of the class on top of the stack numbers what they lead to. -/
theorem Searching.followArcs {l : List ArcRef} {start : Option ArcRef}
    (visits : ∀ d, g₀.ArcTo c d → d ≠ c → g₀.Visits d)
    (above : ∀ p ∈ path, ReflTransGen g₀.ArcTo p c ∧ p ≠ c)
    (acyclic : ∀ d, Mutual g₀.ArcTo c d → c = d)
    (linked : Linked (childList.links g₀.arcs) start l)
    (arcs : ∀ arc ∈ l, g₀.ArcTo c (g₀.arcs arc).child)
    (searching : g₀.Searching done (c :: path) g) :
    ∃ g' done', (∃ n, ∀ fuel calls, n ≤ fuel → n ≤ calls →
        MapGraph.followArcs (mgDfn calls) fuel start g = some g') ∧
      g₀.Searching done' (c :: path) g' ∧ done ⊆ done' ∧
      (∀ arc ∈ l, (g₀.arcs arc).child ≠ c → (g₀.arcs arc).child ∈ done') ∧
      ∀ x ∈ done', x ∈ done ∨ ReflTransGen g₀.ArcTo c x := by
  induction l generalizing start done g with
  | nil =>
    rw [linked_nil] at linked
    subst linked
    refine ⟨g, done, ⟨1, fun fuel _ enough _ => ?_⟩, searching, fun _ member => member, by simp,
      fun _ member => .inl member⟩
    obtain ⟨fuel, rfl⟩ := Nat.exists_eq_add_of_le' enough
    rfl
  | cons arc l ih =>
    obtain ⟨rfl, linked⟩ := linked
    have first := arcs arc List.mem_cons_self
    obtain ⟨g₁, done₁, ⟨n₁, call⟩, searching₁, kept₁, found₁, new₁⟩ :=
      searching.follow (visits _ first) first above acyclic
    obtain ⟨g₂, done₂, ⟨n₂, rest⟩, searching₂, kept₂, found₂, new₂⟩ :=
      ih linked (fun arc member => arcs arc (.tail _ member)) searching₁
    refine ⟨g₂, done₂, ⟨n₁ + n₂ + 1, fun fuel calls enough enough' => ?_⟩, searching₂,
      fun _ member => kept₂ (kept₁ member), ?_, ?_⟩
    · obtain ⟨fuel, rfl⟩ := Nat.exists_eq_add_of_le' (Nat.le_trans (Nat.le_add_left 1 _) enough)
      have called : mgDfn calls (g₀.arcs arc).child g = some g₁ := call calls (by omega)
      rw [MapGraph.followArcs, searching.arcs, called]
      simp only [searching₁.arcs]
      exact rest fuel calls (by omega) (by omega)
    · intro arc' member other
      rcases List.mem_cons.mp member with rfl | member
      · exact kept₂ (found₁ other)
      · exact found₂ arc' member other
    · intro x member
      rcases new₂ x member with before | reached
      · exact new₁ x before
      · exact .inr reached

/-- A call numbers what its class reaches, if the calls for its children do. -/
theorem visits_step {l : List ArcRef} (fresh : g₀.Fresh c) (list : g₀.HasArcs childList c l)
    (acyclic : ∀ d, Mutual g₀.ArcTo c d → c = d)
    (visits : ∀ d, g₀.ArcTo c d → d ≠ c → g₀.Visits d) : g₀.Visits c := by
  intro done path g searching above
  have outside : c ∉ path := fun member => (above c member).2 rfl
  by_cases seen : c ∈ done
  · refine ⟨g, done, ⟨1, fun fuel enough => ?_⟩, searching, fun _ member => member, seen,
      fun _ member => .inl member⟩
    obtain ⟨fuel, rfl⟩ := Nat.exists_eq_add_of_le' enough
    exact searching.numbered seen fuel
  · have entered := searching.previsit seen
    obtain ⟨g₁, done₁, ⟨n, loop⟩, searching₁, kept, found, new⟩ := entered.followArcs visits above
      acyclic list fun arc member => ⟨l, list, arc, member, rfl⟩
    have below : ∀ d, g₀.ArcTo c d → d ≠ c → d ∈ done₁ := by
      rintro d ⟨l', list', arc, member, rfl⟩ other
      exact found arc (Linked.unique list' list ▸ member) other
    obtain ⟨g₂, post, searching₂⟩ := searching₁.postvisit outside fresh below
    refine ⟨g₂, c :: done₁, ⟨n + 3, fun fuel enough => ?_⟩, searching₂,
      fun _ member => .tail _ (kept member), List.mem_cons_self, fun x member => ?_⟩
    · obtain ⟨fuel, rfl⟩ := Nat.exists_eq_add_of_le' (Nat.le_trans (Nat.le_add_left 3 n) enough)
      obtain ⟨notNumbered, notBusy⟩ := searching.unnumbered outside fresh seen
      have children : ((mgPrevisit c g).classes c).children = (g₀.classes c).children := by
        rw [entered.classes]
      have run := loop (fuel + 2) (fuel + 2) (by omega) (by omega)
      change mgDfn (fuel + 2 + 1) c g = some g₂
      rw [mgDfn, if_neg (by simp [notNumbered]), if_neg (by simp [notBusy])]
      simp only [children]
      rw [show (g₀.classes c).children = childList.first (g₀.classes c) from rfl, run]
      exact post fuel
    · rcases List.mem_cons.mp member with rfl | member
      · exact .inr .refl
      · exact new x member

theorem Initial.reached_inside {nodes : Finset ClassRef} {roots : List ClassRef}
    (initial : g.Initial nodes) (inside : ∀ c ∈ roots, c ∈ nodes)
    (reached : Reached g.ArcTo roots c) : c ∈ nodes := by
  obtain ⟨root, isRoot, path⟩ := reached
  induction path with
  | refl => exact inside root isRoot
  | tail _ arc ih => exact initial.inside _ ih _ arc

/-- On the part of a graph that is reached, without cycles, every call numbers what it reaches. -/
theorem Initial.visits {nodes : Finset ClassRef} {roots : List ClassRef} (initial : g.Initial nodes)
    (inside : ∀ c ∈ roots, c ∈ nodes)
    (acyclic : ∀ c d, Reached g.ArcTo roots c → Mutual g.ArcTo c d → c = d)
    (reached : Reached g.ArcTo roots c) : g.Visits c := by
  have member := fun x => @Initial.reached_inside g x nodes roots initial inside
  refine acyclic_induction member (fun x y from_x arc => from_x.tail arc) acyclic ?_ reached
  intro x from_x visits
  obtain ⟨l, list⟩ := initial.lists x (member x from_x)
  exact visits_step (initial.fresh x (member x from_x)) list (acyclic x · from_x) visits

/-- Calls for several classes, one after the other. -/
theorem Searching.dfns {roots : List ClassRef} (visits : ∀ c ∈ roots, g₀.Visits c)
    (searching : g₀.Searching done [] g) :
    ∃ g' done', Ends (fun fuel => mgDfns fuel roots g) g' ∧ g₀.Searching done' [] g' ∧
      done ⊆ done' ∧ (∀ c ∈ roots, c ∈ done') ∧
      ∀ x ∈ done', x ∈ done ∨ Reached g₀.ArcTo roots x := by
  induction roots generalizing done g with
  | nil => exact ⟨g, done, ⟨0, fun _ _ => rfl⟩, searching, fun _ member => member, by simp,
      fun _ member => .inl member⟩
  | cons c roots ih =>
    obtain ⟨g₁, done₁, ⟨n₁, call⟩, searching₁, kept₁, found, new₁⟩ :=
      visits c List.mem_cons_self done [] g searching (by simp)
    obtain ⟨g₂, done₂, ⟨n₂, rest⟩, searching₂, kept₂, found₂, new₂⟩ :=
      ih (fun c member => visits c (.tail _ member)) searching₁
    refine ⟨g₂, done₂, ⟨n₁ + n₂, fun fuel enough => ?_⟩, searching₂,
      fun _ member => kept₂ (kept₁ member), fun x member => ?_, fun x member => ?_⟩
    · have called : mgDfn fuel c g = some g₁ := call fuel (by omega)
      change mgDfns fuel (c :: roots) g = some g₂
      rw [mgDfns, called]
      exact rest fuel (by omega)
    · rcases List.mem_cons.mp member with rfl | member
      · exact kept₂ found
      · exact found₂ x member
    · rcases new₂ x member with before | ⟨root, isRoot, path⟩
      · rcases new₁ x before with before | path
        · exact .inl before
        · exact .inr ⟨c, List.mem_cons_self, path⟩
      · exact .inr ⟨root, .tail _ isRoot, path⟩

/-- On a graph without cycles the calls end, and number exactly what the roots reach. -/
theorem Initial.dfns {nodes : Finset ClassRef} {roots : List ClassRef} (initial : g.Initial nodes)
    (inside : ∀ c ∈ roots, c ∈ nodes)
    (acyclic : ∀ c d, Reached g.ArcTo roots c → Mutual g.ArcTo c d → c = d) :
    ∃ g' done, Ends (fun fuel => mgDfns fuel roots g) g' ∧ g.Searching done [] g' ∧
      ∀ x, x ∈ done ↔ Reached g.ArcTo roots x := by
  have start : g.Searching [] [] g := by
    refine ⟨fun c => ?_, rfl, initial.depth, initial.counter, trivial, rfl, by simp, trivial⟩
    simp [placed]
  obtain ⟨g', done, ends, searching, _, found, new⟩ := start.dfns fun c member =>
    initial.visits inside acyclic ⟨c, member, .refl⟩
  refine ⟨g', done, ends, searching, fun x => ⟨fun member => ?_, fun reached => ?_⟩⟩
  · exact (new x member).resolve_left List.not_mem_nil
  · exact searching.ordered.reached found reached

section LinkArc
variable {nodes : Finset ClassRef} {arc : ArcRef} {parent child : ClassRef} {count : BitVec 64}
  {l : List ArcRef}

/-- The lists of a class are all that `arc_add` changes of it. -/
theorem linkArc_classes (c : ClassRef) :
    ∃ parents, (g.linkArc arc parent child count).classes c = { g.classes c with
      parents, children := if c = parent then some arc else (g.classes c).children } := by
  by_cases isParent : c = parent
  · by_cases isChild : c = child
    · subst isParent isChild
      exact ⟨some arc, by simp [linkArc, modifyClass, modifyArc]⟩
    · subst isParent
      exact ⟨_, by simp [linkArc, modifyClass, modifyArc, isChild]; rfl⟩
  · by_cases isChild : c = child
    · subst isChild
      exact ⟨some arc, by simp [linkArc, modifyClass, modifyArc, isParent]⟩
    · exact ⟨_, by simp [linkArc, modifyClass, modifyArc, isParent, isChild]; rfl⟩

/-- The new arc points to what was the first on the list of its parent. -/
theorem linkArc_links (a : ArcRef) :
    childList.links (g.linkArc arc parent child count).arcs a =
      if a = arc then childList.first (g.classes parent) else childList.links g.arcs a := by
  by_cases here : a = arc
  · subst here
    simp [linkArc, modifyClass, modifyArc, childList, ArcList.links]
  · simp [linkArc, modifyClass, modifyArc, childList, ArcList.links, here]

theorem linkArc_child (a : ArcRef) : ((g.linkArc arc parent child count).arcs a).child =
    if a = arc then child else (g.arcs a).child := by
  by_cases here : a = arc
  · subst here
    simp [linkArc, modifyClass, modifyArc]
  · simp [linkArc, modifyClass, modifyArc, here]

/-- A new arc comes first on the list of its parent. -/
theorem HasArcs.linkArc (list : g.HasArcs childList c l) (unused : arc ∉ l) :
    (g.linkArc arc parent child count).HasArcs childList c (if c = parent then arc :: l else l) := by
  have kept : Linked (childList.links (g.linkArc arc parent child count).arcs)
      (childList.first (g.classes c)) l := by
    refine Linked.congr list fun a member => ?_
    have other : a ≠ arc := fun same => unused (same ▸ member)
    rw [linkArc_links, if_neg other]
  obtain ⟨parents, same⟩ := @linkArc_classes g arc parent child count c
  have first : childList.first ((g.linkArc arc parent child count).classes c) =
      if c = parent then some arc else childList.first (g.classes c) := by
    rw [same]
    rfl
  rw [HasArcs, first]
  split
  · rename_i here
    subst here
    refine ⟨rfl, ?_⟩
    rw [linkArc_links, if_pos rfl]
    exact kept
  · exact kept

/-- No arc is added but the new one. -/
theorem ArcTo.of_linkArc (list : g.HasArcs childList c l) (unused : arc ∉ l)
    (arcTo : (g.linkArc arc parent child count).ArcTo c d) :
    g.ArcTo c d ∨ c = parent ∧ d = child := by
  obtain ⟨l', list', a, member, rfl⟩ := arcTo
  obtain rfl := Linked.unique (list.linkArc unused) list'
  rw [linkArc_child]
  by_cases here : a = arc
  · rw [if_pos here]
    split at member
    · rename_i same
      exact .inr ⟨same, rfl⟩
    · exact absurd (here ▸ member) unused
  · rw [if_neg here]
    refine .inl ⟨l, list, a, ?_, rfl⟩
    split at member
    · exact (List.mem_cons.mp member).resolve_left here
    · exact member

theorem Fresh.linkArc (fresh : g.Fresh c) : (g.linkArc arc parent child count).Fresh c := by
  obtain ⟨childSize, printFlag, topOrder, cycNum, cycHead, cycNext⟩ := fresh
  obtain ⟨parents, same⟩ := @linkArc_classes g arc parent child count c
  constructor <;> rw [same] <;> assumption

theorem bare_hasArcs (size : ClassRef → BitVec 64) (c : ClassRef) :
    (bare size).HasArcs childList c [] := rfl

theorem bare_initial (size : ClassRef → BitVec 64) (nodes : Finset ClassRef) :
    (bare size).Initial nodes := by
  refine ⟨fun c _ => ⟨[], bare_hasArcs size c⟩, fun c _ d arcTo => ?_,
    fun c _ => ⟨rfl, rfl, rfl, rfl, rfl, rfl⟩, rfl, rfl⟩
  obtain ⟨l, list, a, member, _⟩ := arcTo
  rw [Linked.unique list (bare_hasArcs size c)] at member
  exact absurd member List.not_mem_nil

/-- What `arc_init` leaves of a class. -/
structure Blank (g : MapGraph) (c : ClassRef) : Prop extends g.Fresh c where
  children : (g.classes c).children = none

theorem arcInit_blank (g : MapGraph) (c : ClassRef) : (arcInit c g).Blank c := by
  refine ⟨⟨?_, ?_, ?_, ?_, ?_, ?_⟩, ?_⟩
  all_goals
    simp only [arcInit, modifyClass, Function.update_self]

theorem Blank.arcInit (blank : g.Blank c) (d : ClassRef) : (arcInit d g).Blank c := by
  by_cases here : c = d
  · rw [here]
    exact arcInit_blank g d
  · have kept : (MapGraph.arcInit d g).classes c = g.classes c :=
      Function.update_of_ne here _ _
    obtain ⟨⟨childSize, printFlag, topOrder, cycNum, cycHead, cycNext⟩, children⟩ := blank
    refine ⟨⟨?_, ?_, ?_, ?_, ?_, ?_⟩, ?_⟩
    all_goals
      rw [kept]
      assumption

/-- The first call of `mg_assemble`. -/
theorem arcIter_arcInit_blank (t : Rbtree.Node ClassRef) (g : MapGraph) :
    (∀ c, c ∈ t.inorder ∨ g.Blank c → (arcIter arcInit t g).Blank c) ∧
      (arcIter arcInit t g).dfnDepth = g.dfnDepth ∧
      (arcIter arcInit t g).dfnCounter = g.dfnCounter := by
  rw [arcIter_eq]
  induction t.inorder generalizing g with
  | nil => exact ⟨fun c either => either.resolve_left List.not_mem_nil, rfl, rfl⟩
  | cons d l ih =>
    obtain ⟨blank, depth, counter⟩ := ih (arcInit d g)
    refine ⟨fun c either => blank c ?_, depth, counter⟩
    rcases either with member | before
    · rcases List.mem_cons.mp member with rfl | later
      · exact .inr (arcInit_blank g c)
      · exact .inl later
    · exact .inr (before.arcInit d)

/-- The classes of `cTable` are ready for the numbering then, without arcs. -/
theorem arcIter_arcInit_initial (t : Rbtree.Node ClassRef) {g : MapGraph} (depth : g.dfnDepth = 0)
    (counter : g.dfnCounter = mgDfnNan) :
    (arcIter arcInit t g).Initial t.inorder.toFinset := by
  obtain ⟨blank, depth', counter'⟩ := arcIter_arcInit_blank t g
  have empty : ∀ c ∈ t.inorder.toFinset, (arcIter arcInit t g).HasArcs childList c [] :=
    fun c member => (blank c (.inl (List.mem_toFinset.mp member))).children
  refine ⟨fun c member => ⟨[], empty c member⟩, fun c member d arcTo => ?_,
    fun c member => (blank c (.inl (List.mem_toFinset.mp member))).toFresh,
    depth'.trans depth, counter'.trans counter⟩
  obtain ⟨l, list, a, inside, _⟩ := arcTo
  rw [Linked.unique list (empty c member)] at inside
  exact absurd inside List.not_mem_nil

/-- `arc_add` keeps a graph ready for the numbering. -/
theorem Initial.linkArc (initial : g.Initial nodes)
    (unused : ∀ c ∈ nodes, ∀ l, g.HasArcs childList c l → arc ∉ l) (inside : child ∈ nodes) :
    (g.linkArc arc parent child count).Initial nodes := by
  refine ⟨fun c member => ?_, fun c member d arcTo => ?_, fun c member =>
    (initial.fresh c member).linkArc, initial.depth, initial.counter⟩
  · obtain ⟨l, list⟩ := initial.lists c member
    exact ⟨_, list.linkArc (unused c member l list)⟩
  · obtain ⟨l, list⟩ := initial.lists c member
    rcases arcTo.of_linkArc list (unused c member l list) with before | ⟨_, rfl⟩
    · exact initial.inside c member d before
    · exact inside

end LinkArc

end Phat.MapGraph
