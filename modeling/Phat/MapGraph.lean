import Phat.Foundation.Links
import Phat.TreeWalks

/-! The graph of classes for the report: `mg_dfn` and `find_cycle` number the classes, `prop_size`
hands sizes up along the arcs, and arcs and classes are sorted for printing. Memory for the stack is
granted, and counters are unbounded. -/
namespace Phat

abbrev ArcRef := Nat

/-- The map graph values of `cinfo`. -/
structure MapClass where
  size : BitVec 64
  childSize : BitVec 64
  parents : Option ArcRef
  children : Option ArcRef
  cycNum : Int
  cycHead : ClassRef
  cycNext : Option ClassRef
  topOrder : Int
  printFlag : Byte

/-- `struct _arc` without `has_placed`. -/
structure MapArc where
  parent : ClassRef
  child : ClassRef
  nextParent : Option ArcRef
  nextChild : Option ArcRef
  count : BitVec 64
  size : BitVec 64
  childSize : BitVec 64

/-- `struct _dfstack` -/
structure DfStack where
  obj : ClassRef
  cyctop : Nat

/-- `reports` is what has been printed to `stderr`. -/
structure MapGraph where
  classes : ClassRef → MapClass
  arcs : ArcRef → MapArc
  dfnDepth : Nat
  dfnMaxdepth : Nat
  dfnCounter : Int
  dfnStack : Nat → DfStack
  reports : List String

/-- `MG_DFN_NAN` -/
def mgDfnNan : Int := 0

/-- `MG_DFN_BUSY` -/
def mgDfnBusy : Int := -1

/-- `IS_NUMBERED` -/
def MapClass.isNumbered (ci : MapClass) : Bool :=
  mgDfnNan ≠ ci.topOrder && mgDfnBusy ≠ ci.topOrder

/-- `IS_BUSY` -/
def MapClass.isBusy (ci : MapClass) : Bool := mgDfnNan ≠ ci.topOrder

theorem MapClass.isNumbered_iff (ci : MapClass) :
    ci.isNumbered = true ↔ ci.topOrder ≠ 0 ∧ ci.topOrder ≠ -1 := by
  rw [isNumbered, Bool.and_eq_true, decide_eq_true_iff, decide_eq_true_iff, mgDfnNan, mgDfnBusy]
  exact and_congr ne_comm ne_comm

namespace MapGraph

def modifyClass (g : MapGraph) (c : ClassRef) (f : MapClass → MapClass) : MapGraph :=
  { g with classes := Function.update g.classes c (f (g.classes c)) }

def modifyArc (g : MapGraph) (a : ArcRef) (f : MapArc → MapArc) : MapGraph :=
  { g with arcs := Function.update g.arcs a (f (g.arcs a)) }

def report (g : MapGraph) (text : String) : MapGraph := { g with reports := g.reports ++ [text] }

/-- Classes of these sizes as `arc_init` leaves them, and the initial counters. -/
def bare (size : ClassRef → BitVec 64) : MapGraph where
  classes := fun c => ⟨size c, 0, none, none, 0, c, none, mgDfnNan, 0⟩
  arcs := fun _ => ⟨0, 0, none, none, 0, 0, 0⟩
  dfnDepth := 0
  dfnMaxdepth := 0
  dfnCounter := mgDfnNan
  dfnStack := fun _ => ⟨0, 0⟩
  reports := []

/-- The links that `arc_add` makes for a new arc. -/
def linkArc (g : MapGraph) (arc : ArcRef) (parent child : ClassRef) (count : BitVec 64) :
    MapGraph :=
  let g := g.modifyArc arc fun a => { a with parent, child, count }
  let g := g.modifyArc arc fun a => { a with nextChild := (g.classes parent).children }
  let g := g.modifyClass parent fun ci => { ci with children := some arc }
  let g := g.modifyArc arc fun a => { a with nextParent := (g.classes child).parents }
  g.modifyClass child fun ci => { ci with parents := some arc }

def arcInit (ci : ClassRef) (g : MapGraph) : MapGraph :=
  g.modifyClass ci fun c =>
    { c with
      childSize := 0
      printFlag := 0
      topOrder := mgDfnNan
      cycNum := 0
      cycHead := ci
      cycNext := none
      parents := none
      children := none }

def mgPrevisit (ho : ClassRef) (g : MapGraph) : MapGraph :=
  let depth := g.dfnDepth + 1
  let g := { g with
    dfnDepth := depth
    dfnMaxdepth := if g.dfnMaxdepth ≤ depth then g.dfnMaxdepth + 16 else g.dfnMaxdepth
    dfnStack := Function.update g.dfnStack depth ⟨ho, depth⟩ }
  g.modifyClass ho fun ci => { ci with topOrder := mgDfnBusy }

/-- The loop of `mg_postvisit` goes through the members with `ho`, and assigns to `memb`. -/
def numberMembers (memb : ClassRef) : Nat → Option ClassRef → MapGraph → Option MapGraph
  | 0, _, _ => none
  | _ + 1, none, g => some g
  | fuel + 1, some ho, g =>
    let g := g.modifyClass memb fun ci => { ci with topOrder := g.dfnCounter }
    numberMembers memb fuel (g.classes ho).cycNext g

def mgPostvisit (fuel : Nat) (ho : ClassRef) (g : MapGraph) : Option MapGraph :=
  let numbered :=
    if (g.classes ho).cycHead = ho then
      numberMembers ho fuel (some ho) { g with dfnCounter := g.dfnCounter + 1 }
    else some g
  numbered.map fun g => { g with dfnDepth := g.dfnDepth - 1 }

/-- The loop that looks for `cycle_top`; `head` is the object there. -/
def cycleTop (g : MapGraph) (ho : ClassRef) : Nat → Nat
  | 0 => 0
  | top + 1 =>
    let head := (g.dfnStack (top + 1)).obj
    if ho = head then top + 1
    else if (g.classes ho).cycHead ≠ ho ∧ (g.classes ho).cycHead ≠ head then top + 1
    else g.cycleTop ho top

/-- The last member on the list. -/
def findTail (g : MapGraph) : Nat → ClassRef → Option ClassRef
  | 0, _ => none
  | fuel + 1, tail =>
    match (g.classes tail).cycNext with
    | none => some tail
    | some next => g.findTail fuel next

/-- The members behind `tail` get the head, and the last one is returned. -/
def captureMembers (head : ClassRef) : Nat → ClassRef → MapGraph → Option (ClassRef × MapGraph)
  | 0, _, _ => none
  | fuel + 1, tail, g =>
    match (g.classes tail).cycNext with
    | none => some (tail, g)
    | some next =>
      captureMembers head fuel next (g.modifyClass next fun ci => { ci with cycHead := head })

/-- The loop over the stack above `cycle_top`, with the number of entries left. -/
def capture (fuel : Nat) (head : ClassRef) : Nat → Nat → ClassRef → MapGraph → Option MapGraph
  | 0, _, _, g => some g
  | left + 1, index, tail, g =>
    let ho := (g.dfnStack index).obj
    if (g.classes ho).cycHead = ho then
      let g := g.modifyClass tail fun ci => { ci with cycNext := some ho }
      let g := g.modifyClass ho fun ci => { ci with cycHead := head }
      match captureMembers head fuel ho g with
      | none => none
      | some (tail, g) => capture fuel head left (index + 1) tail g
    else if (g.classes ho).cycHead ≠ head then
      some (g.report "[find_cycle] captured, but not to head\n")
    else capture fuel head left (index + 1) tail g

def findCycle (fuel : Nat) (ho : ClassRef) (g : MapGraph) : Option MapGraph :=
  let top := g.cycleTop ho g.dfnDepth
  if top = 0 then some (g.report "[find_cycle] cannot find head of cycle\n")
  else if top ≠ g.dfnDepth then
    let head := (g.dfnStack top).obj
    match g.findTail fuel head with
    | none => none
    | some tail =>
      let head := if (g.classes head).cycHead ≠ head then (g.classes head).cycHead else head
      capture fuel head (g.dfnDepth - top) (top + 1) tail g
  else some g

/-- The loop over the arcs to children, for any `visit`. -/
def followArcs (visit : ClassRef → MapGraph → Option MapGraph) :
    Nat → Option ArcRef → MapGraph → Option MapGraph
  | 0, _, _ => none
  | _ + 1, none, g => some g
  | fuel + 1, some arc, g =>
    match visit (g.arcs arc).child g with
    | none => none
    | some g => followArcs visit fuel (g.arcs arc).nextChild g

/-- `none` means that the fuel was not enough. -/
def mgDfn : Nat → ClassRef → MapGraph → Option MapGraph
  | 0, _, _ => none
  | fuel + 1, ho, g =>
    if (g.classes ho).isNumbered then some g
    else if (g.classes ho).isBusy then findCycle fuel ho g
    else
      let g := mgPrevisit ho g
      match followArcs (mgDfn fuel) fuel (g.classes ho).children g with
      | none => none
      | some g => mgPostvisit fuel ho g

/-- `mg_dfn` on these classes, one after the other. -/
def mgDfns (fuel : Nat) : List ClassRef → MapGraph → Option MapGraph
  | [], g => some g
  | ho :: roots, g =>
    match mgDfn fuel ho g with
    | none => none
    | some g => mgDfns fuel roots g

/-- The end of the loop of `prop_size`. -/
def inheritSize (ho : ClassRef) (arc : ArcRef) (child : ClassRef) (g : MapGraph) : MapGraph :=
  let g := g.modifyArc arc fun a =>
    { a with size := (g.classes child).size, childSize := (g.classes child).childSize }
  let sum := (g.arcs arc).size + (g.arcs arc).childSize
  let g := g.modifyClass ho fun ci => { ci with childSize := ci.childSize + sum }
  if (g.classes ho).cycHead ≠ ho then
    g.modifyClass (g.classes ho).cycHead fun ci => { ci with childSize := ci.childSize + sum }
  else g

def propArc (ho : ClassRef) (arc : ArcRef) (g : MapGraph) : MapGraph :=
  let botched := "[prop_size] topo order botched\n"
  let child := (g.arcs arc).child
  if (g.arcs arc).count = 0 ∨ child = ho then g
  else if (g.classes child).cycHead ≠ child then
    if (g.classes ho).cycNum = (g.classes child).cycNum then g
    else
      let g :=
        if (g.classes ho).topOrder ≤ (g.classes child).topOrder then g.report botched else g
      inheritSize ho arc (g.classes child).cycHead g
  else if (g.classes ho).topOrder ≤ (g.classes child).topOrder then g.report botched
  else inheritSize ho arc child g

def propArcs (ho : ClassRef) : Nat → Option ArcRef → MapGraph → Option MapGraph
  | 0, _, _ => none
  | _ + 1, none, g => some g
  | fuel + 1, some arc, g =>
    let g := propArc ho arc g
    propArcs ho fuel (g.arcs arc).nextChild g

def propSize (fuel : Nat) (ho : ClassRef) (g : MapGraph) : Option MapGraph :=
  if (g.classes ho).size = 0 then some g else propArcs ho fuel (g.classes ho).children g

/-- `prop_size` on these classes, one after the other. -/
def propSizes (fuel : Nat) : List ClassRef → MapGraph → Option MapGraph
  | [], g => some g
  | ho :: rest, g =>
    match propSize fuel ho g with
    | none => none
    | some g => propSizes fuel rest g

/-- `topotab` is the argument and the result. -/
def topoSort (g : MapGraph) (ci : ClassRef) (topotab : Table ClassRef) : Table ClassRef :=
  topotab.insert32 (BitVec.ofInt 32 (g.classes ci).topOrder) ci

/-- `sizetab` is the argument and the result. -/
def sizeSort (g : MapGraph) (ci : ClassRef) (sizetab : Table ClassRef) : Table ClassRef :=
  sizetab.insert32 (key ((g.classes ci).size + (g.classes ci).childSize)) ci

/-- Whether an arc is inside one cycle. -/
def inCycle (g : MapGraph) (arc : MapArc) : Bool :=
  (g.classes arc.parent).cycNum ≠ 0 && (g.classes arc.child).cycNum ≠ 0 &&
    (g.classes arc.parent).cycNum = (g.classes arc.child).cycNum

/-- The differences are of type `long`, and become `int`. -/
def cmpArc (g : MapGraph) (left right : MapArc) : Int :=
  let narrow := fun difference : BitVec 64 => (difference.setWidth 32).toInt
  if left.parent = left.child then -1
  else if right.parent = right.child then 1
  else if g.inCycle left then
    if g.inCycle right then narrow (left.count - right.count) else -1
  else if g.inCycle right then 1
  else
    let size := narrow (left.size - right.size)
    if size ≠ 0 then size else narrow (left.count - right.count)

end MapGraph

/-- An arc without its links. -/
def MapArc.unlinked (arc : MapArc) : MapArc := { arc with nextParent := none, nextChild := none }

/-- One of the two lists that an arc is on: the member of `Arc` that points to the next arc, and
the member of `cinfo` that points to the first. -/
structure ArcList where
  next : MapArc → Option ArcRef
  setNext : Option ArcRef → MapArc → MapArc
  first : MapClass → Option ArcRef
  setFirst : Option ArcRef → MapClass → MapClass
  next_setNext : ∀ next' arc, next (setNext next' arc) = next'
  first_setFirst : ∀ first' ci, first (setFirst first' ci) = first'
  setNext_setNext : ∀ next' next'' arc, setNext next' (setNext next'' arc) = setNext next' arc
  unlinked_setNext : ∀ next' arc, (setNext next' arc).unlinked = arc.unlinked

def parentList : ArcList where
  next := MapArc.nextParent
  setNext := fun next' a => { a with nextParent := next' }
  first := MapClass.parents
  setFirst := fun first' ci => { ci with parents := first' }
  next_setNext := fun _ _ => rfl
  first_setFirst := fun _ _ => rfl
  setNext_setNext := fun _ _ _ => rfl
  unlinked_setNext := fun _ _ => rfl

def childList : ArcList where
  next := MapArc.nextChild
  setNext := fun next' a => { a with nextChild := next' }
  first := MapClass.children
  setFirst := fun first' ci => { ci with children := first' }
  next_setNext := fun _ _ => rfl
  first_setFirst := fun _ _ => rfl
  setNext_setNext := fun _ _ _ => rfl
  unlinked_setNext := fun _ _ => rfl

/-- The pointers of one of the lists. -/
abbrev ArcList.links (list : ArcList) (arcs : ArcRef → MapArc) (arc : ArcRef) : Option ArcRef :=
  list.next (arcs arc)

/-- These are the arcs on the list of a class. -/
def MapGraph.HasArcs (g : MapGraph) (list : ArcList) (ho : ClassRef) (l : List ArcRef) : Prop :=
  Links.Linked (list.links g.arcs) (list.first (g.classes ho)) l

/-- The arcs while a list is sorted, and the link in the variable `sorted`. A pointer to an arc or,
as `none`, to `sorted` itself is an `Option ArcRef`. -/
structure Relinking where
  arcs : ArcRef → MapArc
  sorted : Option ArcRef

namespace Relinking

def next (list : ArcList) (s : Relinking) : Option ArcRef → Option ArcRef
  | none => s.sorted
  | some arc => list.next (s.arcs arc)

def setNext (list : ArcList) (s : Relinking) (next : Option ArcRef) : Option ArcRef → Relinking
  | none => { s with sorted := next }
  | some arc => { s with arcs := Function.update s.arcs arc (list.setNext next (s.arcs arc)) }

/-- The inner loop, with the test for its `break`. -/
def findPrev (list : ArcList) (stop : MapArc → Bool) (s : Relinking) :
    Nat → Option ArcRef → Option (Option ArcRef)
  | 0, _ => none
  | fuel + 1, prev =>
    match s.next list prev with
    | none => some prev
    | some arc => if stop (s.arcs arc) then some prev else s.findPrev list stop fuel (some arc)

/-- The outer loop. -/
def sortArcs (list : ArcList) (stop : MapArc → MapArc → Bool) :
    Nat → Option ArcRef → Relinking → Option Relinking
  | 0, _, _ => none
  | _ + 1, none, s => some s
  | fuel + 1, some arc, s =>
    let detached := s.next list (some arc)
    match s.findPrev list (stop (s.arcs arc)) fuel none with
    | none => none
    | some prev =>
      let s := s.setNext list (s.next list prev) (some arc)
      let s := s.setNext list (some arc) prev
      sortArcs list stop fuel detached s

end Relinking

namespace MapGraph

/-- `sort_parents` and `sort_children` but for their tests. -/
def sortList (list : ArcList) (stop : Int → Bool) (fuel : Nat) (ho : ClassRef) (g : MapGraph) :
    Option MapGraph :=
  (Relinking.sortArcs list (fun arc other => stop (g.cmpArc arc other)) fuel
    (list.first (g.classes ho)) ⟨g.arcs, none⟩).map fun s =>
      { g with arcs := s.arcs }.modifyClass ho (list.setFirst s.sorted)

def sortParents (fuel : Nat) (ho : ClassRef) (g : MapGraph) : Option MapGraph :=
  sortList parentList (fun cmp => 0 ≥ cmp) fuel ho g

def sortChildren (fuel : Nat) (ho : ClassRef) (g : MapGraph) : Option MapGraph :=
  sortList childList (fun cmp => 0 ≤ cmp) fuel ho g

end MapGraph

end Phat
