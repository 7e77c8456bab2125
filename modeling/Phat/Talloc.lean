import Mathlib.Logic.Function.Basic

/-! The hierarchy that talloc.c keeps: chunks, each in the list of the chunks under its parent. Only
the first chunk of a list points to the parent. NULL is `none`; an allocation is granted, and nothing
is freed. -/
namespace Phat.Talloc

abbrev ChunkRef := Nat

/-- The members of `struct talloc_chunk` at each address, and how many chunks there are. A chunk not
yet made holds whatever the memory there held. -/
structure Heap where
  next : ChunkRef → Option ChunkRef
  prev : ChunkRef → Option ChunkRef
  parent : ChunkRef → Option ChunkRef
  child : ChunkRef → Option ChunkRef
  size : ChunkRef → Nat
  count : Nat

/-- `MAX_TALLOC_SIZE` -/
def maxTallocSize : Nat := 0x7FFFFFFF

namespace Heap

def setNext (m : Heap) (tc : ChunkRef) (next : Option ChunkRef) : Heap :=
  { m with next := Function.update m.next tc next }

def setPrev (m : Heap) (tc : ChunkRef) (prev : Option ChunkRef) : Heap :=
  { m with prev := Function.update m.prev tc prev }

def setParent (m : Heap) (tc : ChunkRef) (parent : Option ChunkRef) : Heap :=
  { m with parent := Function.update m.parent tc parent }

def setChild (m : Heap) (tc : ChunkRef) (child : Option ChunkRef) : Heap :=
  { m with child := Function.update m.child tc child }

/-- The neighbours of a chunk are linked to one another. -/
def bypass (tc : ChunkRef) (m : Heap) : Heap :=
  let m := match m.prev tc with
    | some prev => m.setNext prev (m.next tc)
    | none => m
  match m.next tc with
  | some next => m.setPrev next (m.prev tc)
  | none => m

/-- `_TLIST_ADD(parent->child, tc)` -/
def listAdd (parent tc : ChunkRef) (m : Heap) : Heap :=
  match m.child parent with
  | none => ((m.setChild parent (some tc)).setNext tc none).setPrev tc none
  | some first =>
    (((m.setPrev first (some tc)).setNext tc (some first)).setPrev tc none).setChild parent (some tc)

/-- `_TLIST_REMOVE(parent->child, tc)` -/
def listRemove (parent tc : ChunkRef) (m : Heap) : Heap :=
  let m := if m.child parent = some tc then
      let m := m.setChild parent (m.next tc)
      match m.child parent with
      | some first => m.setPrev first none
      | none => m
    else m.bypass tc
  if m.child parent = some tc then m else (m.setNext tc none).setPrev tc none

/-- A chunk is taken out of the list it is in. -/
def unlink (tc : ChunkRef) (m : Heap) : Heap :=
  match m.parent tc with
  | some parent =>
    let m := m.listRemove parent tc
    match m.child parent with
    | some first => m.setParent first (some parent)
    | none => m
  | none => m.bypass tc

/-- `init_talloc` of memory just allocated -/
def initTalloc (parent : Option ChunkRef) (tc size : Nat) (m : Heap) : Heap :=
  let m := { m with size := Function.update m.size tc size }.setChild tc none
  match parent with
  | some parent =>
    let m := match m.child parent with
      | some first => ((m.setParent first none).setNext tc (some first)).setPrev first (some tc)
      | none => m.setNext tc none
    ((m.setParent tc (some parent)).setPrev tc none).setChild parent (some tc)
  | none => ((m.setNext tc none).setPrev tc none).setParent tc none

/-- `__talloc` -/
def talloc (context : Option ChunkRef) (size : Nat) (m : Heap) : Option ChunkRef × Heap :=
  if maxTallocSize ≤ size then (none, m)
  else (some m.count, { m.initTalloc context m.count size with count := m.count + 1 })

/-- A chunk that is in no list becomes the first child of another. -/
def reattach (newTc tc : ChunkRef) (m : Heap) : Heap :=
  let m := m.setParent tc (some newTc)
  let m := match m.child newTc with
    | some first => m.setParent first none
    | none => m
  m.listAdd newTc tc

/-- What `__talloc_steal` does with a chunk. -/
def stealChunk (newCtx : Option ChunkRef) (tc : ChunkRef) (m : Heap) : Heap :=
  match newCtx with
  | none => (((m.unlink tc).setPrev tc none).setNext tc none).setParent tc none
  | some newTc =>
    if tc = newTc ∨ m.parent tc = some newTc then m
    else
      (m.unlink tc).reattach newTc tc

/-- `__talloc_steal`; NULL is returned with no side effects. -/
def steal (newCtx ptr : Option ChunkRef) (m : Heap) : Option ChunkRef × Heap :=
  match ptr with
  | none => (none, m)
  | some tc => (some tc, m.stealChunk newCtx tc)

/-- The walk to the first chunk of a list. -/
def firstOf (m : Heap) : Nat → ChunkRef → Option ChunkRef
  | 0, _ => none
  | fuel + 1, tc =>
    match m.prev tc with
    | some prev => firstOf m fuel prev
    | none => some tc

/-- `talloc_parent_chunk` -/
def parentChunk (fuel : Nat) (ptr : Option ChunkRef) (m : Heap) : Option (Option ChunkRef) :=
  match ptr with
  | none => some none
  | some tc => (m.firstOf fuel tc).map m.parent

/-- `_talloc_is_parent`; `steps` is how many contexts it looks at. -/
def isParent (m : Heap) (fuel : Nat) (ptr : ChunkRef) : Nat → Option ChunkRef → Option Bool
  | 0, _ => none
  | _ + 1, none => some false
  | steps + 1, some tc =>
    if tc = ptr then some true
    else (m.parentChunk fuel (some tc)).bind (isParent m fuel ptr steps)

end Heap

end Phat.Talloc
