import Phat.Deletion
import Phat.Foundation.PointerTree
import Phat.Foundation.Store

/-! The functions of rbtree.c on memory: records of nodes and of trees, reached by pointers. NULL is
`none`; a function that dereferences it has no result, nor has one whose fuel is not enough. An
allocation is granted. Of talloc there is here only what a node hangs off: data are apart from the
trees and from their nodes. -/
namespace Phat.Trbt
open Rbtree (Color)

abbrev NodeRef := Nat

abbrev TreeRef := Nat

/-- `trbt_node_t`; `data` points to an `α`. -/
structure TrbtNode (α : Type) where
  tree : TreeRef
  parent : Option NodeRef
  left : Option NodeRef
  right : Option NodeRef
  rbColor : Color
  key32 : Key
  data : Option α

/-- `trbt_tree_t`, and whether it has not been freed. -/
structure TrbtTree where
  root : Option NodeRef
  flags : BitVec 32
  live : Bool

/-- `TRBT_AUTOFREE` -/
def trbtAutofree : BitVec 32 := 1

/-- `owner` is the datum that a node hangs off, if there is one. -/
structure Memory (α : Type) where
  node : Store (TrbtNode α)
  tree : Store TrbtTree
  owner : NodeRef → Option α

namespace Memory
variable {α : Type}

def root (m : Memory α) (tree : TreeRef) : Option NodeRef := (m.tree.get tree).root
def treeOf (m : Memory α) (node : NodeRef) : TreeRef := (m.node.get node).tree
def parent (m : Memory α) (node : NodeRef) : Option NodeRef := (m.node.get node).parent
def left (m : Memory α) (node : NodeRef) : Option NodeRef := (m.node.get node).left
def right (m : Memory α) (node : NodeRef) : Option NodeRef := (m.node.get node).right
def rbColor (m : Memory α) (node : NodeRef) : Color := (m.node.get node).rbColor
def key32 (m : Memory α) (node : NodeRef) : Key := (m.node.get node).key32
def data (m : Memory α) (node : NodeRef) : Option α := (m.node.get node).data

def setRoot (m : Memory α) (tree : TreeRef) (root : Option NodeRef) : Memory α :=
  { m with tree := m.tree.modify tree fun t => { t with root } }

def setParent (m : Memory α) (node : NodeRef) (parent : Option NodeRef) : Memory α :=
  { m with node := m.node.modify node fun n => { n with parent } }

def setLeft (m : Memory α) (node : NodeRef) (left : Option NodeRef) : Memory α :=
  { m with node := m.node.modify node fun n => { n with left } }

def setRight (m : Memory α) (node : NodeRef) (right : Option NodeRef) : Memory α :=
  { m with node := m.node.modify node fun n => { n with right } }

def setColor (m : Memory α) (node : NodeRef) (rbColor : Color) : Memory α :=
  { m with node := m.node.modify node fun n => { n with rbColor } }

def setKey (m : Memory α) (node : NodeRef) (key32 : Key) : Memory α :=
  { m with node := m.node.modify node fun n => { n with key32 } }

def setData (m : Memory α) (node : NodeRef) (data : Option α) : Memory α :=
  { m with node := m.node.modify node fun n => { n with data } }

/-- `talloc_steal(data, node)` -/
def steal (m : Memory α) (data : Option α) (node : NodeRef) : Memory α :=
  { m with owner := Function.update m.owner node data }

/-- `talloc_free(tree)`. What else hangs off a tree would go with it: data here are neither trees nor
chunks below one. -/
def freeTree (m : Memory α) (tree : TreeRef) : Memory α :=
  { m with tree := m.tree.modify tree fun t => { t with live := false } }

/-- `trbt_create` -/
def create (m : Memory α) (flags : BitVec 32) : TreeRef × Memory α :=
  (m.tree.next, { m with tree := m.tree.alloc fun _ => ⟨none, flags, true⟩ })

/-- `trbt_uncle` -/
def uncle (m : Memory α) (node : NodeRef) : Option NodeRef :=
  match m.parent node with
  | none => none
  | some parent =>
    match m.parent parent with
    | none => none
    | some grandparent =>
      if some parent = m.left grandparent then m.right grandparent else m.left grandparent

/-- The pointer to a node, in its parent or in the tree, is led to another. -/
def replaceChild (m : Memory α) (node : NodeRef) (child : Option NodeRef) : Memory α :=
  match m.parent node with
  | some parent =>
    if m.left parent = some node then m.setLeft parent child else m.setRight parent child
  | none => m.setRoot (m.treeOf node) child

/-- If there is a child, it gets the parent. -/
def adopt (m : Memory α) (child : Option NodeRef) (parent : NodeRef) : Memory α :=
  match child with
  | none => m
  | some child => m.setParent child (some parent)

def child (m : Memory α) : Side → NodeRef → Option NodeRef
  | .left => m.left
  | .right => m.right

def setChild (m : Memory α) : Side → NodeRef → Option NodeRef → Memory α
  | .left => m.setLeft
  | .right => m.setRight

/-- The node goes down to one side, and its child on the other side comes up. -/
def rotate (side : Side) (m : Memory α) (node : NodeRef) : Option (Memory α) := do
  let up ← m.child side.opposite node
  let m := m.replaceChild node (some up)
  let m := m.setParent up (m.parent node)
  let m := m.setParent node (some up)
  let m := m.setChild side.opposite node (m.child side up)
  let m := m.adopt (m.child side.opposite node) node
  let parent ← m.parent node
  some (m.setChild side parent (some node))

/-- `trbt_rotate_left` -/
def rotateLeft (m : Memory α) (node : NodeRef) : Option (Memory α) := m.rotate .left node

/-- `trbt_rotate_right` -/
def rotateRight (m : Memory α) (node : NodeRef) : Option (Memory α) := m.rotate .right node

/-- `trbt_get_color`: NULL nodes are black by definition. -/
def getColor (m : Memory α) : Option NodeRef → Color
  | none => .black
  | some node => m.rbColor node

def getColorLeft (m : Memory α) : Option NodeRef → Color
  | none => .black
  | some node => m.getColor (m.left node)

def getColorRight (m : Memory α) : Option NodeRef → Color
  | none => .black
  | some node => m.getColor (m.right node)

/-- `trbt_set_color`: setting a NULL node to black is a nop. -/
def setColorOf (m : Memory α) (node : Option NodeRef) (color : Color) : Option (Memory α) :=
  match node, color with
  | none, .black => some m
  | none, .red => none
  | some node, color => some (m.setColor node color)

def setColorLeft (m : Memory α) (node : Option NodeRef) (color : Color) : Option (Memory α) :=
  m.setColorOf (node.bind m.left) color

def setColorRight (m : Memory α) (node : Option NodeRef) (color : Color) : Option (Memory α) :=
  m.setColorOf (node.bind m.right) color

def insertCase5 (node : NodeRef) (m : Memory α) : Option (Memory α) := do
  let parent ← m.parent node
  let grandparent ← m.parent parent
  let m := m.setColor parent .black
  let m := m.setColor grandparent .red
  if some node = m.left parent ∧ some parent = m.left grandparent then m.rotateRight grandparent
  else m.rotateLeft grandparent

def insertCase4 (node : NodeRef) (m : Memory α) : Option (Memory α) := do
  let parent ← m.parent node
  match m.parent parent with
  | none => some m
  | some grandparent =>
    if some node = m.right parent ∧ some parent = m.left grandparent then
      let m ← m.rotateLeft parent
      let node ← m.left node
      m.insertCase5 node
    else if some node = m.left parent ∧ some parent = m.right grandparent then
      let m ← m.rotateRight parent
      let node ← m.right node
      m.insertCase5 node
    else m.insertCase5 node

/-- The call of `trbt_insert_case1` is a parameter. -/
def insertCase3 (insertCase1 : NodeRef → Memory α → Option (Memory α)) (node : NodeRef)
    (m : Memory α) : Option (Memory α) :=
  match m.uncle node with
  | none => m.insertCase4 node
  | some uncle =>
    if m.rbColor uncle = .red then do
      let parent ← m.parent node
      let m := m.setColor parent .black
      let m := m.setColor uncle .black
      let grandparent ← m.parent parent
      let m := m.setColor grandparent .red
      insertCase1 grandparent m
    else m.insertCase4 node

def insertCase2 (insertCase1 : NodeRef → Memory α → Option (Memory α)) (node : NodeRef)
    (m : Memory α) : Option (Memory α) := do
  let parent ← m.parent node
  if m.rbColor parent = .black then some m else m.insertCase3 insertCase1 node

def insertCase1 : Nat → NodeRef → Memory α → Option (Memory α)
  | 0, _, _ => none
  | fuel + 1, node, m =>
    match m.parent node with
    | none => some (m.setColor node .black)
    | some _ => m.insertCase2 (insertCase1 fuel) node

/-- `trbt_sibling` -/
def sibling (m : Memory α) (node : NodeRef) : Option NodeRef :=
  match m.parent node with
  | none => none
  | some parent => if some node = m.left parent then m.right parent else m.left parent

def deleteCase6 (node : NodeRef) (m : Memory α) : Option (Memory α) := do
  let sibling := m.sibling node
  let parent ← m.parent node
  let m ← m.setColorOf sibling (m.rbColor parent)
  let m := m.setColor parent .black
  if some node = m.left parent then
    let m ← m.setColorRight sibling .black
    m.rotateLeft parent
  else
    let m ← m.setColorLeft sibling .black
    m.rotateRight parent

def deleteCase5 (node : NodeRef) (m : Memory α) : Option (Memory α) := do
  let parent ← m.parent node
  let sibling := m.sibling node
  if some node = m.left parent ∧ m.getColor sibling = .black ∧ m.getColorLeft sibling = .red ∧
      m.getColorRight sibling = .black then
    let m ← m.setColorOf sibling .red
    let m ← m.setColorLeft sibling .black
    let m ← m.rotateRight (← sibling)
    m.deleteCase6 node
  else if some node = m.right parent ∧ m.getColor sibling = .black ∧
      m.getColorRight sibling = .red ∧ m.getColorLeft sibling = .black then
    let m ← m.setColorOf sibling .red
    let m ← m.setColorRight sibling .black
    let m ← m.rotateLeft (← sibling)
    m.deleteCase6 node
  else m.deleteCase6 node

/-- The sibling and its children are black. -/
def blackSibling (m : Memory α) (node : NodeRef) : Prop :=
  m.getColor (m.sibling node) = .black ∧ m.getColorLeft (m.sibling node) = .black ∧
    m.getColorRight (m.sibling node) = .black

instance (m : Memory α) (node : NodeRef) : Decidable (m.blackSibling node) := instDecidableAnd

def deleteCase4 (node : NodeRef) (m : Memory α) : Option (Memory α) :=
  if m.getColor (m.parent node) = .red ∧ m.blackSibling node then do
    let m' ← m.setColorOf (m.sibling node) .red
    m'.setColorOf (m.parent node) .black
  else m.deleteCase5 node

/-- The call of `trbt_delete_case1` is a parameter. -/
def deleteCase3 (deleteCase1 : NodeRef → Memory α → Option (Memory α)) (node : NodeRef)
    (m : Memory α) : Option (Memory α) :=
  if m.getColor (m.parent node) = .black ∧ m.blackSibling node then do
    let m ← m.setColorOf (m.sibling node) .red
    let parent ← m.parent node
    deleteCase1 parent m
  else m.deleteCase4 node

def deleteCase2 (deleteCase1 : NodeRef → Memory α → Option (Memory α)) (node : NodeRef)
    (m : Memory α) : Option (Memory α) :=
  if m.getColor (m.sibling node) = .red then do
    let parent ← m.parent node
    let m' ← (m.setColor parent .red).setColorOf (m.sibling node) .black
    let m' ← if some node = m.left parent then m'.rotateLeft parent else m'.rotateRight parent
    m'.deleteCase3 deleteCase1 node
  else m.deleteCase3 deleteCase1 node

def deleteCase1 : Nat → NodeRef → Memory α → Option (Memory α)
  | 0, _, _ => none
  | fuel + 1, node, m =>
    match m.parent node with
    | none => some m
    | some _ => m.deleteCase2 (deleteCase1 fuel) node

/-- The dummy `dc` for the child of a node that has none, with its own place in memory. -/
def dummyChild (m : Memory α) (tree : TreeRef) : NodeRef × Memory α :=
  (m.node.next, { m with node := m.node.alloc fun n =>
    { n with tree, left := none, right := none, rbColor := .black, data := none } })

/-- The child takes the place of the node, whose own pointers stay. -/
def linkChild (node child : NodeRef) (m : Memory α) : Memory α :=
  let m := m.replaceChild node (some child)
  m.setParent child (m.parent node)

def recolorChild (fuel : Nat) (node child : NodeRef) (m : Memory α) : Option (Memory α) :=
  if m.rbColor node = .black then
    if m.rbColor child = .red then some (m.setColor child .black) else deleteCase1 fuel child m
  else some m

/-- The dummy is unlinked from its parent, or is no longer the root. -/
def dropChild (tree : TreeRef) (child : NodeRef) (m : Memory α) : Memory α :=
  match m.parent child with
  | none => m.setRoot tree none
  | some parent =>
    if some child = m.left parent then m.setLeft parent none else m.setRight parent none

/-- `delete_node` for a node with at most one child, up to the label `finished`. -/
def removeNode (fuel : Nat) (node : NodeRef) (m : Memory α) : Option (Memory α) :=
  match if (m.right node).isSome then m.right node else m.left node with
  | some child => (m.linkChild node child).recolorChild fuel node child
  | none => do
    let (child, m) := m.dummyChild (m.treeOf node)
    let m ← (m.linkChild node child).recolorChild fuel node child
    some (m.dropChild (m.treeOf node) child)

/-- The loop for the predecessor. -/
def rightmost (m : Memory α) : Nat → NodeRef → Option NodeRef
  | 0, _ => none
  | fuel + 1, temp =>
    match m.right temp with
    | none => some temp
    | some right => m.rightmost fuel right

def copyContents (temp node : NodeRef) (m : Memory α) : Memory α :=
  let m := m.setKey temp (m.key32 node)
  let m := m.setColor temp (m.rbColor node)
  let m := m.setData temp (m.data node)
  m.steal (m.data temp) temp

def takeParent (temp node : NodeRef) (m : Memory α) : Memory α :=
  let m := m.setParent temp (m.parent node)
  match m.parent temp with
  | some parent =>
    if m.left parent = some node then m.setLeft parent (some temp)
    else m.setRight parent (some temp)
  | none => m

def takeChild (side : Side) (temp node : NodeRef) (m : Memory α) : Memory α :=
  let m := m.setChild side temp (m.child side node)
  m.adopt (m.child side temp) temp

def takeRoot (temp node : NodeRef) (m : Memory α) : Memory α :=
  if m.root (m.treeOf temp) = some node then m.setRoot (m.treeOf temp) (some temp) else m

/-- From the label `finished` on, with `temp` in place of `node`. -/
def takePlace (temp node : NodeRef) (m : Memory α) : Memory α :=
  let m := m.copyContents temp node
  let m := m.takeParent temp node
  let m := m.takeChild .left temp node
  let m := m.takeChild .right temp node
  m.takeRoot temp node

/-- The end of `delete_node`. -/
def autofree (tree : TreeRef) (m : Memory α) : Memory α :=
  if (m.tree.get tree).flags &&& trbtAutofree ≠ 0 ∧ m.root tree = none then m.freeTree tree else m

/-- A node with two children gets the contents of its predecessor. -/
def moveContents (node temp : NodeRef) (m : Memory α) : Memory α :=
  let m := m.setKey node (m.key32 temp)
  let m := m.setData node (m.data temp)
  let m := m.steal (m.data node) node
  let m := m.setData temp none
  m.setKey temp (-1)

def deleteNode : Nat → NodeRef → Memory α → Option (Memory α)
  | 0, _, _ => none
  | fuel + 1, node, m =>
    match m.left node, m.right node with
    | some left, some _ => do
      let temp ← m.rightmost fuel left
      let m ← deleteNode fuel temp (m.moveContents node temp)
      let m := m.takePlace temp node
      some (m.autofree (m.treeOf node))
    | _, _ => do
      let m ← m.removeNode fuel node
      some (m.autofree (m.treeOf node))

/-- `talloc_free(node)` with `node_destructor` -/
def freeNode (fuel : Nat) (node : NodeRef) (m : Memory α) : Option (Memory α) :=
  (m.deleteNode fuel node).map fun m => m.steal none node

/-- `trbt_create_node` -/
def createNode (m : Memory α) (tree : TreeRef) (parent : Option NodeRef) (key : Key)
    (data : Option α) : NodeRef × Memory α :=
  let node := m.node.next
  let m := { m with node := m.node.alloc fun _ => ⟨tree, parent, none, none, .black, key, data⟩ }
  (node, m.steal data node)

/-- The loops of `trbt_insert32` and `trbt_insert32_callback`: `value` makes the new data of the data
that are there. Returns these. -/
def insertLoop (tree : TreeRef) (key : Key) (value : Option α → Option α) :
    Nat → NodeRef → Memory α → Option (Option α × Memory α)
  | 0, _, _ => none
  | fuel + 1, node, m =>
    if key = m.key32 node then
      let old := m.data node
      let m := m.setData node (value old)
      some (old, m.steal (m.data node) node)
    else if key < m.key32 node then
      match m.left node with
      | none =>
        let (new, m) := m.createNode tree (some node) key (value none)
        let m := m.setLeft node (some new)
        let m := m.setColor new .red
        (insertCase1 fuel new m).map fun m => (none, m)
      | some left => insertLoop tree key value fuel left m
    else
      match m.right node with
      | none =>
        let (new, m) := m.createNode tree (some node) key (value none)
        let m := m.setRight node (some new)
        let m := m.setColor new .red
        (insertCase1 fuel new m).map fun m => (none, m)
      | some right => insertLoop tree key value fuel right m

def insertWith (fuel : Nat) (tree : TreeRef) (key : Key) (value : Option α → Option α)
    (m : Memory α) : Option (Option α × Memory α) :=
  match m.root tree with
  | none =>
    let (node, m) := m.createNode tree none key (value none)
    some (none, m.setRoot tree (some node))
  | some node => m.insertLoop tree key value fuel node

/-- `trbt_insert32` -/
def insert32 (fuel : Nat) (tree : TreeRef) (key : Key) (data : Option α) (m : Memory α) :
    Option (Option α × Memory α) :=
  m.insertWith fuel tree key fun _ => data

/-- `trbt_insert32_callback`, for a callback with its `param` that leaves the memory of the trees
alone -/
def insert32Callback (fuel : Nat) (tree : TreeRef) (key : Key) (callback : Option α → Option α)
    (m : Memory α) : Option (Memory α) :=
  (m.insertWith fuel tree key callback).map Prod.snd

/-- The node with a key, found by the loop of `trbt_lookup32` and `trbt_delete32`. -/
def findNode (m : Memory α) (key : Key) : Nat → Option NodeRef → Option (Option NodeRef)
  | 0, _ => none
  | _ + 1, none => some none
  | fuel + 1, some node =>
    if key = m.key32 node then some (some node)
    else if key < m.key32 node then m.findNode key fuel (m.left node)
    else m.findNode key fuel (m.right node)

/-- `trbt_lookup32` -/
def lookup32 (fuel : Nat) (tree : TreeRef) (key : Key) (m : Memory α) : Option (Option α) :=
  (m.findNode key fuel (m.root tree)).map fun node => node.bind m.data

/-- `trbt_delete32` -/
def delete32 (fuel : Nat) (tree : TreeRef) (key : Key) (m : Memory α) : Option (Memory α) := do
  match ← m.findNode key fuel (m.root tree) with
  | none => some m
  | some node => m.freeNode fuel node

/-- `talloc_free` of a datum, as far as the nodes go that hang off it: they are freed one by one. -/
def freeNodes (fuel : Nat) : List NodeRef → Memory α → Option (Memory α)
  | [], m => some m
  | node :: nodes, m => do
    let m ← m.freeNode fuel node
    freeNodes fuel nodes m

end Memory

end Phat.Trbt
