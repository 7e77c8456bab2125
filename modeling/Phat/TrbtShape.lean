import Phat.Trbt

/-! A tree in memory and what it holds. Its nodes are a shape, the pointers between them are those
of the shape, and the shape is read as the tree of `Phat.Rbtree` that has the nodes themselves for
data. A rotation in memory rotates the tree that is read. -/
namespace Phat.Trbt
open PointerTree
open Rbtree (Color Node)
variable {α : Type}

namespace Memory

/-- The pointers of one tree. -/
def links (m : Memory α) (tree : TreeRef) : Links NodeRef where
  root := m.root tree
  parent := m.parent
  child := m.child

def read (m : Memory α) : Shape NodeRef → Node NodeRef
  | .nil => .leaf
  | .node left self right => .node (m.rbColor self) (m.read left) (m.key32 self) self (m.read right)

def readFrame (m : Memory α) (f : Frame NodeRef) : Rbtree.Frame NodeRef :=
  ⟨f.side, m.rbColor f.self, m.key32 f.self, f.self, m.read f.other⟩

def readPath (m : Memory α) (path : List (Frame NodeRef)) : List (Rbtree.Frame NodeRef) :=
  path.map m.readFrame

@[simp] theorem readPath_cons (m : Memory α) (f : Frame NodeRef) (path : List (Frame NodeRef)) :
    m.readPath (f :: path) = m.readFrame f :: m.readPath path := rfl

theorem readPath_append (m : Memory α) (path above : List (Frame NodeRef)) :
    m.readPath (path ++ above) = m.readPath path ++ m.readPath above :=
  List.map_append

theorem read_fill (m : Memory α) (f : Frame NodeRef) (t : Shape NodeRef) :
    m.read (f.fill t) = (m.readFrame f).fill (m.read t) := by
  obtain ⟨side, self, other⟩ := f
  cases side <;> rfl

theorem read_plug (m : Memory α) (t : Shape NodeRef) (path : List (Frame NodeRef)) :
    m.read (plug t path) = Rbtree.plug (m.read t) (m.readPath path) := by
  induction path generalizing t with
  | nil => rfl
  | cons f path ih =>
    rw [plug, ih, read_fill]
    rfl

/-- Reading a node alike is reading its parts alike. -/
theorem readFrame_of_fill {m m' : Memory α} {f : Frame NodeRef} {t : Shape NodeRef}
    (same : m'.read (f.fill t) = m.read (f.fill t)) :
    m'.readFrame f = m.readFrame f ∧ m'.read t = m.read t := by
  obtain ⟨side, self, other⟩ := f
  cases side with
  | left =>
    obtain ⟨color, below, key, _, beside⟩ := Node.node.inj same
    rw [readFrame, readFrame, color, key, beside]
    exact ⟨rfl, below⟩
  | right =>
    obtain ⟨color, beside, key, _, below⟩ := Node.node.inj same
    rw [readFrame, readFrame, color, key, beside]
    exact ⟨rfl, below⟩

theorem read_congr {m m' : Memory α} {t : Shape NodeRef}
    (same : ∀ a ∈ t.members, m'.rbColor a = m.rbColor a ∧ m'.key32 a = m.key32 a) :
    m'.read t = m.read t := by
  induction t with
  | nil => rfl
  | node left self right leftIh rightIh =>
    obtain ⟨color, key⟩ := same self (Shape.root_mem rfl)
    rw [read, read, color, key,
      leftIh fun a member => same a (Shape.mem_members_node.mpr (.inr (.inl member))),
      rightIh fun a member => same a (Shape.mem_members_node.mpr (.inr (.inr member)))]

theorem readPath_congr {m m' : Memory α} {path : List (Frame NodeRef)}
    (same : ∀ a ∈ pathMembers path, m'.rbColor a = m.rbColor a ∧ m'.key32 a = m.key32 a) :
    m'.readPath path = m.readPath path := by
  induction path with
  | nil => rfl
  | cons f path ih =>
    obtain ⟨color, key⟩ := same f.self List.mem_cons_self
    have other : m'.read f.other = m.read f.other := read_congr fun a member =>
      same a (List.mem_cons_of_mem _ (List.mem_append_left _ member))
    have rest := ih fun a member => same a (List.mem_cons_of_mem _ (List.mem_append_right _ member))
    simp only [readPath, List.map_cons] at rest ⊢
    rw [rest, readFrame, readFrame, color, key, other]

/-- The nodes from left to right are the data of the tree that is read. -/
theorem members_read (m : Memory α) (t : Shape NodeRef) :
    (m.read t).toList = t.members.map fun a => (m.key32 a, a) := by
  induction t with
  | nil => rfl
  | node left self right leftIh rightIh =>
    rw [read, Node.toList, leftIh, rightIh, Shape.members, List.map_append, List.map_cons]

section Links
variable (m : Memory α) (tree : TreeRef) (node : NodeRef)

theorem modify_get {β γ : Type} (s : Store β) (address : Nat) (f : β → β) (member : β → γ) :
    (fun a => member ((s.modify address f).get a)) =
      Function.update (fun a => member (s.get a)) address (member (f (s.get address))) := by
  funext a
  by_cases same : a = address
  · rw [same, Store.get_modify_self, Function.update_self]
  · rw [Store.get_modify_of_ne s f same, Function.update_of_ne same]

theorem modify_keep {β γ : Type} (s : Store β) (address : Nat) (f : β → β) (member : β → γ)
    (kept : ∀ b, member (f b) = member b) :
    (fun a => member ((s.modify address f).get a)) = fun a => member (s.get a) := by
  funext a
  exact Store.get_modify_keep s address f member kept a

/-- Two collections of pointers are the same if each kind is. -/
theorem links_ext {l l' : Links NodeRef} (root : l.root = l'.root) (parent : l.parent = l'.parent)
    (left : l.child .left = l'.child .left) (right : l.child .right = l'.child .right) : l = l' := by
  obtain ⟨root', parent', child'⟩ := l
  cases root
  cases parent
  congr
  funext side
  cases side
  · exact left
  · exact right

/-- An assignment to a member that is no pointer to a node. -/
theorem links_modify (f : TrbtNode α → TrbtNode α) (parent : ∀ n, (f n).parent = n.parent)
    (left : ∀ n, (f n).left = n.left) (right : ∀ n, (f n).right = n.right) :
    ({ m with node := m.node.modify node f } : Memory α).links tree = m.links tree :=
  links_ext rfl (modify_keep m.node node f TrbtNode.parent parent)
    (modify_keep m.node node f TrbtNode.left left) (modify_keep m.node node f TrbtNode.right right)

@[simp] theorem links_setColor (color : Color) : (m.setColor node color).links tree = m.links tree :=
  m.links_modify tree node _ (fun _ => rfl) (fun _ => rfl) fun _ => rfl

@[simp] theorem links_setKey (key : Key) : (m.setKey node key).links tree = m.links tree :=
  m.links_modify tree node _ (fun _ => rfl) (fun _ => rfl) fun _ => rfl

@[simp] theorem links_setData (data : Option α) : (m.setData node data).links tree = m.links tree :=
  m.links_modify tree node _ (fun _ => rfl) (fun _ => rfl) fun _ => rfl

@[simp] theorem links_setParent (parent : Option NodeRef) :
    (m.setParent node parent).links tree = (m.links tree).setParent node parent :=
  let f : TrbtNode α → TrbtNode α := fun n => { n with parent }
  links_ext rfl (modify_get m.node node f TrbtNode.parent)
    (modify_keep m.node node f TrbtNode.left fun _ => rfl)
    (modify_keep m.node node f TrbtNode.right fun _ => rfl)

/-- An assignment to one pointer to a child, member by member. -/
theorem setChild_eq (l : Links NodeRef) (side side' : Side) (child : Option NodeRef) :
    (l.setChild side node child).child side' =
      if side' = side then Function.update (l.child side') node child else l.child side' := by
  funext a
  by_cases same : side' = side
  · by_cases here : a = node <;> simp [Links.setChild, same, here]
  · simp [Links.setChild, same]

@[simp] theorem links_setLeft (left : Option NodeRef) :
    (m.setLeft node left).links tree = (m.links tree).setChild .left node left := by
  let f : TrbtNode α → TrbtNode α := fun n => { n with left }
  refine links_ext rfl (modify_keep m.node node f TrbtNode.parent fun _ => rfl) ?_ ?_
  · rw [setChild_eq, if_pos rfl]
    exact modify_get m.node node f TrbtNode.left
  · rw [setChild_eq, if_neg Side.noConfusion]
    exact modify_keep m.node node f TrbtNode.right fun _ => rfl

@[simp] theorem links_setRight (right : Option NodeRef) :
    (m.setRight node right).links tree = (m.links tree).setChild .right node right := by
  let f : TrbtNode α → TrbtNode α := fun n => { n with right }
  refine links_ext rfl (modify_keep m.node node f TrbtNode.parent fun _ => rfl) ?_ ?_
  · rw [setChild_eq, if_neg Side.noConfusion]
    exact modify_keep m.node node f TrbtNode.left fun _ => rfl
  · rw [setChild_eq, if_pos rfl]
    exact modify_get m.node node f TrbtNode.right

@[simp] theorem links_setRoot (root : Option NodeRef) :
    (m.setRoot tree root).links tree = { m.links tree with root } :=
  links_ext (by simp [links, Memory.root, setRoot]) rfl rfl rfl

@[simp] theorem links_steal (data : Option α) : (m.steal data node).links tree = m.links tree := rfl

@[simp] theorem links_adopt (t : Shape NodeRef) :
    (m.adopt t.root node).links tree = (m.links tree).adopt t (some node) := by
  cases t with
  | nil => rfl
  | node left self right => exact links_setParent ..

@[simp] theorem links_setChild (side : Side) (child : Option NodeRef) :
    (m.setChild side node child).links tree = (m.links tree).setChild side node child := by
  cases side
  · exact links_setLeft ..
  · exact links_setRight ..

end Links

end Memory

/-- What rebalancing a tree does at most: it assigns pointers and colours of the nodes that may be
its own, and the pointer to its root. -/
structure Rearranged (own : NodeRef → Prop) (tree : TreeRef) (m m' : Memory α) : Prop where
  key32 : m'.key32 = m.key32
  data : m'.data = m.data
  treeOf : m'.treeOf = m.treeOf
  owner : m'.owner = m.owner
  next : m'.node.next = m.node.next
  outside : ∀ a, ¬ own a → m'.node.get a = m.node.get a
  trees : ∀ other, other ≠ tree → m'.tree.get other = m.tree.get other
  flags : ∀ other, (m'.tree.get other).flags = (m.tree.get other).flags
  live : ∀ other, (m'.tree.get other).live = (m.tree.get other).live
  nextTree : m'.tree.next = m.tree.next

namespace Rearranged
variable {own : NodeRef → Prop} {tree : TreeRef} {m m' m'' : Memory α}

theorem rfl' : Rearranged own tree m m :=
  ⟨rfl, rfl, rfl, rfl, rfl, fun _ _ => rfl, fun _ _ => rfl, fun _ => rfl, fun _ => rfl, rfl⟩

theorem trans (first : Rearranged own tree m m') (second : Rearranged own tree m' m'') :
    Rearranged own tree m m'' where
  key32 := second.key32.trans first.key32
  data := second.data.trans first.data
  treeOf := second.treeOf.trans first.treeOf
  owner := second.owner.trans first.owner
  next := second.next.trans first.next
  outside := fun a out => (second.outside a out).trans (first.outside a out)
  trees := fun other apart => (second.trees other apart).trans (first.trees other apart)
  flags := fun other => (second.flags other).trans (first.flags other)
  live := fun other => (second.live other).trans (first.live other)
  nextTree := second.nextTree.trans first.nextTree

theorem modify (f : TrbtNode α → TrbtNode α) {a : NodeRef} (mine : own a)
    (key32 : ∀ n, (f n).key32 = n.key32) (data : ∀ n, (f n).data = n.data)
    (treeOf : ∀ n, (f n).tree = n.tree) :
    Rearranged own tree m { m with node := m.node.modify a f } where
  key32 := Memory.modify_keep m.node a f TrbtNode.key32 key32
  data := Memory.modify_keep m.node a f TrbtNode.data data
  treeOf := Memory.modify_keep m.node a f TrbtNode.tree treeOf
  owner := rfl
  next := rfl
  outside := fun _ out => Store.get_modify_of_ne _ _ fun same => out (same ▸ mine)
  trees := fun _ _ => rfl
  flags := fun _ => rfl
  live := fun _ => rfl
  nextTree := rfl

theorem setParent {a : NodeRef} (mine : own a) (parent : Option NodeRef) :
    Rearranged own tree m (m.setParent a parent) :=
  modify _ mine (fun _ => rfl) (fun _ => rfl) fun _ => rfl

theorem setLeft {a : NodeRef} (mine : own a) (left : Option NodeRef) :
    Rearranged own tree m (m.setLeft a left) :=
  modify _ mine (fun _ => rfl) (fun _ => rfl) fun _ => rfl

theorem setRight {a : NodeRef} (mine : own a) (right : Option NodeRef) :
    Rearranged own tree m (m.setRight a right) :=
  modify _ mine (fun _ => rfl) (fun _ => rfl) fun _ => rfl

theorem setColor {a : NodeRef} (mine : own a) (color : Color) :
    Rearranged own tree m (m.setColor a color) :=
  modify _ mine (fun _ => rfl) (fun _ => rfl) fun _ => rfl

theorem setChild {a : NodeRef} (mine : own a) (side : Side) (child : Option NodeRef) :
    Rearranged own tree m (m.setChild side a child) := by
  cases side
  · exact setLeft mine child
  · exact setRight mine child

theorem adopt {a : NodeRef} {child : Option NodeRef} (mine : ∀ b, child = some b → own b) :
    Rearranged own tree m (m.adopt child a) := by
  cases child with
  | none => exact rfl'
  | some b => exact setParent (mine b rfl) _

theorem setRoot (root : Option NodeRef) : Rearranged own tree m (m.setRoot tree root) :=
  let f : TrbtTree → TrbtTree := fun t => { t with root }
  { key32 := rfl
    data := rfl
    treeOf := rfl
    owner := rfl
    next := rfl
    outside := fun _ _ => rfl
    trees := fun _ apart => Store.get_modify_of_ne m.tree f apart
    flags := Store.get_modify_keep m.tree tree f TrbtTree.flags fun _ => rfl
    live := Store.get_modify_keep m.tree tree f TrbtTree.live fun _ => rfl
    nextTree := rfl }

end Rearranged

namespace Memory
variable (m : Memory α) (a : NodeRef)

@[simp] theorem rbColor_setParent (parent : Option NodeRef) :
    (m.setParent a parent).rbColor = m.rbColor :=
  modify_keep m.node a (fun n => { n with parent }) TrbtNode.rbColor fun _ => rfl

@[simp] theorem rbColor_setChild (side : Side) (child : Option NodeRef) :
    (m.setChild side a child).rbColor = m.rbColor := by
  cases side
  · exact modify_keep m.node a (fun n => { n with left := child }) TrbtNode.rbColor fun _ => rfl
  · exact modify_keep m.node a (fun n => { n with right := child }) TrbtNode.rbColor fun _ => rfl

@[simp] theorem rbColor_setRoot (tree : TreeRef) (root : Option NodeRef) :
    (m.setRoot tree root).rbColor = m.rbColor := rfl

@[simp] theorem rbColor_adopt (child : Option NodeRef) : (m.adopt child a).rbColor = m.rbColor := by
  cases child
  · rfl
  · exact rbColor_setParent ..

theorem rbColor_setColor (color : Color) :
    (m.setColor a color).rbColor = Function.update m.rbColor a color :=
  modify_get m.node a (fun n => { n with rbColor := color }) TrbtNode.rbColor

section Contents
variable (color : Color) (key : Key) (data : Option α)

@[simp] theorem rbColor_setKey : (m.setKey a key).rbColor = m.rbColor :=
  modify_keep m.node a (fun n => { n with key32 := key }) TrbtNode.rbColor fun _ => rfl

@[simp] theorem data_setKey : (m.setKey a key).data = m.data :=
  modify_keep m.node a (fun n => { n with key32 := key }) TrbtNode.data fun _ => rfl

@[simp] theorem treeOf_setKey : (m.setKey a key).treeOf = m.treeOf :=
  modify_keep m.node a (fun n => { n with key32 := key }) TrbtNode.tree fun _ => rfl

@[simp] theorem key32_setKey : (m.setKey a key).key32 = Function.update m.key32 a key :=
  modify_get m.node a (fun n => { n with key32 := key }) TrbtNode.key32

@[simp] theorem rbColor_setData : (m.setData a data).rbColor = m.rbColor :=
  modify_keep m.node a (fun n => { n with data }) TrbtNode.rbColor fun _ => rfl

@[simp] theorem key32_setData : (m.setData a data).key32 = m.key32 :=
  modify_keep m.node a (fun n => { n with data }) TrbtNode.key32 fun _ => rfl

@[simp] theorem treeOf_setData : (m.setData a data).treeOf = m.treeOf :=
  modify_keep m.node a (fun n => { n with data }) TrbtNode.tree fun _ => rfl

@[simp] theorem data_setData : (m.setData a data).data = Function.update m.data a data :=
  modify_get m.node a (fun n => { n with data }) TrbtNode.data

@[simp] theorem key32_setColor : (m.setColor a color).key32 = m.key32 :=
  modify_keep m.node a (fun n => { n with rbColor := color }) TrbtNode.key32 fun _ => rfl

@[simp] theorem data_setColor : (m.setColor a color).data = m.data :=
  modify_keep m.node a (fun n => { n with rbColor := color }) TrbtNode.data fun _ => rfl

@[simp] theorem treeOf_setColor : (m.setColor a color).treeOf = m.treeOf :=
  modify_keep m.node a (fun n => { n with rbColor := color }) TrbtNode.tree fun _ => rfl

@[simp] theorem rbColor_steal : (m.steal data a).rbColor = m.rbColor := rfl

@[simp] theorem key32_steal : (m.steal data a).key32 = m.key32 := rfl

@[simp] theorem data_steal : (m.steal data a).data = m.data := rfl

@[simp] theorem treeOf_steal : (m.steal data a).treeOf = m.treeOf := rfl

theorem get_setKey_of_ne {b : NodeRef} (away : b ≠ a) :
    (m.setKey a key).node.get b = m.node.get b :=
  Store.get_modify_of_ne m.node (fun n => { n with key32 := key }) away

theorem get_setColor_of_ne {b : NodeRef} (away : b ≠ a) :
    (m.setColor a color).node.get b = m.node.get b :=
  Store.get_modify_of_ne m.node (fun n => { n with rbColor := color }) away

theorem get_setData_of_ne {b : NodeRef} (away : b ≠ a) :
    (m.setData a data).node.get b = m.node.get b :=
  Store.get_modify_of_ne m.node (fun n => { n with data }) away

end Contents

end Memory

/-- A tree in memory looked at from one place, when these nodes may be its own. -/
structure Located (own : NodeRef → Prop) (m : Memory α) (tree : TreeRef) (t : Shape NodeRef)
    (path : List (Frame NodeRef)) : Prop where
  focus : Focus (m.links tree) t path
  mine : ∀ a ∈ t.members ++ pathMembers path, own a
  treeOf : ∀ a, own a → m.treeOf a = tree

section Located
variable {own : NodeRef → Prop} {m m' : Memory α} {tree : TreeRef} {t t' : Shape NodeRef}
  {path : List (Frame NodeRef)} {a : NodeRef}

theorem located_child {side : Side} {near far : Shape NodeRef} :
    Located own m tree (Shape.mk side near a far) path ↔
      Located own m tree near (⟨side, a, far⟩ :: path) := by
  have members : ∀ b, b ∈ (Shape.mk side near a far).members ++ pathMembers path ↔
      b ∈ near.members ++ pathMembers (⟨side, a, far⟩ :: path) := by
    intro b
    simp only [pathMembers, List.mem_append, List.mem_cons, Shape.mem_members_mk]
    tauto
  constructor
  · rintro ⟨focus, mine, treeOf⟩
    exact ⟨focus_child.mp focus, fun b member => mine b ((members b).mpr member), treeOf⟩
  · rintro ⟨focus, mine, treeOf⟩
    exact ⟨focus_child.mpr focus, fun b member => mine b ((members b).mp member), treeOf⟩

theorem located_left {left right : Shape NodeRef} :
    Located own m tree (.node left a right) path ↔
      Located own m tree left (⟨.left, a, right⟩ :: path) :=
  show Located own m tree (.mk .left left a right) path ↔ _ from located_child

theorem located_right {left right : Shape NodeRef} :
    Located own m tree (.node left a right) path ↔
      Located own m tree right (⟨.right, a, left⟩ :: path) :=
  show Located own m tree (.mk .right right a left) path ↔ _ from located_child

theorem located_plug : Located own m tree (plug t path) [] ↔ Located own m tree t path := by
  induction path generalizing t with
  | nil => exact Iff.rfl
  | cons f path ih => exact ih.trans located_child

namespace Located

theorem mem_root (here : t.root = some a) (at' : Located own m tree t path) : own a :=
  at'.mine a (List.mem_append_left _ (Shape.root_mem here))

theorem mem_self {f : Frame NodeRef} (at' : Located own m tree t (f :: path)) : own f.self :=
  at'.mine f.self (List.mem_append_right _ List.mem_cons_self)

/-- The parent of the node looked at. -/
theorem parent_eq (here : t.root = some a) (at' : Located own m tree t path) :
    m.parent a = above path := at'.focus.under a here

/-- The pointer to the node looked at is the one that `replaceChild` assigns. -/
theorem replaceChild (here : t.root = some a) (at' : Located own m tree t path)
    (child : Option NodeRef) :
    (m.replaceChild a child).links tree = (m.links tree).setDown path child ∧
      (m.replaceChild a child).rbColor = m.rbColor ∧
      Rearranged own tree m (m.replaceChild a child) := by
  have parent := at'.parent_eq here
  cases path with
  | nil =>
    have same : m.replaceChild a child = m.setRoot tree child := by
      rw [Memory.replaceChild, parent, above_nil, at'.treeOf a (at'.mem_root here)]
    rw [same]
    exact ⟨Memory.links_setRoot .., rfl, .setRoot child⟩
  | cons f path =>
    have same : m.replaceChild a child = m.setChild f.side f.self child := by
      rw [Memory.replaceChild, parent, above_cons]
      have left : m.left f.self = some a ↔ f.side = .left := at'.focus.child_iff here .left
      cases side : f.side with
      | left => exact if_pos (left.mpr side)
      | right => exact if_neg fun child => Side.noConfusion (side.symm.trans (left.mp child))
    rw [same]
    exact ⟨Memory.links_setChild .., Memory.rbColor_setChild .., .setChild at'.mem_self _ _⟩

/-- A rotation in memory. -/
theorem rotate {side : Side} {near inner far : Shape NodeRef} {x y : NodeRef}
    (at' : Located own m tree (Shape.mk side near x (Shape.mk side inner y far)) path) :
    ∃ m', m.rotate side x = some m' ∧
      Located own m' tree (Shape.mk side (Shape.mk side near x inner) y far) path ∧
      m'.rbColor = m.rbColor ∧ Rearranged own tree m m' := by
  have focus := at'.focus
  have members := focus.distinct
  rw [((Shape.members_mk side near _ x).append_right _).nodup_iff, List.cons_append,
    List.nodup_cons] at members
  have xApart : ∀ b, b ∈ (Shape.mk side inner y far).members → b ≠ x := by
    rintro b member rfl
    exact members.1 (List.mem_append_left _ (List.mem_append_right _ member))
  have yOutside : y ∉ pathMembers path := fun member =>
    (List.nodup_append.mp members.2).2.2 y
      (List.mem_append_right _ (Shape.mem_members_mk.mpr (.inl rfl))) y member rfl
  obtain ⟨⟨_, _, _⟩, ⟨up, _, topHolds⟩⟩ := Links.holds_mk.mp focus.holds
  obtain ⟨⟨innerRoot, _, _⟩, _⟩ := Links.holds_mk.mp topHolds
  rw [Shape.root_mk] at up
  have ownX : own x := at'.mem_root (Shape.root_mk ..)
  have owned : ∀ b ∈ (Shape.mk side inner y far).members, own b := fun b member =>
    at'.mine b (List.mem_append_left _ (Shape.mem_members_mk.mpr (.inr (.inr member))))
  have ownY : own y := owned y (Shape.root_mem (Shape.root_mk ..))
  obtain ⟨links, color, moved⟩ := at'.replaceChild (Shape.root_mk side near _ x) (some y)
  generalize replaced : m.replaceChild x (some y) = m₁ at links color moved
  have parent : m₁.parent x = above path := by
    change (m₁.links tree).parent x = above path
    rw [links, Links.parent_setDown]
    exact at'.parent_eq (Shape.root_mk ..)
  have child : ((m₁.setParent y (above path)).setParent x (some y)).child side y = inner.root := by
    change (Memory.links _ tree).child side y = inner.root
    rw [Memory.links_setParent, Memory.links_setParent, links, Links.child_setParent,
      Links.child_setParent, Links.child_setDown_of_notMem _ _ _ yOutside]
    exact innerRoot
  generalize relinked : (m₁.setParent y (above path)).setParent x (some y) = m₂ at child
  have child' : (m₂.setChild side.opposite x inner.root).child side.opposite x = inner.root := by
    change (Memory.links _ tree).child side.opposite x = inner.root
    rw [Memory.links_setChild, Links.child_setChild_self]
  have parent' : ((m₂.setChild side.opposite x inner.root).adopt inner.root x).parent x = some y := by
    change (Memory.links _ tree).parent x = some y
    rw [Memory.links_adopt, Links.parent_adopt_of_ne, Memory.links_setChild, Links.parent_setChild,
      ← relinked, Memory.links_setParent, Links.parent_setParent_self]
    exact fun here => xApart x (Shape.mem_members_mk.mpr (.inr (.inl (Shape.root_mem here)))) rfl
  have rearranged : Rearranged own tree m
      (((m₂.setChild side.opposite x inner.root).adopt inner.root x).setChild side y (some x)) := by
    have moved : Rearranged own tree m m₂ :=
      relinked ▸ (moved.trans (.setParent ownY (above path))).trans (.setParent ownX (some y))
    refine ((moved.trans (.setChild ownX _ _)).trans (.adopt fun b here => ?_)).trans
      (.setChild ownY _ _)
    exact owned b (Shape.mem_members_mk.mpr (.inr (.inl (Shape.root_mem here))))
  refine ⟨((m₂.setChild side.opposite x inner.root).adopt inner.root x).setChild side y (some x),
    ?_, ⟨?_, ?_, ?_⟩, ?_, rearranged⟩
  · have up : m.child side.opposite x = some y := up
    simp only [Memory.rotate, up, Option.bind_eq_bind, Option.bind_some, replaced, parent, relinked,
      child, child', parent']
  · rw [Memory.links_setChild, Memory.links_adopt, Memory.links_setChild, ← relinked,
      Memory.links_setParent, Memory.links_setParent, links]
    exact focus.rotate
  · intro b member
    refine at'.mine b ?_
    simp only [List.mem_append, Shape.mem_members_mk] at member ⊢
    tauto
  · intro b mine
    rw [rearranged.treeOf]
    exact at'.treeOf b mine
  · rw [Memory.rbColor_setChild, Memory.rbColor_adopt, Memory.rbColor_setChild, ← relinked,
      Memory.rbColor_setParent, Memory.rbColor_setParent, color]

theorem up {f : Frame NodeRef} (at' : Located own m tree t (f :: path)) :
    Located own m tree (f.fill t) path :=
  located_child.mpr at'

/-- The test for the side a node is on. -/
theorem child_iff {f : Frame NodeRef} (here : t.root = some a)
    (at' : Located own m tree t (f :: path)) (side : Side) :
    some a = m.child side f.self ↔ f.side = side :=
  eq_comm.trans (at'.focus.child_iff here side)

theorem nodup (at' : Located own m tree t path) : t.members.Nodup :=
  (List.nodup_append.mp at'.focus.distinct).1

theorem outside {b : NodeRef} (at' : Located own m tree t path) (member : b ∈ t.members) :
    b ∉ pathMembers path := fun above =>
  (List.nodup_append.mp at'.focus.distinct).2.2 b member b above rfl

/-- A node above is none of the others. -/
theorem apart {f : Frame NodeRef} (at' : Located own m tree t (f :: path)) :
    f.self ∉ t.members ∧ f.self ∉ f.other.members ∧ f.self ∉ pathMembers path := by
  have distinct : (f.self :: (t.members ++ (f.other.members ++ pathMembers path))).Nodup :=
    List.perm_middle.nodup_iff.mp at'.focus.distinct
  have outside := (List.nodup_cons.mp distinct).1
  rw [List.mem_append, List.mem_append, not_or, not_or] at outside
  exact outside

/-- What is on the other side of a node above is neither below nor farther above. -/
theorem disjoint {f : Frame NodeRef} (at' : Located own m tree t (f :: path)) :
    ∀ b ∈ f.other.members, b ∉ t.members ∧ b ∉ pathMembers path := by
  intro b member
  obtain ⟨_, above, apart⟩ := List.nodup_append.mp at'.focus.distinct
  have inPath : b ∈ pathMembers (f :: path) := List.mem_cons_of_mem _ (List.mem_append_left _ member)
  refine ⟨fun below => apart b below b inPath rfl, fun farther => ?_⟩
  rw [pathMembers, List.cons_append, List.nodup_cons, List.nodup_append] at above
  exact above.2.2.2 b member b farther rfl

/-- Where the pointers stay as they are, so does the tree. -/
theorem of_links (at' : Located own m tree t path) (links : m'.links tree = m.links tree)
    (treeOf : m'.treeOf = m.treeOf) : Located own m' tree t path where
  focus := links ▸ at'.focus
  mine := at'.mine
  treeOf := fun b mine => by rw [treeOf, at'.treeOf b mine]

theorem setColor (at' : Located own m tree t path) (a : NodeRef) (color : Color) :
    Located own (m.setColor a color) tree t path :=
  at'.of_links (Memory.links_setColor ..) (Memory.treeOf_setColor ..)

/-- Looking across to what is on the other side of the node above. -/
theorem turn {side : Side} {b : NodeRef} {other : Shape NodeRef} :
    Located own m tree t (⟨side, b, other⟩ :: path) ↔
      Located own m tree other (⟨side.opposite, b, t⟩ :: path) := by
  rw [← located_child, ← located_child, Shape.mk_opposite]

/-- What `trbt_sibling` and `trbt_uncle` look up: the other child of the parent. -/
theorem other_eq {f : Frame NodeRef} (here : t.root = some a)
    (at' : Located own m tree t (f :: path)) :
    (if some a = m.left f.self then m.right f.self else m.left f.self) = f.other.root := by
  have left : some a = m.left f.self ↔ f.side = .left := at'.child_iff here .left
  have other : m.child f.side.opposite f.self = f.other.root := at'.focus.around.1.1
  cases side : f.side with
  | left =>
    rw [if_pos (left.mpr side)]
    rw [side] at other
    exact other
  | right =>
    rw [if_neg fun child => Side.noConfusion (side.symm.trans (left.mp child))]
    rw [side] at other
    exact other

theorem sibling_eq {f : Frame NodeRef} (here : t.root = some a)
    (at' : Located own m tree t (f :: path)) : m.sibling a = f.other.root := by
  simp only [Memory.sibling, at'.parent_eq here, above_cons]
  exact at'.other_eq here

end Located
end Located

namespace Memory

/-- The root of a shape, if it has one, gets a colour. -/
def paint (m : Memory α) (t : Shape NodeRef) (color : Color) : Memory α :=
  match t.root with
  | none => m
  | some a => m.setColor a color

variable {m m' : Memory α} {t left right : Shape NodeRef} {path : List (Frame NodeRef)}
  {a : NodeRef} {color : Color}

@[simp] theorem parent_setColor : (m.setColor a color).parent = m.parent :=
  modify_keep m.node a (fun n => { n with rbColor := color }) TrbtNode.parent fun _ => rfl

@[simp] theorem left_setColor : (m.setColor a color).left = m.left :=
  modify_keep m.node a (fun n => { n with rbColor := color }) TrbtNode.left fun _ => rfl

@[simp] theorem right_setColor : (m.setColor a color).right = m.right :=
  modify_keep m.node a (fun n => { n with rbColor := color }) TrbtNode.right fun _ => rfl

theorem read_setColor_of_notMem (outside : a ∉ t.members) :
    (m.setColor a color).read t = m.read t := by
  refine read_congr fun b member => ⟨?_, by rw [key32_setColor]⟩
  rw [rbColor_setColor, Function.update_of_ne]
  rintro rfl
  exact outside member

theorem readPath_setColor_of_notMem (outside : a ∉ pathMembers path) :
    (m.setColor a color).readPath path = m.readPath path := by
  refine readPath_congr fun b member => ⟨?_, by rw [key32_setColor]⟩
  rw [rbColor_setColor, Function.update_of_ne]
  rintro rfl
  exact outside member

theorem read_setColor (distinct : (Shape.node left a right).members.Nodup) :
    (m.setColor a color).read (.node left a right) = (m.read (.node left a right)).setColor color := by
  have apart := (List.nodup_cons.mp (List.perm_middle.nodup_iff.mp distinct)).1
  rw [List.mem_append, not_or] at apart
  rw [read, read, read_setColor_of_notMem apart.1, read_setColor_of_notMem apart.2,
    rbColor_setColor, Function.update_self, key32_setColor]
  rfl

theorem readFrame_setColor {f : Frame NodeRef} (apart : f.self ∉ f.other.members) :
    (m.setColor f.self color).readFrame f = { m.readFrame f with color } := by
  rw [readFrame, readFrame, read_setColor_of_notMem apart, rbColor_setColor, Function.update_self,
    key32_setColor]

theorem readFrame_setColor_of_notMem {f : Frame NodeRef} (apart : a ≠ f.self)
    (outside : a ∉ f.other.members) : (m.setColor a color).readFrame f = m.readFrame f := by
  rw [readFrame, readFrame, read_setColor_of_notMem outside, rbColor_setColor,
    Function.update_of_ne (Ne.symm apart), key32_setColor]

theorem setColorOf_black : m.setColorOf t.root .black = some (m.paint t .black) := by
  cases t <;> rfl

theorem links_paint (tree : TreeRef) : (m.paint t color).links tree = m.links tree := by
  cases t with
  | nil => rfl
  | node left self right => exact links_setColor ..

theorem key32_paint : (m.paint t color).key32 = m.key32 := by
  cases t with
  | nil => rfl
  | node left self right => exact key32_setColor ..

theorem rbColor_paint_of_notMem (outside : a ∉ t.members) :
    (m.paint t color).rbColor a = m.rbColor a := by
  cases t with
  | nil => rfl
  | node left self right =>
    refine (congrFun (rbColor_setColor ..) a).trans (Function.update_of_ne ?_ ..)
    rintro rfl
    exact outside (Shape.root_mem rfl)

theorem read_paint (distinct : t.members.Nodup) :
    (m.paint t color).read t = (m.read t).setColor color := by
  cases t with
  | nil => rfl
  | node left self right => exact read_setColor distinct

theorem read_paint_of_disjoint {s : Shape NodeRef} (disjoint : ∀ b ∈ s.members, b ∉ t.members) :
    (m.paint t color).read s = m.read s :=
  read_congr fun b member => ⟨rbColor_paint_of_notMem (disjoint b member), by rw [key32_paint]⟩

theorem readPath_paint_of_disjoint (disjoint : ∀ b ∈ pathMembers path, b ∉ t.members) :
    (m.paint t color).readPath path = m.readPath path :=
  readPath_congr fun b member => ⟨rbColor_paint_of_notMem (disjoint b member), by rw [key32_paint]⟩

theorem paint_rearranged {own : NodeRef → Prop} {tree : TreeRef} (mine : ∀ b ∈ t.members, own b) :
    Rearranged own tree m (m.paint t color) := by
  cases t with
  | nil => exact .rfl'
  | node left self right => exact .setColor (mine self (Shape.root_mem rfl)) _

theorem getColor_read : m.getColor t.root = (m.read t).getColor := by
  cases t <;> rfl

theorem getColorLeft_read {tree : TreeRef} (holds : (m.links tree).Holds t) :
    m.getColorLeft t.root = (m.read t).getColorLeft := by
  cases t with
  | nil => rfl
  | node left self right =>
    have child : m.left self = left.root := holds.1.1
    rw [Shape.root_node, getColorLeft, child, getColor_read]
    rfl

theorem getColorRight_read {tree : TreeRef} (holds : (m.links tree).Holds t) :
    m.getColorRight t.root = (m.read t).getColorRight := by
  cases t with
  | nil => rfl
  | node left self right =>
    have child : m.right self = right.root := holds.2.1
    rw [Shape.root_node, getColorRight, child, getColor_read]
    rfl

/-- Equal colours and keys read alike. -/
theorem read_eq (color : m'.rbColor = m.rbColor) (key : m'.key32 = m.key32) : m'.read = m.read := by
  funext t
  exact read_congr fun a _ => ⟨congrFun color a, congrFun key a⟩

theorem readPath_eq (color : m'.rbColor = m.rbColor) (key : m'.key32 = m.key32) :
    m'.readPath = m.readPath := by
  funext path
  exact readPath_congr fun a _ => ⟨congrFun color a, congrFun key a⟩

end Memory

end Phat.Trbt
