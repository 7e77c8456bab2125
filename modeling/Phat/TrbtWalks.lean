import Phat.TrbtInsertion
import Phat.TrbtRemoval

/-! The loops that look for a key. They end at the node that has the key or at the place where a node
with the key belongs, and insertion puts a new node there. -/
namespace Phat.Trbt
open PointerTree
open Rbtree (Color Node)
variable {α : Type} {own : NodeRef → Prop} {m m' : Memory α} {tree : TreeRef}
  {t left right : Shape NodeRef} {path : List (Frame NodeRef)} {a : NodeRef} {key : Key}
  {data : Option α}

/-- The nodes of a tree and a new one. -/
def orNew (own : NodeRef → Prop) (m : Memory α) : NodeRef → Prop := fun c =>
  own c ∨ c = m.node.next

theorem get_createNode {parent : Option NodeRef} {c : NodeRef} (old : c ≠ m.node.next) :
    (m.createNode tree parent key data).2.node.get c = m.node.get c :=
  Store.get_alloc_of_ne m.node (fun _ => ⟨tree, parent, none, none, .black, key, data⟩) old

theorem get_createNode_self {parent : Option NodeRef} :
    (m.createNode tree parent key data).2.node.get m.node.next =
      ⟨tree, parent, none, none, .black, key, data⟩ :=
  Store.get_alloc_self m.node (fun _ => ⟨tree, parent, none, none, .black, key, data⟩)

/-- The pointer that leads down to the place looked at is assigned. -/
def Memory.setDown (m : Memory α) (tree : TreeRef) (path : List (Frame NodeRef))
    (child : Option NodeRef) : Memory α :=
  match path with
  | [] => m.setRoot tree child
  | f :: _ => m.setChild f.side f.self child

theorem Memory.links_setDown (child : Option NodeRef) :
    (m.setDown tree path child).links tree = (m.links tree).setDown path child := by
  cases path with
  | nil => exact Memory.links_setRoot ..
  | cons f path => exact Memory.links_setChild ..

theorem Memory.rbColor_setDown (child : Option NodeRef) :
    (m.setDown tree path child).rbColor = m.rbColor := by
  cases path with
  | nil => rfl
  | cons f path => exact Memory.rbColor_setChild ..

theorem Rearranged.setDown (mine : ∀ c ∈ pathMembers path, own c) (child : Option NodeRef) :
    Rearranged own tree m (m.setDown tree path child) := by
  cases path with
  | nil => exact .setRoot child
  | cons f path => exact .setChild (mine f.self List.mem_cons_self) f.side child

/-- What a new node changes. -/
structure Extended (own : NodeRef → Prop) (tree : TreeRef) (datum : Option α) (m m' : Memory α) :
    Prop where
  confined : Confined own (· = m.node.next) tree m m'
  next : m'.node.next = m.node.next + 1
  data : m'.data m.node.next = datum
  owner : m'.owner m.node.next = datum
  live : (m'.tree.get tree).live = (m.tree.get tree).live

theorem Extended.rearranged {m'' : Memory α} (extended : Extended own tree data m m')
    (moved : Rearranged (orNew own m) tree m' m'') : Extended own tree data m m'' where
  confined := extended.confined.rearranged moved fun c old out => by
    rintro (mine | rfl)
    · exact out mine
    · exact lt_irrefl _ old
  next := moved.next.trans extended.next
  data := (congrFun moved.data _).trans extended.data
  owner := (congrFun moved.owner _).trans extended.owner
  live := (moved.live tree).trans extended.live

theorem createNode_confined {parent : Option NodeRef} :
    Confined own (· = m.node.next) tree m (m.createNode tree parent key data).2 where
  next := Nat.le_succ _
  key32 := fun _ below _ => congrArg TrbtNode.key32 (get_createNode below.ne)
  data := fun _ below _ => congrArg TrbtNode.data (get_createNode below.ne)
  owner := fun _ apart => Function.update_of_ne apart ..
  treeOf := fun _ below => congrArg TrbtNode.tree (get_createNode below.ne)
  outside := fun _ below _ => get_createNode below.ne
  trees := fun _ _ => rfl
  flags := rfl
  nextTree := rfl

/-- `trbt_create_node` where there is no node, and the pointer to the new one. -/
theorem createNode_located (at' : Located own m tree .nil path)
    (allocated : ∀ c, own c → c < m.node.next) {m₁ : Memory α}
    (created : m₁ = (m.createNode tree (above path) key data).2.setDown tree path
      (some m.node.next)) :
    Located (orNew own m) m₁ tree (.node .nil m.node.next .nil) path ∧
      Extended own tree data m m₁ ∧ m₁.rbColor m.node.next = .black ∧
      m₁.key32 m.node.next = key ∧ m₁.readPath path = m.readPath path := by
  have old : ∀ c, own c → c ≠ m.node.next := fun c mine => (allocated c mine).ne
  have inPath : ∀ c ∈ pathMembers path, own c := fun c member =>
    at'.mine c (List.mem_append_right _ member)
  have fresh : m.node.next ∉ pathMembers path := fun member => old _ (inPath _ member) rfl
  have start : Confined own (· = m.node.next) tree m
      (m.createNode tree (above path) key data).2 := createNode_confined
  have record : (m.createNode tree (above path) key data).2.node.get m.node.next =
      ⟨tree, above path, none, none, .black, key, data⟩ := get_createNode_self
  have others : ∀ c, c ≠ m.node.next →
      (m.createNode tree (above path) key data).2.node.get c = m.node.get c :=
    fun c apart => get_createNode apart
  have owner : (m.createNode tree (above path) key data).2.owner m.node.next = data :=
    Function.update_self ..
  have rest : (m.createNode tree (above path) key data).2.tree = m.tree ∧
      (m.createNode tree (above path) key data).2.node.next = m.node.next + 1 := ⟨rfl, rfl⟩
  generalize (m.createNode tree (above path) key data).2 = m₀ at *
  subst created
  have links : (m₀.setDown tree path (some m.node.next)).links tree =
      (m₀.links tree).setDown path (some m.node.next) := Memory.links_setDown _
  have moved : Rearranged (orNew own m) tree m₀ (m₀.setDown tree path (some m.node.next)) :=
    .setDown (fun c member => .inl (inPath c member)) _
  have color : (m₀.setDown tree path (some m.node.next)).rbColor = m₀.rbColor :=
    Memory.rbColor_setDown _
  refine ⟨⟨?_, ?_, ?_⟩, ?_, ?_, ?_, ?_⟩
  · refine at'.focus.put fresh ?_ ?_ ?_ ?_ ?_
    · rw [links]
      have root : (m₀.links tree).root = (m.links tree).root :=
        congrArg TrbtTree.root (congrArg (Store.get · tree) rest.1)
      cases path with
      | nil => rfl
      | cons f path => exact root
    · intro side c apart
      have child : (m₀.links tree).child side c = (m.links tree).child side c := by
        cases side with
        | left => exact congrArg TrbtNode.left (others c apart)
        | right => exact congrArg TrbtNode.right (others c apart)
      rw [links]
      cases path with
      | nil => exact child
      | cons f path =>
        simp only [Links.setDown, Links.setChild, child]
    · intro c apart
      rw [links, Links.parent_setDown]
      exact congrArg TrbtNode.parent (others c apart)
    · intro side
      rw [links, Links.child_setDown_of_notMem _ _ _ fresh]
      cases side with
      | left => exact congrArg TrbtNode.left record
      | right => exact congrArg TrbtNode.right record
    · rw [links, Links.parent_setDown]
      exact congrArg TrbtNode.parent record
  · intro c member
    rw [List.mem_append, Shape.mem_members_node] at member
    rcases member with (rfl | absent) | member
    · exact .inr rfl
    · simp at absent
    · exact .inl (inPath c member)
  · rintro c (mine | rfl)
    · rw [moved.treeOf]
      exact (congrArg TrbtNode.tree (others c (old c mine))).trans (at'.treeOf c mine)
    · rw [moved.treeOf]
      exact congrArg TrbtNode.tree record
  · refine Extended.rearranged ⟨start, rest.2, ?_, owner, ?_⟩ moved
    · exact congrArg TrbtNode.data record
    · rw [rest.1]
  · rw [color]
    exact congrArg TrbtNode.rbColor record
  · rw [moved.key32]
    exact congrArg TrbtNode.key32 record
  · refine Memory.readPath_congr fun c member => ?_
    rw [color, moved.key32]
    exact ⟨congrArg TrbtNode.rbColor (others c (old c (inPath c member))),
      congrArg TrbtNode.key32 (others c (old c (inPath c member)))⟩

/-- The loop of `trbt_lookup32` and `trbt_delete32`. -/
theorem findNode_located {fuel : Nat} (at' : Located own m tree t path)
    (enough : (m.read t).height < fuel) :
    m.findNode key fuel t.root = some (Rbtree.lookup key (m.read t)) := by
  induction t generalizing path fuel with
  | nil =>
    obtain ⟨fuel, rfl⟩ : ∃ f, fuel = f + 1 := Nat.exists_eq_add_one.mpr (by omega)
    rfl
  | node left self right leftIh rightIh =>
    obtain ⟨fuel, rfl⟩ : ∃ f, fuel = f + 1 := Nat.exists_eq_add_one.mpr (by omega)
    rw [Memory.read, Node.height] at enough
    have leftPointer : m.left self = left.root := at'.focus.holds.1.1
    have rightPointer : m.right self = right.root := at'.focus.holds.2.1
    rw [Shape.root_node, Memory.findNode, Memory.read, Rbtree.lookup, leftPointer, rightPointer]
    by_cases same : key = m.key32 self
    · rw [if_pos same, if_pos same]
    · rw [if_neg same, if_neg same]
      by_cases below : key < m.key32 self
      · rw [if_pos below, if_pos below]
        exact leftIh (located_left.mp at') (by omega)
      · rw [if_neg below, if_neg below]
        exact rightIh (located_right.mp at') (by omega)

/-- A node that has the key gets the new data. -/
theorem insertLoop_found {fuel : Nat} {value : Option α → Option α} {node : NodeRef}
    (here : t.root = some a) (at' : Located own m tree t path)
    (enough : (m.read t).height ≤ fuel) (found : Rbtree.lookup key (m.read t) = some node) :
    m.insertLoop tree key value fuel a = some (m.data node,
      (m.setData node (value (m.data node))).steal (value (m.data node)) node) := by
  induction t generalizing path fuel a with
  | nil => cases here
  | node left self right leftIh rightIh =>
    obtain rfl : self = a := Option.some.inj here
    rw [Memory.read, Node.height] at enough
    obtain ⟨fuel, rfl⟩ : ∃ f, fuel = f + 1 := Nat.exists_eq_add_one.mpr (by omega)
    have leftPointer : m.left self = left.root := at'.focus.holds.1.1
    have rightPointer : m.right self = right.root := at'.focus.holds.2.1
    rw [Memory.read, Rbtree.lookup] at found
    rw [Memory.insertLoop]
    by_cases same : key = m.key32 self
    · rw [if_pos same] at found ⊢
      obtain rfl : self = node := Option.some.inj found
      simp
    · rw [if_neg same] at found ⊢
      by_cases below : key < m.key32 self
      · rw [if_pos below] at found ⊢
        cases left with
        | nil => cases found
        | node l b r =>
          simp only [leftPointer, Shape.root_node]
          exact leftIh rfl (located_left.mp at') (by omega) found
      · rw [if_neg below] at found ⊢
        cases right with
        | nil => cases found
        | node l b r =>
          simp only [rightPointer, Shape.root_node]
          exact rightIh rfl (located_right.mp at') (by omega) found

/-- Otherwise there is a new red node. -/
theorem insertLeaf_located {fuel : Nat} {f : Frame NodeRef}
    (at' : Located own m tree .nil (f :: path)) (allocated : ∀ c, own c → c < m.node.next)
    (enough : path.length + 1 < 2 * fuel) :
    ∃ m' shape, Memory.insertCase1 fuel m.node.next
        (((m.createNode tree (some f.self) key data).2.setChild f.side f.self
          (some m.node.next)).setColor m.node.next .red) = some m' ∧
      Located (orNew own m) m' tree shape [] ∧ Extended own tree data m m' ∧
      m'.read shape = Rbtree.insertAt key m.node.next .leaf (m.readPath (f :: path)) := by
  obtain ⟨at₁, extended, _, keyed, readPath⟩ :=
    createNode_located at' allocated rfl
  rw [Memory.setDown, above_cons] at at₁ extended keyed readPath
  generalize (m.createNode tree (some f.self) key data).2.setChild f.side f.self
    (some m.node.next) = m₁ at *
  have at₂ := at₁.setColor m.node.next .red
  have painted : Rearranged (orNew own m) tree m₁ (m₁.setColor m.node.next .red) :=
    .setColor (.inr rfl) _
  obtain ⟨m', done, shape, at₃, read, moved⟩ := insertCase1_located fuel rfl at₂ enough
  refine ⟨m', shape, done, at₃, extended.rearranged (painted.trans moved), read.trans ?_⟩
  rw [Memory.readPath_setColor_of_notMem (at₁.outside (Shape.root_mem rfl)), readPath,
    Memory.read, Memory.read, Memory.rbColor_setColor, Function.update_self,
    Memory.key32_setColor, keyed, Memory.readPath_cons, Rbtree.insertAt]
  simp

theorem insertLoop_missing {fuel : Nat} {value : Option α → Option α}
    (here : t.root = some a) (at' : Located own m tree t path)
    (allocated : ∀ c, own c → c < m.node.next)
    (enough : path.length + 3 * (m.read t).height < 2 * fuel)
    (missing : Rbtree.lookup key (m.read t) = none) :
    ∃ m' shape, m.insertLoop tree key value fuel a = some (none, m') ∧
      Located (orNew own m) m' tree shape [] ∧ Extended own tree (value none) m m' ∧
      m'.read shape = Rbtree.insertAt key m.node.next (m.read t) (m.readPath path) := by
  induction t generalizing path fuel a with
  | nil => cases here
  | node left self right leftIh rightIh =>
    obtain rfl : self = a := Option.some.inj here
    rw [Memory.read, Node.height] at enough
    obtain ⟨fuel, rfl⟩ : ∃ f, fuel = f + 1 := Nat.exists_eq_add_one.mpr (by omega)
    have leftPointer : m.left self = left.root := at'.focus.holds.1.1
    have rightPointer : m.right self = right.root := at'.focus.holds.2.1
    rw [Memory.read, Rbtree.lookup] at missing
    rw [Memory.insertLoop, Memory.read, Rbtree.insertAt]
    by_cases same : key = m.key32 self
    · rw [if_pos same] at missing
      cases missing
    · rw [if_neg same] at missing ⊢
      rw [if_neg same]
      by_cases below : key < m.key32 self
      · rw [if_pos below] at missing ⊢
        rw [if_pos below]
        cases left with
        | nil =>
          obtain ⟨m', shape, done, at'', extended, read⟩ :=
            insertLeaf_located (located_left.mp at') allocated
              (show _ < 2 * fuel by omega)
          refine ⟨m', shape, ?_, at'', extended, read⟩
          simp only [leftPointer, Shape.root_nil]
          exact congrArg (Option.map (Prod.mk none)) done
        | node l b r =>
          simp only [leftPointer, Shape.root_node]
          refine leftIh rfl (located_left.mp at') ?_ missing
          simp only [List.length_cons]
          omega
      · rw [if_neg below] at missing ⊢
        rw [if_neg below]
        cases right with
        | nil =>
          obtain ⟨m', shape, done, at'', extended, read⟩ :=
            insertLeaf_located (located_right.mp at') allocated
              (show _ < 2 * fuel by omega)
          refine ⟨m', shape, ?_, at'', extended, read⟩
          simp only [rightPointer, Shape.root_nil]
          exact congrArg (Option.map (Prod.mk none)) done
        | node l b r =>
          simp only [rightPointer, Shape.root_node]
          refine rightIh rfl (located_right.mp at') ?_ missing
          simp only [List.length_cons]
          omega

end Phat.Trbt
