import Phat.TrbtWalks

/-! All trees of a memory at once. Between two calls of the functions of rbtree.c each tree is one of
`Phat.Table`, balanced, each of its nodes hangs off its datum, and no other node hangs off one. -/
namespace Phat.Trbt
open PointerTree
open Rbtree (Color Node Balanced Fits)
variable {α : Type} {own : NodeRef → Prop} {m m' : Memory α} {tree : TreeRef}
  {t left right : Shape NodeRef} {path : List (Frame NodeRef)} {a b : NodeRef} {key : Key}

theorem lookup_iff_member (ordered : (m.read t).Ordered) :
    Rbtree.lookup key (m.read t) = some a ↔ a ∈ t.members ∧ m.key32 a = key := by
  rw [Rbtree.lookup_iff ordered, Memory.mem_toList_read]
  exact and_congr_right fun _ => eq_comm

/-- The place of the node that has a key. -/
theorem exists_place {c : Color} {n : Nat} (at' : Located own m tree t path)
    (found : Rbtree.lookup key (m.read t) = some a) (balanced : Balanced (m.read t) c n)
    (fits : Fits (m.readPath path) c n) :
    ∃ left right way c' n', Located own m tree (.node left a right) way ∧
      way.length + (m.read (.node left a right)).height ≤ path.length + (m.read t).height ∧
      Balanced (m.read (.node left a right)) c' n' ∧ Fits (m.readPath way) c' n' ∧
      Rbtree.deleteAt key (m.read t) (m.readPath path) =
        Rbtree.deleteNode (m.rbColor a) (m.read left) (m.read right) (m.readPath way) := by
  induction t generalizing path c n with
  | nil => cases found
  | node left self right leftIh rightIh =>
    have color : m.rbColor self = c := balanced.getColor
    subst color
    rw [Memory.read, Rbtree.lookup] at found
    rw [Memory.read, Rbtree.deleteAt]
    by_cases same : key = m.key32 self
    · rw [if_pos same] at found ⊢
      obtain rfl : self = a := Option.some.inj found
      exact ⟨left, right, path, _, _, at', le_rfl, balanced, fits, rfl⟩
    · rw [if_neg same] at found ⊢
      by_cases below : key < m.key32 self
      · rw [if_pos below] at found ⊢
        obtain ⟨l, k, balanced, fits⟩ := fits.below balanced
        obtain ⟨left', right', way, c', n', at'', length, rest⟩ :=
          leftIh (located_left.mp at') found balanced fits
        refine ⟨left', right', way, c', n', at'', length.trans ?_, rest⟩
        rw [List.length_cons, Node.height]
        omega
      · rw [if_neg below] at found ⊢
        obtain ⟨r, k, balanced, fits⟩ := fits.beside balanced
        obtain ⟨left', right', way, c', n', at'', length, rest⟩ :=
          rightIh (located_right.mp at') found balanced fits
        refine ⟨left', right', way, c', n', at'', length.trans ?_, rest⟩
        rw [List.length_cons, Node.height]
        omega

/-- Freeing a node of a tree. -/
theorem freeNode_located {fuel n : Nat} (at' : Located own m tree t [])
    (allocated : ∀ c, own c → c < m.node.next) (hangs : ∀ b, own b → m.owner b = m.data b)
    (ordered : (m.read t).Ordered) (balanced : Balanced (m.read t) .black n)
    (member : a ∈ t.members) (enough : 65 < fuel) :
    ∃ m' shape, m.freeNode fuel a = some m' ∧ Located own m' tree shape [] ∧
      Confined own (· = a) tree m m' ∧ m'.owner a = none ∧
      (m'.tree.get tree).live = m.spared tree shape ∧
      m'.read shape = Rbtree.deleteAt (m.key32 a) (m.read t) [] := by
  have found := (lookup_iff_member ordered).mpr ⟨member, rfl⟩
  obtain ⟨left, right, way, c, k, at₁, length, balanced', fits, deleted⟩ :=
    exists_place at' found balanced rfl
  have height := balanced.height_le_64 ordered
  have enough' : way.length + (m.read (.node left a right)).height + 1 < fuel := by
    rw [List.length_nil, Nat.zero_add] at length
    omega
  obtain ⟨m', shape, done, at₂, confined, live, read⟩ :=
    deleteNode_located at₁ allocated hangs balanced' fits enough'
  have read' : (m'.steal none a).read shape = m'.read shape :=
    congrFun (Memory.read_eq (m'.rbColor_steal a none) (m'.key32_steal a none)) shape
  refine ⟨m'.steal none a, shape, ?_, at₂.of_links rfl rfl, ?_, Function.update_self .., live, ?_⟩
  · rw [Memory.freeNode, done]
    rfl
  · exact { confined with
      owner := fun b apart => (Function.update_of_ne apart ..).trans (confined.owner b apart) }
  · exact read'.trans (read.trans deleted.symm)

/-- The trees of a memory, each with its shape. -/
structure Sound (m : Memory α) (shapes : TreeRef → Shape NodeRef) : Prop where
  focus : ∀ tree < m.tree.next, Focus (m.links tree) (shapes tree) []
  treeOf : ∀ tree, ∀ a ∈ (shapes tree).members, m.treeOf a = tree
  allocated : ∀ tree, ∀ a ∈ (shapes tree).members, a < m.node.next
  hangs : ∀ tree, ∀ a ∈ (shapes tree).members, m.owner a = m.data a
  loose : ∀ a, (∀ tree, a ∉ (shapes tree).members) → m.owner a = none
  ordered : ∀ tree, (m.read (shapes tree)).Ordered
  balanced : ∀ tree, ∃ n, Balanced (m.read (shapes tree)) .black n
  unmade : ∀ tree, m.tree.next ≤ tree → shapes tree = .nil
  freed : ∀ tree < m.tree.next, (m.tree.get tree).live = false →
    shapes tree = .nil ∧ (m.tree.get tree).flags &&& trbtAutofree ≠ 0

section Sound
variable {shapes : TreeRef → Shape NodeRef}

namespace Sound

theorem located (sound : Sound m shapes) (made : tree < m.tree.next) :
    Located (· ∈ (shapes tree).members) m tree (shapes tree) [] where
  focus := sound.focus tree made
  mine := fun a member => by simpa [pathMembers] using member
  treeOf := sound.treeOf tree

/-- A node is in one tree at most. -/
theorem apart (sound : Sound m shapes) {other : TreeRef} (away : other ≠ tree)
    (member : a ∈ (shapes tree).members) : a ∉ (shapes other).members := fun member' =>
  away ((sound.treeOf other a member').symm.trans (sound.treeOf tree a member))

/-- What an operation on one tree has to keep. -/
theorem change {own' : NodeRef → Prop} {shape : Shape NodeRef} {node : NodeRef}
    (sound : Sound m shapes) (made : tree < m.tree.next) (at' : Located own' m' tree shape [])
    (confined : Confined (· ∈ (shapes tree).members) (· = node) tree m m')
    (members : ∀ a ∈ shape.members, a ≠ node → a ∈ (shapes tree).members)
    (kept : ∀ a ∈ (shapes tree).members, a ≠ node → a ∈ shape.members)
    (elsewhere : ∀ other, other ≠ tree → node ∉ (shapes other).members)
    (inside : node ∈ shape.members → node < m'.node.next ∧ m'.owner node = m'.data node)
    (outside : node ∉ shape.members → m'.owner node = none)
    (ordered : (m'.read shape).Ordered) (balanced : ∃ n, Balanced (m'.read shape) .black n)
    (freed : (m'.tree.get tree).live = false →
      shape = .nil ∧ (m'.tree.get tree).flags &&& trbtAutofree ≠ 0) :
    Sound m' (Function.update shapes tree shape) ∧
      (∀ other, other ≠ tree → m'.read (shapes other) = m.read (shapes other)) ∧
      ∀ other, other ≠ tree → ∀ a ∈ (shapes other).members, m'.data a = m.data a := by
  have same : ∀ other, other ≠ tree → ∀ a ∈ (shapes other).members,
      m'.node.get a = m.node.get a := fun other away a member =>
    confined.outside a (sound.allocated other a member) (sound.apart (Ne.symm away) member)
  have others : ∀ other, other ≠ tree → m'.read (shapes other) = m.read (shapes other) :=
    fun other away => Memory.read_congr fun a member =>
      ⟨congrArg TrbtNode.rbColor (same other away a member),
        congrArg TrbtNode.key32 (same other away a member)⟩
  have mine : ∀ a ∈ shape.members, own' a := fun a member =>
    at'.mine a (List.mem_append_left _ member)
  refine ⟨?_, others, fun other away a member => congrArg TrbtNode.data (same other away a member)⟩
  constructor
  · intro other below
    by_cases here : other = tree
    · subst here
      rw [Function.update_self]
      exact at'.focus
    · rw [Function.update_of_ne here]
      rw [confined.nextTree] at below
      refine (sound.focus other below).congr ?_ ?_ ?_
      · exact congrArg TrbtTree.root (confined.trees other here)
      · intro side a member
        have record := same other here a (by simpa [pathMembers] using member)
        cases side with
        | left => exact congrArg TrbtNode.left record
        | right => exact congrArg TrbtNode.right record
      · intro a member
        exact congrArg TrbtNode.parent (same other here a (by simpa [pathMembers] using member))
  · intro other a member
    by_cases here : other = tree
    · subst here
      rw [Function.update_self] at member
      exact at'.treeOf a (mine a member)
    · rw [Function.update_of_ne here] at member
      exact (congrArg TrbtNode.tree (same other here a member)).trans (sound.treeOf other a member)
  · intro other a member
    by_cases here : other = tree
    · subst here
      rw [Function.update_self] at member
      by_cases changed : a = node
      · exact changed ▸ (inside (changed ▸ member)).1
      · exact (sound.allocated other a (members a member changed)).trans_le confined.next
    · rw [Function.update_of_ne here] at member
      exact (sound.allocated other a member).trans_le confined.next
  · intro other a member
    by_cases here : other = tree
    · subst here
      rw [Function.update_self] at member
      by_cases changed : a = node
      · exact changed ▸ (inside (changed ▸ member)).2
      · have old := members a member changed
        rw [confined.owner a changed, confined.data a (sound.allocated other a old) changed]
        exact sound.hangs other a old
    · rw [Function.update_of_ne here] at member
      have changed : a ≠ node := by
        rintro rfl
        exact elsewhere other here member
      rw [confined.owner a changed, confined.data a (sound.allocated other a member) changed]
      exact sound.hangs other a member
  · intro a nowhere
    have notHere : a ∉ shape.members := by
      have here := nowhere tree
      rwa [Function.update_self] at here
    by_cases changed : a = node
    · subst changed
      exact outside notHere
    · rw [confined.owner a changed]
      refine sound.loose a fun other member => ?_
      by_cases here : other = tree
      · subst here
        exact notHere (kept a member changed)
      · have away := nowhere other
        rw [Function.update_of_ne here] at away
        exact away member
  · intro other
    by_cases here : other = tree
    · subst here
      rwa [Function.update_self]
    · rw [Function.update_of_ne here, others other here]
      exact sound.ordered other
  · intro other
    by_cases here : other = tree
    · subst here
      rwa [Function.update_self]
    · rw [Function.update_of_ne here, others other here]
      exact sound.balanced other
  · intro other above
    rw [confined.nextTree] at above
    have here : other ≠ tree := (made.trans_le above).ne'
    rw [Function.update_of_ne here]
    exact sound.unmade other above
  · intro other below gone
    by_cases here : other = tree
    · subst here
      rw [Function.update_self]
      exact freed gone
    · rw [confined.nextTree] at below
      rw [confined.trees other here] at gone ⊢
      rw [Function.update_of_ne here]
      exact sound.freed other below gone

end Sound

/-- The tree in memory as `Phat.Rbtree` has it, with the data of its nodes. -/
def Memory.table (m : Memory α) (t : Shape NodeRef) : Node (Option α) := (m.read t).map m.data

/-- The datum at a key, if a node has the key. -/
def Memory.value (m : Memory α) (t : Shape NodeRef) (key : Key) : Option (Option α) :=
  (Rbtree.lookup key (m.read t)).map m.data

theorem Memory.value_eq (m : Memory α) (t : Shape NodeRef) (key : Key) :
    m.value t key = Rbtree.lookup key (m.table t) :=
  (Rbtree.lookup_map m.data key (m.read t)).symm

theorem Memory.map_read_congr {f g : NodeRef → Option α} (same : ∀ a ∈ t.members, f a = g a) :
    (m.read t).map f = (m.read t).map g := by
  induction t with
  | nil => rfl
  | node left self right leftIh rightIh =>
    rw [Memory.read, Node.map, Node.map, same self (Shape.root_mem rfl),
      leftIh fun a member => same a (Shape.mem_members_node.mpr (.inr (.inl member))),
      rightIh fun a member => same a (Shape.mem_members_node.mpr (.inr (.inr member)))]

theorem Memory.table_congr (read : m'.read t = m.read t)
    (data : ∀ a ∈ t.members, m'.data a = m.data a) : m'.table t = m.table t := by
  rw [Memory.table, read]
  exact Memory.map_read_congr data

/-- The table of a tree, which is ordered. -/
def Sound.table (sound : Sound m shapes) (tree : TreeRef) : Table (Option α) where
  root := m.table (shapes tree)
  ordered := Rbtree.ordered_map m.data (sound.ordered tree)

theorem Sound.value_eq (sound : Sound m shapes) :
    m.value (shapes tree) key = (sound.table tree).lookup32 key :=
  m.value_eq (shapes tree) key

theorem Sound.key_inj (sound : Sound m shapes) (member : a ∈ (shapes tree).members)
    (member' : b ∈ (shapes tree).members) (same : m.key32 a = m.key32 b) : a = b := by
  have found := (lookup_iff_member (sound.ordered tree)).mpr ⟨member, rfl⟩
  have found' := (lookup_iff_member (sound.ordered tree)).mpr ⟨member', rfl⟩
  rw [same, found'] at found
  exact (Option.some.inj found).symm

/-- A node of a tree is freed, be it by `trbt_delete32` or with its datum. -/
theorem freeNode_sound {fuel : Nat} (sound : Sound m shapes) (made : tree < m.tree.next)
    (member : a ∈ (shapes tree).members) (enough : 65 < fuel) :
    ∃ m' shape, m.freeNode fuel a = some m' ∧ Sound m' (Function.update shapes tree shape) ∧
      Confined (· ∈ (shapes tree).members) (· = a) tree m m' ∧ m'.owner a = none ∧
      (m'.tree.get tree).live = m.spared tree shape ∧
      shape.members = (shapes tree).members.filter (· ≠ a) ∧
      m'.table shape = Rbtree.deleteAt (m.key32 a) (m.table (shapes tree)) [] ∧
      ∀ other, other ≠ tree → m'.table (shapes other) = m.table (shapes other) := by
  obtain ⟨n, balanced⟩ := sound.balanced tree
  obtain ⟨m', shape, done, at', confined, loose, live, read⟩ :=
    freeNode_located (sound.located made) (sound.allocated tree) (sound.hangs tree)
      (sound.ordered tree) balanced member enough
  let table : Table NodeRef := ⟨m.read (shapes tree), sound.ordered tree⟩
  have deleted : m'.read shape = (table.delete32 (m.key32 a)).root := read
  have members : shape.members = (shapes tree).members.filter (· ≠ a) := by
    have contents : (m'.read shape).toList =
        (m.read (shapes tree)).toList.filter fun e => e.1 ≠ m.key32 a := by
      rw [deleted]
      exact table.toList_delete32 (m.key32 a)
    rw [Memory.members_read, Memory.members_read, List.filter_map] at contents
    have nodes := congrArg (List.map Prod.snd) contents
    simp only [List.map_map, Function.comp_def, List.map_id'] at nodes
    rw [nodes]
    refine List.filter_congr fun b inTree => ?_
    refine decide_eq_decide.mpr (not_congr ⟨sound.key_inj inTree member, ?_⟩)
    rintro rfl
    rfl
  have inShape : ∀ b, b ∈ shape.members ↔ b ∈ (shapes tree).members ∧ b ≠ a := by
    intro b
    rw [members, List.mem_filter, decide_eq_true_iff]
  have balanced' : ∃ n, Balanced (m'.read shape) .black n := by
    rw [read]
    exact Rbtree.balanced_deleteAt _ _ _ balanced rfl
  have alive : (m.tree.get tree).live = true := by
    by_contra gone
    rw [(sound.freed tree made (Bool.eq_false_iff.mpr gone)).1] at member
    cases member
  have freed : (m'.tree.get tree).live = false →
      shape = .nil ∧ (m'.tree.get tree).flags &&& trbtAutofree ≠ 0 := by
    intro gone
    rw [live, Memory.spared, alive, Bool.true_and, Bool.not_eq_false', decide_eq_true_iff] at gone
    rw [confined.flags]
    refine ⟨?_, gone.1⟩
    cases shape with
    | nil => rfl
    | node => cases gone.2
  obtain ⟨sound', reads, data⟩ := sound.change made at' confined
    (fun b inside _ => ((inShape b).mp inside).1) (fun b inside apart => (inShape b).mpr ⟨inside, apart⟩)
    (fun other away => sound.apart away member) (fun inside => absurd rfl ((inShape a).mp inside).2)
    (fun _ => loose) (deleted ▸ (table.delete32 (m.key32 a)).ordered) balanced' freed
  refine ⟨m', shape, done, sound', confined, loose, live, members, ?_, fun other away =>
    Memory.table_congr (reads other away) (data other away)⟩
  have survivors : ∀ b ∈ shape.members, m'.data b = m.data b := fun b left => by
    obtain ⟨inside, apart⟩ := (inShape b).mp left
    exact confined.data b (sound.allocated tree b inside) apart
  calc m'.table shape = (m'.read shape).map m.data := Memory.map_read_congr survivors
    _ = (Rbtree.deleteAt (m.key32 a) (m.read (shapes tree)) []).map m.data := by rw [read]
    _ = Rbtree.deleteAt (m.key32 a) (m.table (shapes tree)) [] := Rbtree.map_deleteAt m.data _ _ _

section Insertion
variable {value : Option α → Option α} {fuel : Nat}

theorem insertWith_missing (value : Option α → Option α) {n : Nat}
    (at' : Located own m tree t [])
    (allocated : ∀ c, own c → c < m.node.next) (ordered : (m.read t).Ordered)
    (balanced : Balanced (m.read t) .black n) (enough : 96 < fuel)
    (missing : Rbtree.lookup key (m.read t) = none) :
    ∃ m' shape, m.insertWith fuel tree key value = some (none, m') ∧
      Located (orNew own m) m' tree shape [] ∧ Extended own tree (value none) m m' ∧
      m'.read shape = Rbtree.insertAt key m.node.next (m.read t) [] := by
  have root : m.root tree = t.root := at'.focus.down
  rw [Memory.insertWith, root]
  cases t with
  | nil =>
    obtain ⟨at₁, extended, color, keyed, _⟩ :=
      createNode_located at' allocated rfl
    refine ⟨(m.createNode tree (above []) key (value none)).2.setDown tree [] (some m.node.next), _,
      rfl, at₁, extended, ?_⟩
    generalize (m.createNode tree (above []) key (value none)).2.setDown tree [] _ = m₁ at color keyed
    rw [Memory.read, Memory.read, color, keyed]
    rfl
  | node left self right =>
    have height := balanced.height_le_64 ordered
    exact insertLoop_missing rfl at' allocated (by rw [List.length_nil]; omega) missing

theorem insertWith_found {n : Nat} {node : NodeRef} (at' : Located own m tree t [])
    (ordered : (m.read t).Ordered) (balanced : Balanced (m.read t) .black n) (enough : 96 < fuel)
    (found : Rbtree.lookup key (m.read t) = some node) :
    m.insertWith fuel tree key value = some (m.data node,
      (m.setData node (value (m.data node))).steal (value (m.data node)) node) := by
  have root : m.root tree = t.root := at'.focus.down
  rw [Memory.insertWith, root]
  cases t with
  | nil => cases found
  | node left self right =>
    have height := balanced.height_le_64 ordered
    exact insertLoop_found rfl at' (by omega) found

/-- What an insertion does to the trees. -/
structure Inserted (m : Memory α) (shapes : TreeRef → Shape NodeRef) (tree : TreeRef) (key : Key)
    (datum : Option α) (m' : Memory α) (shapes' : TreeRef → Shape NodeRef) : Prop where
  sound : Sound m' shapes'
  next : m'.tree.next = m.tree.next
  trees : ∀ other, other ≠ tree → m'.tree.get other = m.tree.get other
  flags : (m'.tree.get tree).flags = (m.tree.get tree).flags
  live : (m'.tree.get tree).live = (m.tree.get tree).live
  table : m'.table (shapes' tree) = Rbtree.insertAt key datum (m.table (shapes tree)) []
  tables : ∀ other, other ≠ tree → m'.table (shapes' other) = m.table (shapes other)
  stay : ∀ other, ∀ a ∈ (shapes other).members,
    a ∈ (shapes' other).members ∧ m'.key32 a = m.key32 a ∧
      (other ≠ tree ∨ m.key32 a ≠ key → m'.data a = m.data a)

theorem insertWith_sound_missing (sound : Sound m shapes) (made : tree < m.tree.next)
    (alive : (m.tree.get tree).live = true) (enough : 96 < fuel)
    (missing : Rbtree.lookup key (m.read (shapes tree)) = none) :
    ∃ m' shapes', m.insertWith fuel tree key value = some (none, m') ∧
      Inserted m shapes tree key (value none) m' shapes' := by
  obtain ⟨n, balanced⟩ := sound.balanced tree
  obtain ⟨m', shape, done, at', extended, read⟩ :=
    insertWith_missing value (sound.located made) (sound.allocated tree)
      (sound.ordered tree) balanced enough missing
  let table : Table NodeRef := ⟨m.read (shapes tree), sound.ordered tree⟩
  have inserted : m'.read shape = (table.insert32 key m.node.next).root := read
  have found : ∀ key', Rbtree.lookup key' (m'.read shape) = if key' = key then some m.node.next else
      Rbtree.lookup key' (m.read (shapes tree)) := by
    intro key'
    rw [inserted]
    exact table.lookup32_insert32 key key' m.node.next
  have ordered : (m'.read shape).Ordered := inserted ▸ (table.insert32 key m.node.next).ordered
  have inShape : ∀ b, b ∈ shape.members ↔ b = m.node.next ∨ b ∈ (shapes tree).members := by
    intro b
    constructor
    · intro inside
      have here := (lookup_iff_member ordered).mpr ⟨inside, rfl⟩
      rw [found] at here
      by_cases same : m'.key32 b = key
      · rw [if_pos same] at here
        exact .inl (Option.some.inj here).symm
      · rw [if_neg same] at here
        exact .inr ((lookup_iff_member (sound.ordered tree)).mp here).1
    · rintro (rfl | inside)
      · exact ((lookup_iff_member ordered).mp ((found key).trans (if_pos rfl))).1
      · have here := (lookup_iff_member (sound.ordered tree)).mpr ⟨inside, rfl⟩
        have apart : m.key32 b ≠ key := by
          rintro rfl
          rw [missing] at here
          cases here
        exact ((lookup_iff_member ordered).mp (((found _).trans (if_neg apart)).trans here)).1
  have fresh : ∀ other, m.node.next ∉ (shapes other).members := fun other member =>
    lt_irrefl _ (sound.allocated other _ member)
  obtain ⟨sound', reads, data⟩ := sound.change made at' extended.confined
    (fun b inside apart => ((inShape b).mp inside).resolve_left apart)
    (fun b inside _ => (inShape b).mpr (.inr inside)) (fun other _ => fresh other)
    (fun _ => ⟨extended.next ▸ Nat.lt_succ_self _, extended.owner.trans extended.data.symm⟩)
    (fun outside => absurd ((inShape _).mpr (.inl rfl)) outside)
    ordered (by rw [read]; exact Rbtree.balanced_insertAt _ _ _ _ balanced rfl)
    (fun gone => by rw [extended.live, alive] at gone; cases gone)
  have kept : ∀ other, ∀ a ∈ (shapes other).members,
      m'.key32 a = m.key32 a ∧ m'.data a = m.data a := by
    intro other a member
    have old := sound.allocated other a member
    exact ⟨extended.confined.key32 a old old.ne, extended.confined.data a old old.ne⟩
  refine ⟨m', _, done, sound', extended.confined.nextTree, extended.confined.trees,
    extended.confined.flags, extended.live, ?_, fun other away => ?_, fun other a member => ?_⟩
  · rw [Function.update_self, Memory.table, read, Rbtree.map_insertAt, extended.data]
    refine congrArg (Rbtree.insertAt key _ · []) ?_
    exact Memory.map_read_congr fun a member => (kept tree a member).2
  · rw [Function.update_of_ne away]
    exact Memory.table_congr (reads other away) (data other away)
  · refine ⟨?_, (kept other a member).1, fun _ => (kept other a member).2⟩
    by_cases here : other = tree
    · subst here
      rw [Function.update_self]
      exact (inShape a).mpr (.inr member)
    · rw [Function.update_of_ne here]
      exact member

theorem lookup_member (found : Rbtree.lookup key (m.read t) = some a) : a ∈ t.members := by
  induction t with
  | nil => cases found
  | node left self right leftIh rightIh =>
    rw [Memory.read, Rbtree.lookup] at found
    rw [Shape.mem_members_node]
    split at found
    · exact .inl (Option.some.inj found).symm
    · split at found
      · exact .inr (.inl (leftIh found))
      · exact .inr (.inr (rightIh found))

/-- New data in place are an insertion. -/
theorem insertAt_map_read {node : NodeRef} {datum : Option α} {data : NodeRef → Option α}
    (found : Rbtree.lookup key (m.read t) = some node) (distinct : t.members.Nodup)
    (path : List (Rbtree.Frame (Option α))) :
    Rbtree.insertAt key datum ((m.read t).map data) path =
      Rbtree.plug ((m.read t).map (Function.update data node datum)) path := by
  induction t generalizing path with
  | nil => cases found
  | node left self right leftIh rightIh =>
    obtain ⟨leftDistinct, rightDistinct, between⟩ := List.nodup_append.mp distinct
    obtain ⟨notRight, rightDistinct⟩ := List.nodup_cons.mp rightDistinct
    have others : ∀ {s : Shape NodeRef}, node ∉ s.members →
        (m.read s).map (Function.update data node datum) = (m.read s).map data := by
      intro s outside
      refine Memory.map_read_congr fun b member => Function.update_of_ne ?_ ..
      rintro rfl
      exact outside member
    rw [Memory.read, Rbtree.lookup] at found
    rw [Memory.read, Node.map, Node.map, Rbtree.insertAt]
    by_cases same : key = m.key32 self
    · rw [if_pos same] at found ⊢
      obtain rfl : self = node := Option.some.inj found
      have notLeft : self ∉ left.members := fun member => between self member self List.mem_cons_self rfl
      rw [others notLeft, others notRight, Function.update_self]
    · rw [if_neg same] at found ⊢
      by_cases below : key < m.key32 self
      · rw [if_pos below] at found ⊢
        have here := lookup_member found
        have notRight : node ∉ right.members := fun member =>
          between node here node (List.mem_cons_of_mem _ member) rfl
        have apart : self ≠ node := fun same => between node here self List.mem_cons_self same.symm
        rw [leftIh found leftDistinct, others notRight, Function.update_of_ne apart]
        rfl
      · rw [if_neg below] at found ⊢
        have here := lookup_member found
        have notLeft : node ∉ left.members := fun member =>
          between node member node (List.mem_cons_of_mem _ here) rfl
        have apart : self ≠ node := fun same => notRight (same ▸ here)
        rw [rightIh found rightDistinct, others notLeft, Function.update_of_ne apart]
        rfl

theorem insertWith_sound_found {node : NodeRef} (sound : Sound m shapes)
    (made : tree < m.tree.next) (enough : 96 < fuel)
    (found : Rbtree.lookup key (m.read (shapes tree)) = some node) :
    ∃ m' shapes', m.insertWith fuel tree key value = some (m.data node, m') ∧
      Inserted m shapes tree key (value (m.data node)) m' shapes' := by
  obtain ⟨n, balanced⟩ := sound.balanced tree
  refine ⟨_, Function.update shapes tree (shapes tree),
    insertWith_found (sound.located made) (sound.ordered tree) balanced enough found, ?_⟩
  obtain ⟨member, keyed⟩ := (lookup_iff_member (sound.ordered tree)).mp found
  generalize value (m.data node) = datum
  have links : ((m.setData node datum).steal datum node).links tree = m.links tree := by simp
  have treeOf : ((m.setData node datum).steal datum node).treeOf = m.treeOf := by simp
  have data : ((m.setData node datum).steal datum node).data = Function.update m.data node datum := by
    simp
  have key32 : ((m.setData node datum).steal datum node).key32 = m.key32 := by simp
  have read : ((m.setData node datum).steal datum node).read = m.read :=
    Memory.read_eq (by simp) key32
  have owner : ((m.setData node datum).steal datum node).owner =
      Function.update m.owner node datum := rfl
  have confined : Confined (· ∈ (shapes tree).members) (· = node) tree m
      ((m.setData node datum).steal datum node) :=
    { next := le_rfl
      key32 := fun a _ _ => congrFun key32 a
      data := fun a _ apart => (congrFun data a).trans (Function.update_of_ne apart ..)
      owner := fun a apart => Function.update_of_ne apart ..
      treeOf := fun a _ => congrFun treeOf a
      outside := fun a _ out => Memory.get_setData_of_ne _ _ _ fun same => out (same ▸ member)
      trees := fun _ _ => rfl
      flags := rfl
      nextTree := rfl }
  have rest : ((m.setData node datum).steal datum node).node.next = m.node.next ∧
      ((m.setData node datum).steal datum node).tree = m.tree := ⟨rfl, rfl⟩
  generalize (m.setData node datum).steal datum node = m' at *
  obtain ⟨sound', reads, others⟩ := sound.change made ((sound.located made).of_links links treeOf)
    confined (fun _ inside _ => inside) (fun _ inside _ => inside)
    (fun other away => sound.apart away member)
    (fun _ => ⟨rest.1 ▸ sound.allocated tree node member, by
      rw [owner, data, Function.update_self, Function.update_self]⟩)
    (fun outside => absurd member outside) (read ▸ sound.ordered tree)
    (read ▸ sound.balanced tree) (by
      rw [rest.2]
      exact sound.freed tree made)
  refine ⟨sound', confined.nextTree, confined.trees, confined.flags, by rw [rest.2], ?_,
    fun other away => ?_, fun other a member' => ⟨?_, congrFun key32 a, fun apart => ?_⟩⟩
  · rw [Function.update_self, Memory.table, read, data]
    exact (insertAt_map_read found (sound.located made).nodup []).symm
  · rw [Function.update_of_ne away]
    exact Memory.table_congr (reads other away) (others other away)
  · by_cases here : other = tree
    · subst here
      rwa [Function.update_self]
    · rwa [Function.update_of_ne here]
  · rw [data]
    refine Function.update_of_ne ?_ ..
    rintro rfl
    rcases apart with away | away
    · exact away ((sound.treeOf other a member').symm.trans (sound.treeOf tree a member))
    · exact away keyed

/-- `trbt_insert32` and `trbt_insert32_callback` -/
theorem insertWith_sound (value : Option α → Option α) (sound : Sound m shapes)
    (made : tree < m.tree.next) (alive : (m.tree.get tree).live = true) (enough : 96 < fuel) :
    ∃ m' shapes', m.insertWith fuel tree key value = some ((m.value (shapes tree) key).join, m') ∧
      Inserted m shapes tree key (value (m.value (shapes tree) key).join) m' shapes' := by
  cases found : Rbtree.lookup key (m.read (shapes tree)) with
  | none =>
    have absent : (m.value (shapes tree) key).join = none := by simp [Memory.value, found]
    rw [absent]
    exact insertWith_sound_missing sound made alive enough found
  | some node =>
    have present : (m.value (shapes tree) key).join = m.data node := by simp [Memory.value, found]
    rw [present]
    exact insertWith_sound_found sound made enough found

end Insertion

end Sound

end Phat.Trbt
