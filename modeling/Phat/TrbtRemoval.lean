import Phat.TrbtDeletion

/-! Removing a node from memory. `delete_node` unlinks the node that is to go and no other: where
it first copies the contents of the predecessor, the predecessor ends up in the place of the node,
with what it held before. -/
namespace Phat.Trbt
open PointerTree
open Rbtree (Color Node Balanced Fits)
variable {α : Type} {own : NodeRef → Prop} {m m' m'' : Memory α} {tree : TreeRef}
  {t left right : Shape NodeRef} {path : List (Frame NodeRef)} {a b : NodeRef}

/-- What an operation on a tree leaves as it is: what nodes hold but for some, all nodes that are
not of the tree, and the other trees. -/
structure Confined (own except : NodeRef → Prop) (tree : TreeRef) (m m' : Memory α) : Prop where
  next : m.node.next ≤ m'.node.next
  key32 : ∀ a < m.node.next, ¬ except a → m'.key32 a = m.key32 a
  data : ∀ a < m.node.next, ¬ except a → m'.data a = m.data a
  owner : ∀ a, ¬ except a → m'.owner a = m.owner a
  treeOf : ∀ a < m.node.next, m'.treeOf a = m.treeOf a
  outside : ∀ a < m.node.next, ¬ own a → m'.node.get a = m.node.get a
  trees : ∀ other, other ≠ tree → m'.tree.get other = m.tree.get other
  flags : (m'.tree.get tree).flags = (m.tree.get tree).flags
  nextTree : m'.tree.next = m.tree.next

theorem Rearranged.confined {except : NodeRef → Prop} (moved : Rearranged own tree m m') :
    Confined own except tree m m' where
  next := moved.next.ge
  key32 := fun a _ _ => congrFun moved.key32 a
  data := fun a _ _ => congrFun moved.data a
  owner := fun a _ => congrFun moved.owner a
  treeOf := fun a _ => congrFun moved.treeOf a
  outside := fun a _ out => moved.outside a out
  trees := moved.trees
  flags := moved.flags tree
  nextTree := moved.nextTree

theorem Confined.weaken {except except' : NodeRef → Prop} (confined : Confined own except tree m m')
    (more : ∀ a, except a → except' a) : Confined own except' tree m m' :=
  { confined with
    key32 := fun a old kept => confined.key32 a old (mt (more a) kept)
    data := fun a old kept => confined.data a old (mt (more a) kept)
    owner := fun a kept => confined.owner a (mt (more a) kept) }

theorem Confined.trans {except : NodeRef → Prop} (first : Confined own except tree m m')
    (second : Confined own except tree m' m'') : Confined own except tree m m'' where
  next := first.next.trans second.next
  key32 := fun a old kept =>
    (second.key32 a (old.trans_le first.next) kept).trans (first.key32 a old kept)
  data := fun a old kept => (second.data a (old.trans_le first.next) kept).trans (first.data a old kept)
  owner := fun a kept => (second.owner a kept).trans (first.owner a kept)
  treeOf := fun a old => (second.treeOf a (old.trans_le first.next)).trans (first.treeOf a old)
  outside := fun a old out =>
    (second.outside a (old.trans_le first.next) out).trans (first.outside a old out)
  trees := fun other apart => (second.trees other apart).trans (first.trees other apart)
  flags := second.flags.trans first.flags
  nextTree := second.nextTree.trans first.nextTree

/-- A new node may be one that is rearranged. -/
theorem Confined.rearranged {own' except : NodeRef → Prop} (first : Confined own except tree m m')
    (second : Rearranged own' tree m' m'')
    (mine : ∀ a < m.node.next, ¬ own a → ¬ own' a) : Confined own except tree m m'' where
  next := first.next.trans second.next.ge
  key32 := fun a old kept => (congrFun second.key32 a).trans (first.key32 a old kept)
  data := fun a old kept => (congrFun second.data a).trans (first.data a old kept)
  owner := fun a kept => (congrFun second.owner a).trans (first.owner a kept)
  treeOf := fun a old => (congrFun second.treeOf a).trans (first.treeOf a old)
  outside := fun a old out => (second.outside a (mine a old out)).trans (first.outside a old out)
  trees := fun other apart => (second.trees other apart).trans (first.trees other apart)
  flags := (second.flags tree).trans first.flags
  nextTree := second.nextTree.trans first.nextTree

/-- The colour of the node that has gone is made up for. The last part is for a dummy. -/
theorem recolorChild_located {fuel n : Nat} (here : t.root = some b) (at' : Located own m tree t path)
    (fits : Fits (m.readPath path) (m.rbColor a) (n + (m.rbColor a).count))
    (enough : path.length < fuel) :
    ∃ m' path', m.recolorChild fuel a b = some m' ∧ Located own m' tree t path' ∧
      Rearranged own tree m m' ∧
      Rbtree.replaceNode (m.rbColor a) (m.read t) (m.readPath path) =
        Rbtree.plug (m'.read t) (m'.readPath path') ∧
      (m.rbColor b = .black → Rbtree.replaceNode (m.rbColor a) .leaf (m.readPath path) =
        Rbtree.plug .leaf (m'.readPath path')) := by
  have color : (m.read t).getColor = m.rbColor b := by
    rw [← Memory.getColor_read, here]
    rfl
  rw [Memory.recolorChild]
  cases gone : m.rbColor a with
  | red => exact ⟨m, path, if_neg Color.noConfusion, at', .rfl', rfl, fun _ => rfl⟩
  | black =>
    rw [if_pos rfl, Rbtree.replaceNode, Rbtree.replaceNode, color]
    by_cases red : m.rbColor b = .red
    · cases t with
      | nil => cases here
      | node left top right =>
        cases here
        refine ⟨m.setColor b .black, path, if_pos red, at'.setColor b .black,
          .setColor (at'.mem_root rfl) _, ?_, fun black => ?_⟩
        · rw [if_pos red, Memory.read_setColor at'.nodup,
            Memory.readPath_setColor_of_notMem (at'.outside (Shape.root_mem rfl))]
        · rw [red] at black
          cases black
    · rw [gone] at fits
      obtain ⟨m', done, path', at'', moved, read, result⟩ :=
        deleteCase1_located fuel here at' fits enough
      refine ⟨m', path', ?_, at'', moved, ?_, fun _ => result _⟩
      · rw [if_neg red]
        exact done
      · rw [if_neg red, read]
        exact result _

theorem Located.congr (at' : Located own m tree t path) (root : m'.root tree = m.root tree)
    (same : ∀ c, own c → m'.node.get c = m.node.get c) : Located own m' tree t path where
  focus := by
    refine at'.focus.congr root ?_ ?_
    · intro side c member
      have record := same c (at'.mine c member)
      cases side with
      | left => exact congrArg TrbtNode.left record
      | right => exact congrArg TrbtNode.right record
    · exact fun c member => congrArg TrbtNode.parent (same c (at'.mine c member))
  mine := at'.mine
  treeOf := fun c mine => (congrArg TrbtNode.tree (same c mine)).trans (at'.treeOf c mine)

theorem Located.mono {own' : NodeRef → Prop} (at' : Located own m tree t path)
    (mine : ∀ c ∈ t.members ++ pathMembers path, own' c) (treeOf : ∀ c, own' c → m.treeOf c = tree) :
    Located own' m tree t path :=
  ⟨at'.focus, mine, treeOf⟩

theorem linkChild_located {side : Side} (here : t.root = some b)
    (at' : Located own m tree (Shape.mk side t a .nil) path) :
    Located own (m.linkChild a b) tree t path ∧ (m.linkChild a b).rbColor = m.rbColor ∧
      Rearranged own tree m (m.linkChild a b) := by
  obtain ⟨links, color, moved⟩ := at'.replaceChild (Shape.root_mk ..) (some b)
  have ownB : own b := at'.mine b (List.mem_append_left _
    (Shape.mem_members_mk.mpr (.inr (.inl (Shape.root_mem here)))))
  have parent : (m.replaceChild a (some b)).parent a = above path := by
    change ((m.replaceChild a (some b)).links tree).parent a = above path
    rw [links, Links.parent_setDown]
    exact at'.parent_eq (Shape.root_mk ..)
  have same : m.linkChild a b = (m.replaceChild a (some b)).setParent b (above path) := by
    rw [Memory.linkChild, parent]
  have moved' : Rearranged own tree m (m.linkChild a b) := by
    rw [same]
    exact moved.trans (.setParent ownB _)
  refine ⟨⟨?_, ?_, ?_⟩, ?_, moved'⟩
  · have spliced := at'.focus.splice
    rw [Links.adopt, here] at spliced
    rw [same, Memory.links_setParent, links]
    exact spliced
  · intro c member
    refine at'.mine c ?_
    simp only [List.mem_append, Shape.mem_members_mk] at member ⊢
    tauto
  · intro c mine
    rw [moved'.treeOf]
    exact at'.treeOf c mine
  · rw [same, Memory.rbColor_setParent, color]

theorem get_dummyChild {c : NodeRef} (apart : c ≠ m.node.next) :
    (m.dummyChild tree).2.node.get c = m.node.get c :=
  Store.get_alloc_of_ne m.node (fun n => { n with
    tree, left := none, right := none, rbColor := .black, data := none }) apart

theorem dummyChild_confined {except : NodeRef → Prop} :
    Confined own except tree m (m.dummyChild tree).2 where
  next := Nat.le_succ _
  key32 := fun _ old _ => congrArg TrbtNode.key32 (get_dummyChild old.ne)
  data := fun _ old _ => congrArg TrbtNode.data (get_dummyChild old.ne)
  owner := fun _ _ => rfl
  treeOf := fun _ old => congrArg TrbtNode.tree (get_dummyChild old.ne)
  outside := fun _ old _ => get_dummyChild old.ne
  trees := fun _ _ => rfl
  flags := rfl
  nextTree := rfl

/-- The dummy in place of a node without children. -/
theorem dummyChild_located (at' : Located own m tree (.node .nil a .nil) path)
    (allocated : ∀ c, own c → c < m.node.next) :
    let own' : NodeRef → Prop := fun c => own c ∨ c = m.node.next
    let m₁ := (m.dummyChild tree).2
    let m' := m₁.linkChild a m.node.next
    Located own' m' tree (.node .nil m.node.next .nil) path ∧ Rearranged own' tree m₁ m' ∧
      m'.rbColor a = m.rbColor a ∧ m'.rbColor m.node.next = .black ∧
      m'.readPath path = m.readPath path := by
  intro own' m₁ m'
  have old : ∀ c, own c → m₁.node.get c = m.node.get c := fun c mine =>
    get_dummyChild (allocated c mine).ne
  have fresh : m₁.node.get m.node.next = { m.node.get m.node.next with
      tree, left := none, right := none, rbColor := .black, data := none } :=
    Store.get_alloc_self m.node (fun n => { n with
      tree, left := none, right := none, rbColor := .black, data := none })
  have at₁ : Located own' m₁ tree (.node .nil a .nil) path := by
    have kept : Located own m₁ tree (.node .nil a .nil) path := at'.congr rfl old
    refine kept.mono (fun c member => .inl (at'.mine c member)) ?_
    rintro c (mine | rfl)
    · exact (congrArg TrbtNode.tree (old c mine)).trans (at'.treeOf c mine)
    · exact congrArg TrbtNode.tree fresh
  have mineA : own a := at'.mem_root rfl
  have dummyOutside : m.node.next ∉ pathMembers path := fun member =>
    absurd (allocated _ (at'.mine _ (List.mem_append_right _ member))) (lt_irrefl _)
  obtain ⟨links, color, moved⟩ := at₁.replaceChild rfl (some m.node.next)
  have parent : (m₁.replaceChild a (some m.node.next)).parent a = above path := by
    change ((m₁.replaceChild a (some m.node.next)).links tree).parent a = above path
    rw [links, Links.parent_setDown]
    exact at₁.parent_eq rfl
  have same : m' = (m₁.replaceChild a (some m.node.next)).setParent m.node.next (above path) := by
    rw [← parent]
    rfl
  have moved' : Rearranged own' tree m₁ m' := by
    rw [same]
    exact moved.trans (.setParent (.inr rfl) _)
  have color' : m'.rbColor = m₁.rbColor := by
    rw [same, Memory.rbColor_setParent, color]
  refine ⟨⟨?_, ?_, ?_⟩, moved', ?_, ?_, ?_⟩
  · have links' : m'.links tree = ((m₁.links tree).setDown path (some m.node.next)).setParent
        m.node.next (above path) := by
      rw [same, Memory.links_setParent, links]
    obtain ⟨⟨noLeft, _⟩, noRight, _⟩ := at₁.focus.holds
    refine at₁.focus.exchange (b := m.node.next) dummyOutside ?_ ?_ ?_ ?_ ?_ ?_ ?_
    · rw [links', Links.root_setParent]
    · intro side c _
      rw [links', Links.child_setParent]
    · intro c apart _ _
      rw [links', Links.parent_setParent_of_ne _ _ apart, Links.parent_setDown]
    · intro side
      rw [links', Links.child_setParent, Links.child_setDown_of_notMem _ _ _ dummyOutside]
      cases side with
      | left => exact (congrArg TrbtNode.left fresh).trans noLeft.symm
      | right => exact (congrArg TrbtNode.right fresh).trans noRight.symm
    · rw [links', Links.parent_setParent_self]
    · exact Links.under_nil _ _
    · exact Links.under_nil _ _
  · rintro c member
    rcases List.mem_append.mp member with dummy | above
    · rw [Shape.mem_members_node] at dummy
      simp only [Shape.members_nil, List.not_mem_nil, or_self, or_false] at dummy
      exact .inr dummy
    · exact .inl (at'.mine c (List.mem_append_right _ above))
  · intro c mine
    rw [moved'.treeOf]
    exact at₁.treeOf c mine
  · rw [color']
    exact congrArg TrbtNode.rbColor (old a mineA)
  · rw [color']
    exact congrArg TrbtNode.rbColor fresh
  · refine Memory.readPath_congr fun c member => ?_
    have record := old c (at'.mine c (List.mem_append_right _ member))
    rw [color', moved'.key32]
    exact ⟨congrArg TrbtNode.rbColor record, congrArg TrbtNode.key32 record⟩

theorem dropChild_located (at' : Located own m tree (.node .nil b .nil) path) :
    Located own (m.dropChild tree b) tree .nil path ∧ (m.dropChild tree b).rbColor = m.rbColor ∧
      Rearranged own tree m (m.dropChild tree b) := by
  have same : m.dropChild tree b = m.replaceChild b none := by
    rw [Memory.dropChild, Memory.replaceChild, at'.treeOf b (at'.mem_root rfl)]
    split
    · rename_i root
      rw [root]
    · rename_i parent above
      rw [above]
      simp only [eq_comm]
  obtain ⟨links, color, moved⟩ := at'.replaceChild rfl none
  rw [same]
  refine ⟨⟨?_, ?_, ?_⟩, color, moved⟩
  · have focus : Focus (m.links tree) (.mk .left .nil b .nil) path := at'.focus
    have spliced := focus.splice
    rw [links]
    exact spliced
  · exact fun c member => at'.mine c (List.mem_append_right _ member)
  · intro c mine
    rw [moved.treeOf]
    exact at'.treeOf c mine

/-- A node with at most one child, and what is left of the tree. -/
theorem removeNode_located {except : NodeRef → Prop} {side : Side} {fuel n : Nat}
    (at' : Located own m tree (Shape.mk side t a .nil) path)
    (allocated : ∀ c, own c → c < m.node.next)
    (fits : Fits (m.readPath path) (m.rbColor a) (n + (m.rbColor a).count))
    (enough : path.length < fuel) :
    ∃ m' shape, m.removeNode fuel a = some m' ∧ Located own m' tree shape [] ∧
      Confined own except tree m m' ∧ (m'.tree.get tree).live = (m.tree.get tree).live ∧
      m'.read shape = Rbtree.replaceNode (m.rbColor a) (m.read t) (m.readPath path) := by
  have children : m.child side a = t.root ∧ m.child side.opposite a = none := by
    obtain ⟨⟨near, _⟩, far, _⟩ := Links.holds_mk.mp at'.focus.holds
    exact ⟨near, far⟩
  have only : (if (m.right a).isSome then m.right a else m.left a) = t.root := by
    cases side with
    | left =>
      have none : m.right a = none := children.2
      rw [none]
      exact children.1
    | right =>
      have none : m.left a = none := children.2
      have some : m.right a = t.root := children.1
      rw [none, some]
      cases t <;> rfl
  rw [Memory.removeNode, only]
  cases here : t.root with
  | some b =>
    obtain ⟨at₁, color, moved⟩ := linkChild_located here at'
    have readPath := Memory.readPath_eq color moved.key32
    have read := Memory.read_eq color moved.key32
    obtain ⟨m', path', done, at'', moved', result, _⟩ := recolorChild_located (a := a) here at₁
      (by rw [readPath, color]; exact fits) enough
    refine ⟨m', plug t path', done, located_plug.mpr at'', (moved.trans moved').confined, ?_, ?_⟩
    · rw [moved'.live, moved.live]
    · rw [Memory.read_plug, ← result, color, readPath, read]
  | none =>
    cases t with
    | node => cases here
    | nil =>
      have at₀ : Located own m tree (.node .nil a .nil) path := by
        cases side <;> exact at'
      have ownA : own a := at₀.mem_root rfl
      obtain ⟨at₁, moved, color, dummyColor, readPath⟩ := dummyChild_located at₀ allocated
      have start : Confined own except tree m (m.dummyChild tree).2 := dummyChild_confined
      have live₁ : ((m.dummyChild tree).2.tree.get tree).live = (m.tree.get tree).live := rfl
      have linked : (m.dummyChild (m.treeOf a)).2.linkChild a (m.dummyChild (m.treeOf a)).1 =
          (m.dummyChild tree).2.linkChild a m.node.next := by
        rw [at₀.treeOf a ownA]
        rfl
      generalize (m.dummyChild tree).2 = m₀ at *
      generalize m₀.linkChild a m.node.next = m₁ at *
      obtain ⟨m₂, path', done, at₂, moved', _, result⟩ := recolorChild_located (a := a) rfl at₁
        (by rw [readPath, color]; exact fits) enough
      obtain ⟨at₃, color₃, moved''⟩ := dropChild_located at₂
      have treeOf : m₂.treeOf a = tree := at₂.treeOf a (.inl ownA)
      have rearranged := (moved.trans moved').trans moved''
      refine ⟨m₂.dropChild tree m.node.next, plug .nil path', ?_, located_plug.mpr ?_, ?_, ?_, ?_⟩
      · simp only [linked, Option.bind_eq_bind]
        rw [show (m.dummyChild (m.treeOf a)).1 = m.node.next from rfl, done, Option.bind_some, treeOf]
      · refine at₃.mono (fun c member => ?_) fun c mine => at₃.treeOf c (.inl mine)
        rcases at₃.mine c member with mine | rfl
        · exact mine
        · exact absurd member (at₂.outside (Shape.root_mem rfl))
      · refine start.rearranged rearranged ?_
        rintro c below out (mine | rfl)
        · exact out mine
        · exact lt_irrefl _ below
      · rw [rearranged.live, live₁]
      · rw [Memory.read_plug, Memory.readPath_eq color₃ moved''.key32]
        rw [color, readPath] at result
        exact (result dummyColor).symm

section Exchange
variable {temp : NodeRef}

theorem takeChild_located (side : Side) (ownTemp : own temp)
    (child : m.child side a = t.root) (mine : ∀ b, t.root = some b → own b) :
    (m.takeChild side temp a).links tree =
        ((m.links tree).setChild side temp t.root).adopt t (some temp) ∧
      (m.takeChild side temp a).rbColor = m.rbColor ∧
      Rearranged own tree m (m.takeChild side temp a) := by
  have again : (m.setChild side temp t.root).child side temp = t.root := by
    change ((m.setChild side temp t.root).links tree).child side temp = t.root
    rw [Memory.links_setChild, Links.child_setChild_self]
  have same : m.takeChild side temp a = (m.setChild side temp t.root).adopt t.root temp := by
    simp only [Memory.takeChild, child, again]
  rw [same]
  refine ⟨?_, ?_, (Rearranged.setChild ownTemp side _).trans (.adopt mine)⟩
  · rw [Memory.links_adopt, Memory.links_setChild]
  · rw [Memory.rbColor_adopt, Memory.rbColor_setChild]

/-- The pointer in the parent, if there is one. -/
def setAbove (l : Links NodeRef) (path : List (Frame NodeRef)) (temp : NodeRef) : Links NodeRef :=
  match path with
  | [] => l
  | f :: _ => l.setChild f.side f.self (some temp)

theorem takeParent_located (here : t.root = some a) (at' : Located own m tree t path)
    (ownTemp : own temp) (apart : temp ∉ t.members ++ pathMembers path) :
    (m.takeParent temp a).links tree =
        setAbove ((m.links tree).setParent temp (above path)) path temp ∧
      (m.takeParent temp a).rbColor = m.rbColor ∧
      Rearranged own tree m (m.takeParent temp a) := by
  have parent : (m.setParent temp (above path)).parent temp = above path := by
    change ((m.setParent temp (above path)).links tree).parent temp = above path
    rw [Memory.links_setParent, Links.parent_setParent_self]
  have moved : Rearranged own tree m (m.setParent temp (above path)) := .setParent ownTemp _
  cases path with
  | nil =>
    have same : m.takeParent temp a = m.setParent temp none := by
      simp only [Memory.takeParent, at'.parent_eq here, above_nil] at parent ⊢
      rw [parent]
    rw [same]
    exact ⟨Memory.links_setParent .., Memory.rbColor_setParent .., moved⟩
  | cons f path =>
    rw [above_cons] at parent moved
    have left : (m.setParent temp (some f.self)).left f.self = some a ↔ f.side = .left := by
      have unchanged : (m.setParent temp (some f.self)).left f.self = m.left f.self := by
        change ((m.setParent temp (some f.self)).links tree).child .left f.self = _
        rw [Memory.links_setParent, Links.child_setParent]
        rfl
      rw [unchanged]
      exact at'.focus.child_iff here .left
    have same : m.takeParent temp a =
        (m.setParent temp (some f.self)).setChild f.side f.self (some temp) := by
      simp only [Memory.takeParent, at'.parent_eq here, above_cons, parent]
      cases side : f.side with
      | left => exact if_pos (left.mpr side)
      | right => exact if_neg fun child => Side.noConfusion (side.symm.trans (left.mp child))
    rw [same]
    refine ⟨?_, ?_, moved.trans (.setChild at'.mem_self _ _)⟩
    · rw [Memory.links_setChild, Memory.links_setParent]
      rfl
    · rw [Memory.rbColor_setChild, Memory.rbColor_setParent]

theorem takeRoot_located (treeOf : m.treeOf temp = tree) (isRoot : m.root tree = some a ↔ path = []) :
    (m.takeRoot temp a).links tree =
        (if path.isEmpty then { m.links tree with root := some temp } else m.links tree) ∧
      (m.takeRoot temp a).rbColor = m.rbColor ∧
      Rearranged own tree m (m.takeRoot temp a) := by
  rw [Memory.takeRoot, treeOf]
  cases path with
  | nil =>
    rw [if_pos (isRoot.mpr rfl)]
    exact ⟨Memory.links_setRoot .., rfl, .setRoot _⟩
  | cons f path =>
    rw [if_neg fun root => List.cons_ne_nil _ _ (isRoot.mp root)]
    exact ⟨rfl, rfl, .rfl'⟩

/-- From above, a node is the root only if nothing is above it. -/
theorem Located.root_iff (here : t.root = some a) (at' : Located own m tree t path) :
    m.root tree = some a ↔ path = [] := by
  constructor
  · intro root
    cases path with
    | nil => rfl
    | cons f path =>
      have down := (located_plug.mpr at').focus.down
      have member : a ∈ pathMembers (f :: path) := by
        have top : ∀ (t : Shape NodeRef) (f : Frame NodeRef) path,
            (plug t (f :: path)).root = some a → a ∈ pathMembers (f :: path) := by
          intro t f path
          induction path generalizing t f with
          | nil =>
            intro top
            rw [plug, plug, root_fill] at top
            exact Option.some.inj top ▸ List.mem_cons_self
          | cons g path ih =>
            intro top
            exact List.mem_cons_of_mem _ (List.mem_append_right _ (ih _ g top))
        exact top t f path (down.symm.trans root)
      exact absurd member (at'.outside (Shape.root_mem here))
  · rintro rfl
    exact at'.focus.down.trans here

/-- What `delete_node` does to the contents of the node that takes the place of another. -/
structure Copied (own : NodeRef → Prop) (tree : TreeRef) (temp a : NodeRef) (m m' : Memory α) :
    Prop where
  rbColor : m'.rbColor = Function.update m.rbColor temp (m.rbColor a)
  key32 : m'.key32 = Function.update m.key32 temp (m.key32 a)
  data : m'.data = Function.update m.data temp (m.data a)
  owner : m'.owner = Function.update m.owner temp (m.data a)
  treeOf : m'.treeOf = m.treeOf
  next : m'.node.next = m.node.next
  outside : ∀ b, ¬ own b → m'.node.get b = m.node.get b
  trees : ∀ other, other ≠ tree → m'.tree.get other = m.tree.get other
  flags : (m'.tree.get tree).flags = (m.tree.get tree).flags
  live : (m'.tree.get tree).live = (m.tree.get tree).live
  nextTree : m'.tree.next = m.tree.next

theorem Copied.rearranged (copied : Copied own tree temp a m m') (color : m''.rbColor = m'.rbColor)
    (moved : Rearranged own tree m' m'') : Copied own tree temp a m m'' where
  rbColor := color.trans copied.rbColor
  key32 := moved.key32.trans copied.key32
  data := moved.data.trans copied.data
  owner := moved.owner.trans copied.owner
  treeOf := moved.treeOf.trans copied.treeOf
  next := moved.next.trans copied.next
  outside := fun b out => (moved.outside b out).trans (copied.outside b out)
  trees := fun other away => (moved.trees other away).trans (copied.trees other away)
  flags := (moved.flags tree).trans copied.flags
  live := (moved.live tree).trans copied.live
  nextTree := moved.nextTree.trans copied.nextTree

theorem copyContents_located (ownTemp : own temp) :
    (m.copyContents temp a).links tree = m.links tree ∧
      Copied own tree temp a m (m.copyContents temp a) := by
  have same : m.copyContents temp a =
      (((m.setKey temp (m.key32 a)).setColor temp (m.rbColor a)).setData temp (m.data a)).steal
        (m.data a) temp := by
    simp [Memory.copyContents]
  rw [same]
  refine ⟨by simp, ?_, by simp, by simp, rfl, by simp, rfl, ?_, fun _ _ => rfl, rfl, rfl, rfl⟩
  · simp [Memory.rbColor_setColor]
  · intro b out
    have away : b ≠ temp := fun same => out (same ▸ ownTemp)
    exact (Memory.get_setData_of_ne _ _ _ away).trans
      ((Memory.get_setColor_of_ne _ _ _ away).trans (Memory.get_setKey_of_ne _ _ _ away))

theorem takePlace_located (at' : Located own m tree (.node left a right) path) (ownTemp : own temp)
    (fresh : temp ∉ (Shape.node left a right).members ++ pathMembers path) :
    Located own (m.takePlace temp a) tree (.node left temp right) path ∧
      Copied own tree temp a m (m.takePlace temp a) := by
  obtain ⟨links₁, copied⟩ := copyContents_located (m := m) (a := a) ownTemp
  generalize contents : m.copyContents temp a = m₁ at links₁ copied
  have at₁ : Located own m₁ tree (.node left a right) path := at'.of_links links₁ copied.treeOf
  obtain ⟨links₂, color₂, moved₂⟩ := takeParent_located rfl at₁ ownTemp fresh
  generalize placed : m₁.takeParent temp a = m₂ at links₂ color₂ moved₂
  have apart : a ≠ temp := by
    rintro rfl
    exact fresh (List.mem_append_left _ (Shape.root_mem rfl))
  have children : ∀ side, (m₂.links tree).child side a = (m.links tree).child side a := by
    intro side
    rw [links₂, links₁]
    cases path with
    | nil => rfl
    | cons f path =>
      refine Links.child_setChild_of_ne _ _ _ _ ?_
      rintro rfl
      exact at'.outside (Shape.root_mem rfl) List.mem_cons_self
  have root : (m₂.links tree).root = (m.links tree).root := by
    rw [links₂, links₁]
    cases path <;> rfl
  obtain ⟨⟨leftRoot, _⟩, rightRoot, _⟩ := at'.focus.holds
  have below : ∀ b, b ∈ left.members ∨ b ∈ right.members → own b := fun b member =>
    at'.mine b (List.mem_append_left _ (Shape.mem_members_node.mpr (.inr member)))
  obtain ⟨links₃, color₃, moved₃⟩ := takeChild_located .left ownTemp
    ((children .left).trans leftRoot) fun b here => below b (.inl (Shape.root_mem here))
  generalize adopted : m₂.takeChild .left temp a = m₃ at links₃ color₃ moved₃
  have right₃ : (m₃.links tree).child .right a = right.root := by
    rw [links₃, Links.child_adopt, Links.child_setChild_of_ne _ _ _ _ apart, children, rightRoot]
  obtain ⟨links₄, color₄, moved₄⟩ := takeChild_located .right ownTemp right₃
    fun b here => below b (.inr (Shape.root_mem here))
  generalize adopted' : m₃.takeChild .right temp a = m₄ at links₄ color₄ moved₄
  have root₄ : (m₄.links tree).root = (m.links tree).root := by
    rw [links₄, Links.root_adopt, Links.root_setChild, links₃, Links.root_adopt,
      Links.root_setChild, root]
  have copied₄ := ((copied.rearranged color₂ moved₂).rearranged color₃ moved₃).rearranged color₄ moved₄
  have treeOf : m₄.treeOf temp = tree := by
    rw [copied₄.treeOf]
    exact at'.treeOf temp ownTemp
  obtain ⟨links₅, color₅, moved₅⟩ := takeRoot_located (a := a) treeOf
    (by rw [← at'.root_iff rfl]; exact Iff.of_eq (congrArg (· = some a) root₄))
  have same : m.takePlace temp a = m₄.takeRoot temp a := by
    rw [Memory.takePlace, contents, placed, adopted, adopted']
  rw [← same] at links₅ color₅ moved₅
  have copied₅ := copied₄.rearranged color₅ moved₅
  have links : (m.takePlace temp a).links tree = (m.links tree).occupy path left temp right := by
    rw [links₅, links₄, links₃, links₂, links₁, Links.occupy]
    cases path with
    | nil => cases left <;> cases right <;> rfl
    | cons f path => rfl
  refine ⟨⟨?_, ?_, ?_⟩, copied₅⟩
  · rw [links]
    refine at'.focus.occupy fun member => fresh ?_
    rw [List.mem_append] at member ⊢
    exact member.imp_left fun inside => Shape.mem_members_node.mpr (.inr (List.mem_append.mp inside))
  · intro b member
    simp only [List.mem_append, Shape.mem_members_node] at member
    rcases member with (rfl | member) | member
    · exact ownTemp
    · exact below b member
    · exact at'.mine b (List.mem_append_right _ member)
  · intro b mine
    rw [copied₅.treeOf]
    exact at'.treeOf b mine

end Exchange

section Deletion
variable {temp : NodeRef}

/-- The loop for the predecessor finds the last node of a tree, below which there is at most a left
child. -/
theorem rightmost_located {t : Shape NodeRef} {path : List (Frame NodeRef)} {b : NodeRef}
    {c : Color} {n fuel : Nat} (here : t.root = some b) (at' : Located own m tree t path)
    (balanced : Balanced (m.read t) c n) (fits : Fits (m.readPath path) c n)
    (enough : (m.read t).height ≤ fuel) :
    ∃ temp below way c' n', m.rightmost fuel b = some temp ∧
      Located own m tree (.node below temp .nil) (way ++ path) ∧
      way.length < (m.read t).height ∧ (m.read t).last = some (m.key32 temp, temp) ∧
      (∀ rest, Rbtree.deleteLast (m.read t) rest =
        Rbtree.replaceNode (m.rbColor temp) (m.read below) (m.readPath way ++ rest)) ∧
      Balanced (m.read below) c' n' ∧
      Fits (m.readPath (way ++ path)) (m.rbColor temp) (n' + (m.rbColor temp).count) := by
  induction t generalizing path b c n fuel with
  | nil => cases here
  | node left self right leftIh rightIh =>
    obtain rfl : self = b := Option.some.inj here
    have rightPointer : m.right self = right.root := at'.focus.holds.2.1
    have color : m.rbColor self = c := balanced.getColor
    cases fuel with
    | zero => exact absurd enough (Nat.not_succ_le_zero _)
    | succ fuel =>
      cases right with
      | nil =>
        subst color
        obtain ⟨l, r, k, below, _, rfl, _⟩ := Rbtree.balanced_node.mp balanced
        refine ⟨self, left, [], l, k, ?_, at', Nat.succ_pos _, rfl, fun _ => rfl, below, fits⟩
        simp only [Memory.rightmost, rightPointer, Shape.root_nil]
      | node left' b' right' =>
        subst color
        obtain ⟨r, k, beside, fits'⟩ := fits.beside balanced
        have height : (m.read (.node left' b' right')).height < (m.read (.node left self
            (.node left' b' right'))).height := Nat.lt_succ_of_le (le_max_right _ _)
        obtain ⟨temp, below, way, c', n', found, at'', length, last, deleted, balanced', fits''⟩ :=
          rightIh rfl (located_right.mp at') beside fits'
            (Nat.le_of_lt_succ (height.trans_le enough))
        refine ⟨temp, below, way ++ [⟨.right, self, left⟩], c', n', ?_, ?_, ?_, last, ?_, balanced',
          ?_⟩
        · simp only [Memory.rightmost, rightPointer, Shape.root_node]
          exact found
        · rw [List.append_assoc]
          exact at''
        · rw [List.length_append]
          exact lt_of_le_of_lt length height
        · intro rest
          refine (deleted _).trans ?_
          rw [Memory.readPath, Memory.readPath, List.map_append, List.append_assoc]
          rfl
        · rw [List.append_assoc]
          exact fits''

/-- What is left of the tree's being alive once it has this shape. -/
def Memory.spared (m : Memory α) (tree : TreeRef) (shape : Shape NodeRef) : Bool :=
  (m.tree.get tree).live &&
    !decide ((m.tree.get tree).flags &&& trbtAutofree ≠ 0 ∧ shape.root = none)

theorem autofree_located (except : NodeRef → Prop) (at' : Located own m tree t []) :
    Located own (m.autofree tree) tree t [] ∧ Confined own except tree m (m.autofree tree) ∧
      (m.autofree tree).read = m.read ∧
      ((m.autofree tree).tree.get tree).live = m.spared tree t := by
  have root : m.root tree = t.root := at'.focus.down
  rw [Memory.autofree, root, Memory.spared]
  by_cases freed : (m.tree.get tree).flags &&& trbtAutofree ≠ 0 ∧ t.root = none
  · let free : TrbtTree → TrbtTree := fun t => { t with live := false }
    have same : ((m.freeTree tree).tree.get tree).root = (m.tree.get tree).root :=
      Store.get_modify_keep m.tree tree free TrbtTree.root (fun _ => rfl) tree
    have gone : ((m.freeTree tree).tree.get tree).live = false :=
      congrArg TrbtTree.live (Store.get_modify_self m.tree tree free)
    rw [if_pos freed, decide_eq_true freed, gone]
    refine ⟨at'.congr same fun _ _ => rfl, ?_, Memory.read_eq rfl rfl, by simp⟩
    exact
      { next := le_rfl
        key32 := fun _ _ _ => rfl
        data := fun _ _ _ => rfl
        owner := fun _ _ => rfl
        treeOf := fun _ _ => rfl
        outside := fun _ _ _ => rfl
        trees := fun other apart => Store.get_modify_of_ne m.tree free apart
        flags := Store.get_modify_keep m.tree tree free TrbtTree.flags (fun _ => rfl) tree
        nextTree := rfl }
  · rw [if_neg freed, decide_eq_false freed]
    exact ⟨at', Rearranged.rfl'.confined, rfl, by simp⟩

theorem moveContents_located (ownA : own a) (ownTemp : own temp) (apart : a ≠ temp) :
    (m.moveContents a temp).links tree = m.links tree ∧
      (m.moveContents a temp).rbColor = m.rbColor ∧ (m.moveContents a temp).treeOf = m.treeOf ∧
      (m.moveContents a temp).key32 a = m.key32 temp ∧
      (m.moveContents a temp).data a = m.data temp ∧
      (m.moveContents a temp).node.next = m.node.next ∧ (m.moveContents a temp).tree = m.tree ∧
      Confined own (fun b => b = a ∨ b = temp) tree m (m.moveContents a temp) := by
  refine ⟨by simp [Memory.moveContents], by simp [Memory.moveContents],
    by simp [Memory.moveContents], ?_, ?_, rfl, rfl, ?_⟩
  · simp [Memory.moveContents, apart]
  · simp [Memory.moveContents, apart]
  · exact
      { next := le_rfl
        key32 := fun b _ kept => by
          rw [not_or] at kept
          simp [Memory.moveContents, kept.1, kept.2]
        data := fun b _ kept => by
          rw [not_or] at kept
          simp [Memory.moveContents, kept.1, kept.2]
        owner := fun b kept => Function.update_of_ne (fun same => kept (.inl same)) ..
        treeOf := fun b _ => by simp [Memory.moveContents]
        outside := fun b _ out => by
          have awayA : b ≠ a := fun same => out (same ▸ ownA)
          have awayTemp : b ≠ temp := fun same => out (same ▸ ownTemp)
          refine (Memory.get_setKey_of_ne _ _ _ awayTemp).trans
            ((Memory.get_setData_of_ne _ _ _ awayTemp).trans ?_)
          exact (Memory.get_setData_of_ne _ _ _ awayA).trans (Memory.get_setKey_of_ne _ _ _ awayA)
        trees := fun _ _ => rfl
        flags := rfl
        nextTree := rfl }

/-- A node with at most one child. -/
theorem deleteNode_single (except : NodeRef → Prop) (side : Side) {fuel n : Nat}
    (at' : Located own m tree (Shape.mk side t a .nil) path)
    (allocated : ∀ c, own c → c < m.node.next)
    (fits : Fits (m.readPath path) (m.rbColor a) (n + (m.rbColor a).count))
    (enough : path.length + 1 < fuel) :
    ∃ m' shape, m.deleteNode fuel a = some m' ∧ Located own m' tree shape [] ∧
      Confined own except tree m m' ∧ (m'.tree.get tree).live = m.spared tree shape ∧
      m'.read shape = Rbtree.replaceNode (m.rbColor a) (m.read t) (m.readPath path) := by
  obtain ⟨fuel, rfl⟩ : ∃ f, fuel = f + 1 := Nat.exists_eq_add_one.mpr (by omega)
  have none : m.child side.opposite a = none := (Links.holds_mk.mp at'.focus.holds).2.1
  have single : m.deleteNode (fuel + 1) a = (m.removeNode fuel a).bind fun m' =>
      some (m'.autofree (m'.treeOf a)) := by
    cases side with
    | left =>
      have none : m.right a = Option.none := none
      simp only [Memory.deleteNode, none, Option.bind_eq_bind]
      cases m.left a <;> rfl
    | right =>
      have none : m.left a = Option.none := none
      simp only [Memory.deleteNode, none, Option.bind_eq_bind]
  obtain ⟨m₁, shape, done, at₁, confined, live, read⟩ :=
    removeNode_located at' allocated fits (Nat.succ_lt_succ_iff.mp enough)
  obtain ⟨at₂, freed, read', spared⟩ := autofree_located except at₁
  refine ⟨m₁.autofree tree, shape, ?_, at₂, confined.trans freed, ?_, ?_⟩
  · rw [single, done, Option.bind_some, at₁.treeOf a (at'.mem_root (Shape.root_mk ..))]
  · rw [spared, Memory.spared, Memory.spared, live, confined.flags]
  · rw [read', read]

/-- The place of a node of a tree. -/
theorem exists_plug {t : Shape NodeRef} (member : a ∈ t.members) :
    ∃ left right path, t = plug (.node left a right) path := by
  suffices ∀ rest, ∃ left right path, plug t rest = plug (.node left a right) path from this []
  induction t with
  | nil => cases member
  | node left self right leftIh rightIh =>
    intro rest
    rcases Shape.mem_members_node.mp member with rfl | inLeft | inRight
    · exact ⟨left, right, rest, rfl⟩
    · exact leftIh inLeft (⟨.left, self, right⟩ :: rest)
    · exact rightIh inRight (⟨.right, self, left⟩ :: rest)

theorem Memory.members_eq {s t : Shape NodeRef}
    (same : (m'.read s).toList = (m.read t).toList) : s.members = t.members := by
  rw [Memory.members_read, Memory.members_read] at same
  simpa [List.map_map, Function.comp_def] using congrArg (List.map Prod.snd) same

/-- Neither balance nor fit depends on the keys. -/
theorem balanced_recolor {c : Color} {n : Nat} (color : m'.rbColor = m.rbColor)
    (balanced : Balanced (m.read t) c n) : Balanced (m'.read t) c n := by
  induction t generalizing c n with
  | nil => exact balanced
  | node left self right leftIh rightIh =>
    have here : m.rbColor self = c := balanced.getColor
    subst here
    obtain ⟨l, r, k, below, beside, rfl, colors⟩ := Rbtree.balanced_node.mp balanced
    rw [← color] at colors ⊢
    exact Rbtree.balanced_node.mpr ⟨l, r, k, leftIh below, rightIh beside, rfl, colors⟩

theorem fits_recolor {c : Color} {n : Nat} (color : m'.rbColor = m.rbColor)
    (fits : Fits (m.readPath path) c n) : Fits (m'.readPath path) c n := by
  induction path generalizing c n with
  | nil => exact fits
  | cons f path ih =>
    obtain ⟨⟨c', other, colors⟩, rest⟩ := fits
    have here : m'.rbColor f.self = m.rbColor f.self := congrFun color f.self
    refine ⟨⟨c', balanced_recolor color other, ?_⟩, ?_⟩
    · rw [Memory.readFrame, here]
      exact colors
    · rw [Memory.readFrame, here]
      exact ih rest

section Rename
variable {f : NodeRef → NodeRef}

theorem Memory.read_rename (same : ∀ b ∈ t.members, f b = b) : (m.read t).map f = m.read t := by
  induction t with
  | nil => rfl
  | node left self right leftIh rightIh =>
    rw [Memory.read, Node.map, same self (Shape.root_mem rfl),
      leftIh fun b member => same b (Shape.mem_members_node.mpr (.inr (.inl member))),
      rightIh fun b member => same b (Shape.mem_members_node.mpr (.inr (.inr member)))]

theorem Memory.readPath_rename (same : ∀ b ∈ pathMembers path, f b = b) :
    (m.readPath path).map (Rbtree.Frame.map f) = m.readPath path := by
  induction path with
  | nil => rfl
  | cons g path ih =>
    have other : (m.read g.other).map f = m.read g.other := Memory.read_rename fun b member =>
      same b (List.mem_cons_of_mem _ (List.mem_append_left _ member))
    have rest := ih fun b member => same b (List.mem_cons_of_mem _ (List.mem_append_right _ member))
    rw [Memory.readPath_cons, List.map_cons, rest, Rbtree.Frame.map, Memory.readFrame, other,
      same g.self List.mem_cons_self]

end Rename

/-- The nodes of a tree that is read have the keys for names. -/
theorem Memory.mem_toList_read {t : Shape NodeRef} {entry : Key × NodeRef} :
    entry ∈ (m.read t).toList ↔ entry.2 ∈ t.members ∧ entry.1 = m.key32 entry.2 := by
  rw [Memory.members_read, List.mem_map]
  constructor
  · rintro ⟨b, member, rfl⟩
    exact ⟨member, rfl⟩
  · rintro ⟨member, key⟩
    exact ⟨entry.2, member, by rw [← key]⟩

theorem root_plug_isSome {left right : Shape NodeRef} :
    (plug (.node left a right) path).root ≠ none := by
  suffices ∀ t : Shape NodeRef, t.root ≠ none → (plug t path).root ≠ none from
    this _ (by simp)
  induction path with
  | nil => exact fun _ some => some
  | cons f path ih => exact fun t _ => ih _ (by simp)

theorem Memory.spared_of_root (root : t.root ≠ none) :
    m.spared tree t = (m.tree.get tree).live := by
  simp [Memory.spared, root]

/-- Once its predecessor is gone, the place of a node and its new contents go to the predecessor. -/
theorem exchange_located {shape : Shape NodeRef} (at' : Located own m tree shape [])
    (member : a ∈ shape.members) (ownTemp : own temp) (fresh : temp ∉ shape.members) :
    ∃ shape', shape'.root ≠ none ∧ Located own (m.takePlace temp a) tree shape' [] ∧
      Copied own tree temp a m (m.takePlace temp a) ∧
      (m.takePlace temp a).read shape' =
        (m.read shape).map fun b => if b = a then temp else b := by
  obtain ⟨left, right, path, rfl⟩ := exists_plug member
  have at₁ := located_plug.mp at'
  have fresh : temp ∉ (Shape.node left a right).members ++ pathMembers path := fun inside =>
    fresh ((members_plug ..).mem_iff.mpr inside)
  obtain ⟨at₂, copied⟩ := takePlace_located at₁ ownTemp fresh
  refine ⟨plug (.node left temp right) path, root_plug_isSome, located_plug.mpr at₂, copied, ?_⟩
  have away : ∀ b, b ∈ left.members ∨ b ∈ right.members ∨ b ∈ pathMembers path → b ≠ temp := by
    rintro b inside rfl
    apply fresh
    rw [List.mem_append, Shape.mem_members_node]
    tauto
  have same : ∀ b, b ∈ left.members ∨ b ∈ right.members ∨ b ∈ pathMembers path →
      (m.takePlace temp a).rbColor b = m.rbColor b ∧ (m.takePlace temp a).key32 b = m.key32 b := by
    intro b inside
    rw [copied.rbColor, copied.key32, Function.update_of_ne (away b inside),
      Function.update_of_ne (away b inside)]
    exact ⟨rfl, rfl⟩
  have distinct := at₁.focus.distinct
  rw [Shape.members, List.perm_middle.append_right _ |>.nodup_iff, List.cons_append,
    List.nodup_cons] at distinct
  have kept : ∀ b, b ∈ left.members ∨ b ∈ right.members ∨ b ∈ pathMembers path →
      (if b = a then temp else b) = b := by
    intro b inside
    refine if_neg ?_
    rintro rfl
    apply distinct.1
    rw [List.mem_append, List.mem_append]
    tauto
  rw [Memory.read_plug, Memory.read_plug, Rbtree.map_plug,
    Memory.readPath_rename fun b inside => kept b (.inr (.inr inside)),
    Memory.readPath_congr fun b inside => same b (.inr (.inr inside))]
  refine congrArg (Rbtree.plug · _) ?_
  rw [Memory.read, Memory.read, Node.map, copied.rbColor, copied.key32, Function.update_self,
    Function.update_self, if_pos rfl,
    Memory.read_rename fun b inside => kept b (.inl inside),
    Memory.read_rename fun b inside => kept b (.inr (.inl inside)),
    Memory.read_congr fun b inside => same b (.inl inside),
    Memory.read_congr fun b inside => same b (.inr (.inl inside))]

/-- The contents of a node go to its predecessor: what changes is what hangs off the node, and no
other node's key or datum. -/
theorem exchange_confined {m₁ m₂ m₃ m₄ : Memory α}
    (confined₁ : Confined own (fun b => b = a ∨ b = temp) tree m m₁)
    (key₁ : m₁.key32 a = m.key32 temp) (data₁ : m₁.data a = m.data temp)
    (next₁ : m₁.node.next = m.node.next) (tree₁ : m₁.tree = m.tree)
    (confined₂ : Confined own (fun _ => False) tree m₁ m₂) (copied : Copied own tree temp a m₂ m₃)
    (confined₄ : Confined own (fun _ => False) tree m₃ m₄) (oldA : a < m.node.next)
    (hangs : m.owner temp = m.data temp) : Confined own (· = a) tree m m₄ := by
  have old₁ : ∀ e, e < m.node.next → e < m₁.node.next := fun e old => next₁ ▸ old
  have old₃ : ∀ e, e < m.node.next → e < m₃.node.next := fun e old =>
    copied.next ▸ (old₁ e old).trans_le confined₂.next
  have kept : ∀ e, e ≠ a → e ≠ temp → ¬ (e = a ∨ e = temp) := fun e notA notTemp =>
    not_or.mpr ⟨notA, notTemp⟩
  exact
    { next := by
        rw [← next₁]
        exact confined₂.next.trans (copied.next ▸ confined₄.next)
      key32 := fun e old notA => by
        rw [confined₄.key32 e (old₃ e old) id, copied.key32]
        by_cases same : e = temp
        · rw [same, Function.update_self, confined₂.key32 a (old₁ a oldA) id, key₁]
        · rw [Function.update_of_ne same, confined₂.key32 e (old₁ e old) id,
            confined₁.key32 e old (kept e notA same)]
      data := fun e old notA => by
        rw [confined₄.data e (old₃ e old) id, copied.data]
        by_cases same : e = temp
        · rw [same, Function.update_self, confined₂.data a (old₁ a oldA) id, data₁]
        · rw [Function.update_of_ne same, confined₂.data e (old₁ e old) id,
            confined₁.data e old (kept e notA same)]
      owner := fun e notA => by
        rw [confined₄.owner e id, copied.owner]
        by_cases same : e = temp
        · rw [same, Function.update_self, confined₂.data a (old₁ a oldA) id, data₁, hangs]
        · rw [Function.update_of_ne same, confined₂.owner e id,
            confined₁.owner e (kept e notA same)]
      treeOf := fun e old => by
        rw [confined₄.treeOf e (old₃ e old), copied.treeOf, confined₂.treeOf e (old₁ e old),
          confined₁.treeOf e old]
      outside := fun e old out => by
        rw [confined₄.outside e (old₃ e old) out, copied.outside e out,
          confined₂.outside e (old₁ e old) out, confined₁.outside e old out]
      trees := fun other away => by
        rw [confined₄.trees other away, copied.trees other away, confined₂.trees other away, tree₁]
      flags := by rw [confined₄.flags, copied.flags, confined₂.flags, tree₁]
      nextTree := by rw [confined₄.nextTree, copied.nextTree, confined₂.nextTree, tree₁] }

/-- A node and its predecessor are apart from all the others. -/
theorem Located.beside_pair {below : Shape NodeRef} {way : List (Frame NodeRef)}
    (at' : Located own m tree (.node below temp .nil) (way ++ ⟨.left, a, right⟩ :: path)) :
    ∀ e, e ∈ below.members ∨ e ∈ pathMembers way ∨ e ∈ right.members ∨ e ∈ pathMembers path →
      e ≠ a ∧ e ≠ temp ∧ own e := by
  have perm : ((Shape.node below temp .nil).members ++
      pathMembers (way ++ ⟨.left, a, right⟩ :: path)).Perm (a :: temp :: (below.members ++
        (pathMembers way ++ (right.members ++ pathMembers path)))) := by
    rw [Shape.members, Shape.members_nil, List.append_assoc, List.cons_append, List.nil_append,
      pathMembers_append]
    refine List.perm_middle.trans (((List.perm_middle.append_left _).trans
      List.perm_middle).cons temp |>.trans (.swap ..))
  have distinct := perm.nodup_iff.mp at'.focus.distinct
  rw [List.nodup_cons, List.nodup_cons, List.mem_cons, not_or] at distinct
  intro e member
  have inside : e ∈ below.members ++ (pathMembers way ++ (right.members ++ pathMembers path)) := by
    rw [List.mem_append, List.mem_append, List.mem_append]
    exact member
  have there := List.mem_cons_of_mem a (List.mem_cons_of_mem temp inside)
  refine ⟨?_, ?_, at'.mine e (perm.mem_iff.mpr there)⟩
  · rintro rfl
    exact distinct.1.2 inside
  · rintro rfl
    exact distinct.2.1 inside

/-- A node with two children. -/
theorem deleteNode_pair {fuel n : Nat} {c : Color} {b d : NodeRef}
    (at' : Located own m tree (.node left a right) path)
    (leftHere : left.root = some b) (rightHere : right.root = some d)
    (allocated : ∀ c, own c → c < m.node.next) (hangs : ∀ b, own b → m.owner b = m.data b)
    (balanced : Balanced (m.read left) c n)
    (fits : Fits (m.readPath (⟨.left, a, right⟩ :: path)) c n)
    (enough : path.length + (m.read left).height + 2 < fuel) :
    ∃ m' shape, m.deleteNode fuel a = some m' ∧ Located own m' tree shape [] ∧
      Confined own (· = a) tree m m' ∧ (m'.tree.get tree).live = m.spared tree shape ∧
      m'.read shape =
        Rbtree.deleteNode (m.rbColor a) (m.read left) (m.read right) (m.readPath path) := by
  obtain ⟨fuel, rfl⟩ : ∃ f, fuel = f + 1 := Nat.exists_eq_add_one.mpr (by omega)
  have leftPointer : m.left a = some b := at'.focus.holds.1.1.trans leftHere
  have rightPointer : m.right a = some d := at'.focus.holds.2.1.trans rightHere
  obtain ⟨temp, below, way, c', n', found, atTemp, length, last, deleted, balanced', fits'⟩ :=
    rightmost_located leftHere (located_left.mp at') balanced fits
      (show (m.read left).height ≤ fuel by omega)
  have ownA : own a := at'.mem_root rfl
  have ownTemp : own temp := atTemp.mem_root rfl
  have aAbove : a ∈ pathMembers (way ++ ⟨.left, a, right⟩ :: path) := by
    rw [pathMembers_append]
    exact List.mem_append_right _ List.mem_cons_self
  have tempOutside := atTemp.outside (Shape.root_mem rfl)
  have apart : a ≠ temp := by
    rintro rfl
    exact tempOutside aAbove
  obtain ⟨links₁, color₁, treeOf₁, key₁, data₁, next₁, tree₁, confined₁⟩ :=
    moveContents_located (m := m) ownA ownTemp apart
  generalize moved : m.moveContents a temp = m₁ at *
  have at₁ : Located own m₁ tree (.node below temp .nil)
      (way ++ ⟨.left, a, right⟩ :: path) := atTemp.of_links links₁ treeOf₁
  obtain ⟨m₂, shape, done, at₂, confined₂, live₂, read₂⟩ :=
    deleteNode_single (fun _ => False) .left at₁
      (fun c mine => next₁ ▸ allocated c mine)
      (by rw [color₁]; exact fits_recolor color₁ fits')
      (show _ < fuel by rw [List.length_append, List.length_cons]; omega)
  have keysKept : (m₂.read shape).toList =
      (m₁.read (plug below (way ++ ⟨.left, a, right⟩ :: path))).toList := by
    rw [read₂, Rbtree.toList_replaceNode, Memory.read_plug, Rbtree.toList_plug]
  have members := Memory.members_eq keysKept
  have inShape : ∀ e, e ∈ shape.members ↔
      e ∈ below.members ∨ e ∈ pathMembers (way ++ ⟨.left, a, right⟩ :: path) := by
    intro e
    rw [members, (members_plug ..).mem_iff, List.mem_append]
  have tempGone : temp ∉ shape.members := by
    rw [inShape]
    rintro (inBelow | inPath)
    · have distinct := atTemp.nodup
      rw [Shape.members, Shape.members_nil] at distinct
      exact (List.nodup_append.mp distinct).2.2 temp inBelow temp (List.mem_singleton_self _) rfl
    · exact tempOutside inPath
  have aStays : a ∈ shape.members := (inShape a).mpr (.inr aAbove)
  obtain ⟨shape', rooted, at₃, copied, read₃⟩ := exchange_located at₂ aStays ownTemp tempGone
  generalize placed : m₂.takePlace temp a = m₃ at *
  obtain ⟨at₄, confined₄, read₄, live₄⟩ := autofree_located (fun _ => False) at₃
  refine ⟨m₃.autofree tree, shape', ?_, at₄, ?_, ?_, ?_⟩
  · simp only [Memory.deleteNode, leftPointer, rightPointer, Option.bind_eq_bind, found,
      Option.bind_some, moved, done, placed, at₃.treeOf a ownA]
  · exact exchange_confined confined₁ key₁ data₁ next₁ tree₁ confined₂ copied confined₄
      (allocated a ownA) (hangs temp ownTemp)
  · have root : shape.root ≠ none := by
      obtain ⟨left, right, path, rfl⟩ := exists_plug aStays
      exact root_plug_isSome
    rw [live₄, Memory.spared_of_root rooted, Memory.spared_of_root rooted, copied.live, live₂,
      Memory.spared_of_root root, tree₁]
  · have others := atTemp.beside_pair
    have renamed : ∀ e, e ∈ below.members ∨ e ∈ pathMembers way ∨ e ∈ right.members ∨
        e ∈ pathMembers path → (if e = a then temp else e) = e := fun e member =>
      if_neg (others e member).1
    have same : ∀ e, e ∈ below.members ∨ e ∈ pathMembers way ∨ e ∈ right.members ∨
        e ∈ pathMembers path → m₁.rbColor e = m.rbColor e ∧ m₁.key32 e = m.key32 e := by
      intro e member
      obtain ⟨notA, notTemp, mine⟩ := others e member
      exact ⟨congrFun color₁ e,
        confined₁.key32 e (allocated e mine) (not_or.mpr ⟨notA, notTemp⟩)⟩
    have rightNode : m.read right ≠ .leaf := by
      cases right with
      | nil => cases rightHere
      | node => simp [Memory.read]
    rw [read₄, read₃, read₂, Rbtree.map_replaceNode, Rbtree.deleteNode_last last rightNode, deleted,
      Memory.readPath_append, List.map_append, Memory.readPath_cons, List.map_cons, color₁,
      Memory.read_rename fun e member => renamed e (.inl member),
      Memory.readPath_rename fun e member => renamed e (.inr (.inl member)),
      Memory.readPath_rename fun e member => renamed e (.inr (.inr (.inr member))),
      Memory.read_congr fun e member => same e (.inl member),
      Memory.readPath_congr fun e member => same e (.inr (.inl member)),
      Memory.readPath_congr fun e member => same e (.inr (.inr (.inr member))),
      Memory.readFrame, Rbtree.Frame.map, if_pos rfl, key₁, color₁,
      Memory.read_rename fun e member => renamed e (.inr (.inr (.inl member))),
      Memory.read_congr fun e member => same e (.inr (.inr (.inl member)))]

theorem deleteNode_located {fuel n : Nat} {c : Color}
    (at' : Located own m tree (.node left a right) path)
    (allocated : ∀ c, own c → c < m.node.next) (hangs : ∀ b, own b → m.owner b = m.data b)
    (balanced : Balanced (m.read (.node left a right)) c n) (fits : Fits (m.readPath path) c n)
    (enough : path.length + (m.read (.node left a right)).height + 1 < fuel) :
    ∃ m' shape, m.deleteNode fuel a = some m' ∧ Located own m' tree shape [] ∧
      Confined own (· = a) tree m m' ∧ (m'.tree.get tree).live = m.spared tree shape ∧
      m'.read shape =
        Rbtree.deleteNode (m.rbColor a) (m.read left) (m.read right) (m.readPath path) := by
  have color : m.rbColor a = c := balanced.getColor
  subst color
  obtain ⟨l, r, k, balancedLeft, balancedRight, rfl, colors⟩ := Rbtree.balanced_node.mp balanced
  cases right with
  | nil =>
    have length : path.length + 1 < fuel := by omega
    obtain ⟨m', shape, done, at'', confined, live, read⟩ :=
      deleteNode_single _ .left at' allocated fits length
    exact ⟨m', shape, done, at'', confined, live, read.trans (Rbtree.deleteNode_leaf ..).symm⟩
  | node right₁ b right₂ =>
    cases left with
    | nil =>
      have length : path.length + 1 < fuel := by omega
      obtain ⟨m', shape, done, at'', confined, live, read⟩ :=
        deleteNode_single _ .right at' allocated fits length
      exact ⟨m', shape, done, at'', confined, live, read⟩
    | node left₁ d left₂ =>
      have height : (m.read (.node left₁ d left₂)).height + 1 ≤
          (m.read (.node (.node left₁ d left₂) a (.node right₁ b right₂))).height :=
        Nat.succ_le_succ (le_max_left _ _)
      exact deleteNode_pair at' rfl rfl allocated hangs balancedLeft
        ⟨⟨r, balancedRight, colors⟩, fits⟩ (by omega)

end Deletion

end Phat.Trbt
