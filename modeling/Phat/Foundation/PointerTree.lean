import Mathlib.Data.List.Nodup
import Mathlib.Logic.Function.Basic
import Phat.Foundation.Side

/-! Binary trees in memory, with pointers from a node to its children and to its parent. A tree
is looked at from one of its nodes: the nodes below it are a shape, those above it a path. An
edit at the node leaves the path as it is but for the pointer that leads down to the node. -/
namespace Phat.PointerTree
variable {P : Type}

/-- The nodes of a tree where they stand. -/
inductive Shape (P : Type) where
  | nil
  | node (left : Shape P) (self : P) (right : Shape P)

namespace Shape

def root : Shape P → Option P
  | nil => none
  | node _ self _ => some self

/-- The nodes from left to right. -/
def members : Shape P → List P
  | nil => []
  | node left self right => left.members ++ self :: right.members

/-- The nodes but the root. -/
def inner : Shape P → List P
  | nil => []
  | node left _ right => left.members ++ right.members

/-- A node with the child on one side first. -/
def mk : Side → Shape P → P → Shape P → Shape P
  | .left, near, self, far => node near self far
  | .right, near, self, far => node far self near

@[simp] theorem root_nil : (nil : Shape P).root = none := rfl

@[simp] theorem root_node (left right : Shape P) (self : P) :
    (node left self right).root = some self := rfl

@[simp] theorem root_mk (side : Side) (near far : Shape P) (self : P) :
    (mk side near self far).root = some self := by
  cases side <;> rfl

@[simp] theorem members_nil : (nil : Shape P).members = [] := rfl

@[simp] theorem mem_members_node {left right : Shape P} {self a : P} :
    a ∈ (node left self right).members ↔ a = self ∨ a ∈ left.members ∨ a ∈ right.members := by
  rw [members, List.mem_append, List.mem_cons]
  exact or_left_comm

theorem members_mk (side : Side) (near far : Shape P) (self : P) :
    (mk side near self far).members.Perm (self :: (near.members ++ far.members)) := by
  cases side with
  | left => exact List.perm_middle
  | right => exact List.perm_middle.trans ((List.perm_append_comm).cons self)

@[simp] theorem mem_members_mk {side : Side} {near far : Shape P} {self a : P} :
    a ∈ (mk side near self far).members ↔ a = self ∨ a ∈ near.members ∨ a ∈ far.members := by
  rw [(members_mk side near far self).mem_iff, List.mem_cons, List.mem_append]

/-- Every tree but NULL has a child on either side. -/
theorem eq_mk (side : Side) {t : Shape P} {a : P} (here : t.root = some a) :
    ∃ near far, t = mk side near a far := by
  cases t with
  | nil => cases here
  | node left self right =>
    cases here
    cases side
    · exact ⟨left, right, rfl⟩
    · exact ⟨right, left, rfl⟩

theorem mk_opposite (side : Side) (near far : Shape P) (self : P) :
    mk side.opposite near self far = mk side far self near := by
  cases side <;> rfl

theorem root_mem {t : Shape P} {a : P} (here : t.root = some a) : a ∈ t.members := by
  cases t with
  | nil => exact absurd here (by simp)
  | node left self right =>
    rw [root_node, Option.some.injEq] at here
    exact mem_members_node.mpr (.inl here.symm)

theorem inner_subset {t : Shape P} {a : P} (member : a ∈ t.inner) : a ∈ t.members := by
  cases t with
  | nil => exact member
  | node left self right => exact mem_members_node.mpr (.inr (List.mem_append.mp member))

end Shape

/-- A node above the place looked at: the side the place is on, and what is on the other. -/
structure Frame (P : Type) where
  side : Side
  self : P
  other : Shape P

def Frame.fill (f : Frame P) (t : Shape P) : Shape P := Shape.mk f.side t f.self f.other

def plug (t : Shape P) : List (Frame P) → Shape P
  | [] => t
  | f :: path => plug (f.fill t) path

def pathMembers : List (Frame P) → List P
  | [] => []
  | f :: path => f.self :: f.other.members ++ pathMembers path

/-- The node that the place looked at is a child of. -/
def above (path : List (Frame P)) : Option P := path.head?.map Frame.self

@[simp] theorem above_nil : above ([] : List (Frame P)) = none := rfl

@[simp] theorem above_cons (f : Frame P) (path : List (Frame P)) :
    above (f :: path) = some f.self := rfl

@[simp] theorem root_fill (f : Frame P) (t : Shape P) : (f.fill t).root = some f.self :=
  Shape.root_mk ..

theorem pathMembers_append (path above : List (Frame P)) :
    pathMembers (path ++ above) = pathMembers path ++ pathMembers above := by
  induction path with
  | nil => rfl
  | cons f path ih =>
    rw [List.cons_append, pathMembers, pathMembers, ih, List.append_assoc]

theorem members_plug (t : Shape P) (path : List (Frame P)) :
    (plug t path).members.Perm (t.members ++ pathMembers path) := by
  induction path generalizing t with
  | nil => simp [plug, pathMembers]
  | cons f path ih =>
    have filled := (Shape.members_mk f.side t f.other f.self).append_right (pathMembers path)
    refine (ih (f.fill t)).trans (filled.trans ?_)
    have regroup : t.members ++ pathMembers (f :: path) =
        t.members ++ f.self :: (f.other.members ++ pathMembers path) := rfl
    rw [regroup, List.cons_append, List.append_assoc]
    exact List.perm_middle.symm

structure Links (P : Type) where
  root : Option P
  parent : P → Option P
  child : Side → P → Option P

namespace Links

/-- The parent pointer of the root of a shape, if it has one. -/
def Under (m : Links P) (above : Option P) (t : Shape P) : Prop :=
  ∀ a, t.root = some a → m.parent a = above

/-- The pointers between the nodes of a shape. -/
def Holds (m : Links P) : Shape P → Prop
  | .nil => True
  | .node left self right =>
      (m.child .left self = left.root ∧ m.Under (some self) left ∧ m.Holds left) ∧
      (m.child .right self = right.root ∧ m.Under (some self) right ∧ m.Holds right)

/-- The pointer that leads down to the place looked at. -/
def down (m : Links P) : List (Frame P) → Option P
  | [] => m.root
  | f :: _ => m.child f.side f.self

/-- The pointers between the nodes of a path, and below it but for the place looked at. -/
def Around (m : Links P) : List (Frame P) → Prop
  | [] => True
  | f :: path =>
      (m.child f.side.opposite f.self = f.other.root ∧ m.Under (some f.self) f.other ∧
        m.Holds f.other) ∧
      m.down path = some f.self ∧ m.parent f.self = above path ∧ m.Around path

@[simp] theorem under_nil (m : Links P) (above : Option P) : m.Under above .nil := by
  intro a here
  exact absurd here (by simp)

@[simp] theorem under_node (m : Links P) (above : Option P) (left right : Shape P) (self : P) :
    m.Under above (.node left self right) ↔ m.parent self = above := by
  simp [Under]

@[simp] theorem under_mk (m : Links P) (above : Option P) (side : Side) (near far : Shape P)
    (self : P) : m.Under above (Shape.mk side near self far) ↔ m.parent self = above := by
  simp [Under]

@[simp] theorem holds_nil (m : Links P) : m.Holds .nil := trivial

theorem holds_mk {m : Links P} {side : Side} {near far : Shape P} {self : P} :
    m.Holds (Shape.mk side near self far) ↔
      (m.child side self = near.root ∧ m.Under (some self) near ∧ m.Holds near) ∧
      (m.child side.opposite self = far.root ∧ m.Under (some self) far ∧ m.Holds far) := by
  cases side with
  | left => exact Iff.rfl
  | right => exact and_comm

end Links

/-- A tree in memory, looked at from one place. -/
structure Focus (m : Links P) (t : Shape P) (path : List (Frame P)) : Prop where
  holds : m.Holds t
  around : m.Around path
  down : m.down path = t.root
  under : m.Under (above path) t
  distinct : (t.members ++ pathMembers path).Nodup

/-- Looking at a child instead. -/
theorem focus_child {m : Links P} {side : Side} {near far : Shape P} {self : P}
    {path : List (Frame P)} :
    Focus m (Shape.mk side near self far) path ↔ Focus m near (⟨side, self, far⟩ :: path) := by
  have same : ((Shape.mk side near self far).members ++ pathMembers path).Perm
      (near.members ++ pathMembers (⟨side, self, far⟩ :: path)) := by
    refine ((Shape.members_mk side near far self).append_right _).trans ?_
    rw [pathMembers, List.cons_append, List.append_assoc]
    exact List.perm_middle.symm
  constructor
  · rintro ⟨holds, around, down, under, distinct⟩
    obtain ⟨⟨near_root, near_under, near_holds⟩, far_holds⟩ := Links.holds_mk.mp holds
    rw [Links.under_mk] at under
    rw [Shape.root_mk] at down
    exact ⟨near_holds, ⟨far_holds, down, under, around⟩, near_root, near_under,
      same.nodup_iff.mp distinct⟩
  · rintro ⟨near_holds, ⟨far_holds, down, under, around⟩, near_root, near_under, distinct⟩
    refine ⟨Links.holds_mk.mpr ⟨⟨near_root, near_under, near_holds⟩, far_holds⟩, around, ?_, ?_,
      same.nodup_iff.mpr distinct⟩
    · rw [Shape.root_mk]
      exact down
    · rw [Links.under_mk]
      exact under

/-- A parent tells by its pointers on which side a node is. -/
theorem Focus.child_iff {m : Links P} {t : Shape P} {f : Frame P} {path : List (Frame P)} {a : P}
    (focus : Focus m t (f :: path)) (here : t.root = some a) (side : Side) :
    m.child side f.self = some a ↔ f.side = side := by
  have down : m.child f.side f.self = some a := focus.down.trans here
  constructor
  · intro child
    by_contra apart
    have other : m.child side f.self = f.other.root := by
      rw [Side.eq_opposite (Ne.symm apart)]
      exact focus.around.1.1
    have inOther : a ∈ f.other.members := Shape.root_mem (other.symm.trans child)
    have disjoint := (List.nodup_append.mp focus.distinct).2.2 a (Shape.root_mem here) a
    exact disjoint (List.mem_cons_of_mem _ (List.mem_append_left _ inOther)) rfl
  · rintro rfl
    exact down

namespace Links
variable {m m' : Links P}

/-- The pointers of the nodes of a shape are all that matters, without the parent of its root. -/
theorem Holds.congr {t : Shape P} (holds : m.Holds t)
    (children : ∀ side, ∀ a ∈ t.members, m'.child side a = m.child side a)
    (parents : ∀ a ∈ t.inner, m'.parent a = m.parent a) : m'.Holds t := by
  induction t with
  | nil => trivial
  | node left self right leftIh rightIh =>
    obtain ⟨⟨leftRoot, leftUnder, leftHolds⟩, ⟨rightRoot, rightUnder, rightHolds⟩⟩ := holds
    have inLeft : ∀ a ∈ left.members, a ∈ (Shape.node left self right).inner := fun a member =>
      List.mem_append_left _ member
    have inRight : ∀ a ∈ right.members, a ∈ (Shape.node left self right).inner := fun a member =>
      List.mem_append_right _ member
    have top : self ∈ (Shape.node left self right).members := Shape.root_mem rfl
    refine ⟨⟨?_, ?_, ?_⟩, ⟨?_, ?_, ?_⟩⟩
    · rw [children .left self top, leftRoot]
    · intro a here
      rw [parents a (inLeft a (Shape.root_mem here)), leftUnder a here]
    · exact leftIh leftHolds
        (fun side a member => children side a (Shape.inner_subset (inLeft a member)))
        fun a member => parents a (inLeft a (Shape.inner_subset member))
    · rw [children .right self top, rightRoot]
    · intro a here
      rw [parents a (inRight a (Shape.root_mem here)), rightUnder a here]
    · exact rightIh rightHolds
        (fun side a member => children side a (Shape.inner_subset (inRight a member)))
        fun a member => parents a (inRight a (Shape.inner_subset member))

theorem Under.congr {t : Shape P} {above : Option P} (under : m.Under above t)
    (parents : ∀ a, t.root = some a → m'.parent a = m.parent a) : m'.Under above t := by
  intro a here
  rw [parents a here, under a here]

/-- The pointer down to the place looked at is not one of those around it. -/
theorem Around.congr {path : List (Frame P)} (around : m.Around path)
    (root : m'.root = m.root ∨ path = [])
    (children : ∀ side, ∀ a ∈ pathMembers path,
      m'.child side a = m.child side a ∨ ∃ f, path.head? = some f ∧ f.side = side ∧ f.self = a)
    (parents : ∀ a ∈ pathMembers path, m'.parent a = m.parent a)
    (distinct : (pathMembers path).Nodup) : m'.Around path := by
  induction path with
  | nil => trivial
  | cons f path ih =>
    obtain ⟨⟨otherRoot, otherUnder, otherHolds⟩, down, under, around⟩ := around
    have distinctBelow := distinct
    rw [pathMembers, List.cons_append, List.nodup_cons, List.nodup_append] at distinctBelow
    obtain ⟨selfApart, otherDistinct, pathDistinct, otherApart⟩ := distinctBelow
    have top : f.self ∈ pathMembers (f :: path) := List.mem_cons_self
    have inOther : ∀ a ∈ f.other.members, a ∈ pathMembers (f :: path) := fun a member =>
      List.mem_cons_of_mem _ (List.mem_append_left _ member)
    have inPath : ∀ a ∈ pathMembers path, a ∈ pathMembers (f :: path) := fun a member =>
      List.mem_cons_of_mem _ (List.mem_append_right _ member)
    have apart : ∀ a, a ∈ f.other.members ∨ a ∈ pathMembers path → a ≠ f.self := by
      rintro a member rfl
      exact selfApart (List.mem_append.mpr member)
    have same : ∀ side a, a ∈ f.other.members ∨ a ∈ pathMembers path →
        m'.child side a = m.child side a := by
      intro side a member
      rcases children side a (member.elim (inOther a) (inPath a)) with same | ⟨f', head, _, here⟩
      · exact same
      · rw [List.head?_cons, Option.some.injEq] at head
        exact absurd (head ▸ here.symm) (apart a member)
    have rootSame : m'.root = m.root := root.resolve_right (List.cons_ne_nil _ _)
    refine ⟨⟨?_, ?_, ?_⟩, ?_, ?_, ?_⟩
    · rcases children f.side.opposite f.self top with same | ⟨f', head, side, _⟩
      · rw [same, otherRoot]
      · rw [List.head?_cons, Option.some.injEq] at head
        exact absurd (head ▸ side) f.side.ne_opposite
    · exact otherUnder.congr fun a here => parents a (inOther a (Shape.root_mem here))
    · exact otherHolds.congr (fun side a member => same side a (.inl member))
        fun a member => parents a (inOther a (Shape.inner_subset member))
    · cases path with
      | nil =>
        rw [Links.down, rootSame]
        exact down
      | cons g path =>
        rw [Links.down, same g.side g.self (.inr List.mem_cons_self)]
        exact down
    · rw [parents f.self top, under]
    · exact ih around (.inl rootSame) (fun side a member => .inl (same side a (.inr member)))
        (fun a member => parents a (inPath a member)) pathDistinct

end Links

section Edits
variable [DecidableEq P] {m m' : Links P} {t : Shape P} {path : List (Frame P)} {a : P}

namespace Links

def setParent (m : Links P) (a : P) (above : Option P) : Links P :=
  { m with parent := Function.update m.parent a above }

def setChild (m : Links P) (side : Side) (a : P) (child : Option P) : Links P :=
  { m with child := fun side' b => if side' = side ∧ b = a then child else m.child side' b }

/-- Lead down to something else. -/
def setDown (m : Links P) (path : List (Frame P)) (child : Option P) : Links P :=
  match path with
  | [] => { m with root := child }
  | f :: _ => m.setChild f.side f.self child

/-- Give the root of a shape, if it has one, a parent. -/
def adopt (m : Links P) (t : Shape P) (above : Option P) : Links P :=
  match t.root with
  | none => m
  | some a => m.setParent a above

@[simp] theorem root_setParent (m : Links P) (a : P) (above : Option P) :
    (m.setParent a above).root = m.root := rfl

@[simp] theorem child_setParent (m : Links P) (a : P) (above : Option P) :
    (m.setParent a above).child = m.child := rfl

@[simp] theorem parent_setParent_self (m : Links P) (a : P) (above : Option P) :
    (m.setParent a above).parent a = above := by
  simp [setParent]

theorem parent_setParent_of_ne (m : Links P) (above : Option P) {a b : P} (apart : b ≠ a) :
    (m.setParent a above).parent b = m.parent b := by
  simp [setParent, apart]

@[simp] theorem root_setChild (m : Links P) (side : Side) (a : P) (child : Option P) :
    (m.setChild side a child).root = m.root := rfl

@[simp] theorem parent_setChild (m : Links P) (side : Side) (a : P) (child : Option P) :
    (m.setChild side a child).parent = m.parent := rfl

@[simp] theorem child_setChild_self (m : Links P) (side : Side) (a : P) (child : Option P) :
    (m.setChild side a child).child side a = child := by
  simp [setChild]

theorem child_setChild_of_ne (m : Links P) (side side' : Side) (child : Option P) {a b : P}
    (apart : b ≠ a) : (m.setChild side a child).child side' b = m.child side' b := by
  simp [setChild, apart]

@[simp] theorem child_setChild_opposite (m : Links P) (side : Side) (a b : P) (child : Option P) :
    (m.setChild side a child).child side.opposite b = m.child side.opposite b := by
  simp [setChild]

theorem child_setChild_of_side {side side' : Side} (other : side' ≠ side) (m : Links P) (a b : P)
    (child : Option P) : (m.setChild side a child).child side' b = m.child side' b := by
  simp [setChild, other]

@[simp] theorem parent_setDown (m : Links P) (path : List (Frame P)) (child : Option P) :
    (m.setDown path child).parent = m.parent := by
  cases path <;> rfl

@[simp] theorem down_setDown (m : Links P) (path : List (Frame P)) (child : Option P) :
    (m.setDown path child).down path = child := by
  cases path with
  | nil => rfl
  | cons f path => simp [setDown, down]

theorem root_setDown (m : Links P) (path : List (Frame P)) (child : Option P) :
    (m.setDown path child).root = m.root ∨ path = [] := by
  cases path with
  | nil => exact .inr rfl
  | cons f path => exact .inl rfl

theorem child_setDown (m : Links P) (path : List (Frame P)) (child : Option P) (side : Side) (a : P) :
    (m.setDown path child).child side a = m.child side a ∨
      ∃ f, path.head? = some f ∧ f.side = side ∧ f.self = a := by
  cases path with
  | nil => exact .inl rfl
  | cons f path =>
    by_cases here : side = f.side ∧ a = f.self
    · exact .inr ⟨f, rfl, here.1.symm, here.2.symm⟩
    · simp [setDown, setChild, here]

theorem child_setDown_of_notMem (m : Links P) (child : Option P) (side : Side)
    (outside : a ∉ pathMembers path) : (m.setDown path child).child side a = m.child side a := by
  rcases m.child_setDown path child side a with same | ⟨f, head, _, rfl⟩
  · exact same
  · cases path with
    | nil => exact absurd head (by simp)
    | cons g path =>
      rw [List.head?_cons, Option.some.injEq] at head
      exact absurd (head ▸ List.mem_cons_self) outside

@[simp] theorem root_adopt (m : Links P) (t : Shape P) (above : Option P) :
    (m.adopt t above).root = m.root := by
  rw [adopt]
  split <;> rfl

@[simp] theorem child_adopt (m : Links P) (t : Shape P) (above : Option P) :
    (m.adopt t above).child = m.child := by
  rw [adopt]
  split <;> rfl

theorem under_adopt (m : Links P) (t : Shape P) (above : Option P) :
    (m.adopt t above).Under above t := by
  intro a here
  rw [adopt, here]
  exact m.parent_setParent_self a above

theorem parent_adopt_of_ne (m : Links P) (above : Option P) (apart : t.root ≠ some a) :
    (m.adopt t above).parent a = m.parent a := by
  rw [adopt]
  split
  · rfl
  · rename_i b here
    refine m.parent_setParent_of_ne above ?_
    rintro rfl
    exact apart here

end Links

omit [DecidableEq P] in
/-- An edit at the place looked at. -/
theorem Focus.edit {t' : Shape P} (focus : Focus m t path) (holds : m'.Holds t')
    (root : m'.root = m.root ∨ path = [])
    (children : ∀ side, ∀ a ∈ pathMembers path,
      m'.child side a = m.child side a ∨ ∃ f, path.head? = some f ∧ f.side = side ∧ f.self = a)
    (parents : ∀ a ∈ pathMembers path, m'.parent a = m.parent a)
    (down : m'.down path = t'.root) (under : m'.Under (above path) t')
    (distinct : (t'.members ++ pathMembers path).Nodup) : Focus m' t' path :=
  ⟨holds, focus.around.congr root children parents (List.nodup_append.mp focus.distinct).2.1, down,
    under, distinct⟩

omit [DecidableEq P] in
/-- The pointers of the nodes of the tree are all that matters. -/
theorem Focus.congr (focus : Focus m t path) (root : m'.root = m.root)
    (children : ∀ side, ∀ a ∈ t.members ++ pathMembers path, m'.child side a = m.child side a)
    (parents : ∀ a ∈ t.members ++ pathMembers path, m'.parent a = m.parent a) : Focus m' t path := by
  have below : ∀ a ∈ t.members, a ∈ t.members ++ pathMembers path := fun a member =>
    List.mem_append_left _ member
  have above : ∀ a ∈ pathMembers path, a ∈ t.members ++ pathMembers path := fun a member =>
    List.mem_append_right _ member
  refine focus.edit ?_ (.inl root) (fun side a member => .inl (children side a (above a member)))
    (fun a member => parents a (above a member)) ?_ ?_ focus.distinct
  · exact focus.holds.congr (fun side a member => children side a (below a member))
      fun a member => parents a (below a (Shape.inner_subset member))
  · have down := focus.down
    cases path with
    | nil => exact root.trans down
    | cons f path => exact (children f.side f.self (above f.self List.mem_cons_self)).trans down
  · exact focus.under.congr fun a here => parents a (below a (Shape.root_mem here))

omit [DecidableEq P] in
theorem root_ne_of_inner (distinct : t.members.Nodup) (inner : a ∈ t.inner) : t.root ≠ some a := by
  cases t with
  | nil => simp
  | node left self right =>
    have apart := (List.nodup_cons.mp (List.perm_middle.nodup_iff.mp distinct)).1
    rintro here
    rw [Shape.root_node, Option.some.injEq] at here
    exact apart (here ▸ inner)

/-- The place of a node that has but one child goes to the child. -/
theorem Focus.splice {side : Side} (focus : Focus m (Shape.mk side t a .nil) path) :
    Focus ((m.setDown path t.root).adopt t (above path)) t path := by
  have distinct := focus.distinct
  rw [((Shape.members_mk side t .nil a).append_right _).nodup_iff, Shape.members_nil,
    List.append_nil, List.cons_append, List.nodup_cons] at distinct
  have distinct := distinct.2
  obtain ⟨below, _, apart⟩ := List.nodup_append.mp distinct
  have outside : ∀ b ∈ t.members, b ∉ pathMembers path := fun b member member' =>
    apart b member b member' rfl
  have holds := (Links.holds_mk.mp focus.holds).1.2.2
  refine focus.edit ?_ ?_ ?_ ?_ ?_ (Links.under_adopt _ t _) distinct
  · refine holds.congr ?_ ?_
    · intro side b member
      rw [Links.child_adopt, Links.child_setDown_of_notMem _ _ _ (outside b member)]
    · intro b member
      rw [Links.parent_adopt_of_ne _ _ (root_ne_of_inner below member), Links.parent_setDown]
  · rw [Links.root_adopt]
    exact Links.root_setDown ..
  · intro side b _
    rw [Links.child_adopt]
    exact Links.child_setDown ..
  · intro b member
    have away : t.root ≠ some b := fun here => outside b (Shape.root_mem here) member
    rw [Links.parent_adopt_of_ne _ _ away, Links.parent_setDown]
  · have unchanged : ∀ m : Links P, (m.adopt t (above path)).down path = m.down path := by
      intro m
      cases path with
      | nil => exact Links.root_adopt ..
      | cons f path => rw [Links.down, Links.down, Links.child_adopt]
    rw [unchanged, Links.down_setDown]

/-- A new node where there is none. -/
theorem Focus.put (focus : Focus m .nil path) (fresh : a ∉ pathMembers path)
    (root : m'.root = (m.setDown path (some a)).root)
    (children : ∀ side b, b ≠ a → m'.child side b = (m.setDown path (some a)).child side b)
    (parents : ∀ b, b ≠ a → m'.parent b = m.parent b)
    (bare : ∀ side, m'.child side a = none) (parent : m'.parent a = above path) :
    Focus m' (.node .nil a .nil) path := by
  have apart : ∀ b ∈ pathMembers path, b ≠ a := fun b member same => fresh (same ▸ member)
  refine focus.edit ?_ ?_ ?_ ?_ ?_ ?_ ?_
  · exact ⟨⟨bare .left, Links.under_nil _ _, trivial⟩, bare .right, Links.under_nil _ _, trivial⟩
  · rw [root]
    exact Links.root_setDown ..
  · intro side b member
    rw [children side b (apart b member)]
    exact Links.child_setDown ..
  · exact fun b member => parents b (apart b member)
  · cases path with
    | nil => exact root
    | cons f path =>
      rw [Links.down, children f.side f.self (apart f.self List.mem_cons_self)]
      exact Links.down_setDown m (f :: path) (some a)
  · rw [Links.under_node]
    exact parent
  · exact List.nodup_cons.mpr ⟨fresh, focus.distinct⟩

/-- Another node takes the place of one, with its children. -/
theorem Focus.exchange {left right : Shape P} {b : P} (focus : Focus m (.node left a right) path)
    (fresh : b ∉ left.members ++ right.members ++ pathMembers path)
    (root : m'.root = (m.setDown path (some b)).root)
    (children : ∀ side c, c ≠ b → m'.child side c = (m.setDown path (some b)).child side c)
    (parents : ∀ c, c ≠ b → left.root ≠ some c → right.root ≠ some c → m'.parent c = m.parent c)
    (copied : ∀ side, m'.child side b = m.child side a) (parent : m'.parent b = above path)
    (leftParent : m'.Under (some b) left) (rightParent : m'.Under (some b) right) :
    Focus m' (.node left b right) path := by
  have distinct := focus.distinct
  rw [Shape.members, List.perm_middle.append_right _ |>.nodup_iff, List.cons_append,
    List.nodup_cons] at distinct
  have distinct := distinct.2
  obtain ⟨⟨leftDistinct, rightDistinct, between⟩, _, apart⟩ :=
    (List.nodup_append.mp distinct).imp_left List.nodup_append.mp
  have ne : ∀ c, c ∈ left.members ∨ c ∈ right.members ∨ c ∈ pathMembers path → c ≠ b := by
    rintro c member rfl
    apply fresh
    rw [List.append_assoc, List.mem_append, List.mem_append]
    exact member
  have inLeft : ∀ c ∈ left.members, c ∉ right.members ∧ c ∉ pathMembers path := fun c member =>
    ⟨fun member' => between c member c member' rfl,
      fun member' => apart c (List.mem_append_left _ member) c member' rfl⟩
  have inRight : ∀ c ∈ right.members, c ∉ left.members ∧ c ∉ pathMembers path := fun c member =>
    ⟨fun member' => between c member' c member rfl,
      fun member' => apart c (List.mem_append_right _ member) c member' rfl⟩
  obtain ⟨⟨leftRoot, _, leftHolds⟩, ⟨rightRoot, _, rightHolds⟩⟩ := focus.holds
  refine focus.edit ⟨⟨?_, leftParent, ?_⟩, ?_, rightParent, ?_⟩ ?_ ?_ ?_ ?_ ?_ ?_
  · rw [copied, leftRoot]
  · refine leftHolds.congr ?_ ?_
    · intro side c member
      rw [children side c (ne c (.inl member)), Links.child_setDown_of_notMem _ _ _ (inLeft c member).2]
    · intro c member
      have inside := Shape.inner_subset member
      exact parents c (ne c (.inl inside)) (root_ne_of_inner leftDistinct member)
        fun here => (inLeft c inside).1 (Shape.root_mem here)
  · rw [copied, rightRoot]
  · refine rightHolds.congr ?_ ?_
    · intro side c member
      rw [children side c (ne c (.inr (.inl member))),
        Links.child_setDown_of_notMem _ _ _ (inRight c member).2]
    · intro c member
      have inside := Shape.inner_subset member
      exact parents c (ne c (.inr (.inl inside)))
        (fun here => (inRight c inside).1 (Shape.root_mem here))
        (root_ne_of_inner rightDistinct member)
  · rw [root]
    exact Links.root_setDown ..
  · intro side c member
    rw [children side c (ne c (.inr (.inr member)))]
    exact Links.child_setDown ..
  · intro c member
    exact parents c (ne c (.inr (.inr member)))
      (fun here => (inLeft c (Shape.root_mem here)).2 member)
      (fun here => (inRight c (Shape.root_mem here)).2 member)
  · cases path with
    | nil => exact root
    | cons f path =>
      rw [Links.down, children f.side f.self (ne f.self (.inr (.inr List.mem_cons_self)))]
      exact Links.down_setDown m (f :: path) (some b)
  · rw [Links.under_node]
    exact parent
  · rw [Shape.members, List.perm_middle.append_right _ |>.nodup_iff, List.cons_append,
      List.nodup_cons]
    exact ⟨fresh, distinct⟩

/-- The pointers that have to be assigned for `b` to have these children and to be in this place. -/
def Links.occupy (m : Links P) (path : List (Frame P)) (left : Shape P) (b : P) (right : Shape P) :
    Links P :=
  (((((m.setParent b (above path)).setDown path (some b)).setChild .left b left.root).adopt left
    (some b)).setChild .right b right.root).adopt right (some b)

theorem Focus.occupy {left right : Shape P} {b : P} (focus : Focus m (.node left a right) path)
    (fresh : b ∉ left.members ++ right.members ++ pathMembers path) :
    Focus (m.occupy path left b right) (.node left b right) path := by
  obtain ⟨⟨leftRoot, _⟩, rightRoot, _⟩ := focus.holds
  have away : ∀ t : Shape P, t = left ∨ t = right → t.root ≠ some b := by
    rintro t (rfl | rfl) here
    · exact fresh (List.mem_append_left _ (List.mem_append_left _ (Shape.root_mem here)))
    · exact fresh (List.mem_append_left _ (List.mem_append_right _ (Shape.root_mem here)))
  have distinct := focus.distinct
  rw [Shape.members, List.perm_middle.append_right _ |>.nodup_iff, List.cons_append,
    List.nodup_cons] at distinct
  have between : ∀ c, left.root = some c → right.root ≠ some c := by
    intro c here here'
    obtain ⟨_, _, apart⟩ := List.nodup_append.mp (List.nodup_append.mp distinct.2).1
    exact apart c (Shape.root_mem here) c (Shape.root_mem here') rfl
  have root : (m.occupy path left b right).root = (m.setDown path (some b)).root := by
    rw [Links.occupy, Links.root_adopt, Links.root_setChild, Links.root_adopt, Links.root_setChild]
    cases path <;> rfl
  have children : ∀ side c, c ≠ b →
      (m.occupy path left b right).child side c = (m.setDown path (some b)).child side c := by
    intro side c apart
    rw [Links.occupy, Links.child_adopt, Links.child_setChild_of_ne _ _ _ _ apart,
      Links.child_adopt, Links.child_setChild_of_ne _ _ _ _ apart]
    cases path <;> rfl
  have parents : ∀ c, c ≠ b → left.root ≠ some c → right.root ≠ some c →
      (m.occupy path left b right).parent c = m.parent c := by
    intro c apart notLeft notRight
    rw [Links.occupy, Links.parent_adopt_of_ne _ _ notRight, Links.parent_setChild,
      Links.parent_adopt_of_ne _ _ notLeft, Links.parent_setChild, Links.parent_setDown,
      Links.parent_setParent_of_ne _ _ apart]
  refine focus.exchange fresh root children parents ?_ ?_ ?_ ?_
  · intro side
    rw [Links.occupy, Links.child_adopt]
    cases side with
    | left =>
      rw [Links.child_setChild_of_side Side.noConfusion, Links.child_adopt,
        Links.child_setChild_self, leftRoot]
    | right => rw [Links.child_setChild_self, rightRoot]
  · rw [Links.occupy, Links.parent_adopt_of_ne _ _ (away right (.inr rfl)), Links.parent_setChild,
      Links.parent_adopt_of_ne _ _ (away left (.inl rfl)), Links.parent_setChild,
      Links.parent_setDown, Links.parent_setParent_self]
  · intro c here
    rw [Links.occupy, Links.parent_adopt_of_ne _ _ (between c here), Links.parent_setChild]
    exact Links.under_adopt _ left _ c here
  · exact Links.under_adopt _ right _

/-- `x` goes down to the given side, and the node `y` on the other side of it comes up. -/
def Links.rotate (m : Links P) (side : Side) (path : List (Frame P)) (x y : P) (inner : Shape P) :
    Links P :=
  ((((m.setDown path (some y)).setParent y (above path)).setParent x (some y)).setChild
    side.opposite x inner.root |>.adopt inner (some x)).setChild side y (some x)

namespace Links
variable {side : Side} {x y b : P} {inner : Shape P}

theorem root_rotate : (m.rotate side path x y inner).root = (m.setDown path (some y)).root := by
  rw [rotate, root_setChild, root_adopt, root_setChild, root_setParent, root_setParent]

theorem child_rotate_of_ne (side' : Side) (awayX : b ≠ x) (awayY : b ≠ y) :
    (m.rotate side path x y inner).child side' b = (m.setDown path (some y)).child side' b := by
  rw [rotate, child_setChild_of_ne _ _ _ _ awayY, child_adopt, child_setChild_of_ne _ _ _ _ awayX,
    child_setParent, child_setParent]

theorem parent_rotate_of_ne (awayX : b ≠ x) (awayY : b ≠ y) (away : inner.root ≠ some b) :
    (m.rotate side path x y inner).parent b = m.parent b := by
  rw [rotate, parent_setChild, parent_adopt_of_ne _ _ away, parent_setChild,
    parent_setParent_of_ne _ _ awayX, parent_setParent_of_ne _ _ awayY, parent_setDown]

end Links

omit [DecidableEq P] in
/-- The nodes of a place before a rotation. -/
theorem Shape.members_rotate_from (side : Side) (near inner far : Shape P) (x y : P) :
    (Shape.mk side near x (Shape.mk side inner y far)).members.Perm
      (x :: y :: (near.members ++ (inner.members ++ far.members))) := by
  refine (Shape.members_mk side near _ x).trans (.cons x ?_)
  exact ((Shape.members_mk side inner far y).append_left _).trans List.perm_middle

omit [DecidableEq P] in
/-- The nodes of a place after a rotation. -/
theorem Shape.members_rotate_to (side : Side) (near inner far : Shape P) (x y : P) :
    (Shape.mk side (Shape.mk side near x inner) y far).members.Perm
      (x :: y :: (near.members ++ (inner.members ++ far.members))) := by
  refine (Shape.members_mk side _ far y).trans ?_
  refine (((Shape.members_mk side near inner x).append_right _).cons y).trans ?_
  rw [List.cons_append, List.append_assoc]
  exact .swap x y _

/-- The pointers that `Links.rotate` assigns are those of the rotated tree. -/
theorem Focus.rotate {side : Side} {near inner far : Shape P} {x y : P}
    (focus : Focus m (Shape.mk side near x (Shape.mk side inner y far)) path) :
    Focus (m.rotate side path x y inner) (Shape.mk side (Shape.mk side near x inner) y far) path := by
  have before := (Shape.members_rotate_from side near inner far x y).append_right
    (pathMembers path)
  have after := (Shape.members_rotate_to side near inner far x y).append_right (pathMembers path)
  have distinct := before.nodup_iff.mp focus.distinct
  obtain ⟨⟨nearRoot, nearUnder, nearHolds⟩, ⟨_, _, topHolds⟩⟩ := Links.holds_mk.mp focus.holds
  obtain ⟨⟨innerRoot, innerUnder, innerHolds⟩, ⟨farRoot, farUnder, farHolds⟩⟩ :=
    Links.holds_mk.mp topHolds
  simp only [List.cons_append, List.nodup_cons, List.nodup_append, List.mem_append, List.mem_cons,
    not_or] at distinct
  obtain ⟨⟨xy, ⟨xNear, xInner, xFar⟩, xPath⟩, ⟨⟨yNear, yInner, yFar⟩, yPath⟩,
    ⟨nearDistinct, ⟨innerDistinct, farDistinct, innerFar⟩, nearRest⟩, pathDistinct, restPath⟩ :=
    distinct
  have children : ∀ b, b ∈ near.members ∨ b ∈ inner.members ∨ b ∈ far.members → ∀ side',
      (m.rotate side path x y inner).child side' b = m.child side' b := by
    intro b member side'
    have outside : b ∉ pathMembers path := fun member' => restPath b member b member' rfl
    rw [Links.child_rotate_of_ne, Links.child_setDown_of_notMem _ _ _ outside]
    · rintro rfl
      tauto
    · rintro rfl
      tauto
  have parents : ∀ b, b ∈ near.members ∨ b ∈ inner.members ∨ b ∈ far.members →
      inner.root ≠ some b → (m.rotate side path x y inner).parent b = m.parent b := by
    intro b member away
    refine Links.parent_rotate_of_ne ?_ ?_ away
    · rintro rfl
      tauto
    · rintro rfl
      tauto
  have awayPath : ∀ b ∈ pathMembers path, b ≠ x ∧ b ≠ y := by
    rintro b member
    constructor
    · rintro rfl
      exact xPath member
    · rintro rfl
      exact yPath member
  have awayNear : ∀ b ∈ near.members, inner.root ≠ some b := fun b member here =>
    nearRest b member b (.inl (Shape.root_mem here)) rfl
  have awayFar : ∀ b ∈ far.members, inner.root ≠ some b := fun b member here =>
    innerFar b (Shape.root_mem here) b member rfl
  have childX : (m.rotate side path x y inner).child side x = near.root := by
    rw [Links.rotate, Links.child_setChild_of_ne _ _ _ _ xy, Links.child_adopt,
      Links.child_setChild_of_side side.ne_opposite, Links.child_setParent, Links.child_setParent,
      Links.child_setDown_of_notMem _ _ _ xPath, nearRoot]
  have childX' : (m.rotate side path x y inner).child side.opposite x = inner.root := by
    rw [Links.rotate, Links.child_setChild_of_ne _ _ _ _ xy, Links.child_adopt,
      Links.child_setChild_self]
  have childY : (m.rotate side path x y inner).child side y = some x := by
    rw [Links.rotate, Links.child_setChild_self]
  have childY' : (m.rotate side path x y inner).child side.opposite y = far.root := by
    rw [Links.rotate, Links.child_setChild_opposite, Links.child_adopt,
      Links.child_setChild_of_ne _ _ _ _ (Ne.symm xy), Links.child_setParent, Links.child_setParent,
      Links.child_setDown_of_notMem _ _ _ yPath, farRoot]
  have parentX : (m.rotate side path x y inner).parent x = some y := by
    rw [Links.rotate, Links.parent_setChild,
      Links.parent_adopt_of_ne _ _ fun here => xInner (Shape.root_mem here), Links.parent_setChild,
      Links.parent_setParent_self]
  have parentY : (m.rotate side path x y inner).parent y = above path := by
    rw [Links.rotate, Links.parent_setChild,
      Links.parent_adopt_of_ne _ _ fun here => yInner (Shape.root_mem here), Links.parent_setChild,
      Links.parent_setParent_of_ne _ _ (Ne.symm xy), Links.parent_setParent_self]
  have underInner : (m.rotate side path x y inner).Under (some x) inner := by
    rw [Links.rotate]
    intro b here
    rw [Links.parent_setChild]
    exact Links.under_adopt _ inner _ b here
  refine focus.edit (Links.holds_mk.mpr ⟨⟨?_, ?_, Links.holds_mk.mpr ⟨⟨childX, ?_, ?_⟩, childX',
    underInner, ?_⟩⟩, childY', ?_, ?_⟩) ?_ ?_ ?_ ?_ ?_ (after.nodup_iff.mpr ?_)
  · rw [childY, Shape.root_mk]
  · rw [Links.under_mk]
    exact parentX
  · exact nearUnder.congr fun b here =>
      parents b (.inl (Shape.root_mem here)) (awayNear b (Shape.root_mem here))
  · exact nearHolds.congr (fun side' b member => children b (.inl member) side') fun b member =>
      parents b (.inl (Shape.inner_subset member)) (awayNear b (Shape.inner_subset member))
  · exact innerHolds.congr (fun side' b member => children b (.inr (.inl member)) side')
      fun b member => parents b (.inr (.inl (Shape.inner_subset member)))
        (root_ne_of_inner innerDistinct member)
  · exact farUnder.congr fun b here =>
      parents b (.inr (.inr (Shape.root_mem here))) (awayFar b (Shape.root_mem here))
  · exact farHolds.congr (fun side' b member => children b (.inr (.inr member)) side')
      fun b member => parents b (.inr (.inr (Shape.inner_subset member)))
        (awayFar b (Shape.inner_subset member))
  · rw [Links.root_rotate]
    exact Links.root_setDown ..
  · intro side' b member
    rw [Links.child_rotate_of_ne side' (awayPath b member).1 (awayPath b member).2]
    exact Links.child_setDown ..
  · intro b member
    exact Links.parent_rotate_of_ne (awayPath b member).1 (awayPath b member).2
      fun here => restPath b (.inr (.inl (Shape.root_mem here))) b member rfl
  · rw [Shape.root_mk]
    cases path with
    | nil => exact Links.root_rotate
    | cons f path =>
      obtain ⟨awayX, awayY⟩ := awayPath f.self List.mem_cons_self
      rw [Links.down, Links.child_rotate_of_ne f.side awayX awayY]
      exact Links.down_setDown m (f :: path) (some y)
  · rw [Links.under_mk]
    exact parentY
  · exact before.nodup_iff.mp focus.distinct

end Edits

end Phat.PointerTree
