import Mathlib.Data.BitVec
import Mathlib.Data.List.Pairwise
import Phat.Foundation.Side

/-! The red-black tree of rbtree.c over 32-bit keys, with the parent pointers of a
node turned into the list of frames above it; deletion is in Deletion.lean. The in-order
list of the tree is the sorted association list that `trbt_insert32` and
`trbt_lookup32` maintain. -/
namespace Phat

abbrev Key := BitVec 32

namespace Rbtree

inductive Color where
  | red
  | black
deriving DecidableEq

inductive Node (α : Type) where
  | leaf
  | node (color : Color) (left : Node α) (key32 : Key) (data : α) (right : Node α)

/-- A node seen from one of its children: everything but that child. -/
structure Frame (α : Type) where
  side : Side
  color : Color
  key32 : Key
  data : α
  other : Node α

variable {α : Type}

def Frame.fill (f : Frame α) (child : Node α) : Node α :=
  match f.side with
  | .left => .node f.color child f.key32 f.data f.other
  | .right => .node f.color f.other f.key32 f.data child

def plug (child : Node α) : List (Frame α) → Node α
  | [] => child
  | f :: path => plug (f.fill child) path

def Node.getColor : Node α → Color
  | .leaf => .black
  | .node color .. => color

def Node.setColor (color : Color) : Node α → Node α
  | .leaf => .leaf
  | .node _ left key data right => .node color left key data right

def rotateLeft : Node α → Node α
  | .node color left key data (.node color' inner key' data' right) =>
      .node color' (.node color left key data inner) key' data' right
  | other => other

def rotateRight : Node α → Node α
  | .node color (.node color' left key' data' inner) key data right =>
      .node color' left key' data' (.node color inner key data right)
  | other => other

/-- `trbt_insert_case5`: paint the parent black and the grandparent red, then rotate
the grandparent. -/
def insertCase5 (node : Node α) (parent grandparent : Frame α) : Node α :=
  let top := { grandparent with color := .red }.fill ({ parent with color := .black }.fill node)
  if parent.side = .left ∧ grandparent.side = .left then rotateRight top else rotateLeft top

/-- `trbt_insert_case4`: an inner grandchild is first rotated into its parent's
place; the old parent is then the node handed on. -/
def insertCase4 (node : Node α) (parent grandparent : Frame α) : Node α :=
  match node with
  | .leaf => insertCase5 node parent grandparent
  | .node color left key data right =>
    if parent.side = .right ∧ grandparent.side = .left then
      insertCase5 (.node parent.color parent.other parent.key32 parent.data left)
        ⟨.left, color, key, data, right⟩ grandparent
    else if parent.side = .left ∧ grandparent.side = .right then
      insertCase5 (.node parent.color right parent.key32 parent.data parent.other)
        ⟨.right, color, key, data, left⟩ grandparent
    else insertCase5 node parent grandparent

/-- `trbt_insert_case1` to `case3`; the recursion climbs two frames at a time. -/
def insertCase1 (node : Node α) : List (Frame α) → Node α
  | [] => node.setColor .black
  | [parent] => parent.fill node
  | parent :: grandparent :: path =>
    if parent.color = .black then plug node (parent :: grandparent :: path)
    else if grandparent.other.getColor = .red then
      insertCase1 ({ grandparent with color := .red, other := grandparent.other.setColor .black }.fill
        ({ parent with color := .black }.fill node)) path
    else plug (insertCase4 node parent grandparent) path

/-- The walk of `trbt_insert32`: equal keys replace the data in place. -/
def insertAt (key : Key) (data : α) : Node α → List (Frame α) → Node α
  | .leaf, [] => .node .black .leaf key data .leaf
  | .leaf, path => insertCase1 (.node .red .leaf key data .leaf) path
  | .node color left key' data' right, path =>
    if key = key' then plug (.node color left key' data right) path
    else if key < key' then insertAt key data left (⟨.left, color, key', data', right⟩ :: path)
    else insertAt key data right (⟨.right, color, key', data', left⟩ :: path)

def lookup (key : Key) : Node α → Option α
  | .leaf => none
  | .node _ left key' data right =>
    if key = key' then some data
    else if key < key' then lookup key left
    else lookup key right

/-- In-order contents. -/
def Node.toList : Node α → List (Key × α)
  | .leaf => []
  | .node _ left key data right => left.toList ++ (key, data) :: right.toList

def Node.Ordered (t : Node α) : Prop := t.toList.Pairwise fun a b => a.1 < b.1

/-- What a path contributes before and after its hole. -/
def before : List (Frame α) → List (Key × α)
  | [] => []
  | f :: path => before path ++ match f.side with
    | .left => []
    | .right => f.other.toList ++ [(f.key32, f.data)]

def after : List (Frame α) → List (Key × α)
  | [] => []
  | f :: path => (match f.side with
    | .left => (f.key32, f.data) :: f.other.toList
    | .right => []) ++ after path

theorem toList_fill (f : Frame α) (child : Node α) :
    (f.fill child).toList = before [f] ++ child.toList ++ after [f] := by
  obtain ⟨side, color, key, data, other⟩ := f
  cases side <;> simp [Frame.fill, before, after, Node.toList]

theorem toList_plug (child : Node α) (path : List (Frame α)) :
    (plug child path).toList = before path ++ child.toList ++ after path := by
  induction path generalizing child with
  | nil => simp [plug, before, after]
  | cons f path ih =>
    rw [plug, ih, toList_fill]
    simp [before, after]

@[simp] theorem toList_setColor (color : Color) (t : Node α) :
    (t.setColor color).toList = t.toList := by
  cases t <;> rfl

@[simp] theorem toList_rotateLeft (t : Node α) : (rotateLeft t).toList = t.toList := by
  unfold rotateLeft
  split
  · simp [Node.toList]
  · rfl

@[simp] theorem toList_rotateRight (t : Node α) : (rotateRight t).toList = t.toList := by
  unfold rotateRight
  split
  · simp [Node.toList]
  · rfl

theorem toList_insertCase5 (t : Node α) (parent grandparent : Frame α) :
    (insertCase5 t parent grandparent).toList = (plug t [parent, grandparent]).toList := by
  have colors : ∀ (f : Frame α) (c : Color) (child : Node α),
      ({ f with color := c }.fill child).toList = (f.fill child).toList := by
    rintro ⟨side, color, key, data, other⟩ c child
    cases side <;> simp [Frame.fill, Node.toList]
  simp only [insertCase5]
  split
  all_goals
    simp only [toList_rotateLeft, toList_rotateRight, colors, toList_fill, plug]

theorem toList_insertCase4 (t : Node α) (parent grandparent : Frame α) :
    (insertCase4 t parent grandparent).toList = (plug t [parent, grandparent]).toList := by
  unfold insertCase4
  split
  · exact toList_insertCase5 _ _ _
  · split
    · rename_i sides
      rw [toList_insertCase5]
      simp [plug, toList_fill, before, after, Node.toList, sides]
    · split
      · rename_i sides
        rw [toList_insertCase5]
        simp [plug, toList_fill, before, after, Node.toList, sides]
      · exact toList_insertCase5 _ _ _

/-- Rebalancing never changes the in-order contents. -/
theorem toList_insertCase1 (t : Node α) (path : List (Frame α)) :
    (insertCase1 t path).toList = (plug t path).toList := by
  induction t, path using insertCase1.induct with
  | case1 t => simp [insertCase1, plug]
  | case2 t parent => rfl
  | case3 t parent grandparent path black => rw [insertCase1, if_pos black]
  | case4 t parent grandparent path red uncle ih =>
    rw [insertCase1, if_neg red, if_pos uncle, ih]
    have inner : ∀ (p g : Frame α),
        ({ g with color := Color.red, other := g.other.setColor .black }.fill
          ({ p with color := Color.black }.fill t)).toList = (g.fill (p.fill t)).toList := by
      rintro ⟨side, color, key, data, other⟩ ⟨side', color', key', data', other'⟩
      cases side <;> cases side' <;> simp [Frame.fill, Node.toList]
    simp only [toList_plug, inner, plug]
  | case5 t parent grandparent path red uncle =>
    rw [insertCase1, if_neg red, if_neg uncle]
    simp only [toList_plug, toList_insertCase4, plug]

/-- Insertion into a sorted association list, replacing on an equal key. -/
def insertList (key : Key) (data : α) : List (Key × α) → List (Key × α)
  | [] => [(key, data)]
  | entry :: rest =>
    if key = entry.1 then (entry.1, data) :: rest
    else if key < entry.1 then (key, data) :: entry :: rest
    else entry :: insertList key data rest

theorem insertList_left {key : Key} (data : α) {left right : List (Key × α)}
    (above : ∀ e ∈ right, key < e.1) :
    insertList key data (left ++ right) = insertList key data left ++ right := by
  induction left with
  | nil =>
    cases right with
    | nil => rfl
    | cons e right =>
      have smaller := above e (by simp)
      have apart : key ≠ e.1 := by bv_omega
      simp [insertList, apart, smaller]
  | cons e left ih =>
    simp only [List.cons_append, insertList, ih]
    split
    · rfl
    · split <;> rfl

theorem insertList_right {key : Key} (data : α) {left right : List (Key × α)}
    (below : ∀ e ∈ left, e.1 < key) :
    insertList key data (left ++ right) = left ++ insertList key data right := by
  induction left with
  | nil => rfl
  | cons e left ih =>
    have larger := below e (by simp)
    have apart : key ≠ e.1 := by bv_omega
    have order : ¬ key < e.1 := by bv_omega
    simp [insertList, apart, order, ih fun x member => below x (by simp [member])]

theorem toList_insertAt (key : Key) (data : α) (t : Node α) (path : List (Frame α))
    (ordered : t.Ordered) : (insertAt key data t path).toList =
      before path ++ insertList key data t.toList ++ after path := by
  induction t generalizing path with
  | leaf =>
    cases path with
    | nil => rfl
    | cons f path =>
      rw [insertAt, toList_insertCase1, toList_plug]
      · rfl
      · simp
  | node color left key' data' right leftIh rightIh =>
    have parts := ordered
    rw [Node.Ordered, Node.toList, List.pairwise_append, List.pairwise_cons] at parts
    obtain ⟨leftOrdered, ⟨above, rightOrdered⟩, across⟩ := parts
    have below : ∀ e ∈ left.toList, e.1 < key' := fun e member =>
      across e member (key', data') (by simp)
    rw [insertAt]
    split
    · rename_i same
      subst same
      rw [toList_plug, Node.toList, Node.toList, insertList_right data below]
      simp [insertList]
    · rename_i apart
      split
      · rename_i smaller
        have beyond : ∀ e ∈ (key', data') :: right.toList, key < e.1 := by
          intro e member
          rcases List.mem_cons.mp member with rfl | member
          · exact smaller
          · have := above e member
            bv_omega
        rw [leftIh _ leftOrdered, Node.toList, insertList_left data beyond]
        simp [before, after]
      · rename_i order
        have larger : key' < key := by bv_omega
        have beneath : ∀ e ∈ left.toList ++ [(key', data')], e.1 < key := by
          intro e member
          rcases List.mem_append.mp member with member | member
          · have := below e member
            bv_omega
          · rw [List.mem_singleton] at member
            exact member ▸ larger
        have regroup : left.toList ++ (key', data') :: right.toList =
            (left.toList ++ [(key', data')]) ++ right.toList := by simp
        rw [rightIh _ rightOrdered, Node.toList, regroup, insertList_right data beneath]
        simp [before, after]

theorem mem_insertList {key : Key} {data : α} {entries : List (Key × α)}
    (ordered : entries.Pairwise fun a b => a.1 < b.1) (e : Key × α) :
    e ∈ insertList key data entries ↔ e = (key, data) ∨ (e.1 ≠ key ∧ e ∈ entries) := by
  induction entries with
  | nil => simp [insertList]
  | cons head rest ih =>
    obtain ⟨above, sorted⟩ := List.pairwise_cons.mp ordered
    simp only [insertList]
    split
    · rename_i same
      have away : ∀ x ∈ rest, x.1 ≠ key := by
        intro x member
        have := above x member
        bv_omega
      simp only [List.mem_cons, same]
      constructor
      · rintro (rfl | member)
        · exact .inl rfl
        · exact .inr ⟨same ▸ away e member, .inr member⟩
      · rintro (rfl | ⟨apart, rfl | member⟩)
        · exact .inl rfl
        · exact absurd rfl apart
        · exact .inr member
    · rename_i apart
      split
      · rename_i smaller
        have away : ∀ x ∈ head :: rest, x.1 ≠ key := by
          intro x member
          rcases List.mem_cons.mp member with rfl | member
          · exact Ne.symm apart
          · have := above x member
            bv_omega
        rw [List.mem_cons]
        exact ⟨Or.imp_right fun member => ⟨away e member, member⟩, Or.imp_right And.right⟩
      · rw [List.mem_cons, ih sorted, List.mem_cons]
        constructor
        · rintro (rfl | rfl | ⟨away, member⟩)
          · exact .inr ⟨Ne.symm apart, .inl rfl⟩
          · exact .inl rfl
          · exact .inr ⟨away, .inr member⟩
        · rintro (rfl | ⟨away, rfl | member⟩)
          · exact .inr (.inl rfl)
          · exact .inl rfl
          · exact .inr (.inr ⟨away, member⟩)

theorem insertList_ordered {key : Key} {data : α} {entries : List (Key × α)}
    (ordered : entries.Pairwise fun a b => a.1 < b.1) :
    (insertList key data entries).Pairwise fun a b => a.1 < b.1 := by
  induction entries with
  | nil => simp [insertList]
  | cons head rest ih =>
    obtain ⟨above, sorted⟩ := List.pairwise_cons.mp ordered
    simp only [insertList]
    split
    · exact List.pairwise_cons.mpr ⟨above, sorted⟩
    · rename_i apart
      split
      · rename_i smaller
        refine List.pairwise_cons.mpr ⟨?_, ordered⟩
        intro x member
        rcases List.mem_cons.mp member with rfl | member
        · exact smaller
        · have := above x member
          bv_omega
      · rename_i order
        refine List.pairwise_cons.mpr ⟨?_, ih sorted⟩
        intro x member
        rcases (mem_insertList sorted x).mp member with rfl | ⟨_, member⟩
        · bv_omega
        · exact above x member

theorem lookup_iff {t : Node α} (ordered : t.Ordered) (key : Key) (data : α) :
    lookup key t = some data ↔ (key, data) ∈ t.toList := by
  induction t with
  | leaf => simp [lookup, Node.toList]
  | node color left key' data' right leftIh rightIh =>
    rw [Node.Ordered, Node.toList, List.pairwise_append, List.pairwise_cons] at ordered
    obtain ⟨leftOrdered, ⟨above, rightOrdered⟩, across⟩ := ordered
    have outLeft : ∀ d, (key, d) ∈ left.toList → key < key' := fun d member =>
      across _ member (key', data') (by simp)
    have outRight : ∀ d, (key, d) ∈ right.toList → key' < key := fun d member => above _ member
    simp only [lookup, Node.toList, List.mem_append, List.mem_cons, Prod.mk.injEq]
    split
    · rename_i same
      subst same
      have noLeft : (key, data) ∉ left.toList := fun member => by
        have := outLeft data member
        bv_omega
      have noRight : (key, data) ∉ right.toList := fun member => by
        have := outRight data member
        bv_omega
      simp [noLeft, noRight, eq_comm]
    · rename_i apart
      split
      · rename_i smaller
        have noRight : (key, data) ∉ right.toList := fun member => by
          have := outRight data member
          bv_omega
        simp [leftIh leftOrdered, noRight, apart]
      · rename_i order
        have noLeft : (key, data) ∉ left.toList := fun member => order (outLeft data member)
        simp [rightIh rightOrdered, noLeft, apart]

end Rbtree

open Rbtree

/-- `trbt_tree_t`: a tree that can only be built ordered. -/
structure Table (α : Type) where
  root : Node α
  ordered : root.Ordered

namespace Table
variable {α : Type}

/-- `trbt_create` -/
def empty : Table α := ⟨.leaf, List.Pairwise.nil⟩

/-- `trbt_insert32` -/
def insert32 (t : Table α) (key : Key) (data : α) : Table α where
  root := insertAt key data t.root []
  ordered := by
    rw [Node.Ordered, toList_insertAt key data t.root [] t.ordered]
    simpa [before, after] using insertList_ordered t.ordered

/-- `trbt_lookup32`; NULL is `none`. -/
def lookup32 (t : Table α) (key : Key) : Option α := lookup key t.root

/-- The entries in the order an in-order traversal visits them. -/
def toList (t : Table α) : List (Key × α) := t.root.toList

theorem mem_toList {t : Table α} {key : Key} {data : α} :
    (key, data) ∈ t.toList ↔ t.lookup32 key = some data :=
  (lookup_iff t.ordered key data).symm

@[simp] theorem lookup32_empty (key : Key) : (empty : Table α).lookup32 key = none := rfl

theorem lookup32_insert32 (t : Table α) (key key' : Key) (data : α) :
    (t.insert32 key data).lookup32 key' = if key' = key then some data else t.lookup32 key' := by
  apply Option.ext
  intro found
  rw [← mem_toList, toList, insert32, toList_insertAt key data t.root [] t.ordered]
  simp only [before, after, List.nil_append, List.append_nil, mem_insertList t.ordered,
    Prod.mk.injEq]
  rw [show ((key', found) ∈ t.root.toList) = ((key', found) ∈ t.toList) from rfl, mem_toList]
  split
  · rename_i same
    simp [same, eq_comm]
  · rename_i apart
    simp [apart]

@[simp] theorem lookup32_insert32_self (t : Table α) (key : Key) (data : α) :
    (t.insert32 key data).lookup32 key = some data := by
  rw [lookup32_insert32, if_pos rfl]

theorem lookup32_insert32_of_ne (t : Table α) {key key' : Key} (data : α) (apart : key' ≠ key) :
    (t.insert32 key data).lookup32 key' = t.lookup32 key' := by
  rw [lookup32_insert32, if_neg apart]

end Table

end Phat
