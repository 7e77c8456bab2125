import Phat.Balance
import Phat.TreeWalks

/-! Deletion from the tree of rbtree.c: what `delete_node` and the cases of `trbt_delete_case1` do to
the tree seen from the node, as `Phat.Rbtree` has it for insertion. A dummy child is NULL here. -/
namespace Phat
namespace Rbtree
variable {α : Type}

def Node.getColorLeft : Node α → Color
  | .leaf => .black
  | .node _ left .. => left.getColor

def Node.getColorRight : Node α → Color
  | .leaf => .black
  | .node _ _ _ _ right => right.getColor

def Node.setColorLeft (color : Color) : Node α → Node α
  | .leaf => .leaf
  | .node c left key data right => .node c (left.setColor color) key data right

def Node.setColorRight (color : Color) : Node α → Node α
  | .leaf => .leaf
  | .node c left key data right => .node c left key data (right.setColor color)

def deleteCase6 (node : Node α) (parent : Frame α) : Node α :=
  let sibling := parent.other.setColor parent.color
  match parent.side with
  | .left =>
      rotateLeft ({ parent with color := .black, other := sibling.setColorRight .black }.fill node)
  | .right =>
      rotateRight ({ parent with color := .black, other := sibling.setColorLeft .black }.fill node)

def deleteCase5 (node : Node α) (parent : Frame α) : Node α :=
  let sibling := parent.other
  if parent.side = .left ∧ sibling.getColor = .black ∧ sibling.getColorLeft = .red ∧
      sibling.getColorRight = .black then
    deleteCase6 node
      { parent with other := rotateRight ((sibling.setColor .red).setColorLeft .black) }
  else if parent.side = .right ∧ sibling.getColor = .black ∧ sibling.getColorRight = .red ∧
      sibling.getColorLeft = .black then
    deleteCase6 node
      { parent with other := rotateLeft ((sibling.setColor .red).setColorRight .black) }
  else deleteCase6 node parent

/-- The sibling and its children are black. -/
def Frame.blackOther (parent : Frame α) : Prop :=
  parent.other.getColor = .black ∧ parent.other.getColorLeft = .black ∧
    parent.other.getColorRight = .black

instance (parent : Frame α) : Decidable parent.blackOther := instDecidableAnd

def deleteCase4 (node : Node α) (parent : Frame α) : Node α :=
  if parent.color = .red ∧ parent.blackOther then
    { parent with color := .black, other := parent.other.setColor .red }.fill node
  else deleteCase5 node parent

/-- `trbt_delete_case2`: a red sibling is rotated into the place of the parent, which is red then. The
frames of the new parent and of what is above it, if the sibling is red. -/
def deleteCase2 (parent : Frame α) : Option (Frame α × Frame α) :=
  match parent.side, parent.other with
  | .left, .node .red inner key data outer =>
      some ({ parent with color := .red, other := inner }, ⟨.left, .black, key, data, outer⟩)
  | .right, .node .red outer key data inner =>
      some ({ parent with color := .red, other := inner }, ⟨.right, .black, key, data, outer⟩)
  | _, _ => none

/-- `trbt_delete_case1` with `case3`, whose test a parent painted red by `case2` never meets. -/
def deleteCase1 (node : Node α) : List (Frame α) → Node α
  | [] => node
  | parent :: path =>
    match deleteCase2 parent with
    | some (parent, above) => plug (deleteCase4 node parent) (above :: path)
    | none =>
      if parent.color = .black ∧ parent.blackOther then
        deleteCase1 ({ parent with other := parent.other.setColor .red }.fill node) path
      else plug (deleteCase4 node parent) path

/-- The part of `delete_node` that puts the only child, if there is one, in place of a node of this
colour. -/
def replaceNode (color : Color) (child : Node α) (path : List (Frame α)) : Node α :=
  match color with
  | .red => plug child path
  | .black =>
    if child.getColor = .red then plug (child.setColor .black) path else deleteCase1 child path

/-- The predecessor of a node is the last one in its left subtree. -/
def Node.last : Node α → Option (Key × α)
  | .leaf => none
  | .node _ _ key data .leaf => some (key, data)
  | .node _ _ _ _ right => right.last

def deleteLast : Node α → List (Frame α) → Node α
  | .leaf, path => plug .leaf path
  | .node color left _ _ .leaf, path => replaceNode color left path
  | .node color left key data right, path =>
      deleteLast right (⟨.right, color, key, data, left⟩ :: path)

/-- `delete_node`: the predecessor of a node with two children takes its place, with its colour. -/
def deleteNode (color : Color) (left right : Node α) (path : List (Frame α)) : Node α :=
  match left.last, right with
  | none, _ => replaceNode color right path
  | some _, .leaf => replaceNode color left path
  | some (key, data), right => deleteLast left (⟨.left, color, key, data, right⟩ :: path)

/-- The walk of `trbt_delete32`. -/
def deleteAt (key : Key) : Node α → List (Frame α) → Node α
  | .leaf, path => plug .leaf path
  | .node color left key' data' right, path =>
    if key = key' then deleteNode color left right path
    else if key < key' then deleteAt key left (⟨.left, color, key', data', right⟩ :: path)
    else deleteAt key right (⟨.right, color, key', data', left⟩ :: path)

section Contents
variable {left right : Node α} {path : List (Frame α)} {key : Key} {data : α}

@[simp] theorem toList_setColorLeft (color : Color) (t : Node α) :
    (t.setColorLeft color).toList = t.toList := by
  cases t <;> simp [Node.setColorLeft, Node.toList]

@[simp] theorem toList_setColorRight (color : Color) (t : Node α) :
    (t.setColorRight color).toList = t.toList := by
  cases t <;> simp [Node.setColorRight, Node.toList]

/-- Neither the colour of a frame matters to the contents nor how its other child is arranged. -/
theorem toList_fill_congr {f f' : Frame α} (t : Node α) (side : f'.side = f.side)
    (key : f'.key32 = f.key32) (data : f'.data = f.data) (other : f'.other.toList = f.other.toList) :
    (f'.fill t).toList = (f.fill t).toList := by
  rw [toList_fill, toList_fill]
  simp only [before, after, side, key, data, other]

theorem toList_deleteCase6 (node : Node α) (parent : Frame α) :
    (deleteCase6 node parent).toList = (parent.fill node).toList := by
  rw [deleteCase6]
  split
  · rw [toList_rotateLeft]
    exact toList_fill_congr node rfl rfl rfl (by simp)
  · rw [toList_rotateRight]
    exact toList_fill_congr node rfl rfl rfl (by simp)

theorem toList_deleteCase5 (node : Node α) (parent : Frame α) :
    (deleteCase5 node parent).toList = (parent.fill node).toList := by
  simp only [deleteCase5]
  split
  · rw [toList_deleteCase6]
    exact toList_fill_congr node rfl rfl rfl (by simp)
  · split
    · rw [toList_deleteCase6]
      exact toList_fill_congr node rfl rfl rfl (by simp)
    · exact toList_deleteCase6 node parent

theorem toList_deleteCase4 (node : Node α) (parent : Frame α) :
    (deleteCase4 node parent).toList = (parent.fill node).toList := by
  rw [deleteCase4]
  split
  · exact toList_fill_congr node rfl rfl rfl (by simp)
  · exact toList_deleteCase5 node parent

/-- What `case2` has done if it rotates. -/
theorem deleteCase2_eq_some {parent parent' above : Frame α}
    (rotated : deleteCase2 parent = some (parent', above)) :
    ∃ key data inner outer,
      parent' = { parent with color := .red, other := inner } ∧
      above = ⟨parent.side, .black, key, data, outer⟩ ∧
      parent.other = match parent.side with
        | .left => .node .red inner key data outer
        | .right => .node .red outer key data inner := by
  rw [deleteCase2] at rotated
  split at rotated
  · rename_i inner key data outer side other
    cases rotated
    exact ⟨key, data, inner, outer, rfl, by rw [side], by rw [side, other]⟩
  · rename_i outer key data inner side other
    cases rotated
    exact ⟨key, data, inner, outer, rfl, by rw [side], by rw [side, other]⟩
  · cases rotated

theorem deleteCase2_eq_none {parent : Frame α} (kept : deleteCase2 parent = none) :
    parent.other.getColor = .black := by
  obtain ⟨side, color, key, data, other⟩ := parent
  cases other with
  | leaf => rfl
  | node color' left key' data' right =>
    cases color' with
    | black => rfl
    | red => cases side <;> cases kept

theorem toList_deleteCase2 (node : Node α) {parent parent' above : Frame α}
    (rotated : deleteCase2 parent = some (parent', above)) :
    (above.fill (parent'.fill node)).toList = (parent.fill node).toList := by
  obtain ⟨key, data, inner, outer, rfl, rfl, other⟩ := deleteCase2_eq_some rotated
  obtain ⟨side, color, key', data', sibling⟩ := parent
  cases side with
  | left =>
    cases other
    simp [Frame.fill, Node.toList]
  | right =>
    cases other
    simp [Frame.fill, Node.toList]

theorem toList_deleteCase1 (node : Node α) (path : List (Frame α)) :
    (deleteCase1 node path).toList = (plug node path).toList := by
  induction path generalizing node with
  | nil => rfl
  | cons parent path ih =>
    rw [deleteCase1]
    split
    · rename_i parent' above rotated
      rw [plug, plug, toList_plug, toList_plug, toList_fill, toList_deleteCase4,
        ← toList_fill above, toList_deleteCase2 node rotated]
    · split
      · have painted : ({ parent with other := parent.other.setColor .red }.fill node).toList =
            (parent.fill node).toList := toList_fill_congr node rfl rfl rfl (by simp)
        rw [ih, plug, toList_plug, toList_plug, painted]
      · rw [plug, toList_plug, toList_plug, toList_deleteCase4]

theorem toList_replaceNode (color : Color) (child : Node α) (path : List (Frame α)) :
    (replaceNode color child path).toList = before path ++ child.toList ++ after path := by
  cases color with
  | red => exact toList_plug child path
  | black =>
    rw [replaceNode]
    split
    · rw [toList_plug, toList_setColor]
    · rw [toList_deleteCase1, toList_plug]

theorem last_eq (t : Node α) : t.last = t.toList.getLast? := by
  induction t using Node.last.induct with
  | case1 => rfl
  | case2 color left key data => rw [Node.last, Node.toList, Node.toList, List.getLast?_concat]
  | case3 color left key data right notLeaf ih =>
    have nonempty : right.toList ≠ [] := by
      cases right with
      | leaf => exact absurd rfl notLeaf
      | node => simp [Node.toList]
    rw [Node.last, ih, Node.toList, List.getLast?_append_of_ne_nil _ (List.cons_ne_nil _ _),
      List.getLast?_cons_of_ne_nil nonempty]
    exact notLeaf

/-- Without a right child the left one takes the place. -/
theorem deleteNode_leaf (color : Color) (left : Node α) (path : List (Frame α)) :
    deleteNode color left .leaf path = replaceNode color left path := by
  unfold deleteNode
  split
  · rename_i empty
    rw [last_eq, List.getLast?_eq_none_iff] at empty
    cases left with
    | leaf => rfl
    | node => simp [Node.toList] at empty
  · rfl
  · rename_i notLeaf
    exact absurd rfl notLeaf

theorem deleteNode_last {color : Color} {left right : Node α} {path : List (Frame α)} {key : Key}
    {data : α} (last : left.last = some (key, data)) (child : right ≠ .leaf) :
    deleteNode color left right path =
      deleteLast left (⟨.left, color, key, data, right⟩ :: path) := by
  unfold deleteNode
  rw [last]
  cases right with
  | leaf => exact absurd rfl child
  | node => rfl

theorem toList_deleteLast (t : Node α) (path : List (Frame α)) :
    (deleteLast t path).toList = before path ++ t.toList.dropLast ++ after path := by
  induction t, path using deleteLast.induct with
  | case1 path => exact toList_plug .leaf path
  | case2 color left key data path =>
    rw [deleteLast, toList_replaceNode, Node.toList, Node.toList, List.dropLast_concat]
  | case3 color left key data right path notLeaf ih =>
    have nonempty : right.toList ≠ [] := by
      cases right with
      | leaf => exact absurd rfl notLeaf
      | node => simp [Node.toList]
    rw [deleteLast, ih, Node.toList, List.dropLast_append_cons, List.dropLast_cons_of_ne_nil nonempty]
    · simp [before, after]
    · exact notLeaf

theorem toList_deleteNode (color : Color) (left right : Node α) (path : List (Frame α)) :
    (deleteNode color left right path).toList =
      before path ++ (left.toList ++ right.toList) ++ after path := by
  unfold deleteNode
  split
  · rename_i empty
    rw [last_eq, List.getLast?_eq_none_iff] at empty
    rw [toList_replaceNode, empty, List.nil_append]
  · rw [toList_replaceNode, Node.toList, List.append_nil]
  · rename_i key data found _
    rw [last_eq] at found
    have whole := List.dropLast_append_getLast? (key, data) found
    rw [toList_deleteLast, ← whole]
    simp [before, after]

theorem toList_deleteAt (key : Key) (t : Node α) (path : List (Frame α)) (ordered : t.Ordered) :
    (deleteAt key t path).toList =
      before path ++ t.toList.filter (fun e => e.1 ≠ key) ++ after path := by
  induction t generalizing path with
  | leaf =>
    rw [deleteAt, toList_plug]
    rfl
  | node color left key' data' right leftIh rightIh =>
    rw [Node.Ordered, Node.toList, List.pairwise_append, List.pairwise_cons] at ordered
    obtain ⟨leftOrdered, ⟨above, rightOrdered⟩, across⟩ := ordered
    have below : ∀ e ∈ left.toList, e.1 < key' := fun e member =>
      across e member (key', data') (by simp)
    have keptLeft : ¬ key < key' → left.toList.filter (fun e => e.1 ≠ key) = left.toList := by
      intro order
      refine List.filter_eq_self.mpr fun e member => ?_
      have smaller := below e member
      rw [decide_eq_true_iff]
      bv_omega
    have keptRight : ¬ key' < key → right.toList.filter (fun e => e.1 ≠ key) = right.toList := by
      intro order
      refine List.filter_eq_self.mpr fun e member => ?_
      have larger := above e member
      rw [decide_eq_true_iff]
      bv_omega
    rw [deleteAt, Node.toList, List.filter_append]
    split
    · rename_i same
      subst same
      rw [toList_deleteNode, List.filter_cons_of_neg (by simp), keptLeft (by bv_omega),
        keptRight (by bv_omega)]
    · rename_i apart
      have keptHere : ((key', data') :: right.toList).filter (fun e => e.1 ≠ key) =
          (key', data') :: right.toList.filter (fun e => e.1 ≠ key) :=
        List.filter_cons_of_pos (by simpa using Ne.symm apart)
      rw [keptHere]
      split
      · rename_i smaller
        rw [leftIh _ leftOrdered, keptRight (by bv_omega)]
        simp [before, after]
      · rename_i order
        rw [rightIh _ rightOrdered, keptLeft order]
        simp [before, after]

/-- A key that no node has is none to delete. -/
theorem deleteAt_absent {t : Node α} (absent : lookup key t = none) (path : List (Frame α)) :
    deleteAt key t path = plug t path := by
  induction t generalizing path with
  | leaf => rfl
  | node color left key' data' right leftIh rightIh =>
    rw [lookup] at absent
    rw [deleteAt]
    by_cases same : key = key'
    · rw [if_pos same] at absent
      cases absent
    · rw [if_neg same] at absent ⊢
      by_cases below : key < key'
      · rw [if_pos below] at absent ⊢
        rw [leftIh absent]
        rfl
      · rw [if_neg below] at absent ⊢
        rw [rightIh absent]
        rfl

end Contents

section Balance
variable {node left right : Node α} {path : List (Frame α)} {parent : Frame α} {c : Color} {n : Nat}

/-- The child of the sibling that is farther from the node. -/
def Frame.far (parent : Frame α) : Color :=
  match parent.side with
  | .left => parent.other.getColorRight
  | .right => parent.other.getColorLeft

theorem balanced_deleteCase6 (balanced : Balanced node c n)
    (sibling : Balanced parent.other .black (n + 1)) (far : parent.far = .red) :
    Balanced (deleteCase6 node parent) parent.color (n + 1 + parent.color.count) := by
  obtain ⟨side, color, key, data, other⟩ := parent
  cases sibling with
  | black below beside =>
    cases side with
    | left =>
      have painted := balanced_setColor_black (beside.of_getColor far)
      exact balanced_node.mpr ⟨_, _, n + 1, .black balanced below, painted, rfl, fun _ => ⟨rfl, rfl⟩⟩
    | right =>
      have painted := balanced_setColor_black (below.of_getColor far)
      exact balanced_node.mpr ⟨_, _, n + 1, painted, .black beside balanced, rfl, fun _ => ⟨rfl, rfl⟩⟩

theorem balanced_deleteCase5 (balanced : Balanced node c n)
    (sibling : Balanced parent.other .black (n + 1)) (red : ¬ parent.blackOther) :
    Balanced (deleteCase5 node parent) parent.color (n + 1 + parent.color.count) := by
  obtain ⟨side, color, key, data, other⟩ := parent
  have whole := sibling
  cases sibling with
  | @black near far nearColor farColor n key' data' below beside =>
    simp only [deleteCase5]
    split
    · rename_i rotated
      obtain ⟨rfl, _, nearRed, farBlack⟩ := rotated
      have below := below.of_getColor nearRed
      have beside := beside.of_getColor farBlack
      cases below with
      | red outer inner => exact balanced_deleteCase6 balanced (.black outer (.red inner beside)) rfl
    · split
      · rename_i rotated
        obtain ⟨rfl, _, nearRed, farBlack⟩ := rotated
        have beside := beside.of_getColor nearRed
        have below := below.of_getColor farBlack
        cases beside with
        | red inner outer =>
          exact balanced_deleteCase6 balanced (.black (.red below inner) outer) rfl
      · rename_i notLeft notRight
        refine balanced_deleteCase6 balanced whole (Color.eq_red fun farBlack => ?_)
        cases side with
        | left =>
          have nearBlack := Color.eq_black fun nearRed => notLeft ⟨rfl, rfl, nearRed, farBlack⟩
          exact red ⟨rfl, nearBlack, farBlack⟩
        | right =>
          have nearBlack := Color.eq_black fun nearRed => notRight ⟨rfl, rfl, nearRed, farBlack⟩
          exact red ⟨rfl, farBlack, nearBlack⟩

/-- A sibling with black children may be painted red. -/
theorem balanced_setColor_red (sibling : Balanced parent.other .black (n + 1))
    (black : parent.blackOther) : Balanced (parent.other.setColor .red) .red n := by
  obtain ⟨_, leftBlack, rightBlack⟩ := black
  obtain ⟨side, color, key, data, other⟩ := parent
  cases sibling with
  | black below beside => exact .red (below.of_getColor leftBlack) (beside.of_getColor rightBlack)

theorem balanced_fill_black (balanced : Balanced node c n) {c' : Color} {f : Frame α}
    (other : Balanced f.other c' n) (black : f.color = .black) :
    Balanced (f.fill node) .black (n + 1) := by
  obtain ⟨side, color, key, data, sibling⟩ := f
  cases black
  cases side with
  | left => exact .black balanced other
  | right => exact .black other balanced

/-- The node has one black node too few below it, and nothing is missing afterwards. -/
theorem balanced_deleteCase4 (balanced : Balanced node c n)
    (sibling : Balanced parent.other .black (n + 1))
    (red : parent.color = .black → ¬ parent.blackOther) :
    ∃ c', Balanced (deleteCase4 node parent) c' (n + 1 + parent.color.count) ∧
      (c' = parent.color ∨ c' = .black) := by
  rw [deleteCase4]
  split
  · rename_i painted
    refine ⟨.black, ?_, .inr rfl⟩
    rw [painted.1]
    exact balanced_fill_black balanced (balanced_setColor_red sibling painted.2) rfl
  · rename_i notPainted
    refine ⟨parent.color, balanced_deleteCase5 balanced sibling fun black => ?_, .inl rfl⟩
    by_cases color : parent.color = .black
    · exact red color black
    · exact notPainted ⟨Color.eq_red color, black⟩

theorem Fits.of_eq_or_black {c' : Color} (fits : Fits path c n) (color : c' = c ∨ c' = .black) :
    Fits path c' n := by
  rcases color with rfl | rfl
  · exact fits
  · exact fits.blacken

/-- Rebalancing makes up for the black node that is missing below a black one. -/
theorem balanced_deleteCase1 (balanced : Balanced node .black n) (fits : Fits path .black (n + 1)) :
    ∃ height, Balanced (deleteCase1 node path) .black height := by
  induction path generalizing node n with
  | nil => exact ⟨n, balanced⟩
  | cons parent path ih =>
    obtain ⟨⟨siblingColor, sibling, colors⟩, rest⟩ := fits
    rw [deleteCase1]
    split
    · rename_i parent' aboveFrame rotated
      obtain ⟨key, data, inner, outer, rfl, rfl, other⟩ := deleteCase2_eq_some rotated
      obtain ⟨side, color, key', data', parentOther⟩ := parent
      have parts : siblingColor = .red ∧ Balanced inner .black (n + 1) ∧
          Balanced outer .black (n + 1) := by
        cases side with
        | left =>
          cases other
          cases sibling with
          | red below beside => exact ⟨rfl, below, beside⟩
        | right =>
          cases other
          cases sibling with
          | red below beside => exact ⟨rfl, beside, below⟩
      obtain ⟨rfl, innerBalanced, outerBalanced⟩ := parts
      have black : color = .black := Color.eq_black fun red => absurd (colors red).2 (by decide)
      cases black
      have red : (⟨side, .red, key', data', inner⟩ : Frame α).color = .black →
          ¬ Frame.blackOther ⟨side, .red, key', data', inner⟩ := Color.noConfusion
      obtain ⟨c', done, _⟩ := balanced_deleteCase4 balanced innerBalanced red
      rw [plug]
      exact balanced_plug (balanced_fill_black done outerBalanced rfl) rest
    · rename_i kept
      have sibling := sibling.of_getColor (deleteCase2_eq_none kept)
      split
      · rename_i black
        have painted := balanced_setColor_red sibling black.2
        rw [black.1] at rest
        exact ih (balanced_fill_black balanced painted black.1) rest
      · rename_i notBlack
        obtain ⟨c', done, color⟩ :=
          balanced_deleteCase4 balanced sibling fun black other => notBlack ⟨black, other⟩
        exact balanced_plug done (rest.of_eq_or_black color)

theorem balanced_replaceNode {color c' : Color} (balanced : Balanced node c' n)
    (red : color = .red → c' = .black) (fits : Fits path color (n + color.count)) :
    ∃ height, Balanced (replaceNode color node path) .black height := by
  cases color with
  | red => exact balanced_plug balanced (fits.of_eq_or_black (.inr (red rfl)))
  | black =>
    rw [replaceNode]
    split
    · rename_i childRed
      exact balanced_plug (balanced_setColor_black (balanced.of_getColor childRed)) fits
    · rename_i childBlack
      exact balanced_deleteCase1 (balanced.of_getColor (Color.eq_black childBlack)) fits

theorem balanced_deleteLast (t : Node α) (path : List (Frame α)) (balanced : Balanced t c n)
    (fits : Fits path c n) : ∃ height, Balanced (deleteLast t path) .black height := by
  induction t, path using deleteLast.induct generalizing c n with
  | case1 path => exact balanced_plug balanced fits
  | case2 color left key data path =>
    obtain rfl : color = c := balanced.getColor
    obtain ⟨l, r, m, below, _, rfl, colors⟩ := balanced_node.mp balanced
    exact balanced_replaceNode below (fun red => (colors red).1) fits
  | case3 color left key data right path notLeaf ih =>
    obtain rfl : color = c := balanced.getColor
    obtain ⟨r, m, beside, fits⟩ := fits.beside balanced
    rw [deleteLast]
    · exact ih beside fits
    · exact notLeaf

theorem balanced_deleteNode {key : Key} {data : α}
    (balanced : Balanced (.node c left key data right) c n) (fits : Fits path c n) :
    ∃ height, Balanced (deleteNode c left right path) .black height := by
  obtain ⟨l, r, m, below, beside, rfl, colors⟩ := balanced_node.mp balanced
  unfold deleteNode
  split
  · rename_i empty
    exact balanced_replaceNode (beside) (fun red => (colors red).2) fits
  · exact balanced_replaceNode below (fun red => (colors red).1) fits
  · exact balanced_deleteLast _ _ below ⟨⟨r, beside, colors⟩, fits⟩

theorem balanced_deleteAt (key : Key) (t : Node α) (path : List (Frame α))
    (balanced : Balanced t c n) (fits : Fits path c n) :
    ∃ height, Balanced (deleteAt key t path) .black height := by
  induction t generalizing path c n with
  | leaf => exact balanced_plug balanced fits
  | node color left key' data' right leftIh rightIh =>
    obtain rfl : color = c := balanced.getColor
    rw [deleteAt]
    split
    · exact balanced_deleteNode balanced fits
    · split
      · obtain ⟨l, m, below, fits⟩ := fits.below balanced
        exact leftIh _ below fits
      · obtain ⟨r, m, beside, fits⟩ := fits.beside balanced
        exact rightIh _ beside fits

end Balance

/-! Deletion does not look at the data. -/

section Map
variable {β : Type} (f : α → β)

def Frame.map (frame : Frame α) : Frame β :=
  ⟨frame.side, frame.color, frame.key32, f frame.data, frame.other.map f⟩

@[simp] theorem map_fill (frame : Frame α) (t : Node α) :
    (frame.fill t).map f = (frame.map f).fill (t.map f) := by
  obtain ⟨side, color, key, data, other⟩ := frame
  cases side <;> rfl

@[simp] theorem map_plug (t : Node α) (path : List (Frame α)) :
    (plug t path).map f = plug (t.map f) (path.map (Frame.map f)) := by
  induction path generalizing t with
  | nil => rfl
  | cons frame path ih =>
    rw [plug, ih, map_fill]
    rfl

@[simp] theorem getColor_map (t : Node α) : (t.map f).getColor = t.getColor := by
  cases t <;> rfl

@[simp] theorem getColorLeft_map (t : Node α) : (t.map f).getColorLeft = t.getColorLeft := by
  cases t
  · rfl
  · exact getColor_map f _

@[simp] theorem getColorRight_map (t : Node α) : (t.map f).getColorRight = t.getColorRight := by
  cases t
  · rfl
  · exact getColor_map f _

@[simp] theorem map_setColor (color : Color) (t : Node α) :
    (t.setColor color).map f = (t.map f).setColor color := by
  cases t <;> rfl

@[simp] theorem map_setColorLeft (color : Color) (t : Node α) :
    (t.setColorLeft color).map f = (t.map f).setColorLeft color := by
  cases t <;> simp [Node.setColorLeft, Node.map]

@[simp] theorem map_setColorRight (color : Color) (t : Node α) :
    (t.setColorRight color).map f = (t.map f).setColorRight color := by
  cases t <;> simp [Node.setColorRight, Node.map]

@[simp] theorem map_rotateLeft (t : Node α) : (rotateLeft t).map f = rotateLeft (t.map f) := by
  rcases t with _ | ⟨color, left, key, data, _ | _⟩ <;> rfl

@[simp] theorem map_rotateRight (t : Node α) : (rotateRight t).map f = rotateRight (t.map f) := by
  rcases t with _ | ⟨color, _ | _, key, data, right⟩ <;> rfl

theorem map_deleteCase6 (node : Node α) (parent : Frame α) :
    (deleteCase6 node parent).map f = deleteCase6 (node.map f) (parent.map f) := by
  obtain ⟨side, color, key, data, other⟩ := parent
  cases side <;> simp [deleteCase6, Frame.map]

theorem map_deleteCase5 (node : Node α) (parent : Frame α) :
    (deleteCase5 node parent).map f = deleteCase5 (node.map f) (parent.map f) := by
  simp only [deleteCase5, Frame.map, getColor_map, getColorLeft_map, getColorRight_map]
  split_ifs <;> simp [map_deleteCase6, Frame.map]

theorem blackOther_map (parent : Frame α) : (parent.map f).blackOther ↔ parent.blackOther := by
  simp only [Frame.blackOther, Frame.map, getColor_map, getColorLeft_map, getColorRight_map]

theorem map_deleteCase4 (node : Node α) (parent : Frame α) :
    (deleteCase4 node parent).map f = deleteCase4 (node.map f) (parent.map f) := by
  have same : (parent.map f).color = .red ∧ (parent.map f).blackOther ↔
      parent.color = .red ∧ parent.blackOther := and_congr Iff.rfl (blackOther_map f parent)
  rw [deleteCase4, deleteCase4]
  by_cases painted : parent.color = .red ∧ parent.blackOther
  · rw [if_pos painted, if_pos (same.mpr painted), map_fill]
    simp [Frame.map]
  · rw [if_neg painted, if_neg (mt same.mp painted), map_deleteCase5]

theorem map_deleteCase2 (parent : Frame α) : deleteCase2 (parent.map f) =
    (deleteCase2 parent).map fun frames => (frames.1.map f, frames.2.map f) := by
  obtain ⟨side, color, key, data, _ | ⟨color', left, key', data', right⟩⟩ := parent
  · cases side <;> rfl
  · cases side <;> cases color' <;> rfl

theorem map_deleteCase1 (node : Node α) (path : List (Frame α)) :
    (deleteCase1 node path).map f = deleteCase1 (node.map f) (path.map (Frame.map f)) := by
  induction path generalizing node with
  | nil => rfl
  | cons parent path ih =>
    rw [List.map_cons, deleteCase1, deleteCase1, map_deleteCase2]
    cases deleteCase2 parent with
    | some frames =>
      refine (map_plug f _ _).trans ?_
      rw [map_deleteCase4]
      rfl
    | none =>
      have same : (parent.map f).color = .black ∧ (parent.map f).blackOther ↔
          parent.color = .black ∧ parent.blackOther := and_congr Iff.rfl (blackOther_map f parent)
      simp only [Option.map_none]
      by_cases painted : parent.color = .black ∧ parent.blackOther
      · rw [if_pos painted, if_pos (same.mpr painted), ih, map_fill]
        simp [Frame.map]
      · rw [if_neg painted, if_neg (mt same.mp painted), map_plug, map_deleteCase4]

theorem map_replaceNode (color : Color) (child : Node α) (path : List (Frame α)) :
    (replaceNode color child path).map f =
      replaceNode color (child.map f) (path.map (Frame.map f)) := by
  cases color with
  | red => exact map_plug f _ _
  | black =>
    simp only [replaceNode, getColor_map]
    split_ifs
    · rw [map_plug, map_setColor]
    · exact map_deleteCase1 f child path

theorem map_insertCase5 (node : Node α) (parent grandparent : Frame α) :
    (insertCase5 node parent grandparent).map f =
      insertCase5 (node.map f) (parent.map f) (grandparent.map f) := by
  obtain ⟨side, color, key, data, other⟩ := parent
  obtain ⟨side', color', key', data', other'⟩ := grandparent
  cases side <;> cases side' <;> simp [insertCase5, Frame.map]

theorem map_insertCase4 (node : Node α) (parent grandparent : Frame α) :
    (insertCase4 node parent grandparent).map f =
      insertCase4 (node.map f) (parent.map f) (grandparent.map f) := by
  cases node with
  | leaf => exact map_insertCase5 f .leaf parent grandparent
  | node color left key data right =>
    obtain ⟨side, color', key', data', other⟩ := parent
    obtain ⟨side', color'', key'', data'', other'⟩ := grandparent
    cases side <;> cases side' <;> simp [insertCase4, map_insertCase5, Node.map, Frame.map]

theorem map_insertCase1 (node : Node α) (path : List (Frame α)) :
    (insertCase1 node path).map f = insertCase1 (node.map f) (path.map (Frame.map f)) := by
  induction node, path using insertCase1.induct with
  | case1 node => exact map_setColor f .black node
  | case2 node parent => exact map_fill f parent node
  | case3 node parent grandparent path black =>
    have black' : (parent.map f).color = .black := black
    rw [insertCase1, if_pos black, map_plug, List.map_cons, List.map_cons, insertCase1, if_pos black']
  | case4 node parent grandparent path red uncle ih =>
    have red' : ¬ (parent.map f).color = .black := red
    have uncle' : (grandparent.map f).other.getColor = .red := (getColor_map f _).trans uncle
    rw [insertCase1, if_neg red, if_pos uncle, ih, List.map_cons, List.map_cons, insertCase1,
      if_neg red', if_pos uncle', map_fill, map_fill]
    simp [Frame.map]
  | case5 node parent grandparent path red uncle =>
    have red' : ¬ (parent.map f).color = .black := red
    have uncle' : ¬ (grandparent.map f).other.getColor = .red := fun color =>
      uncle ((getColor_map f _).symm.trans color)
    rw [insertCase1, if_neg red, if_neg uncle, List.map_cons, List.map_cons, insertCase1, if_neg red',
      if_neg uncle', map_plug, map_insertCase4]

theorem map_insertAt (key : Key) (data : α) (t : Node α) (path : List (Frame α)) :
    (insertAt key data t path).map f = insertAt key (f data) (t.map f) (path.map (Frame.map f)) := by
  induction t generalizing path with
  | leaf =>
    cases path with
    | nil => rfl
    | cons frame path => exact map_insertCase1 f _ _
  | node color left key' data' right leftIh rightIh =>
    simp only [insertAt, Node.map]
    split_ifs
    · exact map_plug f _ _
    · exact leftIh _
    · exact rightIh _

theorem lookup_map (key : Key) (t : Node α) : lookup key (t.map f) = (lookup key t).map f := by
  induction t with
  | leaf => rfl
  | node color left key' data' right leftIh rightIh =>
    simp only [Node.map, lookup]
    split_ifs
    · rfl
    · exact leftIh
    · exact rightIh

theorem toList_map (t : Node α) : (t.map f).toList = t.toList.map fun e => (e.1, f e.2) := by
  induction t with
  | leaf => rfl
  | node color left key data right leftIh rightIh =>
    simp [Node.map, Node.toList, leftIh, rightIh]

theorem ordered_map {t : Node α} (ordered : t.Ordered) : (t.map f).Ordered := by
  rw [Node.Ordered, toList_map, List.pairwise_map]
  exact ordered

theorem last_map (t : Node α) : (t.map f).last = t.last.map fun e => (e.1, f e.2) := by
  rw [last_eq, last_eq, toList_map, List.getLast?_map]

theorem map_deleteLast (t : Node α) (path : List (Frame α)) :
    (deleteLast t path).map f = deleteLast (t.map f) (path.map (Frame.map f)) := by
  induction t, path using deleteLast.induct with
  | case1 path => exact map_plug f .leaf path
  | case2 color left key data path => exact map_replaceNode f color left path
  | case3 color left key data right path notLeaf ih =>
    cases right with
    | leaf => exact absurd rfl notLeaf
    | node => exact ih

theorem map_deleteNode (color : Color) (left right : Node α) (path : List (Frame α)) :
    (deleteNode color left right path).map f =
      deleteNode color (left.map f) (right.map f) (path.map (Frame.map f)) := by
  cases last : left.last with
  | none =>
    have last' : (left.map f).last = none := by rw [last_map, last]; rfl
    simp only [deleteNode, last, last', map_replaceNode]
  | some entry =>
    have last' : (left.map f).last = some (entry.1, f entry.2) := by rw [last_map, last]; rfl
    cases right with
    | leaf => rw [deleteNode_leaf, Node.map, deleteNode_leaf, map_replaceNode]
    | node color' l key data r =>
      have child : Node.node color' l key data r ≠ .leaf := by simp
      have child' : (Node.node color' l key data r).map f ≠ .leaf := by simp [Node.map]
      rw [deleteNode_last last child, deleteNode_last last' child', map_deleteLast]
      rfl

theorem map_deleteAt (key : Key) (t : Node α) (path : List (Frame α)) :
    (deleteAt key t path).map f = deleteAt key (t.map f) (path.map (Frame.map f)) := by
  induction t generalizing path with
  | leaf => exact map_plug f .leaf path
  | node color left key' data' right leftIh rightIh =>
    simp only [deleteAt, Node.map]
    split_ifs
    · exact map_deleteNode f color left right path
    · exact leftIh _
    · exact rightIh _

end Map

end Rbtree

namespace Table
variable {α : Type}

/-- `trbt_delete32` -/
def delete32 (t : Table α) (key : Key) : Table α where
  root := Rbtree.deleteAt key t.root []
  ordered := by
    rw [Rbtree.Node.Ordered, Rbtree.toList_deleteAt key t.root [] t.ordered]
    simpa [Rbtree.before, Rbtree.after] using t.ordered.filter _

theorem toList_delete32 (t : Table α) (key : Key) :
    (t.delete32 key).toList = t.toList.filter fun e => e.1 ≠ key := by
  simp [toList, delete32, Rbtree.toList_deleteAt key t.root [] t.ordered, Rbtree.before,
    Rbtree.after]

theorem lookup32_delete32 (t : Table α) (key key' : Key) :
    (t.delete32 key).lookup32 key' = if key' = key then none else t.lookup32 key' := by
  apply Option.ext
  intro found
  rw [← mem_toList, toList_delete32, List.mem_filter, mem_toList]
  by_cases same : key' = key
  · simp [same]
  · simp [same]

end Table
end Phat
