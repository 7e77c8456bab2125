import Phat.Rbtree
import Mathlib.Data.Nat.Log
import Mathlib.Data.Fintype.Card

/-! The balance of the tree of rbtree.c. No red node has a red child, and all paths down to NULL
have the same number of black nodes; `trbt_insert_case1` restores this after an insertion. A tree
of `n` nodes is then at most `2 * log2 (n + 1)` nodes high. -/
namespace Phat
namespace Rbtree
variable {α : Type} {t left right : Node α} {path : List (Frame α)} {c c' : Color} {n : Nat}
  {key : Key} {data : α}

/-- With the colour of the root and the number of black nodes on the way down from it. -/
inductive Balanced : Node α → Color → Nat → Prop where
  | leaf : Balanced .leaf .black 0
  | red {left right : Node α} {n : Nat} {key : Key} {data : α} (below : Balanced left .black n)
      (beside : Balanced right .black n) : Balanced (.node .red left key data right) .red n
  | black {left right : Node α} {c c' : Color} {n : Nat} {key : Key} {data : α}
      (below : Balanced left c n) (beside : Balanced right c' n) :
      Balanced (.node .black left key data right) .black (n + 1)

/-- The black nodes that a node of this colour adds to the number below it. -/
def Color.count : Color → Nat
  | .red => 0
  | .black => 1

/-- A tree with such a root and that many black nodes keeps the balance in this place. -/
def Fits : List (Frame α) → Color → Nat → Prop
  | [], c, _ => c = .black
  | f :: path, c, n =>
      (∃ c', Balanced f.other c' n ∧ (f.color = .red → c = .black ∧ c' = .black)) ∧
        Fits path f.color (n + f.color.count)

theorem Balanced.getColor (balanced : Balanced t c n) : t.getColor = c := by
  cases balanced <;> rfl

/-- The children of a node and the number below it. -/
theorem balanced_node : Balanced (.node c left key data right) c n ↔
    ∃ l r m, Balanced left l m ∧ Balanced right r m ∧ n = m + c.count ∧
      (c = .red → l = .black ∧ r = .black) := by
  constructor
  · rintro balanced
    cases balanced with
    | red below beside => exact ⟨_, _, n, below, beside, rfl, fun _ => ⟨rfl, rfl⟩⟩
    | black below beside => exact ⟨_, _, _, below, beside, rfl, Color.noConfusion⟩
  · rintro ⟨l, r, m, below, beside, rfl, colors⟩
    cases c with
    | red =>
      obtain ⟨rfl, rfl⟩ := colors rfl
      exact .red below beside
    | black => exact .black below beside

theorem Fits.fill {f : Frame α} (balanced : Balanced t c n) (fits : Fits (f :: path) c n) :
    Balanced (f.fill t) f.color (n + f.color.count) := by
  obtain ⟨⟨c', other, colors⟩, _⟩ := fits
  obtain ⟨side, color, key, data, sibling⟩ := f
  cases side with
  | left => exact balanced_node.mpr ⟨c, c', n, balanced, other, rfl, colors⟩
  | right =>
    exact balanced_node.mpr ⟨c', c, n, other, balanced, rfl, fun red => (colors red).symm⟩

theorem balanced_plug (balanced : Balanced t c n) (fits : Fits path c n) :
    ∃ height, Balanced (plug t path) .black height := by
  induction path generalizing t c n with
  | nil => exact ⟨n, (show c = .black from fits) ▸ balanced⟩
  | cons f path ih => exact ih (fits.fill balanced) fits.2

/-- A black root is right wherever a red one is. -/
theorem Fits.blacken (fits : Fits path c n) : Fits path .black n := by
  cases path with
  | nil => rfl
  | cons f path =>
    obtain ⟨⟨c', other, colors⟩, rest⟩ := fits
    exact ⟨⟨c', other, fun red => ⟨rfl, (colors red).2⟩⟩, rest⟩

/-- Going down into a child. -/
theorem Fits.below (balanced : Balanced (.node c left key data right) c n) (fits : Fits path c n) :
    ∃ l m, Balanced left l m ∧ Fits (⟨.left, c, key, data, right⟩ :: path) l m := by
  obtain ⟨l, r, m, below, beside, rfl, colors⟩ := balanced_node.mp balanced
  exact ⟨l, m, below, ⟨r, beside, colors⟩, fits⟩

theorem Fits.beside (balanced : Balanced (.node c left key data right) c n) (fits : Fits path c n) :
    ∃ r m, Balanced right r m ∧ Fits (⟨.right, c, key, data, left⟩ :: path) r m := by
  obtain ⟨l, r, m, below, beside, rfl, colors⟩ := balanced_node.mp balanced
  exact ⟨r, m, beside, ⟨l, below, fun red => (colors red).symm⟩, fits⟩

theorem Balanced.of_getColor (balanced : Balanced t c n) (color : t.getColor = c') :
    Balanced t c' n := by
  rw [balanced.getColor] at color
  exact color ▸ balanced

theorem balanced_setColor_black (balanced : Balanced t .red n) :
    Balanced (t.setColor .black) .black (n + 1) := by
  cases balanced with
  | red below beside => exact .black below beside

/-- `trbt_insert_case5` on a red node with a red parent on the same side. -/
theorem balanced_insertCase5 {parent grandparent : Frame α} (outer : parent.side = grandparent.side)
    (balanced : Balanced t .red n) (sibling : Balanced parent.other .black n)
    (uncle : Balanced grandparent.other .black n) :
    Balanced (insertCase5 t parent grandparent) .black (n + 1) := by
  obtain ⟨side, color, key, data, other⟩ := parent
  obtain ⟨side', color', key', data', other'⟩ := grandparent
  cases outer
  cases side with
  | left => exact .black balanced (.red sibling uncle)
  | right => exact .black (.red uncle sibling) balanced

theorem balanced_insertCase4 {parent grandparent : Frame α} (balanced : Balanced t .red n)
    (sibling : Balanced parent.other .black n) (uncle : Balanced grandparent.other .black n)
    (red : parent.color = .red) : Balanced (insertCase4 t parent grandparent) .black (n + 1) := by
  obtain ⟨side, color, key, data, other⟩ := parent
  obtain ⟨side', color', key', data', other'⟩ := grandparent
  cases red
  cases balanced with
  | red below beside =>
    cases side with
    | left =>
      cases side' with
      | left =>
        simp only [insertCase4, reduceCtorEq, false_and, and_false, ↓reduceIte]
        exact balanced_insertCase5 rfl (.red below beside) sibling uncle
      | right =>
        simp only [insertCase4, reduceCtorEq, false_and, and_true, ↓reduceIte]
        exact balanced_insertCase5 rfl (.red beside sibling) below uncle
    | right =>
      cases side' with
      | left =>
        simp only [insertCase4, and_self, ↓reduceIte]
        exact balanced_insertCase5 rfl (.red sibling below) beside uncle
      | right =>
        simp only [insertCase4, reduceCtorEq, false_and, and_false, ↓reduceIte]
        exact balanced_insertCase5 rfl (.red below beside) sibling uncle

/-- A black node above takes a child of either colour. -/
theorem Fits.of_black {f : Frame α} (black : f.color = .black) (fits : Fits (f :: path) c n) :
    Fits (f :: path) c' n := by
  obtain ⟨⟨other, balanced, _⟩, rest⟩ := fits
  refine ⟨⟨other, balanced, fun red => ?_⟩, rest⟩
  rw [black] at red
  cases red

theorem Color.eq_red {color : Color} (other : color ≠ .black) : color = .red := by
  cases color
  · rfl
  · exact absurd rfl other

theorem Color.eq_black {color : Color} (other : color ≠ .red) : color = .black := by
  cases color
  · exact absurd rfl other
  · rfl

/-- Above a red node there is a black one. -/
theorem Fits.red_parent {parent grandparent : Frame α} (red : parent.color = .red)
    (fits : Fits (parent :: grandparent :: path) .black n) :
    Balanced parent.other .black n ∧ grandparent.color = .black ∧
      (∃ c', Balanced grandparent.other c' n) ∧ Fits path .black (n + 1) := by
  obtain ⟨⟨_, sibling, colors⟩, ⟨uncleColor, uncle, blackAbove⟩, rest⟩ := fits
  obtain ⟨_, rfl⟩ := colors red
  rw [red] at uncle rest blackAbove
  have black : grandparent.color = .black := by
    refine Color.eq_black fun above => ?_
    exact absurd (blackAbove above).1 (by decide)
  rw [black] at rest
  exact ⟨sibling, black, ⟨uncleColor, uncle⟩, rest⟩

/-- Rebalancing lets a red node take the place of a black one. -/
theorem balanced_insertCase1 (t : Node α) (path : List (Frame α)) (balanced : Balanced t .red n)
    (fits : Fits path .black n) : ∃ height, Balanced (insertCase1 t path) .black height := by
  induction t, path using insertCase1.induct generalizing n with
  | case1 t => exact ⟨n + 1, balanced_setColor_black balanced⟩
  | case2 t parent => exact balanced_plug balanced (Fits.of_black fits.2 fits)
  | case3 t parent grandparent path black =>
    rw [insertCase1, if_pos black]
    exact balanced_plug balanced (Fits.of_black black fits)
  | case4 t parent grandparent path notBlack uncle ih =>
    rw [insertCase1, if_neg notBlack, if_pos uncle]
    obtain ⟨sibling, black, ⟨_, uncleBalanced⟩, rest⟩ := fits.red_parent (Color.eq_red notBlack)
    have painted := balanced_setColor_black (uncleBalanced.of_getColor uncle)
    refine ih ?_ rest
    obtain ⟨side, color, key, data, other⟩ := parent
    obtain ⟨side', color', key', data', other'⟩ := grandparent
    have parentBalanced : Balanced (Frame.fill ⟨side, .black, key, data, other⟩ t) .black (n + 1) := by
      cases side with
      | left => exact .black balanced sibling
      | right => exact .black sibling balanced
    cases side' with
    | left => exact .red parentBalanced painted
    | right => exact .red painted parentBalanced
  | case5 t parent grandparent path notBlack uncle =>
    rw [insertCase1, if_neg notBlack, if_neg uncle]
    have red := Color.eq_red notBlack
    obtain ⟨sibling, black, ⟨_, uncleBalanced⟩, rest⟩ := fits.red_parent red
    have uncleBlack := uncleBalanced.of_getColor (Color.eq_black uncle)
    exact balanced_plug (balanced_insertCase4 balanced sibling uncleBlack red) rest

theorem balanced_insertAt (key : Key) (data : α) (t : Node α) (path : List (Frame α))
    (balanced : Balanced t c n) (fits : Fits path c n) :
    ∃ height, Balanced (insertAt key data t path) .black height := by
  induction t generalizing path c n with
  | leaf =>
    cases path with
    | nil => exact ⟨1, .black .leaf .leaf⟩
    | cons f path =>
      cases balanced
      exact balanced_insertCase1 _ _ (.red .leaf .leaf) fits
  | node color left key' data' right leftIh rightIh =>
    obtain rfl : color = c := balanced.getColor
    rw [insertAt]
    split
    · refine balanced_plug (balanced_node.mpr ?_) fits
      exact balanced_node.mp balanced
    · split
      · obtain ⟨l, m, below, fits⟩ := fits.below balanced
        exact leftIh _ below fits
      · obtain ⟨r, m, beside, fits⟩ := fits.beside balanced
        exact rightIh _ beside fits

section Height

/-- The longest way down to NULL. -/
def Node.height : Node α → Nat
  | .leaf => 0
  | .node _ left _ _ right => max left.height right.height + 1

/-- At most every second node on a way down is red. -/
theorem Balanced.height_le (balanced : Balanced t c n) :
    t.height + c.count ≤ 2 * n + 1 := by
  induction balanced with
  | leaf => simp [Node.height, Color.count]
  | red below beside leftIh rightIh =>
    simp only [Node.height, Color.count] at leftIh rightIh ⊢
    omega
  | @black left right c c' n key data below beside leftIh rightIh =>
    simp only [Node.height, Color.count] at leftIh rightIh ⊢
    omega

theorem Balanced.pow_le (balanced : Balanced t c n) : 2 ^ n ≤ t.toList.length + 1 := by
  induction balanced with
  | leaf => simp [Node.toList]
  | red below beside leftIh rightIh =>
    simp only [Node.toList, List.length_append, List.length_cons]
    omega
  | black below beside leftIh rightIh =>
    simp only [Node.toList, List.length_append, List.length_cons, Nat.pow_succ]
    omega

theorem Balanced.height_le_log (balanced : Balanced t .black n) :
    t.height ≤ 2 * Nat.log 2 (t.toList.length + 1) := by
  have height := balanced.height_le
  have bound : n ≤ Nat.log 2 (t.toList.length + 1) :=
    Nat.le_log_of_pow_le (by decide) balanced.pow_le
  rw [Color.count] at height
  omega

theorem Node.Ordered.length_le (ordered : t.Ordered) : t.toList.length ≤ 2 ^ 32 := by
  have distinct : (t.toList.map fun e => e.1.toFin).Nodup := by
    refine List.pairwise_map.mpr (ordered.imp fun less same => ?_)
    rw [BitVec.toFin_inj] at same
    bv_omega
  have bound := distinct.length_le_card
  rwa [List.length_map, Fintype.card_fin] at bound

/-- Keys of 32 bits do not make a tree any higher. -/
theorem Balanced.height_le_64 (balanced : Balanced t .black n) (ordered : t.Ordered) :
    t.height ≤ 64 := by
  have height := balanced.height_le
  rw [Color.count] at height
  have few : 2 ^ n < 2 ^ 33 := by
    have size := ordered.length_le
    have pow := balanced.pow_le
    omega
  have below : n < 33 := (Nat.pow_lt_pow_iff_right (by decide)).mp few
  omega

end Height

end Rbtree
end Phat
