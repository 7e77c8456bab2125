import Phat.TrbtShape

/-! Insertion in memory: `trbt_insert_case1` rebalances the tree in memory as its model in
`Phat.Rbtree` does the tree that is read, and dereferences no NULL. -/
namespace Phat.Trbt
open PointerTree
open Rbtree (Color Node)
variable {α : Type} {own : NodeRef → Prop} {m m' : Memory α} {tree : TreeRef}
  {t left right : Shape NodeRef} {path : List (Frame NodeRef)} {a : NodeRef}

/-- The tree in memory has been rebalanced to this one. -/
def Rebalanced (own : NodeRef → Prop) (tree : TreeRef) (m m' : Memory α) (t : Node NodeRef) : Prop :=
  ∃ shape, Located own m' tree shape [] ∧ m'.read shape = t ∧ Rearranged own tree m m'

theorem Rebalanced.of_located (at' : Located own m' tree t path) (moved : Rearranged own tree m m') :
    Rebalanced own tree m m' (Rbtree.plug (m'.read t) (m'.readPath path)) :=
  ⟨plug t path, located_plug.mpr at', m'.read_plug t path, moved⟩

theorem insertCase5_located {p g : Frame NodeRef} (outer : p.side = g.side)
    (here : t.root = some a) (at' : Located own m tree t (p :: g :: path)) :
    ∃ m', m.insertCase5 a = some m' ∧ Rebalanced own tree m m' (Rbtree.plug
      (Rbtree.insertCase5 (m.read t) (m.readFrame p) (m.readFrame g)) (m.readPath path)) := by
  have parent : m.parent a = some p.self := at'.parent_eq here
  have grandparent : m.parent p.self = some g.self := at'.up.parent_eq (root_fill p t)
  obtain ⟨pT, pOther, pPath⟩ := at'.apart
  obtain ⟨gP, gOther, gPath⟩ := at'.up.apart
  rw [Frame.fill, Shape.mem_members_mk, not_or, not_or] at gP
  rw [pathMembers, List.mem_append, List.mem_cons, not_or, not_or] at pPath
  obtain ⟨gNeP, gT, gPOther⟩ := gP
  have painted := (at'.setColor p.self .black).setColor g.self .red
  generalize colored : (m.setColor p.self .black).setColor g.self .red = m₂ at painted
  have readT : m₂.read t = m.read t := by
    rw [← colored, Memory.read_setColor_of_notMem gT, Memory.read_setColor_of_notMem pT]
  have readP : m₂.readFrame p = { m.readFrame p with color := .black } := by
    rw [← colored, Memory.readFrame_setColor_of_notMem gNeP gPOther,
      Memory.readFrame_setColor pOther]
  have readG : m₂.readFrame g = { m.readFrame g with color := .red } := by
    rw [← colored, Memory.readFrame_setColor gOther,
      Memory.readFrame_setColor_of_notMem (Ne.symm gNeP) pPath.1.2]
  have readPath : m₂.readPath path = m.readPath path := by
    rw [← colored, Memory.readPath_setColor_of_notMem gPath,
      Memory.readPath_setColor_of_notMem pPath.2]
  have moved : Rearranged own tree m m₂ :=
    colored ▸ (Rearranged.setColor at'.mem_self _).trans (.setColor at'.up.mem_self _)
  have turned := painted.up.up
  rw [Frame.fill, Frame.fill, ← outer, ← Shape.mk_opposite, ← Shape.mk_opposite p.side] at turned
  obtain ⟨m', rotated, at'', color, moved'⟩ := turned.rotate
  refine ⟨m', ?_, ?_⟩
  · simp only [Memory.insertCase5, parent, grandparent, Option.bind_eq_bind, Option.bind_some,
      colored]
    have nodeSide : some a = m₂.left p.self ↔ p.side = .left := painted.child_iff here .left
    have parentSide : some p.self = m₂.left g.self ↔ p.side = .left :=
      outer ▸ painted.up.child_iff (root_fill p t) .left
    cases side : p.side with
    | left =>
      rw [if_pos ⟨nodeSide.mpr side, parentSide.mpr side⟩]
      rw [side] at rotated
      exact rotated
    | right =>
      rw [if_neg fun both => Side.noConfusion (side.symm.trans (nodeSide.mp both.1))]
      rw [side] at rotated
      exact rotated
  · have result := Rebalanced.of_located at'' (moved.trans moved')
    rw [Memory.read_eq color moved'.key32, Memory.readPath_eq color moved'.key32, readPath] at result
    convert result using 2
    rw [Rbtree.insertCase5, ← readP, ← readG, ← readT]
    obtain ⟨side, p, other⟩ := p
    obtain ⟨side', g, other'⟩ := g
    cases outer
    cases side with
    | left =>
      rw [if_pos ⟨rfl, rfl⟩]
      rfl
    | right =>
      rw [if_neg fun both => Side.noConfusion both.1]
      rfl

/-- An inner grandchild is rotated outwards first. -/
theorem insertCase4_inner {p g : Frame NodeRef} {near far : Shape NodeRef}
    (inner : g.side = p.side.opposite)
    (at' : Located own m tree (Shape.mk p.side.opposite near a far) (p :: g :: path)) :
    ∃ m₁ m', m.rotate p.side.opposite p.self = some m₁ ∧ m₁.child p.side.opposite a = some p.self ∧
      m₁.insertCase5 p.self = some m' ∧ Rebalanced own tree m m' (Rbtree.plug
        (Rbtree.insertCase5 (m.read (Shape.mk p.side.opposite p.other p.self near))
          (m.readFrame ⟨p.side.opposite, a, far⟩) (m.readFrame g)) (m.readPath path)) := by
  have turned := at'.up
  rw [Frame.fill, ← Shape.mk_opposite] at turned
  obtain ⟨m₁, rotated, at₁, color, moved⟩ := turned.rotate
  have at₂ := located_child.mp at₁
  have down : m₁.child p.side.opposite a = some p.self := at₂.focus.down.trans (Shape.root_mk ..)
  obtain ⟨m', done, shape, at₃, read, moved'⟩ :=
    insertCase5_located inner.symm (Shape.root_mk ..) at₂
  have readFrame : m₁.readFrame = m.readFrame := by
    funext f
    rw [Memory.readFrame, Memory.readFrame, Memory.read_eq color moved.key32, color, moved.key32]
  rw [Memory.read_eq color moved.key32, Memory.readPath_eq color moved.key32, readFrame] at read
  exact ⟨m₁, m', rotated, down, done, shape, at₃, read, moved.trans moved'⟩

theorem insertCase4_located {p g : Frame NodeRef}
    (at' : Located own m tree (.node left a right) (p :: g :: path)) :
    ∃ m', m.insertCase4 a = some m' ∧ Rebalanced own tree m m' (Rbtree.plug
      (Rbtree.insertCase4 (m.read (.node left a right)) (m.readFrame p) (m.readFrame g))
      (m.readPath path)) := by
  have parent : m.parent a = some p.self := at'.parent_eq rfl
  have grandparent : m.parent p.self = some g.self := at'.up.parent_eq (root_fill p _)
  have nodeSide : ∀ side, some a = m.child side p.self ↔ p.side = side := at'.child_iff rfl
  have parentSide : ∀ side, some p.self = m.child side g.self ↔ g.side = side :=
    at'.up.child_iff (root_fill p _)
  by_cases outer : p.side = g.side
  · obtain ⟨m', done, result⟩ := insertCase5_located outer rfl at'
    have notRight : ¬ (some a = m.right p.self ∧ some p.self = m.left g.self) := by
      intro both
      have := (nodeSide .right).mp both.1
      rw [outer, (parentSide .left).mp both.2] at this
      cases this
    have notLeft : ¬ (some a = m.left p.self ∧ some p.self = m.right g.self) := by
      intro both
      have := (nodeSide .left).mp both.1
      rw [outer, (parentSide .right).mp both.2] at this
      cases this
    refine ⟨m', ?_, ?_⟩
    · simp only [Memory.insertCase4, parent, grandparent, Option.bind_eq_bind, Option.bind_some]
      rw [if_neg notRight, if_neg notLeft, done]
    · obtain ⟨pSide, p, pOther⟩ := p
      obtain ⟨gSide, g, gOther⟩ := g
      cases outer
      cases pSide <;> exact result
  · have inner : g.side = p.side.opposite := Side.eq_opposite (Ne.symm outer)
    obtain ⟨pSide, p, pOther⟩ := p
    obtain ⟨gSide, g, gOther⟩ := g
    cases inner
    cases pSide with
    | left =>
      obtain ⟨m₁, m', rotated, down, done, result⟩ := insertCase4_inner
        (p := ⟨.left, p, pOther⟩) (g := ⟨.right, g, gOther⟩) rfl at'
      have notRight : ¬ (some a = m.right p ∧ some p = m.left g) := fun both =>
        Side.noConfusion ((nodeSide .right).mp both.1)
      have left : some a = m.left p ∧ some p = m.right g :=
        ⟨(nodeSide .left).mpr rfl, (parentSide .right).mpr rfl⟩
      have rotated : m.rotateRight p = some m₁ := rotated
      have down : m₁.right a = some p := down
      refine ⟨m', ?_, result⟩
      simp only [Memory.insertCase4, parent, grandparent, Option.bind_eq_bind, Option.bind_some]
      rw [if_neg notRight, if_pos left]
      simp only [rotated, down, done, Option.bind_some]
    | right =>
      obtain ⟨m₁, m', rotated, down, done, result⟩ := insertCase4_inner
        (p := ⟨.right, p, pOther⟩) (g := ⟨.left, g, gOther⟩) rfl at'
      have right : some a = m.right p ∧ some p = m.left g :=
        ⟨(nodeSide .right).mpr rfl, (parentSide .left).mpr rfl⟩
      have rotated : m.rotateLeft p = some m₁ := rotated
      have down : m₁.left a = some p := down
      refine ⟨m', ?_, result⟩
      simp only [Memory.insertCase4, parent, grandparent, Option.bind_eq_bind, Option.bind_some]
      rw [if_pos right]
      simp only [rotated, down, done, Option.bind_some]

theorem uncle_eq {p g : Frame NodeRef} (here : t.root = some a)
    (at' : Located own m tree t (p :: g :: path)) : m.uncle a = g.other.root := by
  have grandparent : m.parent p.self = some g.self := at'.up.parent_eq (root_fill p t)
  simp only [Memory.uncle, at'.parent_eq here, above_cons, grandparent]
  exact at'.up.other_eq (root_fill p t)

/-- The colours that `trbt_insert_case3` assigns when the uncle is red. -/
theorem insertCase3_colors {p g : Frame NodeRef} {uncle : NodeRef} (sibling : g.other.root = some uncle)
    (at' : Located own m tree t (p :: g :: path)) :
    let m' := ((m.setColor p.self .black).setColor uncle .black).setColor g.self .red
    Located own m' tree (g.fill (p.fill t)) path ∧ Rearranged own tree m m' ∧
      m'.read (g.fill (p.fill t)) =
        Rbtree.Frame.fill { m.readFrame g with
          color := .red, other := (m.read g.other).setColor .black }
          (Rbtree.Frame.fill { m.readFrame p with color := .black } (m.read t)) ∧
      m'.readPath path = m.readPath path := by
  intro m'
  obtain ⟨pT, pOther, pPath⟩ := at'.apart
  obtain ⟨gP, gOther, gPath⟩ := at'.up.apart
  rw [Frame.fill, Shape.mem_members_mk, not_or, not_or] at gP
  rw [pathMembers, List.mem_append, List.mem_cons, not_or, not_or] at pPath
  obtain ⟨gNeP, gT, gPOther⟩ := gP
  have inOther := Shape.root_mem sibling
  obtain ⟨uFill, uPath⟩ := at'.up.disjoint uncle inOther
  rw [Frame.fill, Shape.mem_members_mk, not_or, not_or] at uFill
  obtain ⟨uP, uT, uPOther⟩ := uFill
  have otherDistinct : g.other.members.Nodup := by
    have distinct := (List.nodup_append.mp at'.up.focus.distinct).2.1
    rw [pathMembers, List.cons_append, List.nodup_cons, List.nodup_append] at distinct
    exact distinct.2.1
  have moved : Rearranged own tree m m' :=
    ((Rearranged.setColor at'.mem_self _).trans (.setColor
      (at'.up.mine uncle (List.mem_append_right _ (List.mem_cons_of_mem _
        (List.mem_append_left _ inOther)))) _)).trans (.setColor at'.up.mem_self _)
  refine ⟨(((at'.setColor p.self .black).setColor uncle .black).setColor g.self .red).up.up, moved,
    ?_, ?_⟩
  · have readT : m'.read t = m.read t := by
      rw [Memory.read_setColor_of_notMem gT, Memory.read_setColor_of_notMem uT,
        Memory.read_setColor_of_notMem pT]
    have readP : m'.readFrame p = { m.readFrame p with color := .black } := by
      rw [Memory.readFrame_setColor_of_notMem gNeP gPOther,
        Memory.readFrame_setColor_of_notMem uP uPOther, Memory.readFrame_setColor pOther]
    have readOther : m'.read g.other = (m.read g.other).setColor .black := by
      rw [Memory.read_setColor_of_notMem gOther]
      cases shape : g.other with
      | nil => rfl
      | node left self right =>
        rw [shape] at sibling otherDistinct pPath
        cases sibling
        rw [Memory.read_setColor otherDistinct, Memory.read_setColor_of_notMem pPath.1.2]
    have readG : m'.readFrame g = { m.readFrame g with
        color := .red, other := (m.read g.other).setColor .black } := by
      rw [Memory.readFrame, readOther, moved.key32, Memory.rbColor_setColor, Function.update_self]
      rfl
    rw [Memory.read_fill, Memory.read_fill, readT, readP, readG]
  · rw [Memory.readPath_setColor_of_notMem gPath, Memory.readPath_setColor_of_notMem uPath,
      Memory.readPath_setColor_of_notMem pPath.2]

theorem insertCase1_located (fuel : Nat) (here : t.root = some a)
    (at' : Located own m tree t path) (enough : path.length < 2 * fuel) :
    ∃ m', m.insertCase1 fuel a = some m' ∧
      Rebalanced own tree m m' (Rbtree.insertCase1 (m.read t) (m.readPath path)) := by
  induction fuel generalizing m t a path with
  | zero => omega
  | succ fuel ih =>
    have parent := at'.parent_eq here
    cases t with
    | nil => cases here
    | node left top right =>
    cases here
    match path, at', enough, parent with
    | [], at', enough, parent =>
      refine ⟨m.setColor a .black, ?_, .node left a right, at'.setColor a .black,
        Memory.read_setColor at'.nodup, .setColor (at'.mem_root rfl) _⟩
      rw [Memory.insertCase1, parent]
      rfl
    | [p], at', enough, parent =>
      refine ⟨m, ?_, Rebalanced.of_located at' .rfl'⟩
      have root : m.parent p.self = none := at'.up.parent_eq (root_fill p _)
      have parent : m.parent a = some p.self := parent
      simp only [Memory.insertCase1, parent, Memory.insertCase2, Memory.insertCase3, Memory.uncle, root,
        Memory.insertCase4, Option.bind_eq_bind, Option.bind_some, ite_self]
    | p :: g :: path, at', enough, parent =>
      have parent : m.parent a = some p.self := parent
      have grandparent : m.parent p.self = some g.self := at'.up.parent_eq (root_fill p _)
      have uncle := uncle_eq rfl at'
      rw [Memory.insertCase1, parent]
      simp only [Memory.insertCase2, parent, Option.bind_eq_bind, Option.bind_some]
      rw [Memory.readPath, List.map_cons, List.map_cons, Rbtree.insertCase1]
      split
      · rename_i black
        rw [if_pos (show (m.readFrame p).color = .black from black)]
        exact ⟨m, rfl, Rebalanced.of_located at' .rfl'⟩
      · rename_i notBlack
        rw [if_neg (show (m.readFrame p).color ≠ .black from notBlack), Memory.insertCase3, uncle]
        cases other : g.other with
        | nil =>
          rw [if_neg (by simp [Memory.readFrame, other, Memory.read, Node.getColor])]
          exact insertCase4_located at'
        | node ul uncle ur =>
          have color : (m.readFrame g).other.getColor = m.rbColor uncle := by
            rw [Memory.readFrame, other]
            rfl
          rw [color]
          simp only [Shape.root_node]
          split
          · obtain ⟨at₁, moved, read, readPath⟩ :=
              insertCase3_colors (other ▸ Shape.root_node ..) at'
            obtain ⟨m', done, shape, at₂, result, moved'⟩ :=
              ih (root_fill g _) at₁ (by simp only [List.length_cons] at enough; omega)
            refine ⟨m', ?_, shape, at₂, ?_, moved.trans moved'⟩
            · simp only [parent, grandparent, Memory.parent_setColor, Option.bind_eq_bind,
                Option.bind_some]
              exact done
            · rw [result, read, readPath]
              rfl
          · exact insertCase4_located at'

end Phat.Trbt
