import Phat.TrbtShape

/-! Deletion in memory: the cases of `trbt_delete_case1` rearrange what is above the node as their
models in `Phat.Rbtree` do. In a balanced tree there is a sibling wherever one is assigned to, so no
NULL is dereferenced. -/
namespace Phat.Trbt
open PointerTree
open Rbtree (Color Node Balanced Fits)
variable {α : Type} {own : NodeRef → Prop} {m m' : Memory α} {tree : TreeRef}
  {t left right : Shape NodeRef} {path : List (Frame NodeRef)} {a : NodeRef}

/-- What is above the node has been rearranged as `result` says, whatever the node is. -/
def Raised (own : NodeRef → Prop) (tree : TreeRef) (t : Shape NodeRef) (m m' : Memory α)
    (result : Node NodeRef → Node NodeRef) : Prop :=
  ∃ path, Located own m' tree t path ∧ Rearranged own tree m m' ∧ m'.read t = m.read t ∧
    ∀ node, result node = Rbtree.plug node (m'.readPath path)

/-- The sibling of the node, with its child that is nearer to the node and the other one. -/
theorem deleteCase6_located {side : Side} {p s : NodeRef} {near far : Shape NodeRef}
    (here : t.root = some a)
    (at' : Located own m tree t (⟨side, p, Shape.mk side near s far⟩ :: path)) :
    ∃ m', m.deleteCase6 a = some m' ∧ Raised own tree t m m' fun node => Rbtree.plug
      (Rbtree.deleteCase6 node (m.readFrame ⟨side, p, Shape.mk side near s far⟩))
      (m.readPath path) := by
  have parent : m.parent a = some p := at'.parent_eq here
  have sibling : m.sibling a = some s := (at'.sibling_eq here).trans (Shape.root_mk ..)
  obtain ⟨pT, pOther, pPath⟩ := at'.apart
  have disjoint := at'.disjoint
  have inOther : ∀ b, b = s ∨ b ∈ near.members ∨ b ∈ far.members →
      b ∉ t.members ∧ b ∉ pathMembers path := fun b member =>
    disjoint b (Shape.mem_members_mk.mpr member)
  have distinct := (Shape.members_mk side near far s).nodup_iff.mp (Located.turn.mp at').nodup
  rw [List.nodup_cons, List.mem_append, not_or, List.nodup_append] at distinct
  obtain ⟨⟨sNear, sFar⟩, nearDistinct, farDistinct, nearFar⟩ := distinct
  rw [Shape.mem_members_mk, not_or, not_or] at pOther
  obtain ⟨pS, pNear, pFar⟩ := pOther
  let m₂ := (m.setColor s (m.rbColor p)).setColor p .black
  let m₃ := m₂.paint far .black
  have keep : ∀ u : Shape NodeRef, s ∉ u.members → p ∉ u.members →
      (∀ b ∈ u.members, b ∉ far.members) → m₃.read u = m.read u := fun u sOut pOut disjoint => by
    rw [Memory.read_paint_of_disjoint disjoint, Memory.read_setColor_of_notMem pOut,
      Memory.read_setColor_of_notMem sOut]
  have readT : m₃.read t = m.read t :=
    keep t (inOther s (.inl rfl)).1 pT fun b member member' => (inOther b (.inr (.inr member'))).1 member
  have readNear : m₃.read near = m.read near :=
    keep near sNear pNear fun b member member' => nearFar b member b member' rfl
  have readFar : m₃.read far = (m.read far).setColor .black := by
    rw [Memory.read_paint farDistinct, Memory.read_setColor_of_notMem pFar,
      Memory.read_setColor_of_notMem sFar]
  have readPath : m₃.readPath path = m.readPath path := by
    rw [Memory.readPath_paint_of_disjoint fun b member member' =>
        (inOther b (.inr (.inr member'))).2 member,
      Memory.readPath_setColor_of_notMem pPath,
      Memory.readPath_setColor_of_notMem (inOther s (.inl rfl)).2]
  have colorP : m₃.rbColor p = .black := by
    rw [Memory.rbColor_paint_of_notMem pFar, Memory.rbColor_setColor, Function.update_self]
  have colorS : m₃.rbColor s = m.rbColor p := by
    rw [Memory.rbColor_paint_of_notMem sFar, Memory.rbColor_setColor,
      Function.update_of_ne (Ne.symm pS), Memory.rbColor_setColor, Function.update_self]
  have key : m₃.key32 = m.key32 := by
    rw [Memory.key32_paint, Memory.key32_setColor, Memory.key32_setColor]
  have ownS : own s := at'.mine s (List.mem_append_right _ (List.mem_cons_of_mem _
    (List.mem_append_left _ (Shape.mem_members_mk.mpr (.inl rfl)))))
  have ownFar : ∀ b ∈ far.members, own b := fun b member =>
    at'.mine b (List.mem_append_right _ (List.mem_cons_of_mem _
      (List.mem_append_left _ (Shape.mem_members_mk.mpr (.inr (.inr member))))))
  have painted : Rearranged own tree m₂ m₃ := Memory.paint_rearranged ownFar
  have moved : Rearranged own tree m m₃ :=
    ((Rearranged.setColor ownS _).trans (.setColor at'.mem_self _)).trans painted
  have at₂ : Located own m₂ tree t (⟨side, p, Shape.mk side near s far⟩ :: path) :=
    (at'.setColor s _).setColor p _
  have at₃ : Located own m₃ tree t (⟨side, p, Shape.mk side near s far⟩ :: path) :=
    at₂.of_links (Memory.links_paint tree) painted.treeOf
  obtain ⟨m', rotated, at'', color, moved'⟩ := Located.rotate at₃.up
  have readEq := Memory.read_eq color moved'.key32
  refine ⟨m', ?_, _, located_child.mp (located_child.mp at''), moved.trans moved', ?_, ?_⟩
  · have child : m₂.child side.opposite s = far.root :=
      (Links.holds_mk.mp (Located.turn.mp at₂).focus.holds).2.1
    simp only [Memory.deleteCase6, sibling, parent, Option.bind_eq_bind, Option.bind_some,
      Memory.setColorOf]
    have left₂ : some a = m₂.left p ↔ side = .left := at₂.child_iff here .left
    cases side with
    | left =>
      have child : m₂.right s = far.root := child
      rw [if_pos (left₂.mpr rfl), Memory.setColorRight, Option.bind_some, child,
        Memory.setColorOf_black]
      exact rotated
    | right =>
      have child : m₂.left s = far.root := child
      rw [if_neg fun here => Side.noConfusion (left₂.mp here), Memory.setColorLeft, Option.bind_some,
        child, Memory.setColorOf_black]
      exact rotated
  · rw [readEq, readT]
  · intro node
    have frameP : m'.readFrame ⟨side, p, near⟩ =
        ⟨side, .black, m.key32 p, p, m.read near⟩ := by
      rw [Memory.readFrame, readEq, readNear, color, colorP, moved'.key32, key]
    have frameS : m'.readFrame ⟨side, s, far⟩ =
        ⟨side, m.rbColor p, m.key32 s, s, (m.read far).setColor .black⟩ := by
      rw [Memory.readFrame, readEq, readFar, color, colorS, moved'.key32, key]
    have rest : m'.readPath path = m.readPath path := by
      rw [Memory.readPath_eq color moved'.key32, readPath]
    change _ = Rbtree.plug node (m'.readPath (⟨side, p, near⟩ :: ⟨side, s, far⟩ :: path))
    rw [Memory.readPath_cons, Memory.readPath_cons, frameP, frameS, rest]
    cases side <;> rfl

/-- The rotation in `trbt_delete_case5`, which brings the nearer child of the sibling up. -/
theorem deleteCase5_turned {side : Side} {p s i : NodeRef} {x y far : Shape NodeRef}
    (at' : Located own m tree t
      (⟨side, p, Shape.mk side (Shape.mk side.opposite x i y) s far⟩ :: path)) :
    ∃ m', ((m.setColor s .red).setColor i .black).rotate side.opposite s = some m' ∧
      Located own m' tree t (⟨side, p, Shape.mk side y i (Shape.mk side x s far)⟩ :: path) ∧
      Rearranged own tree m m' ∧ m'.read t = m.read t ∧ m'.readPath path = m.readPath path ∧
      m'.readFrame ⟨side, p, Shape.mk side y i (Shape.mk side x s far)⟩ =
        ⟨side, m.rbColor p, m.key32 p, p,
          (⟨side, .black, m.key32 i, i,
            (⟨side, .red, m.key32 s, s, m.read far⟩ : Rbtree.Frame NodeRef).fill
              (m.read x)⟩ : Rbtree.Frame NodeRef).fill (m.read y)⟩ := by
  obtain ⟨pT, pOther, pPath⟩ := at'.apart
  have inOther : ∀ b, b = s ∨ (b = i ∨ b ∈ x.members ∨ b ∈ y.members) ∨ b ∈ far.members →
      b ∉ t.members ∧ b ∉ pathMembers path ∧ own b := fun b member => by
    have member : b ∈ (Shape.mk side (Shape.mk side.opposite x i y) s far).members := by
      rw [Shape.mem_members_mk, Shape.mem_members_mk]
      exact member
    obtain ⟨notBelow, notAbove⟩ := at'.disjoint b member
    exact ⟨notBelow, notAbove, at'.mine b (List.mem_append_right _ (List.mem_cons_of_mem _
      (List.mem_append_left _ member)))⟩
  have across := Located.turn.mp at'
  have distinct := (Shape.members_mk side _ far s).nodup_iff.mp across.nodup
  rw [List.nodup_cons, List.mem_append, not_or, List.nodup_append,
    (Shape.members_mk side.opposite x y i).nodup_iff, List.nodup_cons, List.mem_append, not_or,
    Shape.mem_members_mk, not_or, not_or] at distinct
  obtain ⟨⟨⟨sI, sX, sY⟩, sFar⟩, ⟨⟨iX, iY⟩, _⟩, _, nearFar⟩ := distinct
  have iFar : i ∉ far.members := fun member =>
    nearFar i (Shape.mem_members_mk.mpr (.inl rfl)) i member rfl
  rw [Shape.mem_members_mk, Shape.mem_members_mk] at pOther
  let m₂ := (m.setColor s .red).setColor i .black
  have keep : ∀ u : Shape NodeRef, s ∉ u.members → i ∉ u.members → m₂.read u = m.read u :=
    fun u sOut iOut => by
      rw [Memory.read_setColor_of_notMem iOut, Memory.read_setColor_of_notMem sOut]
  have moved : Rearranged own tree m m₂ :=
    (Rearranged.setColor (inOther s (.inl rfl)).2.2 _).trans
      (.setColor (inOther i (.inr (.inl (.inl rfl)))).2.2 _)
  have colorI : m₂.rbColor i = .black := by
    rw [Memory.rbColor_setColor, Function.update_self]
  have colorS : m₂.rbColor s = .red := by
    rw [Memory.rbColor_setColor, Function.update_of_ne sI, Memory.rbColor_setColor,
      Function.update_self]
  have colorP : m₂.rbColor p = m.rbColor p := by
    rw [Memory.rbColor_setColor, Function.update_of_ne (fun same => pOther (.inr (.inl (.inl same)))),
      Memory.rbColor_setColor, Function.update_of_ne fun same => pOther (.inl same)]
  have at₂ : Located own m₂ tree (Shape.mk side (Shape.mk side.opposite x i y) s far)
      (⟨side.opposite, p, t⟩ :: path) := (across.setColor s _).setColor i _
  rw [← Shape.mk_opposite] at at₂
  obtain ⟨m', rotated, at'', color, moved'⟩ := at₂.rotate
  rw [Shape.mk_opposite, Shape.mk_opposite] at at''
  have readEq := Memory.read_eq color moved'.key32
  refine ⟨m', rotated, Located.turn.mpr at'', moved.trans moved', ?_, ?_, ?_⟩
  · rw [readEq, keep t (inOther s (.inl rfl)).1 (inOther i (.inr (.inl (.inl rfl)))).1]
  · rw [Memory.readPath_eq color moved'.key32,
      Memory.readPath_setColor_of_notMem (inOther i (.inr (.inl (.inl rfl)))).2.1,
      Memory.readPath_setColor_of_notMem (inOther s (.inl rfl)).2.1]
  · have whole : m'.read (Shape.mk side y i (Shape.mk side x s far)) =
        (m'.readFrame ⟨side, i, Shape.mk side x s far⟩).fill
          (m'.read y) := m'.read_fill ⟨side, i, Shape.mk side x s far⟩ y
    have part : m'.read (Shape.mk side x s far) = (m'.readFrame ⟨side, s, far⟩).fill (m'.read x) :=
      m'.read_fill ⟨side, s, far⟩ x
    rw [Memory.readFrame, whole, Memory.readFrame, part, Memory.readFrame, readEq, color, colorP,
      colorI, colorS, moved'.key32, moved.key32, keep y sY iY, keep x sX iX, keep far sFar iFar]

/-- `trbt_delete_case5` with the rotation, and `case6` on what results. -/
theorem deleteCase5_rotated {side : Side} {p s i : NodeRef} {x y far : Shape NodeRef}
    (here : t.root = some a)
    (at' : Located own m tree t
      (⟨side, p, Shape.mk side (Shape.mk side.opposite x i y) s far⟩ :: path)) :
    ∃ m₁ m', ((m.setColor s .red).setColor i .black).rotate side.opposite s = some m₁ ∧
      m₁.deleteCase6 a = some m' ∧ Raised own tree t m m' fun node => Rbtree.plug
        (Rbtree.deleteCase6 node ⟨side, m.rbColor p, m.key32 p, p,
          (⟨side, .black, m.key32 i, i,
            (⟨side, .red, m.key32 s, s, m.read far⟩ : Rbtree.Frame NodeRef).fill
              (m.read x)⟩ : Rbtree.Frame NodeRef).fill (m.read y)⟩)
        (m.readPath path) := by
  obtain ⟨m₁, rotated, at₁, moved, read, readPath, readFrame⟩ := deleteCase5_turned at'
  obtain ⟨m', done, path', at'', moved', read', result⟩ := deleteCase6_located here at₁
  rw [readFrame, readPath] at result
  exact ⟨m₁, m', rotated, done, path', at'', moved.trans moved', read'.trans read, result⟩

theorem deleteCase5_located {side : Side} {p s : NodeRef} {near far : Shape NodeRef}
    (here : t.root = some a)
    (at' : Located own m tree t (⟨side, p, Shape.mk side near s far⟩ :: path)) :
    ∃ m', m.deleteCase5 a = some m' ∧ Raised own tree t m m' fun node => Rbtree.plug
      (Rbtree.deleteCase5 node (m.readFrame ⟨side, p, Shape.mk side near s far⟩))
      (m.readPath path) := by
  have parent : m.parent a = some p := at'.parent_eq here
  have sibling : m.sibling a = some s := (at'.sibling_eq here).trans (Shape.root_mk ..)
  have nodeSide : ∀ side', some a = m.child side' p ↔ side = side' := at'.child_iff here
  have holds := (Located.turn.mp at').focus.holds
  have child : m.child side s = near.root := (Links.holds_mk.mp holds).1.1
  have colors : m.getColor (some s) = (m.read (Shape.mk side near s far)).getColor ∧
      m.getColorLeft (some s) = (m.read (Shape.mk side near s far)).getColorLeft ∧
      m.getColorRight (some s) = (m.read (Shape.mk side near s far)).getColorRight := by
    rw [← Shape.root_mk side near far s]
    exact ⟨Memory.getColor_read, Memory.getColorLeft_read holds, Memory.getColorRight_read holds⟩
  have redRoot : ∀ u : Shape NodeRef, (m.read u).getColor = .red → ∃ i, u.root = some i := by
    rintro (_ | ⟨left, i, right⟩) red
    · cases red
    · exact ⟨i, rfl⟩
  simp only [Memory.deleteCase5, parent, sibling, Option.bind_eq_bind, Option.bind_some, colors]
  obtain ⟨m', done, result⟩ := deleteCase6_located here at'
  cases side with
  | left =>
    have other : ¬ some a = m.right p := fun here => Side.noConfusion ((nodeSide .right).mp here)
    have same : some a = m.left p := (nodeSide .left).mpr rfl
    by_cases turned : some a = m.left p ∧ (m.read (Shape.mk .left near s far)).getColor = .black ∧
        (m.read (Shape.mk .left near s far)).getColorLeft = .red ∧
        (m.read (Shape.mk .left near s far)).getColorRight = .black
    · obtain ⟨i, root⟩ := redRoot near turned.2.2.1
      obtain ⟨x, y, rfl⟩ := Shape.eq_mk Side.right root
      obtain ⟨m₁, m', rotated, done, result⟩ := deleteCase5_rotated here at'
      have child : m.left s = some i := child
      have rotated : ((m.setColor s .red).setColor i .black).rotateRight s = some m₁ := rotated
      refine ⟨m', ?_, ?_⟩
      · rw [if_pos turned]
        simp only [Memory.setColorOf, Memory.setColorLeft, Memory.left_setColor, child,
          Option.bind_some, rotated, done]
      · convert result using 3
        exact if_pos ⟨rfl, turned.2⟩
    · refine ⟨m', ?_, ?_⟩
      · rw [if_neg turned, if_neg fun both => other both.1]
        exact done
      · convert result using 3
        refine (if_neg ?_).trans (if_neg ?_)
        · exact fun both => turned ⟨same, both.2⟩
        · exact fun both => Side.noConfusion both.1
  | right =>
    have other : ¬ some a = m.left p := fun here => Side.noConfusion ((nodeSide .left).mp here)
    have same : some a = m.right p := (nodeSide .right).mpr rfl
    rw [if_neg fun both => other both.1]
    by_cases turned : some a = m.right p ∧ (m.read (Shape.mk .right near s far)).getColor = .black ∧
        (m.read (Shape.mk .right near s far)).getColorRight = .red ∧
        (m.read (Shape.mk .right near s far)).getColorLeft = .black
    · obtain ⟨i, root⟩ := redRoot near turned.2.2.1
      obtain ⟨x, y, rfl⟩ := Shape.eq_mk Side.left root
      obtain ⟨m₁, m', rotated, done, result⟩ := deleteCase5_rotated here at'
      have child : m.right s = some i := child
      have rotated : ((m.setColor s .red).setColor i .black).rotateLeft s = some m₁ := rotated
      refine ⟨m', ?_, ?_⟩
      · rw [if_pos turned]
        simp only [Memory.setColorOf, Memory.setColorRight, Memory.right_setColor, child,
          Option.bind_some, rotated, done]
      · convert result using 3
        exact if_pos ⟨rfl, turned.2⟩
    · refine ⟨m', ?_, ?_⟩
      · rw [if_neg turned]
        exact done
      · convert result using 3
        exact if_neg fun both => turned ⟨same, both.2⟩

/-- The colours that the cases test are those of the tree that is read. -/
theorem blackSibling_iff {f : Frame NodeRef} (here : t.root = some a)
    (at' : Located own m tree t (f :: path)) :
    (m.getColor (m.sibling a) = (m.readFrame f).other.getColor) ∧
      (m.blackSibling a ↔ (m.readFrame f).blackOther) := by
  obtain ⟨side, p, other⟩ := f
  have holds := (Located.turn.mp at').focus.holds
  have color : m.getColor other.root = (m.read other).getColor := Memory.getColor_read
  rw [Memory.blackSibling, at'.sibling_eq here, color, Memory.getColorLeft_read holds,
    Memory.getColorRight_read holds]
  exact ⟨rfl, Iff.rfl⟩

theorem deleteCase4_located {side : Side} {p s : NodeRef} {near far : Shape NodeRef}
    (here : t.root = some a)
    (at' : Located own m tree t (⟨side, p, Shape.mk side near s far⟩ :: path)) :
    ∃ m', m.deleteCase4 a = some m' ∧ Raised own tree t m m' fun node => Rbtree.plug
      (Rbtree.deleteCase4 node (m.readFrame ⟨side, p, Shape.mk side near s far⟩))
      (m.readPath path) := by
  have parent : m.parent a = some p := at'.parent_eq here
  have sibling : m.sibling a = some s := (at'.sibling_eq here).trans (Shape.root_mk ..)
  have black := (blackSibling_iff here at').2
  rw [Memory.deleteCase4, parent]
  by_cases painted : m.getColor (some p) = .red ∧ m.blackSibling a
  · obtain ⟨pT, pOther, pPath⟩ := at'.apart
    have across := Located.turn.mp at'
    obtain ⟨sT, sPath⟩ := at'.disjoint s (Shape.mem_members_mk.mpr (.inl rfl))
    have sP : p ≠ s := fun same => pOther (Shape.mem_members_mk.mpr (.inl same))
    have ownS : own s := across.mem_root (Shape.root_mk ..)
    have readOther : ((m.setColor s .red).setColor p .black).read (Shape.mk side near s far) =
        (m.read (Shape.mk side near s far)).setColor .red := by
      rw [Memory.read_setColor_of_notMem pOther]
      have distinct := across.nodup
      cases side with
      | left => exact Memory.read_setColor distinct
      | right => exact Memory.read_setColor distinct
    refine ⟨(m.setColor s .red).setColor p .black, ?_, _, (at'.setColor s _).setColor p _,
      (Rearranged.setColor ownS _).trans (.setColor at'.mem_self _), ?_, ?_⟩
    · rw [if_pos painted, sibling]
      rfl
    · rw [Memory.read_setColor_of_notMem pT, Memory.read_setColor_of_notMem sT]
    · intro node
      have readFrame : ((m.setColor s .red).setColor p .black).readFrame
          ⟨side, p, Shape.mk side near s far⟩ =
            { m.readFrame ⟨side, p, Shape.mk side near s far⟩ with
              color := .black, other := (m.read (Shape.mk side near s far)).setColor .red } := by
        rw [Memory.readFrame, readOther, Memory.rbColor_setColor, Function.update_self,
          Memory.key32_setColor, Memory.key32_setColor]
        rfl
      rw [Memory.readPath_cons, readFrame, Memory.readPath_setColor_of_notMem pPath,
        Memory.readPath_setColor_of_notMem sPath]
      have model : Rbtree.deleteCase4 node (m.readFrame ⟨side, p, Shape.mk side near s far⟩) =
          Rbtree.Frame.fill { m.readFrame ⟨side, p, Shape.mk side near s far⟩ with
            color := .black, other := (m.read (Shape.mk side near s far)).setColor .red } node :=
        if_pos ⟨painted.1, black.mp painted.2⟩
      exact congrArg (fun whole => Rbtree.plug whole (m.readPath path)) model
  · obtain ⟨m', done, result⟩ := deleteCase5_located here at'
    refine ⟨m', ?_, ?_⟩
    · rw [if_neg painted]
      exact done
    · convert result using 3
      exact if_neg fun both => painted ⟨both.1, black.mpr both.2⟩

/-- The rotation in `trbt_delete_case2`, which brings a red sibling up. -/
theorem deleteCase2_turned {side : Side} {p s : NodeRef} {near far : Shape NodeRef}
    (here : t.root = some a)
    (at' : Located own m tree t (⟨side, p, Shape.mk side near s far⟩ :: path)) :
    let painted := (m.setColor p .red).setColor s .black
    ∃ m', (if some a = m.left p then painted.rotateLeft p else painted.rotateRight p) = some m' ∧
      Located own m' tree t (⟨side, p, near⟩ :: ⟨side, s, far⟩ :: path) ∧
      Rearranged own tree m m' ∧ m'.read t = m.read t ∧ m'.readPath path = m.readPath path ∧
      m'.readFrame ⟨side, p, near⟩ = ⟨side, .red, m.key32 p, p, m.read near⟩ ∧
      m'.readFrame ⟨side, s, far⟩ = ⟨side, .black, m.key32 s, s, m.read far⟩ := by
  intro painted
  have left : some a = m.left p ↔ side = .left := at'.child_iff here .left
  obtain ⟨pT, pOther, pPath⟩ := at'.apart
  obtain ⟨sT, sPath⟩ := at'.disjoint s (Shape.mem_members_mk.mpr (.inl rfl))
  have across := Located.turn.mp at'
  have ownS : own s := across.mem_root (Shape.root_mk ..)
  have distinct := (Shape.members_mk side near far s).nodup_iff.mp across.nodup
  rw [List.nodup_cons, List.mem_append, not_or] at distinct
  obtain ⟨⟨sNear, sFar⟩, _⟩ := distinct
  rw [Shape.mem_members_mk, not_or, not_or] at pOther
  obtain ⟨pS, pNear, pFar⟩ := pOther
  have keep : ∀ u : Shape NodeRef, s ∉ u.members → p ∉ u.members → painted.read u = m.read u :=
    fun u sOut pOut => by
      rw [Memory.read_setColor_of_notMem sOut, Memory.read_setColor_of_notMem pOut]
  have moved : Rearranged own tree m painted :=
    (Rearranged.setColor at'.mem_self _).trans (.setColor ownS _)
  have colorS : painted.rbColor s = .black := by
    rw [Memory.rbColor_setColor, Function.update_self]
  have colorP : painted.rbColor p = .red := by
    rw [Memory.rbColor_setColor, Function.update_of_ne pS, Memory.rbColor_setColor,
      Function.update_self]
  obtain ⟨m', rotated, at'', color, moved'⟩ :=
    Located.rotate ((at'.setColor p .red).setColor s .black).up
  have readEq := Memory.read_eq color moved'.key32
  refine ⟨m', ?_, located_child.mp (located_child.mp at''), moved.trans moved', ?_, ?_, ?_, ?_⟩
  · cases side with
    | left =>
      rw [if_pos (left.mpr rfl)]
      exact rotated
    | right =>
      rw [if_neg fun child => Side.noConfusion (left.mp child)]
      exact rotated
  · rw [readEq, keep t sT pT]
  · rw [Memory.readPath_eq color moved'.key32, Memory.readPath_setColor_of_notMem sPath,
      Memory.readPath_setColor_of_notMem pPath]
  · rw [Memory.readFrame, readEq, keep near sNear pNear, color, colorP, moved'.key32, moved.key32]
  · rw [Memory.readFrame, readEq, keep far sFar pFar, color, colorS, moved'.key32, moved.key32]

/-- `trbt_delete_case3` on a node without a red sibling, when the recursive call does its part. -/
theorem deleteCase3_located {deleteCase1 : NodeRef → Memory α → Option (Memory α)} {side : Side}
    {p s : NodeRef} {near far : Shape NodeRef} (here : t.root = some a)
    (at' : Located own m tree t (⟨side, p, Shape.mk side near s far⟩ :: path))
    (recursive : m.rbColor p = .black →
      (m.readFrame ⟨side, p, Shape.mk side near s far⟩).blackOther →
      ∃ m', deleteCase1 p (m.setColor s .red) = some m' ∧
        Raised own tree (Shape.mk side t p (Shape.mk side near s far)) (m.setColor s .red) m'
          fun node => Rbtree.deleteCase1 node (m.readPath path)) :
    ∃ m', m.deleteCase3 deleteCase1 a = some m' ∧ Raised own tree t m m' fun node =>
      if m.rbColor p = .black ∧ (m.readFrame ⟨side, p, Shape.mk side near s far⟩).blackOther then
        Rbtree.deleteCase1 (Rbtree.Frame.fill { m.readFrame ⟨side, p, Shape.mk side near s far⟩ with
          other := (m.read (Shape.mk side near s far)).setColor .red } node) (m.readPath path)
      else Rbtree.plug
        (Rbtree.deleteCase4 node (m.readFrame ⟨side, p, Shape.mk side near s far⟩))
        (m.readPath path) := by
  have parent : m.parent a = some p := at'.parent_eq here
  have sibling : m.sibling a = some s := (at'.sibling_eq here).trans (Shape.root_mk ..)
  have black := (blackSibling_iff here at').2
  rw [Memory.deleteCase3, parent]
  by_cases painted : m.getColor (some p) = .black ∧ m.blackSibling a
  · obtain ⟨m', done, path', at'', moved, read, result⟩ :=
      recursive painted.1 (black.mp painted.2)
    have across := Located.turn.mp at'
    obtain ⟨pT, pOther, pPath⟩ := at'.apart
    obtain ⟨sT, sPath⟩ := at'.disjoint s (Shape.mem_members_mk.mpr (.inl rfl))
    have readOther : (m.setColor s .red).read (Shape.mk side near s far) =
        (m.read (Shape.mk side near s far)).setColor .red := by
      have distinct := across.nodup
      cases side with
      | left => exact Memory.read_setColor distinct
      | right => exact Memory.read_setColor distinct
    have readFrame : (m.setColor s .red).readFrame ⟨side, p, Shape.mk side near s far⟩ =
        { m.readFrame ⟨side, p, Shape.mk side near s far⟩ with
          other := (m.read (Shape.mk side near s far)).setColor .red } := by
      rw [Memory.readFrame, readOther, Memory.rbColor_setColor, Function.update_of_ne,
        Memory.key32_setColor]
      · rfl
      · exact fun same => pOther (Shape.mem_members_mk.mpr (.inl same))
    obtain ⟨frameSame, readSame⟩ := Memory.readFrame_of_fill
      (f := ⟨side, p, Shape.mk side near s far⟩) read
    refine ⟨m', ?_, _, located_child.mp at'', (Rearranged.setColor
      (across.mem_root (Shape.root_mk ..)) _).trans moved, ?_, ?_⟩
    · rw [if_pos painted, sibling]
      simp only [Memory.setColorOf, Option.bind_eq_bind, Option.bind_some, Memory.parent_setColor,
        parent]
      exact done
    · rw [readSame, Memory.read_setColor_of_notMem sT]
    · intro node
      rw [Memory.readPath_cons, frameSame, readFrame]
      exact (if_pos ⟨painted.1, black.mp painted.2⟩).trans (result _)
  · obtain ⟨m', done, result⟩ := deleteCase4_located here at'
    refine ⟨m', ?_, ?_⟩
    · rw [if_neg painted]
      exact done
    · convert result using 2
      exact if_neg fun both => painted ⟨both.1, black.mpr both.2⟩

/-- A tree of some black nodes is not NULL. -/
theorem exists_root {c : Color} {n : Nat} {t : Shape NodeRef}
    (balanced : Balanced (m.read t) c (n + 1)) :
    ∃ s, t.root = some s := by
  cases t with
  | nil => cases balanced
  | node left s right => exact ⟨s, rfl⟩

/-- The children of a red sibling are black. -/
theorem near_balanced {n : Nat} {side : Side} {p s : NodeRef} {near far : Shape NodeRef}
    (sibling : Balanced (m.readFrame ⟨side, p, Shape.mk side near s far⟩).other .red n) :
    Balanced (m.read near) .black n := by
  have parts : ∀ l r : Node NodeRef, Balanced (.node (m.rbColor s) l (m.key32 s) s r) .red n →
      Balanced l .black n ∧ Balanced r .black n := by
    intro l r whole
    have color : m.rbColor s = .red := whole.getColor
    rw [color] at whole
    cases whole with
    | red below beside => exact ⟨below, beside⟩
  cases side with
  | left => exact (parts _ _ sibling).1
  | right => exact (parts _ _ sibling).2

theorem deleteCase2_red {side : Side} {p s : NodeRef} {near far : Shape NodeRef}
    (red : (m.readFrame ⟨side, p, Shape.mk side near s far⟩).other.getColor = .red) :
    Rbtree.deleteCase2 (m.readFrame ⟨side, p, Shape.mk side near s far⟩) =
      some (⟨side, .red, m.key32 p, p, m.read near⟩,
        ⟨side, .black, m.key32 s, s, m.read far⟩) := by
  cases side with
  | left =>
    have red : m.rbColor s = .red := red
    simp [Rbtree.deleteCase2, Memory.readFrame, Shape.mk, Memory.read, red]
  | right =>
    have red : m.rbColor s = .red := red
    simp [Rbtree.deleteCase2, Memory.readFrame, Shape.mk, Memory.read, red]

theorem deleteCase1_located (fuel : Nat) {n : Nat} (here : t.root = some a)
    (at' : Located own m tree t path) (fits : Fits (m.readPath path) .black (n + 1))
    (enough : path.length < fuel) :
    ∃ m', m.deleteCase1 fuel a = some m' ∧
      Raised own tree t m m' fun node => Rbtree.deleteCase1 node (m.readPath path) := by
  induction fuel generalizing m t a path n with
  | zero => omega
  | succ fuel ih =>
    cases path with
    | nil =>
      refine ⟨m, ?_, [], at', .rfl', rfl, fun _ => rfl⟩
      rw [Memory.deleteCase1, at'.parent_eq here]
      rfl
    | cons f path =>
      obtain ⟨side, p, other⟩ := f
      obtain ⟨⟨siblingColor, sibling, colors⟩, rest⟩ := fits
      obtain ⟨s, root⟩ := exists_root sibling
      obtain ⟨near, far, rfl⟩ := Shape.eq_mk side root
      have siblingEq : m.sibling a = some s := (at'.sibling_eq here).trans root
      obtain ⟨colorEq, black⟩ := blackSibling_iff here at'
      have parent : m.parent a = some p := at'.parent_eq here
      rw [Memory.deleteCase1, parent]
      simp only [Memory.deleteCase2, colorEq]
      by_cases red : (m.readFrame ⟨side, p, Shape.mk side near s far⟩).other.getColor = .red
      · have nearBalanced : Balanced (m.read near) .black (n + 1) :=
          near_balanced (sibling.of_getColor red)
        obtain ⟨m₁, rotated, at₁, moved, read, readPath, frameP, frameS⟩ := deleteCase2_turned here at'
        have readNear : m₁.read near = m.read near := (Rbtree.Frame.mk.inj frameP).2.2.2.2
        have pRed : m₁.rbColor p = .red := (Rbtree.Frame.mk.inj frameP).2.1
        obtain ⟨i, nearRoot⟩ := exists_root nearBalanced
        obtain ⟨x, y, rfl⟩ := Shape.eq_mk side nearRoot
        obtain ⟨m', done, path', at'', moved', read', result⟩ :=
          deleteCase3_located here at₁
            fun black => Color.noConfusion (pRed.symm.trans black)
        refine ⟨m', ?_, path', at'', moved.trans moved', read'.trans read, fun node => ?_⟩
        · rw [if_pos red, siblingEq]
          simp only [Memory.setColorOf, Option.bind_eq_bind, Option.bind_some, parent]
          split at rotated
          · rename_i left
            rw [if_pos left, rotated]
            exact done
          · rename_i right
            rw [if_neg right, rotated]
            exact done
        · refine Eq.trans ?_ (result node)
          have notBlack : ¬ (m₁.rbColor p = .black ∧
              (m₁.readFrame ⟨side, p, Shape.mk side x i y⟩).blackOther) := fun both =>
            Color.noConfusion (pRed.symm.trans both.1)
          refine Eq.trans ?_ (if_neg notBlack).symm
          have above : m₁.readPath (⟨side, s, far⟩ :: path) =
              ⟨side, .black, m.key32 s, s, m.read far⟩ :: m.readPath path := by
            rw [Memory.readPath_cons, frameS, readPath]
          rw [frameP, above]
          change Rbtree.deleteCase1 node (m.readFrame _ :: m.readPath path) = _
          rw [Rbtree.deleteCase1, deleteCase2_red red]
      · rw [if_neg red]
        have kept : Rbtree.deleteCase2 (m.readFrame ⟨side, p, Shape.mk side near s far⟩) = none := by
          cases model : Rbtree.deleteCase2 (m.readFrame ⟨side, p, Shape.mk side near s far⟩) with
          | none => rfl
          | some frames =>
            obtain ⟨_, _, _, _, _, _, other⟩ := Rbtree.deleteCase2_eq_some model
            refine absurd ?_ red
            rw [other]
            split <;> rfl
        have siblingBlack := sibling.of_getColor (Rbtree.deleteCase2_eq_none kept)
        obtain ⟨m', done, result⟩ := deleteCase3_located here at'
          fun pBlack othersBlack => by
            obtain ⟨_, sPath⟩ := at'.disjoint s (Shape.mem_members_mk.mpr (.inl rfl))
            have same : (m.setColor s .red).readPath path = m.readPath path :=
              Memory.readPath_setColor_of_notMem sPath
            have black : (m.readFrame ⟨side, p, Shape.mk side near s far⟩).color = .black := pBlack
            rw [black] at rest
            obtain ⟨m', done, result⟩ := ih (n := n + 1) (Shape.root_mk ..)
              (at'.setColor s .red).up (same.symm ▸ rest) (by simpa using enough)
            rw [same] at result
            exact ⟨m', done, result⟩
        refine ⟨m', done, ?_⟩
        convert result using 2
        rw [Memory.readPath_cons, Rbtree.deleteCase1, kept]
        rfl

end Phat.Trbt
