import Phat.TrbtHistories

/-! The freeing of a whole tree, whose data stay. -/
namespace Phat.PointerTree.Shape
variable {P : Type}

/-- A node after its children. -/
def postorder : Shape P → List P
  | nil => []
  | node left self right => left.postorder ++ right.postorder ++ [self]

theorem postorder_perm (t : Shape P) : t.postorder.Perm t.members := by
  induction t with
  | nil => exact .nil
  | node left self right leftIh rightIh =>
    rw [postorder, members, List.append_assoc]
    refine leftIh.append ((rightIh.append_right [self]).trans ?_)
    exact List.perm_append_singleton self right.members

end Phat.PointerTree.Shape

namespace Phat.Trbt
open PointerTree Dictionaries
variable {α : Type} {m m' : Memory α} {tree : TreeRef} {fuel : Nat} {commands : List (Command α)}
  {outs : List (Option α)}

/-- `if (node)` before a traversal. -/
def destroyAt (destroyNode : NodeRef → Memory α → Option (List NodeRef × Memory α)) :
    Option NodeRef → Memory α → Option (List NodeRef × Memory α)
  | none, m => some ([], m)
  | some node, m => destroyNode node m

/-- `tree_destructor_traverse_node`, and the nodes it frees. A node has no destructor by then. -/
def Memory.destroyNode : Nat → NodeRef → Memory α → Option (List NodeRef × Memory α)
  | 0, _, _ => none
  | fuel + 1, node, m => do
    let (left, m) ← destroyAt (destroyNode fuel) (m.left node) m
    let (right, m) ← destroyAt (destroyNode fuel) (m.right node) m
    some (left ++ right ++ [node], m.steal none node)

/-- `talloc_free(tree)` with `tree_destructor`, and the nodes that are freed. -/
def Memory.destroyTree (fuel : Nat) (tree : TreeRef) (m : Memory α) :
    Option (List NodeRef × Memory α) :=
  (destroyAt (destroyNode fuel) (m.root tree) m).map fun (freed, m) => (freed, m.freeTree tree)

/-- The nodes hang off nothing any more. -/
def Memory.detach (m : Memory α) (nodes : List NodeRef) : Memory α :=
  nodes.foldl (fun m a => m.steal none a) m

theorem Memory.detach_append (left right : List NodeRef) :
    m.detach (left ++ right) = (m.detach left).detach right :=
  List.foldl_append

theorem Memory.detach_records (nodes : List NodeRef) :
    (m.detach nodes).node = m.node ∧ (m.detach nodes).tree = m.tree := by
  induction nodes generalizing m with
  | nil => exact ⟨rfl, rfl⟩
  | cons a nodes ih => exact @ih (m.steal none a)

theorem Memory.owner_detach (nodes : List NodeRef) (a : NodeRef) :
    (m.detach nodes).owner a = if a ∈ nodes then none else m.owner a := by
  induction nodes generalizing m with
  | nil => rfl
  | cons b nodes ih =>
    have step : (m.detach (b :: nodes)).owner a =
        if a ∈ nodes then none else Function.update m.owner b none a := @ih (m.steal none b)
    rw [step, Function.update_apply]
    by_cases here : a = b <;> simp [here]

theorem Memory.links_detach (nodes : List NodeRef) :
    (m.detach nodes).links tree = m.links tree := by
  induction nodes generalizing m with
  | nil => rfl
  | cons a nodes ih => exact @ih (m.steal none a)

/-- The pointers of a node are read before it is freed, and no freeing changes them. -/
theorem destroyAt_holds {m₀ : Memory α} {t : Shape NodeRef} (holds : (m.links tree).Holds t)
    (enough : (m₀.read t).height ≤ fuel) :
    destroyAt (Memory.destroyNode fuel) t.root m = some (t.postorder, m.detach t.postorder) := by
  induction t generalizing fuel m with
  | nil => rfl
  | node left self right leftIh rightIh =>
    obtain ⟨⟨leftRoot, _, leftHolds⟩, rightRoot, _, rightHolds⟩ := holds
    rw [Memory.read, Rbtree.Node.height] at enough
    obtain ⟨fuel, rfl⟩ : ∃ f, fuel = f + 1 := Nat.exists_eq_add_one.mpr (by omega)
    have links : (m.detach left.postorder).links tree = m.links tree := m.links_detach _
    have leftPointer : m.left self = left.root := leftRoot
    have rightPointer : (m.detach left.postorder).right self = right.root :=
      (congrArg (fun l => l.child .right self) links).trans rightRoot
    have leftDone := leftIh leftHolds (show _ ≤ fuel by omega)
    have rightDone := @rightIh (m.detach left.postorder) fuel (links ▸ rightHolds) (by omega)
    rw [Shape.root_node, destroyAt, Memory.destroyNode, leftPointer, leftDone]
    simp only [Option.bind_eq_bind, Option.bind_some, rightPointer, rightDone]
    rw [Shape.postorder, Memory.detach_append, Memory.detach_append]
    rfl

/-- `talloc_free(tree)` after any run: each node of the tree is freed once, after its children, no
datum keeps one, and nothing else changes. -/
theorem runs_destroyed (unmade : m.tree.next = 0) (unowned : ∀ a, m.owner a = none)
    (legal : LegalRun fuel m commands) (enough : 96 < fuel)
    (done : run fuel m commands = some (outs, m')) (made : tree < m'.tree.next) :
    ∃ t : Shape NodeRef, ∃ m'', Focus (m'.links tree) t [] ∧ t.members.Nodup ∧
      m'.destroyTree fuel tree = some (t.postorder, m'') ∧ t.postorder.Perm t.members ∧
      m''.node = m'.node ∧ (m''.tree.get tree).live = false ∧
      (∀ other, other ≠ tree → m''.tree.get other = m'.tree.get other) ∧
      (∀ a, m''.owner a = if a ∈ t.members then none else m'.owner a) ∧
      ∀ a datum, m''.owner a = some datum → m'.treeOf a ≠ tree := by
  obtain ⟨m₁, shapes, done', represents, _⟩ :=
    (represents_fresh unmade unowned).run legal enough
  rw [done] at done'
  cases done'
  have sound := represents.sound
  have focus := sound.focus tree made
  obtain ⟨n, balanced⟩ := sound.balanced tree
  have height := balanced.height_le_64 (sound.ordered tree)
  have freed := destroyAt_holds focus.holds (height.trans (show 64 ≤ fuel by omega))
  obtain ⟨node, record⟩ := m'.detach_records (shapes tree).postorder
  have owner : ∀ a, (m'.detach (shapes tree).postorder).owner a =
      if a ∈ (shapes tree).members then none else m'.owner a := by
    intro a
    rw [Memory.owner_detach]
    simp only [(shapes tree).postorder_perm.mem_iff]
  refine ⟨shapes tree, (m'.detach (shapes tree).postorder).freeTree tree, focus, ?_, ?_,
    (shapes tree).postorder_perm, node, ?_, ?_, owner, ?_⟩
  · have distinct := focus.distinct
    rwa [pathMembers, List.append_nil] at distinct
  · have root : m'.root tree = (shapes tree).root := focus.down
    rw [Memory.destroyTree, root, freed]
    rfl
  · simp [Memory.freeTree]
  · intro other away
    have kept : ((m'.detach (shapes tree).postorder).freeTree tree).tree.get other =
        (m'.detach (shapes tree).postorder).tree.get other := by
      simp only [Memory.freeTree]
      exact Store.get_modify_of_ne _ _ away
    rw [kept, record]
  · intro a datum owned here
    replace owned : (m'.detach (shapes tree).postorder).owner a = some datum := owned
    have inside : a ∉ (shapes tree).members := by
      intro member
      rw [owner, if_pos member] at owned
      cases owned
    have nowhere : ∀ other, a ∉ (shapes other).members := by
      intro other member
      have same := (sound.treeOf other a member).symm.trans here
      exact inside (same ▸ member)
    rw [owner, if_neg inside, sound.loose a nowhere] at owned
    cases owned

theorem runs_destroyed_sample :
    ∃ t : Shape NodeRef, ∃ m'', Focus (sampleMemory.links 0) t [] ∧ t.members.Nodup ∧
      sampleMemory.destroyTree 97 0 = some (t.postorder, m'') ∧ t.postorder.Perm t.members ∧
      m''.node = sampleMemory.node ∧ (m''.tree.get 0).live = false ∧
      (∀ other, other ≠ 0 → m''.tree.get other = sampleMemory.tree.get other) ∧
      (∀ a, m''.owner a = if a ∈ t.members then none else sampleMemory.owner a) ∧
      ∀ a datum, m''.owner a = some datum → sampleMemory.treeOf a ≠ 0 :=
  runs_destroyed rfl (fun _ => rfl) sample_legal (by decide) sample_run (by decide +kernel)

example : (sampleMemory.destroyTree 97 0).map Prod.fst = some [1] := by
  decide +kernel

end Phat.Trbt
