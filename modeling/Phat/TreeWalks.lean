import Mathlib.Data.List.Palindrome
import Phat.State

/-! Walks over a tree: `arc_iter` and `arc_rev_iter` call a function for every node, `printClass_r`
and `printClass` list classes, the latter with a stack of its own. -/
namespace Phat
open Rbtree

variable {α β σ : Type}

/-- `func` changes the state `σ`; its second argument `jf` is part of `func`. -/
def arcIter (func : α → σ → σ) : Node α → σ → σ
  | .leaf, s => s
  | .node _ left _ data right, s => arcIter func right (func data (arcIter func left s))

/-- The calls for the subtrees are calls of `arc_iter`. -/
def arcRevIter (func : α → σ → σ) : Node α → σ → σ
  | .leaf, s => s
  | .node _ left _ data right, s => arcIter func left (func data (arcIter func right s))

def printClassR (print : α → β) : Node α → List β
  | .leaf => []
  | .node _ left _ data right => printClassR print left ++ print data :: printClassR print right

/-- The variables of `printClass` and the lines printed. `stack` is the memory behind the pointer,
of which `size` entries are allocated; `stores` records each store with the size at that time. -/
structure ClassStack (α β : Type) where
  node : Node α
  stack : Nat → Node α
  curr : Nat
  size : Nat
  lines : List β
  stores : List (Nat × Nat)

namespace ClassStack

/-- `realloc` keeps the entries. -/
def push (s : ClassStack α β) (right : Node α) : ClassStack α β :=
  let size := if s.curr = s.size then s.size + 20 else s.size
  { s with
    stack := Function.update s.stack s.curr right
    curr := s.curr + 1
    size
    stores := s.stores ++ [(s.curr, size)] }

def pop (s : ClassStack α β) : ClassStack α β :=
  if 0 < s.curr then { s with node := s.stack (s.curr - 1), curr := s.curr - 1 }
  else { s with node := .leaf }

/-- `if (node->right)` -/
def keepRight (s : ClassStack α β) : Node α → ClassStack α β
  | .leaf => s
  | right => s.push right

/-- `if (node->left)`, and what follows it. -/
def goLeft (s : ClassStack α β) : Node α → ClassStack α β
  | .leaf => s.pop
  | left => { s with node := left }

/-- One round of the loop of `printClass`. -/
def step (print : α → β) (s : ClassStack α β) : ClassStack α β :=
  match s.node with
  | .leaf => s
  | .node _ left _ data right =>
    ({ s with lines := s.lines ++ [print data] }.keepRight right).goLeft left

/-- The loop runs while `node` is not NULL; `none` means that the fuel was not enough. -/
def loop (print : α → β) : Nat → ClassStack α β → Option (ClassStack α β)
  | 0, _ => none
  | fuel + 1, s =>
    match s.node with
    | .leaf => some s
    | _ => loop print fuel (s.step print)

end ClassStack

/-- `memory` is what `malloc` returns. -/
def printClass (print : α → β) (fuel : Nat) (memory : Nat → Node α) (node : Node α) :
    Option (ClassStack α β) :=
  ClassStack.loop print fuel ⟨node, memory, 0, 20, [], []⟩

/-- What is printed about a class. -/
structure ClassLine where
  format : String
  ident : BitVec 64
  nident : BitVec 64
  count : Nat
  name : Option CString

namespace Jdump

def classLine (jf : Jdump) (format : String) (c : ClassRef) : ClassLine :=
  ⟨format, (jf.cinfo c).ident, (jf.cinfo c).nident, (jf.cinfo c).count, (jf.cinfo c).name⟩

def printClassR (jf : Jdump) (node : Node ClassRef) : List ClassLine :=
  Phat.printClassR (jf.classLine "0x%x class 0x%x %d %s\n") node

def printClass (jf : Jdump) (fuel : Nat) (memory : Nat → Node ClassRef) (node : Node ClassRef) :
    Option (ClassStack ClassRef ClassLine) :=
  Phat.printClass (jf.classLine "0x%x instance 0x%x %d %s\n") fuel memory node

end Jdump

namespace Rbtree.Node

def map (f : α → β) : Node α → Node β
  | .leaf => .leaf
  | .node color left key data right => .node color (left.map f) key (f data) (right.map f)

/-- The data in the order root, left subtree, right subtree. -/
def preorder : Node α → List α
  | .leaf => []
  | .node _ left _ data right => data :: (left.preorder ++ right.preorder)

/-- The data in the order left subtree, root, right subtree. -/
def inorder : Node α → List α
  | .leaf => []
  | .node _ left _ data right => left.inorder ++ data :: right.inorder

/-- Whether there is a node at the end of this way down from the root. -/
def At : Node α → List Side → Prop
  | .leaf, _ => False
  | .node .., [] => True
  | .node _ left _ _ _, .left :: way => left.At way
  | .node _ _ _ _ right, .right :: way => right.At way

/-- The tree with the way to each node for data, so that no two nodes are alike. -/
def located : Node α → Node (List Side)
  | .leaf => .leaf
  | .node color left key _ right =>
    .node color (left.located.map (.left :: ·)) key [] (right.located.map (.right :: ·))

theorem inorder_map (f : α → β) (t : Node α) : (t.map f).inorder = t.inorder.map f := by
  induction t with
  | leaf => rfl
  | node color left key data right ihl ihr =>
    simp only [map, inorder, ihl, ihr, List.map_append, List.map_cons]

theorem inorder_toList (t : Node α) : t.inorder = t.toList.map Prod.snd := by
  induction t with
  | leaf => rfl
  | node color left key data right ihl ihr =>
    simp only [inorder, toList, ihl, ihr, List.map_append, List.map_cons]

theorem preorder_perm (t : Node α) : t.preorder.Perm t.inorder := by
  induction t with
  | leaf => exact .refl _
  | node color left key data right ihl ihr =>
    simp only [preorder, inorder]
    exact ((ihl.append ihr).cons data).trans List.perm_middle.symm

theorem mem_located (t : Node α) (way : List Side) : way ∈ t.located.inorder ↔ t.At way := by
  induction t generalizing way with
  | leaf => simp [located, inorder, At]
  | node color left key data right ihl ihr =>
    simp only [located, inorder, inorder_map, List.mem_append, List.mem_cons, List.mem_map]
    cases way with
    | nil => simp [At]
    | cons side way =>
      cases side with
      | left => simp [At, ihl]
      | right => simp [At, ihr]

theorem located_nodup (t : Node α) : t.located.inorder.Nodup := by
  induction t with
  | leaf => exact List.nodup_nil
  | node color left key data right ihl ihr =>
    have lefts : (left.located.inorder.map (Side.left :: ·)).Nodup :=
      ihl.map fun _ _ same => (List.cons.inj same).2
    have rights : (right.located.inorder.map (Side.right :: ·)).Nodup :=
      ihr.map fun _ _ same => (List.cons.inj same).2
    simp only [located, inorder, inorder_map]
    refine List.nodup_append.mpr ⟨lefts, List.nodup_cons.mpr ⟨by simp, rights⟩, ?_⟩
    intro way onLeft way' others
    obtain ⟨_, _, rfl⟩ := List.mem_map.mp onLeft
    rcases List.mem_cons.mp others with rfl | onRight
    · exact List.cons_ne_nil _ _
    · obtain ⟨_, _, rfl⟩ := List.mem_map.mp onRight
      simp

theorem located_length (t : Node α) : t.located.inorder.length = t.inorder.length := by
  induction t with
  | leaf => rfl
  | node color left key data right ihl ihr =>
    simp only [located, inorder, inorder_map, List.length_append, List.length_cons,
      List.length_map, ihl, ihr]

end Rbtree.Node

/-- The data for which a walk calls its function, in the order of the calls. -/
def calls (walk : (α → List α → List α) → Node α → List α → List α) (t : Node α) : List α :=
  walk (fun data called => called ++ [data]) t []

theorem arcIter_eq (func : α → σ → σ) (t : Node α) (s : σ) :
    arcIter func t s = t.inorder.foldl (fun s data => func data s) s := by
  induction t generalizing s with
  | leaf => rfl
  | node color left key data right ihl ihr =>
    simp only [arcIter, Node.inorder, List.foldl_append, List.foldl_cons, ihl, ihr]

/-- The subtrees are walked from left to right, only the root stands between them reversed. -/
theorem arcRevIter_node (func : α → σ → σ) (color : Color) (left right : Node α) (key : Key)
    (data : α) (s : σ) : arcRevIter func (.node color left key data right) s =
      (right.inorder ++ data :: left.inorder).foldl (fun s data => func data s) s := by
  simp only [arcRevIter, arcIter_eq, List.foldl_append, List.foldl_cons]

theorem foldl_called (datas called : List α) :
    datas.foldl (fun called data => called ++ [data]) called = called ++ datas := by
  induction datas generalizing called with
  | nil => exact (List.append_nil _).symm
  | cons data datas ih => simp [ih]

@[simp] theorem calls_arcIter (t : Node α) : calls arcIter t = t.inorder := by
  rw [calls, arcIter_eq, foldl_called, List.nil_append]

@[simp] theorem calls_arcRevIter_node (color : Color) (left right : Node α) (key : Key)
    (data : α) : calls arcRevIter (.node color left key data right) =
      right.inorder ++ data :: left.inorder := by
  rw [calls, arcRevIter_node, foldl_called, List.nil_append]

/-- `arc_rev_iter` calls its function for every node once, in the reverse order of `arc_iter`. -/
structure Reversing (t : Node α) : Prop where
  once : ∀ way, t.At way → (calls arcRevIter t.located).count way = 1
  order : calls arcRevIter t.located = (calls arcIter t.located).reverse

/-- Neither subtree of the root has two nodes. -/
def Rbtree.Node.Flat : Node α → Prop
  | .leaf => True
  | .node _ left _ _ right => left.inorder.length ≤ 1 ∧ right.inorder.length ≤ 1

theorem arcRevIter_perm (t : Node α) : (calls arcRevIter t).Perm (calls arcIter t) := by
  cases t with
  | leaf => exact .refl _
  | node color left key data right =>
    rw [calls_arcRevIter_node, calls_arcIter, Node.inorder]
    exact (List.perm_append_comm.trans (.cons data (.refl _))).trans List.perm_middle.symm

theorem arcRevIter_once (t : Node α) {way : List Side} (at_way : t.At way) :
    (calls arcRevIter t.located).count way = 1 := by
  rw [(arcRevIter_perm t.located).count_eq, calls_arcIter]
  exact List.count_eq_one_of_mem t.located_nodup ((t.mem_located way).mpr at_way)

theorem reverse_fixed_iff {l : List α} (nodup : l.Nodup) : l.reverse = l ↔ l.length ≤ 1 := by
  constructor
  · intro fixed
    cases List.Palindrome.of_reverse_eq fixed with
    | nil => exact Nat.zero_le 1
    | singleton a => exact le_refl 1
    | cons_concat a inner => simp at nodup
  · intro short
    match l, short with
    | [], _ => rfl
    | [_], _ => rfl

/-- With the subtrees listed on either side of the root, both have to be their own reverse. -/
theorem swapped_reverse_iff {lefts rights : List α} (data : α) (nodupL : lefts.Nodup)
    (nodupR : rights.Nodup) : rights ++ data :: lefts = (lefts ++ data :: rights).reverse ↔
      lefts.length ≤ 1 ∧ rights.length ≤ 1 := by
  rw [← reverse_fixed_iff nodupL, ← reverse_fixed_iff nodupR, List.reverse_append,
    List.reverse_cons, List.append_assoc, List.singleton_append]
  constructor
  · intro same
    obtain ⟨sameR, sameL⟩ := List.append_inj same (List.length_reverse).symm
    exact ⟨(List.cons.inj sameL).2.symm, sameR.symm⟩
  · rintro ⟨sameL, sameR⟩
    rw [sameL, sameR]

/-- The walk is the reverse one exactly if no subtree below the root has an order to reverse. -/
theorem arcRevIter_reversing_iff (t : Node α) : Reversing t ↔ t.Flat := by
  cases t with
  | leaf => exact ⟨fun _ => trivial, fun _ => ⟨fun _ absurd => absurd.elim, rfl⟩⟩
  | node color left key data right =>
    have nodup := (Node.node color left key data right).located_nodup
    simp only [Node.located, Node.inorder] at nodup
    obtain ⟨nodupL, rest, _⟩ := List.nodup_append.mp nodup
    have nodupR := (List.nodup_cons.mp rest).2
    have order : calls arcRevIter (Node.node color left key data right).located =
        (calls arcIter (Node.node color left key data right).located).reverse ↔
        left.inorder.length ≤ 1 ∧ right.inorder.length ≤ 1 := by
      rw [Node.located, calls_arcRevIter_node, calls_arcIter, Node.inorder,
        swapped_reverse_iff _ nodupL nodupR, Node.inorder_map, Node.inorder_map, List.length_map,
        List.length_map, Node.located_length, Node.located_length]
    exact ⟨fun reversing => order.mp reversing.order, fun flat =>
      ⟨fun _ => arcRevIter_once _, order.mpr flat⟩⟩

/-- Four classes numbered 1 to 4, as `topo_sort` enters them. -/
def fourNumbered : Node ClassRef :=
  ((((Table.empty.insert32 1 10).insert32 2 20).insert32 3 30).insert32 4 40).root

/-- The last two are called in the order of `arc_iter`. -/
theorem fourNumbered_not_reversed :
    calls arcIter fourNumbered = [10, 20, 30, 40] ∧ calls arcRevIter fourNumbered = [30, 40, 20, 10]
      ∧ ¬ Reversing fourNumbered := by
  refine ⟨by decide +kernel, by decide +kernel, fun reversing => ?_⟩
  exact absurd reversing.order (by decide +kernel)

namespace ClassStack
variable {print : α → β} {t left right : Node α} {s : ClassStack α β}

/-- The entries in use, the top first. -/
def pending (s : ClassStack α β) : List (Node α) := (List.range s.curr).reverse.map s.stack

/-- What remains of the listing of `t`: the trees of `next`, then those on the stack. -/
structure Remaining (print : α → β) (t : Node α) (s : ClassStack α β) (next : List (Node α)) :
    Prop where
  order : s.lines ++ ((next ++ s.pending).flatMap Node.preorder).map print = t.preorder.map print
  pending : ∀ i, i < s.curr → s.stack i ≠ .leaf
  room : s.curr ≤ s.size
  stores : ∀ w ∈ s.stores, w.1 < w.2

/-- The invariant of the loop: it ends only when the stack is empty. -/
structure Listing (print : α → β) (t : Node α) (s : ClassStack α β) : Prop where
  remaining : Remaining print t s [s.node]
  idle : s.node = .leaf → s.curr = 0

theorem pending_push (s : ClassStack α β) (right : Node α) :
    (s.push right).pending = right :: s.pending := by
  have below : (List.range s.curr).reverse.map (Function.update s.stack s.curr right) =
      (List.range s.curr).reverse.map s.stack := by
    refine List.map_congr_left fun i inside => Function.update_of_ne ?_ _ _
    exact ne_of_lt (List.mem_range.mp (List.mem_reverse.mp inside))
  simp only [pending, push, List.range_succ, List.reverse_append, List.reverse_singleton,
    List.singleton_append, List.map_cons, Function.update_self, below]

theorem pending_pop (some : 0 < s.curr) : s.pending = s.pop.node :: s.pop.pending := by
  have top : s.curr = s.curr - 1 + 1 := (Nat.succ_pred_eq_of_pos some).symm
  rw [pending, top, List.range_succ, pop, if_pos some]
  simp [pending]

@[simp] theorem pop_lines (s : ClassStack α β) : s.pop.lines = s.lines := by
  unfold pop
  split
  · rfl
  · rfl

/-- An empty subtree adds nothing. -/
theorem Remaining.skip {next : List (Node α)}
    (remaining : Remaining print t s (next ++ [.leaf])) : Remaining print t s next := by
  obtain ⟨order, pending, room, stores⟩ := remaining
  refine ⟨?_, pending, room, stores⟩
  rw [← order]
  simp [Node.preorder]

theorem Remaining.push (remaining : Remaining print t s [left, right]) (filled : right ≠ .leaf) :
    Remaining print t (s.push right) [left] := by
  obtain ⟨order, pending, room, stores⟩ := remaining
  refine ⟨?_, ?_, ?_, ?_⟩
  · rw [pending_push]
    exact order
  · intro i used
    change Function.update s.stack s.curr right i ≠ .leaf
    rcases Nat.lt_succ_iff_lt_or_eq.mp used with below | rfl
    · rw [Function.update_of_ne (ne_of_lt below)]
      exact pending i below
    · rw [Function.update_self]
      exact filled
  · simp only [ClassStack.push]
    split
    · omega
    · omega
  · intro w stored
    rcases List.mem_append.mp stored with old | new
    · exact stores w old
    · rw [List.mem_singleton.mp new]
      simp only
      split
      · omega
      · omega

theorem Remaining.keepRight (remaining : Remaining print t s [left, right]) :
    Remaining print t (s.keepRight right) [left] ∧ (s.keepRight right).lines = s.lines := by
  cases right with
  | leaf => exact ⟨Remaining.skip remaining, rfl⟩
  | node => exact ⟨remaining.push (by simp), rfl⟩

theorem Remaining.pop (remaining : Remaining print t s []) : Listing print t s.pop := by
  obtain ⟨order, pending, room, stores⟩ := remaining
  by_cases some : 0 < s.curr
  · rw [List.nil_append, pending_pop some] at order
    have popped : s.pop = { s with node := s.stack (s.curr - 1), curr := s.curr - 1 } := by
      rw [ClassStack.pop, if_pos some]
    rw [popped] at order ⊢
    refine ⟨⟨order, fun i used => ?_, ?_, stores⟩, fun leaf => ?_⟩
    · simp only at used
      exact pending i (by omega)
    · simp only
      omega
    · exact absurd leaf (pending _ (by omega))
  · have empty : s.curr = 0 := by omega
    have popped : s.pop = { s with node := .leaf } := by rw [ClassStack.pop, if_neg some]
    rw [popped]
    exact ⟨⟨order, pending, room, stores⟩, fun _ => empty⟩

theorem Remaining.goLeft (remaining : Remaining print t s [left]) :
    Listing print t (s.goLeft left) ∧ (s.goLeft left).lines = s.lines := by
  cases left with
  | leaf => exact ⟨(Remaining.skip remaining).pop, s.pop_lines⟩
  | node =>
    obtain ⟨order, pending, room, stores⟩ := remaining
    exact ⟨⟨⟨order, pending, room, stores⟩, by simp [ClassStack.goLeft]⟩, rfl⟩

/-- One round prints the node it is at, and keeps the invariant. -/
theorem Listing.step (listing : Listing print t s) (filled : s.node ≠ .leaf) :
    Listing print t (s.step print) ∧ (s.step print).lines.length = s.lines.length + 1 := by
  obtain ⟨node, stack, curr, size, lines, stores⟩ := s
  obtain ⟨⟨order, pending, room, within⟩, _⟩ := listing
  cases node with
  | leaf => exact absurd rfl filled
  | node color left key data right =>
    have printed : Remaining print t
        ⟨.node color left key data right, stack, curr, size, lines ++ [print data], stores⟩
        [left, right] := by
      refine ⟨?_, pending, room, within⟩
      rw [← order]
      simp [Node.preorder, ClassStack.pending]
    obtain ⟨kept, lines_keep⟩ := printed.keepRight
    obtain ⟨next, lines_go⟩ := kept.goLeft
    refine ⟨next, ?_⟩
    rw [ClassStack.step, lines_go, lines_keep, List.length_append, List.length_singleton]

theorem Listing.start (print : α → β) (memory : Nat → Node α) (t : Node α) :
    Listing print t ⟨t, memory, 0, 20, [], []⟩ := by
  refine ⟨⟨?_, ?_, ?_, ?_⟩, fun _ => rfl⟩
  · simp [ClassStack.pending]
  · simp
  · simp
  · simp

/-- As many rounds as there are lines to print are enough. -/
theorem Listing.loop (fuel : Nat) (listing : Listing print t s)
    (enough : t.preorder.length < s.lines.length + fuel) :
    ∃ s', loop print fuel s = some s' ∧ s'.lines = t.preorder.map print ∧
      ∀ w ∈ s'.stores, w.1 < w.2 := by
  induction fuel generalizing s with
  | zero =>
    have printed := congrArg List.length listing.remaining.order
    rw [List.length_append, List.length_map, List.length_map] at printed
    omega
  | succ fuel ih =>
    cases node : s.node with
    | leaf =>
      have pending : s.pending = [] := by rw [pending, listing.idle node]; rfl
      refine ⟨s, by rw [ClassStack.loop, node], ?_, listing.remaining.stores⟩
      simpa [node, pending, Node.preorder] using listing.remaining.order
    | node color left key data right =>
      obtain ⟨next, longer⟩ := listing.step (by simp [node])
      rw [ClassStack.loop, node]
      exact ih next (by omega)

end ClassStack

theorem printClassR_eq (print : α → β) (t : Node α) :
    printClassR print t = t.inorder.map print := by
  induction t with
  | leaf => rfl
  | node color left key data right ihl ihr =>
    simp only [printClassR, Node.inorder, ihl, ihr, List.map_append, List.map_cons]

/-- `printClass` ends with its stores within what was allocated, and the nodes listed are those of
`printClass_r`, each once, in the order root, left, right. -/
theorem printClass_lists (print : α → β) (memory : Nat → Node α) (t : Node α) :
    (∃ fuel s, printClass print fuel memory t = some s ∧ s.lines = t.preorder.map print ∧
      ∀ w ∈ s.stores, w.1 < w.2) ∧
    ∀ memory', ∃ fuel s, printClass id fuel memory' t.located = some s ∧
      s.lines = t.located.preorder ∧ s.lines.Nodup ∧
      ∀ way, way ∈ s.lines ↔ way ∈ printClassR id t.located := by
  refine ⟨⟨_, (ClassStack.Listing.start print memory t).loop (t.preorder.length + 1) (by simp)⟩, ?_⟩
  intro memory'
  obtain ⟨s, run, lines, _⟩ := (ClassStack.Listing.start id memory' t.located).loop
    (t.located.preorder.length + 1) (by simp)
  rw [List.map_id] at lines
  refine ⟨_, s, run, lines, ?_, fun way => ?_⟩
  · rw [lines, t.located.preorder_perm.nodup_iff]
    exact t.located_nodup
  · rw [lines, printClassR_eq, List.map_id, t.located.preorder_perm.mem_iff]

end Phat
