import Phat.TrbtRuns

/-! What holds in every run from a memory without trees. -/
namespace Phat.Trbt
open PointerTree Dictionaries
open Rbtree (Color Node Balanced Fits)
variable {α : Type} {m m' : Memory α} {fuel : Nat} {commands : List (Command α)}
  {outs : List (Option α)}

/-- A check that a call is legal. No node yet to be allocated hangs off a datum. -/
def Command.allowed [DecidableEq α] (m : Memory α) : Command α → Bool
  | create _ => true
  | insert32 tree .. | insert32Callback tree .. | lookup32 tree _ | delete32 tree _ =>
      decide (tree < m.tree.next) && (m.tree.get tree).live
  | release datum nodes =>
      decide nodes.Nodup && (nodes.all fun a => m.owner a = some datum) &&
        (List.range m.node.next).all fun a => m.owner a ≠ some datum || nodes.contains a

def allowedRun [DecidableEq α] (fuel : Nat) (m : Memory α) : List (Command α) → Bool
  | [] => true
  | command :: commands =>
    command.allowed m && match command.exec fuel m with
      | some (_, m') => allowedRun fuel m' commands
      | none => true

theorem Sound.legal [DecidableEq α] {shapes : TreeRef → Shape NodeRef} (sound : Sound m shapes)
    {command : Command α} (allowed : command.allowed m = true) : command.Legal m := by
  cases command with
  | create => trivial
  | release datum nodes =>
    simp only [Command.allowed, Bool.and_eq_true, decide_eq_true_eq, List.all_eq_true,
      Bool.or_eq_true, List.contains_iff_mem, List.mem_range] at allowed
    obtain ⟨⟨distinct, own⟩, complete⟩ := allowed
    refine ⟨distinct, fun a => ⟨own a, fun owned => ?_⟩⟩
    have placed : ∃ tree, a ∈ (shapes tree).members := by
      by_contra nowhere
      rw [sound.loose a fun tree member => nowhere ⟨tree, member⟩] at owned
      cases owned
    obtain ⟨tree, member⟩ := placed
    exact (complete a (sound.allocated tree a member)).resolve_left (not_not.mpr owned)
  | _ => simpa [Command.allowed, Command.Legal] using allowed

theorem Represents.legalRun [DecidableEq α] {shapes : TreeRef → Shape NodeRef} {F : Forest α}
    (represents : Represents m shapes F) (enough : 96 < fuel)
    (allowed : allowedRun fuel m commands = true) : LegalRun fuel m commands := by
  induction commands generalizing m shapes F with
  | nil => trivial
  | cons command commands ih =>
    rw [allowedRun, Bool.and_eq_true] at allowed
    have legal := represents.sound.legal allowed.1
    refine ⟨legal, fun out m' done => ?_⟩
    obtain ⟨m₁, shapes₁, stepped⟩ := represents.exec legal enough
    have same := done.symm.trans stepped.done
    cases same
    rw [done] at allowed
    exact ih stepped.represents allowed.2

section Fresh
variable (unmade : m.tree.next = 0) (unowned : ∀ a, m.owner a = none)
  (legal : LegalRun fuel m commands) (enough : 96 < fuel)
include unmade unowned legal enough

theorem runs_are_dictionaries :
    ∃ m' shapes, run fuel m commands = some (Forest.empty.outputs commands, m') ∧
      Represents m' shapes (Forest.empty.run commands) :=
  let ⟨m', shapes, done, represents, _⟩ := (represents_fresh unmade unowned).run legal enough
  ⟨m', shapes, done, represents⟩

theorem runs_are_tables :
    ∃ m', ∃ shapes : TreeRef → Shape NodeRef,
      run fuel m commands = some (Forest.empty.outputs commands, m') ∧
      (∀ tree < m'.tree.next, Focus (m'.links tree) (shapes tree) []) ∧
      ∀ tree, m'.table (shapes tree) = (tablesRun fuel m (fun _ => Table.empty) commands tree).root := by
  obtain ⟨m', shapes, done, represents, agrees⟩ :=
    (represents_fresh unmade unowned).run legal enough
  have start : Agrees m (fun _ => .nil) fun _ => Table.empty := fun _ => rfl
  exact ⟨m', shapes, done, represents.sound.focus, fun tree => (agrees _ start tree).symm⟩

theorem runs_balanced (done : run fuel m commands = some (outs, m')) :
    ∀ tree < m'.tree.next, ∃ t : Shape NodeRef, Focus (m'.links tree) t [] ∧
      (m'.read t).Ordered ∧ (∃ n, Balanced (m'.read t) .black n) ∧
      ∀ key steps, 2 * Nat.log 2 (t.members.length + 1) < steps →
        m'.findNode key steps (m'.root tree) = some (Rbtree.lookup key (m'.read t)) := by
  obtain ⟨m₁, shapes, done', represents, _⟩ :=
    (represents_fresh unmade unowned).run legal enough
  rw [done] at done'
  cases done'
  intro tree made
  have sound := represents.sound
  obtain ⟨n, balanced⟩ := sound.balanced tree
  refine ⟨shapes tree, sound.focus tree made, sound.ordered tree, ⟨n, balanced⟩, ?_⟩
  intro key steps many
  have height := balanced.height_le_log
  rw [Memory.members_read, List.length_map] at height
  have root : m'.root tree = (shapes tree).root := (sound.focus tree made).down
  rw [root]
  exact findNode_located (sound.located made) (height.trans_lt many)

theorem runs_keep_nodes (done : run fuel m commands = some (outs, m')) {command : Command α}
    (now : command.Legal m') :
    ∃ shapes out m'' shapes', command.exec fuel m' = some (out, m'') ∧
      (∀ tree < m'.tree.next, Focus (m'.links tree) (shapes tree) []) ∧
      (∀ tree < m''.tree.next, Focus (m''.links tree) (shapes' tree) []) ∧
      Keeps command m' shapes m'' shapes' := by
  obtain ⟨m₁, shapes, done', represents, _⟩ :=
    (represents_fresh unmade unowned).run legal enough
  rw [done] at done'
  cases done'
  obtain ⟨m'', shapes', stepped⟩ := represents.exec now enough
  exact ⟨shapes, _, m'', shapes', stepped.done, represents.sound.focus,
    stepped.represents.sound.focus, stepped.keeps⟩

theorem runs_own_live (done : run fuel m commands = some (outs, m')) :
    (∀ a datum, m'.owner a = some datum →
      m'.treeOf a < m'.tree.next ∧ (m'.tree.get (m'.treeOf a)).live = true ∧
        m'.data a = some datum ∧
        m'.findNode (m'.key32 a) fuel (m'.root (m'.treeOf a)) = some (some a)) ∧
      ∀ tree < m'.tree.next, (m'.tree.get tree).live = false →
        m'.root tree = none ∧ (m'.tree.get tree).flags &&& trbtAutofree ≠ 0 := by
  obtain ⟨m₁, shapes, done', represents, _⟩ :=
    (represents_fresh unmade unowned).run legal enough
  rw [done] at done'
  cases done'
  have sound := represents.sound
  constructor
  · intro a datum owned
    have placed : ∃ tree, a ∈ (shapes tree).members := by
      by_contra nowhere
      rw [sound.loose a fun tree member => nowhere ⟨tree, member⟩] at owned
      cases owned
    obtain ⟨tree, member⟩ := placed
    have made : tree < m'.tree.next := by
      by_contra above
      rw [sound.unmade tree (not_lt.mp above)] at member
      cases member
    have alive : (m'.tree.get tree).live = true := by
      by_contra gone
      rw [(sound.freed tree made (Bool.eq_false_iff.mpr gone)).1] at member
      cases member
    rw [sound.treeOf tree a member, ← sound.hangs tree a member]
    refine ⟨made, alive, owned, ?_⟩
    rw [sound.findNode made (by omega), (lookup_iff_member (sound.ordered tree)).mpr ⟨member, rfl⟩]
  · intro tree made gone
    obtain ⟨empty, flagged⟩ := sound.freed tree made gone
    refine ⟨?_, flagged⟩
    have root : m'.root tree = (shapes tree).root := (sound.focus tree made).down
    rw [root, empty]
    rfl

end Fresh

/-- Memory that has never been used. -/
def blank : Memory Nat where
  node := ⟨0, fun _ => ⟨0, none, none, none, .black, 0, none⟩⟩
  tree := ⟨0, fun _ => ⟨none, 0, false⟩⟩
  owner := fun _ => none

/-- A node with two children is deleted, and one goes with its datum. -/
def sampleCommands : List (Command Nat) :=
  [.create 1, .insert32 0 5 (some 7), .insert32 0 3 (some 8), .insert32 0 9 (some 7), .delete32 0 5,
    .lookup32 0 3, .release 7 [2], .insert32Callback 0 3 fun _ => some 6]

theorem sample_legal : LegalRun 97 blank sampleCommands :=
  (represents_fresh rfl fun _ => rfl).legalRun (by decide) (by decide +kernel)

theorem eq_some_get {β γ : Type} {x : Option (β × γ)} (h : x.isSome = true) :
    x = some ((x.get h).1, (x.get h).2) := by
  cases x with
  | none => cases h
  | some pair => rfl

theorem sample_isSome : (run 97 blank sampleCommands).isSome = true := by
  decide +kernel

def sampleOuts : List (Option Nat) := ((run 97 blank sampleCommands).get sample_isSome).1

def sampleMemory : Memory Nat := ((run 97 blank sampleCommands).get sample_isSome).2

theorem sample_run : run 97 blank sampleCommands = some (sampleOuts, sampleMemory) := by
  rw [sampleOuts, sampleMemory]
  exact eq_some_get sample_isSome

example : sampleOuts = [none, none, none, none, none, some 8, none, none] := by
  decide +kernel

theorem runs_are_dictionaries_sample :
    ∃ m' shapes, run 97 blank sampleCommands =
        some (Forest.empty.outputs sampleCommands, m') ∧
      Represents m' shapes (Forest.empty.run sampleCommands) :=
  runs_are_dictionaries rfl (fun _ => rfl) sample_legal (by decide)

theorem runs_are_tables_sample :
    ∃ m', ∃ shapes : TreeRef → Shape NodeRef,
      run 97 blank sampleCommands = some (Forest.empty.outputs sampleCommands, m') ∧
      (∀ tree < m'.tree.next, Focus (m'.links tree) (shapes tree) []) ∧
      ∀ tree, m'.table (shapes tree) =
        (tablesRun 97 blank (fun _ => Table.empty) sampleCommands tree).root :=
  runs_are_tables rfl (fun _ => rfl) sample_legal (by decide)

theorem runs_balanced_sample :
    ∃ t : Shape NodeRef, Focus (sampleMemory.links 0) t [] ∧
      (sampleMemory.read t).Ordered ∧ (∃ n, Balanced (sampleMemory.read t) .black n) ∧
      ∀ key steps, 2 * Nat.log 2 (t.members.length + 1) < steps →
        sampleMemory.findNode key steps (sampleMemory.root 0) =
          some (Rbtree.lookup key (sampleMemory.read t)) :=
  runs_balanced rfl (fun _ => rfl) sample_legal (by decide) sample_run 0 (by decide +kernel)

theorem runs_keep_nodes_sample :
    ∃ shapes out m'' shapes', (Command.delete32 0 3).exec 97 sampleMemory = some (out, m'') ∧
      (∀ tree < sampleMemory.tree.next, Focus (sampleMemory.links tree) (shapes tree) []) ∧
      (∀ tree < m''.tree.next, Focus (m''.links tree) (shapes' tree) []) ∧
      Keeps (.delete32 0 3) sampleMemory shapes m'' shapes' :=
  runs_keep_nodes rfl (fun _ => rfl) sample_legal (by decide) sample_run
    ⟨by decide +kernel, by decide +kernel⟩

theorem runs_own_live_sample :
    (∀ a datum, sampleMemory.owner a = some datum →
      sampleMemory.treeOf a < sampleMemory.tree.next ∧
        (sampleMemory.tree.get (sampleMemory.treeOf a)).live = true ∧
        sampleMemory.data a = some datum ∧
        sampleMemory.findNode (sampleMemory.key32 a) 97 (sampleMemory.root (sampleMemory.treeOf a)) =
          some (some a)) ∧
      ∀ tree < sampleMemory.tree.next, (sampleMemory.tree.get tree).live = false →
        sampleMemory.root tree = none ∧ (sampleMemory.tree.get tree).flags &&& trbtAutofree ≠ 0 :=
  runs_own_live rfl (fun _ => rfl) sample_legal (by decide) sample_run

end Phat.Trbt
