import Phat.TrbtState
import Phat.Foundation.Dictionaries

/-! Runs of the functions of rbtree.c on a memory with any number of trees. Each run is one of
dictionaries: a lookup finds what was inserted last and not deleted since, a datum that is freed takes
its entries out of all trees, and a tree with `TRBT_AUTOFREE` goes with its last entry. No run
dereferences NULL, and none goes deeper than the height of a tree of 32-bit keys allows. -/
namespace Phat.Trbt
open PointerTree Dictionaries
open Rbtree (Color Node Balanced Fits)
variable {α : Type}

/-- A call, and with a datum that is freed the order in which the nodes that hang off it are. -/
inductive Command (α : Type) where
  | create (flags : BitVec 32)
  | insert32 (tree : TreeRef) (key : Key) (data : Option α)
  | insert32Callback (tree : TreeRef) (key : Key) (callback : Option α → Option α)
  | lookup32 (tree : TreeRef) (key : Key)
  | delete32 (tree : TreeRef) (key : Key)
  | release (datum : α) (nodes : List NodeRef)

namespace Command

/-- With what the call returns, where this is a datum or NULL. -/
def exec (fuel : Nat) (m : Memory α) : Command α → Option (Option α × Memory α)
  | create flags => some (none, (m.create flags).2)
  | insert32 tree key data => m.insert32 fuel tree key data
  | insert32Callback tree key callback =>
      (m.insert32Callback fuel tree key callback).map (Prod.mk none)
  | lookup32 tree key => (m.lookup32 fuel tree key).map fun found => (found, m)
  | delete32 tree key => (m.delete32 fuel tree key).map (Prod.mk none)
  | release _ nodes => (m.freeNodes fuel nodes).map (Prod.mk none)

/-- A call is for a tree that has been created and not been freed. -/
def Legal (m : Memory α) : Command α → Prop
  | create _ => True
  | insert32 tree .. | insert32Callback tree .. | lookup32 tree _ | delete32 tree _ =>
      tree < m.tree.next ∧ (m.tree.get tree).live = true
  | release datum nodes => nodes.Nodup ∧ ∀ a, a ∈ nodes ↔ m.owner a = some datum

/-- The nodes that a call removes from a tree. -/
def removes (m : Memory α) : Command α → TreeRef → NodeRef → Prop
  | delete32 tree key => fun tree' a => tree' = tree ∧ m.key32 a = key
  | release datum _ => fun _ a => m.data a = some datum
  | _ => fun _ _ => False

/-- The node of a tree that gets new data. -/
def assigns (m : Memory α) : Command α → TreeRef → NodeRef → Prop
  | insert32 tree key _ | insert32Callback tree key _ => fun tree' a => tree' = tree ∧ m.key32 a = key
  | _ => fun _ _ => False

end Command

def run (fuel : Nat) (m : Memory α) : List (Command α) → Option (List (Option α) × Memory α)
  | [] => some ([], m)
  | command :: commands => do
      let (out, m) ← command.exec fuel m
      let (outs, m) ← run fuel m commands
      some (out :: outs, m)

def LegalRun (fuel : Nat) (m : Memory α) : List (Command α) → Prop
  | [] => True
  | command :: commands =>
      command.Legal m ∧ ∀ out m', command.exec fuel m = some (out, m') → LegalRun fuel m' commands

/-- What the trees are for: dictionaries from keys to data, numbered in the order of creation. An
entry may have NULL for its datum. -/
structure Forest (α : Type) extends Family TreeRef Key (Option α) where
  made : TreeRef

namespace Forest

def empty : Forest α := ⟨⟨fun _ _ => none, fun _ => False, fun _ => False⟩, 0⟩

/-- The datum at a key, or NULL. -/
def find (F : Forest α) (tree : TreeRef) (key : Key) : Option α := (F.value tree key).join

def put (F : Forest α) (tree : TreeRef) (key : Key) (datum : Option α) : Forest α :=
  { F with toFamily := F.assign tree key datum }

noncomputable def drop (F : Forest α) (gone : TreeRef → Key → Prop) : Forest α :=
  { F with toFamily := F.clear gone }

theorem drop_drop (F : Forest α) (gone gone' : TreeRef → Key → Prop) :
    (F.drop gone).drop gone' = F.drop fun tree key => gone tree key ∨ gone' tree key :=
  congrArg (fun family => (⟨family, F.made⟩ : Forest α)) Family.clear_clear

theorem drop_of_absent {F : Forest α} {gone : TreeRef → Key → Prop}
    (absent : ∀ tree key, gone tree key → F.value tree key = none) : F.drop gone = F :=
  congrArg (fun family => (⟨family, F.made⟩ : Forest α)) (Family.clear_of_absent absent)

noncomputable def step (F : Forest α) : Command α → Forest α
  | .create flags => ⟨F.make F.made (flags &&& trbtAutofree ≠ 0), F.made + 1⟩
  | .insert32 tree key data => F.put tree key data
  | .insert32Callback tree key callback => F.put tree key (callback (F.find tree key))
  | .lookup32 .. => F
  | .delete32 tree key => F.drop fun tree' key' => tree' = tree ∧ key' = key
  | .release datum _ => F.drop fun tree key => F.value tree key = some (some datum)

/-- `trbt_insert32` returns the datum it replaces. -/
def output (F : Forest α) : Command α → Option α
  | .insert32 tree key _ | .lookup32 tree key => F.find tree key
  | _ => none

noncomputable def run (F : Forest α) (commands : List (Command α)) : Forest α :=
  commands.foldl step F

noncomputable def outputs : Forest α → List (Command α) → List (Option α)
  | _, [] => []
  | F, command :: commands => F.output command :: outputs (F.step command) commands

end Forest

/-- The trees as `Phat.Table` has them. -/
abbrev Tables (α : Type) := TreeRef → Table (Option α)

namespace Tables

def insert (T : Tables α) (tree : TreeRef) (key : Key) (datum : Option α) : Tables α :=
  Function.update T tree ((T tree).insert32 key datum)

def delete (T : Tables α) (tree : TreeRef) (key : Key) : Tables α :=
  Function.update T tree ((T tree).delete32 key)

/-- A datum that is freed has its nodes deleted in their order. -/
def step (m : Memory α) (T : Tables α) : Command α → Tables α
  | .create _ => T
  | .insert32 tree key data => T.insert tree key data
  | .insert32Callback tree key callback =>
      T.insert tree key (callback ((T tree).lookup32 key).join)
  | .lookup32 .. => T
  | .delete32 tree key => T.delete tree key
  | .release _ nodes => nodes.foldl (fun T a => T.delete (m.treeOf a) (m.key32 a)) T

end Tables

/-- The trees in memory are these tables, with every colour and in every place. -/
def Agrees (m : Memory α) (shapes : TreeRef → Shape NodeRef) (T : Tables α) : Prop :=
  ∀ tree, (T tree).root = m.table (shapes tree)

/-- A memory whose trees are these dictionaries. -/
structure Represents (m : Memory α) (shapes : TreeRef → Shape NodeRef) (F : Forest α) : Prop where
  sound : Sound m shapes
  made : m.tree.next = F.made
  live : ∀ tree, F.live tree ↔ tree < m.tree.next ∧ (m.tree.get tree).live = true
  transient : ∀ tree < m.tree.next,
    (F.transient tree ↔ (m.tree.get tree).flags &&& trbtAutofree ≠ 0)
  value : ∀ tree key, F.value tree key = m.value (shapes tree) key

section Steps
variable {m m' : Memory α} {shapes : TreeRef → Shape NodeRef} {F : Forest α} {tree : TreeRef}
  {key : Key} {fuel : Nat}

theorem represents_fresh (unmade : m.tree.next = 0) (unowned : ∀ a, m.owner a = none) :
    Represents m (fun _ => .nil) Forest.empty where
  sound :=
    { focus := fun tree made => absurd made (unmade ▸ Nat.not_lt_zero tree)
      treeOf := fun _ _ member => absurd member List.not_mem_nil
      allocated := fun _ _ member => absurd member List.not_mem_nil
      hangs := fun _ _ member => absurd member List.not_mem_nil
      loose := fun a _ => unowned a
      ordered := fun _ => List.Pairwise.nil
      balanced := fun _ => ⟨0, .leaf⟩
      unmade := fun _ _ => rfl
      freed := fun tree made => absurd made (unmade ▸ Nat.not_lt_zero tree) }
  made := unmade
  live := fun tree => iff_of_false id fun made => Nat.not_lt_zero tree (unmade ▸ made.1)
  transient := fun tree made => absurd made (unmade ▸ Nat.not_lt_zero tree)
  value := fun _ _ => rfl

theorem Represents.create (represents : Represents m shapes F) (flags : BitVec 32) :
    Represents (m.create flags).2 shapes (F.step (.create flags)) := by
  obtain ⟨sound, made, live, transient, value⟩ := represents
  have record : (m.create flags).2.tree.get m.tree.next = ⟨none, flags, true⟩ :=
    Store.get_alloc_self m.tree fun _ => ⟨none, flags, true⟩
  have others : ∀ tree, tree ≠ m.tree.next →
      (m.create flags).2.tree.get tree = m.tree.get tree := fun tree apart =>
    Store.get_alloc_of_ne m.tree (fun _ => ⟨none, flags, true⟩) apart
  have next : (m.create flags).2.tree.next = m.tree.next + 1 := rfl
  have read : (m.create flags).2.read = m.read := Memory.read_eq rfl rfl
  have old : ∀ tree, tree < m.tree.next + 1 → tree ≠ m.tree.next → tree < m.tree.next :=
    fun tree here apart => lt_of_le_of_ne (Nat.lt_succ_iff.mp here) apart
  have empty : shapes m.tree.next = .nil := sound.unmade _ le_rfl
  refine ⟨⟨fun tree here => ?_, sound.treeOf, sound.allocated, sound.hangs, sound.loose,
    read ▸ sound.ordered, read ▸ sound.balanced, fun tree above => ?_, fun tree here gone => ?_⟩,
    next.trans (congrArg (· + 1) made), fun tree => ?_, fun tree here => ?_, fun tree key => ?_⟩
  · by_cases new : tree = m.tree.next
    · rw [new, empty]
      exact ⟨trivial, trivial, congrArg TrbtTree.root record, Links.under_nil _ _, List.nodup_nil⟩
    · have links : (m.create flags).2.links tree = m.links tree :=
        Memory.links_ext (congrArg TrbtTree.root (others tree new)) rfl rfl rfl
      rw [links]
      exact sound.focus tree (old tree here new)
  · exact sound.unmade tree ((Nat.le_succ _).trans above)
  · by_cases new : tree = m.tree.next
    · rw [new, record] at gone
      cases gone
    · rw [others tree new] at gone ⊢
      exact sound.freed tree (old tree here new) gone
  · rw [next]
    by_cases new : tree = m.tree.next
    · rw [new, record]
      simp [Forest.step, Family.make, made]
    · have away : tree ≠ F.made := made ▸ new
      rw [others tree new]
      refine (iff_of_eq (Function.update_of_ne away ..)).trans ((live tree).trans ?_)
      exact and_congr_left fun _ => ⟨fun here => here.trans (Nat.lt_succ_self _), fun here =>
        old tree here new⟩
  · by_cases new : tree = m.tree.next
    · rw [new, record]
      simp [Forest.step, Family.make, made]
    · have away : tree ≠ F.made := made ▸ new
      rw [others tree new]
      exact (iff_of_eq (Function.update_of_ne away ..)).trans (transient tree (old tree here new))
  · have same : (m.create flags).2.value (shapes tree) key = m.value (shapes tree) key := by
      rw [Memory.value, read]
      rfl
    rw [same]
    by_cases new : tree = m.tree.next
    · rw [new, empty]
      simp [Forest.step, Family.make, made, Memory.value, Memory.read, Rbtree.lookup]
    · have away : tree ≠ F.made := made ▸ new
      rw [← value]
      exact congrFun (Function.update_of_ne away ..) key

theorem Represents.assign {datum : Option α} {shapes' : TreeRef → Shape NodeRef}
    (represents : Represents m shapes F) (inserted : Inserted m shapes tree key datum m' shapes') :
    Represents m' shapes' (F.put tree key datum) := by
  refine ⟨inserted.sound, inserted.next.trans represents.made, fun other => ?_,
    fun other below => ?_, fun other key' => ?_⟩
  · rw [inserted.next]
    refine (represents.live other).trans (and_congr_right fun _ => ?_)
    by_cases here : other = tree
    · rw [here, inserted.live]
    · rw [inserted.trees other here]
  · refine (represents.transient other (inserted.next ▸ below)).trans ?_
    by_cases here : other = tree
    · rw [here, inserted.flags]
    · rw [inserted.trees other here]
  · rw [Memory.value_eq]
    by_cases here : other = tree
    · subst here
      have lookup := (represents.sound.table other).lookup32_insert32 key key' datum
      rw [inserted.table]
      refine Eq.trans ?_ lookup.symm
      by_cases same : key' = key
      · simp [Forest.put, Family.assign, same]
      · simp [Forest.put, Family.assign, same, represents.value, represents.sound.value_eq]
    · rw [inserted.tables other here, ← Memory.value_eq, ← represents.value]
      simp [Forest.put, Family.assign, here]

/-- The nodes that stay are where they were, with the key and the datum they had. -/
structure Survive (m : Memory α) (shapes : TreeRef → Shape NodeRef) (m' : Memory α)
    (shapes' : TreeRef → Shape NodeRef) (stay : NodeRef → Prop) : Prop where
  members : ∀ tree a, a ∈ (shapes' tree).members ↔ a ∈ (shapes tree).members ∧ stay a
  key32 : ∀ tree, ∀ a ∈ (shapes' tree).members, m'.key32 a = m.key32 a
  data : ∀ tree, ∀ a ∈ (shapes' tree).members, m'.data a = m.data a

/-- A tree loses its root if the node it loses is the only one. -/
theorem Represents.emptied {a : NodeRef} {shape : Shape NodeRef} (represents : Represents m shapes F)
    (member : a ∈ (shapes tree).members)
    (inShape : ∀ b, b ∈ shape.members ↔ b ∈ (shapes tree).members ∧ b ≠ a) :
    shape.root = none ↔ ∀ key, key = m.key32 a ∨ F.value tree key = none := by
  have sound := represents.sound
  constructor
  · intro empty key
    by_cases same : key = m.key32 a
    · exact .inl same
    · refine .inr ?_
      rw [represents.value, Memory.value, Option.map_eq_none_iff, Option.eq_none_iff_forall_ne_some]
      intro b found
      obtain ⟨inside, keyed⟩ := (lookup_iff_member (sound.ordered tree)).mp found
      have left := (inShape b).mpr ⟨inside, fun here => same (here ▸ keyed.symm)⟩
      cases shape with
      | nil => cases left
      | node => cases empty
  · intro gone
    cases shape with
    | nil => rfl
    | node left b right =>
      obtain ⟨inside, apart⟩ := (inShape b).mp (Shape.root_mem rfl)
      have found := (lookup_iff_member (sound.ordered tree)).mpr ⟨inside, rfl⟩
      rcases gone (m.key32 b) with same | absent
      · exact absurd (sound.key_inj inside member same) apart
      · rw [represents.value, Memory.value, found] at absent
        cases absent

theorem Represents.freeNode {a : NodeRef} (represents : Represents m shapes F)
    (member : a ∈ (shapes tree).members) (enough : 65 < fuel) :
    ∃ m' shapes', m.freeNode fuel a = some m' ∧
      Represents m' shapes' (F.drop fun tree' key => tree' = tree ∧ key = m.key32 a) ∧
      Survive m shapes m' shapes' (fun b => b ≠ a) ∧
      m'.table (shapes' tree) = Rbtree.deleteAt (m.key32 a) (m.table (shapes tree)) [] ∧
      ∀ other, other ≠ tree → m'.table (shapes' other) = m.table (shapes other) := by
  have sound := represents.sound
  have made : tree < m.tree.next := by
    by_contra unmade
    rw [sound.unmade tree (not_lt.mp unmade)] at member
    cases member
  obtain ⟨m', shape, done, sound', confined, loose, live, members, deleted, tables⟩ :=
    freeNode_sound sound made member enough
  have inShape : ∀ b, b ∈ shape.members ↔ b ∈ (shapes tree).members ∧ b ≠ a := by
    intro b
    rw [members, List.mem_filter, decide_eq_true_iff]
  have stay : ∀ other b, b ∈ (Function.update shapes tree shape other).members ↔
      b ∈ (shapes other).members ∧ b ≠ a := by
    intro other b
    by_cases here : other = tree
    · rw [here, Function.update_self, inShape]
    · rw [Function.update_of_ne here]
      refine (and_iff_left_of_imp ?_).symm
      rintro inside rfl
      exact sound.apart here member inside
  have emptied : shape.root = none ↔ ∀ key, (tree = tree ∧ key = m.key32 a) ∨
      F.value tree key = none := by
    simpa using represents.emptied member inShape
  have present : F.value tree (m.key32 a) ≠ none := by
    have found := (lookup_iff_member (sound.ordered tree)).mpr ⟨member, rfl⟩
    rw [represents.value, Memory.value, found]
    exact Option.some_ne_none _
  refine ⟨m', Function.update shapes tree shape, done, ⟨sound', confined.nextTree.trans represents.made,
    fun other => ?_, fun other below => ?_, fun other key => ?_⟩, ⟨stay, ?_, ?_⟩, ?_,
    fun other away => ?_⟩
  · rw [confined.nextTree]
    by_cases here : other = tree
    · subst here
      rw [live, Memory.spared, Bool.and_eq_true, ← and_assoc, ← represents.live]
      refine and_congr_right fun _ => ?_
      rw [Bool.not_eq_true', decide_eq_false_iff_not, emptied, ← represents.transient other made]
      exact not_congr (and_congr_right fun _ =>
        and_iff_right ⟨m.key32 a, ⟨rfl, rfl⟩, present⟩)
    · rw [confined.trees other here, ← represents.live]
      exact Family.live_clear_of_not fun key gone => absurd gone.1 here
  · refine (represents.transient other (confined.nextTree ▸ below)).trans ?_
    by_cases here : other = tree
    · rw [here, confined.flags]
    · rw [confined.trees other here]
  · rw [Memory.value_eq]
    by_cases here : other = tree
    · subst here
      have lookup := (sound.table other).lookup32_delete32 (m.key32 a) key
      rw [Function.update_self, deleted]
      refine Eq.trans ?_ lookup.symm
      by_cases same : key = m.key32 a
      · rw [if_pos same]
        exact Family.value_clear_of ⟨rfl, same⟩
      · rw [if_neg same, ← sound.value_eq, ← represents.value]
        exact Family.value_clear_of_not fun both => same both.2
    · rw [Function.update_of_ne here, tables other here, ← Memory.value_eq, ← represents.value]
      exact Family.value_clear_of_not fun both => here both.1
  · intro other b left
    obtain ⟨inside, apart⟩ := (stay other b).mp left
    exact confined.key32 b (sound.allocated other b inside) apart
  · intro other b left
    obtain ⟨inside, apart⟩ := (stay other b).mp left
    exact confined.data b (sound.allocated other b inside) apart
  · rw [Function.update_self]
    exact deleted
  · rw [Function.update_of_ne away]
    exact tables other away

theorem Agrees.delete {T : Tables α} {shapes' : TreeRef → Shape NodeRef} (agrees : Agrees m shapes T)
    (deleted : m'.table (shapes' tree) = Rbtree.deleteAt key (m.table (shapes tree)) [])
    (tables : ∀ other, other ≠ tree → m'.table (shapes' other) = m.table (shapes other)) :
    Agrees m' shapes' (T.delete tree key) := by
  intro other
  by_cases here : other = tree
  · rw [here, deleted, ← agrees, Tables.delete, Function.update_self]
    rfl
  · rw [tables other here, ← agrees, Tables.delete, Function.update_of_ne here]

theorem Agrees.insert {T : Tables α} {shapes' : TreeRef → Shape NodeRef} {datum : Option α}
    (agrees : Agrees m shapes T) (inserted : Inserted m shapes tree key datum m' shapes') :
    Agrees m' shapes' (T.insert tree key datum) := by
  intro other
  by_cases here : other = tree
  · rw [here, inserted.table, ← agrees, Tables.insert, Function.update_self]
    rfl
  · rw [inserted.tables other here, ← agrees, Tables.insert, Function.update_of_ne here]

theorem Represents.freeNodes {nodes : List NodeRef} (represents : Represents m shapes F)
    (distinct : nodes.Nodup) (inside : ∀ a ∈ nodes, ∃ tree, a ∈ (shapes tree).members)
    (enough : 65 < fuel) :
    ∃ m' shapes', m.freeNodes fuel nodes = some m' ∧
      Represents m' shapes' (F.drop fun tree key =>
        ∃ a ∈ nodes, a ∈ (shapes tree).members ∧ m.key32 a = key) ∧
      Survive m shapes m' shapes' (fun b => b ∉ nodes) ∧
      ∀ T : Tables α, Agrees m shapes T →
        Agrees m' shapes' (nodes.foldl (fun T a => T.delete (m.treeOf a) (m.key32 a)) T) := by
  induction nodes generalizing m shapes F with
  | nil =>
    refine ⟨m, shapes, rfl, ?_, ⟨by simp, fun _ _ _ => rfl, fun _ _ _ => rfl⟩, fun _ => id⟩
    rw [Forest.drop_of_absent (by simp)]
    exact represents
  | cons a nodes ih =>
    obtain ⟨outside, distinct⟩ := List.nodup_cons.mp distinct
    obtain ⟨tree, member⟩ := inside a List.mem_cons_self
    obtain ⟨m₁, shapes₁, done, represents₁, survive, deleted, tables⟩ :=
      represents.freeNode member enough
    have inside₁ : ∀ b ∈ nodes, ∃ tree, b ∈ (shapes₁ tree).members := by
      intro b rest
      obtain ⟨other, inTree⟩ := inside b (List.mem_cons_of_mem _ rest)
      refine ⟨other, (survive.members other b).mpr ⟨inTree, ?_⟩⟩
      rintro rfl
      exact outside rest
    obtain ⟨m₂, shapes₂, done', represents₂, survive', agree⟩ := ih represents₁ distinct inside₁
    refine ⟨m₂, shapes₂, ?_, ?_, ⟨fun other b => ?_, fun other b left => ?_, fun other b left => ?_⟩,
      fun T agrees => ?_⟩
    · rw [Memory.freeNodes, done]
      exact done'
    · rw [Forest.drop_drop] at represents₂
      have places : ∀ other key, (other = tree ∧ key = m.key32 a) ∨ (∃ b ∈ nodes,
          b ∈ (shapes₁ other).members ∧ m₁.key32 b = key) ↔
          ∃ b ∈ a :: nodes, b ∈ (shapes other).members ∧ m.key32 b = key := by
        intro other key
        constructor
        · rintro (⟨rfl, rfl⟩ | ⟨b, rest, left, keyed⟩)
          · exact ⟨a, List.mem_cons_self, member, rfl⟩
          · have kept := survive.key32 other b left
            exact ⟨b, List.mem_cons_of_mem _ rest, ((survive.members other b).mp left).1,
              kept.symm.trans keyed⟩
        · rintro ⟨b, named, inTree, rfl⟩
          rcases List.mem_cons.mp named with rfl | rest
          · refine .inl ⟨?_, rfl⟩
            by_contra away
            exact represents.sound.apart away member inTree
          · have left : b ∈ (shapes₁ other).members := (survive.members other b).mpr
              ⟨inTree, fun same => outside (same ▸ rest)⟩
            exact .inr ⟨b, rest, left, survive.key32 other b left⟩
      have same := funext fun other => funext fun key => propext (places other key)
      rwa [same] at represents₂
    · rw [survive'.members, survive.members, and_assoc, List.mem_cons, not_or]
    · rw [survive'.key32 other b left, survive.key32 other b ((survive'.members other b).mp left).1]
    · rw [survive'.data other b left, survive.data other b ((survive'.members other b).mp left).1]
    · have here : m.treeOf a = tree := represents.sound.treeOf tree a member
      have first := agree (T.delete tree (m.key32 a)) (agrees.delete deleted tables)
      rw [List.foldl_cons, here]
      have same : ∀ T' : Tables α, ∀ b ∈ nodes, T'.delete (m₁.treeOf b) (m₁.key32 b) =
          T'.delete (m.treeOf b) (m.key32 b) := by
        intro T' b rest
        obtain ⟨other, left⟩ := inside₁ b rest
        rw [survive.key32 other b left, represents₁.sound.treeOf other b left,
          represents.sound.treeOf other b ((survive.members other b).mp left).1]
      rwa [List.foldl_ext _ _ _ same] at first

theorem Represents.find (represents : Represents m shapes F) :
    F.find tree key = (m.value (shapes tree) key).join := by
  rw [Forest.find, represents.value]

/-- The loop of `trbt_lookup32` and `trbt_delete32` finds the node that has the key. -/
theorem Sound.findNode (sound : Sound m shapes) (made : tree < m.tree.next) (enough : 64 < fuel) :
    m.findNode key fuel (m.root tree) = some (Rbtree.lookup key (m.read (shapes tree))) := by
  obtain ⟨n, balanced⟩ := sound.balanced tree
  have height := balanced.height_le_64 (sound.ordered tree)
  have root : m.root tree = (shapes tree).root := (sound.focus tree made).down
  rw [root]
  exact findNode_located (sound.located made) (by omega)

/-- A call leaves every node that it does not remove in its tree, with its key, and but for the one it
assigns with its datum. -/
structure Keeps (command : Command α) (m : Memory α) (shapes : TreeRef → Shape NodeRef)
    (m' : Memory α) (shapes' : TreeRef → Shape NodeRef) : Prop where
  stay : ∀ tree, ∀ a ∈ (shapes tree).members, ¬ command.removes m tree a →
    a ∈ (shapes' tree).members ∧ m'.key32 a = m.key32 a ∧
      (¬ command.assigns m tree a → m'.data a = m.data a)
  gone : ∀ tree, ∀ a ∈ (shapes tree).members, command.removes m tree a → a ∉ (shapes' tree).members

theorem Inserted.keeps {command : Command α} {datum : Option α} {shapes' : TreeRef → Shape NodeRef}
    (inserted : Inserted m shapes tree key datum m' shapes')
    (removes : ∀ other a, ¬ command.removes m other a)
    (assigns : ∀ other a, other = tree ∧ m.key32 a = key → command.assigns m other a) :
    Keeps command m shapes m' shapes' := by
  refine ⟨fun other a member _ => ?_, fun other a _ gone => absurd gone (removes other a)⟩
  obtain ⟨here, keyed, data⟩ := inserted.stay other a member
  exact ⟨here, keyed, fun free => data (not_and_or.mp (mt (assigns other a) free))⟩

theorem Survive.keeps {command : Command α} {shapes' : TreeRef → Shape NodeRef}
    {stay : NodeRef → Prop} (survive : Survive m shapes m' shapes' stay)
    (removes : ∀ other, ∀ a ∈ (shapes other).members, command.removes m other a ↔ ¬ stay a) :
    Keeps command m shapes m' shapes' := by
  constructor
  · intro other a member kept
    have here := (survive.members other a).mpr
      ⟨member, not_not.mp (mt (removes other a member).mpr kept)⟩
    exact ⟨here, survive.key32 other a here, fun _ => survive.data other a here⟩
  · intro other a member gone here
    exact (removes other a member).mp gone ((survive.members other a).mp here).2

/-- What a call does, on all levels. -/
structure Stepped (fuel : Nat) (command : Command α) (m : Memory α) (shapes : TreeRef → Shape NodeRef)
    (F : Forest α) (m' : Memory α) (shapes' : TreeRef → Shape NodeRef) : Prop where
  done : command.exec fuel m = some (F.output command, m')
  represents : Represents m' shapes' (F.step command)
  keeps : Keeps command m shapes m' shapes'
  agrees : ∀ T : Tables α, Agrees m shapes T → Agrees m' shapes' (T.step m command)

theorem Represents.create_stepped (represents : Represents m shapes F) (flags : BitVec 32) :
    Stepped fuel (.create flags) m shapes F (m.create flags).2 shapes where
  done := rfl
  represents := represents.create flags
  keeps := ⟨fun _ _ member _ => ⟨member, rfl, fun _ => rfl⟩, fun _ _ _ => False.elim⟩
  agrees := fun T agrees tree => by
    have read : (m.create flags).2.read = m.read := Memory.read_eq rfl rfl
    rw [Memory.table, read]
    exact agrees tree

theorem Represents.insert32_stepped {data : Option α} (represents : Represents m shapes F)
    (made : tree < m.tree.next) (alive : (m.tree.get tree).live = true) (enough : 96 < fuel) :
    ∃ m' shapes', Stepped fuel (.insert32 tree key data) m shapes F m' shapes' := by
  obtain ⟨m', shapes', done, inserted⟩ :=
    insertWith_sound (fun _ => data) represents.sound made alive enough
  exact ⟨m', shapes', done.trans (by rw [Forest.output, represents.find]),
    represents.assign inserted, inserted.keeps (fun _ _ => id) fun _ _ => id,
    fun T agrees => agrees.insert inserted⟩

theorem Represents.insert32Callback_stepped {callback : Option α → Option α}
    (represents : Represents m shapes F) (made : tree < m.tree.next)
    (alive : (m.tree.get tree).live = true) (enough : 96 < fuel) :
    ∃ m' shapes', Stepped fuel (.insert32Callback tree key callback) m shapes F m' shapes' := by
  obtain ⟨m', shapes', done, inserted⟩ :=
    insertWith_sound callback represents.sound made alive enough
  refine ⟨m', shapes', ?_, ?_, inserted.keeps (fun _ _ => id) fun _ _ => id, fun T agrees => ?_⟩
  · rw [Command.exec, Memory.insert32Callback, done]
    rfl
  · rw [Forest.step, represents.find]
    exact represents.assign inserted
  · have found : (T tree).lookup32 key = m.value (shapes tree) key := by
      rw [Memory.value_eq, ← agrees]
      rfl
    rw [Tables.step, found]
    exact agrees.insert inserted

theorem Represents.lookup32_stepped (represents : Represents m shapes F)
    (made : tree < m.tree.next) (enough : 64 < fuel) :
    Stepped fuel (.lookup32 tree key) m shapes F m shapes where
  done := by
    rw [Command.exec, Memory.lookup32, represents.sound.findNode made enough, Forest.output,
      represents.find, Memory.value]
    cases Rbtree.lookup key (m.read (shapes tree)) <;> rfl
  represents := represents
  keeps := ⟨fun _ _ member _ => ⟨member, rfl, fun _ => rfl⟩, fun _ _ _ => False.elim⟩
  agrees := fun _ => id

/-- Deleting a key that no node has. -/
theorem Represents.delete32_absent (represents : Represents m shapes F)
    (made : tree < m.tree.next) (enough : 64 < fuel)
    (absent : Rbtree.lookup key (m.read (shapes tree)) = none) :
    Stepped fuel (.delete32 tree key) m shapes F m shapes := by
  have search : m.findNode key fuel (m.root tree) = _ := represents.sound.findNode made enough
  have value : m.value (shapes tree) key = none := by rw [Memory.value, absent]; rfl
  refine ⟨?_, ?_, ⟨fun _ _ member _ => ⟨member, rfl, fun _ => rfl⟩, ?_⟩, fun T agrees other => ?_⟩
  · rw [Command.exec, Memory.delete32, search, absent]
    rfl
  · rw [Forest.step, Forest.drop_of_absent]
    · exact represents
    · rintro _ _ ⟨rfl, rfl⟩
      rw [represents.value, value]
  · rintro _ a member ⟨rfl, keyed⟩
    rw [(lookup_iff_member (represents.sound.ordered _)).mpr ⟨member, keyed⟩] at absent
    cases absent
  · by_cases here : other = tree
    · subst here
      rw [Memory.value_eq, ← agrees] at value
      rw [Tables.step, Tables.delete, Function.update_self, ← agrees]
      exact Rbtree.deleteAt_absent value []
    · rw [Tables.step, Tables.delete, Function.update_of_ne here]
      exact agrees other

theorem Represents.delete32_present {node : NodeRef} (represents : Represents m shapes F)
    (made : tree < m.tree.next) (enough : 65 < fuel)
    (found : Rbtree.lookup key (m.read (shapes tree)) = some node) :
    ∃ m' shapes', Stepped fuel (.delete32 tree key) m shapes F m' shapes' := by
  have sound := represents.sound
  have search : m.findNode key fuel (m.root tree) = _ :=
    sound.findNode made ((Nat.lt_succ_self 64).trans enough)
  obtain ⟨member, rfl⟩ := (lookup_iff_member (sound.ordered tree)).mp found
  obtain ⟨m', shapes', done, represents', survive, deleted, tables⟩ :=
    represents.freeNode member enough
  refine ⟨m', shapes', ?_, represents', survive.keeps fun other a inside => ?_, fun T agrees =>
    agrees.delete deleted tables⟩
  · rw [Command.exec, Memory.delete32, search, found]
    exact congrArg (Option.map (Prod.mk none)) done
  · rw [not_not]
    constructor
    · rintro ⟨rfl, same⟩
      exact sound.key_inj inside member same
    · rintro rfl
      refine ⟨?_, rfl⟩
      by_contra away
      exact sound.apart away member inside

theorem Represents.release_stepped {datum : α} {nodes : List NodeRef}
    (represents : Represents m shapes F) (distinct : nodes.Nodup)
    (hangers : ∀ a, a ∈ nodes ↔ m.owner a = some datum) (enough : 65 < fuel) :
    ∃ m' shapes', Stepped fuel (.release datum nodes) m shapes F m' shapes' := by
  have sound := represents.sound
  have inside : ∀ a ∈ nodes, ∃ tree, a ∈ (shapes tree).members := by
    intro a named
    by_contra nowhere
    have loose := sound.loose a fun tree member => nowhere ⟨tree, member⟩
    rw [(hangers a).mp named] at loose
    cases loose
  obtain ⟨m', shapes', done, represents', survive, agree⟩ :=
    represents.freeNodes distinct inside enough
  refine ⟨m', shapes', ?_, ?_, survive.keeps fun other a member => ?_, agree⟩
  · rw [Command.exec, done]
    rfl
  · have places : ∀ tree key, (∃ a ∈ nodes, a ∈ (shapes tree).members ∧ m.key32 a = key) ↔
        F.value tree key = some (some datum) := by
      intro tree key
      rw [represents.value, Memory.value, Option.map_eq_some_iff]
      refine exists_congr fun a => ?_
      rw [lookup_iff_member (sound.ordered tree), hangers, and_comm]
      exact and_congr_right fun here => by rw [sound.hangs tree a here.1]
    have same := funext fun tree => funext fun key => propext (places tree key)
    rwa [same] at represents'
  · rw [not_not, hangers, sound.hangs other a member]
    rfl

theorem Represents.exec (represents : Represents m shapes F) {command : Command α}
    (legal : command.Legal m) (enough : 96 < fuel) :
    ∃ m' shapes', Stepped fuel command m shapes F m' shapes' := by
  have deep : 65 < fuel := by omega
  cases command with
  | create flags => exact ⟨_, _, represents.create_stepped flags⟩
  | insert32 tree key data => exact represents.insert32_stepped legal.1 legal.2 enough
  | insert32Callback tree key callback =>
    exact represents.insert32Callback_stepped legal.1 legal.2 enough
  | lookup32 tree key => exact ⟨m, shapes, represents.lookup32_stepped legal.1 (by omega)⟩
  | delete32 tree key =>
    cases found : Rbtree.lookup key (m.read (shapes tree)) with
    | none => exact ⟨m, shapes, represents.delete32_absent legal.1 (by omega) found⟩
    | some node => exact represents.delete32_present legal.1 deep found
  | release datum nodes => exact represents.release_stepped legal.1 legal.2 deep

/-- The tables that the calls of a run make. -/
def tablesRun (fuel : Nat) (m : Memory α) (T : Tables α) : List (Command α) → Tables α
  | [] => T
  | command :: commands =>
    match command.exec fuel m with
    | some (_, m') => tablesRun fuel m' (T.step m command) commands
    | none => T

/-- Every run is one of dictionaries and one of tables. -/
theorem Represents.run {commands : List (Command α)} (represents : Represents m shapes F)
    (legal : LegalRun fuel m commands) (enough : 96 < fuel) :
    ∃ m' shapes', run fuel m commands = some (F.outputs commands, m') ∧
      Represents m' shapes' (F.run commands) ∧
      ∀ T : Tables α, Agrees m shapes T → Agrees m' shapes' (tablesRun fuel m T commands) := by
  induction commands generalizing m shapes F with
  | nil => exact ⟨m, shapes, rfl, represents, fun _ => id⟩
  | cons command commands ih =>
    obtain ⟨now, later⟩ := legal
    obtain ⟨m₁, shapes₁, stepped⟩ := represents.exec now enough
    obtain ⟨m₂, shapes₂, done, represents₂, agrees⟩ :=
      ih stepped.represents (later _ _ stepped.done)
    refine ⟨m₂, shapes₂, ?_, represents₂, fun T start => ?_⟩
    · simp only [Trbt.run, stepped.done, done, Option.bind_eq_bind, Option.bind_some]
      rfl
    · rw [tablesRun, stepped.done]
      exact agrees _ (stepped.agrees T start)

end Steps

end Phat.Trbt
