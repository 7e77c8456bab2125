import Mathlib.Data.Fin.Tuple.Basic
import Mathlib.Data.List.OfFn
import Phat.TrbtRuns

/-! The trees of rbtree.c whose key is an array: a tree for the first part of the key, whose data
are the trees for the rest of it. -/
namespace Phat
open Rbtree (Node)
variable {α : Type}

namespace Table

/-- `trbt_insert32_callback`; the callback receives NULL where there is no node. -/
def insert32Callback (t : Table (Option α)) (key : Key) (callback : Option α → Option α) :
    Table (Option α) :=
  t.insert32 key (callback (t.lookup32 key).join)

theorem lookup32_insert32Callback (t : Table (Option α)) (key key' : Key)
    (callback : Option α → Option α) :
    (t.insert32Callback key callback).lookup32 key' =
      if key' = key then some (callback (t.lookup32 key).join) else t.lookup32 key' :=
  lookup32_insert32 t key key' _

end Table

/-- The program on memory inserts so. -/
theorem Trbt.Tables.step_insert32Callback (m : Trbt.Memory α) (T : Trbt.Tables α)
    (tree : Trbt.TreeRef) (key : Key) (callback : Option α → Option α) :
    T.step m (.insert32Callback tree key callback) tree = (T tree).insert32Callback key callback :=
  Function.update_self ..

/-- What `data` points to with so many parts of the key to come. -/
@[reducible] def Pointee (α : Type) : Nat → Type
  | 0 => α
  | keylen + 1 => Table (Option (Pointee α keylen))

/-- `array_insert_callback`: a subtree is made where there is none. -/
def arrayInsertCallback (callback : Option α → Option α) :
    (keylen : Nat) → (Fin keylen → Key) → Option (Pointee α keylen) → Option (Pointee α keylen)
  | 0, _, data => callback data
  | keylen + 1, key, data =>
    let tree : Table (Option (Pointee α keylen)) := data.getD Table.empty
    some (tree.insert32Callback (key 0) (arrayInsertCallback callback keylen (Fin.tail key)))

/-- `trbt_insertarray32_callback` -/
def insertArray32Callback {keylen : Nat} (tree : Pointee α (keylen + 1))
    (key : Fin (keylen + 1) → Key) (callback : Option α → Option α) : Pointee α (keylen + 1) :=
  Table.insert32Callback tree (key 0) (arrayInsertCallback callback keylen (Fin.tail key))

/-- `trbt_lookuparray32` -/
def lookupArray32 : {keylen : Nat} → Pointee α (keylen + 1) → (Fin (keylen + 1) → Key) → Option α
  | 0, tree, key => (Table.lookup32 tree (key 0)).join
  | _ + 1, tree, key =>
    match (Table.lookup32 tree (key 0)).join with
    | none => none
    | some tree => lookupArray32 tree (Fin.tail key)

/-- `trbt_traversearray32_node`, of which `visit` is what is done at a node. -/
def traverseNode {β γ : Type} (visit : β → List γ) : Node β → List γ
  | .leaf => []
  | .node _ left _ data right => traverseNode visit left ++ visit data ++ traverseNode visit right

/-- `trbt_traversearray32`: what the callback receives, call by call. -/
def traverseArray32 : (keylen : Nat) → Option (Pointee α (keylen + 1)) → List (Option α)
  | _, none => []
  | 0, some tree => traverseNode (fun data => [data]) (Table.root tree)
  | keylen + 1, some tree => traverseNode (traverseArray32 keylen) (Table.root tree)

/-- The node at which a walk to the left ends. -/
def leftmost {β : Type} : Node β → Option β
  | .leaf => none
  | .node _ .leaf _ data _ => some data
  | .node _ (.node color left key data right) _ _ _ => leftmost (.node color left key data right)

/-- `trbt_findfirstarray32` -/
def findFirstArray32 : (keylen : Nat) → Option (Pointee α keylen) → Option α
  | 0, _ => none
  | _ + 1, none => none
  | 1, some tree => (leftmost (Table.root tree)).join
  | keylen + 2, some tree =>
    match leftmost (Table.root tree) with
    | none => none
    | some data => findFirstArray32 (keylen + 1) data

/-- What is below a pointer, with its keys, in their order. -/
def entries : (keylen : Nat) → Option (Pointee α keylen) → List ((Fin keylen → Key) × Option α)
  | 0, data => [(Fin.elim0, data)]
  | _ + 1, none => []
  | keylen + 1, some tree => (Table.toList tree).flatMap fun entry =>
      (entries keylen entry.2).map (Prod.map (Fin.cons entry.1) id)

/-- The datum of a key, if the key is there. -/
def present : (keylen : Nat) → Option (Pointee α keylen) → (Fin keylen → Key) → Option (Option α)
  | 0, data, _ => some data
  | _ + 1, none, _ => none
  | keylen + 1, some tree, key =>
    (Table.lookup32 tree (key 0)).bind fun data => present keylen data (Fin.tail key)

theorem lookupArray32_eq {keylen : Nat} (tree : Pointee α (keylen + 1))
    (key : Fin (keylen + 1) → Key) :
    lookupArray32 tree key = (present (keylen + 1) (some tree) key).join := by
  induction keylen with
  | zero =>
    rw [lookupArray32, present]
    rcases Table.lookup32 tree (key 0) with _ | _ | datum <;> rfl
  | succ keylen ih =>
    rw [lookupArray32, present]
    rcases Table.lookup32 tree (key 0) with _ | _ | below
    · rfl
    · rfl
    · exact ih below (Fin.tail key)

theorem present_null {keylen : Nat} (key : Fin keylen → Key) :
    (present keylen (none : Option (Pointee α keylen)) key).join = none := by
  cases keylen <;> rfl

theorem present_insert {keylen : Nat} (callback : Option α → Option α) (key key' : Fin keylen → Key)
    (data : Option (Pointee α keylen)) :
    present keylen (arrayInsertCallback callback keylen key data) key' =
      if key' = key then some (callback (present keylen data key).join)
      else present keylen data key' := by
  induction keylen with
  | zero =>
    rw [if_pos (Subsingleton.elim key' key)]
    rfl
  | succ keylen ih =>
    -- A missing subtree has the keys of an empty one.
    have below : ∀ k : Fin (keylen + 1) → Key, present (keylen + 1) data k =
        (Table.lookup32 (data.getD Table.empty) (k 0)).bind fun d =>
          present keylen d (Fin.tail k) := by
      intro k
      cases data <;> rfl
    rw [below, below, arrayInsertCallback, present, Table.lookup32_insert32Callback]
    by_cases first : key' 0 = key 0
    · rw [if_pos first, Option.bind_some, ih]
      have same : key' = key ↔ Fin.tail key' = Fin.tail key := by
        constructor
        · rintro rfl
          rfl
        · intro rest
          rw [← Fin.cons_self_tail key', ← Fin.cons_self_tail key, first, rest]
      by_cases rest : Fin.tail key' = Fin.tail key
      · rw [if_pos rest, if_pos (same.mpr rest)]
        rcases Table.lookup32 (data.getD Table.empty) (key 0) with _ | old
        · exact congrArg (fun d => some (callback d)) (present_null _)
        · rfl
      · rw [if_neg rest, if_neg (mt same.mp rest), first]
        rcases Table.lookup32 (data.getD Table.empty) (key 0) with _ | old
        · cases keylen with
          | zero => exact absurd (Subsingleton.elim _ _) rest
          | succ keylen => rfl
        · rfl
    · rw [if_neg first, if_neg fun same => first (congrFun same 0)]

theorem mem_entries {keylen : Nat} {data : Option (Pointee α keylen)} {key : Fin keylen → Key}
    {datum : Option α} :
    (key, datum) ∈ entries keylen data ↔ present keylen data key = some datum := by
  induction keylen with
  | zero =>
    rw [entries, present, List.mem_singleton, Prod.mk.injEq, Option.some_inj]
    exact ⟨fun same => same.2.symm, fun same => ⟨Subsingleton.elim _ _, same.symm⟩⟩
  | succ keylen ih =>
    cases data with
    | none => exact ⟨nofun, nofun⟩
    | some tree =>
      rw [entries, present, List.mem_flatMap, Option.bind_eq_some_iff]
      constructor
      · rintro ⟨⟨first, data⟩, inTree, inside⟩
        obtain ⟨⟨rest, datum'⟩, inData, same⟩ := List.mem_map.mp inside
        cases same
        exact ⟨data, Table.mem_toList.mp inTree, ih.mp inData⟩
      · rintro ⟨data, found, below⟩
        refine ⟨(key 0, data), Table.mem_toList.mpr found, List.mem_map.mpr ?_⟩
        exact ⟨(Fin.tail key, datum), ih.mpr below, by rw [Prod.map, Fin.cons_self_tail]; rfl⟩

theorem mem_keys {keylen : Nat} {data : Option (Pointee α keylen)} {key : Fin keylen → Key} :
    key ∈ (entries keylen data).map Prod.fst ↔ (present keylen data key).isSome = true := by
  rw [List.mem_map, Option.isSome_iff_exists]
  constructor
  · rintro ⟨entry, inside, rfl⟩
    exact ⟨entry.2, mem_entries.mp inside⟩
  · rintro ⟨datum, found⟩
    exact ⟨(key, datum), mem_entries.mpr found, rfl⟩

theorem lookupArray32_entry {keylen : Nat} {tree : Pointee α (keylen + 1)}
    {entry : (Fin (keylen + 1) → Key) × Option α}
    (inside : entry ∈ entries (keylen + 1) (some tree)) :
    lookupArray32 tree entry.1 = entry.2 := by
  rw [lookupArray32_eq, mem_entries.mp inside]
  rfl

/-- The order of keys is that of their lists of parts. -/
theorem entries_ascending {keylen : Nat} (data : Option (Pointee α keylen)) :
    (entries keylen data).Pairwise fun a b => List.ofFn a.1 < List.ofFn b.1 := by
  induction keylen with
  | zero => exact List.pairwise_singleton _ _
  | succ keylen ih =>
    cases data with
    | none => exact List.Pairwise.nil
    | some tree =>
      rw [entries, List.pairwise_flatMap]
      constructor
      · rintro ⟨first, data⟩ -
        refine (ih data).map _ fun a b before => ?_
        simp only [Prod.map_fst, List.ofFn_succ, Fin.cons_zero, Fin.cons_succ]
        exact List.Lex.cons before
      · refine (Table.ordered tree).imp fun {a b} before x inA y inB => ?_
        obtain ⟨x', _, rfl⟩ := List.mem_map.mp inA
        obtain ⟨y', _, rfl⟩ := List.mem_map.mp inB
        simp only [Prod.map_fst, List.ofFn_succ, Fin.cons_zero]
        exact List.Lex.rel before

theorem traverseNode_eq {β γ : Type} (visit : β → List γ) (t : Node β) :
    traverseNode visit t = t.toList.flatMap fun entry => visit entry.2 := by
  induction t with
  | leaf => rfl
  | node color left key data right leftIh rightIh =>
    rw [traverseNode, leftIh, rightIh, Node.toList, List.flatMap_append, List.flatMap_cons,
      List.append_assoc]

theorem traverseArray32_eq {keylen : Nat} (data : Option (Pointee α (keylen + 1))) :
    traverseArray32 keylen data = (entries (keylen + 1) data).map Prod.snd := by
  induction keylen with
  | zero =>
    cases data with
    | none => rfl
    | some tree =>
      rw [traverseArray32, traverseNode_eq, entries, List.map_flatMap]
      rfl
  | succ keylen ih =>
    cases data with
    | none => rfl
    | some tree =>
      rw [traverseArray32, traverseNode_eq, entries, List.map_flatMap]
      refine List.flatMap_congr fun entry _ => ?_
      rw [ih, List.map_map]
      rfl

theorem leftmost_eq {β : Type} (t : Node β) : leftmost t = t.toList.head?.map Prod.snd := by
  induction t with
  | leaf => rfl
  | node color left key data right leftIh _ =>
    cases left with
    | leaf => rfl
    | node color' left' key' data' right' =>
      have some : (Node.node color' left' key' data' right').toList ≠ [] :=
        List.append_ne_nil_of_right_ne_nil _ (List.cons_ne_nil _ _)
      rw [leftmost, leftIh]
      exact congrArg (Option.map Prod.snd) (List.head?_append_of_ne_nil _ some).symm

/-- A subtree that a pointer leads to has a node, and so has every one below it. -/
def Stocked : (keylen : Nat) → Option (Pointee α keylen) → Prop
  | 0, _ => True
  | _ + 1, none => False
  | keylen + 1, some tree =>
    Table.toList tree ≠ [] ∧ ∀ entry ∈ Table.toList tree, Stocked keylen entry.2

/-- An insertion that leaves a subtree stocked leaves all of them so. -/
theorem stocked_entries {keylen : Nat} {tree : Table (Option (Pointee α keylen))} (key : Key)
    {callback : Option (Pointee α keylen) → Option (Pointee α keylen)}
    (keeps : ∀ data, (∀ below, data = some below → Stocked keylen data) →
      Stocked keylen (callback data))
    (old : ∀ entry ∈ tree.toList, Stocked keylen entry.2) :
    ∀ entry ∈ (tree.insert32Callback key callback).toList, Stocked keylen entry.2 := by
  rintro ⟨first, data⟩ inside
  rw [Table.mem_toList, Table.lookup32_insert32Callback] at inside
  by_cases same : first = key
  · rw [if_pos same, Option.some_inj] at inside
    subst inside
    refine keeps _ fun below found => ?_
    rw [found]
    exact old (key, some below) (Table.mem_toList.mpr (Option.join_eq_some_iff.mp found))
  · rw [if_neg same] at inside
    exact old (first, data) (Table.mem_toList.mpr inside)

theorem stocked_insert {keylen : Nat} (callback : Option α → Option α) (key : Fin keylen → Key)
    {data : Option (Pointee α keylen)} (stocked : ∀ tree, data = some tree → Stocked keylen data) :
    Stocked keylen (arrayInsertCallback callback keylen key data) := by
  induction keylen with
  | zero => trivial
  | succ keylen ih =>
    rw [arrayInsertCallback, Stocked]
    have old : ∀ entry ∈ Table.toList (data.getD Table.empty), Stocked keylen entry.2 := by
      cases data with
      | none => exact fun _ none => absurd none List.not_mem_nil
      | some tree => exact (stocked tree rfl).2
    constructor
    · have inserted := Table.lookup32_insert32Callback (data.getD Table.empty) (key 0) (key 0)
        (arrayInsertCallback callback keylen (Fin.tail key))
      rw [if_pos rfl] at inserted
      exact List.ne_nil_of_mem (Table.mem_toList.mpr inserted)
    · exact stocked_entries (key 0) (fun _ => ih (Fin.tail key)) old

theorem entries_ne_nil {keylen : Nat} {data : Option (Pointee α keylen)}
    (stocked : Stocked keylen data) : entries keylen data ≠ [] := by
  induction keylen with
  | zero => exact List.cons_ne_nil _ _
  | succ keylen ih =>
    cases data with
    | none => cases stocked
    | some tree =>
      obtain ⟨entry, inside⟩ := List.exists_mem_of_ne_nil _ stocked.1
      rw [entries, Ne, List.flatMap_eq_nil_iff]
      exact fun none => ih (stocked.2 entry inside) (List.map_eq_nil_iff.mp (none entry inside))

theorem findFirstArray32_eq {keylen : Nat} {tree : Pointee α (keylen + 1)}
    (stocked : ∀ entry ∈ Table.toList tree, Stocked keylen entry.2) :
    findFirstArray32 (keylen + 1) (some tree) =
      (entries (keylen + 1) (some tree)).head?.bind Prod.snd := by
  induction keylen with
  | zero =>
    rw [findFirstArray32, leftmost_eq, entries]
    change ((Table.toList tree).head?.map Prod.snd).join = _
    cases Table.toList tree <;> rfl
  | succ keylen ih =>
    rw [findFirstArray32, leftmost_eq, entries]
    change (match (Table.toList tree).head?.map Prod.snd with
      | none => none
      | some data => findFirstArray32 (keylen + 1) data) = _
    cases list : Table.toList tree with
    | nil => rfl
    | cons entry others =>
      have below := stocked entry (list ▸ List.mem_cons_self)
      obtain ⟨first, _ | data⟩ := entry
      · cases below
      · rw [List.flatMap_cons, List.head?_append_of_ne_nil _
          (mt List.map_eq_nil_iff.mp (entries_ne_nil below)), List.head?_map]
        change findFirstArray32 (keylen + 1) (some data) = _
        rw [ih below.2]
        cases (entries (keylen + 1) (some data)).head? <;> rfl

/-- Insertions one after another. -/
def insertAllArray32 {keylen : Nat} (tree : Pointee α (keylen + 1))
    (calls : List ((Fin (keylen + 1) → Key) × (Option α → Option α))) : Pointee α (keylen + 1) :=
  calls.foldl (fun tree call => insertArray32Callback tree call.1 call.2) tree

section Calls
variable {keylen : Nat} (calls : List ((Fin (keylen + 1) → Key) × (Option α → Option α)))

theorem lookupArray32_insert (tree : Pointee α (keylen + 1)) (key : Fin (keylen + 1) → Key)
    (callback : Option α → Option α) :
    lookupArray32 (insertArray32Callback tree key callback) =
      Function.update (lookupArray32 tree) key (callback (lookupArray32 tree key)) := by
  funext key'
  have inserted := present_insert callback key key' (some tree)
  rw [lookupArray32_eq, lookupArray32_eq, Function.update_apply, lookupArray32_eq]
  change (present (keylen + 1)
    (arrayInsertCallback callback (keylen + 1) key (some tree)) key').join = _
  rw [inserted]
  split <;> rfl

theorem present_insertAll (tree : Pointee α (keylen + 1)) (key : Fin (keylen + 1) → Key) :
    (present (keylen + 1) (some (insertAllArray32 tree calls)) key).isSome = true ↔
      key ∈ calls.map Prod.fst ∨ (present (keylen + 1) (some tree) key).isSome = true := by
  induction calls generalizing tree with
  | nil => simp [insertAllArray32]
  | cons call calls ih =>
    have inserted := present_insert call.2 call.1 key (some tree)
    rw [insertAllArray32, List.foldl_cons, ← insertAllArray32, ih, List.map_cons, List.mem_cons]
    change _ ∨ (present (keylen + 1)
      (arrayInsertCallback call.2 (keylen + 1) call.1 (some tree)) key).isSome = true ↔ _
    rw [inserted]
    by_cases same : key = call.1 <;> simp [same]

theorem stocked_insertAll (tree : Pointee α (keylen + 1))
    (stocked : ∀ entry ∈ Table.toList tree, Stocked keylen entry.2) :
    ∀ entry ∈ Table.toList (insertAllArray32 tree calls), Stocked keylen entry.2 := by
  induction calls generalizing tree with
  | nil => exact stocked
  | cons call calls ih =>
    exact ih (insertArray32Callback tree call.1 call.2)
      (stocked_entries (call.1 0) (fun _ => stocked_insert call.2 (Fin.tail call.1)) stocked)

/-- A tree with array keys is a function from keys to data. -/
theorem array_lookups :
    lookupArray32 (insertAllArray32 Table.empty calls) =
      calls.foldl (fun F call => Function.update F call.1 (call.2 (F call.1))) fun _ => none := by
  have start : lookupArray32 (Table.empty : Pointee α (keylen + 1)) = fun _ => none := by
    funext key
    rw [lookupArray32_eq]
    rfl
  rw [← start]
  generalize (Table.empty : Table (Option (Pointee α keylen))) = tree
  induction calls generalizing tree with
  | nil => rfl
  | cons call calls ih =>
    rw [insertAllArray32, List.foldl_cons, ← insertAllArray32, ih, lookupArray32_insert,
      List.foldl_cons]

theorem keys_insertAll (key : Fin (keylen + 1) → Key) :
    key ∈ (entries (keylen + 1) (some (insertAllArray32 Table.empty calls))).map Prod.fst ↔
      key ∈ calls.map Prod.fst := by
  have none : ¬ (present (keylen + 1) (some (Table.empty : Pointee α (keylen + 1))) key).isSome =
      true := Bool.false_ne_true
  exact mem_keys.trans ((present_insertAll calls Table.empty key).trans (or_iff_left none))

/-- The callback is called once for each key, in the order of the keys. -/
theorem array_traversed :
    ∃ keys : List (Fin (keylen + 1) → Key),
      (keys.Pairwise fun a b => List.ofFn a < List.ofFn b) ∧
      (∀ key, key ∈ keys ↔ key ∈ calls.map Prod.fst) ∧
      traverseArray32 keylen (some (insertAllArray32 Table.empty calls)) =
        keys.map (lookupArray32 (insertAllArray32 Table.empty calls)) := by
  refine ⟨(entries (keylen + 1) (some (insertAllArray32 Table.empty calls))).map Prod.fst,
    List.pairwise_map.mpr (entries_ascending _), keys_insertAll calls, ?_⟩
  rw [traverseArray32_eq, List.map_map]
  exact List.map_congr_left fun entry inside => (lookupArray32_entry inside).symm

/-- The first node is that of the least key. The way down to it never ends in a subtree
without nodes: below the root there is none. -/
theorem array_first :
    (calls = [] →
      findFirstArray32 (keylen + 1) (some (insertAllArray32 Table.empty calls)) = none) ∧
      (∀ key ∈ calls.map Prod.fst,
        (∀ other ∈ calls.map Prod.fst, ¬ List.ofFn other < List.ofFn key) →
        findFirstArray32 (keylen + 1) (some (insertAllArray32 Table.empty calls)) =
          lookupArray32 (insertAllArray32 Table.empty calls) key) ∧
      ∀ entry ∈ Table.toList (insertAllArray32 Table.empty calls), Stocked keylen entry.2 := by
  have stocked := stocked_insertAll calls Table.empty
    fun _ none => absurd none List.not_mem_nil
  refine ⟨?_, ?_, stocked⟩
  · rintro rfl
    cases keylen <;> rfl
  · intro key inserted least
    have keys := keys_insertAll calls
    rw [findFirstArray32_eq stocked]
    generalize insertAllArray32 Table.empty calls = tree at *
    have ascending := entries_ascending (some tree)
    have datum : ∀ entry ∈ entries (keylen + 1) (some tree), entry.2 = lookupArray32 tree entry.1 :=
      fun _ inside => (lookupArray32_entry inside).symm
    have inside := (keys key).mpr inserted
    cases list : entries (keylen + 1) (some tree) with
    | nil =>
      rw [list] at inside
      cases inside
    | cons entry others =>
      rw [list] at keys ascending datum inside
      have first : entry.1 = key := by
        rw [List.map_cons, List.mem_cons] at inside
        rcases inside with here | later
        · exact here.symm
        · obtain ⟨other, there, rfl⟩ := List.mem_map.mp later
          exact absurd ((List.pairwise_cons.mp ascending).1 other there)
            (least entry.1 ((keys entry.1).mp List.mem_cons_self))
      rw [List.head?_cons, Option.bind_some, datum entry List.mem_cons_self, first]

end Calls

end Phat
