import Mathlib.Data.List.Range
import Mathlib.Logic.Relation
import Mathlib.Tactic.SplitIfs
import Phat.TallocLists

/-! The hierarchy of chunks through every sequence of calls. -/
namespace Phat.Talloc

/-- The hierarchy a heap holds: `above` says what each chunk is a child of, and `kids` lists the
children in order. The pointers of the chunks `held` are not yet assigned. -/
structure Hangs (m : Heap) (above : ChunkRef → Option ChunkRef) (kids : ChunkRef → List ChunkRef)
    (held : ChunkRef → Prop) : Prop where
  row : ∀ p < m.count, Row m (some p) none (m.child p) (kids p)
  mem : ∀ p a, a ∈ kids p ↔ above a = some p
  made : ∀ a p, above a = some p → a < m.count ∧ p < m.count
  loose : ∀ a < m.count, ¬ held a → above a = none →
    m.next a = none ∧ m.prev a = none ∧ m.parent a = none

section Hangs
variable {m m' : Heap} {above : ChunkRef → Option ChunkRef} {kids : ChunkRef → List ChunkRef}
  {held : ChunkRef → Prop} {tc q : ChunkRef}

theorem Hangs.nodup (hangs : Hangs m above kids held) (p : ChunkRef) : (kids p).Nodup := by
  by_cases made : p < m.count
  · exact (hangs.row p made).linked.nodup
  · have empty : kids p = [] := List.eq_nil_iff_forall_not_mem.mpr fun a member =>
      made (hangs.made a p ((hangs.mem p a).mp member)).2
    rw [empty]
    exact List.nodup_nil

/-- A chunk that is in no list becomes the first child of another. -/
theorem Hangs.push (hangs : Hangs m above kids held) (free : above tc = none)
    (only : ∀ a, held a → a = tc) (madeTc : tc < m.count) (madeQ : q < m.count)
    (pushed : Pushed m m' q tc) (count : m'.count = m.count) :
    Hangs m' (Function.update above tc (some q)) (Function.update kids q (tc :: kids q))
      fun _ => False := by
  have outside : ∀ p, tc ∉ kids p := by
    intro p member
    rw [hangs.mem, free] at member
    cases member
  have first : ∀ a, m.child q = some a → above a = some q := fun a here =>
    (hangs.mem q a).mp ((hangs.row q madeQ).start_mem here)
  constructor
  · intro p made
    rw [count] at made
    by_cases here : p = q
    · subst here
      rw [Function.update_self]
      exact (hangs.row p made).push pushed (outside p)
    · rw [Function.update_of_ne here]
      refine pushed.row (hangs.row p made) here (outside p) fun a member start => here ?_
      rw [hangs.mem, first a start] at member
      exact (Option.some.inj member).symm
  · intro p a
    rw [Function.update_apply, Function.update_apply]
    by_cases new : a = tc
    · subst new
      by_cases here : p = q
      · subst here
        simp
      · simp [here, outside p, Ne.symm here]
    · by_cases here : p = q
      · subst here
        simp [new, hangs.mem]
      · simp [new, here, hangs.mem]
  · intro a p
    rw [Function.update_apply, count]
    by_cases new : a = tc
    · subst new
      rw [if_pos rfl]
      intro same
      cases same
      exact ⟨madeTc, madeQ⟩
    · rw [if_neg new]
      exact hangs.made a p
  · intro a made _
    rw [Function.update_apply]
    by_cases new : a = tc
    · rw [if_pos new]
      intro none
      cases none
    · rw [if_neg new]
      intro none
      have old := hangs.loose a (count ▸ made) (fun is => new (only a is)) none
      have notFirst : m.child q ≠ some a := by
        intro start
        rw [first a start] at none
        cases none
      rw [pushed.next, pushed.prev, pushed.parent, Function.update_of_ne new, if_neg new,
        if_neg notFirst, if_neg new, if_neg notFirst]
      exact old

/-- A chunk that is in no list becomes one without a parent. -/
theorem Hangs.drop (hangs : Hangs m above kids held) (free : above tc = none)
    (only : ∀ a, held a → a = tc) :
    Hangs (((m.setPrev tc none).setNext tc none).setParent tc none) above kids fun _ => False := by
  refine ⟨fun p made => (hangs.row p made).congr fun a member => ?_, hangs.mem, hangs.made, ?_⟩
  · have ne : a ≠ tc := by
      rintro rfl
      rw [hangs.mem, free] at member
      cases member
    exact ⟨Function.update_of_ne ne .., Function.update_of_ne ne .., Function.update_of_ne ne ..⟩
  · intro a made _ none
    by_cases here : a = tc
    · subst here
      exact ⟨Function.update_self .., Function.update_self .., Function.update_self ..⟩
    · obtain ⟨next, prev, parent⟩ := hangs.loose a made (fun is => here (only a is)) none
      exact ⟨(Function.update_of_ne here ..).trans next, (Function.update_of_ne here ..).trans prev,
        (Function.update_of_ne here ..).trans parent⟩

/-- `unlink` takes a chunk out of the hierarchy, with everything under it. -/
theorem Hangs.unlink (hangs : Hangs m above kids fun _ => False) (made : tc < m.count) :
    ∃ kids', Hangs (m.unlink tc) (Function.update above tc none) kids' (· = tc) ∧
      (m.unlink tc).count = m.count := by
  cases up : above tc with
  | none =>
    obtain ⟨next, prev, parent⟩ := hangs.loose tc made id up
    have same : m.unlink tc = m := by simp [Heap.unlink, parent, Heap.bypass, prev, next]
    rw [same, ← up, Function.update_eq_self]
    exact ⟨kids, ⟨hangs.row, hangs.mem, hangs.made, fun a made _ => hangs.loose a made id⟩, rfl⟩
  | some p =>
    obtain ⟨before, after, split⟩ := List.append_of_mem ((hangs.mem p tc).mpr up)
    have distinct := hangs.nodup p
    have inside := hangs.mem p
    have row := hangs.row p (hangs.made tc p up).2
    rw [split] at row distinct inside
    obtain ⟨row', unlinked⟩ := row.unlink
    generalize m.unlink tc = m' at *
    have gone : tc ∉ before ++ after :=
      (List.nodup_cons.mp (List.nodup_middle.mp distinct)).1
    refine ⟨Function.update kids p (before ++ after), ⟨?_, ?_, ?_, ?_⟩, unlinked.count⟩
    · intro r made
      by_cases here : r = p
      · subst here
        rw [Function.update_self]
        exact row'
      · rw [Function.update_of_ne here, unlinked.child r here]
        refine (hangs.row r (unlinked.count ▸ made)).congr fun a member => ?_
        have away : a ∉ before ++ tc :: after := by
          rw [inside, (hangs.mem r a).mp member]
          exact fun same => here (Option.some.inj same)
        exact ⟨unlinked.next a away, unlinked.prev a away, unlinked.parent a away⟩
    · intro r a
      rw [Function.update_apply, Function.update_apply]
      by_cases old : a = tc
      · subst old
        by_cases here : r = p
        · simp only [here, if_true, gone, reduceCtorEq]
        · simp [here, hangs.mem, up, Ne.symm here]
      · by_cases here : r = p
        · subst here
          rw [if_pos rfl, if_neg old, ← inside]
          simp [old]
        · rw [if_neg here, if_neg old]
          exact hangs.mem r a
    · intro a r
      rw [Function.update_apply, unlinked.count]
      split
      · intro none
        cases none
      · exact hangs.made a r
    · intro a made other none
      rw [Function.update_of_ne other] at none
      have away : a ∉ before ++ tc :: after := by
        rw [inside, none]
        intro same
        cases same
      rw [unlinked.next a away, unlinked.prev a away, unlinked.parent a away]
      exact hangs.loose a (unlinked.count ▸ made) id none

/-- A chunk that points to a parent is its child. -/
theorem Hangs.above_of_parent (hangs : Hangs m above kids fun _ => False) (made : tc < m.count)
    (parent : m.parent tc = some q) : above tc = some q := by
  cases up : above tc with
  | none =>
    rw [(hangs.loose tc made id up).2.2] at parent
    cases parent
  | some p =>
    obtain ⟨before, after, split⟩ := List.append_of_mem ((hangs.mem p tc).mpr up)
    have row := hangs.row p (hangs.made tc p up).2
    rw [split] at row
    cases before using List.reverseRecOn with
    | nil => exact row.2.1.symm.trans parent
    | append_singleton before b =>
      rw [List.append_assoc, List.singleton_append] at row
      rw [row.inner.2.1] at parent
      cases parent

/-- A chunk stolen for itself stays. -/
theorem Hangs.stealChunk (hangs : Hangs m above kids fun _ => False) (made : tc < m.count)
    {newCtx : Option ChunkRef} (madeNew : ∀ p, newCtx = some p → p < m.count) :
    ∃ kids', Hangs (m.stealChunk newCtx tc)
        (if newCtx = some tc then above else Function.update above tc newCtx) kids'
        (fun _ => False) ∧
      (m.stealChunk newCtx tc).count = m.count := by
  obtain ⟨kids₁, unlinked, count⟩ := hangs.unlink made
  have free : Function.update above tc none tc = none := Function.update_self ..
  cases newCtx with
  | none =>
    exact ⟨kids₁, unlinked.drop free fun _ => id, count⟩
  | some q =>
    by_cases same : q = tc
    · subst same
      rw [if_pos rfl, Heap.stealChunk, if_pos (.inl rfl)]
      exact ⟨kids, hangs, rfl⟩
    · rw [if_neg fun h => same (Option.some.inj h)]
      by_cases already : m.parent tc = some q
      · have under := hangs.above_of_parent made already
        rw [Heap.stealChunk, if_pos (.inr already), ← under, Function.update_eq_self]
        exact ⟨kids, hangs, rfl⟩
      · have stolen : m.stealChunk (some q) tc = (m.unlink tc).reattach q tc := by
          rw [Heap.stealChunk, if_neg (not_or.mpr ⟨Ne.symm same, already⟩)]
        have madeQ : q < (m.unlink tc).count := count ▸ madeNew q rfl
        have apart : (m.unlink tc).child q ≠ some tc := by
          intro start
          have member := (unlinked.mem q tc).mp ((unlinked.row q madeQ).start_mem start)
          rw [free] at member
          cases member
        have counted : ((m.unlink tc).reattach q tc).count = (m.unlink tc).count :=
          Heap.count_reattach ..
        have pushed := unlinked.push free (fun _ => id) (count ▸ made) madeQ
          (reattach_pushed apart) counted
        rw [Function.update_idem] at pushed
        rw [stolen]
        exact ⟨_, pushed, counted.trans count⟩

/-- `__talloc` -/
theorem Hangs.talloc (hangs : Hangs m above kids fun _ => False) (size : Nat)
    {context : Option ChunkRef} (made : ∀ p, context = some p → p < m.count) :
    ∃ kids', Hangs { m.initTalloc context m.count size with count := m.count + 1 }
      (Function.update above m.count context) kids' fun _ => False := by
  have unmade : above m.count = none := by
    by_contra some
    obtain ⟨p, up⟩ := Option.ne_none_iff_exists'.mp some
    exact lt_irrefl _ (hangs.made _ p up).1
  -- The chunk has memory, and no child.
  let fresh : Heap :=
    { ({ m with size := Function.update m.size m.count size } : Heap).setChild m.count none with
      count := m.count + 1 }
  have held : Hangs fresh above kids (· = m.count) := by
    refine ⟨fun p below => ?_, hangs.mem, fun a p up => ?_, fun a below other none => ?_⟩
    · by_cases new : p = m.count
      · subst new
        have empty : kids m.count = [] := List.eq_nil_iff_forall_not_mem.mpr fun a member =>
          lt_irrefl _ (hangs.made a _ ((hangs.mem _ a).mp member)).2
        rw [empty]
        exact Function.update_self ..
      · have child : fresh.child p = m.child p := Function.update_of_ne new ..
        rw [child]
        have below' : p < m.count := lt_of_le_of_ne (Nat.lt_succ_iff.mp below) new
        exact (hangs.row p below').congr fun _ _ => ⟨rfl, rfl, rfl⟩
    · obtain ⟨a_made, p_made⟩ := hangs.made a p up
      exact ⟨Nat.lt_succ_of_lt a_made, Nat.lt_succ_of_lt p_made⟩
    · exact hangs.loose a (lt_of_le_of_ne (Nat.lt_succ_iff.mp below) other) id none
  cases context with
  | none =>
    have dropped := held.drop unmade fun _ => id
    rw [Function.update_eq_self_iff.mpr unmade.symm]
    exact ⟨kids, dropped⟩
  | some q =>
    have madeQ := made q rfl
    have apart : m.child q ≠ some m.count := by
      intro start
      have member := (hangs.mem q m.count).mp ((hangs.row q madeQ).start_mem start)
      rw [unmade] at member
      cases member
    have pushed := initTalloc_pushed size apart madeQ.ne
    exact ⟨_, held.push unmade (fun _ => id) (Nat.lt_succ_self _) (Nat.lt_succ_of_lt madeQ)
      ⟨pushed.next, pushed.prev, pushed.parent, pushed.child⟩ rfl⟩

/-- `talloc_parent_chunk` -/
theorem Hangs.parentChunk (hangs : Hangs m above kids fun _ => False) (made : tc < m.count)
    {fuel : Nat} (enough : m.count < fuel) : m.parentChunk fuel (some tc) = some (above tc) := by
  obtain ⟨fuel, rfl⟩ : ∃ f, fuel = f + 1 := Nat.exists_eq_add_one.mpr (by omega)
  cases up : above tc with
  | none =>
    obtain ⟨_, prev, parent⟩ := hangs.loose tc made id up
    simp [Heap.parentChunk, Heap.firstOf, prev, parent]
  | some p =>
    obtain ⟨before, after, split⟩ := List.append_of_mem ((hangs.mem p tc).mpr up)
    have row := hangs.row p (hangs.made tc p up).2
    have few : (kids p).length ≤ m.count := by
      have below : kids p ⊆ List.range m.count := fun a member =>
        List.mem_range.mpr (hangs.made a p ((hangs.mem p a).mp member)).1
      have length := (List.subperm_of_subset (hangs.nodup p) below).length_le
      rwa [List.length_range] at length
    rw [split, List.length_append, List.length_cons] at few
    rw [split] at row
    have walked := row.firstOf (show before.length < fuel + 1 by omega)
    have start : ∃ first, m.child p = some first := by
      cases before with
      | nil => exact ⟨_, row.1⟩
      | cons first before => exact ⟨_, row.1⟩
    obtain ⟨first, start⟩ := start
    rw [Heap.parentChunk, walked, start, Option.map_some, row.first_parent start]

end Hangs

/-- The calls of a program. -/
inductive Command where
  | talloc (context : Option ChunkRef) (size : Nat)
  | steal (newCtx ptr : Option ChunkRef)
  | parent (ptr : Option ChunkRef)

/-- What each chunk is a child of. -/
structure Hierarchy where
  count : Nat
  above : ChunkRef → Option ChunkRef

namespace Command

def exec (fuel : Nat) (m : Heap) : Command → Option (Option ChunkRef × Heap)
  | talloc context size => some (m.talloc context size)
  | steal newCtx ptr => some (m.steal newCtx ptr)
  | parent ptr => (m.parentChunk fuel ptr).map fun parent => (parent, m)

/-- The pointers passed are NULL or point to chunks. -/
def Legal (count : Nat) : Command → Prop
  | talloc context _ => ∀ p, context = some p → p < count
  | steal newCtx ptr => (∀ tc, ptr = some tc → tc < count) ∧ ∀ p, newCtx = some p → p < count
  | parent ptr => ∀ tc, ptr = some tc → tc < count

end Command

namespace Hierarchy

def step (H : Hierarchy) : Command → Hierarchy
  | .talloc context size =>
    if maxTallocSize ≤ size then H else ⟨H.count + 1, Function.update H.above H.count context⟩
  | .steal _ none => H
  | .steal newCtx (some tc) =>
    if newCtx = some tc then H else ⟨H.count, Function.update H.above tc newCtx⟩
  | .parent _ => H

def output (H : Hierarchy) : Command → Option ChunkRef
  | .talloc _ size => if maxTallocSize ≤ size then none else some H.count
  | .steal _ ptr => ptr
  | .parent ptr => ptr.bind H.above

def run (H : Hierarchy) (commands : List Command) : Hierarchy := commands.foldl step H

def outputs (H : Hierarchy) : List Command → List (Option ChunkRef)
  | [] => []
  | command :: commands => H.output command :: (H.step command).outputs commands

def LegalRun (H : Hierarchy) : List Command → Prop
  | [] => True
  | command :: commands => command.Legal H.count ∧ (H.step command).LegalRun commands

end Hierarchy

def run (fuel : Nat) (m : Heap) : List Command → Option (List (Option ChunkRef) × Heap)
  | [] => some ([], m)
  | command :: commands => do
    let (out, m) ← command.exec fuel m
    let (outs, m) ← run fuel m commands
    some (out :: outs, m)

/-- A heap holds a hierarchy. -/
def Holds (m : Heap) (H : Hierarchy) (kids : ChunkRef → List ChunkRef) : Prop :=
  m.count = H.count ∧ Hangs m H.above kids fun _ => False

section Runs
variable {m : Heap} {H : Hierarchy} {kids : ChunkRef → List ChunkRef} {fuel : Nat}
  {commands : List Command}

theorem Holds.exec (holds : Holds m H kids) {command : Command} (legal : command.Legal H.count)
    (enough : H.count < fuel) :
    ∃ m' kids', command.exec fuel m = some (H.output command, m') ∧
      Holds m' (H.step command) kids' := by
  obtain ⟨count, hangs⟩ := holds
  cases command with
  | talloc context size =>
    rw [Command.exec, Heap.talloc, Hierarchy.output, Hierarchy.step]
    by_cases large : maxTallocSize ≤ size
    · rw [if_pos large, if_pos large, if_pos large]
      exact ⟨m, kids, rfl, count, hangs⟩
    · rw [if_neg large, if_neg large, if_neg large, ← count]
      obtain ⟨kids', hangs'⟩ := hangs.talloc size (count ▸ legal)
      exact ⟨_, kids', rfl, rfl, hangs'⟩
  | steal newCtx ptr =>
    obtain ⟨made, madeNew⟩ := legal
    cases ptr with
    | none => exact ⟨m, kids, rfl, count, hangs⟩
    | some tc =>
      obtain ⟨kids', hangs', count'⟩ := hangs.stealChunk (count ▸ made tc rfl) (count ▸ madeNew)
      refine ⟨m.stealChunk newCtx tc, kids', rfl, ?_⟩
      rw [Hierarchy.step]
      split at hangs'
      · rename_i same
        rw [if_pos same]
        exact ⟨count'.trans count, hangs'⟩
      · rename_i other
        rw [if_neg other]
        exact ⟨count'.trans count, hangs'⟩
  | parent ptr =>
    refine ⟨m, kids, ?_, count, hangs⟩
    cases ptr with
    | none => rfl
    | some tc =>
      rw [Command.exec, hangs.parentChunk (count ▸ legal tc rfl) (count ▸ enough)]
      rfl

theorem Hierarchy.count_step_le (H : Hierarchy) (command : Command) :
    (H.step command).count ≤ H.count + 1 := by
  cases command with
  | talloc context size =>
    rw [Hierarchy.step]
    split
    · exact Nat.le_succ _
    · exact le_rfl
  | steal newCtx ptr =>
    cases ptr with
    | none => exact Nat.le_succ _
    | some tc =>
      rw [Hierarchy.step]
      split
      · exact Nat.le_succ _
      · exact Nat.le_succ _
  | parent ptr => exact Nat.le_succ _

theorem Holds.run (holds : Holds m H kids) (legal : H.LegalRun commands)
    (enough : H.count + commands.length < fuel) :
    ∃ m' kids', Talloc.run fuel m commands = some (H.outputs commands, m') ∧
      Holds m' (H.run commands) kids' := by
  induction commands generalizing m H kids with
  | nil => exact ⟨m, kids, rfl, holds⟩
  | cons command commands ih =>
    rw [List.length_cons] at enough
    have more := H.count_step_le command
    obtain ⟨m₁, kids₁, done, holds₁⟩ := holds.exec legal.1 (show H.count < fuel by omega)
    obtain ⟨m', kids', done', holds'⟩ := ih holds₁ legal.2 (by omega)
    refine ⟨m', kids', ?_, holds'⟩
    rw [Talloc.run, done]
    simp only [Option.bind_eq_bind, Option.bind_some, done']
    rfl

theorem Hierarchy.count_run_le (H : Hierarchy) (commands : List Command) :
    (H.run commands).count ≤ H.count + commands.length := by
  induction commands generalizing H with
  | nil => exact le_rfl
  | cons command commands ih =>
    have step := H.count_step_le command
    have rest := ih (H.step command)
    rw [Hierarchy.run, List.foldl_cons, ← Hierarchy.run, List.length_cons]
    omega

theorem holds_nothing (unmade : m.count = 0) : Holds m ⟨0, fun _ => none⟩ fun _ => [] := by
  refine ⟨unmade, fun p made => ?_, fun p a => ?_, fun a p none => ?_, fun a made => ?_⟩
  · omega
  · simp
  · cases none
  · omega

/-- `talloc_parent` returns what a chunk was last put under, and the children of a chunk are listed
once each, after every sequence of calls. -/
theorem talloc_runs (unmade : m.count = 0) (legal : Hierarchy.LegalRun ⟨0, fun _ => none⟩ commands)
    (enough : commands.length < fuel) :
    ∃ m', run fuel m commands = some (Hierarchy.outputs ⟨0, fun _ => none⟩ commands, m') ∧
      m'.count = (Hierarchy.run ⟨0, fun _ => none⟩ commands).count ∧
      ∀ p < m'.count, ∃ kids, Links.Linked m'.next (m'.child p) kids ∧ kids.Nodup ∧
        ∀ a, a ∈ kids ↔ (Hierarchy.run ⟨0, fun _ => none⟩ commands).above a = some p := by
  obtain ⟨m', kids, done, count, hangs⟩ :=
    (holds_nothing unmade).run legal (by simpa using enough)
  exact ⟨m', done, count, fun p made =>
    ⟨kids p, (hangs.row p made).linked, hangs.nodup p, hangs.mem p⟩⟩

/-- From a context to its parent. -/
def Hierarchy.Up (H : Hierarchy) (a p : ChunkRef) : Prop := H.above a = some p

theorem Holds.isParent_step (holds : Holds m H kids) (enough : H.count < fuel) {tc ptr : ChunkRef}
    (made : tc < H.count) (other : tc ≠ ptr) (steps : Nat) :
    m.isParent fuel ptr (steps + 1) (some tc) = m.isParent fuel ptr steps (H.above tc) := by
  rw [Heap.isParent, if_neg other,
    holds.2.parentChunk (holds.1.symm ▸ made) (holds.1.symm ▸ enough), Option.bind_some]

theorem Holds.isParent_true (holds : Holds m H kids) (enough : H.count < fuel) {tc ptr : ChunkRef}
    (made : tc < H.count) :
    (∃ steps, m.isParent fuel ptr steps (some tc) = some true) ↔
      Relation.ReflTransGen H.Up tc ptr := by
  constructor
  · rintro ⟨steps, done⟩
    induction steps generalizing tc with
    | zero => cases done
    | succ steps ih =>
      by_cases here : tc = ptr
      · exact here ▸ .refl
      · rw [holds.isParent_step enough made here] at done
        cases up : H.above tc with
        | none =>
          rw [up] at done
          cases steps <;> cases done
        | some p =>
          rw [up] at done
          exact .head up (ih (holds.1 ▸ (holds.2.made tc p up).2) done)
  · intro above
    induction above using Relation.ReflTransGen.head_induction_on with
    | refl => exact ⟨1, by rw [Heap.isParent, if_pos rfl]⟩
    | @head tc p up _ ih =>
      obtain ⟨steps, done⟩ := ih (holds.1 ▸ (holds.2.made tc p up).2)
      by_cases here : tc = ptr
      · exact ⟨1, by rw [Heap.isParent, if_pos here]⟩
      · refine ⟨steps + 1, ?_⟩
        rw [holds.isParent_step enough made here, show H.above tc = some p from up, done]

theorem Holds.isParent_false (holds : Holds m H kids) (enough : H.count < fuel) {tc ptr : ChunkRef}
    (made : tc < H.count) :
    (∃ steps, m.isParent fuel ptr steps (some tc) = some false) ↔
      ¬ Relation.ReflTransGen H.Up tc ptr ∧
        ∃ top, Relation.ReflTransGen H.Up tc top ∧ H.above top = none := by
  constructor
  · rintro ⟨steps, done⟩
    induction steps generalizing tc with
    | zero => cases done
    | succ steps ih =>
      by_cases here : tc = ptr
      · rw [Heap.isParent, if_pos here] at done
        cases done
      · rw [holds.isParent_step enough made here] at done
        cases up : H.above tc with
        | none =>
          refine ⟨fun above => ?_, tc, .refl, up⟩
          obtain same | ⟨p, step, _⟩ := above.cases_head
          · exact here same
          · cases step.symm.trans up
        | some p =>
          rw [up] at done
          obtain ⟨away, top, reached, last⟩ := ih (holds.1 ▸ (holds.2.made tc p up).2) done
          refine ⟨fun above => ?_, top, .head up reached, last⟩
          obtain same | ⟨p', step, rest⟩ := above.cases_head
          · exact here same
          · cases up.symm.trans step
            exact away rest
  · rintro ⟨away, top, reached, last⟩
    induction reached using Relation.ReflTransGen.head_induction_on with
    | refl =>
      refine ⟨2, ?_⟩
      rw [holds.isParent_step enough made fun same => away (same ▸ .refl), last]
      rfl
    | @head tc p up _ ih =>
      obtain ⟨steps, done⟩ := ih (holds.1 ▸ (holds.2.made tc p up).2) fun rest =>
        away (.head up rest)
      refine ⟨steps + 1, ?_⟩
      rw [holds.isParent_step enough made fun same => away (same ▸ .refl),
        show H.above tc = some p from up, done]

/-- `talloc_is_parent` returns 1 for a context and all above it. It returns 0 for others if the way up
from the context ends, and does not return if it runs in a circle. -/
theorem talloc_is_parent_runs (unmade : m.count = 0)
    (legal : Hierarchy.LegalRun ⟨0, fun _ => none⟩ commands) (enough : commands.length < fuel)
    {outs : List (Option ChunkRef)} {m' : Heap} (done : run fuel m commands = some (outs, m'))
    {tc ptr : ChunkRef} (made : tc < m'.count) :
    ((∃ steps, m'.isParent fuel ptr steps (some tc) = some true) ↔
      Relation.ReflTransGen (Hierarchy.run ⟨0, fun _ => none⟩ commands).Up tc ptr) ∧
    ((∃ steps, m'.isParent fuel ptr steps (some tc) = some false) ↔
      ¬ Relation.ReflTransGen (Hierarchy.run ⟨0, fun _ => none⟩ commands).Up tc ptr ∧
        ∃ top, Relation.ReflTransGen (Hierarchy.run ⟨0, fun _ => none⟩ commands).Up tc top ∧
          (Hierarchy.run ⟨0, fun _ => none⟩ commands).above top = none) := by
  obtain ⟨m₁, kids, done', holds⟩ :=
    (holds_nothing unmade).run legal (by simpa using enough)
  rw [done] at done'
  cases done'
  have few := Hierarchy.count_run_le ⟨0, fun _ => none⟩ commands
  rw [Nat.zero_add] at few
  have made' := holds.1 ▸ made
  exact ⟨holds.isParent_true (few.trans_lt enough) made',
    holds.isParent_false (few.trans_lt enough) made'⟩

end Runs

/-- Memory that has never been used. -/
def blank : Heap := ⟨fun _ => some 7, fun _ => some 7, fun _ => some 7, fun _ => some 7, fun _ => 7, 0⟩

/-- A chunk between two others moves, one is left without a parent, and NULL stays NULL. -/
def sampleCalls : List Command :=
  [.talloc none 8, .talloc (some 0) 16, .talloc (some 0) 16, .talloc (some 0) 4, .parent (some 2),
    .steal (some 1) (some 2), .parent (some 2), .steal none (some 3), .parent (some 3),
    .parent (some 1), .steal (some 1) none, .parent none]

theorem sampleCalls_legal : Hierarchy.LegalRun ⟨0, fun _ => none⟩ sampleCalls := by
  simp [sampleCalls, Hierarchy.LegalRun, Command.Legal, Hierarchy.step, maxTallocSize]

theorem talloc_runs_sample :
    ∃ m', run 13 blank sampleCalls =
        some ([some 0, some 1, some 2, some 3, some 0, some 2, some 1, some 3, none, some 0, none,
          none], m') ∧
      m'.count = 4 ∧
      ∀ p < m'.count, ∃ kids, Links.Linked m'.next (m'.child p) kids ∧ kids.Nodup ∧
        ∀ a, a ∈ kids ↔ (Hierarchy.run ⟨0, fun _ => none⟩ sampleCalls).above a = some p :=
  talloc_runs rfl sampleCalls_legal (by decide)

theorem talloc_is_parent_runs_sample :
    ∃ outs m', run 13 blank sampleCalls = some (outs, m') ∧
      ((∃ steps, m'.isParent 13 0 steps (some 2) = some true) ↔
        Relation.ReflTransGen (Hierarchy.run ⟨0, fun _ => none⟩ sampleCalls).Up 2 0) ∧
      ((∃ steps, m'.isParent 13 0 steps (some 2) = some false) ↔
        ¬ Relation.ReflTransGen (Hierarchy.run ⟨0, fun _ => none⟩ sampleCalls).Up 2 0 ∧
          ∃ top, Relation.ReflTransGen (Hierarchy.run ⟨0, fun _ => none⟩ sampleCalls).Up 2 top ∧
            (Hierarchy.run ⟨0, fun _ => none⟩ sampleCalls).above top = none) := by
  obtain ⟨m', kids, done, count, _⟩ :=
    (holds_nothing (show blank.count = 0 from rfl)).run sampleCalls_legal (show 12 < 13 by decide)
  have made : 2 < m'.count := by
    rw [count]
    decide
  exact ⟨_, m', done, talloc_is_parent_runs rfl sampleCalls_legal (by decide) done made⟩

end Phat.Talloc
