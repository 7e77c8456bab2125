import Phat.Retained

/-! The invariant between two outermost calls of `resolveInstance`: in a part of the heap,
what a resolved object refers to is resolved, and the record of every resolved object says
what the dump says. -/
namespace Phat
open DepthFirst (Visit Visits entered)

structure Grounded (jf : Jdump) (S : ObjRef → Prop) (lk : Look) : Prop where
  ready : Ready jf lk
  closed : ∀ o dref, S o → (lk.objects o).resolved = true → jf.graph.Edge o dref →
    (lk.objects dref).resolved = true
  decoded : ∀ o, S o → (lk.objects o).resolved = true → Decoded jf o (lk.objects o)
  laid : ∀ o c, S o → (lk.objects o).resolved = true → jf.classOf o = some c →
    (lk.classes c).resolved = true

/-- Arrays with elements and instances with fields. -/
def Jdump.Full (jf : Jdump) (o : ObjRef) : Prop :=
  ¬ jf.Empty o ∧ ((jf.hobject o).htype = .hInstance → jf.fieldsOf o ≠ [])

section Closure
variable {jf : Jdump} {S : ObjRef → Prop} {depth fuel : Nat} {lk lk' : Look} {o x : ObjRef}
  {trace : Trace}

theorem Grounded.initial (jf : Jdump) (S : ObjRef → Prop) (memory : Look) :
    Grounded jf S (.initial memory) where
  ready := .initial jf memory
  closed _ _ _ resolved := by cases resolved
  decoded _ _ resolved := by cases resolved
  laid _ _ _ resolved := by cases resolved

/-- The reader may stand elsewhere. -/
theorem Grounded.congr (grounded : Grounded jf S lk) (objects : lk'.objects = lk.objects)
    (classes : lk'.classes = lk.classes) (alone : ArcsAlone lk lk') : Grounded jf S lk' where
  ready :=
    { sound := grounded.ready.sound.congr classes
      arcs := alone.kept.sound grounded.ready.arcs
      fresh := by
        rw [objects]
        exact grounded.ready.fresh }
  closed := by
    rw [objects]
    exact grounded.closed
  decoded := by
    rw [objects]
    exact grounded.decoded
  laid := by
    rw [objects, classes]
    exact grounded.laid

/-- Every non-empty object has its `hvalues` assigned. -/
theorem Jdump.Full.decoded (full : jf.Full o) : ∃ hvalues, jf.decoded o = some hvalues := by
  rw [Jdump.decoded]
  cases kind : (jf.hobject o).htype with
  | hVarray =>
    simp only
    split
    · exact ⟨_, rfl⟩
    · split <;> exact ⟨_, rfl⟩
  | hOarray =>
    have some : (jf.hobject o).count ≠ 0 := by
      intro none
      exact full.1 ⟨by rw [kind]; decide, none⟩
    exact ⟨_, if_neg some⟩
  | hInstance => exact ⟨_, if_neg (full.2 kind)⟩

theorem Grounded.ran (grounded : Grounded jf S lk)
    (ran : Ran jf (fun _ => False) (fun _ => False) lk lk' trace)
    (edges : ∀ x ∈ entered trace, ∀ dref, jf.graph.Edge x dref →
      (lk'.objects dref).resolved = true) : Grounded jf S lk' where
  ready := ran.ready
  closed x dref inside resolved edge := by
    rcases (ran.seen x).mp resolved with before | member
    · exact (ran.seen dref).mpr (.inl (grounded.closed x dref inside before edge))
    · exact edges x member dref edge
  decoded x inside resolved := by
    rcases (ran.seen x).mp resolved with before | member
    · obtain ⟨hvalues, xclass⟩ := ran.kept x id before
      exact (grounded.decoded x inside before).congr hvalues xclass
    · exact ran.decoded x member
  laid x c inside resolved classOf := by
    rcases (ran.seen x).mp resolved with before | member
    · exact ran.classes c (grounded.laid x c inside before classOf)
    · exact ran.laid x member c classOf

/-- An outermost call. -/
theorem resolveInstance_grounded (region : jf.Region S depth)
    (enough : jf.stored.toFinset.card + depth < fuel) (grounded : Grounded jf S lk)
    (inside : S o) : Outcome (jf.Denied lk [o]) (resolveInstance jf fuel lk o) fun result =>
      ∃ trace, Visit jf.graph lk.memo o trace result.1.memo result.2 ∧
      Ran jf (fun _ => False) (fun _ => False) lk result.1 trace ∧ Grounded jf S result.1 := by
  have all : (DepthFirst.unmarked jf.stored.toFinset lk.memo).card ≤ jf.stored.toFinset.card :=
    Finset.card_le_card (Finset.filter_subset _ _)
  refine (resolveInstance_follows region enough lk o grounded.ready inside all).imp ?_
  rintro ⟨lk', a⟩ ⟨trace, call, ran⟩
  exact ⟨trace, call, ran, grounded.ran ran fun x member dref edge => call.edge_seen member edge⟩

theorem resolveAll_grounded (region : jf.Region S depth)
    (enough : jf.stored.toFinset.card + depth < fuel) (grounded : Grounded jf S lk)
    {os : List ObjRef} (inside : ∀ o ∈ os, S o) :
    Outcome (jf.Denied lk os) (resolveAll jf fuel os lk) fun lk' => ∃ trace,
      Visits jf.graph lk.memo os trace lk'.memo ∧
      Ran jf (fun _ => False) (fun _ => False) lk lk' trace ∧ Grounded jf S lk' := by
  refine (resolveAll_follows region enough grounded.ready inside).imp ?_
  rintro lk' ⟨trace, calls, ran⟩
  exact ⟨trace, calls, ran, grounded.ran ran fun x member dref edge => calls.edge_seen member edge⟩

/-- A reference slot of an instance holds an identifier, and leads along an edge. -/
theorem Jdump.slot_edge {i : Nat} {field : Finfo} (stored : o ∈ jf.stored)
    (inst : (jf.hobject o).htype = .hInstance) (here : (jf.fieldsOf o)[i]? = some field)
    (ref : field.ftype = chr '[' ∨ field.ftype = chr 'L') :
    ∃ ident, (jf.slotValues o 0 (jf.fieldsOf o))[i]? = some (.ident ident) ∧
      ∀ x, jf.hTable.lookup32 (key ident) = some x → jf.graph.Edge o x := by
  have read : ∀ j, ∃ ident, (jf.readSlot o j field).stored = some (.ident ident) := by
    intro j
    rw [readSlot, readField, if_pos ref]
    exact ⟨_, rfl⟩
  have listed : ∀ (j i : Nat) (fields : List Finfo), fields[i]? = some field → ∃ ident,
      (jf.slotValues o j fields)[i]? = some (.ident ident) ∧
        ∀ x, jf.hTable.lookup32 (key ident) = some x →
          x ∈ DepthFirst.targets (jf.slotActs o j fields) := by
    intro j i fields
    induction fields generalizing i j with
    | nil =>
      intro none
      cases none
    | cons first fields ih =>
      intro here
      cases i with
      | zero =>
        cases here
        obtain ⟨ident, found⟩ := read j
        refine ⟨ident, ?_, fun x known => ?_⟩
        · rw [slotValues, found]
          rfl
        · rw [slotActs, found, DepthFirst.targets_touch, DepthFirst.targets_append, slotFollow,
            follow_some known]
          exact List.mem_append_left _ List.mem_cons_self
      | succ i =>
        obtain ⟨ident, value, leads⟩ := ih (j + 1) i here
        refine ⟨ident, value, fun x known => ?_⟩
        rw [slotActs, DepthFirst.targets_touch, DepthFirst.targets_append]
        exact List.mem_append_right _ (leads x known)
  obtain ⟨ident, value, leads⟩ := listed 0 i (jf.fieldsOf o) here
  refine ⟨ident, value, fun x known => ?_⟩
  rw [DepthFirst.Graph.Edge, graph_acts stored, objectActs, inst]
  exact leads x known

/-- So does an element of an object array. -/
theorem Jdump.element_edge {ident : BitVec 64} (stored : o ∈ jf.stored)
    (oarray : (jf.hobject o).htype = .hOarray) (some : (jf.hobject o).count ≠ 0)
    (member : ident ∈ (jf.elements o).1) (known : jf.hTable.lookup32 (key ident) = .some x) :
    jf.graph.Edge o x := by
  have listed : ∀ idents : List (BitVec 64), ident ∈ idents →
      x ∈ DepthFirst.targets (idents.flatMap jf.follow) := by
    intro idents member
    induction idents with
    | nil => cases member
    | cons first idents ih =>
      rw [List.flatMap_cons, DepthFirst.targets_append, List.mem_append]
      rcases List.mem_cons.mp member with rfl | later
      · left
        rw [follow_some known]
        exact List.mem_cons_self
      · exact .inr (ih later)
  rw [DepthFirst.Graph.Edge, graph_acts stored, objectActs, oarray]
  simp only [if_neg some, DepthFirst.targets_touch]
  exact listed _ member

end Closure

end Phat
