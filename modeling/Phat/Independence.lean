import Phat.Foundation.DepthFirstGradient
import Phat.Retained

/-! Which heaps have sizes of their own. The sizes left by resolving all objects are the
same for every order of the objects and every content of the memory they were allocated
in only if no reference leads back and no array is empty. -/
namespace Phat
open DepthFirst (Visits entered)

/-- All stored objects are resolved, in some order. -/
def Complete (jf : Jdump) (order : List ObjRef) : Prop := ∀ o, o ∈ order ↔ o ∈ jf.stored

/-- Any two complete runs that come to an end leave every object with the same sizes. -/
def SizesAgree (jf : Jdump) (fuel : Nat) (same : ObjLook → ObjLook → Prop) : Prop :=
  ∀ memory₁ memory₂ order₁ order₂ lk₁ lk₂, Complete jf order₁ → Complete jf order₂ →
    resolveAll jf fuel order₁ (.initial memory₁) = .ok lk₁ →
    resolveAll jf fuel order₂ (.initial memory₂) = .ok lk₂ →
    ∀ o ∈ jf.stored, same (lk₁.objects o) (lk₂.objects o)

/-- No reference leads back to where it came from, and every array has elements. -/
structure Jdump.Plain (jf : Jdump) : Prop where
  acyclic : ∀ o, ¬ Relation.TransGen jf.graph.Edge o o
  nonempty : ∀ o ∈ jf.stored, ¬ jf.Empty o

section Runs
variable {jf : Jdump} {depth fuel : Nat} {order : List ObjRef} {lk : Look} {memory : Look}

/-- A complete run that comes to an end refuses nothing. -/
theorem complete_run (resolvable : jf.Resolvable depth)
    (enough : jf.stored.toFinset.card + depth < fuel) (complete : Complete jf order)
    (run : resolveAll jf fuel order (.initial memory) = .ok lk) :
    ∃ trace, Visits jf.graph (.start fun o => (memory.objects o).osize) order trace lk.memo ∧
      ∀ o ∈ jf.stored, ¬ jf.Refused o := by
  rcases resolveAll_follows resolvable.region enough (.initial jf memory)
    (fun o member => (complete o).mp member) with ⟨lk', ok, trace, calls, ran⟩ | ⟨stop, _⟩
  · rw [run] at ok
    cases ok
    refine ⟨trace, calls, fun o stored => ran.allowed o ?_⟩
    have marked := calls.seen_roots ((complete o).mpr stored)
    exact ((calls.seen_iff o).mp marked).resolve_left (by intro before; cases before)
  · rw [run] at stop
    cases stop

/-- Without refused objects, and with room for the arcs, a complete run comes to an end. -/
theorem complete_ends (resolvable : jf.Resolvable depth)
    (enough : jf.stored.toFinset.card + depth < fuel) (complete : Complete jf order)
    (allowed : ∀ o ∈ jf.stored, ¬ jf.Refused o) {memory : Look}
    (room : ∀ source, ¬ jf.Crowded (.initial memory) source) :
    ∃ lk trace, resolveAll jf fuel order (.initial memory) = .ok lk ∧
      Visits jf.graph (.start fun o => (memory.objects o).osize) order trace lk.memo := by
  rcases resolveAll_follows resolvable.region enough (.initial jf memory)
    (fun o member => (complete o).mp member) with
    ⟨lk, ok, trace, calls, _⟩ | ⟨_, ⟨x, ⟨o, listed, path, _⟩, refused⟩ | many⟩
  · exact ⟨lk, trace, ok, calls⟩
  · exact absurd refused (allowed x (Jdump.reach_stored ((complete o).mp listed) path))
  · exact absurd many (room _)

/-- Memory may hold arcs to all classes in the lists of all, and then no other is made. -/
theorem exists_roomy (jf : Jdump) (own : ObjRef → BitVec 64) : ∃ memory : Look,
    (fun o => (memory.objects o).osize) = own ∧
      ∀ source, ¬ jf.Crowded (.initial memory) source := by
  let children := jf.stored.filterMap jf.classOf
  let memory := { Look.zero with
    objects := fun o => ⟨false, own o, 0, 0, .unset⟩
    classes := fun c => { Look.zero.classes c with children := children }
    arcs := ⟨children.toFinset.sup id + 1, fun arc => ⟨0, arc, 0, 0⟩⟩ }
  refine ⟨memory, rfl, ?_⟩
  have joined : ∀ o e, jf.Joins o e → (Look.initial memory).Joined e := by
    rintro o ⟨p, c⟩ ⟨_, dref, edge, classOf⟩
    have listed : c ∈ children := List.mem_filterMap.mpr ⟨dref, Jdump.edge_stored edge, classOf⟩
    refine ⟨c, Nat.lt_succ_of_le ?_, listed, rfl⟩
    exact Finset.le_sup (f := id) (List.mem_toFinset.mpr listed)
  rintro source ⟨pairs, _, many, each⟩
  cases pairs with
  | nil => exact Nat.not_lt_zero _ many
  | cons e pairs =>
    rcases each e List.mem_cons_self with here | ⟨_, apart, o, _, joins⟩
    · cases here
    · exact apart (joined o e joins)

theorem agree_of_plain (resolvable : jf.Resolvable depth)
    (enough : jf.stored.toFinset.card + depth < fuel) (plain : jf.Plain) :
    SizesAgree jf fuel fun ho₁ ho₂ => ho₁.osize = ho₂.osize ∧ ho₁.csize = ho₂.csize := by
  have descends : WellFounded fun b a => jf.graph.Edge a b := jf.graph.wellFounded
    (fun _ _ edge => List.mem_toFinset.mpr (Jdump.edge_stored edge)) plain.acyclic
  obtain ⟨T, totals⟩ := DepthFirst.Graph.exists_totals descends
  have busy : ∀ o, ¬ jf.graph.idle o := fun o idle => plain.nonempty o idle.1 idle.2
  have sizes : ∀ memory order lk, Complete jf order →
      resolveAll jf fuel order (.initial memory) = .ok lk → ∀ o ∈ jf.stored,
      (lk.objects o).osize = jf.graph.own o ∧
        (lk.objects o).csize = DepthFirst.callSum T (jf.graph.acts o) := by
    intro memory order lk complete run o stored
    obtain ⟨trace, calls, _⟩ := complete_run resolvable enough complete run
    have start : DepthFirst.Settled jf.graph T (fun _ => False)
        (.start fun o => (memory.objects o).osize) := by
      constructor
      · exact fun _ _ => rfl
      · intro o marked
        cases marked
    obtain ⟨settled, _⟩ := calls.settled totals busy plain.acyclic start
    exact settled.done o (calls.seen_roots ((complete o).mpr stored)) id
  intro memory₁ memory₂ order₁ order₂ lk₁ lk₂ complete₁ complete₂ run₁ run₂ o stored
  obtain ⟨own₁, below₁⟩ := sizes memory₁ order₁ lk₁ complete₁ run₁ o stored
  obtain ⟨own₂, below₂⟩ := sizes memory₂ order₂ lk₂ complete₂ run₂ o stored
  exact ⟨own₁.trans own₂.symm, below₁.trans below₂.symm⟩

theorem length_targets_follow (ident : BitVec 64) :
    (DepthFirst.targets (jf.follow ident)).length ≤ 1 := by
  rw [Jdump.follow]
  split <;> simp

theorem length_targets_slotActs (o : ObjRef) (i : Nat) (fields : List Finfo) :
    (DepthFirst.targets (jf.slotActs o i fields)).length ≤ fields.length := by
  induction fields generalizing i with
  | nil => exact le_rfl
  | cons field fields ih =>
    have here : (DepthFirst.targets
        (jf.slotFollow (jf.readSlot o i field).stored)).length ≤ 1 := by
      unfold Jdump.slotFollow
      split
      · exact length_targets_follow _
      · exact Nat.zero_le _
    have later := ih (i + 1)
    rw [Jdump.slotActs, DepthFirst.targets_touch, DepthFirst.targets_append, List.length_append,
      List.length_cons]
    omega

theorem length_targets_elements (idents : List (BitVec 64)) :
    (DepthFirst.targets (idents.flatMap jf.follow)).length ≤ idents.length := by
  induction idents with
  | nil => exact le_rfl
  | cons ident idents ih =>
    have here := @length_targets_follow jf ident
    rw [List.flatMap_cons, DepthFirst.targets_append, List.length_append, List.length_cons]
    omega

/-- An object that is not refused has fewer references than `talloc_array` grants. -/
theorem length_references (resolvable : jf.Resolvable depth)
    (allowed : ∀ o ∈ jf.stored, ¬ jf.Refused o) (o : ObjRef) :
    (DepthFirst.targets (jf.graph.acts o)).length ≤ maxCount 8 := by
  by_cases stored : o ∈ jf.stored
  · rw [Jdump.graph_acts stored, Jdump.objectActs]
    split
    · split <;> exact Nat.zero_le _
    · rename_i oarray
      split
      · exact Nat.zero_le _
      · have elements := @length_targets_elements jf (jf.elements o).1
        rw [Jdump.elements, length_readElements] at elements
        rw [DepthFirst.targets_touch]
        refine elements.trans (le_of_lt (lt_of_not_ge fun many => ?_))
        exact allowed o stored (.inr ⟨many, .inl oarray⟩)
    · obtain ⟨c, cs, classOf, chain, _⟩ := resolvable.classes o stored
      have fields : jf.fieldsOf o = jf.layoutOf 0 cs := by
        rw [Jdump.fieldsOf, classOf]
        exact Jdump.layout_eq chain
      refine (length_targets_slotActs o 0 _).trans ?_
      rw [fields, Jdump.length_layoutOf]
      refine le_of_lt (lt_of_not_ge fun many => ?_)
      exact allowed o stored (.inl ⟨c, cs, classOf, chain, many⟩)
  · rw [Jdump.graph_acts_outside stored]
    exact Nat.zero_le _

theorem bitvec_odd (r : BitVec 64) : r + (1 + r) ≠ 0 := by
  bv_omega

theorem bitvec_cast (k : Nat) (positive : 1 ≤ k) (small : k ≤ maxCount 8) :
    ((k : Nat) : BitVec 64) ≠ 0 := by
  have limit : maxCount 8 < 2 ^ 64 := by decide
  intro zero
  have value := congrArg BitVec.toNat zero
  rw [BitVec.natCast_eq_ofNat, BitVec.toNat_ofNat, Nat.mod_eq_of_lt (by omega)] at value
  simp at value
  omega

/-- Agreement of the totals on all contents of memory leaves no cycle and no empty
array. -/
theorem plain_of_agree (resolvable : jf.Resolvable depth)
    (enough : jf.stored.toFinset.card + depth < fuel) (allowed : ∀ o ∈ jf.stored, ¬ jf.Refused o)
    (agree : SizesAgree jf fuel fun ho₁ ho₂ => ho₁.osize + ho₁.csize = ho₂.osize + ho₂.csize) :
    jf.Plain := by
  have complete : Complete jf jf.stored := fun _ => Iff.rfl
  have ends : ∀ (own : ObjRef → BitVec 64) trace m,
      Visits jf.graph (.start own) jf.stored trace m →
      ∃ memory lk, resolveAll jf fuel jf.stored (.initial memory) = .ok lk ∧ m = lk.memo := by
    intro own trace m calls
    obtain ⟨memory, rfl, room⟩ := exists_roomy jf own
    obtain ⟨lk, trace', run, calls'⟩ := complete_ends resolvable enough complete allowed room
    exact ⟨memory, lk, run, (calls.unique calls').2⟩
  have accessible : ∀ o ∈ jf.stored, Acc (fun b a => jf.graph.Edge a b) o ∧ ¬ jf.graph.idle o := by
    intro o stored
    have bounded : ∀ x dref, jf.graph.Edge x dref → dref ∈ jf.stored.toFinset :=
      fun _ _ edge => List.mem_toFinset.mpr (Jdump.edge_stored edge)
    refine DepthFirst.accessible_of_independent bitvec_odd bitvec_cast (by decide)
      (length_references resolvable allowed) (fun x _ dref edge => bounded x dref edge)
      (fun _ => List.mem_toFinset.mpr) ?_ stored
    intro own₁ own₂ trace₁ trace₂ m₁ m₂ calls₁ calls₂ x seen
    have inside : x ∈ jf.stored := by
      have member := ((calls₁.seen_iff x).mp seen).resolve_left (by intro before; cases before)
      obtain ⟨root, listed, path⟩ := calls₁.reach member
      cases path with
      | refl => exact listed
      | tail _ edge => exact Jdump.edge_stored edge
    obtain ⟨memory₁, lk₁, run₁, rfl⟩ := ends own₁ trace₁ m₁ calls₁
    obtain ⟨memory₂, lk₂, run₂, rfl⟩ := ends own₂ trace₂ m₂ calls₂
    exact agree memory₁ memory₂ jf.stored jf.stored lk₁ lk₂ complete complete run₁ run₂ x inside
  constructor
  · intro o cycle
    have stored : o ∈ jf.stored := by
      obtain ⟨_, _, edge⟩ := (Relation.TransGen.tail'_iff.mp cycle)
      exact Jdump.edge_stored edge
    have rest := (accessible o stored).1
    clear stored
    induction rest with
    | intro x _ ih =>
      obtain ⟨y, edge, path⟩ := Relation.TransGen.head'_iff.mp cycle
      exact ih y edge (Relation.TransGen.tail' path edge)
  · exact fun o stored empty => (accessible o stored).2 ⟨stored, empty⟩

theorem sizes_agree_iff (resolvable : jf.Resolvable depth)
    (enough : jf.stored.toFinset.card + depth < fuel) :
    ((SizesAgree jf fuel fun ho₁ ho₂ => ho₁.osize = ho₂.osize ∧ ho₁.csize = ho₂.csize) ↔
      (∃ o ∈ jf.stored, jf.Refused o) ∨ jf.Plain) ∧
    ((SizesAgree jf fuel fun ho₁ ho₂ => ho₁.osize + ho₁.csize = ho₂.osize + ho₂.csize) ↔
      (∃ o ∈ jf.stored, jf.Refused o) ∨ jf.Plain) := by
  have forth : (SizesAgree jf fuel fun ho₁ ho₂ => ho₁.osize + ho₁.csize = ho₂.osize + ho₂.csize) →
      (∃ o ∈ jf.stored, jf.Refused o) ∨ jf.Plain := by
    intro agree
    by_cases refused : ∃ o ∈ jf.stored, jf.Refused o
    · exact .inl refused
    · refine .inr (plain_of_agree resolvable enough (fun o stored limit => ?_) agree)
      exact refused ⟨o, stored, limit⟩
  have back : (∃ o ∈ jf.stored, jf.Refused o) ∨ jf.Plain →
      SizesAgree jf fuel fun ho₁ ho₂ => ho₁.osize = ho₂.osize ∧ ho₁.csize = ho₂.csize := by
    rintro (⟨o, stored, refused⟩ | plain)
    · intro memory₁ _ order₁ _ lk₁ _ complete₁ _ run₁
      obtain ⟨_, _, allowed⟩ := complete_run resolvable enough complete₁ run₁
      exact absurd refused (allowed o stored)
    · exact agree_of_plain resolvable enough plain
  have sum : (SizesAgree jf fuel fun ho₁ ho₂ => ho₁.osize = ho₂.osize ∧ ho₁.csize = ho₂.csize) →
      SizesAgree jf fuel fun ho₁ ho₂ => ho₁.osize + ho₁.csize = ho₂.osize + ho₂.csize := by
    intro agree memory₁ memory₂ order₁ order₂ lk₁ lk₂ complete₁ complete₂ run₁ run₂ o stored
    obtain ⟨own, below⟩ :=
      agree memory₁ memory₂ order₁ order₂ lk₁ lk₂ complete₁ complete₂ run₁ run₂ o stored
    rw [own, below]
  exact ⟨⟨fun agree => forth (sum agree), back⟩, ⟨forth, fun plain => sum (back plain)⟩⟩

end Runs

theorem sizes_agree_iff_sampleLink : SizesAgree sampleLink 6 fun ho₁ ho₂ =>
    ho₁.osize = ho₂.osize ∧ ho₁.csize = ho₂.csize := by
  obtain ⟨exact, _⟩ := @sizes_agree_iff sampleLink 3 6 (sampleHeap_resolvable _) (by decide)
  apply exact.mpr
  right
  constructor
  · exact sampleLink_acyclic
  · exact fun o _ => sampleLink_nonempty o

/-- An instance and an object array that refer to each other. -/
def sampleCycle : Jdump :=
  { sampleHeap [0, 0, 0, 0, 2, 0, 0, 0, 0, 0, 0, 0, 1] with
    hobjects := ⟨2, fun o => if o = 0 then ⟨.hInstance, 1, 3, 0, 0, 0⟩ else ⟨.hOarray, 2, 2, 9, 1, 0⟩⟩ }

theorem sampleCycle_resolvable : sampleCycle.Resolvable 3 where
  zero := rfl
  classes o _ := by
    obtain ⟨_, chain₁, chain₂⟩ := @sampleChain sampleCycle rfl rfl
    by_cases first : o = 0
    · subst first
      exact ⟨2, _, rfl, chain₂, by decide, rfl⟩
    · have record : sampleCycle.hobject o = ⟨.hOarray, 2, 2, 9, 1, 0⟩ := if_neg first
      refine ⟨1, _, ?_, chain₁, by decide, rfl⟩
      rw [Jdump.classOf, record]
      rfl

/-- With all memory zero: whether the instance counts the array depends on which is
visited first, as it is in the order of the identifiers, or as the array is when its class
is asked for. -/
theorem sizes_disagree_sampleCycle : sampleCycle.Resolvable 3 ∧
    ¬ SizesAgree sampleCycle 6 fun ho₁ ho₂ =>
      ho₁.osize + ho₁.csize = ho₂.osize + ho₂.csize := by
  refine ⟨sampleCycle_resolvable, fun agree => ?_⟩
  have first : (resolveAll sampleCycle 6 [0, 1] (.initial .zero)).toOption.map
      (fun lk => lk.total 0) = some 13 := by decide +kernel
  have second : (resolveAll sampleCycle 6 [1, 0] (.initial .zero)).toOption.map
      (fun lk => lk.total 0) = some 9 := by decide +kernel
  obtain ⟨lk₁, run₁, total₁⟩ := Option.map_eq_some_iff.mp first
  obtain ⟨lk₂, run₂, total₂⟩ := Option.map_eq_some_iff.mp second
  have stored : sampleCycle.stored = [0, 1] := rfl
  have complete₁ : Complete sampleCycle [0, 1] := by
    intro o
    rw [stored]
  have complete₂ : Complete sampleCycle [1, 0] := by
    intro o
    rw [stored]
    exact (List.Perm.swap 0 1 []).mem_iff
  have same := agree .zero .zero [0, 1] [1, 0] lk₁ lk₂ complete₁ complete₂
    (ok_of_toOption run₁) (ok_of_toOption run₂) 0 (by rw [stored]; exact List.mem_cons_self)
  have total : lk₁.total 0 = lk₂.total 0 := same
  rw [total₁, total₂] at total
  exact absurd total (by decide)

end Phat
