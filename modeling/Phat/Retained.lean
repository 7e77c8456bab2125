import Phat.Foundation.DepthFirstTotals
import Phat.Turns

/-! Self and children sizes on acyclic heaps: what `resolveInstance` leaves and returns
are the plain recursive sums. -/
namespace Phat

/-- The stored objects that the reference slots of an object lead to, in order and as
often as there are slots. -/
noncomputable def Jdump.references (jf : Jdump) (o : ObjRef) : List ObjRef :=
  DepthFirst.targets (jf.graph.acts o)

/-- `osize + csize` -/
def Look.total (lk : Look) (o : ObjRef) : BitVec 64 :=
  (lk.objects o).osize + (lk.objects o).csize

theorem sizes_summed {jf : Jdump} {depth fuel : Nat} {order : List ObjRef} (memory : Look)
    (resolvable : jf.Resolvable depth)
    (acyclic : ∀ o, ¬ Relation.TransGen (fun a b => b ∈ jf.references a) o o)
    (nonempty : ∀ o ∈ jf.stored, ¬ jf.Empty o) (roots : ∀ o ∈ order, o ∈ jf.stored)
    (all : ∀ o ∈ jf.stored, o ∈ order) (enough : jf.stored.toFinset.card + depth < fuel) :
    Outcome (jf.Denied (.initial memory) order)
      (resolveAll jf fuel order (.initial memory)) fun lk =>
      (∀ o ∈ jf.stored, (lk.objects o).resolved = true ∧ (lk.objects o).osize = jf.ownSize o ∧
        (lk.objects o).csize = ((jf.references o).map lk.total).sum) ∧
      ∀ o a, .ret o a ∈ lk.trace → a = lk.total o := by
  have descends : WellFounded fun b a => jf.graph.Edge a b :=
    jf.graph.wellFounded (fun _ _ edge => List.mem_toFinset.mpr (Jdump.edge_stored edge)) acyclic
  obtain ⟨T, totals⟩ := DepthFirst.Graph.exists_totals descends
  have busy : ∀ o, ¬ jf.graph.idle o := fun o idle => nonempty o idle.1 idle.2
  refine (resolveAll_follows resolvable.region enough (.initial jf memory) roots).imp ?_
  rintro lk ⟨trace, calls, ran⟩
  have start : DepthFirst.Settled jf.graph T (fun _ => False) (Look.initial memory).memo := by
    constructor
    · exact fun _ _ => rfl
    · intro o marked
      cases marked
  obtain ⟨settled, values⟩ := calls.settled totals busy acyclic start
  have total : ∀ o ∈ jf.stored, lk.total o = T o := fun o stored =>
    settled.total totals (calls.seen_roots (all o stored)) id
  refine ⟨fun o stored => ?_, fun o a member => ?_⟩
  · obtain ⟨own, below⟩ := settled.done o (calls.seen_roots (all o stored)) id
    refine ⟨calls.seen_roots (all o stored), own, below.trans ?_⟩
    apply congrArg List.sum
    apply List.map_congr_left
    intro dref member
    exact (total dref (Jdump.edge_stored member)).symm
  · rw [ran.traced] at member
    have traced : DepthFirst.Event.ret o a ∈ trace := by simpa [Look.initial] using member
    rw [values o a traced]
    exact (settled.total totals (calls.ret_seen traced) id).symm

theorem ok_of_toOption {α : Type} {result : Except Stop α} {a : α}
    (some : result.toOption = .some a) : result = .ok a := by
  cases result with
  | error => cases some
  | ok b => exact congrArg Except.ok (Option.some.inj some)

/-- Two instances, the first of which refers to the second. -/
def sampleLink : Jdump := sampleHeap [0, 0, 0, 0, 2, 0, 0, 0, 0, 0, 0, 0, 0, 0, 0, 0, 0, 0]

theorem sampleLink_references : sampleLink.references 0 = [1] ∧ sampleLink.references 1 = [] := by
  have acts : ∀ o ∈ sampleLink.stored,
      sampleLink.graph.acts o = sampleLink.slotActs o 0 (sampleLink.layoutOf 0 [2, 1, 0]) := by
    intro o stored
    have fields : sampleLink.fieldsOf o = sampleLink.layoutOf 0 [2, 1, 0] :=
      Jdump.layout_eq (@sampleChain sampleLink rfl rfl).2.2
    rw [Jdump.graph_acts stored, Jdump.objectActs, fields]
    rfl
  rw [Jdump.references, Jdump.references, acts 0 (by decide), acts 1 (by decide)]
  constructor <;> decide

theorem sampleLink_acyclic (o : ObjRef) :
    ¬ Relation.TransGen (fun a b => b ∈ sampleLink.references a) o o := by
  have arrow : ∀ a b, b ∈ sampleLink.references a → a = 0 ∧ b = 1 := by
    intro a b member
    have stored : a ∈ [0, 1] := by
      by_contra outside
      rw [Jdump.references, Jdump.graph_acts_outside outside] at member
      cases member
    obtain ⟨first, second⟩ := sampleLink_references
    rcases List.mem_pair.mp stored with rfl | rfl
    · rw [first] at member
      exact ⟨rfl, List.mem_singleton.mp member⟩
    · rw [second] at member
      cases member
  intro cycle
  obtain ⟨_, out, _⟩ := Relation.TransGen.head'_iff.mp cycle
  obtain ⟨_, _, back⟩ := Relation.TransGen.tail'_iff.mp cycle
  have zero := (arrow _ _ out).1
  rw [(arrow _ _ back).2] at zero
  cases zero

theorem sampleLink_nonempty (o : ObjRef) : ¬ sampleLink.Empty o :=
  fun empty => empty.1 rfl

theorem sizes_summed_sampleLink :
    Outcome (sampleLink.Denied (.initial .zero) [1, 0, 1])
      (resolveAll sampleLink 6 [1, 0, 1] (.initial .zero)) fun lk =>
      (lk.objects 0).csize = lk.total 1 ∧ (lk.objects 1).csize = 0 := by
  have stored : sampleLink.stored = [0, 1] := sampleHeap_stored _
  have roots : ∀ o ∈ [1, 0, 1], o ∈ sampleLink.stored := by
    rw [stored]
    decide
  have all : ∀ o ∈ sampleLink.stored, o ∈ [1, 0, 1] := by
    rw [stored]
    decide
  refine (@sizes_summed sampleLink 3 6 [1, 0, 1] .zero (sampleHeap_resolvable _) sampleLink_acyclic
    (fun o _ => sampleLink_nonempty o) roots all (by decide)).imp ?_
  rintro lk ⟨sizes, _⟩
  obtain ⟨_, _, first⟩ := sizes 0 (by decide)
  obtain ⟨_, _, second⟩ := sizes 1 (by decide)
  rw [sampleLink_references.1] at first
  rw [sampleLink_references.2] at second
  exact ⟨first.trans (add_zero _), second⟩

/-- The object that the field of a root class names is not added. -/
theorem sampleRoot_unsummed : sampleRoot.Resolvable 2 ∧ sampleRoot.NamesFirst 0 1 ∧
    ∃ lk, resolveAll sampleRoot 5 [0, 1] (.initial .zero) = .ok lk ∧
      (lk.objects 0).csize = 0 ∧ lk.total 1 = 4 := by
  have run : (resolveAll sampleRoot 5 [0, 1] (.initial .zero)).toOption.map
      (fun lk => ((lk.objects 0).csize, lk.total 1)) = some (0, 4) := by decide +kernel
  obtain ⟨lk, ok, sizes⟩ := Option.map_eq_some_iff.mp run
  simp only [Prod.mk.injEq] at sizes
  exact ⟨sampleRoot_resolvable, sampleRoot_names, lk, ok_of_toOption ok, sizes⟩

end Phat
