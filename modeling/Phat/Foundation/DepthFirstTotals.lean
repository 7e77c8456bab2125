import Mathlib.Algebra.Group.Pi.Basic
import Mathlib.Algebra.Ring.Defs
import Mathlib.Data.Nat.Cast.Basic
import Mathlib.Order.WellFoundedSet
import Mathlib.Tactic.Abel
import Phat.Foundation.DepthFirstReach

/-! What the memo cells hold. On an acyclic graph without idle nodes they are the
plain recursive sums, whatever the order of the calls. Conversely a traversal whose
final cells do not depend on what the unassigned cells held meets no cycle and no
idle node: the dependence is read off one run over the gradients. -/
namespace Phat.DepthFirst
variable {ν ι A B : Type} [DecidableEq ν]

section Acyclic
variable [AddCommMonoid A] {g : Graph ν ι A} {m m' : Memo ν A} {v w : ν}
  {acts : List (Act ν ι)} {trace : List (Event ν ι A)} {a : A} {ws : List ν} {T : ν → A}

/-- The sum of a valuation over the calls of some actions, with multiplicity. -/
def callSum (T : ν → A) (acts : List (Act ν ι)) : A := ((targets acts).map T).sum

omit [DecidableEq ν] in
@[simp] theorem callSum_nil (T : ν → A) : callSum T ([] : List (Act ν ι)) = 0 := rfl

omit [DecidableEq ν] in
@[simp] theorem callSum_touch (T : ν → A) (i : ι) (acts : List (Act ν ι)) :
    callSum T (.touch i :: acts) = callSum T acts := rfl

omit [DecidableEq ν] in
@[simp] theorem callSum_follow (T : ν → A) (w : ν) (acts : List (Act ν ι)) :
    callSum T (.follow w :: acts) = T w + callSum T acts := by
  simp [callSum]

def Graph.Totals (g : Graph ν ι A) (T : ν → A) : Prop :=
  ∀ v, T v = g.own v + callSum T (g.acts v)

omit [DecidableEq ν] [AddCommMonoid A] in
/-- On a finite graph a path without end would come back to a node. -/
theorem Graph.wellFounded {nodes : Finset ν}
    (inside : ∀ x y, g.Edge x y → y ∈ nodes)
    (acyclic : ∀ x, ¬ Relation.TransGen g.Edge x x) : WellFounded fun y x => g.Edge x y := by
  have order : IsStrictOrder ν fun y x => Relation.TransGen g.Edge x y :=
    { irrefl := acyclic, trans := fun _ _ _ below above => above.trans below }
  have descends : (nodes : Set ν).WellFoundedOn fun y x => Relation.TransGen g.Edge x y :=
    nodes.finite_toSet.wellFoundedOn
  have accessible : ∀ x ∈ (nodes : Set ν), Acc (fun y x => g.Edge x y) x := by
    intro x member
    apply descends.induction member
    intro x _ ih
    exact ⟨x, fun y edge => ih y (inside x y edge) (.single edge)⟩
  exact ⟨fun x => ⟨x, fun y edge => accessible y (inside x y edge)⟩⟩

omit [DecidableEq ν] in
/-- The plain recursion over the calls. -/
theorem Graph.exists_totals
    (descends : WellFounded fun y x => g.Edge x y) : ∃ T, g.Totals T := by
  let sums : (v : ν) → ((w : ν) → g.Edge v w → A) → A := fun v below =>
    g.own v + ((targets (g.acts v)).attach.map fun w => below w.1 w.2).sum
  refine ⟨descends.fix sums, fun v => ?_⟩
  have recursion : descends.fix sums v =
      g.own v + ((targets (g.acts v)).attach.map fun w => descends.fix sums w.1).sum :=
    descends.fix_eq sums v
  rw [recursion, callSum, List.attach_map_val]

/-- Marked nodes that are not running hold their recursive sums. -/
structure Settled (g : Graph ν ι A) (T : ν → A) (running : ν → Prop) (m : Memo ν A) : Prop where
  fresh : ∀ x, m.seen x = false → m.below x = 0
  done : ∀ x, m.seen x = true → ¬ running x →
    m.own x = g.own x ∧ m.below x = callSum T (g.acts x)

omit [DecidableEq ν] in
theorem Settled.total {running : ν → Prop} (totals : g.Totals T)
    (settled : Settled g T running m) {x : ν} (marked : m.seen x = true)
    (finished : ¬ running x) : m.total x = T x := by
  obtain ⟨own, below⟩ := settled.done x marked finished
  rw [Memo.total, own, below, ← totals x]

theorem Settled.add {running : ν → Prop} (settled : Settled g T running m) (runs : running v)
    (marked : m.seen v = true) (a : A) : Settled g T running (m.add v a) where
  fresh x clear := by
    have apart : x ≠ v := by rintro rfl; simp [marked] at clear
    rw [Memo.below_add_of_ne _ _ apart]
    exact settled.fresh x clear
  done x old finished := by
    have apart : x ≠ v := by rintro rfl; exact finished runs
    rw [Memo.below_add_of_ne _ _ apart]
    exact settled.done x old finished

theorem Settled.mark {running : ν → Prop} (settled : Settled g T running m) (w : ν) :
    Settled g T (fun x => x = w ∨ running x) (m.mark w) where
  fresh x clear := by
    rw [← Bool.not_eq_true, Memo.seen_mark, not_or, Bool.not_eq_true] at clear
    exact settled.fresh x clear.2
  done x marked finished := by
    rw [not_or] at finished
    exact settled.done x (((Memo.seen_mark m w x).mp marked).resolve_left finished.1) finished.2

/-- Leaving a node whose calls are all added closes it. -/
theorem Settled.leave {running : ν → Prop}
    (settled : Settled g T (fun x => x = w ∨ running x) m) (marked : m.seen w = true)
    (sum : m.below w = callSum T (g.acts w)) : Settled g T running (m.settle w (g.own w)) where
  fresh x clear := settled.fresh x clear
  done x old finished := by
    by_cases same : x = w
    · subst same
      exact ⟨Memo.own_settle_self _ _ _, sum⟩
    · rw [Memo.own_settle_of_ne _ _ same]
      exact settled.done x old (by simp [same, finished])

/-- The running nodes are the ancestors of `v`; none of them is a call target, so a
marked target is always finished. -/
theorem Perform.settled (totals : g.Totals T) (busy : ∀ x, ¬ g.idle x)
    (acyclic : ∀ x, ¬ Relation.TransGen g.Edge x x) (run : Perform g m v acts trace m')
    {running : ν → Prop} (settled : Settled g T running m) (runs : running v)
    (marked : ∀ p, running p → m.seen p = true)
    (upward : ∀ t ∈ targets acts, ∀ p, running p → ¬ g.Reach t p) :
    Settled g T running m' ∧ m'.below v = m.below v + callSum T acts ∧
      ∀ x b, .ret x b ∈ trace → b = T x := by
  induction run generalizing running with
  | nil => exact ⟨settled, by simp, by simp⟩
  | touch _ ih =>
    obtain ⟨after, sum, values⟩ := ih settled runs marked upward
    exact ⟨after, sum, by simpa using values⟩
  | @seen m m' v w acts trace old _ ih =>
    have finished : ¬ running w := fun up => upward w (by simp) w up .refl
    have value := settled.total totals old finished
    obtain ⟨after, sum, values⟩ := ih (settled.add runs (marked v runs) _) runs marked
      (fun t target => upward t (by simp [target]))
    refine ⟨after, ?_, ?_⟩
    · rw [sum, Memo.below_add_self, value, callSum_follow, add_assoc]
    · intro x b member
      rcases List.mem_cons.mp member with here | member
      · cases here
        exact value
      · exact values x b member
  | idle _ idle => exact absurd idle (busy _)
  | @enter m m₁ m' v w acts inner trace fresh _ call rest innerIh restIh =>
    have apart : v ≠ w := by rintro rfl; simp [marked v runs] at fresh
    have below : ∀ t ∈ targets (g.acts w), ∀ p, p = w ∨ running p → ¬ g.Reach t p := by
      rintro t edge p (rfl | up) path
      · exact acyclic p (Relation.TransGen.head' edge path)
      · exact upward w (by simp) p up (.head edge path)
    obtain ⟨inside, innerSum, innerValues⟩ := innerIh (settled.mark w) (.inl rfl)
      (fun p up => by
        rcases up with rfl | up
        · simp
        · simp [marked p up]) below
    have entered : m₁.seen w = true := call.seen_mono (by simp)
    rw [Memo.below_mark, settled.fresh w fresh, zero_add] at innerSum
    have outside := inside.leave entered innerSum
    have value := outside.total totals (x := w) entered (fun up => by simp [marked w up] at fresh)
    have still : ∀ p, running p → (m₁.settle w (g.own w)).seen p = true :=
      fun p up => call.seen_mono (by simp [marked p up])
    obtain ⟨after, sum, values⟩ := restIh (outside.add runs (still v runs) _) runs still
      (fun t target => upward t (by simp [target]))
    refine ⟨after, ?_, ?_⟩
    · rw [sum, Memo.below_add_self, value, Memo.below_settle,
        (call.frame (by simp [marked v runs]) apart).2, Memo.below_mark, callSum_follow, add_assoc]
    · intro x b member
      simp only [List.mem_cons, List.mem_append, reduceCtorEq, false_or] at member
      rcases member with member | here | member
      · exact innerValues x b member
      · cases here
        exact value
      · exact values x b member

theorem Visit.settled (totals : g.Totals T) (busy : ∀ x, ¬ g.idle x)
    (acyclic : ∀ x, ¬ Relation.TransGen g.Edge x x) (call : Visit g m w trace m' a)
    (settled : Settled g T (fun _ => False) m) :
    Settled g T (fun _ => False) m' ∧ ∀ x b, .ret x b ∈ trace → b = T x := by
  cases call with
  | seen marked =>
    refine ⟨settled, ?_⟩
    intro x b member
    rw [List.mem_singleton] at member
    cases member
    exact settled.total totals marked id
  | idle _ idle => exact absurd idle (busy w)
  | @enter _ m₁ _ inner fresh _ run =>
    have below : ∀ t ∈ targets (g.acts w), ∀ p, p = w ∨ False → ¬ g.Reach t p := by
      rintro t edge p (rfl | impossible) path
      · exact acyclic p (Relation.TransGen.head' edge path)
      · exact impossible
    obtain ⟨inside, sum, values⟩ := run.settled totals busy acyclic (settled.mark w) (.inl rfl)
      (by rintro p (rfl | impossible) <;> simp_all) below
    rw [Memo.below_mark, settled.fresh w fresh, zero_add] at sum
    have entered : m₁.seen w = true := run.seen_mono (by simp)
    have outside := inside.leave entered sum
    refine ⟨outside, ?_⟩
    intro x b member
    simp only [List.mem_cons, List.mem_append, reduceCtorEq, false_or, List.not_mem_nil,
      or_false] at member
    rcases member with member | here
    · exact values x b member
    · cases here
      exact outside.total totals entered id

theorem Visits.settled (totals : g.Totals T) (busy : ∀ x, ¬ g.idle x)
    (acyclic : ∀ x, ¬ Relation.TransGen g.Edge x x) (calls : Visits g m ws trace m')
    (settled : Settled g T (fun _ => False) m) :
    Settled g T (fun _ => False) m' ∧ ∀ x b, .ret x b ∈ trace → b = T x := by
  induction calls with
  | nil => exact ⟨settled, by simp⟩
  | cons call _ ih =>
    obtain ⟨middle, first⟩ := call.settled totals busy acyclic settled
    obtain ⟨after, rest⟩ := ih middle
    refine ⟨after, ?_⟩
    intro x b member
    rcases List.mem_append.mp member with member | member
    · exact first x b member
    · exact rest x b member

end Acyclic

section Map
variable [AddCommMonoid A] [AddCommMonoid B]

def Graph.map (g : Graph ν ι A) (f : A → B) : Graph ν ι B :=
  { acts := g.acts, own := fun v => f (g.own v), idle := g.idle, idle_acts := g.idle_acts }

def Memo.map (m : Memo ν A) (f : A → B) : Memo ν B :=
  { seen := m.seen, own := fun v => f (m.own v), below := fun v => f (m.below v) }

def Event.map (f : A → B) : Event ν ι A → Event ν ι B
  | .enter v => .enter v
  | .touch i => .touch i
  | .ret v a => .ret v (f a)

variable (f : A →+ B) {g : Graph ν ι A} {m m' : Memo ν A} {v w : ν}
  {acts : List (Act ν ι)} {trace : List (Event ν ι A)} {a : A} {ws : List ν}

omit [DecidableEq ν] in
theorem Memo.total_map (m : Memo ν A) (v : ν) : (m.map f).total v = f (m.total v) :=
  (map_add f _ _).symm

theorem Memo.mark_map (m : Memo ν A) (v : ν) : (m.mark v).map f = (m.map f).mark v := rfl

theorem Memo.add_map (m : Memo ν A) (v : ν) (a : A) : (m.add v a).map f = (m.map f).add v (f a) := by
  simp only [Memo.map, Memo.add, Memo.mk.injEq, true_and]
  funext x
  by_cases same : x = v
  · subst same
    simp
  · simp [same]

theorem Memo.settle_map (m : Memo ν A) (v : ν) (a : A) :
    (m.settle v a).map f = (m.map f).settle v (f a) := by
  simp only [Memo.map, Memo.settle, Memo.mk.injEq, and_true, true_and]
  funext x
  by_cases same : x = v
  · subst same
    simp
  · simp [same]

/-- Control does not look at the cells, so a homomorphism carries runs to runs. -/
theorem Perform.map (run : Perform g m v acts trace m') :
    Perform (g.map f) (m.map f) v acts (trace.map (Event.map f)) (m'.map f) := by
  induction run with
  | nil => exact .nil _ _
  | touch _ ih => exact .touch ih
  | @seen m m' v w acts trace marked _ ih =>
    rw [Memo.add_map, ← Memo.total_map] at ih
    rw [List.map_cons, Event.map, ← Memo.total_map]
    exact .seen (m := m.map f) marked ih
  | @idle m m' v w acts trace fresh idle _ ih =>
    rw [Memo.add_map, Memo.mark_map, map_zero] at ih
    rw [List.map_cons, List.map_cons, Event.map, Event.map, map_zero]
    exact .idle (g := g.map f) (m := m.map f) fresh idle ih
  | @enter m m₁ m' v w acts inner trace fresh busy _ _ innerIh restIh =>
    rw [Memo.add_map, ← Memo.total_map, Memo.settle_map] at restIh
    rw [Memo.mark_map] at innerIh
    rw [List.map_cons, List.map_append, List.map_cons, Event.map, Event.map, ← Memo.total_map,
      Memo.settle_map]
    exact .enter (g := g.map f) (m := m.map f) fresh busy innerIh restIh

theorem Visit.map (call : Visit g m w trace m' a) :
    Visit (g.map f) (m.map f) w (trace.map (Event.map f)) (m'.map f) (f a) := by
  cases call with
  | seen marked =>
    rw [List.map_cons, List.map_nil, Event.map, ← Memo.total_map]
    exact .seen (g := g.map f) (m := m.map f) marked
  | idle fresh idle =>
    rw [List.map_cons, List.map_cons, List.map_nil, Event.map, Event.map, map_zero, Memo.mark_map]
    exact .idle (g := g.map f) (m := m.map f) fresh idle
  | enter fresh busy run =>
    rw [List.map_cons, List.map_append, List.map_cons, List.map_nil, Event.map, Event.map,
      ← Memo.total_map, Memo.settle_map]
    exact .enter (g := g.map f) (m := m.map f) fresh busy (run.map f)

theorem Visits.map (calls : Visits g m ws trace m') :
    Visits (g.map f) (m.map f) ws (trace.map (Event.map f)) (m'.map f) := by
  induction calls with
  | nil => exact .nil _
  | cons call _ ih =>
    rw [List.map_append]
    exact .cons (call.map f) ih

end Map

end Phat.DepthFirst
