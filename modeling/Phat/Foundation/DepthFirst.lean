import Mathlib.Algebra.BigOperators.Group.List.Basic
import Mathlib.Algebra.Group.Hom.Defs
import Mathlib.Data.Finset.Card
import Mathlib.Logic.Function.Basic
import Mathlib.Logic.Relation

/-! Memoised depth-first traversal of an arbitrary directed graph, as a relation.
A node is marked before its actions are performed, every call returns the sum of
two memo cells, and a call on a marked node returns whatever the cells hold at
that moment. The cells live in an arbitrary additive type, so one derivation can
be read over several of them. -/
namespace Phat.DepthFirst
variable {ν ι A B : Type}

/-- What a node does in order: an effect outside the graph, or a call. -/
inductive Act (ν ι : Type) where
  | touch (item : ι)
  | follow (target : ν)

inductive Event (ν ι A : Type) where
  | enter (node : ν)
  | touch (item : ι)
  | ret (node : ν) (value : A)

/-- An idle node is marked and left at once, with neither cell assigned. -/
structure Graph (ν ι A : Type) where
  acts : ν → List (Act ν ι)
  own : ν → A
  idle : ν → Prop
  idle_acts : ∀ v, idle v → acts v = []

def Act.target : Act ν ι → Option ν
  | .touch _ => none
  | .follow w => some w

/-- The calls among a list of actions, in order and with repetitions. -/
def targets (acts : List (Act ν ι)) : List ν := acts.filterMap Act.target

@[simp] theorem targets_nil : targets ([] : List (Act ν ι)) = [] := rfl

@[simp] theorem targets_touch (i : ι) (acts : List (Act ν ι)) :
    targets (.touch i :: acts) = targets acts := rfl

@[simp] theorem targets_follow (w : ν) (acts : List (Act ν ι)) :
    targets (.follow w :: acts) = w :: targets acts := rfl

@[simp] theorem targets_append (left right : List (Act ν ι)) :
    targets (left ++ right) = targets left ++ targets right := List.filterMap_append

def Graph.Edge (g : Graph ν ι A) (v w : ν) : Prop := w ∈ targets (g.acts v)

abbrev Graph.Reach (g : Graph ν ι A) : ν → ν → Prop := Relation.ReflTransGen g.Edge

def Event.entered : Event ν ι A → Option ν
  | .enter v => some v
  | _ => none

/-- The nodes a trace processes, in order. -/
def entered (trace : List (Event ν ι A)) : List ν := trace.filterMap Event.entered

@[simp] theorem entered_nil : entered ([] : List (Event ν ι A)) = [] := rfl

@[simp] theorem entered_enter (v : ν) (trace : List (Event ν ι A)) :
    entered (.enter v :: trace) = v :: entered trace := rfl

@[simp] theorem entered_touch (i : ι) (trace : List (Event ν ι A)) :
    entered (.touch i :: trace) = entered trace := rfl

@[simp] theorem entered_ret (v : ν) (a : A) (trace : List (Event ν ι A)) :
    entered (.ret v a :: trace) = entered trace := rfl

@[simp] theorem entered_append (left right : List (Event ν ι A)) :
    entered (left ++ right) = entered left ++ entered right := List.filterMap_append

structure Memo (ν A : Type) where
  seen : ν → Bool
  own : ν → A
  below : ν → A

namespace Memo

def total [Add A] (m : Memo ν A) (v : ν) : A := m.own v + m.below v

variable [DecidableEq ν]

def mark (m : Memo ν A) (v : ν) : Memo ν A := { m with seen := Function.update m.seen v true }

def add [Add A] (m : Memo ν A) (v : ν) (a : A) : Memo ν A :=
  { m with below := Function.update m.below v (m.below v + a) }

def settle (m : Memo ν A) (v : ν) (a : A) : Memo ν A :=
  { m with own := Function.update m.own v a }

@[simp] theorem seen_mark (m : Memo ν A) (v w : ν) :
    (m.mark v).seen w = true ↔ w = v ∨ m.seen w = true := by
  by_cases same : w = v
  · simp [mark, same]
  · simp [mark, same]

@[simp] theorem own_mark (m : Memo ν A) (v : ν) : (m.mark v).own = m.own := rfl

@[simp] theorem below_mark (m : Memo ν A) (v : ν) : (m.mark v).below = m.below := rfl

@[simp] theorem seen_add [Add A] (m : Memo ν A) (v : ν) (a : A) : (m.add v a).seen = m.seen := rfl

@[simp] theorem own_add [Add A] (m : Memo ν A) (v : ν) (a : A) : (m.add v a).own = m.own := rfl

@[simp] theorem below_add_self [Add A] (m : Memo ν A) (v : ν) (a : A) :
    (m.add v a).below v = m.below v + a := by simp [add]

theorem below_add_of_ne [Add A] (m : Memo ν A) {v w : ν} (a : A) (ne : w ≠ v) :
    (m.add v a).below w = m.below w := by simp [add, ne]

@[simp] theorem seen_settle (m : Memo ν A) (v : ν) (a : A) : (m.settle v a).seen = m.seen := rfl

@[simp] theorem below_settle (m : Memo ν A) (v : ν) (a : A) : (m.settle v a).below = m.below := rfl

@[simp] theorem own_settle_self (m : Memo ν A) (v : ν) (a : A) : (m.settle v a).own v = a := by
  simp [settle]

theorem own_settle_of_ne (m : Memo ν A) {v w : ν} (a : A) (ne : w ≠ v) :
    (m.settle v a).own w = m.own w := by simp [settle, ne]

end Memo

variable [DecidableEq ν]

/-- `Perform g m v acts trace m'`: the remaining actions of the marked node `v`,
started with memo `m`, leave memo `m'`. -/
inductive Perform [Add A] [Zero A] (g : Graph ν ι A) :
    Memo ν A → ν → List (Act ν ι) → List (Event ν ι A) → Memo ν A → Prop where
  | nil (m : Memo ν A) (v : ν) : Perform g m v [] [] m
  | touch {m m' : Memo ν A} {v : ν} {i : ι} {acts : List (Act ν ι)}
      {trace : List (Event ν ι A)} : Perform g m v acts trace m' →
      Perform g m v (.touch i :: acts) (.touch i :: trace) m'
  | seen {m m' : Memo ν A} {v w : ν} {acts : List (Act ν ι)} {trace : List (Event ν ι A)} :
      m.seen w = true → Perform g (m.add v (m.total w)) v acts trace m' →
      Perform g m v (.follow w :: acts) (.ret w (m.total w) :: trace) m'
  | idle {m m' : Memo ν A} {v w : ν} {acts : List (Act ν ι)} {trace : List (Event ν ι A)} :
      m.seen w = false → g.idle w → Perform g ((m.mark w).add v 0) v acts trace m' →
      Perform g m v (.follow w :: acts) (.enter w :: .ret w 0 :: trace) m'
  | enter {m m₁ m' : Memo ν A} {v w : ν} {acts : List (Act ν ι)}
      {inner trace : List (Event ν ι A)} : m.seen w = false → ¬ g.idle w →
      Perform g (m.mark w) w (g.acts w) inner m₁ →
      Perform g ((m₁.settle w (g.own w)).add v ((m₁.settle w (g.own w)).total w)) v acts trace m' →
      Perform g m v (.follow w :: acts)
        (.enter w :: (inner ++ .ret w ((m₁.settle w (g.own w)).total w) :: trace)) m'

/-- One outermost call. -/
inductive Visit [Add A] [Zero A] (g : Graph ν ι A) :
    Memo ν A → ν → List (Event ν ι A) → Memo ν A → A → Prop where
  | seen : m.seen w = true → Visit g m w [.ret w (m.total w)] m (m.total w)
  | idle : m.seen w = false → g.idle w → Visit g m w [.enter w, .ret w 0] (m.mark w) 0
  | enter {m m₁ : Memo ν A} {w : ν} {inner : List (Event ν ι A)} : m.seen w = false →
      ¬ g.idle w → Perform g (m.mark w) w (g.acts w) inner m₁ →
      Visit g m w (.enter w :: (inner ++ [.ret w ((m₁.settle w (g.own w)).total w)]))
        (m₁.settle w (g.own w)) ((m₁.settle w (g.own w)).total w)

/-- Outermost calls one after the other. -/
inductive Visits [Add A] [Zero A] (g : Graph ν ι A) :
    Memo ν A → List ν → List (Event ν ι A) → Memo ν A → Prop where
  | nil (m) : Visits g m [] [] m
  | cons {m m₁ m' : Memo ν A} {w : ν} {ws : List ν} {a : A} {first rest : List (Event ν ι A)} :
      Visit g m w first m₁ a → Visits g m₁ ws rest m' →
      Visits g m (w :: ws) (first ++ rest) m'

section Shape
variable [Add A] [Zero A] {g : Graph ν ι A} {m m' : Memo ν A} {v w : ν}
  {acts : List (Act ν ι)} {trace : List (Event ν ι A)} {a : A}

/-- A call inside a node is an outermost call whose value is then added. -/
theorem Visit.perform (call : Visit g m w first m₁ a)
    (rest : Perform g (m₁.add v a) v acts trace m') :
    Perform g m v (.follow w :: acts) (first ++ trace) m' := by
  cases call with
  | seen marked => exact .seen marked rest
  | idle fresh idle => exact .idle fresh idle rest
  | enter fresh busy inner =>
    simpa only [List.cons_append, List.append_assoc, List.nil_append] using
      Perform.enter fresh busy inner rest

theorem Perform.follow_inv (run : Perform g m v (.follow w :: acts) trace m') :
    ∃ first rest m₁ a, Visit g m w first m₁ a ∧ Perform g (m₁.add v a) v acts rest m' ∧
      trace = first ++ rest := by
  cases run with
  | seen marked rest => exact ⟨_, _, _, _, .seen marked, rest, rfl⟩
  | idle fresh idle rest => exact ⟨_, _, _, _, .idle fresh idle, rest, rfl⟩
  | enter fresh busy inner rest =>
    exact ⟨_, _, _, _, .enter fresh busy inner, rest, by simp⟩

/-- Marks are only ever added, namely to the nodes the trace enters. -/
theorem Perform.seen_iff (run : Perform g m v acts trace m') (x : ν) :
    m'.seen x = true ↔ m.seen x = true ∨ x ∈ entered trace := by
  induction run with
  | nil => simp
  | touch _ ih => simpa using ih
  | seen _ _ ih => simpa using ih
  | idle _ _ _ ih =>
    simp only [ih, Memo.seen_add, Memo.seen_mark, entered_enter, entered_ret, List.mem_cons]
    rw [or_assoc]
    exact or_left_comm
  | enter _ _ _ _ inner ih =>
    simp only [ih, inner, Memo.seen_add, Memo.seen_settle, Memo.seen_mark, entered_enter,
      entered_append, entered_ret, List.mem_cons, List.mem_append]
    rw [or_assoc, or_assoc]
    exact or_left_comm

theorem Perform.entered_fresh (run : Perform g m v acts trace m') :
    (entered trace).Nodup ∧ ∀ x ∈ entered trace, m.seen x = false := by
  induction run with
  | nil => simp
  | touch _ ih => simpa using ih
  | seen _ _ ih => simpa using ih
  | @idle m m' v w acts trace fresh _ _ ih =>
    obtain ⟨distinct, unmarked⟩ := ih
    have later : ∀ x ∈ entered trace, x ≠ w ∧ m.seen x = false := by
      intro x member
      have clear := unmarked x member
      rw [← Bool.not_eq_true, Memo.seen_add, Memo.seen_mark, not_or, Bool.not_eq_true] at clear
      exact clear
    refine ⟨?_, ?_⟩
    · simpa using ⟨fun member => (later w member).1 rfl, distinct⟩
    · intro x member
      rcases List.mem_cons.mp member with rfl | member
      · exact fresh
      · exact (later x member).2
  | @enter m m₁ m' v w acts inner trace fresh _ call _ innerIh restIh =>
    obtain ⟨innerDistinct, innerClear⟩ := innerIh
    obtain ⟨restDistinct, restClear⟩ := restIh
    have insideClear : ∀ x ∈ entered inner, x ≠ w ∧ m.seen x = false := by
      intro x member
      have clear := innerClear x member
      rw [← Bool.not_eq_true, Memo.seen_mark, not_or, Bool.not_eq_true] at clear
      exact clear
    have laterClear : ∀ x ∈ entered trace, x ≠ w ∧ m.seen x = false ∧ x ∉ entered inner := by
      intro x member
      have clear := restClear x member
      rw [← Bool.not_eq_true, Memo.seen_add, Memo.seen_settle, call.seen_iff, Memo.seen_mark,
        not_or, not_or, Bool.not_eq_true] at clear
      exact ⟨clear.1.1, clear.1.2, clear.2⟩
    simp only [entered_enter, entered_append, entered_ret, List.nodup_cons, List.mem_append,
      List.nodup_append, List.mem_cons]
    refine ⟨⟨?_, innerDistinct, restDistinct, ?_⟩, ?_⟩
    · rintro (member | member)
      · exact (insideClear w member).1 rfl
      · exact (laterClear w member).1 rfl
    · rintro x inside y later rfl
      exact (laterClear x later).2.2 inside
    · rintro x (rfl | inside | later)
      · exact fresh
      · exact (insideClear x inside).2
      · exact (laterClear x later).2.1

/-- Cells of a marked node other than the running one are never touched. -/
theorem Perform.frame (run : Perform g m v acts trace m') {x : ν}
    (marked : m.seen x = true) (other : x ≠ v) :
    m'.own x = m.own x ∧ m'.below x = m.below x := by
  induction run with
  | nil => exact ⟨rfl, rfl⟩
  | touch _ ih => exact ih marked other
  | seen _ _ ih =>
    obtain ⟨own, below⟩ := ih marked other
    exact ⟨own, below.trans (Memo.below_add_of_ne _ _ other)⟩
  | idle _ _ _ ih =>
    obtain ⟨own, below⟩ := ih (by simp [marked]) other
    exact ⟨own, below.trans (Memo.below_add_of_ne _ _ other)⟩
  | @enter m m₁ m' v w acts inner trace fresh _ call _ innerIh restIh =>
    have apart : x ≠ w := by rintro rfl; simp [marked] at fresh
    obtain ⟨innerOwn, innerBelow⟩ := innerIh (by simp [marked]) apart
    obtain ⟨own, below⟩ := restIh (by simp [call.seen_iff, marked]) other
    refine ⟨?_, ?_⟩
    · rw [own, Memo.own_add, Memo.own_settle_of_ne _ _ apart, innerOwn, Memo.own_mark]
    · rw [below, Memo.below_add_of_ne _ _ other, Memo.below_settle, innerBelow, Memo.below_mark]

/-- Cells of nodes that stay unmarked are never touched either. -/
theorem Perform.frame_unseen (run : Perform g m v acts trace m') {x : ν}
    (clear : m'.seen x = false) (other : x ≠ v) :
    m'.own x = m.own x ∧ m'.below x = m.below x := by
  induction run with
  | nil => exact ⟨rfl, rfl⟩
  | touch _ ih => exact ih clear other
  | seen _ _ ih =>
    obtain ⟨own, below⟩ := ih clear other
    exact ⟨own, below.trans (Memo.below_add_of_ne _ _ other)⟩
  | idle _ _ _ ih =>
    obtain ⟨own, below⟩ := ih clear other
    exact ⟨own, below.trans (Memo.below_add_of_ne _ _ other)⟩
  | @enter m m₁ m' v w acts inner trace fresh _ call rest innerIh restIh =>
    have unmarked : m₁.seen x = false := by
      rw [← Bool.not_eq_true] at clear ⊢
      exact fun marked => clear ((rest.seen_iff x).mpr (.inl marked))
    have apart : x ≠ w := by
      rintro rfl
      rw [← Bool.not_eq_true, call.seen_iff] at unmarked
      simp at unmarked
    obtain ⟨innerOwn, innerBelow⟩ := innerIh unmarked apart
    obtain ⟨own, below⟩ := restIh clear other
    refine ⟨?_, ?_⟩
    · rw [own, Memo.own_add, Memo.own_settle_of_ne _ _ apart, innerOwn, Memo.own_mark]
    · rw [below, Memo.below_add_of_ne _ _ other, Memo.below_settle, innerBelow, Memo.below_mark]

end Shape

end Phat.DepthFirst
