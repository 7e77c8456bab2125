import Mathlib.Data.Multiset.AddSub
import Mathlib.Logic.Function.Basic

/-! Arcs between nodes, numbered in the order they are made, with their weights and the
lists of arcs at each node. Adding a pair of nodes raises the weight of the arc between them
or makes that arc; what results counts the pairs added. -/
namespace Phat.Adjacency
variable {κ : Type}

/-- `crossing` lists the arcs that are no loops. -/
structure Net (κ : Type) where
  next : Nat
  tail : Nat → κ
  head : Nat → κ
  weight : Nat → Int
  leaving : κ → List Nat
  entering : κ → List Nat
  crossing : List Nat

namespace Net
variable [DecidableEq κ]

def find (net : Net κ) (p c : κ) : Option Nat :=
  (net.leaving p).find? fun arc => net.head arc = c

def bump (net : Net κ) (arc : Nat) : Net κ :=
  { net with weight := Function.update net.weight arc (net.weight arc + 1) }

def make (net : Net κ) (p c : κ) : Net κ where
  next := net.next + 1
  tail := Function.update net.tail net.next p
  head := Function.update net.head net.next c
  weight := Function.update net.weight net.next 1
  leaving := Function.update net.leaving p (net.next :: net.leaving p)
  entering := Function.update net.entering c (net.next :: net.entering c)
  crossing := if p = c then net.crossing else net.crossing ++ [net.next]

def add (net : Net κ) (p c : κ) : Net κ :=
  match net.find p c with
  | some arc => net.bump arc
  | none => net.make p c

/-- A list without repetition of the arcs with a property. -/
structure Lists (net : Net κ) (list : List Nat) (has : Nat → Prop) : Prop where
  nodup : list.Nodup
  mem : ∀ arc, arc ∈ list ↔ arc < net.next ∧ has arc

/-- The arcs are those between the pairs, and their weights the numbers of pairs. -/
structure Counts (net : Net κ) (pairs : Multiset (κ × κ)) : Prop where
  weight : ∀ arc < net.next, net.weight arc = pairs.count (net.tail arc, net.head arc)
  joined : ∀ p c, (p, c) ∈ pairs ↔ ∃ arc < net.next, net.tail arc = p ∧ net.head arc = c
  single : ∀ arc < net.next, ∀ other < net.next, net.tail arc = net.tail other →
    net.head arc = net.head other → arc = other
  leaving : ∀ p, net.Lists (net.leaving p) fun arc => net.tail arc = p
  entering : ∀ c, net.Lists (net.entering c) fun arc => net.head arc = c
  crossing : net.Lists net.crossing fun arc => net.tail arc ≠ net.head arc

section Counts
variable {net : Net κ} {pairs : Multiset (κ × κ)} {p c : κ} {arc : Nat} {list : List Nat}
  {has : Nat → Prop}

theorem counts_empty (next : net.next = 0) (leaving : ∀ p, net.leaving p = [])
    (entering : ∀ c, net.entering c = []) (crossing : net.crossing = []) : net.Counts 0 := by
  have empty : ∀ list has, list = [] → net.Lists list has := by
    rintro _ has rfl
    refine ⟨List.nodup_nil, fun arc => iff_of_false List.not_mem_nil fun present => ?_⟩
    rw [next] at present
    exact Nat.not_lt_zero _ present.1
  constructor
  · intro arc present
    rw [next] at present
    exact absurd present (Nat.not_lt_zero _)
  · intro p c
    refine iff_of_false (Multiset.notMem_zero _) ?_
    rintro ⟨arc, present, _⟩
    rw [next] at present
    exact Nat.not_lt_zero _ present
  · intro arc present
    rw [next] at present
    exact absurd present (Nat.not_lt_zero _)
  · exact fun p => empty _ _ (leaving p)
  · exact fun c => empty _ _ (entering c)
  · exact empty _ _ crossing

theorem find_some (found : net.find p c = some arc) : arc ∈ net.leaving p ∧ net.head arc = c :=
  ⟨List.mem_of_find?_eq_some found, by simpa using List.find?_some found⟩

theorem find_none (missing : net.find p c = none) (member : arc ∈ net.leaving p) :
    net.head arc ≠ c := by
  have other := List.find?_eq_none.mp missing arc member
  simpa using other

theorem counts_bump (counts : net.Counts pairs) (found : net.find p c = some arc) :
    (net.bump arc).Counts (pairs + {(p, c)}) := by
  obtain ⟨member, head⟩ := find_some found
  obtain ⟨present, tail⟩ := ((counts.leaving p).mem arc).mp member
  constructor
  · intro other there
    rw [bump, Multiset.count_add, Multiset.count_singleton]
    simp only
    by_cases here : other = arc
    · rw [here, Function.update_self, tail, head, if_pos rfl, counts.weight arc present, tail, head]
      simp
    · have apart : (net.tail other, net.head other) ≠ (p, c) := by
        intro same
        rw [Prod.mk.injEq] at same
        apply here
        apply counts.single other there arc present
        · rw [same.1, tail]
        · rw [same.2, head]
      rw [Function.update_of_ne here, if_neg apart, Nat.add_zero, counts.weight other there]
  · intro q d
    rw [Multiset.mem_add, Multiset.mem_singleton, Prod.mk.injEq, counts.joined]
    constructor
    · rintro (joined | ⟨rfl, rfl⟩)
      · exact joined
      · exact ⟨arc, present, tail, head⟩
    · exact .inl
  · exact counts.single
  · exact fun q => ⟨(counts.leaving q).nodup, (counts.leaving q).mem⟩
  · exact fun d => ⟨(counts.entering d).nodup, (counts.entering d).mem⟩
  · exact ⟨counts.crossing.nodup, counts.crossing.mem⟩

omit [DecidableEq κ] in
/-- The new arc is in no list yet. -/
theorem Lists.fresh (lists : net.Lists list has) : net.next ∉ list := by
  intro member
  exact absurd ((lists.mem _).mp member).1 (lt_irrefl _)

theorem Lists.cons {has' : Nat → Prop} (lists : net.Lists list has)
    (kept : ∀ arc < net.next, has' arc ↔ has arc) (new : has' net.next) :
    (net.make p c).Lists (net.next :: list) has' := by
  constructor
  · exact List.nodup_cons.mpr ⟨lists.fresh, lists.nodup⟩
  · intro arc
    rw [List.mem_cons, lists.mem]
    change _ ↔ arc < net.next + 1 ∧ _
    constructor
    · rintro (rfl | ⟨before, holds⟩)
      · exact ⟨Nat.lt_succ_self _, new⟩
      · exact ⟨before.trans (Nat.lt_succ_self _), (kept arc before).mpr holds⟩
    · rintro ⟨present, holds⟩
      rcases Nat.lt_succ_iff_lt_or_eq.mp present with before | rfl
      · exact .inr ⟨before, (kept arc before).mp holds⟩
      · exact .inl rfl

theorem Lists.skip {has' : Nat → Prop} (lists : net.Lists list has)
    (kept : ∀ arc < net.next, has' arc ↔ has arc) (new : ¬ has' net.next) :
    (net.make p c).Lists list has' := by
  constructor
  · exact lists.nodup
  · intro arc
    rw [lists.mem]
    change _ ↔ arc < net.next + 1 ∧ _
    constructor
    · rintro ⟨before, holds⟩
      exact ⟨before.trans (Nat.lt_succ_self _), (kept arc before).mpr holds⟩
    · rintro ⟨present, holds⟩
      rcases Nat.lt_succ_iff_lt_or_eq.mp present with before | rfl
      · exact ⟨before, (kept arc before).mp holds⟩
      · exact absurd holds new

theorem counts_make (counts : net.Counts pairs) (missing : net.find p c = none) :
    (net.make p c).Counts (pairs + {(p, c)}) := by
  have tail : ∀ arc < net.next, (net.make p c).tail arc = net.tail arc :=
    fun arc before => Function.update_of_ne (Nat.ne_of_lt before) _ _
  have head : ∀ arc < net.next, (net.make p c).head arc = net.head arc :=
    fun arc before => Function.update_of_ne (Nat.ne_of_lt before) _ _
  have newTail : (net.make p c).tail net.next = p := Function.update_self _ _ _
  have newHead : (net.make p c).head net.next = c := Function.update_self _ _ _
  -- no arc there is joins the two nodes
  have apart : ∀ arc < net.next, ¬ (net.tail arc = p ∧ net.head arc = c) := by
    rintro arc before ⟨leads, ends⟩
    exact find_none missing (((counts.leaving p).mem arc).mpr ⟨before, leads⟩) ends
  have unpaired : (p, c) ∉ pairs := by
    intro member
    obtain ⟨arc, before, joined⟩ := (counts.joined p c).mp member
    exact apart arc before joined
  have cases' : ∀ arc < net.next + 1, arc < net.next ∨ arc = net.next :=
    fun arc present => Nat.lt_succ_iff_lt_or_eq.mp present
  constructor
  · intro arc present
    rw [Multiset.count_add, Multiset.count_singleton]
    rcases cases' arc present with before | rfl
    · have other : (net.tail arc, net.head arc) ≠ (p, c) := by
        intro same
        rw [Prod.mk.injEq] at same
        exact apart arc before same
      rw [tail arc before, head arc before, if_neg other, Nat.add_zero, ← counts.weight arc before]
      exact Function.update_of_ne (Nat.ne_of_lt before) _ _
    · rw [newTail, newHead, if_pos rfl, Multiset.count_eq_zero_of_notMem unpaired]
      exact Function.update_self _ _ _
  · intro q d
    rw [Multiset.mem_add, Multiset.mem_singleton, Prod.mk.injEq, counts.joined]
    constructor
    · rintro (⟨arc, before, leads, ends⟩ | ⟨rfl, rfl⟩)
      · exact ⟨arc, before.trans (Nat.lt_succ_self _), (tail arc before).trans leads,
          (head arc before).trans ends⟩
      · exact ⟨net.next, Nat.lt_succ_self _, newTail, newHead⟩
    · rintro ⟨arc, present, leads, ends⟩
      rcases cases' arc present with before | rfl
      · rw [tail arc before] at leads
        rw [head arc before] at ends
        exact .inl ⟨arc, before, leads, ends⟩
      · exact .inr ⟨leads.symm.trans newTail, ends.symm.trans newHead⟩
  · intro arc present other present' tails heads
    rcases cases' arc present with before | rfl
    · rcases cases' other present' with before' | rfl
      · rw [tail arc before, tail other before'] at tails
        rw [head arc before, head other before'] at heads
        exact counts.single arc before other before' tails heads
      · rw [tail arc before, newTail] at tails
        rw [head arc before, newHead] at heads
        exact absurd ⟨tails, heads⟩ (apart arc before)
    · rcases cases' other present' with before' | rfl
      · rw [tail other before', newTail] at tails
        rw [head other before', newHead] at heads
        exact absurd ⟨tails.symm, heads.symm⟩ (apart other before')
      · rfl
  · intro q
    have kept : ∀ arc < net.next, (net.make p c).tail arc = q ↔ net.tail arc = q := by
      intro arc before
      rw [tail arc before]
    by_cases here : q = p
    · subst here
      have list : (net.make q c).leaving q = net.next :: net.leaving q := Function.update_self _ _ _
      rw [list]
      exact (counts.leaving q).cons kept newTail
    · have list : (net.make p c).leaving q = net.leaving q := Function.update_of_ne here _ _
      rw [list]
      exact (counts.leaving q).skip kept fun same => here (same.symm.trans newTail)
  · intro d
    have kept : ∀ arc < net.next, (net.make p c).head arc = d ↔ net.head arc = d := by
      intro arc before
      rw [head arc before]
    by_cases here : d = c
    · subst here
      have list : (net.make p d).entering d = net.next :: net.entering d := Function.update_self _ _ _
      rw [list]
      exact (counts.entering d).cons kept newHead
    · have list : (net.make p c).entering d = net.entering d := Function.update_of_ne here _ _
      rw [list]
      exact (counts.entering d).skip kept fun same => here (same.symm.trans newHead)
  · have kept : ∀ arc < net.next, (net.make p c).tail arc ≠ (net.make p c).head arc ↔
        net.tail arc ≠ net.head arc := by
      intro arc before
      rw [tail arc before, head arc before]
    by_cases loop : p = c
    · have list : (net.make p c).crossing = net.crossing := if_pos loop
      rw [list]
      refine counts.crossing.skip kept fun differ => differ ?_
      rw [newTail, newHead, loop]
    · have list : (net.make p c).crossing = net.crossing ++ [net.next] := if_neg loop
      have differ : (net.make p c).tail net.next ≠ (net.make p c).head net.next := by
        rw [newTail, newHead]
        exact loop
      have front : (net.make p c).Lists (net.next :: net.crossing) _ :=
        counts.crossing.cons kept differ
      have moved := List.perm_append_singleton net.next net.crossing
      rw [list]
      exact ⟨moved.nodup_iff.mpr front.nodup, fun arc => moved.mem_iff.trans (front.mem arc)⟩

theorem Counts.add (counts : net.Counts pairs) (p c : κ) :
    (net.add p c).Counts (pairs + {(p, c)}) := by
  rw [Net.add]
  cases found : net.find p c with
  | some arc => exact counts_bump counts found
  | none => exact counts_make counts found

end Counts

end Net

end Phat.Adjacency
