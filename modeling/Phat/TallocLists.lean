import Mathlib.Data.List.Induction
import Mathlib.Data.List.Nodup
import Phat.Foundation.Links
import Phat.Talloc

/-! The lists of chunks: what taking a chunk out of one does, and putting one in front. -/
namespace Phat.Talloc

section Row
variable {m m' : Heap} {parent prev start : Option ChunkRef} {p tc b : ChunkRef}
  {l before after : List ChunkRef}

/-- A list of chunks: linked both ways, the first with these pointers to its parent and back. -/
def Row (m : Heap) : Option ChunkRef → Option ChunkRef → Option ChunkRef → List ChunkRef → Prop
  | _, _, start, [] => start = none
  | parent, prev, start, a :: rest =>
    start = some a ∧ m.parent a = parent ∧ m.prev a = prev ∧ Row m none (some a) (m.next a) rest

theorem Row.linked (row : Row m parent prev start l) : Links.Linked m.next start l := by
  induction l generalizing parent prev start with
  | nil => exact row
  | cons a rest ih => exact ⟨row.1, ih row.2.2.2⟩

theorem Row.congr (row : Row m parent prev start l)
    (same : ∀ a ∈ l, m'.next a = m.next a ∧ m'.prev a = m.prev a ∧ m'.parent a = m.parent a) :
    Row m' parent prev start l := by
  induction l generalizing parent prev start with
  | nil => exact row
  | cons a rest ih =>
    obtain ⟨next, back, up⟩ := same a List.mem_cons_self
    refine ⟨row.1, up.trans row.2.1, back.trans row.2.2.1, ?_⟩
    rw [next]
    exact ih row.2.2.2 fun c member => same c (List.mem_cons_of_mem _ member)

/-- The first chunk has other pointers to its parent and back. -/
theorem Row.rehead {parent' prev' : Option ChunkRef} (row : Row m parent prev start l)
    (first : ∀ a, start = some a → m'.parent a = parent' ∧ m'.prev a = prev')
    (next : ∀ a ∈ l, m'.next a = m.next a)
    (rest : ∀ a ∈ l, start ≠ some a → m'.prev a = m.prev a ∧ m'.parent a = m.parent a) :
    Row m' parent' prev' start l := by
  have distinct := row.linked.nodup
  cases l with
  | nil => exact row
  | cons a l =>
    obtain ⟨rfl, _, _, row⟩ := row
    obtain ⟨up, back⟩ := first a rfl
    refine ⟨rfl, up, back, ?_⟩
    rw [next a List.mem_cons_self]
    refine row.congr fun c member => ⟨next c (List.mem_cons_of_mem _ member), ?_⟩
    refine rest c (List.mem_cons_of_mem _ member) fun same => ?_
    cases same
    exact (List.nodup_cons.mp distinct).1 member

theorem Row.start_mem (row : Row m parent prev start l) {a : ChunkRef} (first : start = some a) :
    a ∈ l := by
  subst first
  cases l with
  | nil => cases row
  | cons c l =>
    cases row.1
    exact List.mem_cons_self

theorem Row.head_next (row : Row m parent prev start (a :: l)) : m.next a = l.head? := by
  obtain ⟨_, _, _, row⟩ := row
  cases l with
  | nil => exact row
  | cons b l => exact row.1

theorem Row.first_parent (row : Row m parent prev start l) {a : ChunkRef}
    (first : start = some a) : m.parent a = parent := by
  subst first
  cases l with
  | nil => cases row
  | cons c l =>
    cases row.1
    exact row.2.1

/-- The pointers of a chunk that is not the first. -/
theorem Row.inner (row : Row m parent prev start (before ++ b :: tc :: after)) :
    m.next b = some tc ∧ m.parent tc = none ∧ m.prev tc = some b ∧ m.next tc = after.head? := by
  induction before generalizing parent prev start with
  | nil =>
    obtain ⟨_, _, _, row⟩ := row
    exact ⟨row.1, row.2.1, row.2.2.1, row.head_next⟩
  | cons c before ih => exact ih row.2.2.2

/-- From any chunk the way back leads to the first. -/
theorem Row.firstOf (row : Row m parent none start (before ++ tc :: after)) {fuel : Nat}
    (enough : before.length < fuel) : m.firstOf fuel tc = start := by
  induction before using List.reverseRecOn generalizing tc after fuel with
  | nil =>
    obtain ⟨rfl, _, back, _⟩ := row
    obtain ⟨fuel, rfl⟩ : ∃ f, fuel = f + 1 := Nat.exists_eq_add_one.mpr enough
    rw [Heap.firstOf, back]
  | append_singleton before b ih =>
    rw [List.append_assoc, List.singleton_append] at row
    rw [List.length_append, List.length_singleton] at enough
    obtain ⟨fuel, rfl⟩ : ∃ f, fuel = f + 1 := Nat.exists_eq_add_one.mpr (by omega)
    rw [Heap.firstOf, row.inner.2.2.1]
    exact ih row (by omega)

theorem bypass_pointers (back : m.prev tc = some b) (apart : tc ≠ b) :
    (m.bypass tc).next = Function.update m.next b (m.next tc) ∧
      (∀ a, (m.bypass tc).prev a = if m.next tc = some a then some b else m.prev a) ∧
      (m.bypass tc).parent = m.parent ∧ (m.bypass tc).child = m.child ∧
      (m.bypass tc).count = m.count := by
  have kept : (m.setNext b (m.next tc)).next tc = m.next tc := Function.update_of_ne apart ..
  rw [Heap.bypass, back]
  simp only [kept]
  cases m.next tc with
  | none => exact ⟨rfl, fun _ => rfl, rfl, rfl, rfl⟩
  | some c =>
    refine ⟨rfl, fun a => ?_, rfl, rfl, rfl⟩
    simp only [Heap.setPrev, Heap.setNext, Function.update_apply, Option.some_inj, eq_comm (a := c)]
    exact congrArg (if a = c then · else m.prev a) back

theorem Row.bypass (row : Row m parent prev start (before ++ b :: tc :: after)) :
    Row (m.bypass tc) parent prev start (before ++ b :: after) := by
  have distinct := row.linked.nodup
  obtain ⟨onward, _, back, next⟩ := row.inner
  have apart : tc ≠ b := by
    rintro rfl
    have rest := (List.nodup_append.mp distinct).2.1
    exact (List.nodup_cons.mp rest).1 List.mem_cons_self
  obtain ⟨nexts, prevs, parents, _, _⟩ := bypass_pointers back apart
  generalize m.bypass tc = m' at nexts prevs parents
  rw [next] at nexts prevs
  induction before generalizing parent prev start with
  | nil =>
    obtain ⟨here, up, behind, _, _, _, row⟩ := row
    rw [List.nil_append, List.nodup_cons, List.nodup_cons] at distinct
    obtain ⟨bOutside, _, rest⟩ := distinct
    refine ⟨here, by rw [parents, up], ?_, ?_⟩
    · rw [prevs, ← behind]
      refine if_neg fun first => bOutside (List.mem_cons_of_mem _ ?_)
      exact List.mem_of_head? first
    · rw [nexts, Function.update_self, ← next]
      have others : ∀ c ∈ after, m'.next c = m.next c := by
        intro c member
        rw [nexts]
        refine Function.update_of_ne ?_ ..
        rintro rfl
        exact bOutside (List.mem_cons_of_mem _ member)
      refine row.rehead (fun c first => ?_) others fun c member later => ?_
      · rw [prevs, parents, ← next, if_pos first]
        exact ⟨row.first_parent first, rfl⟩
      · rw [prevs, parents, ← next, if_neg later]
        exact ⟨rfl, rfl⟩
  | cons c before ih =>
    obtain ⟨here, up, behind, row⟩ := row
    rw [List.cons_append, List.nodup_cons, List.mem_append] at distinct
    obtain ⟨outside, rest⟩ := distinct
    refine ⟨here, by rw [parents, up], ?_, ?_⟩
    · rw [prevs, ← behind]
      refine if_neg fun first => outside (.inr ?_)
      exact List.mem_cons_of_mem _ (List.mem_cons_of_mem _ (List.mem_of_head? first))
    · have other : c ≠ b := by
        rintro rfl
        exact outside (.inr List.mem_cons_self)
      rw [nexts, Function.update_of_ne other]
      exact ih row rest

/-- Taking out the first chunk of a list. -/
theorem unlink_first (up : m.parent tc = some p) (here : m.child p = some tc)
    (apart : m.next tc ≠ some tc) :
    (m.unlink tc).next = Function.update m.next tc none ∧
      (∀ a, (m.unlink tc).prev a =
        if a = tc ∨ m.next tc = some a then none else m.prev a) ∧
      (∀ a, (m.unlink tc).parent a = if m.next tc = some a then some p else m.parent a) ∧
      (m.unlink tc).child = Function.update m.child p (m.next tc) ∧
      (m.unlink tc).count = m.count := by
  rw [Heap.unlink, up]
  cases next : m.next tc with
  | none =>
    have removed : m.listRemove p tc = ((m.setChild p none).setNext tc none).setPrev tc none := by
      simp [Heap.listRemove, here, next, Heap.setChild]
    have first : (m.listRemove p tc).child p = none := by
      rw [removed]
      exact Function.update_self ..
    simp only [first]
    rw [removed]
    refine ⟨rfl, fun a => ?_, fun a => ?_, rfl, rfl⟩
    · simp [Heap.setPrev, Heap.setNext, Heap.setChild, Function.update_apply]
    · rfl
  | some f =>
    have other : f ≠ tc := fun same => apart (next.trans (congrArg some same))
    have removed : m.listRemove p tc =
        (((m.setChild p (some f)).setPrev f none).setNext tc none).setPrev tc none := by
      simp [Heap.listRemove, here, next, Heap.setChild, Heap.setPrev, other]
    have first : (m.listRemove p tc).child p = some f := by
      rw [removed]
      exact Function.update_self ..
    simp only [first]
    rw [removed]
    refine ⟨rfl, fun a => ?_, fun a => ?_, rfl, rfl⟩
    · simp only [Heap.setParent, Heap.setPrev, Heap.setNext, Heap.setChild, Function.update_apply,
        Option.some_inj, eq_comm (a := f)]
      split_ifs <;> simp_all
    · simp only [Heap.setParent, Heap.setPrev, Heap.setNext, Heap.setChild, Function.update_apply,
        Option.some_inj, eq_comm (a := f)]

theorem Heap.count_reattach (q tc : ChunkRef) : (m.reattach q tc).count = m.count := by
  rw [Heap.reattach]
  cases first : (m.setParent tc (some q)).child q with
  | none =>
    simp only [Heap.listAdd, first]
    rfl
  | some f =>
    have kept : ((m.setParent tc (some q)).setParent f none).child q = some f := first
    simp only [Heap.listAdd, kept]
    rfl

/-- What the taking out of a chunk leaves alone. -/
structure Unlinked (m m' : Heap) (p : ChunkRef) (l : List ChunkRef) : Prop where
  next : ∀ a, a ∉ l → m'.next a = m.next a
  prev : ∀ a, a ∉ l → m'.prev a = m.prev a
  parent : ∀ a, a ∉ l → m'.parent a = m.parent a
  child : ∀ q, q ≠ p → m'.child q = m.child q
  count : m'.count = m.count

theorem Row.unlink (row : Row m (some p) none (m.child p) (before ++ tc :: after)) :
    Row (m.unlink tc) (some p) none ((m.unlink tc).child p) (before ++ after) ∧
      Unlinked m (m.unlink tc) p (before ++ tc :: after) := by
  have distinct := row.linked.nodup
  cases before using List.reverseRecOn with
  | nil =>
    obtain ⟨here, up, _, rest⟩ := row
    have fresh := (List.nodup_cons.mp distinct).1
    have apart : m.next tc ≠ some tc := fun same => fresh (rest.start_mem same)
    obtain ⟨nexts, prevs, parents, child, count⟩ := unlink_first up here apart
    generalize m.unlink tc = m' at *
    have ne : ∀ a ∈ after, a ≠ tc := fun a member same => fresh (same ▸ member)
    constructor
    · rw [child, Function.update_self, List.nil_append]
      refine rest.rehead (fun a first => ?_) (fun a member => ?_) fun a member later => ?_
      · rw [prevs, parents, if_pos first, if_pos (.inr first)]
        exact ⟨rfl, rfl⟩
      · rw [nexts, Function.update_of_ne (ne a member)]
      · rw [prevs, parents, if_neg later, if_neg (not_or.mpr ⟨ne a member, later⟩)]
        exact ⟨rfl, rfl⟩
    · rw [List.nil_append]
      have outside : ∀ a, a ∉ tc :: after → a ≠ tc ∧ m.next tc ≠ some a := fun a away =>
        ⟨fun same => away (same ▸ List.mem_cons_self),
          fun same => away (List.mem_cons_of_mem _ (rest.start_mem same))⟩
      refine ⟨fun a away => ?_, fun a away => ?_, fun a away => ?_, fun q other => ?_, count⟩
      · rw [nexts, Function.update_of_ne (outside a away).1]
      · rw [prevs, if_neg (not_or.mpr (outside a away))]
      · rw [parents, if_neg (outside a away).2]
      · rw [child, Function.update_of_ne other]
  | append_singleton before b =>
    rw [List.append_assoc, List.singleton_append] at row distinct
    obtain ⟨_, up, back, next⟩ := row.inner
    have apart : tc ≠ b := by
      rintro rfl
      have rest := (List.nodup_append.mp distinct).2.1
      exact (List.nodup_cons.mp rest).1 List.mem_cons_self
    obtain ⟨nexts, prevs, parents, child, count⟩ := bypass_pointers back apart
    have bypassed : m.unlink tc = m.bypass tc := by rw [Heap.unlink, up]
    rw [bypassed, List.append_assoc, List.singleton_append, List.append_assoc,
      List.singleton_append, child]
    refine ⟨row.bypass, fun a away => ?_, fun a away => ?_, fun a _ => congrFun parents a,
      fun q _ => congrFun child q, count⟩
    · rw [nexts, Function.update_of_ne]
      rintro rfl
      exact away (List.mem_append_right _ List.mem_cons_self)
    · rw [prevs, next]
      refine if_neg fun first => away (List.mem_append_right _ ?_)
      exact List.mem_cons_of_mem _ (List.mem_cons_of_mem _ (List.mem_of_head? first))

/-- A chunk is put in front of the children of another. -/
structure Pushed (m m' : Heap) (q tc : ChunkRef) : Prop where
  next : m'.next = Function.update m.next tc (m.child q)
  prev : ∀ a, m'.prev a =
    if a = tc then none else if m.child q = some a then some tc else m.prev a
  parent : ∀ a, m'.parent a =
    if a = tc then some q else if m.child q = some a then none else m.parent a
  child : m'.child = Function.update m.child q (some tc)

theorem Row.push {q : ChunkRef} (pushed : Pushed m m' q tc)
    (row : Row m (some q) none (m.child q) l) (fresh : tc ∉ l) :
    Row m' (some q) none (m'.child q) (tc :: l) := by
  have ne : ∀ a ∈ l, a ≠ tc := fun a member same => fresh (same ▸ member)
  refine ⟨?_, ?_, ?_, ?_⟩
  · rw [pushed.child, Function.update_self]
  · rw [pushed.parent, if_pos rfl]
  · rw [pushed.prev, if_pos rfl]
  · rw [pushed.next, Function.update_self]
    refine row.rehead (fun a first => ?_) (fun a member => ?_) fun a member later => ?_
    · have other := ne a (row.start_mem first)
      rw [pushed.parent, pushed.prev, if_neg other, if_pos first, if_neg other, if_pos first]
      exact ⟨rfl, rfl⟩
    · rw [pushed.next, Function.update_of_ne (ne a member)]
    · have other := ne a member
      rw [pushed.parent, pushed.prev, if_neg other, if_neg later, if_neg other, if_neg later]
      exact ⟨rfl, rfl⟩

/-- The pointers of chunks elsewhere stay. -/
theorem Pushed.row {q r : ChunkRef} (pushed : Pushed m m' q tc)
    (row : Row m (some r) none (m.child r) l) (other : r ≠ q) (fresh : tc ∉ l)
    (apart : ∀ a ∈ l, m.child q ≠ some a) : Row m' (some r) none (m'.child r) l := by
  rw [pushed.child, Function.update_of_ne other]
  refine row.congr fun a member => ?_
  have ne : a ≠ tc := fun same => fresh (same ▸ member)
  rw [pushed.next, pushed.prev, pushed.parent, Function.update_of_ne ne, if_neg ne, if_neg ne,
    if_neg (apart a member), if_neg (apart a member)]
  exact ⟨rfl, rfl, rfl⟩

theorem reattach_pushed {q : ChunkRef} (apart : m.child q ≠ some tc) :
    Pushed m (m.reattach q tc) q tc := by
  cases first : m.child q with
  | none =>
    simp only [Heap.reattach, Heap.listAdd, Heap.setParent, first]
    refine ⟨?_, fun a => ?_, fun a => ?_, ?_⟩ <;>
      simp [Heap.setPrev, Heap.setNext, Heap.setChild, Function.update_apply, first]
  | some f =>
    have other : f ≠ tc := fun same => apart (first.trans (congrArg some same))
    simp only [Heap.reattach, Heap.listAdd, Heap.setParent, first]
    refine ⟨?_, fun a => ?_, fun a => ?_, ?_⟩
    · simp [Heap.setPrev, Heap.setNext, Heap.setChild, first]
    · simp only [Heap.setPrev, Heap.setNext, Heap.setChild, Function.update_apply, first,
        Option.some_inj, eq_comm (a := f)]
    · simp only [Heap.setPrev, Heap.setNext, Heap.setChild, Function.update_apply, first,
        Option.some_inj, eq_comm (a := f)]
      split_ifs <;> simp_all
    · rfl

theorem initTalloc_pushed {q : ChunkRef} (size : Nat) (apart : m.child q ≠ some tc) (other : q ≠ tc) :
    Pushed ({ m with size := Function.update m.size tc size }.setChild tc none)
      (m.initTalloc (some q) tc size) q tc := by
  have first' : (Function.update m.child tc none) q = m.child q := Function.update_of_ne other ..
  cases first : m.child q with
  | none =>
    simp only [Heap.initTalloc, Heap.setChild, first', first]
    refine ⟨?_, fun a => ?_, fun a => ?_, ?_⟩ <;>
      simp [Heap.setParent, Heap.setPrev, Heap.setNext, Function.update_apply, first]
  | some f =>
    have apart' : f ≠ tc := fun same => apart (first.trans (congrArg some same))
    simp only [Heap.initTalloc, Heap.setChild, first', first]
    refine ⟨?_, fun a => ?_, fun a => ?_, ?_⟩
    · simp [Heap.setParent, Heap.setPrev, Heap.setNext, first', first]
    · simp only [Heap.setParent, Heap.setPrev, Heap.setNext, Function.update_apply, if_neg other,
        first, Option.some_inj, eq_comm (a := f)]
    · simp only [Heap.setParent, Heap.setPrev, Heap.setNext, Function.update_apply, if_neg other,
        first, Option.some_inj, eq_comm (a := f)]
    · rfl

end Row

end Phat.Talloc
