import Phat.Foundation.DepthFirst

/-! What a traversal marks: each node once, exactly the nodes reachable from the
call when the marked set was closed, on every finite graph and along a unique
derivation. No acyclicity is assumed. -/
namespace Phat.DepthFirst
variable {ν ι A : Type} [DecidableEq ν] [Add A] [Zero A] {g : Graph ν ι A} {m m' : Memo ν A}
  {v w : ν} {acts : List (Act ν ι)} {trace : List (Event ν ι A)} {a : A} {ws : List ν}

theorem Perform.reach (run : Perform g m v acts trace m') {x : ν} (member : x ∈ entered trace) :
    ∃ t ∈ targets acts, g.Reach t x := by
  induction run with
  | nil => simp at member
  | touch _ ih => exact ih member
  | seen _ _ ih =>
    obtain ⟨t, target, path⟩ := ih member
    exact ⟨t, by simp [target], path⟩
  | @idle m m' v w acts trace _ _ _ ih =>
    rcases List.mem_cons.mp member with rfl | member
    · exact ⟨x, by simp, .refl⟩
    · obtain ⟨t, target, path⟩ := ih member
      exact ⟨t, by simp [target], path⟩
  | @enter m m₁ m' v w acts inner trace _ _ _ _ innerIh restIh =>
    simp only [entered_enter, entered_append, entered_ret, List.mem_cons, List.mem_append] at member
    rcases member with rfl | inside | later
    · exact ⟨x, by simp, .refl⟩
    · obtain ⟨t, edge, path⟩ := innerIh inside
      exact ⟨w, by simp, .head edge path⟩
    · obtain ⟨t, target, path⟩ := restIh later
      exact ⟨t, by simp [target], path⟩

theorem Perform.seen_mono (run : Perform g m v acts trace m') {x : ν} (marked : m.seen x = true) :
    m'.seen x = true :=
  (run.seen_iff x).mpr (.inl marked)

/-- Every call made ends on a marked node, and so does every edge of a node entered. -/
theorem Perform.closed (run : Perform g m v acts trace m') :
    (∀ t ∈ targets acts, m'.seen t = true) ∧
    ∀ x ∈ entered trace, ∀ y, g.Edge x y → m'.seen y = true := by
  induction run with
  | nil => simp
  | touch _ ih => exact ih
  | seen marked rest ih =>
    refine ⟨?_, ih.2⟩
    simpa using ⟨rest.seen_mono marked, ih.1⟩
  | @idle m m' v w acts trace _ idle rest ih =>
    refine ⟨?_, ?_⟩
    · simpa using ⟨rest.seen_mono (by simp), ih.1⟩
    · intro x member y edge
      rcases List.mem_cons.mp member with rfl | member
      · simp [Graph.Edge, g.idle_acts x idle] at edge
      · exact ih.2 x member y edge
  | @enter m m₁ m' v w acts inner trace _ _ call rest innerIh restIh =>
    refine ⟨?_, ?_⟩
    · have entered : m'.seen w = true := rest.seen_mono (call.seen_mono (by simp))
      simpa using ⟨entered, restIh.1⟩
    · intro x member y edge
      simp only [entered_enter, entered_append, entered_ret, List.mem_cons,
        List.mem_append] at member
      rcases member with rfl | inside | later
      · exact rest.seen_mono (innerIh.1 y edge)
      · exact rest.seen_mono (innerIh.2 x inside y edge)
      · exact restIh.2 x later y edge

theorem Visit.seen_iff (call : Visit g m w trace m' a) (x : ν) :
    m'.seen x = true ↔ m.seen x = true ∨ x ∈ entered trace := by
  cases call with
  | seen => simp
  | idle => simp [or_comm]
  | enter _ _ inner =>
    simp only [Memo.seen_settle, inner.seen_iff, Memo.seen_mark, entered_enter, entered_append,
      entered_ret, entered_nil, List.append_nil, List.mem_cons]
    rw [or_assoc]
    exact or_left_comm

theorem Visit.entered_fresh (call : Visit g m w trace m' a) :
    (entered trace).Nodup ∧ ∀ x ∈ entered trace, m.seen x = false := by
  have run := (call.perform (Perform.nil (m'.add w a) w)).entered_fresh
  simpa using run

theorem Visit.seen_self (call : Visit g m w trace m' a) : m'.seen w = true := by
  cases call with
  | seen marked => exact marked
  | idle => simp
  | enter _ _ inner => exact inner.seen_mono (by simp)

theorem Visit.edge_seen (call : Visit g m w trace m' a) {x y : ν} (member : x ∈ entered trace)
    (edge : g.Edge x y) : m'.seen y = true := by
  have run := (call.perform (Perform.nil (m'.add w a) w)).closed.2 x (by simpa using member) y edge
  simpa using run

theorem Visit.reach (call : Visit g m w trace m' a) {x : ν} (member : x ∈ entered trace) :
    g.Reach w x := by
  obtain ⟨t, target, path⟩ :=
    (call.perform (Perform.nil (m'.add w a) w)).reach (x := x) (by simpa using member)
  rw [targets_follow, targets_nil, List.mem_singleton] at target
  exact target ▸ path

def Graph.Closed (g : Graph ν ι A) (m : Memo ν A) : Prop :=
  ∀ x y, m.seen x = true → g.Edge x y → m.seen y = true

omit [DecidableEq ν] [Add A] [Zero A] in
theorem Graph.Closed.reach (closed : g.Closed m) {x y : ν} (marked : m.seen x = true)
    (path : g.Reach x y) : m.seen y = true := by
  induction path with
  | refl => exact marked
  | tail _ edge ih => exact closed _ _ ih edge

theorem Visit.closed (closed : g.Closed m) (call : Visit g m w trace m' a) : g.Closed m' := by
  intro x y marked edge
  rcases (call.seen_iff x).mp marked with old | member
  · exact (call.seen_iff y).mpr (.inl (closed x y old edge))
  · exact call.edge_seen member edge

theorem Visits.seen_iff (calls : Visits g m ws trace m') (x : ν) :
    m'.seen x = true ↔ m.seen x = true ∨ x ∈ entered trace := by
  induction calls with
  | nil => simp
  | cons call _ ih =>
    simp only [ih, call.seen_iff, entered_append, List.mem_append]
    exact or_assoc

theorem Visits.edge_seen (calls : Visits g m ws trace m') {x y : ν} (member : x ∈ entered trace)
    (edge : g.Edge x y) : m'.seen y = true := by
  induction calls with
  | nil => cases member
  | cons call rest ih =>
    rw [entered_append, List.mem_append] at member
    rcases member with first | later
    · exact (rest.seen_iff y).mpr (.inl (call.edge_seen first edge))
    · exact ih later

theorem Visits.entered_fresh (calls : Visits g m ws trace m') :
    (entered trace).Nodup ∧ ∀ x ∈ entered trace, m.seen x = false := by
  induction calls with
  | nil => simp
  | cons call _ ih =>
    obtain ⟨distinct, fresh⟩ := call.entered_fresh
    obtain ⟨distinct', fresh'⟩ := ih
    simp only [entered_append, List.mem_append]
    refine ⟨List.nodup_append.mpr ⟨distinct, distinct', ?_⟩, ?_⟩
    · rintro x first _ second rfl
      have clear := fresh' x second
      rw [(call.seen_iff x).mpr (.inr first)] at clear
      cases clear
    · rintro x (first | second)
      · exact fresh x first
      · have clear := fresh' x second
        rw [← Bool.not_eq_true] at clear ⊢
        exact fun marked => clear ((call.seen_iff x).mpr (.inl marked))

/-- The own cell of every node entered is assigned, unless the node is idle. -/
theorem Perform.own (run : Perform g m v acts trace m') (marked : m.seen v = true) {x : ν}
    (member : x ∈ entered trace) (busy : ¬ g.idle x) : m'.own x = g.own x := by
  induction run with
  | nil => cases member
  | touch _ ih => exact ih marked member
  | seen _ _ ih => exact ih marked member
  | idle _ idle _ ih =>
    rw [entered_enter, entered_ret, List.mem_cons] at member
    rcases member with rfl | later
    · exact absurd idle busy
    · exact ih (by simp [marked]) later
  | @enter m m₁ m' v w acts inner trace fresh _ call rest innerIh restIh =>
    have still : m₁.seen v = true := by simp [call.seen_iff, marked]
    have ended : m₁.seen w = true := by simp [call.seen_iff]
    have apart : w ≠ v := by rintro rfl; simp [marked] at fresh
    simp only [entered_enter, entered_append, entered_ret, List.mem_cons, List.mem_append] at member
    rcases member with rfl | inside | later
    · rw [(rest.frame (by simpa using ended) apart).1, Memo.own_add, Memo.own_settle_self]
    · have clear := call.entered_fresh.2 x inside
      rw [← Bool.not_eq_true, Memo.seen_mark, not_or] at clear
      have other : x ≠ v := by
        rintro rfl
        exact clear.2 marked
      have seen : m₁.seen x = true := (call.seen_iff x).mpr (.inr inside)
      rw [(rest.frame (by simpa using seen) other).1, Memo.own_add,
        Memo.own_settle_of_ne _ _ clear.1]
      exact innerIh (by simp) inside
    · exact restIh (by simpa using still) later

theorem Visit.own (call : Visit g m w trace m' a) {x : ν} (member : x ∈ entered trace)
    (busy : ¬ g.idle x) : m'.own x = g.own x := by
  cases call with
  | seen => cases member
  | idle _ idle =>
    obtain rfl : x = w := by simpa using member
    exact absurd idle busy
  | enter fresh _ run =>
    simp only [entered_enter, entered_append, entered_ret, entered_nil, List.append_nil,
      List.mem_cons] at member
    rcases member with rfl | inside
    · exact Memo.own_settle_self _ _ _
    · have clear := run.entered_fresh.2 x inside
      rw [← Bool.not_eq_true, Memo.seen_mark, not_or] at clear
      rw [Memo.own_settle_of_ne _ _ clear.1]
      exact run.own (by simp) inside busy

theorem Visit.own_frame (call : Visit g m w trace m' a) {x : ν} (marked : m.seen x = true) :
    m'.own x = m.own x := by
  cases call with
  | seen => rfl
  | idle => rfl
  | enter fresh _ run =>
    have apart : x ≠ w := by rintro rfl; simp [marked] at fresh
    rw [Memo.own_settle_of_ne _ _ apart, (run.frame (by simp [marked]) apart).1, Memo.own_mark]

theorem Visits.own_frame (calls : Visits g m ws trace m') {x : ν} (marked : m.seen x = true) :
    m'.own x = m.own x := by
  induction calls with
  | nil => rfl
  | cons call _ ih => rw [ih ((call.seen_iff x).mpr (.inl marked)), call.own_frame marked]

theorem Visits.own (calls : Visits g m ws trace m') {x : ν} (member : x ∈ entered trace)
    (busy : ¬ g.idle x) : m'.own x = g.own x := by
  induction calls with
  | nil => cases member
  | cons call rest ih =>
    rw [entered_append, List.mem_append] at member
    rcases member with first | later
    · rw [rest.own_frame ((call.seen_iff x).mpr (.inr first)), call.own first busy]
    · exact ih later

theorem Visits.seen_roots (calls : Visits g m ws trace m') {x : ν} (root : x ∈ ws) :
    m'.seen x = true := by
  induction calls with
  | nil => simp at root
  | cons call rest ih =>
    rcases List.mem_cons.mp root with rfl | root
    · exact (rest.seen_iff x).mpr (.inl call.seen_self)
    · exact ih root

theorem Visits.reach (calls : Visits g m ws trace m') {x : ν} (member : x ∈ entered trace) :
    ∃ w ∈ ws, g.Reach w x := by
  induction calls with
  | nil => cases member
  | @cons _ _ _ w ws _ _ _ call _ ih =>
    rw [entered_append, List.mem_append] at member
    rcases member with first | later
    · exact ⟨w, List.mem_cons_self, call.reach first⟩
    · obtain ⟨root, listed, path⟩ := ih later
      exact ⟨root, .tail _ listed, path⟩

/-- What has returned is marked. -/
theorem Perform.ret_seen (run : Perform g m v acts trace m') {x : ν} {b : A}
    (member : .ret x b ∈ trace) : m'.seen x = true := by
  induction run with
  | nil => cases member
  | touch _ ih => exact ih (by simpa using member)
  | seen marked rest ih =>
    rcases List.mem_cons.mp member with here | member
    · cases here
      exact rest.seen_mono marked
    · exact ih member
  | idle _ _ rest ih =>
    simp only [List.mem_cons, reduceCtorEq, false_or] at member
    rcases member with here | member
    · cases here
      exact rest.seen_mono (by simp)
    · exact ih member
  | enter _ _ call rest innerIh restIh =>
    simp only [List.mem_cons, List.mem_append, reduceCtorEq, false_or] at member
    rcases member with inside | here | later
    · exact rest.seen_mono (innerIh inside)
    · cases here
      exact rest.seen_mono (call.seen_mono (by simp))
    · exact restIh later

theorem Visit.ret_seen (call : Visit g m w trace m' a) {x : ν} {b : A}
    (member : .ret x b ∈ trace) : m'.seen x = true := by
  have run := (call.perform (Perform.nil (m'.add w a) w)).ret_seen (x := x) (by simpa using member)
  simpa using run

theorem Visits.ret_seen (calls : Visits g m ws trace m') {x : ν} {b : A}
    (member : .ret x b ∈ trace) : m'.seen x = true := by
  induction calls with
  | nil => cases member
  | cons call rest ih =>
    rcases List.mem_append.mp member with first | later
    · exact (rest.seen_iff x).mpr (.inl (call.ret_seen first))
    · exact ih later

/-- The memo and the actions determine the whole derivation. -/
theorem Perform.unique (run : Perform g m v acts trace m') {trace₂ : List (Event ν ι A)}
    {m₂ : Memo ν A} (other : Perform g m v acts trace₂ m₂) : trace = trace₂ ∧ m' = m₂ := by
  induction run generalizing trace₂ m₂ with
  | nil => cases other; exact ⟨rfl, rfl⟩
  | touch _ ih =>
    cases other with
    | touch rest =>
      obtain ⟨rfl, rfl⟩ := ih rest
      exact ⟨rfl, rfl⟩
  | seen marked _ ih =>
    cases other with
    | seen _ rest =>
      obtain ⟨rfl, rfl⟩ := ih rest
      exact ⟨rfl, rfl⟩
    | idle fresh => simp [marked] at fresh
    | enter fresh => simp [marked] at fresh
  | idle fresh idle _ ih =>
    cases other with
    | seen marked => simp [marked] at fresh
    | idle _ _ rest =>
      obtain ⟨rfl, rfl⟩ := ih rest
      exact ⟨rfl, rfl⟩
    | enter _ busy => exact absurd idle busy
  | enter fresh busy _ _ innerIh restIh =>
    cases other with
    | seen marked => simp [marked] at fresh
    | idle _ idle => exact absurd idle busy
    | enter _ _ inner rest =>
      obtain ⟨rfl, rfl⟩ := innerIh inner
      obtain ⟨rfl, rfl⟩ := restIh rest
      exact ⟨rfl, rfl⟩

theorem Visit.unique (call : Visit g m w trace m' a) {trace₂ : List (Event ν ι A)}
    {m₂ : Memo ν A} {a₂ : A} (other : Visit g m w trace₂ m₂ a₂) :
    trace = trace₂ ∧ m' = m₂ ∧ a = a₂ := by
  cases call with
  | seen marked =>
    cases other with
    | seen => exact ⟨rfl, rfl, rfl⟩
    | idle fresh => simp [marked] at fresh
    | enter fresh => simp [marked] at fresh
  | idle fresh idle =>
    cases other with
    | seen marked => simp [marked] at fresh
    | idle => exact ⟨rfl, rfl, rfl⟩
    | enter _ busy => exact absurd idle busy
  | enter fresh busy inner =>
    cases other with
    | seen marked => simp [marked] at fresh
    | idle _ idle => exact absurd idle busy
    | enter _ _ inner₂ =>
      obtain ⟨rfl, rfl⟩ := inner.unique inner₂
      exact ⟨rfl, rfl, rfl⟩

theorem Visits.unique (calls : Visits g m ws trace m') {trace₂ : List (Event ν ι A)}
    {m₂ : Memo ν A} (other : Visits g m ws trace₂ m₂) : trace = trace₂ ∧ m' = m₂ := by
  induction calls generalizing trace₂ m₂ with
  | nil => cases other; exact ⟨rfl, rfl⟩
  | cons call _ ih =>
    cases other with
    | cons call₂ rest =>
      obtain ⟨rfl, rfl, rfl⟩ := call.unique call₂
      obtain ⟨rfl, rfl⟩ := ih rest
      exact ⟨rfl, rfl⟩

section Total
variable {nodes : Finset ν}

/-- The unmarked part of a finite node set, the measure of the recursion. -/
def unmarked (nodes : Finset ν) (m : Memo ν A) : Finset ν := nodes.filter fun x => m.seen x = false

omit [DecidableEq ν] [Add A] [Zero A] in
theorem unmarked_mono (grows : ∀ x, m.seen x = true → m'.seen x = true) :
    unmarked nodes m' ⊆ unmarked nodes m := by
  intro x member
  obtain ⟨inside, clear⟩ := Finset.mem_filter.mp member
  refine Finset.mem_filter.mpr ⟨inside, ?_⟩
  rw [← Bool.not_eq_true] at clear ⊢
  exact fun marked => clear (grows x marked)

omit [Add A] [Zero A] in
theorem unmarked_mark_lt (inside : w ∈ nodes) (fresh : m.seen w = false) :
    (unmarked nodes (m.mark w)).card < (unmarked nodes m).card := by
  apply Finset.card_lt_card
  refine ⟨unmarked_mono fun x marked => by simp [marked], ?_⟩
  intro subset
  have still := subset (Finset.mem_filter.mpr ⟨inside, fresh⟩)
  have clear := (Finset.mem_filter.mp still).2
  rw [← Bool.not_eq_true] at clear
  exact clear (by simp)

/-- On a finite graph every run of actions ends. The outer induction is on the
unmarked nodes, the inner one on the actions left. -/
theorem perform_total (inside : ∀ x ∈ nodes, ∀ y, g.Edge x y → y ∈ nodes) (size : Nat) :
    ∀ (m : Memo ν A) (v : ν) (acts : List (Act ν ι)), (unmarked nodes m).card ≤ size →
      (∀ t ∈ targets acts, t ∈ nodes) → ∃ trace m', Perform g m v acts trace m' := by
  induction size using Nat.strong_induction_on with
  | _ size outer =>
    intro m v acts
    induction acts generalizing m with
    | nil => exact fun _ _ => ⟨[], m, .nil m v⟩
    | cons act acts ih =>
      intro bound targeted
      cases act with
      | touch i =>
        obtain ⟨trace, m', run⟩ := ih m bound targeted
        exact ⟨_, m', .touch run⟩
      | follow w =>
        rw [targets_follow, List.forall_mem_cons] at targeted
        cases marked : m.seen w with
        | true =>
          obtain ⟨trace, m', run⟩ := ih (m.add v (m.total w)) bound targeted.2
          exact ⟨_, m', .seen marked run⟩
        | false =>
          have smaller := unmarked_mark_lt targeted.1 marked
          by_cases idle : g.idle w
          · obtain ⟨trace, m', run⟩ := ih ((m.mark w).add v 0)
              (le_trans smaller.le bound) targeted.2
            exact ⟨_, m', .idle marked idle run⟩
          · obtain ⟨inner, m₁, call⟩ := outer _ (lt_of_lt_of_le smaller bound) (m.mark w) w
              (g.acts w) le_rfl (inside w targeted.1)
            have shrinks : (unmarked nodes m₁).card ≤ (unmarked nodes (m.mark w)).card :=
              Finset.card_le_card (unmarked_mono fun _ => call.seen_mono)
            obtain ⟨trace, m', run⟩ := ih
              ((m₁.settle w (g.own w)).add v ((m₁.settle w (g.own w)).total w))
              (le_trans shrinks (le_trans smaller.le bound)) targeted.2
            exact ⟨_, m', .enter marked idle call run⟩

theorem visit_total (inside : ∀ x ∈ nodes, ∀ y, g.Edge x y → y ∈ nodes) (member : w ∈ nodes)
    (m : Memo ν A) : ∃ trace m' a, Visit g m w trace m' a := by
  obtain ⟨trace, m', run⟩ := perform_total inside _ m w [.follow w] le_rfl (by simpa using member)
  obtain ⟨first, _, m₁, a, call, _⟩ := run.follow_inv
  exact ⟨first, m₁, a, call⟩

theorem visits_total (inside : ∀ x ∈ nodes, ∀ y, g.Edge x y → y ∈ nodes)
    (members : ∀ x ∈ ws, x ∈ nodes) (m : Memo ν A) : ∃ trace m', Visits g m ws trace m' := by
  induction ws generalizing m with
  | nil => exact ⟨[], m, .nil m⟩
  | cons w ws ih =>
    obtain ⟨first, m₁, a, call⟩ := visit_total inside (members w (by simp)) m
    obtain ⟨rest, m', calls⟩ := ih (fun x member => members x (by simp [member])) m₁
    exact ⟨_, m', .cons call calls⟩

end Total

end Phat.DepthFirst
