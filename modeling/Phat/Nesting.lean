import Phat.Reachability

/-! When `printInstance` ends, and how often it goes into an instance. Instances are
guarded by `visit`; object arrays are not. -/
namespace Phat

/-- Object arrays inside object arrays. -/
def Jdump.ArrayEdge (jf : Jdump) (o x : ObjRef) : Prop :=
  jf.Holds o x ∧ (jf.hobject x).htype = .hOarray

/-- No object array contains itself, through object arrays alone. -/
def Jdump.Nested (jf : Jdump) : Prop := ∀ o, ¬ Relation.TransGen jf.ArrayEdge o o

/-- None of these object arrays does. -/
def Jdump.NestedIn (jf : Jdump) (S : ObjRef → Prop) : Prop :=
  ∀ o, S o → ¬ Relation.TransGen jf.ArrayEdge o o

section Measure
variable {jf : Jdump} {S : ObjRef → Prop} {depth : Nat} {o x : ObjRef}

open Classical in
/-- The object arrays inside an object array, at any depth. -/
noncomputable def Jdump.inside (jf : Jdump) (o : ObjRef) : Finset ObjRef :=
  jf.stored.toFinset.filter fun x => Relation.TransGen jf.ArrayEdge o x

/-- The instances not gone into yet. -/
def Jdump.unopened (jf : Jdump) (visit : ObjRef → Bool) : Finset ObjRef :=
  jf.stored.toFinset.filter fun x => (jf.hobject x).htype = .hInstance ∧ visit x = false

/-- Every instance gone into pays for all nestings of object arrays. -/
noncomputable def Jdump.printMeasure (jf : Jdump) (visit : ObjRef → Bool) (o : ObjRef) (_ : Nat) :
    Nat :=
  (jf.unopened visit).card * (jf.stored.toFinset.card + 2) +
    if (jf.hobject o).htype = .hOarray then (jf.inside o).card + 1 else 0

theorem Jdump.mem_inside :
    x ∈ jf.inside o ↔ x ∈ jf.stored ∧ Relation.TransGen jf.ArrayEdge o x := by
  classical
  unfold inside
  rw [Finset.mem_filter, List.mem_toFinset]

theorem Jdump.stored_of_holds (holds : jf.Holds o x) : x ∈ jf.stored := by
  obtain ⟨_, _, _, _, _, known⟩ := holds
  exact mem_stored known

theorem Jdump.Nested.nestedIn (nested : jf.Nested) : jf.NestedIn S := fun o _ => nested o

theorem Jdump.inside_lt (nested : ¬ Relation.TransGen jf.ArrayEdge x x) (edge : jf.ArrayEdge o x) :
    (jf.inside x).card < (jf.inside o).card := by
  apply Finset.card_lt_card
  refine ⟨fun y member => ?_, fun subset => ?_⟩
  · obtain ⟨stored, path⟩ := mem_inside.mp member
    exact mem_inside.mpr ⟨stored, .head edge path⟩
  · have member : x ∈ jf.inside o := mem_inside.mpr ⟨stored_of_holds edge.1, .single edge⟩
    exact nested (mem_inside.mp (subset member)).2

theorem Jdump.inside_le (o : ObjRef) : (jf.inside o).card ≤ jf.stored.toFinset.card :=
  Finset.card_le_card fun _ member => List.mem_toFinset.mpr (mem_inside.mp member).1

theorem Jdump.unopened_mono {visit visit' : ObjRef → Bool}
    (kept : ∀ y, visit y = true → visit' y = true) : jf.unopened visit' ⊆ jf.unopened visit := by
  intro y member
  obtain ⟨stored, inst, clear⟩ := Finset.mem_filter.mp member
  refine Finset.mem_filter.mpr ⟨stored, inst, ?_⟩
  rw [← Bool.not_eq_true] at clear ⊢
  exact fun marked => clear (kept y marked)

theorem Jdump.unopened_lt {visit visit' : ObjRef → Bool}
    (kept : ∀ y, visit y = true → visit' y = true) (stored : o ∈ jf.stored)
    (inst : (jf.hobject o).htype = .hInstance) (clear : visit o = false) (opened : visit' o = true) :
    (jf.unopened visit').card < (jf.unopened visit).card := by
  apply Finset.card_lt_card
  refine ⟨unopened_mono kept, fun subset => ?_⟩
  have member : o ∈ jf.unopened visit :=
    Finset.mem_filter.mpr ⟨List.mem_toFinset.mpr stored, inst, clear⟩
  have still := (Finset.mem_filter.mp (subset member)).2.2
  rw [opened] at still
  cases still

theorem Jdump.printMeasure_lowers (region : jf.Region S depth) (nested : jf.NestedIn S) :
    Lowers jf S jf.printMeasure := by
  intro visit visit' o x indent inside clear _ kept self edge holds
  have fewer : (jf.unopened visit').card ≤ (jf.unopened visit).card :=
    Finset.card_le_card (unopened_mono kept)
  have stored := region.stored o inside
  have small := @inside_le jf x
  have scaled := Nat.mul_le_mul_right (jf.stored.toFinset.card + 2) fewer
  rw [printMeasure, printMeasure]
  cases kind : (jf.hobject o).htype with
  | hVarray =>
    -- primitive arrays make no calls
    rw [DepthFirst.Graph.Edge, graph_acts stored, objectActs, kind] at edge
    simp only at edge
    split at edge <;> cases edge
  | hOarray =>
    have here := holds kind
    split
    · rename_i array
      have less := inside_lt (nested x (region.closed o x inside edge)) ⟨here, array⟩
      rw [if_pos rfl]
      omega
    · rw [if_pos rfl]
      omega
  | hInstance =>
    have less := unopened_lt kept stored kind clear (self kind)
    have paid := Nat.mul_le_mul_right (jf.stored.toFinset.card + 2) less
    rw [Nat.succ_mul] at paid
    split <;> omega

theorem Jdump.printMeasure_le (visit : ObjRef → Bool) (o : ObjRef) (indent : Nat) :
    jf.printMeasure visit o indent ≤
      jf.stored.toFinset.card * (jf.stored.toFinset.card + 2) + jf.stored.toFinset.card + 1 := by
  have opened : (jf.unopened visit).card ≤ jf.stored.toFinset.card :=
    Finset.card_le_card (Finset.filter_subset _ _)
  have scaled := Nat.mul_le_mul_right (jf.stored.toFinset.card + 2) opened
  have small := @inside_le jf o
  rw [printMeasure]
  split <;> omega

end Measure

section Once
variable {jf : Jdump} {S : ObjRef → Prop} {depth fuel : Nat} {lk : Look} {s s' : Screen}
  {o : ObjRef}

theorem Jdump.shallow_zero (jf : Jdump) : ¬ jf.beyond 0 := fun deep => by
  have depth := deep.1
  omega

/-- A call on an instance that is not too deep leaves it marked. -/
theorem printInstance_opens (region : jf.Region S depth) (grounded : Grounded jf S lk)
    (inside : S o) (resolved : (lk.objects o).resolved = true) (inst : (jf.hobject o).htype = .hInstance)
    {indent : Nat} {inString : Bool} (shallow : ¬ jf.beyond indent)
    (ended : printInstance jf lk fuel s o indent false inString = .ok s') : s'.visit o = true := by
  cases fuel with
  | zero => cases ended
  | succ fuel =>
    rw [printInstance] at ended
    simp only [inst, if_neg shallow] at ended
    split at ended
    · rename_i marked
      cases ended
      exact marked
    · rename_i unmarked
      have clear : s.visit o = false := Bool.eq_false_of_not_eq_true unmarked
      have object := @printObject_shown jf S depth lk False o
        (s.print (.called o (lk.objects o).resolved))
        (fun s dref => printInstance jf lk fuel s dref (1 + indent) false) region grounded inside
        resolved inst clear indent false fun s' x inString _ _ edge =>
          @printInstance_shown jf S depth fuel lk False x s' (fun _ _ _ => 0) region grounded
            False.elim (1 + indent) false inString (region.closed o x inside edge)
            (grounded.closed o x inside resolved edge) False.elim
      rcases object with ⟨s'', ok, _, opened⟩ | ⟨_, s'', cut, _⟩
      · rw [ok] at ended
        cases ended
        exact opened rfl
      · rw [cut] at ended
        cases ended

theorem printAll_opens (region : jf.Region S depth) (grounded : Grounded jf S lk)
    {os : List ObjRef} (inside : ∀ o ∈ os, S o) (resolved : ∀ o ∈ os, (lk.objects o).resolved = true)
    (ended : printAll jf lk fuel os s = .ok s') (member : o ∈ os)
    (inst : (jf.hobject o).htype = .hInstance) : s'.visit o = true := by
  induction os generalizing s with
  | nil => cases member
  | cons first os ih =>
    rw [printAll] at ended
    split at ended
    · cases ended
    · rename_i s₁ call
      rcases List.mem_cons.mp member with rfl | later
      · have marked := printInstance_opens region grounded (inside o List.mem_cons_self)
          (resolved o List.mem_cons_self) inst jf.shallow_zero call
        have rest := @printAll_shown jf S depth fuel lk False s₁ (fun _ _ _ => 0) region grounded
          False.elim os (fun x member => inside x (.tail _ member))
          (fun x member => resolved x (.tail _ member)) False.elim
        rcases rest with ⟨s₂, ok, grows⟩ | ⟨_, s₂, cut, _⟩
        · rw [ok] at ended
          cases ended
          exact grows.visit marked
        · rw [cut] at ended
          cases ended
      · exact ih (fun x member => inside x (.tail _ member))
          (fun x member => resolved x (.tail _ member)) ended later

theorem instances_opened_once (resolvable : jf.Resolvable depth)
    (grounded : Grounded jf (· ∈ jf.stored) lk)
    (resolved : ∀ o ∈ jf.stored, (lk.objects o).resolved = true) (nested : jf.Nested)
    (clear : ∀ o ∈ jf.stored, (jf.hobject o).htype = .hInstance → s.visit o = false)
    (enough : jf.stored.toFinset.card * (jf.stored.toFinset.card + 2) +
      jf.stored.toFinset.card + 1 < fuel) :
    ∃ s' new, printInstances jf lk fuel s = .ok s' ∧ s'.lines = s.lines ++ new ∧
      (∀ o ∈ jf.stored, (jf.hobject o).htype = .hInstance → new.count (.opened o) = 1) ∧
      ∀ t o indent inString callFuel, (jf.hobject o).htype = .hInstance →
        let called := t.print (.called o (lk.objects o).resolved)
        let result := printInstance jf lk (callFuel + 1) t o indent false inString
        (t.visit o = true → result = .ok (called.print (.recursive (low32 (jf.hobject o).instId)
          (low32 (jf.hobject o).classId) (low32 (lk.objects o).osize)
            (low32 ((lk.objects o).osize + (lk.objects o).csize))))) ∧
        (t.visit o = false → jf.beyond indent → result = .ok called) ∧
        (t.visit o = false → ¬ jf.beyond indent → o ∈ jf.stored →
          ∀ t', result = .ok t' → t'.visit o = true) := by
  have shown : Shown jf True s (printAll jf lk fuel jf.stored s) := by
    apply printAll_shown resolvable.region grounded
      (fun _ => Jdump.printMeasure_lowers resolvable.region nested.nestedIn) (fun _ => id) resolved
    intro _ visit o _
    exact lt_of_le_of_lt (Jdump.printMeasure_le visit o 0) enough
  rcases shown with ⟨s', ok, new, grew⟩ | ⟨unsure, _⟩
  · refine ⟨s', new, ok, grew.lines, fun o stored inst => ?_, ?_⟩
    · have opened := grew.opened o
      rw [clear o stored inst, printAll_opens resolvable.region grounded (fun _ => id) resolved ok stored
        inst] at opened
      exact opened
    · intro t o indent inString callFuel inst called result
      refine ⟨fun marked => ?_, fun unmarked deep => ?_, fun _ shallow stored t' ended => ?_⟩
      · simp only [result, printInstance]
        exact if_pos marked
      · simp only [result, printInstance]
        rw [if_neg (by simpa [Screen.print] using unmarked), if_pos deep]
      · exact printInstance_opens resolvable.region grounded stored (resolved o stored) inst shallow
          ended
  · exact absurd trivial unsure

end Once

theorem sampleLink_resolved : ∃ lk, resolveInstances sampleLink 6 (.initial .zero) = .ok lk ∧
    Grounded sampleLink (· ∈ sampleLink.stored) lk ∧
      ∀ o ∈ sampleLink.stored, (lk.objects o).resolved = true := by
  have ends : (resolveInstances sampleLink 6 (.initial .zero)).toOption.isSome = true := by
    decide +kernel
  obtain ⟨lk, some⟩ := Option.isSome_iff_exists.mp ends
  exact ⟨lk, ok_of_toOption some,
    resolveInstances_grounded (sampleHeap_resolvable _) (by decide) (ok_of_toOption some)⟩

theorem sampleLink_nested : sampleLink.Nested := by
  intro o circle
  obtain ⟨_, edge, _⟩ := Relation.TransGen.head'_iff.mp circle
  cases edge.1.2.1

theorem instances_opened_once_sampleLink : ∃ lk s', resolveInstances sampleLink 6 (.initial .zero) =
    .ok lk ∧ printInstances sampleLink lk 12 ⟨fun _ => false, []⟩ = .ok s' ∧
      s'.lines.count (.opened 0) = 1 ∧ s'.lines.count (.opened 1) = 1 := by
  obtain ⟨lk, run, grounded, resolved⟩ := sampleLink_resolved
  obtain ⟨s', new, ended, lines, once, _⟩ := @instances_opened_once sampleLink 3 12 lk
    ⟨fun _ => false, []⟩ (sampleHeap_resolvable _) grounded resolved sampleLink_nested
    (fun _ _ _ => rfl) (by decide)
  refine ⟨lk, s', run, ended, ?_, ?_⟩
  · rw [lines]
    exact once 0 (by decide) rfl
  · rw [lines]
    exact once 1 (by decide) rfl

section Endless
variable {jf : Jdump} {S : ObjRef → Prop} {depth fuel : Nat} {lk : Look} {s s' : Screen}
  {o x : ObjRef}

/-- If the element loop ends then so has the call on every element, and no array was
marked before that. -/
theorem printOarrayLoop_calls {visit : Screen → ObjRef → Printed Screen} {pshort : Bool}
    {n i lastCnt : Nat} {lastPid : BitVec 64}
    (visits : ∀ t y t', visit t y = .ok t' → jf.graph.Edge o y → Grows jf t t')
    (edges : ∀ j ident, (lk.objects o).hvalues.identAt j = some ident → ∀ y,
      jf.hTable.lookup32 (key ident) = some y → jf.graph.Edge o y)
    (ended : printOarrayLoop visit jf lk o pshort n i lastCnt lastPid s = .ok s') {j : Nat}
    {ident : BitVec 64} (low : i ≤ j) (high : j < i + n)
    (here : (lk.objects o).hvalues.identAt j = some ident) (other : ident ≠ 0)
    (known : jf.hTable.lookup32 (key ident) = some x) :
    ∃ t t', Grows jf s t ∧ visit t x = .ok t' := by
  induction n generalizing i lastCnt lastPid s with
  | zero => omega
  | succ n ih =>
    rw [printOarrayLoop] at ended
    split at ended
    · cases ended
    · rename_i pid first
      by_cases at_once : j = i
      · subst at_once
        rw [first] at here
        cases here
        have found : (if ident = 0 then none else jf.hTable.lookup32 (key ident)) = some x := by
          rw [if_neg other, known]
        rw [if_neg (fun both => other both.2)] at ended
        simp only [found] at ended
        split at ended
        · cases ended
        · rename_i t' call
          exact ⟨_, t', printRun_grows s lastCnt, call⟩
      · have next : ∀ t cnt last, Grows jf s t →
            printOarrayLoop visit jf lk o pshort n (i + 1) cnt last t = .ok s' →
            ∃ t t', Grows jf s t ∧ visit t x = .ok t' := by
          intro t cnt last grows later
          obtain ⟨t₁, t₂, more, call⟩ := ih later (by omega) (by omega)
          exact ⟨t₁, t₂, grows.trans more, call⟩
        split at ended
        · exact next s _ _ (.refl s) ended
        · split at ended
          · rename_i dref found
            split at ended
            · cases ended
            · rename_i t call
              have edge := edges i pid first dref (unless_zero found).2
              exact next t _ _ ((printRun_grows s lastCnt).trans (visits _ _ _ call edge)) ended
          · split at ended
            · refine next _ _ _ ((printRun_grows s lastCnt).trans ?_) ended
              apply Grows.print
              split <;> trivial
            · exact next s _ _ (.refl s) ended

/-- Printing an object array that contains itself does not end. -/
theorem printInstance_endless (region : jf.Region S depth) (grounded : Grounded jf S lk)
    (unlimited : jf.plimit = 0) (inside : S o) (resolved : (lk.objects o).resolved = true)
    (circle : Relation.TransGen jf.ArrayEdge o o)
    (clear : ∀ x, (jf.hobject x).htype ≠ .hInstance → s.visit x = false) (indent : Nat)
    (inString : Bool) : printInstance jf lk fuel s o indent false inString ≠ .ok s' := by
  induction fuel generalizing o s s' indent inString with
  | zero =>
    intro ended
    cases ended
  | succ fuel ih =>
    intro ended
    obtain ⟨x, edge, path⟩ := Relation.TransGen.head'_iff.mp circle
    obtain ⟨⟨stored, oarray, ident, member, other, known⟩, array⟩ := edge
    have shallow : ¬ jf.beyond indent := fun deep => deep.2.1 unlimited
    have unmarked : ¬ (s.print (.called o (lk.objects o).resolved)).visit o = true := by
      rw [Bool.not_eq_true]
      apply clear
      rw [oarray]
      decide
    rw [printInstance] at ended
    simp only [if_neg unmarked, if_neg shallow, oarray] at ended
    rw [printOarray] at ended
    obtain ⟨j, bound, here⟩ := List.getElem_of_mem member
    have length : (jf.elements o).1.length = (jf.hobject o).count.toNat :=
      length_readElements jf o _ _ _
    have some : (jf.hobject o).count ≠ 0 := by
      intro none
      rw [length, none] at bound
      exact absurd bound (Nat.not_lt_zero _)
    have listed : ∀ j ident, (lk.objects o).hvalues.identAt j = .some ident →
        ident ∈ (jf.elements o).1 := by
      intro j ident found
      rw [grounded.identAt inside resolved oarray some] at found
      exact List.mem_of_getElem? found
    have at_j : (lk.objects o).hvalues.identAt j = .some ident := by
      rw [grounded.identAt inside resolved oarray some, List.getElem?_eq_getElem bound, here]
    have visits : ∀ t y t', printInstance jf lk fuel t y (1 + indent) false false = .ok t' →
        jf.graph.Edge o y → Grows jf t t' := by
      intro t y t' call reached
      have shown := @printInstance_shown jf S depth fuel lk False y t (fun _ _ _ => 0) region
        grounded False.elim (1 + indent) false false (region.closed o y inside reached)
        (grounded.closed o y inside resolved reached) False.elim
      rcases shown with ⟨t₁, ok, grows⟩ | ⟨_, t₁, cut, _⟩
      · rw [ok] at call
        cases call
        exact grows
      · rw [cut] at call
        cases call
    have edges : ∀ j ident, (lk.objects o).hvalues.identAt j = .some ident → ∀ y,
        jf.hTable.lookup32 (key ident) = .some y → jf.graph.Edge o y :=
      fun j ident found y => Jdump.element_edge stored oarray some (listed j ident found)
    obtain ⟨t, t', grows, call⟩ := printOarrayLoop_calls visits edges ended (Nat.zero_le j)
      (by omega) at_j other known
    have first : jf.graph.Edge o x := edges j ident at_j x known
    have around : Relation.TransGen jf.ArrayEdge x x :=
      .tail' path ⟨⟨stored, oarray, ident, member, other, known⟩, array⟩
    apply ih (region.closed o x inside first) (grounded.closed o x inside resolved first) around _
      (1 + indent) false call
    intro y plain
    apply grows.unmarked _ plain
    exact clear y plain

end Endless

theorem printing_ends_iff {jf : Jdump} {depth : Nat} {lk : Look} (resolvable : jf.Resolvable depth)
    (grounded : Grounded jf (· ∈ jf.stored) lk)
    (resolved : ∀ o ∈ jf.stored, (lk.objects o).resolved = true) (unlimited : jf.plimit = 0) :
    (∀ o ∈ jf.stored, ∀ s, (∀ x, (jf.hobject x).htype ≠ .hInstance → s.visit x = false) →
      ∀ indent pshort inString, ∃ fuel s',
        printInstance jf lk fuel s o indent pshort inString = .ok s') ↔ jf.Nested := by
  constructor
  · intro ends o circle
    obtain ⟨x, edge, _⟩ := Relation.TransGen.head'_iff.mp circle
    have stored : o ∈ jf.stored := edge.1.1
    obtain ⟨fuel, s', ended⟩ := ends o stored ⟨fun _ => false, []⟩ (fun _ _ => rfl) 0 false false
    exact printInstance_endless resolvable.region grounded unlimited stored (resolved o stored) circle
      (fun _ _ => rfl) 0 false ended
  · intro nested o stored s _ indent pshort inString
    have shown := @printInstance_shown jf _ depth (jf.printMeasure s.visit o indent + 1) lk True o s
      jf.printMeasure resolvable.region grounded
      (fun _ => Jdump.printMeasure_lowers resolvable.region nested.nestedIn) indent pshort inString
      stored (resolved o stored) (fun _ => Nat.lt_succ_self _)
    rcases shown with ⟨s', ok, _⟩ | ⟨unsure, _⟩
    · exact ⟨_, s', ok⟩
    · exact absurd trivial unsure

theorem printing_ends_iff_sampleLink : ∃ lk fuel s',
    resolveInstances sampleLink 6 (.initial .zero) = .ok lk ∧
      printInstance sampleLink lk fuel ⟨fun _ => false, []⟩ 0 0 false false = .ok s' := by
  obtain ⟨lk, run, grounded, resolved⟩ := sampleLink_resolved
  obtain ⟨fuel, s', ended⟩ := (@printing_ends_iff sampleLink 3 lk (sampleHeap_resolvable _) grounded
    resolved rfl).mpr sampleLink_nested 0 (by decide) ⟨fun _ => false, []⟩ (fun _ _ => rfl) 0 false false
  exact ⟨lk, fuel, s', run, ended⟩

/-- An object array whose one element is the array itself. -/
def sampleRing : Jdump :=
  { sampleHeap [0, 0, 0, 1] with
    hTable := Table.empty.insert32 1 0
    hobjects := ⟨1, fun _ => ⟨.hOarray, 1, 2, 0, 1, 0⟩⟩ }

theorem sampleRing_resolvable : sampleRing.Resolvable 3 where
  zero := rfl
  classes _ _ := ⟨1, [1, 0], rfl, (@sampleChain sampleRing rfl rfl).2.1, by decide, rfl⟩

theorem printing_endless_sampleRing : ∃ lk,
    resolveInstances sampleRing 5 (.initial .zero) = .ok lk ∧
      ∀ fuel s', printInstance sampleRing lk fuel ⟨fun _ => false, []⟩ 0 0 false false ≠ .ok s' := by
  have ends : (resolveInstances sampleRing 5 (.initial .zero)).toOption.isSome = true := by
    decide +kernel
  obtain ⟨lk, some⟩ := Option.isSome_iff_exists.mp ends
  have run := ok_of_toOption some
  obtain ⟨grounded, resolved⟩ := resolveInstances_grounded sampleRing_resolvable (by decide) run
  have circle : sampleRing.ArrayEdge 0 0 :=
    ⟨⟨by decide, rfl, 1, by decide, by decide, rfl⟩, rfl⟩
  refine ⟨lk, run, fun fuel s' => ?_⟩
  exact printInstance_endless sampleRing_resolvable.region grounded rfl (by decide)
    (resolved 0 (by decide))
    (.single circle) (fun _ _ => rfl) 0 false

end Phat
