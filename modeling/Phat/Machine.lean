import Phat.Dump

/-! The program as a step relation, one pass through a loop at a time, so that the
states inside `readHeap` are reachable states too. Every run of `dumpLoop` is a
sequence of these steps. -/
namespace Phat

/-- The loop the program is in: that of `readDump`, that of `readHeap`, or none. -/
inductive Control where
  | records
  | subs (hsize : Count) (sum : Summary)
  | done

structure Machine where
  control : Control
  d : Dump

/-- The body of the loop of `readHeap`, entered with `0 < hsize`. -/
def heapPass (jf : Jdump) (hsize : Count) (sum : Summary) :
    Except Stop (Jdump × Count × Summary) :=
  let jf := jf.note (.sub jf.fin.pos hsize.left)
  let (ch, f) := jf.fin.getc
  heapStep (uchar ch) { jf with fin := f } hsize sum

/-- `readHeap` before its loop. -/
def enterHeap (jf : Jdump) : Jdump :=
  { jf with javaLangString := jf.findClass javaLangStringName }

inductive Step : Machine → Machine → Prop where
  | record {d : Dump} {jf jf' : Jdump} {rtype : Byte} {rlen : BitVec 32} :
      readTag d.jf = .ok (jf, some (rtype, rlen)) → rtype.toNat ≠ 0x0c →
      readPlain rtype jf rlen = .ok jf' → Step ⟨.records, d⟩ ⟨.records, { d with jf := jf' }⟩
  | heap {d : Dump} {jf : Jdump} {rtype : Byte} {rlen : BitVec 32} :
      readTag d.jf = .ok (jf, some (rtype, rlen)) → rtype.toNat = 0x0c →
      Step ⟨.records, d⟩ ⟨.subs ⟨rlen, false⟩ .zero, { d with jf := enterHeap jf }⟩
  | sub {d : Dump} {jf : Jdump} {hsize hsize' : Count} {sum sum' : Summary} :
      hsize.left ≠ 0 → heapPass d.jf hsize sum = .ok (jf, hsize', sum') →
      Step ⟨.subs hsize sum, d⟩ ⟨.subs hsize' sum', { d with jf := jf }⟩
  | look {d d' : Dump} {hsize : Count} {sum : Summary} {fuel : Nat} :
      hsize.left = 0 → lookHeap fuel d = .ok d' → Step ⟨.subs hsize sum, d⟩ ⟨.records, d'⟩
  | finish {d : Dump} {jf : Jdump} :
      readTag d.jf = .ok (jf, none) → Step ⟨.records, d⟩ ⟨.done, { d with jf := jf }⟩

abbrev Steps : Machine → Machine → Prop := Relation.ReflTransGen Step

/-- The comparison with `EOF` never holds for an `unsigned char`. -/
theorem uchar_ne_EOF (rtype : Byte) : EOF ≠ (rtype.toNat : Int) := by
  rw [EOF]
  omega

theorem heapLoop_zero {hsize : Count} (fuel : Nat) (jf : Jdump) (sum : Summary)
    (empty : hsize.left = 0) : heapLoop fuel jf hsize sum = .ok (jf, hsize, sum) := by
  rw [heapLoop, if_pos empty]

theorem heapLoop_ok {hsize hsize' : Count} {sum sum' : Summary} (fuel : Nat) {jf jf' : Jdump}
    (more : hsize.left ≠ 0) (pass : heapPass jf hsize sum = .ok (jf', hsize', sum')) :
    heapLoop (fuel + 1) jf hsize sum = heapLoop fuel jf' hsize' sum' := by
  simp only [heapPass] at pass
  rw [heapLoop, if_neg more]
  simp only [if_neg (uchar_ne_EOF _), pass]

theorem heapLoop_error {hsize : Count} {sum : Summary} (fuel : Nat) {jf : Jdump} {stop : Stop}
    (more : hsize.left ≠ 0) (pass : heapPass jf hsize sum = .error stop) :
    heapLoop (fuel + 1) jf hsize sum = .error stop := by
  simp only [heapPass] at pass
  rw [heapLoop, if_neg more]
  simp only [if_neg (uchar_ne_EOF _), pass]

theorem heapLoop_fuel {hsize : Count} (jf : Jdump) (sum : Summary)
    (more : hsize.left ≠ 0) : heapLoop 0 jf hsize sum = .error .fuel := by
  rw [heapLoop, if_neg more]
  simp only [if_neg (uchar_ne_EOF _)]

theorem heapLoop_steps {fuel : Nat} {d : Dump} {jf : Jdump} {hsize hsize' : Count}
    {sum sum' : Summary} (run : heapLoop fuel d.jf hsize sum = .ok (jf, hsize', sum')) :
    Steps ⟨.subs hsize sum, d⟩ ⟨.subs hsize' sum', { d with jf := jf }⟩ ∧ hsize'.left = 0 := by
  induction fuel generalizing d hsize sum with
  | zero =>
    by_cases empty : hsize.left = 0
    · rw [heapLoop_zero _ _ _ empty] at run
      cases run
      exact ⟨.refl, empty⟩
    · rw [heapLoop_fuel _ _ empty] at run
      cases run
  | succ fuel ih =>
    by_cases empty : hsize.left = 0
    · rw [heapLoop_zero _ _ _ empty] at run
      cases run
      exact ⟨.refl, empty⟩
    · cases pass : heapPass d.jf hsize sum with
      | error stop =>
        rw [heapLoop_error _ empty pass] at run
        cases run
      | ok result =>
        obtain ⟨jf₁, hsize₁, sum₁⟩ := result
        rw [heapLoop_ok _ empty pass] at run
        obtain ⟨rest, ended⟩ := ih (d := { d with jf := jf₁ }) run
        exact ⟨.head (.sub empty pass) rest, ended⟩

/-- Every run of the record loop that returns is a run of the machine. -/
theorem dumpLoop_steps {fuel : Nat} {d d' : Dump} (run : dumpLoop fuel d = .ok d') :
    Steps ⟨.records, d⟩ ⟨.done, d'⟩ := by
  induction fuel generalizing d with
  | zero =>
    rw [dumpLoop] at run
    split at run
    · cases run
    · rename_i jf tag
      cases run
      exact .single (.finish tag)
    · cases run
  | succ fuel ih =>
    rw [dumpLoop] at run
    split at run
    · cases run
    · rename_i jf tag
      cases run
      exact .single (.finish tag)
    · rename_i jf rtype rlen tag
      simp only at run
      split at run
      · rename_i heap
        split at run
        · cases run
        · rename_i d₁ whole
          rw [readHeap] at whole
          split at whole
          · cases whole
          · rename_i jf₁ hsize₁ sum₁ segment
            obtain ⟨subs, ended⟩ := heapLoop_steps (d := { d with jf := enterHeap jf }) segment
            exact .head (.heap tag heap) (subs.trans (.head (.look ended whole) (ih run)))
      · rename_i plain
        split at run
        · cases run
        · rename_i jf₁ body
          exact .head (.record tag plain body) (ih run)

/-- A run with a check of the state it leaves, which can be evaluated. -/
def leaves (fuel : Nat) (d : Dump) (check : Dump → Bool) : Bool :=
  match dumpLoop fuel d with
  | .ok d' => check d'
  | .error _ => false

theorem leaves_steps {fuel : Nat} {d : Dump} {check : Dump → Bool}
    (run : leaves fuel d check = true) :
    ∃ d', Steps ⟨.records, d⟩ ⟨.done, d'⟩ ∧ check d' = true := by
  rw [leaves] at run
  split at run
  · rename_i d' whole
    exact ⟨d', dumpLoop_steps whole, run⟩
  · cases run

/-- The next control and tables, where looking leaves the tables. -/
def advance : Control × Jdump → Option (Control × Jdump)
  | (.records, jf) =>
    match readTag jf with
    | .error _ => none
    | .ok (jf, none) => some (.done, jf)
    | .ok (jf, some (rtype, rlen)) =>
      if rtype.toNat = 0x0c then some (.subs ⟨rlen, false⟩ .zero, enterHeap jf)
      else
        match readPlain rtype jf rlen with
        | .error _ => none
        | .ok jf => some (.records, jf)
  | (.subs hsize sum, jf) =>
    if hsize.left = 0 then some (.records, jf)
    else
      match heapPass jf hsize sum with
      | .error _ => none
      | .ok (jf, hsize, sum) => some (.subs hsize sum, jf)
  | (.done, _) => none

/-- The control and the tables after `n` steps. -/
def stage (jf : Jdump) : Nat → Option (Control × Jdump)
  | 0 => some (.records, jf)
  | n + 1 => (stage jf n).bind advance

/-- The loop of `readHeap` has ended. -/
def Control.looks : Control → Bool
  | .subs hsize _ => hsize.left = 0
  | _ => false

section Stages
variable {x y : Machine}

/-- A step that does not look keeps what has been resolved. -/
theorem Step.advance (step : Step x y) (kept : x.control.looks = true → y.d.jf = x.d.jf) :
    advance (x.control, x.d.jf) = some (y.control, y.d.jf) ∧
      (x.control.looks = false → y.d.lk = x.d.lk) := by
  cases step with
  | record tag other body =>
    refine ⟨?_, fun _ => rfl⟩
    simp only [Phat.advance, tag, if_neg other, body]
  | heap tag heap =>
    refine ⟨?_, fun _ => rfl⟩
    simp only [Phat.advance, tag, if_pos heap]
  | sub more pass =>
    refine ⟨?_, fun _ => rfl⟩
    simp only [Phat.advance, if_neg more, pass]
  | look empty look =>
    have ended := decide_eq_true empty
    refine ⟨?_, fun still => ?_⟩
    · rw [kept ended]
      simp only [Phat.advance, if_pos empty]
    · rw [Control.looks, ended] at still
      cases still
  | finish tag =>
    refine ⟨?_, fun _ => rfl⟩
    simp only [Phat.advance, tag]

theorem advance_step {control control' : Control} {d : Dump} {jf : Jdump}
    (next : advance (control, d.jf) = some (control', jf)) (still : control.looks = false) :
    Step ⟨control, d⟩ ⟨control', { d with jf := jf }⟩ := by
  cases control with
  | records =>
    rw [advance] at next
    split at next
    · cases next
    · rename_i tag
      cases next
      exact .finish tag
    · rename_i tag
      split at next
      · rename_i heap
        cases next
        exact .heap tag heap
      · rename_i other
        split at next
        · cases next
        · rename_i body
          cases next
          exact .record tag other body
  | subs hsize sum =>
    have more : hsize.left ≠ 0 := of_decide_eq_false still
    rw [advance, if_neg more] at next
    split at next
    · cases next
    · rename_i pass
      cases next
      exact .sub more pass
  | done => cases next

/-- The stages before the first look are reached. -/
theorem stage_steps {d : Dump} {n : Nat} {control : Control} {jf : Jdump}
    (before : ∀ k < n, ∀ c jf, stage d.jf k = some (c, jf) → c.looks = false)
    (reached : stage d.jf n = some (control, jf)) :
    Steps ⟨.records, d⟩ ⟨control, { d with jf := jf }⟩ := by
  induction n generalizing control jf with
  | zero =>
    cases reached
    exact .refl
  | succ n ih =>
    obtain ⟨⟨c, jf₁⟩, here, next⟩ := Option.bind_eq_some_iff.mp reached
    have steps := ih (fun k less => before k (Nat.lt_succ_of_lt less)) here
    exact steps.tail (@advance_step c control { d with jf := jf₁ } jf next
      (before n (Nat.lt_succ_self n) c jf₁ here))

end Stages

end Phat
