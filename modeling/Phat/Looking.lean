import Phat.Changes
import Phat.Choice
import Phat.Fuel
import Phat.Nesting

/-! Two runs over one file, with and without a class to look at. They read the same records
as long as looking leaves the file where it was; the resolver seeks in it and does not
come back. -/
namespace Phat
open DepthFirst (Visits)

/-- The objects `readHeap` resolves and prints at its end. -/
def Jdump.looked (jf : Jdump) : List ObjRef :=
  match jf.fclass with
  | none => []
  | some fclass =>
    if fclass.head? = some (chr '*') then jf.stored
    else match jf.findClass fclass with
      | none => []
      | some cdata => jf.stored.filter fun o => (jf.cinfo cdata).ident = (jf.hobject o).classId

/-- Looking neither stops the program nor moves the file. The objects that the ones looked at
lead to are as the resolver left them, their classes are complete, `talloc_array` refuses
none of them anything, and no object array of theirs contains itself; the traversal makes
its last read up to where the segment ends. -/
structure Calm (d : Dump) : Prop where
  grounded : Grounded d.jf (d.jf.From d.jf.looked) d.lk
  region : ∃ depth, d.jf.Region (d.jf.From d.jf.looked) depth
  allowed : ¬ d.jf.Denied d.lk d.jf.looked
  printable : d.jf.plimit ≠ 0 ∨ d.jf.NestedIn (d.jf.From d.jf.looked)
  back : ∀ trace m, Visits d.jf.graph d.lk.memo d.jf.looked trace m →
    lastTouch trace d.jf.fin.pos = d.jf.fin.pos

def Undisturbed (d : Dump) : Prop := d.jf.looked = [] ∨ Calm d

section Look
variable {d d' : Dump} {fuel : Nat}

/-- With a depth limit the depth alone decreases. -/
theorem lowers_of_limit {jf : Jdump} {S : ObjRef → Prop} (limited : jf.plimit ≠ 0) :
    Lowers jf S fun _ _ indent => jf.plimit.toNat + 2 - indent := by
  intro visit visit' o x indent _ _ shallow _ _ _ _
  have bound : indent ≤ 1 ∨ (indent : Int) ≤ jf.plimit := by
    by_contra deep
    apply shallow
    refine ⟨?_, limited, ?_⟩ <;> omega
  simp only
  omega

theorem Calm.measure (calm : Calm d) : ∃ measure bound,
    Lowers d.jf (d.jf.From d.jf.looked) measure ∧ ∀ visit o, measure visit o 0 ≤ bound := by
  obtain ⟨depth, region⟩ := calm.region
  rcases calm.printable with limited | nested
  · exact ⟨_, d.jf.plimit.toNat + 2, lowers_of_limit limited, fun _ _ => le_rfl⟩
  · exact ⟨_, _, Jdump.printMeasure_lowers region nested, fun visit o =>
      Jdump.printMeasure_le visit o 0⟩

/-- The look at the start of looking, where only the reader's position is new. -/
theorem Calm.start (calm : Calm d) :
    Grounded d.jf (d.jf.From d.jf.looked) { d.lk with pos := d.jf.fin.pos } :=
  calm.grounded.congr rfl rfl ⟨rfl, rfl, rfl, fun _ => rfl, fun _ => rfl⟩

theorem Calm.granted (calm : Calm d) :
    ¬ d.jf.Denied { d.lk with pos := d.jf.fin.pos } d.jf.looked := calm.allowed

/-- What resolving all that is looked at does to the file. -/
theorem Calm.resolved (calm : Calm d) {lk : Look}
    (run : resolveAll d.jf fuel d.jf.looked { d.lk with pos := d.jf.fin.pos } = .ok lk) :
    lk.pos = d.jf.fin.pos := by
  obtain ⟨depth, region⟩ := calm.region
  have more := resolveAll_mono run (Nat.le_max_left fuel (d.jf.stored.toFinset.card + depth + 1))
  rcases resolveAll_grounded region (lt_of_lt_of_le (Nat.lt_succ_self _) (Nat.le_max_right _ _))
    calm.start (fun _ => .start) with ⟨lk', ok, trace, calls, ran, _⟩ | ⟨stop, _⟩
  · rw [more] at ok
    cases ok
    rw [ran.pos]
    exact calm.back trace _ calls
  · rw [more] at stop
    cases stop

/-- However looking ends, the file is where it was. -/
theorem Undisturbed.kept (undisturbed : Undisturbed d) (look : lookHeap fuel d = .ok d') :
    d'.jf = d.jf := by
  have back : ∀ lk, resolveAll d.jf fuel d.jf.looked { d.lk with pos := d.jf.fin.pos } = .ok lk →
      lk.pos = d.jf.fin.pos := by
    intro lk run
    rcases undisturbed with none | calm
    · rw [none] at run
      cases run
      rfl
    · exact calm.resolved run
  rw [Jdump.looked] at back
  rw [lookHeap] at look
  split at look
  · cases look
    rfl
  · rename_i fclass chosen
    simp only [chosen] at back
    simp only at look
    split at look
    · rename_i star
      rw [if_pos star] at back
      split at look
      · cases look
      · rename_i lk run
        split at look
        · cases look
        · cases look
          exact congrArg (fun pos => { d.jf with fin := d.jf.fin.seekSet pos }) (back lk run)
    · rename_i name
      rw [if_neg name] at back
      split at look
      · cases look
        rfl
      · rename_i cdata known
        simp only [known] at back
        split at look
        · cases look
        · rename_i lk screen run
          cases look
          exact congrArg (fun pos => { d.jf with fin := d.jf.fin.seekSet pos })
            (back lk (collectFrom_resolves run))

theorem collectFrom_none {jf : Jdump} {ckey : BitVec 64} {os : List ObjRef} {lk : Look} {s : Screen}
    (none : (os.filter fun o => ckey = (jf.hobject o).classId) = []) :
    collectFrom jf fuel ckey os lk s = .ok (lk, s) := by
  induction os with
  | nil => rfl
  | cons o os ih =>
    by_cases wanted : ckey = (jf.hobject o).classId
    · rw [List.filter_cons_of_pos (by simpa using wanted)] at none
      cases none
    · rw [List.filter_cons_of_neg (by simpa using wanted)] at none
      rw [collectFrom, if_neg wanted]
      exact ih none

/-- With nothing to look at, looking ends at once. -/
theorem lookHeap_nothing (none : d.jf.looked = []) : ∃ d', lookHeap fuel d = .ok d' := by
  rw [Jdump.looked] at none
  unfold lookHeap
  split
  · exact ⟨d, rfl⟩
  · rename_i fclass chosen
    simp only [chosen] at none
    simp only
    split
    · rename_i star
      rw [if_pos star] at none
      rw [resolveInstances, none]
      simp only [resolveAll, printInstances, none]
      exact ⟨_, rfl⟩
    · rename_i name
      rw [if_neg name] at none
      split
      · exact ⟨d, rfl⟩
      · rename_i cdata known
        simp only [known] at none
        rw [collectStats, collectFrom_none none]
        exact ⟨_, rfl⟩

theorem Calm.ends (calm : Calm d) : ∃ fuel d', lookHeap fuel d = .ok d' := by
  obtain ⟨depth, region⟩ := calm.region
  obtain ⟨measure, bound, lowers, small⟩ := calm.measure
  have start := calm.start
  have granted := calm.granted
  have enough : d.jf.stored.toFinset.card + depth <
      d.jf.stored.toFinset.card + depth + bound + 1 := by omega
  have prints : ∀ visit, ∀ o ∈ d.jf.stored, measure visit o 0 <
      d.jf.stored.toFinset.card + depth + bound + 1 := by
    intro visit o _
    have least := small visit o
    omega
  have here : ∀ o ∈ d.jf.looked, d.jf.From d.jf.looked o := fun _ => .start
  refine ⟨d.jf.stored.toFinset.card + depth + bound + 1, ?_⟩
  generalize d.jf.From d.jf.looked = S at region lowers start here
  rw [Jdump.looked] at granted here
  unfold lookHeap
  split
  · exact ⟨d, rfl⟩
  · rename_i fclass chosen
    simp only [chosen] at granted here
    simp only
    split
    · rename_i star
      rw [if_pos star] at granted here
      rcases resolveAll_grounded region enough start here with
        ⟨lk', ok, trace, calls, _, grounded⟩ | ⟨_, denied⟩
      · rw [resolveInstances, ok]
        simp only
        have shown : Shown d.jf True d.screen
            (printInstances d.jf lk' (d.jf.stored.toFinset.card + depth + bound + 1) d.screen) := by
          apply printAll_shown region grounded (fun _ => lowers) here
          · exact fun o member => calls.seen_roots member
          · exact fun _ => prints
        rcases shown with ⟨s', printed, _⟩ | ⟨unsure, _⟩
        · rw [printed]
          exact ⟨_, rfl⟩
        · exact absurd trivial unsure
      · exact absurd denied granted
    · rename_i name
      rw [if_neg name] at granted here
      split
      · exact ⟨d, rfl⟩
      · rename_i cdata known
        simp only [known] at granted here
        rcases @collectFrom_shown d.jf S depth _ _ True d.screen measure region enough start
          (fun _ => lowers) (d.jf.cinfo cdata).ident d.jf.stored here (fun _ => prints) with
          ⟨lk', s', _, ok, _⟩ | ⟨_, _, _, _, stops⟩
        · rw [collectStats, ok]
          exact ⟨_, rfl⟩
        · exact absurd (stops trivial) granted

theorem Undisturbed.ends (undisturbed : Undisturbed d) : ∃ fuel d', lookHeap fuel d = .ok d' := by
  rcases undisturbed with none | calm
  · exact ⟨0, lookHeap_nothing none⟩
  · exact calm.ends

end Look

/-- The state of the run that looks and that of the run that does not. -/
structure Alike (fclass : Option CString) (x y : Machine) : Prop where
  control : y.control = x.control
  jf : y.d.jf = x.d.jf.choose fclass
  plain : x.d.jf.fclass = none

/-- Whenever the loop of `readHeap` has ended, looking goes by unnoticed. -/
def Calmly (x : Machine) : Prop :=
  ∀ hsize sum, x.control = .subs hsize sum → hsize.left = 0 → Undisturbed x.d

section Runs
variable {fclass : Option CString} {x x' y y' : Machine}

theorem Alike.after {control : Control} {d d' : Dump} {jf jf' : Jdump} (alike : Alike fclass x y)
    (changes : Changes x.d.jf jf) (same : jf' = jf.choose fclass) :
    Alike fclass ⟨control, { d with jf := jf }⟩ ⟨control, { d' with jf := jf' }⟩ :=
  ⟨rfl, same, changes.fclass.trans alike.plain⟩

/-- A run without a class to look at passes over `lookHeap`. -/
theorem lookHeap_plain {fuel : Nat} {d : Dump} (plain : d.jf.fclass = none) :
    lookHeap fuel d = .ok d := by
  rw [lookHeap, plain]

/-- Every step of the looking run is one of the plain run. -/
theorem Alike.forward (alike : Alike fclass x y) (calm : Calmly y) (step : Step y y') :
    ∃ x', Step x x' ∧ Alike fclass x' y' := by
  obtain ⟨control, d⟩ := x
  obtain ⟨same, jf, plain⟩ := alike
  simp only at same jf plain
  have back : Alike fclass ⟨control, d⟩ y := ⟨same, jf, plain⟩
  cases step with
  | @record e _ _ rtype rlen tag other body =>
    subst same
    rw [jf, readTag_choose] at tag
    obtain ⟨⟨jf₁, tag₁⟩, first, result⟩ := map_ok tag
    cases result
    rw [readPlain_choose] at body
    obtain ⟨jf₂, second, rfl⟩ := map_ok body
    have changes := (readTag_changes first).trans (readPlain_changes second)
    exact ⟨_, .record first other second, back.after changes rfl⟩
  | @heap e _ rtype rlen tag heap =>
    subst same
    rw [jf, readTag_choose] at tag
    obtain ⟨⟨jf₁, tag₁⟩, first, result⟩ := map_ok tag
    cases result
    exact ⟨_, .heap first heap, back.after ((readTag_changes first).tail (.enter _)) rfl⟩
  | @sub e _ hsize hsize' sum sum' more pass =>
    subst same
    rw [jf, heapPass_choose] at pass
    obtain ⟨⟨jf₁, rest⟩, first, result⟩ := map_ok pass
    cases result
    exact ⟨_, .sub more first, back.after (heapPass_changes first) rfl⟩
  | @look e e' hsize sum fuel empty look =>
    subst same
    have kept := (calm hsize sum rfl empty).kept look
    exact ⟨_, .look empty (@lookHeap_plain 0 _ plain), rfl, kept.trans jf, plain⟩
  | @finish e _ tag =>
    subst same
    rw [jf, readTag_choose] at tag
    obtain ⟨⟨jf₁, tag₁⟩, first, result⟩ := map_ok tag
    cases result
    exact ⟨_, .finish first, back.after (readTag_changes first) rfl⟩

/-- Every step of the plain run is one of the looking run, whose looking ends. -/
theorem Alike.backward (alike : Alike fclass x y) (calm : Calmly y) (step : Step x x') :
    ∃ y', Step y y' ∧ Alike fclass x' y' := by
  obtain ⟨control, e⟩ := y
  obtain ⟨same, jf, plain⟩ := alike
  simp only at same jf
  have back : Alike fclass x ⟨control, e⟩ := ⟨same, jf, plain⟩
  cases step with
  | @record d jf₁ jf₂ rtype rlen tag other body =>
    subst same
    have first : readTag e.jf = .ok (jf₁.choose fclass, some (rtype, rlen)) := by
      rw [jf, readTag_choose, tag]
      rfl
    have second : readPlain rtype (jf₁.choose fclass) rlen = .ok (jf₂.choose fclass) := by
      rw [readPlain_choose, body]
      rfl
    have changes := (readTag_changes tag).trans (readPlain_changes body)
    exact ⟨_, .record first other second, back.after changes rfl⟩
  | @heap d jf₁ rtype rlen tag heap =>
    subst same
    have first : readTag e.jf = .ok (jf₁.choose fclass, some (rtype, rlen)) := by
      rw [jf, readTag_choose, tag]
      rfl
    exact ⟨_, .heap first heap, back.after ((readTag_changes tag).tail (.enter _)) rfl⟩
  | @sub d jf₁ hsize hsize' sum sum' more pass =>
    subst same
    have first : heapPass e.jf hsize sum = .ok (jf₁.choose fclass, hsize', sum') := by
      rw [jf, heapPass_choose, pass]
      rfl
    exact ⟨_, .sub more first, back.after (heapPass_changes pass) rfl⟩
  | @look d d' hsize sum fuel empty look =>
    subst same
    rw [lookHeap_plain plain] at look
    cases look
    obtain ⟨fuel, e', ends⟩ := (calm hsize sum rfl empty).ends
    have kept := (calm hsize sum rfl empty).kept ends
    exact ⟨_, .look empty ends, rfl, kept.trans jf, plain⟩
  | @finish d jf₁ tag =>
    subst same
    have first : readTag e.jf = .ok (jf₁.choose fclass, none) := by
      rw [jf, readTag_choose, tag]
      rfl
    exact ⟨_, .finish first, back.after (readTag_changes tag) rfl⟩

theorem looking_kept (fclass : Option CString) (d : Dump) (plain : d.jf.fclass = none)
    (calm : ∀ y, Steps ⟨.records, { d with jf := d.jf.choose fclass }⟩ y → Calmly y) :
    (∀ y, Steps ⟨.records, { d with jf := d.jf.choose fclass }⟩ y →
      ∃ x, Steps ⟨.records, d⟩ x ∧ Alike fclass x y) ∧
    (∀ x, Steps ⟨.records, d⟩ x →
      ∃ y, Steps ⟨.records, { d with jf := d.jf.choose fclass }⟩ y ∧ Alike fclass x y) := by
  have start : Alike fclass ⟨.records, d⟩ ⟨.records, { d with jf := d.jf.choose fclass }⟩ :=
    ⟨rfl, rfl, plain⟩
  constructor
  · intro y steps
    induction steps with
    | refl => exact ⟨_, .refl, start⟩
    | tail before step ih =>
      obtain ⟨x, reached, alike⟩ := ih
      obtain ⟨x', next, alike'⟩ := alike.forward (calm _ before) step
      exact ⟨x', reached.tail next, alike'⟩
  · intro x steps
    induction steps with
    | refl => exact ⟨_, .refl, start⟩
    | tail _ step ih =>
      obtain ⟨y, reached, alike⟩ := ih
      obtain ⟨y', next, alike'⟩ := alike.backward (calm _ reached) step
      exact ⟨y', reached.tail next, alike'⟩

/-- A string, a class, a heap dump of a byte array, and a string. -/
def sampleKept (fclass : Option CString) : Jdump := .start
  [0x01, 0, 0, 0, 0, 0, 0, 0, 6, 0, 0, 0, 3, 0x5b, 0x42,
    0x02, 0, 0, 0, 0, 0, 0, 0, 16, 0, 0, 0, 1, 0, 0, 0, 20, 0, 0, 0, 0, 0, 0, 0, 3,
    0x0c, 0, 0, 0, 0, 0, 0, 0, 15, 0x23, 0, 0, 0, 9, 0, 0, 0, 0, 0, 0, 0, 1, 8, 7,
    0x01, 0, 0, 0, 0, 0, 0, 0, 5, 0, 0, 0, 6, 0x78] .four fclass

/-- What the record before the last leaves for the look: the array, which ends where the
segment does. -/
def QuietHeap (jf : Jdump) : Prop :=
  jf.looked = [0] ∧ jf.stored = [0] ∧ jf.cTable.lookup32 0 = none ∧ jf.classOf 0 = some 0 ∧
    (jf.cinfo 0).superId = 0 ∧ (jf.cinfo 0).name.isSome = true ∧
    (jf.hobject 0).htype = .hVarray ∧ (jf.hobject 0).count = 1 ∧ jf.arrayEnd 0 = jf.fin.pos

instance (jf : Jdump) : Decidable (QuietHeap jf) := by unfold QuietHeap; infer_instance

theorem QuietHeap.calm {d : Dump} (quiet : QuietHeap d.jf) (fresh : d.lk = .zero) : Calm d := by
  obtain ⟨looked, stored, zero, classOf, root, named, varray, one, last⟩ := quiet
  have here : (0 : ObjRef) ∈ d.jf.stored := by
    rw [stored]
    exact List.mem_cons_self
  have some : (d.jf.hobject 0).count ≠ 0 := by
    rw [one]
    decide
  have acts : d.jf.graph.acts 0 = [.touch d.jf.fin.pos] := by
    rw [Jdump.graph_acts here, Jdump.objectActs, varray, last]
    exact if_neg some
  have alone : ∀ x, d.jf.From d.jf.looked x → x = 0 := by
    rintro x ⟨o, member, path⟩
    rw [looked] at member
    obtain rfl := List.mem_singleton.mp member
    rcases Relation.ReflTransGen.cases_head path with rfl | ⟨y, edge, _⟩
    · rfl
    · rw [DepthFirst.Graph.Edge, acts] at edge
      cases edge
  have chain : d.jf.Chain 0 [0] := .root root
  have seen : ∀ o, (d.lk.objects o).resolved = false := by
    rw [fresh]
    exact fun _ => rfl
  refine ⟨⟨⟨?_, ?_, ?_⟩, ?_, ?_, ?_⟩, ⟨1, zero, ?_, ?_, ?_⟩, ?_, ?_, ?_⟩
  · intro c resolved
    rw [fresh] at resolved
    cases resolved
  · rw [fresh]
    exact .empty rfl rfl
  · rw [fresh]
    exact fun _ _ => ⟨rfl, rfl⟩
  · intro o _ _ resolved
    rw [seen] at resolved
    cases resolved
  · intro o _ resolved
    rw [seen] at resolved
    cases resolved
  · intro o _ _ resolved
    rw [seen] at resolved
    cases resolved
  · intro o inside
    rwa [alone o inside]
  · intro o dref inside edge
    rw [alone o inside, DepthFirst.Graph.Edge, acts] at edge
    cases edge
  · intro o inside
    rw [alone o inside]
    exact ⟨0, [0], classOf, chain, le_rfl, named⟩
  · rintro (⟨x, ⟨o, member, path, _⟩, refused⟩ | many)
    swap
    · exact Jdump.not_crowded (by rw [fresh]; rfl) (by rw [stored]; decide) many
    obtain rfl := alone x ⟨o, member, path⟩
    rcases refused with ⟨c, cs, again, chain', many⟩ | ⟨many, _⟩
    · obtain rfl : 0 = c := Option.some.inj (classOf.symm.trans again)
      obtain rfl := chain'.unique chain
      rw [Jdump.fieldCount, List.map_singleton, List.sum_singleton, Jdump.counted, if_pos root]
        at many
      exact absurd many (by decide)
    · rw [one] at many
      exact absurd many (by decide)
  · right
    intro o inside circle
    obtain ⟨_, edge, _⟩ := Relation.TransGen.head'_iff.mp circle
    have oarray := edge.1.2.1
    rw [alone o inside, varray] at oarray
    cases oarray
  · intro trace m calls
    have idle : ¬ d.jf.graph.idle 0 := fun idle => some idle.2.2
    have run : DepthFirst.Perform d.jf.graph (d.lk.memo.mark 0) 0 (d.jf.graph.acts 0)
        [.touch d.jf.fin.pos] (d.lk.memo.mark 0) := by
      rw [acts]
      exact .touch (.nil _ _)
    rw [looked] at calls
    obtain ⟨rfl, _⟩ := calls.unique (.cons (.enter (seen 0) idle run) (.nil _))
    rfl

/-- The run over `sampleKept` looks once. -/
theorem sampleKept_looks {n : Nat} {control : Control} {jf : Jdump}
    (reached : stage (sampleKept (some [chr '*'])) n = some (control, jf))
    (looks : control.looks = true) : n = 4 ∧ QuietHeap jf := by
  have others : ∀ k < 8, k ≠ 4 → (stage (sampleKept (some [chr '*'])) k).all
      (fun state => state.1.looks = false) = true := by decide +kernel
  have quiet : (stage (sampleKept (some [chr '*'])) 4).all
      (fun state => decide (QuietHeap state.2)) = true := by decide +kernel
  have ended : (stage (sampleKept (some [chr '*'])) 8).isNone = true := by decide +kernel
  have after : ∀ k, stage (sampleKept (some [chr '*'])) (8 + k) = none := by
    intro k
    induction k with
    | zero => exact Option.isNone_iff_eq_none.mp ended
    | succ k ih => rw [Nat.add_succ, stage, ih, Option.bind_none]
  have early : n < 8 := by
    by_contra late
    obtain ⟨k, rfl⟩ := Nat.exists_eq_add_of_le (Nat.le_of_not_lt late)
    rw [after] at reached
    cases reached
  by_cases fourth : n = 4
  · subst fourth
    rw [reached] at quiet
    exact ⟨rfl, of_decide_eq_true quiet⟩
  · have still := others n early fourth
    rw [reached] at still
    rw [of_decide_eq_true still] at looks
    cases looks

theorem sampleKept_calm {y : Machine}
    (steps : Steps ⟨.records, ⟨sampleKept (some [chr '*']), .zero, ⟨fun _ => false, []⟩⟩⟩ y) :
    Calmly y := by
  have calmly : ∀ n x, stage (sampleKept (some [chr '*'])) n = some (x.control, x.d.jf) →
      (n ≤ 4 → x.d.lk = .zero) → Calmly x := by
    intro n x reached fresh hsize sum at_end empty
    have looks : x.control.looks = true := by
      rw [at_end]
      exact decide_eq_true empty
    obtain ⟨rfl, quiet⟩ := sampleKept_looks reached looks
    exact .inr (quiet.calm (fresh le_rfl))
  suffices staged : ∃ n, stage (sampleKept (some [chr '*'])) n = some (y.control, y.d.jf) ∧
      (n ≤ 4 → y.d.lk = .zero) by
    obtain ⟨n, reached, fresh⟩ := staged
    exact calmly n y reached fresh
  induction steps with
  | refl => exact ⟨0, rfl, fun _ => rfl⟩
  | @tail x y _ step ih =>
    obtain ⟨n, reached, fresh⟩ := ih
    have kept : x.control.looks = true → y.d.jf = x.d.jf := by
      intro looks
      cases step with
      | look empty look => exact (calmly n _ reached fresh _ _ rfl empty).kept look
      | sub more _ => exact absurd (of_decide_eq_true looks) more
      | _ => cases looks
    obtain ⟨next, still⟩ := step.advance kept
    refine ⟨n + 1, ?_, fun early => ?_⟩
    · rw [stage, reached, Option.bind_some, next]
    · rw [still ?_]
      · exact fresh (by omega)
      · rw [← Bool.not_eq_true]
        intro looks
        have fourth := (sampleKept_looks reached looks).1
        omega

/-- An array is looked at on the way, and the string after it is recorded. -/
theorem looking_kept_sampleKept : ∃ y z,
    Steps ⟨.records, ⟨sampleKept (some [chr '*']), .zero, ⟨fun _ => false, []⟩⟩⟩ y ∧
      y.control = .done ∧ y.d.jf.sbTable.lookup32 6 = some [chr 'x'] ∧
    Steps ⟨.records, ⟨sampleKept (some [chr '*']), .zero, ⟨fun _ => false, []⟩⟩⟩ z ∧
      z.control.looks = true ∧ z.d.jf.looked = [0] ∧ Calm z.d := by
  obtain ⟨_, kept⟩ := looking_kept (some [chr '*']) ⟨sampleKept none, .zero, ⟨fun _ => false, []⟩⟩
    rfl fun _ => sampleKept_calm
  have whole : leaves 20 ⟨sampleKept none, .zero, ⟨fun _ => false, []⟩⟩
      (fun d => decide (d.jf.sbTable.lookup32 6 = some [chr 'x'])) = true := by
    decide +kernel
  obtain ⟨d', steps, found⟩ := leaves_steps whole
  obtain ⟨y, reached, alike⟩ := kept _ steps
  have fourth : (stage (sampleKept (some [chr '*'])) 4).map (fun state => state.1.looks) =
      some true := by
    decide +kernel
  obtain ⟨⟨control, jf⟩, here, looks⟩ := Option.map_eq_some_iff.mp fourth
  have quiet := (sampleKept_looks here looks).2
  have before := @stage_steps ⟨sampleKept (some [chr '*']), .zero, ⟨fun _ => false, []⟩⟩ 4 control jf
    (fun k less c jf₁ earlier => ?_) here
  · refine ⟨y, _, reached, alike.control, ?_, before, looks, quiet.1, quiet.calm rfl⟩
    rw [alike.jf]
    exact of_decide_eq_true found
  · rw [← Bool.not_eq_true]
    intro again
    have late := (sampleKept_looks earlier again).1
    omega

/-- A string, a class, a heap dump of a byte array and a root after it, and a string. -/
def sampleLooked : List Byte :=
  [0x01, 0, 0, 0, 0, 0, 0, 0, 6, 0, 0, 0, 3, 0x5b, 0x42,
    0x02, 0, 0, 0, 0, 0, 0, 0, 16, 0, 0, 0, 1, 0, 0, 0, 20, 0, 0, 0, 0, 0, 0, 0, 3,
    0x0c, 0, 0, 0, 0, 0, 0, 0, 20, 0x23, 0, 0, 0, 9, 0, 0, 0, 0, 0, 0, 0, 1, 8, 7, 5, 0, 0, 0, 5,
    0x01, 0, 0, 0, 0, 0, 0, 0, 5, 0, 0, 0, 6, 0x78]

/-- The look at the array leaves the file before the root, which is taken for a record. -/
theorem looking_loses_string : ∃ x y,
    Steps ⟨.records, .start sampleLooked .four none⟩ x ∧ x.control = .done ∧
      x.d.jf.sbTable.lookup32 6 = some [chr 'x'] ∧
    Steps ⟨.records, .start sampleLooked .four (some [chr '*'])⟩ y ∧ y.control = .done ∧
      y.d.jf.sbTable.lookup32 6 = none := by
  have plain : leaves 20 (.start sampleLooked .four none)
      (fun d => decide (d.jf.sbTable.lookup32 6 = some [chr 'x'])) = true := by
    decide +kernel
  have looks : leaves 20 (.start sampleLooked .four (some [chr '*']))
      (fun d => decide (d.jf.sbTable.lookup32 6 = none)) = true := by
    decide +kernel
  obtain ⟨d, steps, found⟩ := leaves_steps plain
  obtain ⟨e, steps', lost⟩ := leaves_steps looks
  exact ⟨_, _, steps, rfl, of_decide_eq_true found, steps', rfl, of_decide_eq_true lost⟩

end Runs

end Phat
