import Phat.Traversal

/-! The three branches of `resolveInstance`, the calls it makes of itself, and the
outermost calls made of it. -/
namespace Phat
open DepthFirst (Memo Visit Visits Perform entered unmarked)

/-- What `resolveInstance` does for an object once it is marked and its class is laid
out. -/
structure Turn (jf : Jdump) (o : ObjRef) (lk lk' : Look) (a : BitVec 64) (trace : Trace) :
    Prop where
  empty : jf.Empty o → lk'.memo = lk.memo ∧ a = 0 ∧ trace = [.ret o 0]
  full : ¬ jf.Empty o → ∃ inner m₁, Perform jf.graph lk.memo o (jf.objectActs o) inner m₁ ∧
    lk'.memo = m₁.settle o (jf.ownSize o) ∧ a = (m₁.settle o (jf.ownSize o)).total o ∧
    trace = inner ++ [.ret o a]
  ran : Ran jf (· = o) (· = o) lk lk' trace
  decoded : Decoded jf o (lk'.objects o)
  few : maxCount 8 ≤ (jf.hobject o).count.toNat → (jf.hobject o).htype ≠ .hOarray ∧
    ((jf.hobject o).htype = .hVarray → ∀ width, elementCase (jf.kindOf o) ≠ some (width, true))

section Turn
variable {jf : Jdump} {S : ObjRef → Prop} {I : Account} {depth limit : Nat}
  {visit : Look → ObjRef → Except Stop (Look × BitVec 64)} {lk : Look} {o : ObjRef}
  {c : ClassRef} {cs : List ClassRef}

theorem xclassId_some {classId old : BitVec 64} {name : Option CString}
    (named : name.isSome = true) : ∃ xclass, xclassId classId name old = some xclass := by
  rw [Option.isSome_iff_exists] at named
  obtain ⟨name, rfl⟩ := named
  rw [xclassId]
  split
  · exact ⟨_, rfl⟩
  · exact ⟨_, rfl⟩

theorem Look.settle_resolved (lk : Look) (o : ObjRef) (c x : ClassRef) (size : BitVec 64) :
    ((lk.settle o c size).classes x).resolved = (lk.classes x).resolved := by
  by_cases here : x = c
  · simp [settle, setObj, setClass, here]
  · simp [settle, setObj, setClass, here]

theorem Look.settle_hvalues (lk : Look) (o : ObjRef) (c : ClassRef) (size : BitVec 64) :
    ((lk.settle o c size).objects o).hvalues = (lk.objects o).hvalues := by
  simp [settle, setObj, setClass]

/-- The end of a turn without calls: the sizes are assigned. -/
theorem settle_instant (ready : Ready jf lk) (turn : (lk.objects o).resolved = true)
    (csize : (lk.objects o).csize = 0) {ho : ObjLook} (resolved : ho.resolved = true)
    (osize : ho.osize = (lk.objects o).osize) (below : ho.csize = 0) (pos : Nat)
    (size : BitVec 64) :
    let lk₁ := { lk.setObj o ho with pos := pos }.note (.touch pos)
    let lk' := (lk₁.settle o c size).note (.ret o size)
    lk'.memo = lk.memo.settle o size ∧ size = (lk.memo.settle o size).total o ∧
      Ran jf (· = o) (· = o) lk lk' ([.touch pos] ++ [.ret o size]) ∧
      (lk'.objects o).hvalues = ho.hvalues ∧ (lk'.objects o).xclassId = ho.xclassId := by
  intro lk₁ lk'
  have memo : lk₁.memo = lk.memo :=
    Look.memo_setObj (resolved.trans turn.symm) osize (below.trans csize.symm)
  refine ⟨?_, ?_, ?_, ?_⟩
  · rw [← memo, ← Look.memo_settle c size]
    rfl
  · rw [Memo.total, Memo.own_settle_self, Memo.below_settle]
    change size = size + (lk.objects o).csize
    rw [csize]
    exact (BitVec.add_zero size).symm
  · have sound : Sound jf lk₁ := ready.sound.congr rfl
    have assigned : ArcsAlone lk lk₁ := ⟨rfl, rfl, rfl, fun _ => rfl, fun _ => rfl⟩
    refine .instant ready turn ((sound.settle c size).congr rfl) rfl ?_ rfl ?_ ?_ ?_
      (assigned.trans (.settle lk₁ o c size _))
    · simp [lk', lk₁, Look.settle, Look.note, Look.setClass, Look.setObj]
    · exact fun x => Look.settle_resolved lk₁ o c x size
    · intro x apart
      simp [lk', lk₁, Look.settle, Look.note, Look.setClass, Look.setObj, apart]
    · simp [lk', lk₁, Look.settle, Look.note, Look.setClass, Look.setObj, resolved]
  · constructor <;> simp [lk', lk₁, Look.settle, Look.note, Look.setClass, Look.setObj]

/-- The branch of `H_VARRAY`. -/
theorem resolveVarray_turn (watched : Watched jf I)
    (varray : (jf.hobject o).htype = .hVarray) (stored : o ∈ jf.stored)
    (classOf : jf.classOf o = some c) (named : (jf.cinfo c).name.isSome = true)
    (ready : Ready jf lk) (turn : (lk.objects o).resolved = true)
    (laid : (lk.classes c).resolved = true)
    (csize : (lk.objects o).csize = 0) (xclass : (lk.objects o).xclassId = 0) :
    Outcome (jf.Refused o) (resolveVarray jf lk o c) fun result => ∃ trace,
      Turn jf o lk result.1 result.2 trace ∧
      Carries I lk result.1 (jf.deedsOf trace + jf.deeds o) := by
  by_cases none : (jf.hobject o).count = 0
  · have empty : jf.Empty o := ⟨by rw [varray]; decide, none⟩
    have few : ¬ maxCount 8 ≤ (jf.hobject o).count.toNat := by
      rw [none]
      decide
    have value : resolveVarray jf lk o c =
        .ok ((lk.setObj o { lk.objects o with hvalues := .bytes [] }).leave o 0) := by
      rw [resolveVarray]
      simp only [if_pos none, if_neg few]
    refine .inl ⟨_, value, [.ret o 0], ⟨fun _ => ⟨Look.memo_setObj rfl rfl rfl, rfl, rfl⟩,
      fun full => absurd empty full, ?_, ?_, fun many => absurd many few⟩, ?_⟩
    · refine .instant ready turn (ready.sound.congr rfl) rfl rfl rfl (fun _ => rfl) ?_ ?_
        ⟨rfl, rfl, rfl, fun _ => rfl, fun _ => rfl⟩
      · exact fun x apart => Look.objects_setObj_of_ne _ _ _ apart
      · simpa [Look.leave, Look.note, Look.setObj] using turn
    · constructor
      · intro hvalues expected
        rw [Jdump.decoded] at expected
        simp only [varray, if_pos none, Option.some.injEq] at expected
        simp [Look.leave, Look.note, Look.setObj, expected]
      · exact fun _ some => absurd none some
    · have idle : links o (jf.objectActs o) = 0 := by
        rw [Jdump.objectActs, varray]
        simp only [if_pos none, links_nil]
      rw [jf.deeds_empty empty, idle]
      exact watched.still rfl rfl rfl rfl
  · have busy : ¬ jf.Empty o := fun empty => none empty.2
    obtain ⟨code, found⟩ := @xclassId_some (jf.hobject o).classId 0 _ named
    have same : code = jf.xclassOf o := by
      rw [Jdump.xclassOf, classOf]
      simp only [found, Option.getD_some]
    have kind : arrayKind code (jf.hobject o).classId = jf.kindOf o := by
      rw [same, Jdump.kindOf]
    have own : varraySize (jf.kindOf o) (jf.hobject o).count = jf.ownSize o := by
      rw [Jdump.ownSize, varray]
    have acts : jf.objectActs o = [.touch (jf.arrayEnd o)] := by
      rw [Jdump.objectActs, varray]
      simp only [if_neg none]
    have run : Perform jf.graph lk.memo o (jf.objectActs o) [.touch (jf.arrayEnd o)] lk.memo := by
      rw [acts]
      exact .touch (.nil _ _)
    have finish : ∀ hvalues lk', jf.decoded o = some hvalues →
        (maxCount 8 ≤ (jf.hobject o).count.toNat → ∀ width,
          elementCase (jf.kindOf o) ≠ some (width, true)) →
        lk' = (({ lk.setObj o { lk.objects o with
              hvalues := hvalues, xclassId := code } with pos := jf.arrayEnd o }.note
          (.touch (jf.arrayEnd o))).settle o c (jf.ownSize o)).note (.ret o (jf.ownSize o)) →
        ∃ trace, Turn jf o lk lk' (jf.ownSize o) trace ∧
          Carries I lk lk' (jf.deedsOf trace + jf.deeds o) := by
      rintro hvalues _ decoded few rfl
      obtain ⟨memo, total, ran, content, typed⟩ := @settle_instant jf lk o c ready turn csize
        { lk.objects o with hvalues := hvalues, xclassId := code } turn rfl csize (jf.arrayEnd o)
        (jf.ownSize o)
      refine ⟨_, ⟨fun empty => absurd empty busy, fun _ => ⟨_, _, run, memo, total, rfl⟩, ran,
        ?_, ?_⟩, ?_⟩
      · constructor
        · intro expected found
          rw [decoded] at found
          rw [content, ← Option.some.inj found]
        · intro _ _
          rw [typed]
          exact same
      · intro many
        exact ⟨by rw [varray]; decide, fun _ => few many⟩
      · rw [Jdump.deedsOf_append, Jdump.deedsOf_ret, Jdump.deedsOf_nil, add_zero]
        apply Carries.settle watched stored busy classOf (by exact laid)
        rw [acts]
        exact watched.still rfl rfl rfl rfl
    rw [resolveVarray]
    simp only [if_neg none, Look.objects_setObj_self, xclass, found, kind, own, Look.setObj_setObj,
      Look.leave]
    split
    · rename_i width reads
      by_cases many : maxCount 8 ≤ (jf.hobject o).count.toNat
      · rw [if_pos many]
        exact .inr ⟨rfl, .inr ⟨many, .inr ⟨varray, width, reads⟩⟩⟩
      · have ends : (jf.arrayData o width).2.pos = jf.arrayEnd o := by
          rw [Jdump.arrayEnd, reads]
        have decoded : jf.decoded o = some (.bytes (jf.arrayData o width).1) := by
          rw [Jdump.decoded, varray]
          simp only [if_neg none, reads]
        have data : (jf.fin.seekSet (jf.hobject o).fpos).fread
            (width * (jf.hobject o).count.toNat) = jf.arrayData o width := rfl
        rw [if_neg many]
        simp only [data, ends]
        exact .inl ⟨_, rfl, finish _ _ decoded (fun limit => absurd limit many) rfl⟩
    · rename_i unread
      have ends : (jf.hobject o).fpos = jf.arrayEnd o := by
        rw [Jdump.arrayEnd]
        split
        · rename_i width reads
          exact (unread width reads).elim
        · rfl
      have decoded : jf.decoded o = some (if maxCount 8 ≤ (jf.hobject o).count.toNat
          then .null else .bytes []) := by
        rw [Jdump.decoded, varray]
        simp only [if_neg none]
      rw [ends]
      exact .inl ⟨_, rfl, finish _ _ decoded (fun _ => unread) rfl⟩

/-- The end of a turn with calls. -/
theorem Ran.settle {lk₁ : Look} {linking : ObjRef → Prop} {trace : Trace}
    (ran : Ran jf (· = o) linking lk lk₁ trace) (turn : (lk.objects o).resolved = true)
    (c : ClassRef) (size a : BitVec 64) :
    Ran jf (· = o) linking lk ((lk₁.settle o c size).note (.ret o a)) (trace ++ [.ret o a]) := by
  have still : (lk₁.objects o).resolved = true := (ran.seen o).mpr (.inl turn)
  refine ran.trans ?_ (fun x same => same ▸ turn)
  refine .instant ran.ready still ((ran.ready.sound.settle c size).congr rfl) rfl rfl rfl ?_ ?_ ?_
    (.settle lk₁ o c size _)
  · exact fun x => Look.settle_resolved lk₁ o c x size
  · intro x apart
    simp [Look.settle, Look.note, Look.setClass, Look.setObj, apart]
  · simpa [Look.settle, Look.note, Look.setClass, Look.setObj] using still

theorem length_readElements (jf : Jdump) (o : ObjRef) (n i pos : Nat) :
    (readElements jf o n i pos).1.length = n := by
  induction n generalizing i pos with
  | zero => rfl
  | succ n ih =>
    rw [readElements]
    simp only [List.length_cons, ih]

/-- The branch of `H_OARRAY`. -/
theorem resolveOarray_turn (region : jf.Region S depth) (watched : Watched jf I)
    (follows : Traverses jf S I visit limit) (oarray : (jf.hobject o).htype = .hOarray)
    (inside : S o) (classOf : jf.classOf o = some c) (ready : Ready jf lk)
    (turn : (lk.objects o).resolved = true) (laid : (lk.classes c).resolved = true)
    (left : (unmarked jf.stored.toFinset lk.memo).card ≤ limit) :
    Outcome (jf.Refused o ∨ jf.Starved (· = o) lk (DepthFirst.targets (jf.graph.acts o)))
      (resolveOarray visit jf lk o c) fun result => ∃ trace,
      Turn jf o lk result.1 result.2 trace ∧
      Carries I lk result.1 (jf.deedsOf trace + jf.deeds o) := by
  have stored := region.stored o inside
  by_cases zero : (jf.hobject o).count = 0
  · have empty : jf.Empty o := ⟨by rw [oarray]; decide, zero⟩
    have few : ¬ maxCount 8 ≤ (jf.hobject o).count.toNat := by
      rw [zero]
      decide
    have value : resolveOarray visit jf lk o c = .ok (lk.leave o 0) := by
      rw [resolveOarray]
      simp only [if_pos zero]
    refine .inl ⟨_, value, [.ret o 0], ⟨fun _ => ⟨rfl, rfl, rfl⟩, fun full => absurd empty full,
      ?_, ?_, fun many => absurd many few⟩, ?_⟩
    · exact .instant ready turn (ready.sound.congr rfl) rfl rfl rfl (fun _ => rfl) (fun _ _ => rfl)
        turn ⟨rfl, rfl, rfl, fun _ => rfl, fun _ => rfl⟩
    · constructor
      · intro hvalues expected
        rw [Jdump.decoded] at expected
        simp only [oarray, if_pos zero, reduceCtorEq] at expected
      · intro varray
        rw [oarray] at varray
        cases varray
    · have idle : links o (jf.objectActs o) = 0 := by
        rw [Jdump.objectActs, oarray]
        simp only [if_pos zero, links_nil]
      rw [jf.deeds_empty empty, idle]
      exact watched.still rfl rfl rfl rfl
  · have busy : ¬ jf.Empty o := fun empty => zero empty.2
    by_cases many : maxCount 8 ≤ (jf.hobject o).count.toNat
    · refine .inr ⟨?_, .inl (.inr ⟨many, .inl oarray⟩)⟩
      rw [resolveOarray]
      simp only [if_neg zero, if_pos many]
    have own : oarraySize jf.identsz (jf.hobject o).count = jf.ownSize o := by
      rw [Jdump.ownSize, oarray]
    have acts : jf.objectActs o =
        .touch (jf.elements o).2 :: (jf.elements o).1.flatMap jf.follow := by
      rw [Jdump.objectActs, oarray]
      simp only [if_neg zero]
    have targets : DepthFirst.targets (jf.graph.acts o) =
        DepthFirst.targets ((jf.elements o).1.flatMap jf.follow) := by
      rw [Jdump.graph_acts stored, acts, DepthFirst.targets_touch]
    have decoded : jf.decoded o = some (.values ((jf.elements o).1.map .ident)) := by
      rw [Jdump.decoded, oarray]
      simp only [if_neg zero]
    have length : (jf.elements o).1.length = (jf.hobject o).count.toNat :=
      length_readElements jf o _ _ _
    have reading : readElements jf o (jf.hobject o).count.toNat 0 (jf.hobject o).fpos =
        jf.elements o := rfl
    generalize after : { lk.setObj o { lk.objects o with
        hvalues := .values ((jf.elements o).1.map .ident) } with
      pos := (jf.elements o).2 }.note (.touch (jf.elements o).2) = lk₁
    obtain ⟨self, memo, first⟩ := @Ran.assign jf lk o (· = o) [.touch (jf.elements o).2] ready turn
      _ _ _ _ rfl rfl rfl after
    have turn₁ : (lk₁.objects o).resolved = true := by
      rw [self]
      exact turn
    have untold : Carries I lk lk₁ 0 := by
      apply watched.still
      all_goals
        rw [← after]
        rfl
    have loop := @elementLoop_follows jf S I depth limit visit lk₁ o region watched follows
      first.ready inside turn₁ (unmarked_le first left) [] (jf.elements o).1 (by rw [self]; rfl)
      fun t target => by rw [DepthFirst.Graph.Edge, targets]; exact target
    rw [length, List.length_nil] at loop
    rcases loop with ⟨lk₂, ok, trace, ran, carried, run⟩ | ⟨stop, refused⟩
    · have value : resolveOarray visit jf lk o c = .ok ((lk₂.settle o c (jf.ownSize o)).leave o
          (((lk₂.settle o c (jf.ownSize o)).objects o).osize +
            ((lk₂.settle o c (jf.ownSize o)).objects o).csize)) := by
        rw [resolveOarray]
        simp only [if_neg zero, if_neg many, reading, after, own]
        rw [ok]
      have both := first.trans ran.weaken fun x same => same ▸ turn
      have settled := @Look.memo_settle lk₂ o c (jf.ownSize o)
      refine .inl ⟨_, value, _, ⟨fun empty => absurd empty busy, fun _ =>
        ⟨.touch (jf.elements o).2 :: trace, lk₂.memo, ?_, settled, ?_, rfl⟩,
        both.settle turn c _ _, ?_, fun limit => absurd limit many⟩, ?_⟩
      · rw [acts]
        rw [memo] at run
        exact .touch run
      · rw [← settled]
        rfl
      · constructor
        · intro hvalues expected
          rw [decoded] at expected
          have kept := (ran.kept o id turn₁).1
          rw [self] at kept
          rw [← Option.some.inj expected]
          exact (Look.settle_hvalues lk₂ o c (jf.ownSize o)).trans kept
        · intro varray
          rw [oarray] at varray
          cases varray
      · rw [Jdump.deedsOf_append, Jdump.deedsOf_ret, Jdump.deedsOf_nil, add_zero]
        apply Carries.settle watched stored busy classOf (both.classes c laid)
        have told := untold.trans carried
        rw [zero_add] at told
        rw [acts]
        exact told
    · refine .inr ⟨?_, .inr (by
        rw [targets]
        exact first.starved (fun x member => by cases member) refused (List.Subset.refl _))⟩
      rw [resolveOarray]
      simp only [if_neg zero, if_neg many, reading, after]
      rw [stop]

/-- The rest of `resolveInstance`, for an instance. -/
theorem resolveFields_turn (region : jf.Region S depth) (watched : Watched jf I)
    (follows : Traverses jf S I visit limit) (inst : (jf.hobject o).htype = .hInstance)
    (inside : S o) (classOf : jf.classOf o = some c) (chain : jf.Chain c cs) (ready : Ready jf lk)
    (turn : (lk.objects o).resolved = true) (laid : (lk.classes c).resolved = true)
    (left : (unmarked jf.stored.toFinset lk.memo).card ≤ limit) :
    Outcome (jf.Starved (· = o) lk (DepthFirst.targets (jf.graph.acts o)))
      (resolveFields visit jf lk o c) fun result => ∃ trace,
      Turn jf o lk result.1 result.2 trace ∧
      Carries I lk result.1 (jf.deedsOf trace + jf.deeds o) := by
  have stored := region.stored o inside
  have busy : ¬ jf.Empty o := fun empty => empty.1 inst
  have fields : jf.fieldsOf o = jf.layoutOf 0 cs := by
    rw [Jdump.fieldsOf, classOf]
    exact Jdump.layout_eq chain
  have acts : jf.objectActs o = jf.slotActs o 0 (jf.layoutOf 0 cs) := by
    rw [Jdump.objectActs, inst, fields]
  have own : jf.ownSize o = jf.slotsSize o 0 (jf.layoutOf 0 cs) := by
    rw [Jdump.ownSize, inst, fields]
  have length := jf.length_layoutOf 0 cs
  obtain ⟨tfields, few⟩ : (lk.classes c).tfields = (jf.layoutOf 0 cs).length ∧
      (jf.layoutOf 0 cs).length < maxCount 8 := by
    obtain ⟨cs', again, shape, _⟩ := ready.sound c laid
    obtain rfl := again.unique chain
    rw [length]
    exact ⟨shape.tfields, shape.few⟩
  have limit31 : maxCount 8 < 2 ^ 31 := by decide
  have slots : (jf.layoutOf 0 cs) ≠ [] → ∀ old, instanceSlots (jf.layoutOf 0 cs).length old =
      .values (List.replicate (jf.layoutOf 0 cs).length .unset) := by
    intro some old
    have positive := List.length_pos_of_ne_nil some
    have count : (unsigned (jf.layoutOf 0 cs).length).toNat = (jf.layoutOf 0 cs).length := by
      simp only [unsigned, BitVec.toNat_ofInt]
      omega
    rw [instanceSlots, if_neg (by omega), count, if_neg (by omega), Int.toNat_natCast]
  generalize after : lk.setObj o { lk.objects o with
    hvalues := instanceSlots (jf.layoutOf 0 cs).length (lk.objects o).hvalues } = lk₁
  obtain ⟨self, memo, first⟩ := @Ran.assign jf lk o (· = o) [] ready turn _ _ _ _ rfl
    (List.append_nil _).symm rfl after
  have turn₁ : (lk₁.objects o).resolved = true := by
    rw [self]
    exact turn
  have untold : Carries I lk lk₁ 0 := by
    apply watched.still
    all_goals
      rw [← after]
      rfl
  have targets : DepthFirst.targets (jf.graph.acts o) =
      DepthFirst.targets (jf.slotActs o 0 (jf.layoutOf 0 cs)) := by
    rw [Jdump.graph_acts stored, acts]
  have loop : Outcome
      (jf.Starved (· = o) lk₁ (DepthFirst.targets (jf.slotActs o 0 (jf.layoutOf 0 cs))))
      (fieldLoop visit jf o c (jf.layoutOf 0 cs).length 0 0 lk₁) fun result =>
      ∃ trace, Ran jf (· = o) (· = o) lk₁ result.1 trace ∧
        Carries I lk₁ result.1
          (jf.deedsOf trace + links o (jf.slotActs o 0 (jf.layoutOf 0 cs))) ∧
        Perform jf.graph lk₁.memo o (jf.slotActs o 0 (jf.layoutOf 0 cs)) trace result.1.memo ∧
        result.2 = 0 + jf.slotsSize o 0 (jf.layoutOf 0 cs) ∧
        ((jf.layoutOf 0 cs) ≠ [] → (result.1.objects o).hvalues =
          .values (jf.slotValues o 0 (jf.layoutOf 0 cs))) := by
    by_cases none : jf.layoutOf 0 cs = []
    · rw [none]
      exact .inl ⟨(lk₁, 0), rfl, [], .refl first.ready, .refl I lk₁, .nil _ _, rfl,
        fun some => absurd rfl some⟩
    · have hvalues : (lk₁.objects o).hvalues = .values ([] ++
          List.replicate (jf.layoutOf 0 cs).length .unset) := by
        rw [self]
        exact slots none _
      have run := fieldLoop_follows region watched follows chain first.ready inside turn₁
        (first.classes c laid) (unmarked_le first left) (List.nil_append _).symm rfl hvalues 0
        fun t target => by rw [DepthFirst.Graph.Edge, targets]; exact target
      refine run.imp ?_
      rintro result ⟨trace, ran, carried, run, size, values⟩
      exact ⟨trace, ran, carried, run, size, fun _ => values⟩
  rcases loop with ⟨⟨lk₂, size⟩, ok, trace, ran, carried, run, sum, values⟩ | ⟨stop, refused⟩
  · obtain rfl : size = jf.ownSize o := by
      rw [own]
      exact sum.trans (BitVec.zero_add _)
    have value : resolveFields visit jf lk o c = .ok ((lk₂.settle o c (jf.ownSize o)).leave o
        (((lk₂.settle o c (jf.ownSize o)).objects o).osize +
          ((lk₂.settle o c (jf.ownSize o)).objects o).csize)) := by
      rw [resolveFields]
      simp only [tfields, after, Int.toNat_natCast, ok]
    have both := first.trans ran fun x same => same ▸ turn
    have settled := @Look.memo_settle lk₂ o c (jf.ownSize o)
    refine .inl ⟨_, value, _, ⟨fun empty => absurd empty busy, fun _ =>
      ⟨trace, lk₂.memo, ?_, settled, ?_, rfl⟩, both.settle turn c _ _, ?_, ?_⟩, ?_⟩
    · rw [acts, ← memo]
      exact run
    · rw [← settled]
      rfl
    · constructor
      · intro hvalues expected
        rw [Jdump.decoded, inst, fields] at expected
        simp only at expected
        split at expected
        · cases expected
        · rename_i some
          rw [← Option.some.inj expected, ← values some]
          exact Look.settle_hvalues lk₂ o c (jf.ownSize o)
      · intro varray
        rw [inst] at varray
        cases varray
    · intro _
      rw [inst]
      exact ⟨by decide, fun wrong => by cases wrong⟩
    · rw [Jdump.deedsOf_append, Jdump.deedsOf_ret, Jdump.deedsOf_nil, add_zero]
      apply Carries.settle watched stored busy classOf (both.classes c laid)
      have told := untold.trans carried
      rw [zero_add] at told
      rw [acts]
      exact told
  · refine .inr ⟨?_, by
      rw [targets]
      exact first.starved (fun x member => by cases member) refused (List.Subset.refl _)⟩
    rw [resolveFields]
    simp only [tfields, after, Int.toNat_natCast, stop]

end Turn

section Calls
variable {jf : Jdump} {S : ObjRef → Prop} {I : Account} {depth fuel : Nat} {lk : Look} {o : ObjRef}

/-- The class of the object is resolved first, if it is not yet. -/
theorem resolveInstance_unmarked {c : ClassRef} (fresh : (lk.objects o).resolved = false)
    (classOf : jf.classOf o = some c) :
    (∀ stop, resolveClassNode jf (fuel + 1) ((lk.setObj o
        { lk.objects o with resolved := true }).note (.enter o)) c = .error stop →
      resolveInstance jf (fuel + 1) lk o = .error stop) ∧
    ∀ lk₁, resolveClassNode jf (fuel + 1) ((lk.setObj o
        { lk.objects o with resolved := true }).note (.enter o)) c = .ok lk₁ →
      ((jf.hobject o).htype = .hVarray →
        resolveInstance jf (fuel + 1) lk o = resolveVarray jf lk₁ o c) ∧
      ((jf.hobject o).htype = .hOarray →
        resolveInstance jf (fuel + 1) lk o = resolveOarray (resolveInstance jf fuel) jf lk₁ o c) ∧
      ((jf.hobject o).htype = .hInstance →
        resolveInstance jf (fuel + 1) lk o = resolveFields (resolveInstance jf fuel) jf lk₁ o c) := by
  generalize after : (lk.setObj o { lk.objects o with resolved := true }).note (.enter o) = lk'
  have laid : (if (lk'.classes c).resolved then .ok lk' else resolveClassNode jf (fuel + 1) lk' c) =
      resolveClassNode jf (fuel + 1) lk' c := by
    split
    · rename_i marked
      rw [resolveClassNode_marked marked (Nat.succ_pos _)]
    · rfl
  rw [Jdump.classOf] at classOf
  refine ⟨fun stop failed => ?_, fun lk₁ ok => ⟨fun kind => ?_, fun kind => ?_, fun kind => ?_⟩⟩
  all_goals
    rw [resolveInstance]
    simp only [fresh, Bool.false_eq_true, if_false, classOf, after, laid]
  · rw [failed]
  all_goals simp only [ok, kind]

/-- A marked object and the class node around the turn of it. -/
theorem Turn.visit {lk₁ lk' : Look} {a : BitVec 64} {trace : Trace} {c : ClassRef}
    {cs : List ClassRef} (turn : Turn jf o lk₁ lk' a trace) (stored : o ∈ jf.stored)
    (fresh : (lk.objects o).resolved = false) (classOf : jf.classOf o = some c)
    (chain : jf.Chain c cs) (few : jf.fieldCount cs < maxCount 8)
    (objects : lk₁.objects = (lk.setObj o { lk.objects o with resolved := true }).objects)
    (pos : lk₁.pos = lk.pos) (traced : lk₁.trace = lk.trace ++ [.enter o])
    (classes : ∀ x, (lk.classes x).resolved = true → (lk₁.classes x).resolved = true)
    (laid : (lk₁.classes c).resolved = true) (alone : ArcsAlone lk lk₁) :
    Visit jf.graph lk.memo o (.enter o :: trace) lk'.memo a ∧
      Ran jf (fun _ => False) (fun _ => False) lk lk' (.enter o :: trace) := by
  have marked : lk₁.memo = lk.memo.mark o := by
    rw [← Look.memo_mark]
    exact Look.memo_congr objects
  have self : (lk₁.objects o).resolved = true := by
    rw [objects, Look.objects_setObj_self]
  have others : ∀ x, x ≠ o → lk₁.objects x = lk.objects x := by
    intro x apart
    rw [objects, Look.objects_setObj_of_ne _ _ _ apart]
  constructor
  · by_cases empty : jf.Empty o
    · obtain ⟨memo, rfl, rfl⟩ := turn.empty empty
      rw [memo, marked]
      exact .idle fresh ⟨stored, empty⟩
    · obtain ⟨inner, m₁, run, memo, rfl, rfl⟩ := turn.full empty
      rw [memo]
      rw [marked, ← Jdump.graph_acts stored] at run
      exact .enter fresh (fun idle => empty idle.2) run
  · have ran := turn.ran
    refine ⟨ran.ready, ?_, ?_, ?_, ?_, ?_, ?_, ?_, ?_, ?_, ?_⟩
    · rw [ran.traced, traced, List.append_assoc]
      rfl
    · rw [ran.pos, pos]
      rfl
    · exact fun x resolved => ran.classes x (classes x resolved)
    · intro x
      rw [ran.seen, DepthFirst.entered_enter, List.mem_cons]
      by_cases here : x = o
      · simp [here, self]
      · rw [others x here]
        simp [here]
    · intro x member
      rcases List.mem_cons.mp member with rfl | member
      · exact fresh
      · have later := ran.fresh x member
        have apart : x ≠ o := by
          rintro rfl
          rw [self] at later
          cases later
        rwa [others x apart] at later
    · intro x _ resolved
      have apart : x ≠ o := by
        rintro rfl
        rw [fresh] at resolved
        cases resolved
      rw [← others x apart]
      exact ran.kept x apart (by rwa [others x apart])
    · intro x member
      rcases List.mem_cons.mp member with rfl | member
      · exact turn.decoded
      · exact ran.decoded x member
    · intro x member c' classOf'
      rcases List.mem_cons.mp member with rfl | member
      · rw [classOf] at classOf'
        cases classOf'
        exact ran.classes c laid
      · exact ran.laid x member c' classOf'
    · intro x member
      rcases List.mem_cons.mp member with rfl | member
      · rintro (⟨c', cs', other, again, many⟩ | ⟨many, oarray | ⟨varray, width, reads⟩⟩)
        · rw [classOf] at other
          cases other
          obtain rfl := again.unique chain
          omega
        · exact (turn.few many).1 oarray
        · exact (turn.few many).2 varray width reads
      · exact ran.allowed x member
    · refine alone.kept.brought.trans (ran.brought.mono fun x brings => .inr ?_)
      rw [DepthFirst.entered_enter, List.mem_cons]
      exact brings

/-- The return of a call for an object that is marked. -/
theorem Ran.leave (ready : Ready jf lk) (o : ObjRef) (a : BitVec 64) :
    Ran jf (fun _ => False) (fun _ => False) lk (lk.leave o a).1 [.ret o a] := by
  have alone : ArcsAlone lk (lk.leave o a).1 := ⟨rfl, rfl, rfl, fun _ => rfl, fun _ => rfl⟩
  refine ⟨⟨ready.sound.congr rfl, alone.kept.sound ready.arcs, ready.fresh⟩, rfl, rfl,
    fun _ same => same, fun x => ?_, fun x member => ?_, fun _ _ _ => ⟨rfl, rfl⟩,
    fun x member => ?_, fun x member => ?_, fun x member => ?_, alone.kept.brought⟩
  · simp [Look.leave, Look.note]
  all_goals cases member

/-- Marking an object leaves the others ready. -/
theorem Ready.enter {lk₁ : Look} (ready : Ready jf lk) (sound : Sound jf lk₁)
    (alone : ArcsAlone lk lk₁)
    (objects : lk₁.objects = (lk.setObj o { lk.objects o with resolved := true }).objects) :
    Ready jf lk₁ := by
  refine ⟨sound, alone.kept.sound ready.arcs, fun x clear => ?_⟩
  have apart : x ≠ o := by
    rintro rfl
    rw [objects, Look.objects_setObj_self] at clear
    cases clear
  rw [objects, Look.objects_setObj_of_ne _ _ _ apart] at clear ⊢
  exact ready.fresh x clear

/-- Every call of `resolveInstance` is a call of the traversal, and ends. -/
theorem resolveInstance_traverses (region : jf.Region S depth) (watched : Watched jf I)
    {limit : Nat} (enough : limit + depth < fuel) :
    Traverses jf S I (resolveInstance jf fuel) limit := by
  induction fuel generalizing limit with
  | zero => omega
  | succ fuel ih =>
    intro lk o ready inside left
    have stored := region.stored o inside
    cases fresh : (lk.objects o).resolved with
    | true =>
      have value : resolveInstance jf (fuel + 1) lk o =
          .ok (lk.leave o ((lk.objects o).osize + (lk.objects o).csize)) := by
        rw [resolveInstance]
        simp only [fresh, if_true]
      exact .inl ⟨_, value, [.ret o (lk.memo.total o)], .seen fresh, .leave ready o _,
        watched.still rfl rfl rfl rfl⟩
    | false =>
      obtain ⟨c, cs, classOf, chain, short, named⟩ := region.classes o inside
      obtain ⟨stops, goes⟩ := @resolveInstance_unmarked jf fuel lk o c fresh classOf
      generalize after : (lk.setObj o { lk.objects o with resolved := true }).note (.enter o) =
        lk₁ at stops goes
      have sound : Sound jf lk₁ := ready.sound.congr (by rw [← after]; rfl)
      obtain ⟨allowed, refused⟩ := resolveClassNode_resolves region.zero sound chain
        (show cs.length ≤ fuel + 1 by omega)
      rcases Nat.lt_or_ge (jf.fieldCount cs) (maxCount 8) with few | many
      · obtain ⟨lk₂, ok, done⟩ := allowed few
        obtain ⟨varray, oarray, inst⟩ := goes lk₂ ok
        have objects :
            lk₂.objects = (lk.setObj o { lk.objects o with resolved := true }).objects := by
          rw [done.frame, ← after]
          rfl
        have self : lk₂.objects o = { lk.objects o with resolved := true } := by
          rw [objects, Look.objects_setObj_self]
        have turn : (lk₂.objects o).resolved = true := by
          rw [self]
        have alone : ArcsAlone lk lk₂ := by
          refine ArcsAlone.trans ?_ (resolveClassNode_alone ok)
          rw [← after]
          exact ⟨rfl, rfl, rfl, fun _ => rfl, fun _ => rfl⟩
        have ready₂ := ready.enter done.sound alone objects
        have laid := done.chain c chain.head_mem
        have memo : lk₂.memo = lk.memo.mark o := by
          rw [← Look.memo_mark]
          exact Look.memo_congr objects
        have smaller : (unmarked jf.stored.toFinset lk₂.memo).card <
            (unmarked jf.stored.toFinset lk.memo).card := by
          rw [memo]
          exact DepthFirst.unmarked_mark_lt (List.mem_toFinset.mpr stored) fresh
        obtain ⟨less, rfl⟩ : ∃ n, limit = n + 1 := ⟨limit - 1, by omega⟩
        have follows := @ih less (by omega)
        have marks : Carries I lk lk₁ 0 := by
          apply watched.still
          all_goals
            rw [← after]
            rfl
        have resolves : Carries I lk₁ lk₂ 0 := by
          intro past holds
          rw [add_zero]
          exact watched.resolve lk₁ lk₂ c cs _ past ok chain done holds
        have marked : ∀ x, (lk₂.objects x).resolved = false → (lk.objects x).resolved = false := by
          intro x clear
          have apart : x ≠ o := by
            rintro rfl
            rw [turn] at clear
            cases clear
          rwa [objects, Look.objects_setObj_of_ne _ _ _ apart] at clear
        have ahead : jf.Ahead lk [o] o := ⟨o, List.mem_singleton_self o, .refl, fresh⟩
        have here : jf.Refused o → jf.Denied lk [o] := fun refused => .inl ⟨o, ahead, refused⟩
        have behind : jf.Starved (· = o) lk₂ (DepthFirst.targets (jf.graph.acts o)) →
            jf.Denied lk [o] := by
          intro starved
          refine Jdump.denied_iff.mpr (starved.mono (fun x later => ?_) alone.kept.brought ?_)
          · exact later.mono (marked x) fun t target =>
              ⟨o, List.mem_singleton_self o, .single target⟩
          · rintro x rfl
            exact .inr ahead
        have outcome : Outcome (jf.Denied lk [o]) (resolveInstance jf (fuel + 1) lk o)
            fun result => ∃ trace, Turn jf o lk₂ result.1 result.2 trace ∧
            Carries I lk₂ result.1 (jf.deedsOf trace + jf.deeds o) := by
          cases kind : (jf.hobject o).htype with
          | hVarray =>
            rw [varray kind]
            apply Outcome.weaken here
            refine resolveVarray_turn watched kind stored classOf named ready₂ turn laid ?_ ?_
            · rw [self]
              exact (ready.fresh o fresh).1
            · rw [self]
              exact (ready.fresh o fresh).2
          | hOarray =>
            rw [oarray kind]
            refine Outcome.weaken (Or.rec here behind) ?_
            exact resolveOarray_turn region watched follows kind inside classOf ready₂ turn laid
              (by omega)
          | hInstance =>
            rw [inst kind]
            apply Outcome.weaken behind
            exact resolveFields_turn region watched follows kind inside classOf chain ready₂
              turn laid (by omega)
        refine outcome.imp ?_
        rintro ⟨lk', a⟩ ⟨trace, turn, carried⟩
        have visited : Visit jf.graph lk.memo o (.enter o :: trace) lk'.memo a ∧
            Ran jf (fun _ => False) (fun _ => False) lk lk' (.enter o :: trace) := by
          refine turn.visit stored fresh classOf chain few objects ?_ ?_ ?_ laid alone
          · rw [done.frame, ← after]
            rfl
          · rw [done.frame, ← after]
            rfl
          · intro x resolved
            rw [done.kept x (.inl (by rw [← after]; exact resolved)), ← after]
            exact resolved
        have whole := (marks.trans resolves).trans carried
        rw [add_zero, zero_add, add_comm, ← jf.deedsOf_enter] at whole
        exact ⟨_, visited.1, visited.2, whole⟩
      · exact .inr ⟨stops _ (refused many), .inl ⟨o, ⟨o, List.mem_singleton_self o, .refl, fresh⟩,
          .inl ⟨c, cs, classOf, chain, many⟩⟩⟩

theorem resolveInstance_follows (region : jf.Region S depth) {limit : Nat}
    (enough : limit + depth < fuel) : Follows jf S (resolveInstance jf fuel) limit := by
  intro lk o ready inside left
  refine (resolveInstance_traverses region (.trivial jf) enough lk o ready inside left).imp ?_
  rintro result ⟨trace, call, ran, _⟩
  exact ⟨trace, call, ran⟩

/-- Outermost calls one after the other. -/
theorem resolveAll_traverses (region : jf.Region S depth) (watched : Watched jf I)
    (enough : jf.stored.toFinset.card + depth < fuel) (ready : Ready jf lk) {os : List ObjRef}
    (inside : ∀ o ∈ os, S o) :
    Outcome (jf.Denied lk os) (resolveAll jf fuel os lk) fun lk' => ∃ trace,
      Visits jf.graph lk.memo os trace lk'.memo ∧
      Ran jf (fun _ => False) (fun _ => False) lk lk' trace ∧
      Carries I lk lk' (jf.deedsOf trace) := by
  induction os generalizing lk with
  | nil => exact .inl ⟨lk, rfl, [], .nil _, .refl ready, .refl I lk⟩
  | cons o os ih =>
    have all : (unmarked jf.stored.toFinset lk.memo).card ≤ jf.stored.toFinset.card :=
      Finset.card_le_card (Finset.filter_subset _ _)
    rcases resolveInstance_traverses region watched enough lk o ready (inside o List.mem_cons_self)
        all with
      ⟨⟨lk₁, a⟩, ok, trace, call, ran, carried⟩ | ⟨stop, refused⟩
    · rw [resolveAll, ok]
      have rest := ih ran.ready fun x member => inside x (.tail _ member)
      refine (Outcome.weaken (fun denied => ?_) rest).imp ?_
      · refine ran.denied (fun x member => ?_) denied (List.subset_cons_self _ _)
        exact ⟨o, List.mem_cons_self, call.reach member⟩
      · rintro lk' ⟨trace', calls, ran', carried'⟩
        refine ⟨trace ++ trace', .cons call calls,
          ran.trans ran' fun _ impossible => impossible.elim, ?_⟩
        rw [Jdump.deedsOf_append]
        exact carried.trans carried'
    · rw [resolveAll, stop]
      exact .inr ⟨rfl, refused.sub (List.cons_subset_cons o (List.nil_subset os))⟩

theorem resolveAll_follows (region : jf.Region S depth)
    (enough : jf.stored.toFinset.card + depth < fuel) (ready : Ready jf lk) {os : List ObjRef}
    (inside : ∀ o ∈ os, S o) :
    Outcome (jf.Denied lk os) (resolveAll jf fuel os lk) fun lk' => ∃ trace,
      Visits jf.graph lk.memo os trace lk'.memo ∧
      Ran jf (fun _ => False) (fun _ => False) lk lk' trace := by
  refine (resolveAll_traverses region (.trivial jf) enough ready inside).imp ?_
  rintro lk' ⟨trace, calls, ran, _⟩
  exact ⟨trace, calls, ran⟩

theorem Ready.initial (jf : Jdump) (memory : Look) : Ready jf (.initial memory) where
  sound c resolved := by cases resolved
  arcs := .empty rfl rfl
  fresh _ _ := ⟨rfl, rfl⟩

/-- What a run that finds no object resolved does, and to which objects. -/
theorem resolveAll_account (region : jf.Region S depth) (watched : Watched jf I)
    (enough : jf.stored.toFinset.card + depth < fuel) (ready : Ready jf lk)
    (unresolved : ∀ o, (lk.objects o).resolved = false) {os : List ObjRef}
    (inside : ∀ o ∈ os, S o) (start : I lk 0) :
    Outcome (jf.Denied lk os) (resolveAll jf fuel os lk) fun lk' =>
      Ready jf lk' ∧ (∀ o ∈ os, (lk'.objects o).resolved = true) ∧
      (∀ o, (lk'.objects o).resolved = true →
        S o ∧ (¬ jf.Empty o → (lk'.objects o).osize = jf.ownSize o)) ∧
      I lk' (∑ o ∈ jf.stored.toFinset with (lk'.objects o).resolved = true, jf.deeds o) := by
  refine (resolveAll_traverses region watched enough ready inside).imp ?_
  rintro lk' ⟨trace, calls, ran, carried⟩
  have entered_iff : ∀ o, o ∈ entered trace ↔ (lk'.objects o).resolved = true := by
    intro o
    rw [ran.seen, unresolved]
    simp
  have within : ∀ o ∈ entered trace, S o := by
    intro o member
    obtain ⟨root, listed, path⟩ := calls.reach member
    exact region.reach (inside root listed) path
  refine ⟨ran.ready, fun o root => calls.seen_roots root, fun o resolved => ?_, ?_⟩
  · have member := (entered_iff o).mpr resolved
    exact ⟨within o member, fun busy => calls.own member fun idle => busy idle.2⟩
  · have account := carried 0 start
    rw [zero_add, jf.deedsOf_eq_sum calls.entered_fresh.1] at account
    · exact account
    · intro o
      rw [Finset.mem_filter, List.mem_toFinset, ← entered_iff]
      exact ⟨And.right, fun member => ⟨region.stored o (within o member), member⟩⟩

end Calls

end Phat
