import Phat.Heap
import Phat.Hierarchy

/-! What `resolveClassNode` leaves in the class records, for every order in which it is
called on them. -/
namespace Phat

/-- What a resolved class record holds. -/
structure LaidOut (jf : Jdump) (look : ClassLook) (c : ClassRef) (cs : List ClassRef) : Prop where
  tfields : look.tfields = jf.fieldCount cs
  values : 0 < jf.fieldCount cs → look.values = (jf.layoutOf 0 cs).map Cell.once
  named : ∀ i, NamedAt jf look.own c i
  few : jf.fieldCount cs < maxCount 8

/-- Every resolved class is laid out, and its superclasses are resolved. -/
def Sound (jf : Jdump) (lk : Look) : Prop :=
  ∀ c, (lk.classes c).resolved = true → ∃ cs, jf.Chain c cs ∧ LaidOut jf (lk.classes c) c cs ∧
    ∀ s ∈ cs, (lk.classes s).resolved = true

/-- What `resolveClassNode` does to a class with the chain `cs`. -/
structure Resolves (jf : Jdump) (lk lk' : Look) (cs : List ClassRef) : Prop where
  sound : Sound jf lk'
  chain : ∀ s ∈ cs, (lk'.classes s).resolved = true
  kept : ∀ s, (lk.classes s).resolved = true ∨ s ∉ cs → lk'.classes s = lk.classes s
  sized : ∀ s ss, s ∈ cs → (lk.classes s).resolved = false → jf.Chain s ss →
    0 < jf.fieldCount ss → (lk'.classes s).size = BitVec.ofNat 64 (jf.chainSize ss)
  frame : lk' = { lk with classes := lk'.classes }

section Node
variable {jf : Jdump} {c : ClassRef} {cs : List ClassRef} {lk lk' : Look} {fuel : Nat}

theorem int_of_small {n : Nat} (small : n < 2 ^ 31) : int n = n := by
  apply Int.bmod_eq_of_le <;> omega

/-- The recursion of `resolveSClassSize` ends, with the right count unless an `int` is
too small for it. -/
theorem resolveSClassSize_ok (chain : jf.Chain c cs) (enough : cs.length ≤ fuel) :
    ∃ n, jf.resolveSClassSize fuel c = .ok n ∧ (jf.fieldCount cs < 2 ^ 31 → n = jf.fieldCount cs) := by
  induction chain generalizing fuel with
  | root zero =>
    obtain ⟨fuel, rfl⟩ : ∃ n, fuel = n + 1 := ⟨fuel - 1, by rw [List.length_cons] at enough; omega⟩
    refine ⟨0, ?_, fun _ => ?_⟩
    · rw [Jdump.resolveSClassSize, if_pos zero]
    · rw [Jdump.fieldCount_root zero, Nat.cast_zero]
  | @super c s cs more found filled _ ih =>
    obtain ⟨fuel, rfl⟩ : ∃ n, fuel = n + 1 := ⟨fuel - 1, by rw [List.length_cons] at enough; omega⟩
    obtain ⟨n, above, exact⟩ := ih (by simpa using enough)
    refine ⟨int ((jf.cinfo c).cfields.toNat + n), ?_, fun small => ?_⟩
    · rw [Jdump.resolveSClassSize, if_neg more, found]
      simp only [above]
    · rw [Jdump.fieldCount_cons, Jdump.length_counted more filled] at small ⊢
      rw [exact (by omega), ← Nat.cast_add, int_of_small small]

theorem layOut_none (zero : jf.fieldCount cs = 0) : layOut jf fuel lk c (jf.fieldCount cs) = .ok lk := by
  rw [layOut, zero, if_neg (by decide)]

theorem layOut_refused (many : maxCount 8 ≤ jf.fieldCount cs) :
    layOut jf fuel lk c (jf.fieldCount cs) = .error .nomem := by
  have some : 0 < maxCount 8 := by decide
  rw [layOut, if_pos (by omega), if_pos (by rwa [Int.toNat_natCast])]

theorem layOut_some (chain : jf.Chain c cs) (enough : cs.length ≤ fuel)
    (named : ∀ s ∈ cs, s ≠ c → ∀ i, NamedAt jf (lk.classes s).own s i)
    (some : 0 < jf.fieldCount cs) (few : jf.fieldCount cs < maxCount 8) :
    ∃ own, layOut jf fuel lk c (jf.fieldCount cs) = .ok (lk.setClass c { lk.classes c with
        own := own
        values := (jf.layoutOf 0 cs).map Cell.once
        size := BitVec.ofNat 64 (jf.chainSize cs) }) ∧
      ∀ i, NamedAt jf own c i := by
  have others : ∀ s ∈ cs, s ≠ c → ∀ i, NamedAt jf ((lk.setClass c { lk.classes c with
      values := List.replicate (jf.fieldCount cs) ⟨none, 0⟩ }).classes s).own s i := by
    intro s member apart
    rw [Look.classes_setClass_of_ne _ _ apart]
    exact named s member apart
  obtain ⟨own, fill, names⟩ := @fillValues_chain jf c c cs (lk.setClass c { lk.classes c with
      values := List.replicate (jf.fieldCount cs) ⟨none, 0⟩ }) chain fuel enough others []
    (by rw [Look.classes_setClass_self, List.append_nil])
    (jf.fieldCount cs - (jf.cinfo c).cfields.toNat) (by omega) 0
  refine ⟨own, ?_, fun i => names i (.inr rfl)⟩
  rw [layOut, if_pos (by omega), if_neg (by rw [Int.toNat_natCast]; omega)]
  simp only [Int.toNat_natCast, fill, Look.classes_setClass_self, Look.setClass_setClass,
    List.append_nil, Nat.zero_add]

theorem Sound.set (sound : Sound jf lk) (fresh : (lk.classes c).resolved = false) (look : ClassLook)
    (still : look.resolved = false) : Sound jf (lk.setClass c look) := by
  intro x resolved
  by_cases here : x = c
  · rw [here, Look.classes_setClass_self, still] at resolved
    cases resolved
  · rw [Look.classes_setClass_of_ne _ _ here] at resolved ⊢
    obtain ⟨cs, chain, laid, above⟩ := sound x resolved
    refine ⟨cs, chain, laid, fun s member => ?_⟩
    have other : s ≠ c := by
      rintro rfl
      rw [above s member] at fresh
      cases fresh
    rw [Look.classes_setClass_of_ne _ _ other]
    exact above s member

/-- The record of the class itself completes a state in which its superclasses are
resolved. -/
theorem Sound.complete (sound : Sound jf lk) (chain : jf.Chain c (c :: cs))
    (above : ∀ s ∈ cs, (lk.classes s).resolved = true) {look : ClassLook}
    (laid : LaidOut jf look c (c :: cs)) (resolved : look.resolved = true) :
    Sound jf (lk.setClass c look) := by
  have kept : ∀ s, (lk.classes s).resolved = true →
      ((lk.setClass c look).classes s).resolved = true := by
    intro s before
    by_cases here : s = c
    · rw [here, Look.classes_setClass_self, resolved]
    · rw [Look.classes_setClass_of_ne _ _ here, before]
  intro x marked
  by_cases here : x = c
  · subst here
    refine ⟨_, chain, by rwa [Look.classes_setClass_self], fun s member => ?_⟩
    rcases List.mem_cons.mp member with rfl | member
    · rw [Look.classes_setClass_self, resolved]
    · exact kept s (above s member)
  · rw [Look.classes_setClass_of_ne _ _ here] at marked ⊢
    obtain ⟨ss, chain, laid, members⟩ := sound x marked
    exact ⟨ss, chain, laid, fun s member => kept s (members s member)⟩

theorem resolveClassNode_marked (marked : (lk.classes c).resolved = true) (some : 0 < fuel) :
    resolveClassNode jf fuel lk c = .ok lk := by
  obtain ⟨fuel, rfl⟩ : ∃ n, fuel = n + 1 := ⟨fuel - 1, by omega⟩
  rw [resolveClassNode, if_pos marked]

/-- The end of `resolveClassNode`, with the superclasses resolved. -/
theorem layOut_completes (chain : jf.Chain c (c :: cs)) (enough : (c :: cs).length ≤ fuel)
    (sound : Sound jf lk) (above : ∀ s ∈ cs, (lk.classes s).resolved = true)
    (tfields : (lk.classes c).tfields = jf.fieldCount (c :: cs))
    (few : jf.fieldCount (c :: cs) < maxCount 8) :
    ∃ look, layOut jf fuel lk c (jf.fieldCount (c :: cs)) = .ok (lk.setClass c look) ∧
      LaidOut jf look c (c :: cs) ∧
      (0 < jf.fieldCount (c :: cs) → look.size = BitVec.ofNat 64 (jf.chainSize (c :: cs))) := by
  rcases Nat.eq_zero_or_pos (jf.fieldCount (c :: cs)) with none | some
  · refine ⟨lk.classes c, ?_, ⟨tfields, fun some => by omega, fun i decl here => ?_, few⟩,
      fun some => by omega⟩
    · rw [Look.setClass_self, layOut_none none]
    · have empty : jf.counted c = [] := by
        rw [Jdump.fieldCount_cons] at none
        exact List.length_eq_zero_iff.mp (by omega)
      rw [empty] at here
      cases here
  · have named : ∀ s ∈ c :: cs, s ≠ c → ∀ i, NamedAt jf (lk.classes s).own s i := by
      intro s member apart
      obtain ⟨_, _, laid, _⟩ := sound s (above s ((List.mem_cons.mp member).resolve_left apart))
      exact laid.named
    obtain ⟨own, laid, names⟩ := layOut_some chain enough named some few
    exact ⟨_, laid, ⟨tfields, fun _ => rfl, names, few⟩, fun _ => rfl⟩

/-- With `tfields` and the statics assigned comes the superclass, and then the class. -/
theorem resolveClassNode_super {s : ClassRef} {n : Int} (fresh : (lk.classes c).resolved = false)
    (count : jf.resolveSClassSize (fuel + 1) c = .ok n) (found : jf.getSuperClass c = some s) :
    ∃ look : ClassLook, look.tfields = n ∧ look.resolved = false ∧
      (∀ stop, resolveClassNode jf fuel (lk.setClass c look) s = .error stop →
        resolveClassNode jf (fuel + 1) lk c = .error stop) ∧
      ∀ lk₂, resolveClassNode jf fuel (lk.setClass c look) s = .ok lk₂ →
        (∀ stop, layOut jf (fuel + 1) lk₂ c n = .error stop →
          resolveClassNode jf (fuel + 1) lk c = .error stop) ∧
        ∀ lk₃, layOut jf (fuel + 1) lk₂ c n = .ok lk₃ → resolveClassNode jf (fuel + 1) lk c =
          .ok (lk₃.setClass c { lk₃.classes c with resolved := true }) := by
  refine ⟨resolveStatics { lk.classes c with tfields := n } (jf.cinfo c).cstats.toNat, rfl, fresh,
    fun stop up => ?_, fun lk₂ up => ⟨fun stop lay => ?_, fun lk₃ lay => ?_⟩⟩
  all_goals
    rw [resolveClassNode, if_neg (by rw [fresh]; decide)]
    simp only [count, found, Look.classes_setClass_self, Look.setClass_setClass, up]
  all_goals simp only [lay]

theorem resolveClassNode_root (fresh : (lk.classes c).resolved = false)
    (zero : (jf.cinfo c).superId = 0) (top : jf.getSuperClass c = none) :
    ∃ look : ClassLook, look.tfields = 0 ∧ look.resolved = true ∧
      resolveClassNode jf (fuel + 1) lk c = .ok (lk.setClass c look) := by
  refine ⟨{ resolveStatics { lk.classes c with tfields := 0 } (jf.cinfo c).cstats.toNat with
    resolved := true }, rfl, rfl, ?_⟩
  have count : jf.resolveSClassSize (fuel + 1) c = .ok 0 := by
    rw [Jdump.resolveSClassSize, if_pos zero]
  have laid : ∀ lk : Look, layOut jf (fuel + 1) lk c 0 = .ok lk := by
    intro lk
    rw [layOut, if_neg (by decide)]
  rw [resolveClassNode, if_neg (by rw [fresh]; decide)]
  simp only [count, top, laid, Look.classes_setClass_self, Look.setClass_setClass]

/-- A class that is resolved, and all above it with it. -/
theorem Sound.resolved (sound : Sound jf lk) (chain : jf.Chain c cs)
    (marked : (lk.classes c).resolved = true) :
    Resolves jf lk lk cs ∧ jf.fieldCount cs < maxCount 8 := by
  obtain ⟨cs', again, laid, members⟩ := sound c marked
  obtain rfl := again.unique chain
  refine ⟨⟨sound, members, fun _ _ => rfl, fun x ss member unmarked => ?_, rfl⟩, laid.few⟩
  rw [members x member] at unmarked
  cases unmarked

/-- The class itself is laid out after those above it. `look` is its record in the meantime. -/
theorem Resolves.complete {lk₂ : Look} {look look' : ClassLook} (chain : jf.Chain c (c :: cs))
    (fresh : (lk.classes c).resolved = false) (done : Resolves jf (lk.setClass c look) lk₂ cs)
    (laid : LaidOut jf look' c (c :: cs)) (resolved : look'.resolved = true)
    (size : 0 < jf.fieldCount (c :: cs) →
      look'.size = BitVec.ofNat 64 (jf.chainSize (c :: cs))) :
    Resolves jf lk (lk₂.setClass c look') (c :: cs) := by
  refine ⟨done.sound.complete chain done.chain laid resolved, fun x member => ?_,
    fun x outside => ?_, fun x ss member first again some => ?_, ?_⟩
  · by_cases here : x = c
    · rw [here, Look.classes_setClass_self, resolved]
    · rw [Look.classes_setClass_of_ne _ _ here]
      exact done.chain x ((List.mem_cons.mp member).resolve_left here)
  · have other : x ≠ c := by
      rintro rfl
      rw [fresh] at outside
      simp at outside
    have kept := done.kept x
    rw [Look.classes_setClass_of_ne _ _ other] at kept ⊢
    exact kept (outside.imp id fun away member => away (.tail _ member))
  · by_cases here : x = c
    · subst here
      obtain rfl := again.unique chain
      rw [Look.classes_setClass_self]
      exact size some
    · rw [Look.classes_setClass_of_ne _ _ here]
      refine done.sized x ss ((List.mem_cons.mp member).resolve_left here) ?_ again some
      rwa [Look.classes_setClass_of_ne _ _ here]
  · rw [done.frame]
    rfl

/-- `resolveClassNode` resolves the class and what is above it, and changes nothing else;
it fails exactly if the array of fields is refused. -/
theorem resolveClassNode_resolves (zero : jf.cTable.lookup32 0 = none) (sound : Sound jf lk)
    (chain : jf.Chain c cs) (enough : cs.length ≤ fuel) :
    (jf.fieldCount cs < maxCount 8 →
      ∃ lk', resolveClassNode jf fuel lk c = .ok lk' ∧ Resolves jf lk lk' cs) ∧
    (maxCount 8 ≤ jf.fieldCount cs → resolveClassNode jf fuel lk c = .error .nomem) := by
  induction chain generalizing lk fuel with
  | @root c top =>
    obtain ⟨fuel, rfl⟩ : ∃ n, fuel = n + 1 := ⟨fuel - 1, by rw [List.length_cons] at enough; omega⟩
    have chain : jf.Chain c [c] := .root top
    have count := Jdump.fieldCount_root top
    have empty := Jdump.counted_root top
    constructor
    · intro few
      cases fresh : (lk.classes c).resolved with
      | true =>
        exact ⟨lk, resolveClassNode_marked fresh (Nat.succ_pos _), (sound.resolved chain fresh).1⟩
      | false =>
        have last : jf.getSuperClass c = .none := by
          rw [Jdump.getSuperClass, top]
          exact zero
        obtain ⟨look, tfields, resolved, run⟩ := @resolveClassNode_root jf c lk fuel fresh top last
        have laid : LaidOut jf look c [c] := by
          refine ⟨by rw [tfields, count]; rfl, fun some => by omega, fun i decl here => ?_, few⟩
          rw [empty] at here
          cases here
        have above : Resolves jf (lk.setClass c (lk.classes c)) lk [] := by
          rw [Look.setClass_self]
          exact ⟨sound, by simp, fun _ _ => rfl, by simp, rfl⟩
        exact ⟨_, run, above.complete chain fresh laid resolved fun some => by omega⟩
    · intro many
      have some : 0 < maxCount 8 := by decide
      omega
  | @super c s cs more found filled above ih =>
    obtain ⟨fuel, rfl⟩ : ∃ n, fuel = n + 1 := ⟨fuel - 1, by rw [List.length_cons] at enough; omega⟩
    have chain : jf.Chain c (c :: cs) := .super more found filled above
    have short : cs.length ≤ fuel := by simpa using enough
    have total : jf.fieldCount (c :: cs) = (jf.cinfo c).cfields.toNat + jf.fieldCount cs := by
      rw [Jdump.fieldCount_cons, Jdump.length_counted more filled]
    have bound := (jf.cinfo c).cfields.isLt
    have limit : maxCount 8 + 2 ^ 16 < 2 ^ 31 := by decide
    obtain ⟨n, counted, exact⟩ := resolveSClassSize_ok chain enough
    cases fresh : (lk.classes c).resolved with
    | true =>
      obtain ⟨resolves, few⟩ := sound.resolved chain fresh
      constructor
      · intro _
        exact ⟨lk, resolveClassNode_marked fresh (Nat.succ_pos _), resolves⟩
      · intro many
        omega
    | false =>
      obtain ⟨look, tfields, unmarked, stopped, run⟩ :=
        @resolveClassNode_super jf c lk fuel s n fresh counted found
      have entered := sound.set fresh look unmarked
      obtain ⟨allowed, refused⟩ := @ih _ fuel entered short
      constructor
      · intro few
        obtain ⟨lk₂, up, done⟩ := allowed (by omega)
        have self : lk₂.classes c = look := by
          rw [done.kept c (.inr chain.not_above), Look.classes_setClass_self]
        obtain rfl : n = jf.fieldCount (c :: cs) := exact (by omega)
        obtain ⟨look', lay, laid, size⟩ := layOut_completes chain enough done.sound done.chain
          (by rw [self]; exact tfields) few
        have run := (run lk₂ up).2 _ lay
        rw [Look.classes_setClass_self, Look.setClass_setClass] at run
        exact ⟨_, run, done.complete chain fresh
          ⟨laid.tfields, laid.values, laid.named, laid.few⟩ rfl size⟩
      · intro many
        rcases Nat.lt_or_ge (jf.fieldCount cs) (maxCount 8) with few | many'
        · obtain ⟨lk₂, up, done⟩ := allowed few
          obtain rfl : n = jf.fieldCount (c :: cs) := exact (by omega)
          exact (run lk₂ up).1 _ (layOut_refused many)
        · exact stopped _ (refused many')

end Node

/-- `resolveClassNode` called on one class after the other. -/
def resolveEach (jf : Jdump) (fuel : Nat) : Look → List ClassRef → Except Stop Look
  | lk, [] => .ok lk
  | lk, c :: order =>
    match resolveClassNode jf fuel lk c with
    | .error stop => .error stop
    | .ok lk => resolveEach jf fuel lk order

section Order
variable {jf : Jdump} {lk : Look} {fuel : Nat} {order : List ClassRef}

/-- The sizes of the resolved classes, as long as no instance has been resolved. -/
def Sized (jf : Jdump) (lk : Look) : Prop :=
  ∀ c cs, (lk.classes c).resolved = true → jf.Chain c cs → 0 < jf.fieldCount cs →
    (lk.classes c).size = BitVec.ofNat 64 (jf.chainSize cs)

theorem Resolves.all_sized {lk' : Look} {cs : List ClassRef} (done : Resolves jf lk lk' cs)
    (sized : Sized jf lk) : Sized jf lk' := by
  intro c ss resolved chain some
  cases before : (lk.classes c).resolved with
  | true =>
    rw [done.kept c (.inl before)]
    exact sized c ss before chain some
  | false =>
    by_cases member : c ∈ cs
    · exact done.sized c ss member before chain some
    · rw [done.kept c (.inr member), before] at resolved
      cases resolved

theorem resolveEach_resolves (zero : jf.cTable.lookup32 0 = none) (sound : Sound jf lk)
    (sized : Sized jf lk) (chained : ∀ c ∈ order, ∃ cs, jf.Chain c cs ∧ cs.length ≤ fuel) :
    (∃ lk', resolveEach jf fuel lk order = .ok lk' ∧ Sound jf lk' ∧ Sized jf lk' ∧
      (∀ c, (lk.classes c).resolved = true → (lk'.classes c).resolved = true) ∧
      ∀ c ∈ order, (lk'.classes c).resolved = true) ∨
    (resolveEach jf fuel lk order = .error .nomem ∧
      ∃ c ∈ order, ∃ cs, jf.Chain c cs ∧ maxCount 8 ≤ jf.fieldCount cs) := by
  induction order generalizing lk with
  | nil => exact .inl ⟨lk, rfl, sound, sized, fun _ resolved => resolved, by simp⟩
  | cons c order ih =>
    obtain ⟨cs, chain, enough⟩ := chained c List.mem_cons_self
    obtain ⟨allowed, refused⟩ := resolveClassNode_resolves zero sound chain enough
    rcases Nat.lt_or_ge (jf.fieldCount cs) (maxCount 8) with few | many
    · obtain ⟨lk₁, run, done⟩ := allowed few
      rw [resolveEach, run]
      have keeps : ∀ x, (lk.classes x).resolved = true → (lk₁.classes x).resolved = true := by
        intro x resolved
        rw [done.kept x (.inl resolved)]
        exact resolved
      rcases ih done.sound (done.all_sized sized) fun x member => chained x (.tail _ member) with
        ⟨lk', later, sound', sized', keeps', all⟩ | ⟨later, x, member, limit⟩
      · refine .inl ⟨lk', later, sound', sized', fun x resolved => keeps' x (keeps x resolved), ?_⟩
        intro x member
        rcases List.mem_cons.mp member with rfl | member
        · exact keeps' x (done.chain x chain.head_mem)
        · exact all x member
      · exact .inr ⟨later, x, .tail _ member, limit⟩
    · rw [resolveEach, refused many]
      exact .inr ⟨rfl, c, List.mem_cons_self, cs, chain, many⟩

theorem classes_laid_out (zero : jf.cTable.lookup32 0 = none)
    (fresh : ∀ c, (lk.classes c).resolved = false)
    (chained : ∀ c ∈ order, ∃ cs, jf.Chain c cs ∧ cs.length ≤ fuel) :
    (∃ lk', resolveEach jf fuel lk order = .ok lk' ∧
      (∀ c ∈ order, (lk'.classes c).resolved = true) ∧
      ∀ c, (lk'.classes c).resolved = true → ∃ cs, jf.Chain c cs ∧
        LaidOut jf (lk'.classes c) c cs ∧
        (0 < jf.fieldCount cs → (lk'.classes c).size = BitVec.ofNat 64 (jf.chainSize cs))) ∨
    (resolveEach jf fuel lk order = .error .nomem ∧
      ∃ c ∈ order, ∃ cs, jf.Chain c cs ∧ maxCount 8 ≤ jf.fieldCount cs) := by
  have sound : Sound jf lk := by
    intro c resolved
    rw [fresh c] at resolved
    cases resolved
  have sized : Sized jf lk := by
    intro c _ resolved
    rw [fresh c] at resolved
    cases resolved
  refine (resolveEach_resolves zero sound sized chained).imp ?_ id
  rintro ⟨lk', run, sound', sized', _, all⟩
  refine ⟨lk', run, all, fun c resolved => ?_⟩
  obtain ⟨cs, chain, laid, _⟩ := sound' c resolved
  exact ⟨cs, chain, laid, sized' c cs resolved chain⟩

end Order

/-- Classes 1, 2 and 3, each the superclass of the next. -/
def sampleClass (c : ClassRef) : Cinfo :=
  let ci : Cinfo := ⟨0, 0, some [chr 'A' + BitVec.ofNat 8 c], 0, 0, 0, 0, 0, 0, 0, [], [], 0⟩
  if c = 0 then { ci with ident := 1 }
  else if c = 1 then { ci with ident := 2, superId := 1, cfields := 1, fields := [⟨7, chr 'I'⟩] }
  else { ci with ident := 3, superId := 2, cfields := 2, fields := [⟨8, chr 'B'⟩, ⟨9, chr 'L'⟩] }

def sampleClasses : Jdump :=
  { fin := ⟨[], 0, fun _ => 0, 0⟩
    fVersion := 1
    identsz := .four
    sbTable := Table.empty.insert32 7 [chr 'x']
    cTable := ((Table.empty.insert32 1 0).insert32 2 1).insert32 3 2
    hTable := .empty
    rcTable := .empty
    scTable := .empty
    roots := .empty
    javaLangString := none
    fclass := none
    plimit := 0
    cinfos := ⟨3, sampleClass⟩
    hobjects := ⟨0, fun _ => ⟨.hInstance, 0, 0, 0, 0, 0⟩⟩
    fakeClass := 1000
    unread := fun _ _ => 0
    log := [] }

/-- The chain of class 3 in every state with these classes. -/
theorem sampleChain {jf : Jdump} (cinfos : jf.cinfos = sampleClasses.cinfos)
    (cTable : jf.cTable = sampleClasses.cTable) :
    jf.Chain 0 [0] ∧ jf.Chain 1 [1, 0] ∧ jf.Chain 2 [2, 1, 0] := by
  have record : jf.cinfo = sampleClass := by
    funext c
    rw [Jdump.cinfo, cinfos]
    rfl
  have above₁ : jf.getSuperClass 1 = some 0 := by
    rw [Jdump.getSuperClass, cTable, record]
    rfl
  have above₂ : jf.getSuperClass 2 = some 1 := by
    rw [Jdump.getSuperClass, cTable, record]
    rfl
  have chain₀ : jf.Chain 0 [0] := by
    apply Jdump.Chain.root
    rw [record]
    rfl
  have chain₁ : jf.Chain 1 [1, 0] := by
    refine .super ?_ above₁ ?_ chain₀
    · rw [record]
      decide
    · rw [Jdump.Filled, record]
      decide
  refine ⟨chain₀, chain₁, .super ?_ above₂ ?_ chain₁⟩
  · rw [record]
    decide
  · rw [Jdump.Filled, record]
    decide

theorem classes_laid_out_sample : ∃ lk',
    resolveEach sampleClasses 3 .zero [2, 1, 2] = .ok lk' ∧
      (lk'.classes 2).values = [.once ⟨7, some [chr 'x'], chr 'I', 5⟩,
        .once ⟨8, none, chr 'B', 0⟩, .once ⟨9, none, chr 'L', 1⟩] := by
  obtain ⟨_, chain₁, chain₂⟩ := @sampleChain sampleClasses rfl rfl
  have chained : ∀ c ∈ [2, 1, 2], ∃ cs, sampleClasses.Chain c cs ∧ cs.length ≤ 3 := by
    intro c member
    simp only [List.mem_cons, List.not_mem_nil, or_false] at member
    rcases member with rfl | rfl | rfl
    · exact ⟨_, chain₂, by decide⟩
    · exact ⟨_, chain₁, by decide⟩
    · exact ⟨_, chain₂, by decide⟩
  rcases @classes_laid_out sampleClasses .zero 3 [2, 1, 2] rfl (fun _ => rfl) chained with
    ⟨lk', run, all, laid⟩ | ⟨_, c, member, cs, chain, many⟩
  · obtain ⟨cs, chain, laid, _⟩ := laid 2 (all 2 List.mem_cons_self)
    obtain rfl := chain.unique chain₂
    exact ⟨lk', run, laid.values (by decide)⟩
  · have few : ∀ cs, sampleClasses.Chain c cs → sampleClasses.fieldCount cs ≤ 3 := by
      intro cs chain
      simp only [List.mem_cons, List.not_mem_nil, or_false] at member
      rcases member with rfl | rfl | rfl
      · rw [chain.unique chain₂]
        decide
      · rw [chain.unique chain₁]
        decide
      · rw [chain.unique chain₂]
        decide
    have limit : 3 < maxCount 8 := by decide
    have short := few cs chain
    omega

end Phat
