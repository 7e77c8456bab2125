import Phat.Footprint

/-! When `resolveClassNode` gets by with the superclasses a table has. Nothing checks them:
a walk up from a class ends at a class whose `superId` is 0, at one that is not known, or
never. -/
namespace Phat

/-- Whether the field loop goes on from a NULL class; `seekField` stops at nothing else. -/
def fillNull (jf : Jdump) (fuel : Nat) (ci : ClassRef) :
    Nat → ClassRef → Nat → Int → Nat → Look → Prop
  | 0, _, _, _, _, _ => False
  | n + 1, cc, fieldNo, target, index, lk =>
    match jf.seekField fuel cc fieldNo target with
    | .error stop => stop = .null
    | .ok (cc, fieldNo, target) =>
      match (jf.cinfo cc).fields[fieldNo]? with
      | none => False
      | some decl =>
        let field := layoutField jf lk ci cc fieldNo decl index
        match storeValue (lk.classes ci).values (target + fieldNo) field with
        | .error _ => False
        | .ok values =>
          let look := assignOwn jf lk ci cc fieldNo field
          fillNull jf fuel ci n cc (fieldNo + 1) target
            (index + fieldSize jf.identsz decl.ftype) (lk.setClass ci { look with values := values })

/-- Whether `layOut` does. -/
def layNull (jf : Jdump) (fuel : Nat) (lk : Look) (c : ClassRef) (tfields : Int) : Prop :=
  0 < tfields ∧ tfields.toNat < maxCount 8 ∧
    fillNull jf fuel c tfields.toNat c 0 (tfields - (jf.cinfo c).cfields.toNat) 0
      (lk.setClass c { lk.classes c with values := List.replicate tfields.toNat ⟨none, 0⟩ })

/-- Whether `resolveClassNode` follows a NULL class, in one of its three walks or in that of a
superclass; `resolveSClassSize` stops at nothing else. -/
def nodeNull (jf : Jdump) : Nat → Look → ClassRef → Prop
  | 0, _, _ => False
  | fuel + 1, lk, c =>
    (lk.classes c).resolved = false ∧
    match jf.resolveSClassSize (fuel + 1) c with
    | .error stop => stop = .null
    | .ok tfields =>
      match jf.getSuperClass c with
      | none => layNull jf (fuel + 1) (begun jf lk c tfields) c tfields
      | some super => nodeNull jf fuel (begun jf lk c tfields) super ∨
          ∃ lk', resolveClassNode jf fuel (begun jf lk c tfields) super = .ok lk' ∧
            layNull jf (fuel + 1) lk' c tfields

/-- The call ends, and has not followed a NULL class. -/
def Survives (jf : Jdump) (lk : Look) (c : ClassRef) : Prop :=
  ∃ enough, ∀ fuel, enough ≤ fuel →
    resolveClassNode jf fuel lk c ≠ .error .fuel ∧ ¬ nodeNull jf fuel lk c

/-- The classes that are resolved on the way up, until there is none above or it has been
resolved before, and from each of them the way up to a `superId` of 0. -/
inductive Rooted (jf : Jdump) (lk : Look) : ClassRef → Prop where
  | marked {c : ClassRef} : (lk.classes c).resolved = true → Rooted jf lk c
  | top {c : ClassRef} {n : Nat} : jf.Total c n → jf.getSuperClass c = none → Rooted jf lk c
  | super {c s : ClassRef} {n : Nat} : jf.Total c n → jf.getSuperClass c = some s →
      Rooted jf lk s → Rooted jf lk c

section Walks
variable {jf : Jdump} {c cc s : ClassRef} {fuel n r fieldNo : Nat} {target : Int} {lk lk' : Look}

theorem Rooted.congr (same : ∀ x, (lk'.classes x).resolved = (lk.classes x).resolved)
    (rooted : Rooted jf lk c) : Rooted jf lk' c := by
  induction rooted with
  | marked marked => exact .marked ((same _).trans marked)
  | top total none => exact .top total none
  | super total found _ ih => exact .super total found ih

/-- The first walk ends, and stays clear of NULL. -/
theorem Jdump.Total.size (total : jf.Total c r) :
    ∃ enough, ∀ fuel, enough ≤ fuel → ∃ tfields, jf.resolveSClassSize fuel c = .ok tfields := by
  induction total with
  | root top =>
    refine ⟨1, fun fuel enough => ?_⟩
    obtain ⟨fuel, rfl⟩ : ∃ m, fuel = m + 1 := ⟨fuel - 1, by omega⟩
    exact ⟨0, by rw [Jdump.resolveSClassSize, if_pos top]⟩
  | super more found _ ih =>
    obtain ⟨enough, walk⟩ := ih
    refine ⟨enough + 1, fun fuel many => ?_⟩
    obtain ⟨fuel, rfl⟩ : ∃ m, fuel = m + 1 := ⟨fuel - 1, by omega⟩
    obtain ⟨n, above⟩ := walk fuel (by omega)
    rw [Jdump.resolveSClassSize, if_neg more, found]
    simp only [above]
    exact ⟨_, rfl⟩

/-- The walk of the field loop does, while fields are left, from any class on the way. -/
theorem Jdump.Total.seek (total : jf.Total c n) : ∃ enough, ∀ cc r fieldNo target fuel,
    jf.Upward c cc → jf.Total cc r → fieldNo < r → enough ≤ fuel →
      ∃ found, jf.seekField fuel cc fieldNo target = .ok found := by
  induction total with
  | @root c top =>
    refine ⟨0, fun cc r fieldNo target fuel upward total more _ => ?_⟩
    have here : cc = c := by
      rcases Relation.ReflTransGen.cases_head upward with same | ⟨s, ⟨some, _⟩, _⟩
      · exact same.symm
      · exact absurd top some
    subst here
    cases total with
    | root => exact absurd more (Nat.not_lt_zero _)
    | super some => exact absurd top some
  | @super c s n some found above ih =>
    obtain ⟨enough, walk⟩ := ih
    refine ⟨enough + 1, fun cc r fieldNo target fuel upward total more many => ?_⟩
    rcases Relation.ReflTransGen.cases_head upward with same | ⟨s', ⟨_, found'⟩, upward'⟩
    · subst same
      obtain ⟨fuel, rfl⟩ : ∃ m, fuel = m + 1 := ⟨fuel - 1, by omega⟩
      rw [Jdump.seekField]
      split
      · exact ⟨_, rfl⟩
      · rename_i past
        cases total with
        | root none => exact absurd none some
        | @super _ s' r _ found' total' =>
          rw [found, Option.some.injEq] at found'
          subst found'
          rw [found]
          exact walk s r 0 _ fuel .refl total' (by omega) (by omega)
    · rw [found, Option.some.injEq] at found'
      subst found'
      exact walk cc r fieldNo target fuel upward' total more (by omega)

/-- The first walk stops at a NULL class or never. -/
theorem resolveSClassSize_error {stop : Stop}
    (error : jf.resolveSClassSize fuel c = .error stop) : stop = .fuel ∨ stop = .null := by
  induction fuel generalizing c with
  | zero =>
    cases error
    exact .inl rfl
  | succ fuel ih =>
    rw [Jdump.resolveSClassSize] at error
    split at error
    · cases error
    · split at error
      · cases error
        exact .inr rfl
      · split at error
        · rename_i above
          cases error
          exact ih above
        · cases error

/-- The field loop ends without following NULL if its seeks find what they look for. -/
theorem fillValues_ends {ci : ClassRef} {index : Nat}
    (seeks : ∀ cc r fieldNo target, jf.Upward c cc → jf.Total cc r → fieldNo < r →
      ∃ found, jf.seekField fuel cc fieldNo target = .ok found)
    (upward : jf.Upward c cc) (total : jf.Total cc r) (enough : fieldNo + n ≤ r) :
    fillValues jf fuel ci n cc fieldNo target index lk ≠ .error .fuel ∧
      ¬ fillNull jf fuel ci n cc fieldNo target index lk := by
  induction n generalizing cc r fieldNo target index lk with
  | zero => exact ⟨by simp [fillValues], id⟩
  | succ n ih =>
    obtain ⟨⟨cc', fieldNo', target'⟩, seek⟩ := seeks cc r fieldNo target upward total (by omega)
    obtain ⟨r', total', above, _, left⟩ := seekField_total total (by omega) seek
    rw [fillValues, fillNull, seek]
    simp only
    cases (jf.cinfo cc').fields[fieldNo']? with
    | none => exact ⟨by simp, id⟩
    | some decl =>
      simp only
      cases stored : storeValue (lk.classes ci).values (target' + fieldNo')
          (layoutField jf lk ci cc' fieldNo' decl index) with
      | error stop =>
        refine ⟨?_, id⟩
        rintro out
        cases out
        rw [storeValue] at stored
        split at stored <;> cases stored
      | ok values => exact ih (upward.trans above) total' (by omega)

theorem layOut_ends {tfields : Int}
    (seeks : ∀ cc r fieldNo target, jf.Upward c cc → jf.Total cc r → fieldNo < r →
      ∃ found, jf.seekField fuel cc fieldNo target = .ok found)
    (total : jf.Total c r) (few : tfields.toNat ≤ r) :
    layOut jf fuel lk c tfields ≠ .error .fuel ∧ ¬ layNull jf fuel lk c tfields := by
  rw [layOut, layNull]
  by_cases some : 0 < tfields
  · rw [if_pos some]
    by_cases many : maxCount 8 ≤ tfields.toNat
    · rw [if_pos many]
      exact ⟨by simp, fun follows => absurd follows.2.1 (Nat.not_lt.mpr many)⟩
    · rw [if_neg many]
      simp only
      obtain ⟨ends, clear⟩ := @fillValues_ends jf c c fuel tfields.toNat r 0
        (tfields - (jf.cinfo c).cfields.toNat) (lk.setClass c { lk.classes c with
          values := List.replicate tfields.toNat ⟨none, 0⟩ }) c 0 seeks .refl total (by omega)
      refine ⟨?_, fun follows => clear follows.2.2⟩
      split
      · rename_i stop filled
        rintro out
        cases out
        exact ends filled
      · simp
  · rw [if_neg some]
    exact ⟨by simp, fun follows => some follows.1⟩

/-- What is left to do for a class once the one above it is resolved. -/
def finished (jf : Jdump) (fuel : Nat) (c : ClassRef) (tfields : Int) (lk : Look) :
    Except Stop Look :=
  (layOut jf fuel lk c tfields).map fun lk =>
    lk.setClass c { lk.classes c with resolved := true }

theorem resolveClassNode_top {tfields : Int} (fresh : (lk.classes c).resolved = false)
    (size : jf.resolveSClassSize (fuel + 1) c = .ok tfields)
    (none : jf.getSuperClass c = none) :
    resolveClassNode jf (fuel + 1) lk c =
      finished jf (fuel + 1) c tfields (begun jf lk c tfields) := by
  rw [resolveClassNode, if_neg (by simp [fresh]), size, none, finished]
  simp only
  rw [← begun]
  cases layOut jf (fuel + 1) (begun jf lk c tfields) c tfields <;> rfl

theorem resolveClassNode_above {tfields : Int} (fresh : (lk.classes c).resolved = false)
    (size : jf.resolveSClassSize (fuel + 1) c = .ok tfields)
    (found : jf.getSuperClass c = some s) :
    resolveClassNode jf (fuel + 1) lk c =
      (resolveClassNode jf fuel (begun jf lk c tfields) s).bind
        (finished jf (fuel + 1) c tfields) := by
  rw [resolveClassNode, if_neg (by simp [fresh]), size, found]
  simp only
  rw [← begun]
  cases resolveClassNode jf fuel (begun jf lk c tfields) s with
  | error stop => rfl
  | ok lk' =>
    simp only [Except.bind]
    rw [finished]
    cases layOut jf (fuel + 1) lk' c tfields <;> rfl

/-- One class, if the call for the one above it ends. -/
theorem node_ends {tfields : Int} (fresh : (lk.classes c).resolved = false)
    (size : jf.resolveSClassSize (fuel + 1) c = .ok tfields)
    (seeks : ∀ cc r fieldNo target, jf.Upward c cc → jf.Total cc r → fieldNo < r →
      ∃ found, jf.seekField (fuel + 1) cc fieldNo target = .ok found)
    (above : ∀ s, jf.getSuperClass c = some s →
      resolveClassNode jf fuel (begun jf lk c tfields) s ≠ .error .fuel ∧
        ¬ nodeNull jf fuel (begun jf lk c tfields) s) :
    resolveClassNode jf (fuel + 1) lk c ≠ .error .fuel ∧ ¬ nodeNull jf (fuel + 1) lk c := by
  obtain ⟨r, total, _, few⟩ := resolveSClassSize_total size
  have lays : ∀ lk', layOut jf (fuel + 1) lk' c tfields ≠ .error .fuel ∧
      ¬ layNull jf (fuel + 1) lk' c tfields := fun lk' => layOut_ends seeks total few
  have last : ∀ lk', finished jf (fuel + 1) c tfields lk' ≠ .error .fuel := by
    intro lk' out
    rw [finished] at out
    cases laid : layOut jf (fuel + 1) lk' c tfields with
    | error stop =>
      rw [laid] at out
      cases out
      exact (lays lk').1 laid
    | ok lk'' =>
      rw [laid] at out
      cases out
  rw [nodeNull, size]
  simp only [fresh, true_and]
  cases found : jf.getSuperClass c with
  | none =>
    rw [resolveClassNode_top fresh size found]
    exact ⟨last _, (lays _).2⟩
  | some s =>
    obtain ⟨ends, clear⟩ := above s found
    rw [resolveClassNode_above fresh size found]
    constructor
    · cases call : resolveClassNode jf fuel (begun jf lk c tfields) s with
      | error stop =>
        intro out
        cases out
        exact ends call
      | ok lk' => exact last lk'
    · rintro (follows | ⟨lk', _, follows⟩)
      · exact clear follows
      · exact (lays lk').2 follows

/-- However often the classes below have been begun. -/
theorem rooted_ends (rooted : Rooted jf lk c) : ∃ enough, ∀ fuel, enough ≤ fuel → ∀ lk' : Look,
    (∀ x, (lk'.classes x).resolved = (lk.classes x).resolved) →
      resolveClassNode jf fuel lk' c ≠ .error .fuel ∧ ¬ nodeNull jf fuel lk' c := by
  have already : ∀ {c fuel} {lk' : Look}, 0 < fuel → (lk'.classes c).resolved = true →
      resolveClassNode jf fuel lk' c ≠ .error .fuel ∧ ¬ nodeNull jf fuel lk' c := by
    intro c fuel lk' some marked
    obtain ⟨fuel, rfl⟩ : ∃ m, fuel = m + 1 := ⟨fuel - 1, by omega⟩
    rw [resolveClassNode, nodeNull, if_pos marked, marked]
    exact ⟨by simp, fun follows => absurd follows.1 (by decide)⟩
  have node : ∀ {c n}, jf.Total c n → ∀ {aboveEnough : Nat}, (∀ s, jf.getSuperClass c = some s →
      ∀ fuel, aboveEnough ≤ fuel → ∀ lk' : Look,
      (∀ x, (lk'.classes x).resolved = (lk.classes x).resolved) →
      resolveClassNode jf fuel lk' s ≠ .error .fuel ∧ ¬ nodeNull jf fuel lk' s) →
      ∃ enough, ∀ fuel, enough ≤ fuel → ∀ lk' : Look,
        (∀ x, (lk'.classes x).resolved = (lk.classes x).resolved) →
        resolveClassNode jf fuel lk' c ≠ .error .fuel ∧ ¬ nodeNull jf fuel lk' c := by
    intro c n total aboveEnough above
    obtain ⟨sizeEnough, size⟩ := total.size
    obtain ⟨seekEnough, seek⟩ := total.seek
    refine ⟨max (aboveEnough + 1) (max sizeEnough seekEnough), fun fuel many lk' same => ?_⟩
    obtain ⟨fuel, rfl⟩ : ∃ m, fuel = m + 1 := ⟨fuel - 1, by omega⟩
    cases fresh : (lk'.classes c).resolved with
    | true => exact already (Nat.succ_pos _) fresh
    | false =>
      obtain ⟨tfields, counted⟩ := size (fuel + 1) (by omega)
      refine node_ends fresh counted ?_ fun s found => ?_
      · intro cc r fieldNo target upward total more
        exact seek cc r fieldNo target (fuel + 1) upward total more (by omega)
      · refine above s found fuel (by omega) _ fun x => ?_
        rw [begun_resolved, same]
  induction rooted with
  | marked marked =>
    refine ⟨1, fun fuel some lk' same => already some ?_⟩
    rw [same, marked]
  | top total none =>
    refine @node _ _ total 0 fun s found => ?_
    rw [none] at found
    cases found
  | @super c s n total found _ ih =>
    obtain ⟨enough, run⟩ := ih
    refine @node _ _ total enough fun s' found' => ?_
    rw [found, Option.some.injEq] at found'
    subst found'
    exact run

theorem survives_of_rooted (rooted : Rooted jf lk c) : Survives jf lk c := by
  obtain ⟨enough, run⟩ := rooted_ends rooted
  exact ⟨enough, fun fuel many => run fuel many lk fun _ => rfl⟩

theorem rooted_of_survives {fuel : Nat} (ends : resolveClassNode jf fuel lk c ≠ .error .fuel)
    (clear : ¬ nodeNull jf fuel lk c) : Rooted jf lk c := by
  induction fuel generalizing lk c with
  | zero => exact absurd rfl ends
  | succ fuel ih =>
    cases fresh : (lk.classes c).resolved with
    | true => exact .marked fresh
    | false =>
      rw [nodeNull] at clear
      simp only [fresh, true_and] at clear
      cases size : jf.resolveSClassSize (fuel + 1) c with
      | error stop =>
        rw [size] at clear
        rcases resolveSClassSize_error size with rfl | rfl
        · rw [resolveClassNode, size] at ends
          simp only [fresh, Bool.false_eq_true, if_false] at ends
          exact absurd rfl ends
        · exact absurd rfl clear
      | ok tfields =>
        obtain ⟨r, total, _⟩ := resolveSClassSize_total size
        rw [size] at clear
        cases found : jf.getSuperClass c with
        | none => exact .top total found
        | some s =>
          rw [resolveClassNode_above fresh size found] at ends
          rw [found] at clear
          have above : Rooted jf (begun jf lk c tfields) s := by
            refine ih (fun out => ends ?_) fun follows => clear (.inl follows)
            rw [out]
            rfl
          exact .super total found (above.congr fun x => (begun_resolved jf lk c tfields x).symm)

end Walks

/-- Resolving a class ends without following a NULL class exactly if the class is rooted. -/
theorem resolution_survives (jf : Jdump) (lk : Look) (c : ClassRef) :
    Survives jf lk c ↔ Rooted jf lk c := by
  constructor
  · rintro ⟨enough, run⟩
    exact rooted_of_survives (run enough le_rfl).1 (run enough le_rfl).2
  · exact survives_of_rooted

/-- The string `A` under 7, class 3 of that name, and its dump: its superclass is class 3. -/
def selfClassDump : List Byte :=
  [0x01, 0, 0, 0, 0, 0, 0, 0, 5, 0, 0, 0, 7, 0x41,
    0x02, 0, 0, 0, 0, 0, 0, 0, 16, 0, 0, 0, 1, 0, 0, 0, 3, 0, 0, 0, 0, 0, 0, 0, 7,
    0x0c, 0, 0, 0, 0, 0, 0, 0, 43, 0x20, 0, 0, 0, 3, 0, 0, 0, 0, 0, 0, 0, 3] ++
    List.replicate 30 0

theorem resolveSClassSize_self {jf : Jdump} {c : ClassRef} (more : (jf.cinfo c).superId ≠ 0)
    (self : jf.getSuperClass c = some c) (fuel : Nat) :
    jf.resolveSClassSize fuel c = .error .fuel := by
  induction fuel with
  | zero => rfl
  | succ fuel ih =>
    rw [Jdump.resolveSClassSize, if_neg more, self]
    simp only [ih]

/-- The sizes of class 3 are added up for ever. -/
theorem selfClassDump_endless : ∃ d : Dump,
    Steps ⟨.records, .start selfClassDump .four none⟩ ⟨.done, d⟩ ∧
      d.jf.cTable.lookup32 3 = some 0 ∧ ¬ Survives d.jf (.initial .zero) 0 := by
  have run : leaves 5 (.start selfClassDump .four none) (fun d =>
      decide (d.jf.cTable.lookup32 3 = some 0) && decide ((d.jf.cinfo 0).superId = 3)) = true := by
    decide +kernel
  obtain ⟨d, steps, check⟩ := leaves_steps run
  simp only [Bool.and_eq_true, decide_eq_true_eq] at check
  obtain ⟨found, superId⟩ := check
  refine ⟨d, steps, found, ?_⟩
  rintro ⟨enough, ends⟩
  have self : d.jf.getSuperClass 0 = some 0 := by
    rw [Jdump.getSuperClass, superId]
    exact found
  have size := resolveSClassSize_self (by rw [superId]; decide) self (enough + 1)
  refine (ends (enough + 1) (Nat.le_succ _)).1 ?_
  rw [resolveClassNode, if_neg (by decide), size]

end Phat
