import Phat.Accesses
import Phat.Hierarchy

/-! Which members `resolveClassNode` reads, of which classes: those of the classes on the
way up that it uses, and no others. Its result depends on these alone. -/
namespace Phat

namespace Jdump

/-- The way `resolveSClassSize` takes from a class. -/
def Upward (jf : Jdump) : ClassRef → ClassRef → Prop :=
  Relation.ReflTransGen fun c s => (jf.cinfo c).superId ≠ 0 ∧ jf.getSuperClass c = some s

/-- The way `resolveClassNode` takes from a class. -/
def Resolving (jf : Jdump) (lk : Look) : ClassRef → ClassRef → Prop :=
  Relation.ReflTransGen fun c s => jf.getSuperClass c = some s ∧ (lk.classes s).resolved = false

/-- The members of a class that are of use. -/
def Uses (jf : Jdump) (c : ClassRef) : Member → Prop
  | .superId => True
  | .cstats => True
  | .statics => 0 < (jf.cinfo c).cstats.toNat
  | .cfields => (jf.cinfo c).superId ≠ 0
  | .fields => (jf.cinfo c).superId ≠ 0 ∧ 0 < (jf.cinfo c).cfields.toNat
  | .children => False
  | .parents => False

/-- The number of fields from a class up to the root, whose own are not counted. -/
inductive Total (jf : Jdump) : ClassRef → Nat → Prop where
  | root {c : ClassRef} : (jf.cinfo c).superId = 0 → Total jf c 0
  | super {c s : ClassRef} {n : Nat} : (jf.cinfo c).superId ≠ 0 → jf.getSuperClass c = some s →
      Total jf s n → Total jf c ((jf.cinfo c).cfields.toNat + n)

end Jdump

section Uses
variable {jf : Jdump} {c cc s x : ClassRef} {member : Member} {fuel n r fieldNo : Nat}
  {target : Int} {lk : Look}

theorem Jdump.Upward.super (more : (jf.cinfo c).superId ≠ 0) (found : jf.getSuperClass c = some s)
    (above : jf.Upward s x) : jf.Upward c x :=
  .head ⟨more, found⟩ above

theorem sizeAccesses_uses (read : .read x member ∈ jf.sizeAccesses fuel c) :
    jf.Upward c x ∧ jf.Uses x member := by
  induction fuel generalizing c with
  | zero => cases read
  | succ fuel ih =>
    rw [Jdump.sizeAccesses] at read
    rcases List.mem_cons.mp read with here | later
    · cases here
      exact ⟨.refl, ⟨⟩⟩
    · split at later
      · cases later
      · rename_i more
        rcases List.mem_cons.mp later with here | above
        · cases here
          exact ⟨.refl, more⟩
        · cases found : jf.getSuperClass c with
          | none =>
            rw [found] at above
            cases above
          | some s =>
            rw [found] at above
            obtain ⟨upward, uses⟩ := ih above
            exact ⟨upward.super more found, uses⟩

theorem le_int (n : Int) : -2 ^ 31 ≤ int n := Int.le_bmod (by decide)

/-- Where an `int` is too small the count is too low, never too high. -/
theorem int_toNat_le (low : -2 ^ 31 ≤ target) : (int target).toNat ≤ target.toNat := by
  rw [int, Int.bmod_def]
  split <;> omega

theorem resolveSClassSize_total {tfields : Int}
    (counted : jf.resolveSClassSize fuel c = .ok tfields) :
    ∃ r, jf.Total c r ∧ -2 ^ 31 ≤ tfields ∧ tfields.toNat ≤ r := by
  induction fuel generalizing c tfields with
  | zero => cases counted
  | succ fuel ih =>
    rw [Jdump.resolveSClassSize] at counted
    split at counted
    · rename_i top
      cases counted
      exact ⟨0, .root top, by decide, le_rfl⟩
    · rename_i more
      cases found : jf.getSuperClass c with
      | none =>
        rw [found] at counted
        cases counted
      | some s =>
        rw [found] at counted
        simp only at counted
        split at counted
        · cases counted
        · rename_i n above
          cases counted
          obtain ⟨r, total, low, few⟩ := ih above
          refine ⟨_, .super more found total, le_int _, ?_⟩
          have limit : (int ((jf.cinfo c).cfields.toNat + n)).toNat ≤
              ((jf.cinfo c).cfields.toNat + n).toNat := int_toNat_le (by omega)
          omega

/-- While fields are left the loop stays below the root. -/
theorem seekAccesses_uses (total : jf.Total cc r) (more : fieldNo < r)
    (read : .read x member ∈ jf.seekAccesses fuel cc fieldNo) :
    jf.Upward cc x ∧ jf.Uses x member := by
  induction fuel generalizing cc r fieldNo with
  | zero => cases read
  | succ fuel ih =>
    cases total with
    | root => exact absurd more (Nat.not_lt_zero _)
    | @super _ s r some found above =>
      rw [Jdump.seekAccesses] at read
      rcases List.mem_cons.mp read with here | later
      · cases here
        exact ⟨.refl, some⟩
      · split at later
        · cases later
        · rename_i past
          rw [found] at later
          rcases List.mem_cons.mp later with here | up
          · cases here
            exact ⟨.refl, ⟨⟩⟩
          · have left : 0 < r := by omega
            rcases List.mem_cons.mp up with here | rest
            · cases here
              cases above with
              | root => exact absurd left (Nat.lt_irrefl _)
              | super some' => exact ⟨.single ⟨some, found⟩, some'⟩
            · obtain ⟨upward, uses⟩ := ih above left rest
              exact ⟨upward.super some found, uses⟩

/-- The field it stops at, with the number of those left. -/
theorem seekField_total (total : jf.Total cc r) (more : fieldNo < r)
    {cc' : ClassRef} {fieldNo' : Nat} {target' : Int}
    (seek : jf.seekField fuel cc fieldNo target = .ok (cc', fieldNo', target')) :
    ∃ r', jf.Total cc' r' ∧ jf.Upward cc cc' ∧ fieldNo' < (jf.cinfo cc').cfields.toNat ∧
      r - fieldNo ≤ r' - fieldNo' := by
  induction fuel generalizing cc r fieldNo target with
  | zero => cases seek
  | succ fuel ih =>
    rw [Jdump.seekField] at seek
    split at seek
    · rename_i inside
      cases seek
      exact ⟨r, total, .refl, inside, le_rfl⟩
    · cases total with
      | root => exact absurd more (Nat.not_lt_zero _)
      | @super _ s r some found above =>
        rw [found] at seek
        obtain ⟨r', total', upward, inside, left⟩ := ih above (by omega) seek
        exact ⟨r', total', upward.super some found, inside, by omega⟩

theorem fillAccesses_uses {ci : ClassRef} {index : Nat} (total : jf.Total cc r)
    (enough : fieldNo + n ≤ r)
    (read : .read x member ∈ fillAccesses jf fuel ci n cc fieldNo target index lk) :
    jf.Upward cc x ∧ jf.Uses x member := by
  induction n generalizing cc r fieldNo target index lk with
  | zero => cases read
  | succ n ih =>
    rw [fillAccesses] at read
    rcases List.mem_append.mp read with seeking | later
    · exact seekAccesses_uses total (by omega) seeking
    · cases seek : jf.seekField fuel cc fieldNo target with
      | error =>
        rw [seek] at later
        cases later
      | ok at_field =>
        obtain ⟨cc', fieldNo', target'⟩ := at_field
        obtain ⟨r', total', upward, inside, left⟩ := seekField_total total (by omega) seek
        rw [seek] at later
        rcases List.mem_cons.mp later with here | rest
        · cases here
          cases total' with
          | root => omega
          | super some => exact ⟨upward, some, by omega⟩
        · simp only at rest
          split at rest
          · cases rest
          · split at rest
            · cases rest
            · obtain ⟨above, uses⟩ := ih total' (by omega) rest
              exact ⟨upward.trans above, uses⟩

theorem layAccesses_uses {tfields : Int} (total : jf.Total c r) (few : tfields.toNat ≤ r)
    (read : .read x member ∈ layAccesses jf fuel lk c tfields) :
    jf.Upward c x ∧ jf.Uses x member := by
  rw [layAccesses] at read
  split at read
  · rcases List.mem_cons.mp read with here | fill
    · cases here
      cases total with
      | root => omega
      | super some => exact ⟨.refl, some⟩
    · exact fillAccesses_uses total (by omega) fill
  · cases read

theorem staticsAccesses_uses (few : n ≤ (jf.cinfo c).cstats.toNat)
    (read : .read x member ∈ staticsAccesses c n) : x = c ∧ jf.Uses c member := by
  induction n with
  | zero =>
    cases List.mem_singleton.mp read
    exact ⟨rfl, ⟨⟩⟩
  | succ n ih =>
    rw [staticsAccesses, List.mem_cons, List.mem_cons] at read
    rcases read with here | here | rest
    · cases here
      exact ⟨rfl, ⟨⟩⟩
    · cases here
      exact ⟨rfl, Nat.zero_lt_of_lt few⟩
    · exact ih (by omega) rest

theorem staticsAccesses_head (c : ClassRef) (n : Nat) :
    .read c .cstats ∈ staticsAccesses c n := by
  cases n <;> exact List.mem_cons_self

theorem Jdump.Resolving.congr {lk' : Look}
    (same : ∀ c, (lk'.classes c).resolved = (lk.classes c).resolved) :
    jf.Resolving lk' = jf.Resolving lk := by
  simp only [Resolving, same]

/-- What the record of a class holds when its superclass is resolved. -/
def begun (jf : Jdump) (lk : Look) (c : ClassRef) (tfields : Int) : Look :=
  let lk := lk.setClass c { lk.classes c with tfields := tfields }
  lk.setClass c (resolveStatics (lk.classes c) (jf.cinfo c).cstats.toNat)

theorem begun_resolved (jf : Jdump) (lk : Look) (c : ClassRef) (tfields : Int) (x : ClassRef) :
    ((begun jf lk c tfields).classes x).resolved = (lk.classes x).resolved := by
  rw [begun]
  exact (Look.setClass_keep ClassLook.resolved (by rfl) x).trans
    (Look.setClass_keep ClassLook.resolved (by rfl) x)

theorem nodeAccesses_marked (marked : (lk.classes c).resolved = true) :
    nodeAccesses jf fuel lk c = [] := by
  cases fuel with
  | zero => rfl
  | succ fuel => rw [nodeAccesses, if_pos marked]

/-- What is read is of use, and of a class on the way up from one that is resolved. -/
theorem nodeAccesses_uses (read : .read x member ∈ nodeAccesses jf fuel lk c) :
    ∃ s, jf.Resolving lk c s ∧ jf.Upward s x ∧ jf.Uses x member := by
  induction fuel generalizing c lk with
  | zero => cases read
  | succ fuel ih =>
    rw [nodeAccesses] at read
    split at read
    · cases read
    · rcases List.mem_append.mp read with size | later
      · exact ⟨c, .refl, sizeAccesses_uses size⟩
      · cases counted : jf.resolveSClassSize (fuel + 1) c with
        | error =>
          rw [counted] at later
          cases later
        | ok tfields =>
          obtain ⟨r, total, _, few⟩ := resolveSClassSize_total counted
          rw [counted] at later
          simp only at later
          rcases List.mem_append.mp later with statics | later
          · obtain ⟨rfl, uses⟩ := staticsAccesses_uses le_rfl statics
            exact ⟨x, .refl, .refl, uses⟩
          · rcases List.mem_cons.mp later with here | later
            · cases here
              exact ⟨x, .refl, .refl, ⟨⟩⟩
            · cases found : jf.getSuperClass c with
              | none =>
                rw [found] at later
                exact ⟨c, .refl, layAccesses_uses total few later⟩
              | some s =>
                rw [found] at later
                simp only at later
                rcases List.mem_append.mp later with above | later
                · have entered := begun_resolved jf lk c tfields
                  change .read x member ∈ nodeAccesses jf fuel (begun jf lk c tfields) s at above
                  cases marked : (lk.classes s).resolved with
                  | true =>
                    rw [nodeAccesses_marked ((entered s).trans marked)] at above
                    cases above
                  | false =>
                    obtain ⟨t, resolving, upward, uses⟩ := ih above
                    rw [Jdump.Resolving.congr entered] at resolving
                    exact ⟨t, .head ⟨found, marked⟩ resolving, upward, uses⟩
                · split at later
                  · cases later
                  · exact ⟨c, .refl, layAccesses_uses total few later⟩

end Uses

/-- A member holds the same in both states. The array `fields` points to is one member
with the allocation it is in; `children` and `parents` are not in this half. -/
def Jdump.SameMember (jf jf' : Jdump) (c : ClassRef) : Member → Prop
  | .superId => (jf'.cinfo c).superId = (jf.cinfo c).superId
  | .cstats => (jf'.cinfo c).cstats = (jf.cinfo c).cstats
  | .statics => (jf'.cinfo c).statics = (jf.cinfo c).statics
  | .cfields => (jf'.cinfo c).cfields = (jf.cinfo c).cfields
  | .fields => (jf'.cinfo c).fields = (jf.cinfo c).fields ∧ (jf'.cinfo c).block = (jf.cinfo c).block
  | .children => True
  | .parents => True

/-- The members that are read hold the same. -/
def Jdump.Agrees (jf jf' : Jdump) (accesses : List Access) : Prop :=
  ∀ c member, .read c member ∈ accesses → jf.SameMember jf' c member

section Agrees
variable {jf : Jdump} {classes : Store Cinfo} {c cc : ClassRef} {fuel n fieldNo : Nat} {target : Int}
  {accesses accesses' : List Access} {lk : Look}

theorem Jdump.Agrees.here {jf' : Jdump} {member : Member}
    (agrees : jf.Agrees jf' (.read c member :: accesses)) : jf.SameMember jf' c member :=
  agrees c member List.mem_cons_self

theorem Jdump.Agrees.mono {jf' : Jdump} (agrees : jf.Agrees jf' accesses)
    (fewer : ∀ access ∈ accesses', access ∈ accesses) : jf.Agrees jf' accesses' :=
  fun c member read => agrees c member (fewer _ read)

theorem Jdump.Agrees.later {jf' : Jdump} {access : Access}
    (agrees : jf.Agrees jf' (access :: accesses)) : jf.Agrees jf' accesses :=
  agrees.mono fun _ => List.mem_cons_of_mem _

theorem Jdump.Agrees.left {jf' : Jdump} (agrees : jf.Agrees jf' (accesses ++ accesses')) :
    jf.Agrees jf' accesses :=
  agrees.mono fun _ => List.mem_append_left _

theorem Jdump.Agrees.right {jf' : Jdump} (agrees : jf.Agrees jf' (accesses ++ accesses')) :
    jf.Agrees jf' accesses' :=
  agrees.mono fun _ => List.mem_append_right _

theorem getSuperClass_agrees (same : jf.SameMember { jf with cinfos := classes } c .superId) :
    ({ jf with cinfos := classes } : Jdump).getSuperClass c = jf.getSuperClass c :=
  congrArg (fun superId => jf.cTable.lookup32 (key superId)) same

theorem resolveSClassSize_agrees
    (agrees : jf.Agrees { jf with cinfos := classes } (jf.sizeAccesses fuel c)) :
    ({ jf with cinfos := classes } : Jdump).resolveSClassSize fuel c =
      jf.resolveSClassSize fuel c := by
  induction fuel generalizing c with
  | zero => rfl
  | succ fuel ih =>
    rw [Jdump.sizeAccesses] at agrees
    have superId := agrees.here
    have up := getSuperClass_agrees superId
    rw [Jdump.resolveSClassSize, Jdump.resolveSClassSize, superId]
    split
    · rfl
    · rename_i more
      have rest := agrees.later
      rw [if_neg more] at rest
      have cfields := rest.here
      rw [up]
      cases found : jf.getSuperClass c with
      | none => rfl
      | some s =>
        have above := rest.later
        rw [found] at above
        simp only
        rw [ih above, cfields]

theorem seekField_agrees
    (agrees : jf.Agrees { jf with cinfos := classes } (jf.seekAccesses fuel cc fieldNo)) :
    ({ jf with cinfos := classes } : Jdump).seekField fuel cc fieldNo target =
      jf.seekField fuel cc fieldNo target := by
  induction fuel generalizing cc fieldNo target with
  | zero => rfl
  | succ fuel ih =>
    rw [Jdump.seekAccesses] at agrees
    have cfields := agrees.here
    rw [Jdump.seekField, Jdump.seekField, cfields]
    split
    · rfl
    · rename_i past
      have rest := agrees.later
      rw [if_neg past] at rest
      rw [getSuperClass_agrees rest.here]
      cases found : jf.getSuperClass cc with
      | none => rfl
      | some s =>
        have above := rest.later
        rw [found] at above
        have here := above.here
        simp only
        rw [here, ih above.later]

theorem layoutField_agrees {ci : ClassRef} {decl : FieldDecl} {index : Nat}
    (same : jf.SameMember { jf with cinfos := classes } cc .fields) :
    layoutField { jf with cinfos := classes } lk ci cc fieldNo decl index =
      layoutField jf lk ci cc fieldNo decl index := by
  rw [layoutField, layoutField, same.2]

theorem assignOwn_agrees {ci : ClassRef} {field : Finfo}
    (same : jf.SameMember { jf with cinfos := classes } cc .fields) :
    assignOwn { jf with cinfos := classes } lk ci cc fieldNo field =
      assignOwn jf lk ci cc fieldNo field := by
  rw [assignOwn, assignOwn]
  split
  · rename_i own
    rw [← own, same.2]
  · rfl

theorem fillValues_agrees {ci : ClassRef} {index : Nat}
    (agrees : jf.Agrees { jf with cinfos := classes }
      (fillAccesses jf fuel ci n cc fieldNo target index lk)) :
    fillValues { jf with cinfos := classes } fuel ci n cc fieldNo target index lk =
      fillValues jf fuel ci n cc fieldNo target index lk := by
  induction n generalizing cc fieldNo target index lk with
  | zero => rfl
  | succ n ih =>
    rw [fillAccesses] at agrees
    rw [fillValues, fillValues, seekField_agrees agrees.left]
    cases seek : jf.seekField fuel cc fieldNo target with
    | error => rfl
    | ok at_field =>
      obtain ⟨cc', fieldNo', target'⟩ := at_field
      have rest := agrees.right
      rw [seek] at rest
      have fields := rest.here
      have later := rest.later
      simp only at later ⊢
      rw [fields.1]
      cases entry : (jf.cinfo cc').fields[fieldNo']? with
      | none => rfl
      | some decl =>
        rw [entry] at later
        simp only at later ⊢
        rw [layoutField_agrees fields]
        cases store : storeValue (lk.classes ci).values (target' + fieldNo')
            (layoutField jf lk ci cc' fieldNo' decl index) with
        | error => rfl
        | ok values =>
          rw [store] at later
          simp only at later ⊢
          rw [assignOwn_agrees fields, ih later]

theorem layOut_agrees {tfields : Int}
    (agrees : jf.Agrees { jf with cinfos := classes } (layAccesses jf fuel lk c tfields)) :
    layOut { jf with cinfos := classes } fuel lk c tfields = layOut jf fuel lk c tfields := by
  rw [layAccesses] at agrees
  rw [layOut, layOut]
  split
  · rename_i some
    rw [if_pos some] at agrees
    split
    · rfl
    · rename_i granted
      have cfields := agrees.here
      have fill := agrees.later
      simp only [if_neg granted] at fill
      simp only
      rw [cfields, fillValues_agrees fill]
  · rfl

/-- `resolveClassNode` has no other way to tell two states of the class records apart. -/
theorem resolveClassNode_agrees
    (agrees : jf.Agrees { jf with cinfos := classes } (nodeAccesses jf fuel lk c)) :
    resolveClassNode { jf with cinfos := classes } fuel lk c = resolveClassNode jf fuel lk c := by
  induction fuel generalizing c lk with
  | zero => rfl
  | succ fuel ih =>
    rw [nodeAccesses] at agrees
    rw [resolveClassNode, resolveClassNode]
    split
    · rfl
    · rename_i fresh
      rw [if_neg fresh] at agrees
      rw [resolveSClassSize_agrees agrees.left]
      cases counted : jf.resolveSClassSize (fuel + 1) c with
      | error => rfl
      | ok tfields =>
        have rest := agrees.right
        rw [counted] at rest
        simp only at rest ⊢
        have cstats : jf.SameMember { jf with cinfos := classes } c .cstats :=
          rest.left c .cstats (staticsAccesses_head c _)
        have superId := rest.right.here
        have later := rest.right.later
        rw [cstats, getSuperClass_agrees superId]
        cases found : jf.getSuperClass c with
        | none =>
          rw [found] at later
          simp only at later ⊢
          rw [layOut_agrees later]
        | some s =>
          rw [found] at later
          simp only at later ⊢
          rw [ih later.left]
          have after := later.right
          split
          · rfl
          · rename_i lk₁ above
            rw [above] at after
            rw [layOut_agrees after]

end Agrees

end Phat
