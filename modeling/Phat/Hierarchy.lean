import Phat.Layout

/-! Superclass chains, the order of fields along them, and the loop of `resolveClassNode`
that fills `values` in the one order while it walks the fields in the other. -/
namespace Phat

namespace Jdump

/-- The instance fields of a class itself that a layout counts: those of a root it leaves
out, as `resolveSClassSize` does. -/
def counted (jf : Jdump) (c : ClassRef) : List FieldDecl :=
  if (jf.cinfo c).superId = 0 then [] else (jf.cinfo c).fields.take (jf.cinfo c).cfields.toNat

/-- A class dump leaves as many entries in `fields` as `cfields` says. -/
def Filled (jf : Jdump) (c : ClassRef) : Prop :=
  (jf.cinfo c).cfields.toNat ≤ (jf.cinfo c).fields.length

/-- A class and its superclasses up to a root. -/
inductive Chain (jf : Jdump) : ClassRef → List ClassRef → Prop where
  | root {c : ClassRef} : (jf.cinfo c).superId = 0 → Chain jf c [c]
  | super {c s : ClassRef} {cs : List ClassRef} : (jf.cinfo c).superId ≠ 0 →
      jf.getSuperClass c = some s → jf.Filled c → Chain jf s cs → Chain jf c (c :: cs)

def fieldCount (jf : Jdump) (cs : List ClassRef) : Nat :=
  (cs.map fun c => (jf.counted c).length).sum

/-- The bytes of the given fields in an instance. -/
def bodySize (jf : Jdump) (decls : List FieldDecl) : Nat :=
  (decls.map fun decl => fieldSize jf.identsz decl.ftype).sum

def chainSize (jf : Jdump) (cs : List ClassRef) : Nat :=
  (cs.map fun c => jf.bodySize (jf.counted c)).sum

def placed (jf : Jdump) (offset : Nat) (decl : FieldDecl) : Finfo :=
  ⟨decl.ident, jf.sbTable.lookup32 (key decl.ident), decl.ftype, offset⟩

/-- Fields that follow each other in an instance from `offset` on. -/
def place (jf : Jdump) : Nat → List FieldDecl → List Finfo
  | _, [] => []
  | offset, decl :: decls =>
    jf.placed offset decl :: jf.place (offset + fieldSize jf.identsz decl.ftype) decls

/-- The fields of a chain, those of the root first. The body of an instance has them the
other way round, those of the class itself first. -/
def layoutOf (jf : Jdump) : Nat → List ClassRef → List Finfo
  | _, [] => []
  | offset, c :: cs =>
    jf.layoutOf (offset + jf.bodySize (jf.counted c)) cs ++ jf.place offset (jf.counted c)

end Jdump

/-- A slot of `values` that has been assigned once. -/
def Cell.once (field : Finfo) : Cell := ⟨some field, 1⟩

/-- Entry `i` of `fields` has the name of its field. -/
def NamedAt (jf : Jdump) (own : Nat → Nat → OwnField) (c : ClassRef) (i : Nat) : Prop :=
  ∀ decl, (jf.counted c)[i]? = some decl →
    (own (jf.cinfo c).block i).name = jf.sbTable.lookup32 (key decl.ident)

section Chain
variable {jf : Jdump} {c s : ClassRef} {cs cs' : List ClassRef}

theorem Jdump.counted_root (zero : (jf.cinfo c).superId = 0) : jf.counted c = [] :=
  if_pos zero

theorem Jdump.length_counted (more : (jf.cinfo c).superId ≠ 0) (filled : jf.Filled c) :
    (jf.counted c).length = (jf.cinfo c).cfields.toNat := by
  rw [counted, if_neg more, List.length_take, min_eq_left filled]

theorem Jdump.length_counted_le (jf : Jdump) (c : ClassRef) :
    (jf.counted c).length ≤ (jf.cinfo c).cfields.toNat := by
  rw [counted]
  split
  · exact Nat.zero_le _
  · rw [List.length_take]
    exact Nat.min_le_left _ _

theorem Jdump.getElem?_counted {i : Nat} {decl : FieldDecl}
    (here : (jf.counted c)[i]? = some decl) : (jf.cinfo c).fields[i]? = some decl := by
  rw [counted] at here
  split at here
  · cases here
  · rw [List.getElem?_take] at here
    split at here
    · exact here
    · cases here

theorem Jdump.fieldCount_root (zero : (jf.cinfo c).superId = 0) : jf.fieldCount [c] = 0 := by
  rw [fieldCount, List.map_singleton, List.sum_singleton, counted_root zero, List.length_nil]

theorem Jdump.fieldCount_cons (jf : Jdump) (c : ClassRef) (cs : List ClassRef) :
    jf.fieldCount (c :: cs) = (jf.counted c).length + jf.fieldCount cs := by
  rw [fieldCount, List.map_cons, List.sum_cons, fieldCount]

theorem Jdump.length_place (jf : Jdump) (offset : Nat) (decls : List FieldDecl) :
    (jf.place offset decls).length = decls.length := by
  induction decls generalizing offset with
  | nil => rfl
  | cons decl decls ih => rw [place, List.length_cons, ih, List.length_cons]

theorem Jdump.length_layoutOf (jf : Jdump) (offset : Nat) (cs : List ClassRef) :
    (jf.layoutOf offset cs).length = jf.fieldCount cs := by
  induction cs generalizing offset with
  | nil => rfl
  | cons c cs ih =>
    rw [layoutOf, List.length_append, ih, length_place, fieldCount_cons, Nat.add_comm]

theorem Jdump.Chain.unique (chain : jf.Chain c cs) (other : jf.Chain c cs') : cs = cs' := by
  induction chain generalizing cs' with
  | root zero =>
    cases other with
    | root => rfl
    | super more => exact absurd zero more
  | super more found _ _ ih =>
    cases other with
    | root zero => exact absurd zero more
    | super _ found' _ rest =>
      rw [found] at found'
      cases found'
      rw [ih rest]

theorem Jdump.Chain.head_mem (chain : jf.Chain c cs) : c ∈ cs := by
  cases chain <;> simp

/-- The chain of a superclass is the rest of the chain. -/
theorem Jdump.Chain.suffix (chain : jf.Chain c cs) (member : s ∈ cs) :
    ∃ ss, jf.Chain s ss ∧ ss <:+ cs := by
  induction chain with
  | root zero =>
    obtain rfl := List.mem_singleton.mp member
    exact ⟨_, .root zero, List.suffix_rfl⟩
  | super more found filled rest ih =>
    rcases List.mem_cons.mp member with rfl | above
    · exact ⟨_, .super more found filled rest, List.suffix_rfl⟩
    · obtain ⟨ss, chain, suffix⟩ := ih above
      exact ⟨ss, chain, suffix.trans (List.suffix_cons _ _)⟩

/-- No class is its own superclass. -/
theorem Jdump.Chain.not_above (chain : jf.Chain c (c :: cs)) : c ∉ cs := by
  intro member
  cases chain with
  | root => cases member
  | super more found filled rest =>
    obtain ⟨ss, again, suffix⟩ := rest.suffix member
    have same := again.unique (.super more found filled rest)
    have short := suffix.length_le
    rw [same, List.length_cons] at short
    omega

end Chain

section Fill
variable {jf : Jdump} {ci cc : ClassRef} {cs : List ClassRef} {lk : Look}

@[simp] theorem Look.setClass_self (lk : Look) (c : ClassRef) :
    lk.setClass c (lk.classes c) = lk := by
  rw [setClass, Function.update_eq_self]

@[simp] theorem Look.setClass_setClass (lk : Look) (c : ClassRef) (a b : ClassLook) :
    (lk.setClass c a).setClass c b = lk.setClass c b := by
  simp [setClass]

@[simp] theorem Look.classes_setClass_self (lk : Look) (c : ClassRef) (a : ClassLook) :
    (lk.setClass c a).classes c = a := by
  simp [setClass]

theorem Look.classes_setClass_of_ne (lk : Look) {c x : ClassRef} (a : ClassLook) (apart : x ≠ c) :
    (lk.setClass c a).classes x = lk.classes x := by
  simp [setClass, apart]

/-- A member that the assigned record has as before is as before everywhere. -/
theorem Look.setClass_keep {β : Type} (member : ClassLook → β) {c : ClassRef} {a : ClassLook}
    (same : member a = member (lk.classes c)) (x : ClassRef) :
    member ((lk.setClass c a).classes x) = member (lk.classes x) := by
  by_cases here : x = c
  · rw [here, classes_setClass_self, same]
  · rw [classes_setClass_of_ne _ _ here]

/-- The slot after `front` gets its first value. -/
theorem storeValue_next (front back : List Cell) (field : Finfo) :
    storeValue (front ++ ⟨none, 0⟩ :: back) front.length field =
      .ok (front ++ Cell.once field :: back) := by
  rw [storeValue, if_pos]
  · rw [Int.toNat_natCast, List.modify_eq_take_cons_drop (by simp)]
    simp [Cell.once]
  · simp only [List.length_append, List.length_cons]
    omega

theorem layoutField_eq {fieldNo index : Nat} {decl : FieldDecl}
    (here : (jf.counted cc)[fieldNo]? = some decl)
    (named : cc = ci ∨ NamedAt jf (lk.classes cc).own cc fieldNo) :
    layoutField jf lk ci cc fieldNo decl index = jf.placed index decl := by
  rw [layoutField]
  split
  · rfl
  · rename_i apart
    rw [(named.resolve_left apart) decl here, Jdump.placed]

theorem assignOwn_named {fieldNo index : Nat} {decl : FieldDecl}
    (here : (jf.counted cc)[fieldNo]? = some decl) {i : Nat}
    (named : NamedAt jf (lk.classes ci).own ci i ∨ (cc = ci ∧ i = fieldNo)) :
    NamedAt jf (assignOwn jf lk ci cc fieldNo (jf.placed index decl)).own ci i := by
  intro decl' there
  rw [assignOwn]
  split
  · rename_i same
    subst same
    by_cases at_field : i = fieldNo
    · subst at_field
      rw [here] at there
      cases there
      simp [Jdump.placed]
    · rcases named with named | ⟨_, wrong⟩
      · simp only [Function.update_self, Function.update_of_ne at_field]
        exact named decl' there
      · exact absurd wrong at_field
  · rename_i apart
    rcases named with named | ⟨wrong, _⟩
    · exact named decl' there
    · exact absurd wrong apart

theorem assignOwn_values (fieldNo : Nat) (field : Finfo) (values : List Cell) :
    ∃ own, own = (assignOwn jf lk ci cc fieldNo field).own ∧
      { assignOwn jf lk ci cc fieldNo field with values := values } =
        { lk.classes ci with own := own, values := values } := by
  refine ⟨_, rfl, ?_⟩
  rw [assignOwn]
  split <;> rfl

/-- The iterations over the fields of one class, from one of them on. `top` slots below
are left to the superclasses. -/
theorem fillValues_class (fuel : Nat) {before decls : List FieldDecl}
    (fields : jf.counted cc = before ++ decls)
    (named : cc = ci ∨ ∀ i, NamedAt jf (lk.classes cc).own cc i) {top : Nat}
    {front back : List Cell} (slots : front.length = top + before.length)
    (values : (lk.classes ci).values = front ++ (List.replicate decls.length ⟨none, 0⟩ ++ back))
    (n index : Nat) :
    ∃ own, fillValues jf (fuel + 1) ci (decls.length + n) cc before.length top index lk =
        fillValues jf (fuel + 1) ci n cc (before.length + decls.length) top
          (index + jf.bodySize decls) (lk.setClass ci { lk.classes ci with
            own := own
            values := front ++ ((jf.place index decls).map Cell.once ++ back) }) ∧
      ∀ i, NamedAt jf (lk.classes ci).own ci i ∨ (cc = ci ∧ before.length ≤ i) →
        NamedAt jf own ci i := by
  induction decls generalizing before lk front index with
  | nil =>
    refine ⟨(lk.classes ci).own, ?_, fun i known => ?_⟩
    · simp only [List.length_nil, List.replicate_zero, List.nil_append] at values
      simp only [List.length_nil, Nat.zero_add, Nat.add_zero, Jdump.bodySize, List.map_nil,
        List.sum_nil, Jdump.place, List.nil_append, ← values]
      rw [Look.setClass_self]
    · rcases known with known | ⟨rfl, past⟩
      · exact known
      · intro decl here
        rw [List.append_nil] at fields
        rw [fields, List.getElem?_eq_none past] at here
        cases here
  | cons decl decls ih =>
    have here : (jf.counted cc)[before.length]? = some decl := by
      rw [fields, List.getElem?_append_right le_rfl, Nat.sub_self, List.getElem?_cons_zero]
    have inside : before.length < (jf.cinfo cc).cfields.toNat :=
      (List.getElem?_eq_some_iff.mp here).1.trans_le (jf.length_counted_le cc)
    have entry := Jdump.getElem?_counted here
    have seek : jf.seekField (fuel + 1) cc before.length top = .ok (cc, before.length, top) := by
      rw [Jdump.seekField, if_pos inside]
    have field := @layoutField_eq jf ci cc lk before.length index decl here
      (named.imp id fun known => known _)
    have store := storeValue_next front (List.replicate decls.length ⟨none, 0⟩ ++ back)
      (jf.placed index decl)
    obtain ⟨own, own_eq, look⟩ := @assignOwn_values jf ci cc lk before.length (jf.placed index decl)
      (front ++ Cell.once (jf.placed index decl) ::
        (List.replicate decls.length ⟨none, 0⟩ ++ back))
    generalize after : lk.setClass ci { lk.classes ci with
      own := own
      values := front ++ Cell.once (jf.placed index decl) ::
        (List.replicate decls.length ⟨none, 0⟩ ++ back) } = lk'
    have step : fillValues jf (fuel + 1) ci ((decl :: decls).length + n) cc before.length top index
        lk = fillValues jf (fuel + 1) ci (decls.length + n) cc (before.length + 1) top
          (index + fieldSize jf.identsz decl.ftype) lk' := by
      have slot : (top : Int) + before.length = (front.length : Int) := by
        rw [slots, Nat.cast_add]
      rw [List.length_cons, Nat.succ_add, fillValues, ← after]
      simp only [seek, entry, field, slot, values, List.length_cons, List.replicate_succ,
        List.cons_append, store, look]
    have others : cc = ci ∨ ∀ i, NamedAt jf (lk'.classes cc).own cc i := by
      by_cases same : cc = ci
      · exact .inl same
      · rw [← after, Look.classes_setClass_of_ne _ _ same]
        exact named
    obtain ⟨own', rest, later⟩ := @ih lk' (before ++ [decl])
      (by rw [fields, List.append_assoc]; rfl) others (front ++ [Cell.once (jf.placed index decl)])
      (by simp only [List.length_append, List.length_singleton]; omega)
      (by rw [← after, Look.classes_setClass_self, List.append_assoc]; rfl)
      (index + fieldSize jf.identsz decl.ftype)
    refine ⟨own', ?_, fun i known => ?_⟩
    · rw [step]
      simp only [List.length_append, List.length_singleton] at rest
      rw [rest, ← after]
      simp only [Look.classes_setClass_self, Look.setClass_setClass, Jdump.bodySize, List.map_cons,
        List.sum_cons, Jdump.place, List.length_cons, List.append_assoc, List.cons_append,
        List.nil_append, Nat.add_assoc, Nat.add_comm 1]
    · apply later
      rw [← after, Look.classes_setClass_self, List.length_append, List.length_singleton]
      simp only
      rcases known with known | ⟨same, from_here⟩
      · left
        rw [own_eq]
        exact assignOwn_named here (.inl known)
      · by_cases at_field : i = before.length
        · left
          rw [own_eq]
          exact assignOwn_named here (.inr ⟨same, at_field⟩)
        · exact .inr ⟨same, by omega⟩

theorem seekField_mono {fuel : Nat} {fieldNo : Nat} {target : Int} {found : ClassRef × Nat × Int}
    (seek : jf.seekField fuel cc fieldNo target = .ok found) :
    jf.seekField (fuel + 1) cc fieldNo target = .ok found := by
  induction fuel generalizing cc fieldNo target with
  | zero => cases seek
  | succ fuel ih =>
    rw [Jdump.seekField] at seek ⊢
    split
    · rename_i inside
      rwa [if_pos inside] at seek
    · rename_i outside
      rw [if_neg outside] at seek
      split at seek
      · cases seek
      · rename_i super _
        exact ih seek

/-- While some class above has fields, the inner loop stops at one. -/
theorem seekField_ok (chain : jf.Chain cc cs) (some : 0 < jf.fieldCount cs) {fuel : Nat}
    (enough : cs.length ≤ fuel) (target : Int) :
    ∃ found, jf.seekField fuel cc 0 target = .ok found := by
  induction chain generalizing fuel target with
  | root zero =>
    rw [Jdump.fieldCount_root zero] at some
    cases some
  | @super c s cs _ found _ _ ih =>
    obtain ⟨fuel, rfl⟩ : ∃ n, fuel = n + 1 := ⟨fuel - 1, by rw [List.length_cons] at enough; omega⟩
    rw [Jdump.seekField]
    split
    · exact ⟨_, rfl⟩
    · rename_i outside
      have zero : (jf.counted c).length = 0 := by
        have bound := jf.length_counted_le c
        omega
      rw [Jdump.fieldCount_cons, zero, Nat.zero_add] at some
      rw [found]
      exact ih some (by simpa using enough) _

/-- At the end of a class the loop goes on with its superclass. -/
theorem fillValues_super {s : ClassRef} (found : jf.getSuperClass cc = some s)
    (chain : jf.Chain s cs) (more : 0 < jf.fieldCount cs) {fuel : Nat}
    (enough : cs.length < fuel) {target above : Int}
    (moved : target - (jf.cinfo s).cfields.toNat = above) (n index : Nat) :
    fillValues jf fuel ci (n + 1) cc (jf.cinfo cc).cfields.toNat target index lk =
      fillValues jf fuel ci (n + 1) s 0 above index lk := by
  obtain ⟨fuel, rfl⟩ : ∃ n, fuel = n + 1 := ⟨fuel - 1, by omega⟩
  obtain ⟨next, seek⟩ := seekField_ok chain more (Nat.le_of_lt_succ enough) above
  have up : jf.seekField (fuel + 1) cc (jf.cinfo cc).cfields.toNat target = .ok next := by
    rw [Jdump.seekField, if_neg (lt_irrefl _), found]
    simp only [moved]
    exact seek
  rw [fillValues, fillValues, up, seekField_mono seek]

/-- The iterations over a chain, from the first field of its first class on. None is left
for the root, whose own fields the loop never gets to. -/
theorem fillValues_chain (chain : jf.Chain cc cs) {fuel : Nat} (enough : cs.length ≤ fuel)
    (named : ∀ s ∈ cs, s ≠ ci → ∀ i, NamedAt jf (lk.classes s).own s i) {back : List Cell}
    (values : (lk.classes ci).values = List.replicate (jf.fieldCount cs) ⟨none, 0⟩ ++ back)
    {top : Int} (below : top + (jf.cinfo cc).cfields.toNat = jf.fieldCount cs) (index : Nat) :
    ∃ own, fillValues jf fuel ci (jf.fieldCount cs) cc 0 top index lk =
        .ok (index + jf.chainSize cs, lk.setClass ci { lk.classes ci with
          own := own
          values := (jf.layoutOf index cs).map Cell.once ++ back }) ∧
      ∀ i, NamedAt jf (lk.classes ci).own ci i ∨ cc = ci → NamedAt jf own ci i := by
  induction chain generalizing lk back top index with
  | @root c zero =>
    have empty := Jdump.counted_root zero
    rw [Jdump.fieldCount_root zero] at values ⊢
    refine ⟨(lk.classes ci).own, ?_, fun i known => ?_⟩
    · have same : { lk.classes ci with values := back } = lk.classes ci := by
        rw [List.replicate_zero, List.nil_append] at values
        rw [← values]
      simp only [fillValues, Jdump.chainSize, Jdump.layoutOf, empty, Jdump.place, List.map_cons,
        List.map_nil, List.append_nil, List.nil_append, List.sum_singleton, Jdump.bodySize,
        List.sum_nil, Nat.add_zero, same]
      rw [Look.setClass_self]
    · rcases known with known | rfl
      · exact known
      · intro decl here
        rw [empty] at here
        cases here
  | @super c s cs more found filled chain ih =>
    obtain ⟨fuel, rfl⟩ : ∃ n, fuel = n + 1 := ⟨fuel - 1, by rw [List.length_cons] at enough; omega⟩
    have count := jf.fieldCount_cons c cs
    have length := Jdump.length_counted more filled
    obtain rfl : top = (jf.fieldCount cs : Int) := by omega
    rw [count, Nat.add_comm, List.replicate_add, List.append_assoc] at values
    have self : c = ci ∨ ∀ i, NamedAt jf (lk.classes c).own c i := by
      by_cases same : c = ci
      · exact .inl same
      · exact .inr (named c List.mem_cons_self same)
    obtain ⟨own, fill, kept⟩ := @fillValues_class jf ci c lk fuel [] (jf.counted c) rfl self
      (jf.fieldCount cs) _ _ (by rw [List.length_replicate]; rfl) values (jf.fieldCount cs) index
    generalize after : lk.setClass ci { lk.classes ci with
      own := own
      values := List.replicate (jf.fieldCount cs) ⟨none, 0⟩ ++
        ((jf.place index (jf.counted c)).map Cell.once ++ back) } = lk' at fill
    have own_after : (lk'.classes ci).own = own := by rw [← after, Look.classes_setClass_self]
    have above : ∀ x ∈ cs, x ≠ ci → ∀ i, NamedAt jf (lk'.classes x).own x i := by
      intro x member apart
      rw [← after, Look.classes_setClass_of_ne _ _ apart]
      exact named x (.tail _ member) apart
    have slots : (lk'.classes ci).values = List.replicate (jf.fieldCount cs) ⟨none, 0⟩ ++
        ((jf.place index (jf.counted c)).map Cell.once ++ back) := by
      rw [← after, Look.classes_setClass_self]
    have short : cs.length ≤ fuel + 1 := by
      rw [List.length_cons] at enough
      omega
    obtain ⟨own', rest, kept'⟩ := @ih lk' short above _ slots
      (jf.fieldCount cs - (jf.cinfo s).cfields.toNat) (by omega)
      (index + jf.bodySize (jf.counted c))
    refine ⟨own', ?_, fun i known => ?_⟩
    · have next : fillValues jf (fuel + 1) ci (jf.fieldCount cs) c (jf.cinfo c).cfields.toNat
          (jf.fieldCount cs) (index + jf.bodySize (jf.counted c)) lk' =
          fillValues jf (fuel + 1) ci (jf.fieldCount cs) s 0
            (jf.fieldCount cs - (jf.cinfo s).cfields.toNat)
            (index + jf.bodySize (jf.counted c)) lk' := by
        cases some : jf.fieldCount cs with
        | zero => rw [fillValues, fillValues]
        | succ n =>
          apply fillValues_super found chain
          · omega
          · rw [List.length_cons] at enough
            omega
          · rfl
      simp only [List.length_nil, Nat.zero_add] at fill
      rw [count, fill, length, next, rest, ← after]
      simp only [Look.classes_setClass_self, Look.setClass_setClass, Jdump.layoutOf,
        Jdump.chainSize, List.map_cons, List.sum_cons, List.map_append, List.append_assoc,
        Nat.add_assoc]
    · apply kept'
      left
      rw [own_after]
      apply kept
      exact known.imp id fun same => ⟨same, Nat.zero_le _⟩

end Fill

end Phat
