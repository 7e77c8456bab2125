import Mathlib.Algebra.Order.BigOperators.Group.List
import Phat.Retained

/-! The size of an instance against the layout of its class. `resolveClassNode` and
`resolveInstance` each have a switch over the types of the same fields; the second has no
case for `F` and `D`, so what it adds up is the laid-out size only where there are no such
fields. -/
namespace Phat

/-- What a field type adds to `size` in `resolveInstance`. -/
def readSize (identsz : IdentSize) (ftype : Byte) : Nat :=
  if ftype = chr 'F' ∨ ftype = chr 'D' then 0 else fieldSize identsz ftype

namespace Jdump

/-- The bytes of the fields of a chain that `resolveInstance` reads. -/
def readableSize (jf : Jdump) (cs : List ClassRef) : Nat :=
  (cs.map fun c => ((jf.counted c).map fun decl => readSize jf.identsz decl.ftype).sum).sum

/-- No class of the chain declares a `float` or a `double`. -/
def FloatFree (jf : Jdump) (cs : List ClassRef) : Prop :=
  ∀ c ∈ cs, ∀ decl ∈ jf.counted c, decl.ftype ≠ chr 'F' ∧ decl.ftype ≠ chr 'D'

end Jdump

/-- `resolveClassNode` leaves this size in the record of a class it has not resolved
before. -/
def Computes (jf : Jdump) (c : ClassRef) (size : BitVec 64) : Prop :=
  ∃ fuel lk lk', Sound jf lk ∧ (lk.classes c).resolved = false ∧
    resolveClassNode jf fuel lk c = .ok lk' ∧ (lk'.classes c).size = size

section Switches
variable {jf : Jdump} {o : ObjRef} {c : ClassRef} {cs : List ClassRef}

theorem readField_size (jf : Jdump) (o : ObjRef) (i : Nat) (ftype : Byte) (pos : Nat) :
    (readField jf o i ftype pos).size = readSize jf.identsz ftype := by
  rw [readSize, fieldSize]
  by_cases floats : ftype = chr 'F' ∨ ftype = chr 'D'
  · rw [if_pos floats]
    rcases floats with rfl | rfl <;> rfl
  · rw [if_neg floats, readField]
    rw [not_or] at floats
    simp only [floats.1, floats.2, false_or, @or_comm (ftype = chr 'L')]
    split_ifs <;> rfl

theorem readSize_le (identsz : IdentSize) (ftype : Byte) :
    readSize identsz ftype ≤ fieldSize identsz ftype := by
  rw [readSize]
  split
  · exact Nat.zero_le _
  · exact le_rfl

/-- The switches differ at the two types. -/
theorem readSize_eq_iff (identsz : IdentSize) (ftype : Byte) :
    readSize identsz ftype = fieldSize identsz ftype ↔ ftype ≠ chr 'F' ∧ ftype ≠ chr 'D' := by
  rw [readSize]
  split
  · rename_i floats
    have some : fieldSize identsz ftype ≠ 0 := by
      rcases floats with rfl | rfl <;> cases identsz <;> decide
    constructor
    · exact fun none => absurd none.symm some
    · rintro ⟨single, double⟩
      exact absurd floats (not_or.mpr ⟨single, double⟩)
  · rename_i others
    exact iff_of_true rfl (not_or.mp others)

theorem fieldSize_le (identsz : IdentSize) (ftype : Byte) : fieldSize identsz ftype ≤ 8 := by
  rw [fieldSize]
  have width : identsz.size ≤ 8 := by cases identsz <;> decide
  split_ifs <;> omega

theorem slotsSize_eq (jf : Jdump) (o : ObjRef) (i : Nat) (fields : List Finfo) :
    jf.slotsSize o i fields =
      BitVec.ofNat 64 (fields.map fun field => readSize jf.identsz field.ftype).sum := by
  induction fields generalizing i with
  | nil => rfl
  | cons field fields ih =>
    rw [Jdump.slotsSize, Jdump.readSlot, readField_size, ih, List.map_cons, List.sum_cons,
      BitVec.ofNat_add]

/-- Sums over the fields do not depend on their order. -/
theorem sum_place (jf : Jdump) (size : Byte → Nat) (offset : Nat) (decls : List FieldDecl) :
    ((jf.place offset decls).map fun field => size field.ftype).sum =
      (decls.map fun decl => size decl.ftype).sum := by
  induction decls generalizing offset with
  | nil => rfl
  | cons decl decls ih =>
    rw [Jdump.place, List.map_cons, List.sum_cons, ih, List.map_cons, List.sum_cons]
    rfl

theorem sum_layoutOf (jf : Jdump) (size : Byte → Nat) (offset : Nat) (cs : List ClassRef) :
    ((jf.layoutOf offset cs).map fun field => size field.ftype).sum =
      (cs.map fun c => ((jf.counted c).map fun decl => size decl.ftype).sum).sum := by
  induction cs generalizing offset with
  | nil => rfl
  | cons c cs ih =>
    rw [Jdump.layoutOf, List.map_append, List.sum_append, ih, sum_place, List.map_cons,
      List.sum_cons, Nat.add_comm]

/-- What `resolveInstance` adds up over the fields of an instance. -/
theorem ownSize_instance (inst : (jf.hobject o).htype = .hInstance) (classOf : jf.classOf o = some c)
    (chain : jf.Chain c cs) : jf.ownSize o = BitVec.ofNat 64 (jf.readableSize cs) := by
  have fields : jf.fieldsOf o = jf.layoutOf 0 cs := by
    rw [Jdump.fieldsOf, classOf]
    exact Jdump.layout_eq chain
  rw [Jdump.ownSize, inst]
  simp only
  rw [fields, slotsSize_eq, sum_layoutOf]
  rfl

/-- One sum bounded by another member for member. -/
theorem sum_map_eq_iff {α : Type} (f g : α → Nat) {as : List α} (le : ∀ a ∈ as, f a ≤ g a) :
    (as.map f).sum = (as.map g).sum ↔ ∀ a ∈ as, f a = g a := by
  induction as with
  | nil => simp
  | cons a as ih =>
    have rest := List.sum_le_sum fun x (member : x ∈ as) => le x (.tail _ member)
    have here := le a List.mem_cons_self
    rw [List.map_cons, List.map_cons, List.sum_cons, List.sum_cons, List.forall_mem_cons,
      ← ih fun x member => le x (.tail _ member)]
    omega

theorem readableSize_le (jf : Jdump) (cs : List ClassRef) :
    jf.readableSize cs ≤ jf.chainSize cs :=
  List.sum_le_sum fun _ _ => List.sum_le_sum fun _ _ => readSize_le _ _

theorem readableSize_eq_iff (jf : Jdump) (cs : List ClassRef) :
    jf.readableSize cs = jf.chainSize cs ↔ jf.FloatFree cs := by
  have bodies : ∀ c ∈ cs, ((jf.counted c).map fun decl => readSize jf.identsz decl.ftype).sum ≤
      jf.bodySize (jf.counted c) :=
    fun c _ => List.sum_le_sum fun _ _ => readSize_le _ _
  rw [Jdump.readableSize, Jdump.chainSize, sum_map_eq_iff _ _ bodies]
  refine forall₂_congr fun c _ => ?_
  rw [Jdump.bodySize, sum_map_eq_iff _ _ fun _ _ => readSize_le _ _]
  exact forall₂_congr fun decl _ => readSize_eq_iff _ _

theorem chainSize_le (jf : Jdump) (cs : List ClassRef) :
    jf.chainSize cs ≤ jf.fieldCount cs * 8 := by
  induction cs with
  | nil => rfl
  | cons c cs ih =>
    have own : jf.bodySize (jf.counted c) ≤ (jf.counted c).length * 8 := by
      have each := List.sum_le_card_nsmul ((jf.counted c).map fun decl =>
        fieldSize jf.identsz decl.ftype) 8 (by simp [fieldSize_le])
      rwa [List.length_map, Nat.nsmul_eq_mul] at each
    simp only [Jdump.chainSize, Jdump.fieldCount, List.map_cons, List.sum_cons] at ih ⊢
    omega

/-- The two sizes of a class that is laid out, as they are stored. -/
theorem ofNat_readableSize_eq_iff (few : jf.fieldCount cs < maxCount 8) :
    BitVec.ofNat 64 (jf.readableSize cs) = BitVec.ofNat 64 (jf.chainSize cs) ↔
      jf.FloatFree cs := by
  have laid := chainSize_le jf cs
  have read := readableSize_le jf cs
  have limit : maxCount 8 * 8 < 2 ^ 64 := by decide
  rw [← readableSize_eq_iff, ← BitVec.toNat_inj, BitVec.toNat_ofNat, BitVec.toNat_ofNat,
    Nat.mod_eq_of_lt (by omega), Nat.mod_eq_of_lt (by omega)]

end Switches

section Layout
variable {jf : Jdump} {c : ClassRef} {cs : List ClassRef} {fuel : Nat} {lk lk' : Look}

theorem resolveSClassSize_fuel (chain : jf.Chain c cs) {n : Int}
    (counted : jf.resolveSClassSize fuel c = .ok n) : cs.length ≤ fuel := by
  induction chain generalizing fuel n with
  | root =>
    cases fuel with
    | zero => cases counted
    | succ => exact Nat.le_add_left _ _
  | super more found _ _ ih =>
    cases fuel with
    | zero => cases counted
    | succ fuel =>
      rw [Jdump.resolveSClassSize, if_neg more, found] at counted
      simp only at counted
      split at counted
      · cases counted
      · rename_i above
        exact Nat.succ_le_succ (ih above)

/-- The sum of all field sizes, those of superclasses included. -/
theorem Computes.eq {size : BitVec 64} (computes : Computes jf c size)
    (zero : jf.cTable.lookup32 0 = none) (chain : jf.Chain c cs) (some : 0 < jf.fieldCount cs) :
    size = BitVec.ofNat 64 (jf.chainSize cs) := by
  obtain ⟨fuel, lk, lk', sound, fresh, run, rfl⟩ := computes
  have enough : cs.length ≤ fuel := by
    cases fuel with
    | zero => cases run
    | succ fuel =>
      cases counted : jf.resolveSClassSize (fuel + 1) c with
      | ok => exact resolveSClassSize_fuel chain counted
      | error =>
        rw [resolveClassNode, if_neg (by rw [fresh]; decide), counted] at run
        cases run
  obtain ⟨allowed, refused⟩ := resolveClassNode_resolves zero sound chain enough
  rcases Nat.lt_or_ge (jf.fieldCount cs) (maxCount 8) with few | many
  · obtain ⟨_, again, done⟩ := allowed few
    obtain rfl : _ = lk' := Except.ok.inj (again.symm.trans run)
    exact done.sized c cs chain.head_mem fresh chain some
  · rw [refused many] at run
    cases run

end Layout

section Account
variable {jf : Jdump} {depth fuel : Nat} {past : Multiset Deed} {lk lk' : Look} {o : ObjRef}
  {c : ClassRef} {cs : List ClassRef}

/-- The size in a class record is the one laid out until an object of the class has been
settled, and that of some such object from then on. -/
structure Resized (jf : Jdump) (lk : Look) (past : Multiset Deed) : Prop where
  laid : ∀ o c, .settle o ∈ past → jf.classOf o = some c → (lk.classes c).resolved = true
  size : ∀ c cs, (lk.classes c).resolved = true → jf.Chain c cs → 0 < jf.fieldCount cs →
    (lk.classes c).size = BitVec.ofNat 64 (jf.chainSize cs) ∧
      (∀ o, .settle o ∈ past → jf.classOf o ≠ some c) ∨
    ∃ o, .settle o ∈ past ∧ jf.classOf o = some c ∧ (lk.classes c).size = jf.ownSize o

theorem putArc_size (lk : Look) (p c : ClassRef) (count size : Int) (x : ClassRef) :
    ((putArc lk p c count size).classes x).size = (lk.classes x).size := by
  rw [putArc]
  refine (Look.setClass_keep ClassLook.size (by rfl) x).trans
    ((Look.setClass_keep ClassLook.size (by rfl) x).trans ?_)
  split <;> rfl

theorem arcAdd_size {dref : ObjRef} {count : Int} (added : arcAdd jf lk o dref count = .ok lk')
    (x : ClassRef) : (lk'.classes x).size = (lk.classes x).size := by
  rw [arcAdd] at added
  split at added
  · split at added
    · cases added
      rfl
    · rw [newArc] at added
      split at added
      · cases added
      · cases added
        exact putArc_size lk _ _ count _ x
  · cases added

/-- The sizes and the resolved classes stay, and nothing is settled. -/
theorem Resized.keep (resized : Resized jf lk past) {deeds : Multiset Deed}
    (resolved : ∀ c, (lk'.classes c).resolved = (lk.classes c).resolved)
    (sizes : ∀ c, (lk'.classes c).size = (lk.classes c).size)
    (none : ∀ o, .settle o ∉ deeds) : Resized jf lk' (past + deeds) := by
  have settled : ∀ o, .settle o ∈ past + deeds ↔ .settle o ∈ past := by
    intro o
    rw [Multiset.mem_add, or_iff_left (none o)]
  constructor
  · intro o c member classOf
    rw [resolved]
    exact resized.laid o c ((settled o).mp member) classOf
  · intro c cs marked chain some
    rw [resolved] at marked
    simp only [sizes, settled]
    exact resized.size c cs marked chain some

theorem Resized.settle (resized : Resized jf lk past) (classOf : jf.classOf o = some c)
    (marked : (lk.classes c).resolved = true) :
    Resized jf (lk.settle o c (jf.ownSize o)) (past + {.settle o}) := by
  have self : ((lk.settle o c (jf.ownSize o)).classes c) =
      { lk.classes c with size := jf.ownSize o } := Look.classes_setClass_self _ _ _
  have other : ∀ x, x ≠ c → (lk.settle o c (jf.ownSize o)).classes x = lk.classes x :=
    fun x apart => Look.classes_setClass_of_ne _ _ apart
  have settled : ∀ d, .settle d ∈ past + {Deed.settle o} ↔ .settle d ∈ past ∨ d = o := by
    intro d
    rw [Multiset.mem_add, Multiset.mem_singleton, Deed.settle.injEq]
  constructor
  · intro d x member belongs
    by_cases here : x = c
    · rw [here, self]
      exact marked
    · rw [other x here]
      rcases (settled d).mp member with before | rfl
      · exact resized.laid d x before belongs
      · rw [classOf] at belongs
        exact absurd (Option.some.inj belongs).symm here
  · intro x xs resolved chain some
    by_cases here : x = c
    · subst here
      refine .inr ⟨o, (settled o).mpr (.inr rfl), classOf, ?_⟩
      rw [self]
    · rw [other x here] at resolved ⊢
      refine (resized.size x xs resolved chain some).imp ?_ ?_
      · rintro ⟨laid, none⟩
        refine ⟨laid, fun d member => ?_⟩
        rcases (settled d).mp member with before | rfl
        · exact none d before
        · rw [classOf]
          exact fun same => here (Option.some.inj same).symm
      · rintro ⟨d, member, belongs, size⟩
        exact ⟨d, (settled d).mpr (.inl member), belongs, size⟩

/-- No object of a class has been settled before the class is resolved. -/
theorem Resized.resolve (resized : Resized jf lk past) (done : Resolves jf lk lk' cs) :
    Resized jf lk' past := by
  constructor
  · intro o c member classOf
    have before := resized.laid o c member classOf
    rw [done.kept c (.inl before)]
    exact before
  · intro c ss resolved chain some
    cases before : (lk.classes c).resolved with
    | true =>
      rw [done.kept c (.inl before)]
      exact resized.size c ss before chain some
    | false =>
      by_cases member : c ∈ cs
      · refine .inl ⟨done.sized c ss member before chain some, fun o settled classOf => ?_⟩
        rw [resized.laid o c settled classOf] at before
        cases before
      · rw [done.kept c (.inr member), before] at resolved
        cases resolved

theorem resized_watched : Watched jf (Resized jf) := by
  constructor
  · intro lk lk' past classes _ _ _ resized
    have kept : Resized jf lk' (past + 0) := by
      apply resized.keep
      · exact fun c => by rw [classes]
      · exact fun c => by rw [classes]
      · exact fun _ => Multiset.notMem_zero _
    rwa [add_zero] at kept
  · intro lk lk' o dref past _ _ added resized
    have quiet := arcAdd_quiet added
    exact resized.keep quiet.resolved (arcAdd_size added) fun d member =>
      Deed.noConfusion (Multiset.mem_singleton.mp member)
  · exact fun lk o c past _ _ classOf marked resized => resized.settle classOf marked
  · exact fun lk lk' c cs fuel past _ _ done resized => resized.resolve done

end Account

/-- An object of the class that is not an array. -/
def Jdump.InstanceOf (jf : Jdump) (o : ObjRef) (c : ClassRef) : Prop :=
  (jf.hobject o).htype = .hInstance ∧ jf.classOf o = some c

theorem Jdump.InstanceOf.settled {jf : Jdump} {o : ObjRef} {c : ClassRef}
    (inst : jf.InstanceOf o c) : .settle o ∈ jf.deeds o := by
  rw [jf.deeds_busy fun empty => empty.1 inst.1, Multiset.mem_add, Multiset.mem_singleton]
  exact .inr rfl

theorem Jdump.mem_settled {jf : Jdump} {o : ObjRef} {objects : Finset ObjRef}
    (member : .settle o ∈ ∑ d ∈ objects, jf.deeds d) : o ∈ objects := by
  obtain ⟨d, listed, here⟩ := Multiset.mem_sum.mp member
  suffices same : o = d by rwa [same]
  rw [deeds, Multiset.mem_add, links, Multiset.mem_coe, List.mem_map] at here
  rcases here with ⟨_, _, link⟩ | settle
  · cases link
  · split at settle
    · cases settle
    · exact Deed.settle.inj (Multiset.mem_singleton.mp settle)

/-- The size of an instance, and the size its class is left with, are the laid-out one
exactly if the class has no field of type `F` or `D`, inherited ones included. -/
theorem instance_size_agrees {jf : Jdump} {depth fuel : Nat} {os : List ObjRef} (memory : Look)
    (resolvable : jf.Resolvable depth) (stored : ∀ o ∈ os, o ∈ jf.stored)
    (enough : jf.stored.toFinset.card + depth < fuel) :
    Outcome (jf.Denied (.initial memory) os) (resolveAll jf fuel os (.initial memory)) fun lk =>
      (∀ o ∈ os, (lk.objects o).resolved = true) ∧
      ∀ c cs laid, jf.Chain c cs → 0 < jf.fieldCount cs → Computes jf c laid →
        (∀ o, (lk.objects o).resolved = true → jf.InstanceOf o c →
          ((lk.objects o).osize = laid ↔ jf.FloatFree cs)) ∧
        ((∃ o, (lk.objects o).resolved = true ∧ jf.InstanceOf o c) →
          (∀ o, (lk.objects o).resolved = true → jf.classOf o = some c → jf.InstanceOf o c) →
          ((lk.classes c).size = laid ↔ jf.FloatFree cs)) := by
  have start : Resized jf (.initial memory) 0 := by
    constructor
    · exact fun o c member => absurd member (Multiset.notMem_zero _)
    · intro c cs resolved
      cases resolved
  refine (resolveAll_account resolvable.region resized_watched enough (.initial jf memory)
    (fun _ => rfl) stored start).imp ?_
  rintro lk ⟨ready, all, own, resized⟩
  refine ⟨all, fun c cs laid chain some computes => ?_⟩
  obtain rfl := computes.eq resolvable.zero chain some
  have settled : ∀ o, (lk.objects o).resolved = true → jf.InstanceOf o c → .settle o ∈
      ∑ d ∈ jf.stored.toFinset with (lk.objects d).resolved = true, jf.deeds d := by
    intro o resolved inst
    refine Multiset.mem_sum.mpr ⟨o, ?_, inst.settled⟩
    rw [Finset.mem_filter, List.mem_toFinset]
    exact ⟨(own o resolved).1, resolved⟩
  have agree : ∀ o, (lk.objects o).resolved = true → jf.InstanceOf o c →
      (jf.ownSize o = BitVec.ofNat 64 (jf.chainSize cs) ↔ jf.FloatFree cs) := by
    intro o resolved inst
    obtain ⟨cs', again, layout, _⟩ :=
      ready.sound c (resized.laid o c (settled o resolved inst) inst.2)
    obtain rfl := again.unique chain
    rw [ownSize_instance inst.1 inst.2 chain]
    exact ofNat_readableSize_eq_iff layout.few
  constructor
  · intro o resolved inst
    rw [(own o resolved).2 fun empty => empty.1 inst.1]
    exact agree o resolved inst
  · rintro ⟨o, resolved, inst⟩ others
    have member := settled o resolved inst
    -- The size is no longer the one laid out, as one object at least has been settled.
    rcases resized.size c cs (resized.laid o c member inst.2) chain some with
      ⟨_, none⟩ | ⟨d, last, classOf, size⟩
    · exact absurd inst.2 (none o member)
    · have listed := Jdump.mem_settled last
      rw [Finset.mem_filter] at listed
      rw [size]
      exact agree d listed.2 (others d listed.2 classOf)

theorem sampleLink_computes : Computes sampleLink 2 9 := by
  have run : ((resolveClassNode sampleLink 3 (.initial .zero) 2).toOption.map fun lk =>
      (lk.classes 2).size) = some 9 := by decide +kernel
  obtain ⟨lk, ok, size⟩ := Option.map_eq_some_iff.mp run
  exact ⟨3, _, lk, (Ready.initial _ _).sound, rfl, ok_of_toOption ok, size⟩

theorem instance_size_agrees_sampleLink :
    Outcome (sampleLink.Denied (.initial .zero) [1, 0, 1])
      (resolveAll sampleLink 6 [1, 0, 1] (.initial .zero)) fun lk =>
      (lk.objects 0).osize = 9 ∧ (lk.objects 1).osize = 9 ∧ (lk.classes 2).size = 9 := by
  have chain := (@sampleChain sampleLink rfl rfl).2.2
  have free : sampleLink.FloatFree [2, 1, 0] := by
    rw [Jdump.FloatFree]
    decide
  have inst : ∀ o, sampleLink.InstanceOf o 2 := fun _ => ⟨rfl, rfl⟩
  refine (@instance_size_agrees sampleLink 3 6 [1, 0, 1] .zero (sampleHeap_resolvable _)
    (by rw [show sampleLink.stored = [0, 1] from sampleHeap_stored _]; decide) (by decide)).imp ?_
  rintro lk ⟨all, agree⟩
  obtain ⟨sizes, last⟩ := agree 2 [2, 1, 0] 9 chain (by decide) sampleLink_computes
  have first := all 0 (by decide)
  exact ⟨(sizes 0 first (inst 0)).mpr free, (sizes 1 (all 1 (by decide)) (inst 1)).mpr free,
    (last ⟨0, first, inst 0⟩ fun o _ _ => inst o).mpr free⟩

/-- Two instances of a class that inherits a field of type `F`. -/
def sampleFloat : Jdump :=
  { sampleHeap [] with
    cinfos := ⟨3, fun c => if c = 1 then { sampleClass 1 with fields := [⟨7, chr 'F'⟩] }
      else sampleClass c⟩ }

/-- The layout has nine bytes, and five are added up. -/
theorem sampleFloat_disagrees : Computes sampleFloat 2 9 ∧
    ∃ lk, resolveAll sampleFloat 6 [0, 1] (.initial .zero) = .ok lk ∧
      (lk.objects 0).osize = 5 ∧ (lk.objects 1).osize = 5 ∧ (lk.classes 2).size = 5 := by
  constructor
  · have run : ((resolveClassNode sampleFloat 3 (.initial .zero) 2).toOption.map fun lk =>
        (lk.classes 2).size) = some 9 := by decide +kernel
    obtain ⟨lk, ok, size⟩ := Option.map_eq_some_iff.mp run
    exact ⟨3, _, lk, (Ready.initial _ _).sound, rfl, ok_of_toOption ok, size⟩
  · have run : ((resolveAll sampleFloat 6 [0, 1] (.initial .zero)).toOption.map fun lk =>
        ((lk.objects 0).osize, (lk.objects 1).osize, (lk.classes 2).size)) = some (5, 5, 5) := by
      decide +kernel
    obtain ⟨lk, ok, sizes⟩ := Option.map_eq_some_iff.mp run
    simp only [Prod.mk.injEq] at sizes
    exact ⟨lk, ok_of_toOption ok, sizes⟩

end Phat
