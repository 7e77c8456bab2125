import Phat.Varrays
import Phat.Framing
import Phat.Changes

/-! The width of the elements of a primitive array. `readArray` has it from the type code;
`resolveInstance` has it from the name of the class, or from its identifier if that is not
above 12. -/
namespace Phat

/-- The type code and the count of the primitive array dump at the position. -/
def Jdump.primDump (jf : Jdump) : BitVec 64 × BitVec 32 :=
  let (_, f) := readIdent jf.identsz jf.fin
  let (_, f) := readUintLocal f
  let (isz, f) := readUintLocal f
  (BitVec.ofInt 64 f.getc.1, isz)

/-- Where the body of that array starts. -/
def Jdump.primBody (jf : Jdump) : Nat :=
  let (_, f) := readIdent jf.identsz jf.fin
  let (_, f) := readUintLocal f
  let (_, f) := readUintLocal f
  f.getc.2.pos

/-- The array as `readArray` stores it, with the position behind its body. -/
structure PrimStored (jf jf' : Jdump) (width : Nat) : Prop where
  next : jf.hobjects.next < jf'.hobjects.next
  htype : (jf'.hobject jf.hobjects.next).htype = .hVarray
  fpos : (jf'.hobject jf.hobjects.next).fpos = jf.primBody
  count : (jf'.hobject jf.hobjects.next).count = jf.primDump.2
  size : (jf'.hobject jf.hobjects.next).size = width
  skipped : jf'.fin.pos = jf.primBody + (BitVec.ofNat 32 width * jf.primDump.2).toNat

/-- The case of the second switch that the array meets: by the letter of its class, which
the type code stands for here, or by the identifier of its class. -/
def switchCase (code classId : BitVec 64) : Option (Nat × Bool) :=
  elementCase (if (12 : Int) < classId.toInt then code else classId)

/-- The second switch has the width too, and there is room for what it reads. -/
def Agrees (code classId : BitVec 64) (width : Nat) (count : BitVec 32) : Prop :=
  (switchCase code classId).map Prod.fst = some width ∧
    ((switchCase code classId).map Prod.snd = some true → count.toNat < maxCount 8)

section Read
variable {jf jf' : Jdump} {hs hs' : Count} {c : ClassRef} {sig : Byte} {width : Nat} {o : ObjRef}

theorem storeArray_stored {ht : HType} {raw ide : BitVec 64} {elsz : Nat} {isz : BitVec 32}
    (stored : jf' = storeArray jf ht raw ide c elsz isz) :
    jf'.hobject jf.hobjects.next = ⟨ht, ide, (jf.cinfo c).ident, jf.fin.pos, isz, elsz⟩ ∧
      jf'.hobjects.next = jf.hobjects.next + 1 ∧
      jf'.fin.pos = jf.fin.pos + (BitVec.ofNat 32 elsz * isz).toNat := by
  subst stored
  refine ⟨?_, rfl, ?_⟩
  all_goals simp [storeArray, Jdump.makeObj, Jdump.modifyObj, Jdump.hobject, Jdump.note,
    Jdump.cinfo, FILE.seekCur]

/-- A class made up for an array leaves the objects alone. -/
theorem arrayClass_hobjects (cname : CString) (elemClassId : BitVec 64) :
    (arrayClass jf cname elemClassId).2.hobjects = jf.hobjects := by
  rw [arrayClass]
  split <;> rfl

theorem readArray_prim (read : readArray jf hs true = .ok (jf', hs'))
    (code : primType jf.primDump.1 = some (sig, width)) : PrimStored jf jf' width := by
  rw [Jdump.primDump] at code
  simp only at code
  rw [readArray] at read
  simp only [if_true, code] at read
  generalize header : { jf with fin := _ } = jf₁ at read
  generalize BitVec.ofInt 64 _ = elemClassId at read
  have next : (arrayClass jf₁ [chr '[', sig] elemClassId).2.hobjects.next = jf.hobjects.next := by
    rw [arrayClass_hobjects, ← header]
  have body : (arrayClass jf₁ [chr '[', sig] elemClassId).2.fin.pos = jf.primBody := by
    rw [(arrayClass_keeps _ _).1, ← header]
    rfl
  obtain ⟨stored, more, pos⟩ := storeArray_stored (congrArg Prod.fst (Except.ok.inj read)).symm
  rw [next] at stored more
  rw [body] at stored pos
  constructor
  · rw [more]
    exact Nat.lt_succ_self _
  · rw [stored]
  · rw [stored]
  · rw [stored, Jdump.primDump]
  · rw [stored]
  · exact pos

/-- Its class is the one of the name, if that is loaded. -/
theorem readArray_classId (read : readArray jf hs true = .ok (jf', hs'))
    (code : primType jf.primDump.1 = some (sig, width))
    (loaded : jf.findClass [chr '[', sig] = some c) :
    (jf'.hobject jf.hobjects.next).classId = (jf.cinfo c).ident := by
  rw [Jdump.primDump] at code
  simp only at code
  have array : ∀ f, arrayClass { jf with fin := f } [chr '[', sig] (BitVec.ofInt 64
      (readUintLocal (readUintLocal (readIdent jf.identsz jf.fin).2).2).2.getc.1) =
        (c, { jf with fin := f }) := fun f => arrayClass_known _ loaded
  rw [readArray] at read
  simp only [if_true, code, array] at read
  cases read
  simp [storeArray, Jdump.makeObj, Jdump.modifyObj, Jdump.hobject, Jdump.note, Jdump.cinfo]

/-- Objects are never assigned to again. -/
theorem Change.hobject (change : Change jf jf') (old : o < jf.hobjects.next) :
    jf'.hobject o = jf.hobject o ∧ o < jf'.hobjects.next := by
  cases change with
  | invent cname elemClassId unknown =>
    rw [arrayClass, unknown]
    exact ⟨rfl, old⟩
  | object ht raw ide cid c init decodes keeps bound =>
    have apart : o ≠ jf.hobjects.next := ne_of_lt old
    constructor
    · change ((jf.hobjects.alloc _).modify jf.hobjects.next init).get o = jf.hobjects.get o
      rw [Store.get_modify_of_ne _ _ apart, Store.get_alloc_of_ne _ _ apart]
    · exact Nat.lt_succ_of_lt old
  | _ => exact ⟨rfl, old⟩

theorem Changes.hobject (changes : Changes jf jf') (old : o < jf.hobjects.next) :
    jf'.hobject o = jf.hobject o ∧ o < jf'.hobjects.next := by
  induction changes with
  | refl => exact ⟨rfl, old⟩
  | tail _ change ih =>
    obtain ⟨same, still⟩ := change.hobject ih.2
    exact ⟨same.trans ih.1, still⟩

end Read

section Switch
variable {jf : Jdump} {o : ObjRef} {c : ClassRef} {code kind : BitVec 64} {sig : Byte}
  {width : Nat} {reads : Bool} {count : BitVec 32} {lk : Look}

/-- The widths of elements. -/
def IsWidth (width : Nat) : Prop := width = 1 ∨ width = 2 ∨ width = 4 ∨ width = 8

/-- The code of the letter of a type stands for the same case as the code of the type. -/
theorem primType_cases (known : primType code = some (sig, width)) :
    IsWidth width ∧ ∃ xclass, xclassFor sig = some xclass ∧ xclass ≠ 0 ∧
      elementCase xclass = elementCase code := by
  have codes : ∀ n < 12, (primType (BitVec.ofNat 64 n)).all (fun entry =>
      [1, 2, 4, 8].contains entry.2 && (xclassFor entry.1).any fun xclass =>
        xclass ≠ 0 ∧ elementCase xclass = elementCase (BitVec.ofNat 64 n)) = true := by
    decide +kernel
  have low : code.toNat < 12 := by
    rw [primType] at known
    split at known
    all_goals first | omega | cases known
  have here := codes code.toNat low
  rw [BitVec.ofNat_toNat, BitVec.setWidth_eq, known, Option.all_some, Bool.and_eq_true,
    Option.any_eq_true] at here
  obtain ⟨isWidth, xclass, letter, alike⟩ := here
  rw [decide_eq_true_eq] at alike
  exact ⟨by simpa [IsWidth] using isWidth, xclass, letter, alike⟩

theorem elementCase_isWidth (case : elementCase kind = some (width, reads)) : IsWidth width := by
  rw [elementCase] at case
  split at case
  all_goals first | (cases case; simp [IsWidth]) | cases case

/-- What the array meets in the second switch. -/
theorem elementCase_kindOf (classOf : jf.classOf o = some c)
    (name : (jf.cinfo c).name = some [chr '[', sig]) (known : primType code = some (sig, width)) :
    elementCase (jf.kindOf o) = switchCase code (jf.hobject o).classId := by
  obtain ⟨_, xclass, letter, some, alike⟩ := primType_cases known
  rw [Jdump.kindOf, Jdump.xclassOf, classOf, switchCase]
  simp only
  by_cases high : (12 : Int) < (jf.hobject o).classId.toInt
  · have own : xclassId (jf.hobject o).classId (jf.cinfo c).name 0 = Option.some xclass := by
      rw [xclassId, if_pos high, name, Option.map_some]
      change Option.some ((xclassFor sig).getD 0) = _
      rw [letter, Option.getD_some]
    rw [own, if_pos high, Option.getD_some, arrayKind, if_pos some, alike]
  · have own : xclassId (jf.hobject o).classId (jf.cinfo c).name 0 = Option.some 0 := by
      rw [xclassId, if_neg high]
    rw [own, if_neg high, Option.getD_some, arrayKind, if_neg (by simp)]

/-- A small number is not met again by doubling it, not even once around. -/
theorem wrapped_ne {k n : Nat} (double : k = 2 ∨ k = 4 ∨ k = 8) (pos : 0 < n) (fits : n < 2 ^ 32) :
    k * n % 2 ^ 32 ≠ n := by
  intro same
  have whole : 2 ^ 32 ∣ (k - 1) * n := by
    refine ⟨k * n / 2 ^ 32, ?_⟩
    have split := Nat.div_add_mod (k * n) (2 ^ 32)
    rw [same] at split
    rw [Nat.sub_mul, Nat.one_mul]
    omega
  -- one less than a power of two is odd
  have coprime : Nat.Coprime (2 ^ 32) (k - 1) := by
    rcases double with rfl | rfl | rfl <;> decide
  exact absurd (Nat.le_of_dvd pos (coprime.dvd_of_dvd_mul_left whole)) (Nat.not_le.mpr fits)

/-- A product that fits is not met by another width. -/
theorem width_of_product {other n : Nat} (isWidth : IsWidth width) (otherWidth : IsWidth other)
    (pos : 0 < n) (fits : width * n < 2 ^ 32) (same : other * n % 2 ^ 32 = width * n) :
    other = width := by
  by_contra apart
  rcases Nat.lt_or_gt_of_ne apart with less | more
  · have small := Nat.mul_lt_mul_of_pos_right less pos
    rw [Nat.mod_eq_of_lt (small.trans fits)] at same
    exact absurd same (ne_of_lt small)
  · obtain ⟨k, double, rfl⟩ : ∃ k, (k = 2 ∨ k = 4 ∨ k = 8) ∧ other = k * width := by
      rcases isWidth with rfl | rfl | rfl | rfl <;>
        rcases otherWidth with rfl | rfl | rfl | rfl <;> simp at more ⊢
    have some : 0 < width := by rcases isWidth with rfl | rfl | rfl | rfl <;> decide
    rw [Nat.mul_assoc] at same
    exact wrapped_ne double (Nat.mul_pos some pos) fits same

theorem varraySize_eq_iff (some : count ≠ 0) (isWidth : IsWidth width)
    (fits : width * count.toNat < 2 ^ 32) :
    (varraySize kind count).toNat = width * count.toNat ↔
      (elementCase kind).map Prod.fst = Option.some width := by
  have pos : 0 < count.toNat := by
    rw [Nat.pos_iff_ne_zero]
    intro none
    exact some (BitVec.eq_of_toNat_eq none)
  rw [varraySize]
  cases case : elementCase kind with
  | none =>
    have size : width * count.toNat ≠ 0 := by
      rcases isWidth with rfl | rfl | rfl | rfl <;> omega
    simpa using Ne.symm size
  | some entry =>
    obtain ⟨other, reads⟩ := entry
    have product : (BitVec.ofNat 32 other * count).toNat = other * count.toNat % 2 ^ 32 := by
      rw [BitVec.toNat_mul, BitVec.toNat_ofNat, Nat.mod_mul_mod]
    have size : ((BitVec.ofNat 32 other * count).setWidth 64).toNat =
        other * count.toNat % 2 ^ 32 := by
      rw [BitVec.toNat_setWidth, product]
      exact Nat.mod_eq_of_lt (by omega)
    simp only [Option.map_some, Option.some.injEq, size]
    have otherWidth := elementCase_isWidth case
    constructor
    · exact width_of_product isWidth otherWidth pos fits
    · rintro rfl
      exact Nat.mod_eq_of_lt fits

/-- The turn of an array with elements goes through unless its elements are read and there
is no room for them. -/
theorem resolveVarray_ok_iff {xclass : BitVec 64} (classOf : jf.classOf o = some c)
    (own : xclassId (jf.hobject o).classId (jf.cinfo c).name 0 = Option.some xclass)
    (fresh : (lk.objects o).xclassId = 0) (some : (jf.hobject o).count ≠ 0) :
    (∃ result, resolveVarray jf lk o c = .ok result) ↔
      ((elementCase (jf.kindOf o)).map Prod.snd = Option.some true →
        (jf.hobject o).count.toNat < maxCount 8) := by
  have kind : jf.kindOf o = arrayKind xclass (jf.hobject o).classId := by
    rw [Jdump.kindOf, Jdump.xclassOf, classOf]
    simp only [own, Option.getD_some]
  rw [resolveVarray]
  simp only [if_neg some, Look.objects_setObj_self, fresh, own, ← kind]
  cases case : elementCase (jf.kindOf o) with
  | none => simp
  | some entry =>
    obtain ⟨width, reads⟩ := entry
    cases reads with
    | false => simp
    | true =>
      by_cases full : maxCount 8 ≤ (jf.hobject o).count.toNat
      · simp only [if_pos full]
        simp [full]
      · simp only [if_neg full]
        simp [Nat.lt_of_not_le full]

/-- The call that enters a primitive array, once its class is laid out. -/
theorem resolveInstance_varray {fuel : Nat} {lk₁ : Look} (varray : (jf.hobject o).htype = .hVarray)
    (classOf : jf.classOf o = some c) (unmarked : (lk.objects o).resolved = false)
    (laid : laidFor jf (fuel + 1) lk o c = .ok lk₁) :
    resolveInstance jf (fuel + 1) lk o = resolveVarray jf lk₁ o c := by
  rw [Jdump.classOf] at classOf
  rw [laidFor] at laid
  rw [resolveInstance]
  simp only [unmarked, Bool.false_eq_true, if_false, classOf] at laid ⊢
  rw [laid, varray]

end Switch

/-- A primitive array whose class is loaded, as it is resolved in a state reached later: its
size is the length of its body exactly if the two switches agree, and the call that enters
it gets as far as that if there is room. -/
theorem array_width_agrees {jf jf₁ jf₂ : Jdump} {hs hs₁ : Count} {c d : ClassRef} {sig : Byte}
    {width : Nat} (read : readArray jf hs true = .ok (jf₁, hs₁))
    (code : primType jf.primDump.1 = some (sig, width))
    (loaded : jf.findClass [chr '[', sig] = some c) (later : Changes jf₁ jf₂)
    (classOf : jf₂.classOf jf.hobjects.next = some d)
    (name : (jf₂.cinfo d).name = some [chr '[', sig]) (some : jf.primDump.2 ≠ 0)
    (fits : width * jf.primDump.2.toNat < 2 ^ 32) :
    let o := jf.hobjects.next
    let ho := jf₂.hobject o
    jf₁.fin.pos = ho.fpos + ho.size * ho.count.toNat ∧
    (∀ fuel lk lk₁, ArraysRead jf₂ lk → (lk.objects o).resolved = false →
      laidFor jf₂ (fuel + 1) lk o d = .ok lk₁ →
      ((∃ lk' a, resolveInstance jf₂ (fuel + 1) lk o = .ok (lk', a) ∧
          (lk'.objects o).osize.toNat = ho.size * ho.count.toNat) ↔
        Agrees jf.primDump.1 (jf.cinfo c).ident width ho.count)) ∧
    ∀ fuel os memory lk, resolveAll jf₂ fuel os (.initial memory) = .ok lk →
      (lk.objects o).resolved = true →
      ((lk.objects o).osize.toNat = ho.size * ho.count.toNat ↔
        (switchCase jf.primDump.1 (jf.cinfo c).ident).map Prod.fst = Option.some width) := by
  intro o ho
  obtain ⟨next, htype, fpos, count, size, skipped⟩ := readArray_prim read code
  have classId := readArray_classId read code loaded
  obtain ⟨isWidth, _⟩ := primType_cases code
  have kept : jf₂.hobject o = jf₁.hobject o := (later.hobject next).1
  have case : elementCase (jf₂.kindOf o) = switchCase jf.primDump.1 (jf.cinfo c).ident := by
    rw [elementCase_kindOf classOf name code, kept, classId]
  have body : ho.size * ho.count.toNat = width * jf.primDump.2.toNat := by
    rw [show ho = jf₁.hobject o from kept, size, count]
  have elements : (jf₂.hobject o).count = jf.primDump.2 := by rw [kept, count]
  have osize : (varraySize (jf₂.kindOf o) (jf₂.hobject o).count).toNat = ho.size * ho.count.toNat ↔
      (switchCase jf.primDump.1 (jf.cinfo c).ident).map Prod.fst = Option.some width := by
    rw [body, elements, ← case]
    exact varraySize_eq_iff some isWidth fits
  have more : (jf₂.hobject o).count ≠ 0 := by rwa [elements]
  refine ⟨?_, fun fuel lk lk₁ arrays unmarked laid => ?_, fun fuel os memory lk run resolved => ?_⟩
  · rw [body, skipped, BitVec.toNat_mul, BitVec.toNat_ofNat, Nat.mod_mul_mod,
      Nat.mod_eq_of_lt fits, show ho = jf₁.hobject o from kept, fpos]
  · have varray : (jf₂.hobject o).htype = .hVarray := by rw [kept, htype]
    have fresh : (lk₁.objects o).xclassId = 0 := by
      rw [(laidFor_frame laid).1]
      simp only [Look.note, Look.objects_setObj_self]
      exact arrays.fresh o varray unmarked
    obtain ⟨xclass, own⟩ := @xclassId_some (jf₂.hobject o).classId 0 (jf₂.cinfo d).name
      (by rw [name]; rfl)
    have goes := resolveVarray_ok_iff classOf own fresh more
    rw [case] at goes
    rw [resolveInstance_varray varray classOf unmarked laid, Agrees, ← osize, ← goes]
    constructor
    · rintro ⟨lk', a, run, same⟩
      rw [← ((resolveVarray_reads classOf fresh run).2.2 more).osize]
      exact ⟨same, _, run⟩
    · rintro ⟨same, ⟨lk', a⟩, run⟩
      rw [← ((resolveVarray_reads classOf fresh run).2.2 more).osize] at same
      exact ⟨lk', a, run, same⟩
  · have varray : (jf₂.hobject o).htype = .hVarray := by rw [kept, htype]
    have read := (resolveAll_arrays (.initial jf₂ memory) run).read o varray resolved more
    rw [read.osize]
    exact osize

/-- The class of `int` arrays is loaded under this identifier, and the dump of such an array
with one element is to be read. -/
def sampleInts (classId : BitVec 64) : Jdump :=
  { Jdump.start [0, 0, 0, 1, 0, 0, 0, 0, 0, 0, 0, 1, 10, 0, 0, 0, 7] .four none with
    cTable := Table.empty.insert32 (key classId) 0
    rcTable := Table.empty.insert32 (Crc32.crc32 [chr '[', chr 'I']) 0
    cinfos := ⟨1, fun _ =>
      ⟨classId, 0, some [chr '[', chr 'I'], 0, 0, 0, 0, 0, 0, 0, [], [], 0⟩⟩ }

/-- What there is once the dump is read and the array resolved. -/
def Jdump.arrayRun (jf : Jdump) : Option (Jdump × Count × Look) := do
  let (jf₁, hs₁) ← (readArray jf ⟨17, false⟩ true).toOption
  let lk ← (resolveAll jf₁ 3 [0] (.initial .zero)).toOption
  some (jf₁, hs₁, lk)

theorem Jdump.arrayRun_some {jf jf₁ : Jdump} {hs₁ : Count} {lk : Look}
    (run : jf.arrayRun = some (jf₁, hs₁, lk)) : readArray jf ⟨17, false⟩ true = .ok (jf₁, hs₁) ∧
      resolveAll jf₁ 3 [0] (.initial .zero) = .ok lk := by
  obtain ⟨⟨jf', hs'⟩, read, rest⟩ := Option.bind_eq_some_iff.mp run
  obtain ⟨lk', resolve, last⟩ := Option.bind_eq_some_iff.mp rest
  cases last
  exact ⟨ok_of_toOption read, ok_of_toOption resolve⟩

theorem array_width_agrees_sampleInts : ∃ jf₁ hs₁ lk,
    readArray (sampleInts 20) ⟨17, false⟩ true = .ok (jf₁, hs₁) ∧
      resolveAll jf₁ 3 [0] (.initial .zero) = .ok lk ∧
      (lk.objects 0).osize.toNat = (jf₁.hobject 0).size * (jf₁.hobject 0).count.toNat := by
  have state : ((sampleInts 20).arrayRun.map fun (jf₁, _, lk) =>
      (jf₁.classOf 0, (jf₁.cinfo 0).name, (lk.objects 0).resolved)) =
        some (some 0, some [chr '[', chr 'I'], true) := by decide +kernel
  obtain ⟨⟨jf₁, hs₁, lk⟩, run, facts⟩ := Option.map_eq_some_iff.mp state
  simp only [Prod.mk.injEq] at facts
  obtain ⟨classOf, name, resolved⟩ := facts
  obtain ⟨read, resolve⟩ := Jdump.arrayRun_some run
  have agree := (@array_width_agrees (sampleInts 20) jf₁ jf₁ _ _ 0 0 (chr 'I') 4 read
    (by decide +kernel) (by decide +kernel) .refl classOf name (by decide +kernel)
    (by decide +kernel)).2.2 3 [0] .zero lk resolve resolved
  exact ⟨jf₁, hs₁, lk, read, resolve, agree.mpr (by decide +kernel)⟩

/-- Under identifier 5 the class is taken for that of `char` arrays. -/
theorem sampleInts_disagrees : ∃ jf₁ hs₁ lk,
    readArray (sampleInts 5) ⟨17, false⟩ true = .ok (jf₁, hs₁) ∧ jf₁.classOf 0 = some 0 ∧
      (jf₁.cinfo 0).name = some [chr '[', chr 'I'] ∧
      resolveAll jf₁ 3 [0] (.initial .zero) = .ok lk ∧ (lk.objects 0).osize = 2 ∧
      (jf₁.hobject 0).size * (jf₁.hobject 0).count.toNat = 4 := by
  have state : ((sampleInts 5).arrayRun.map fun (jf₁, _, lk) =>
      (jf₁.classOf 0, (jf₁.cinfo 0).name, (lk.objects 0).osize,
        (jf₁.hobject 0).size * (jf₁.hobject 0).count.toNat)) =
        some (some 0, some [chr '[', chr 'I'], 2, 4) := by decide +kernel
  obtain ⟨⟨jf₁, hs₁, lk⟩, run, facts⟩ := Option.map_eq_some_iff.mp state
  simp only [Prod.mk.injEq] at facts
  obtain ⟨classOf, name, osize, body⟩ := facts
  obtain ⟨read, resolve⟩ := Jdump.arrayRun_some run
  exact ⟨jf₁, hs₁, lk, read, classOf, name, resolve, osize, body⟩

end Phat
