import Phat.Widths
import Phat.Forward

/-! The elements of `char`, `short`, `int` and `long` arrays. They are read in bulk and read
back on a host with the other byte order, unlike fields, which are put together byte by
byte; how many bytes an element has there is for the second switch to say. -/
namespace Phat

/-- The letters of the types whose elements have more than one byte. -/
def wideSigs : List Byte := [chr 'C', chr 'S', chr 'I', chr 'J']

/-- The bytes of element `i` of an array whose body starts at `body`. -/
def elementAt (bytes : List Byte) (body width i : Nat) : List Byte :=
  (bytes.drop (body + width * i)).take width

/-- A number of `width` bytes on the host: a single one is a `char`, which is signed. -/
def hostInt (width n : Nat) : Int := if width = 1 then (BitVec.ofNat 8 n).toInt else n

/-- `*(b + i)`, `*(c + i)`, `*(pi + i)` or `*(j + i)` in `printInstance`. -/
def hostValue (data : List Byte) (kind : BitVec 64) (i : Nat) : Option Int :=
  match elementCase kind with
  | some (width, true) => (hostElement data width i).map (hostInt width)
  | _ => none

/-- Element `i` of the array as `printInstance` reads it back. -/
def Jdump.readBack (jf : Jdump) (lk : Look) (o : ObjRef) (i : Nat) : Option Int :=
  match (lk.objects o).hvalues with
  | .bytes data => hostValue data (arrayKind (lk.objects o).xclassId (jf.hobject o).classId) i
  | _ => none

/-- Element `i` of `width` bytes is taken with `other` of them, which are in the file and
make the same number the other way around. -/
structure ReadsBack (bytes : List Byte) (body width other i : Nat) : Prop where
  inside : body + other * (i + 1) ≤ bytes.length
  same : hostInt other (BigEndian.number (elementAt bytes body other i).reverse) =
    BigEndian.number (elementAt bytes body width i)

/-- Element `i` reads back under the case that the array to be read meets in the second switch. -/
def Jdump.Meets (jf jf' : Jdump) (width i : Nat) : Prop :=
  ∃ other, elementCase (jf'.kindOf jf.hobjects.next) = some (other, true) ∧
    ReadsBack jf.fin.bytes jf.primBody width other i

section Host
variable {jf : Jdump} {lk lk' : Look} {o : ObjRef} {c : ClassRef} {kind : BitVec 64}
  {bytes : List Byte} {body width other i : Nat} {a : BitVec 64}

theorem length_elementAt_eq (pos : 0 < width) : (elementAt bytes body width i).length = width ↔
    body + width * (i + 1) ≤ bytes.length := by
  rw [elementAt, List.length_take, List.length_drop, Nat.mul_succ]
  omega

/-- With as many bytes as it has, an element reads back if they are the same backwards. -/
theorem readsBack_iff (wide : 1 < width) (inside : body + width * (i + 1) ≤ bytes.length) :
    ReadsBack bytes body width width i ↔
      (elementAt bytes body width i).reverse = elementAt bytes body width i := by
  have unsigned : ∀ n, hostInt width n = n := fun n => if_neg (ne_of_gt wide)
  constructor
  · rintro ⟨_, same⟩
    rw [unsigned, Int.natCast_inj] at same
    exact BigEndian.number_injective List.length_reverse same
  · intro palindrome
    exact ⟨inside, by rw [unsigned, palindrome]⟩

theorem primType_wide {code : BitVec 64} {sig : Byte} (known : primType code = some (sig, width))
    (wide : sig ∈ wideSigs) : 1 < width := by
  rw [primType] at known
  split at known
  all_goals first
    | (cases known; first | decide | exact absurd wide (by decide))
    | cases known

/-- An element of an array that has been read in bulk, under its case of the switch. -/
theorem hostElement_arrayData (pos : 0 < width) (within : i < (jf.hobject o).count.toNat) :
    hostElement (jf.arrayData o width).1 width i =
      if (jf.hobject o).fpos + width * (i + 1) ≤ jf.fin.bytes.length then
        some (BigEndian.number (elementAt jf.fin.bytes (jf.hobject o).fpos width i).reverse)
      else none := by
  have room : width * i + width ≤ width * (jf.hobject o).count.toNat := by
    rw [← Nat.mul_succ]
    exact Nat.mul_le_mul_left width within
  have taken : ((jf.arrayData o width).1.drop (width * i)).take width =
      elementAt jf.fin.bytes (jf.hobject o).fpos width i := by
    change (((jf.fin.bytes.drop (jf.hobject o).fpos).take
      (width * (jf.hobject o).count.toNat)).drop (width * i)).take width = _
    rw [List.drop_take, List.take_take, List.drop_drop, min_eq_left (by omega)]
    rfl
  rw [hostElement, taken]
  simp only [length_elementAt_eq pos]

theorem hostValue_arrayData (within : i < (jf.hobject o).count.toNat)
    (case : elementCase kind = some (other, true)) :
    hostValue (jf.arrayData o other).1 kind i =
        some (BigEndian.number (elementAt jf.fin.bytes (jf.hobject o).fpos width i) : Int) ↔
      ReadsBack jf.fin.bytes (jf.hobject o).fpos width other i := by
  have pos : 0 < other := by
    rcases elementCase_isWidth case with rfl | rfl | rfl | rfl <;> decide
  rw [hostValue, case]
  simp only [hostElement_arrayData pos within]
  split
  · rename_i inside
    rw [Option.map_some, Option.some.injEq]
    exact ⟨fun same => ⟨inside, same⟩, fun back => back.same⟩
  · rename_i outside
    exact iff_of_false (by simp) fun back => outside back.inside

/-- What is read back of an array once its turn is over. -/
theorem readBack_iff (read : ArrayRead jf o (lk.objects o))
    (within : i < (jf.hobject o).count.toNat) :
    jf.readBack lk o i =
        some (BigEndian.number (elementAt jf.fin.bytes (jf.hobject o).fpos width i) : Int) ↔
      ∃ other, elementCase (jf.kindOf o) = some (other, true) ∧
        ReadsBack jf.fin.bytes (jf.hobject o).fpos width other i := by
  have kind : arrayKind (lk.objects o).xclassId (jf.hobject o).classId = jf.kindOf o := by
    rw [Jdump.kindOf, read.xclassId]
  rw [Jdump.readBack, kind]
  by_cases reads : ∃ other, elementCase (jf.kindOf o) = some (other, true)
  · obtain ⟨other, case⟩ := reads
    rw [read.data other case, case]
    simp only [hostValue_arrayData within case, Option.some.injEq, Prod.mk.injEq, and_true,
      exists_eq_left']
  · have none : ∀ data, hostValue data (jf.kindOf o) i = Option.none := by
      intro data
      rw [hostValue]
      split
      · rename_i other case
        exact absurd ⟨other, case⟩ reads
      · rfl
    apply iff_of_false
    · split
      · rw [none]
        simp
      · simp
    · rintro ⟨other, case, _⟩
      exact reads ⟨other, case⟩

/-- Identifiers above 12 are not type codes. -/
theorem elementCase_high {classId : BitVec 64} (high : (12 : Int) < classId.toInt) :
    elementCase classId = none := by
  have value := BitVec.toInt_eq_toNat_cond classId
  rw [elementCase]
  split
  all_goals first | rfl | (split at value <;> omega)

/-- An array that meets a case has what that case goes by. -/
theorem xclassId_of_case (classOf : jf.classOf o = some c)
    (case : elementCase (jf.kindOf o) = some (other, true)) :
    ∃ xclass, xclassId (jf.hobject o).classId (jf.cinfo c).name 0 = some xclass := by
  cases own : xclassId (jf.hobject o).classId (jf.cinfo c).name 0 with
  | some xclass => exact ⟨xclass, rfl⟩
  | none =>
    have high : (12 : Int) < (jf.hobject o).classId.toInt := by
      by_contra low
      rw [xclassId, if_neg low] at own
      cases own
    rw [Jdump.kindOf, Jdump.xclassOf, classOf] at case
    simp only [own, Option.getD_none, arrayKind, ne_eq, not_true, if_false,
      elementCase_high high] at case
    cases case

end Host

/-- The array to be read, whatever is read after it in the same file. A call that enters it
leaves element `i` as the number it is in the dump exactly if there is room for the elements
and this one meets its case, and so does every run that has resolved it. If its class has
the name of the array class the case is that of the element type, or that of an identifier
not above 12; under its own case an element reads back if its bytes are the same backwards. -/
theorem elements_decoded {jf jf₁ jf₂ : Jdump} {hs hs₁ : Count} {sig : Byte} {width i : Nat}
    (read : readArray jf hs true = .ok (jf₁, hs₁))
    (code : primType jf.primDump.1 = some (sig, width)) (wide : sig ∈ wideSigs)
    (later : Changes jf₁ jf₂) (file : jf₂.fin.bytes = jf₁.fin.bytes)
    (within : i < jf.primDump.2.toNat)
    (inside : jf.primBody + width * (i + 1) ≤ jf.fin.bytes.length) :
    let o := jf.hobjects.next
    let element := elementAt jf.fin.bytes jf.primBody width i
    (∀ d fuel lk lk₁, jf₂.classOf o = some d → ArraysRead jf₂ lk →
      (lk.objects o).resolved = false → laidFor jf₂ (fuel + 1) lk o d = .ok lk₁ →
      ((∃ lk' a, resolveInstance jf₂ (fuel + 1) lk o = .ok (lk', a) ∧
          jf₂.readBack lk' o i = some (BigEndian.number element : Int)) ↔
        jf.primDump.2.toNat < maxCount 8 ∧ jf.Meets jf₂ width i)) ∧
    (∀ fuel os memory lk, resolveAll jf₂ fuel os (.initial memory) = .ok lk →
      (lk.objects o).resolved = true →
      (jf₂.readBack lk o i = some (BigEndian.number element : Int) ↔ jf.Meets jf₂ width i)) ∧
    (∀ d, jf₂.classOf o = some d → (jf₂.cinfo d).name = some [chr '[', sig] →
      elementCase (jf₂.kindOf o) = switchCase jf.primDump.1 (jf₂.hobject o).classId) ∧
    (elementCase (jf₂.kindOf o) = some (width, true) →
      (jf.Meets jf₂ width i ↔ element.reverse = element)) := by
  intro o element
  obtain ⟨next, htype, fpos, count, size, skipped⟩ := readArray_prim read code
  have kept : jf₂.hobject o = jf₁.hobject o := (later.hobject next).1
  have varray : (jf₂.hobject o).htype = .hVarray := by rw [kept, htype]
  have start : (jf₂.hobject o).fpos = jf.primBody := by rw [kept, fpos]
  have elements : (jf₂.hobject o).count = jf.primDump.2 := by rw [kept, count]
  have bytes : jf₂.fin.bytes = jf.fin.bytes := file.trans (readArray_forward read).fin.bytes
  have within' : i < (jf₂.hobject o).count.toNat := by rwa [elements]
  have more : (jf₂.hobject o).count ≠ 0 := by
    intro none
    rw [none] at within'
    exact Nat.not_lt_zero _ within'
  have back : ∀ lk, ArrayRead jf₂ o (lk.objects o) →
      (jf₂.readBack lk o i = some (BigEndian.number element : Int) ↔ jf.Meets jf₂ width i) := by
    intro lk done
    have iff := @readBack_iff jf₂ lk o width i done within'
    rw [bytes, start] at iff
    exact iff
  refine ⟨fun d fuel lk lk₁ classOf arrays unmarked laid => ?_,
    fun fuel os memory lk run resolved => ?_, fun d classOf name => ?_, fun case => ?_⟩
  · have fresh : (lk₁.objects o).xclassId = 0 := by
      rw [(laidFor_frame laid).1]
      simp only [Look.note, Look.objects_setObj_self]
      exact arrays.fresh o varray unmarked
    rw [resolveInstance_varray varray classOf unmarked laid, ← elements]
    constructor
    · rintro ⟨lk', a, run, same⟩
      have meets := (back lk' ((resolveVarray_reads classOf fresh run).2.2 more)).mp same
      obtain ⟨other, case, reads⟩ := meets
      obtain ⟨xclass, own⟩ := xclassId_of_case classOf case
      exact ⟨(resolveVarray_ok_iff classOf own fresh more).mp ⟨_, run⟩ (by rw [case]; rfl),
        other, case, reads⟩
    · rintro ⟨room, other, case, reads⟩
      obtain ⟨xclass, own⟩ := xclassId_of_case classOf case
      obtain ⟨⟨lk', a⟩, run⟩ := (resolveVarray_ok_iff classOf own fresh more).mpr fun _ => room
      have done := (resolveVarray_reads classOf fresh run).2.2 more
      exact ⟨lk', a, run, (back lk' done).mpr ⟨other, case, reads⟩⟩
  · exact back lk ((resolveAll_arrays (.initial jf₂ memory) run).read o varray resolved more)
  · exact elementCase_kindOf classOf name code
  · rw [← readsBack_iff (primType_wide code wide) inside]
    constructor
    · rintro ⟨other, case', reads⟩
      rw [case] at case'
      cases case'
      exact reads
    · exact fun reads => ⟨width, case, reads⟩

/-- Two elements of a `short` array whose class is loaded, the second of which is the same
backwards. -/
def sampleShorts : Jdump :=
  { Jdump.start [0, 0, 0, 1, 0, 0, 0, 0, 0, 0, 0, 2, 9, 0, 1, 7, 7] .four none with
    cTable := Table.empty.insert32 (key 20) 0
    rcTable := Table.empty.insert32 (Crc32.crc32 [chr '[', chr 'S']) 0
    cinfos := ⟨1, fun _ => ⟨20, 0, some [chr '[', chr 'S'], 0, 0, 0, 0, 0, 0, 0, [], [], 0⟩⟩ }

theorem elements_decoded_sampleShorts : ∃ jf₁ hs₁ lk,
    readArray sampleShorts ⟨17, false⟩ true = .ok (jf₁, hs₁) ∧
      resolveAll jf₁ 3 [0] (.initial .zero) = .ok lk ∧ jf₁.readBack lk 0 1 = some 0x707 := by
  have state : (sampleShorts.arrayRun.map fun (jf₁, _, lk) =>
      (elementCase (jf₁.kindOf 0), (lk.objects 0).resolved)) = some (some (2, true), true) := by
    decide +kernel
  obtain ⟨⟨jf₁, hs₁, lk⟩, run, facts⟩ := Option.map_eq_some_iff.mp state
  simp only [Prod.mk.injEq] at facts
  obtain ⟨read, resolve⟩ := Jdump.arrayRun_some run
  obtain ⟨_, decoded, _, palindrome⟩ := @elements_decoded sampleShorts jf₁ jf₁ _ _ (chr 'S') 2 1
    read (by decide +kernel) (by decide +kernel) .refl rfl (by decide +kernel) (by decide +kernel)
  exact ⟨jf₁, hs₁, lk, read, resolve, (decoded 3 [0] .zero lk resolve facts.2).mpr
    ((palindrome facts.1).mpr (by decide +kernel))⟩

/-- The first element, 1, is read back as 256. -/
theorem sampleShorts_reversed : ∃ jf₁ hs₁ lk,
    readArray sampleShorts ⟨17, false⟩ true = .ok (jf₁, hs₁) ∧
      resolveAll jf₁ 3 [0] (.initial .zero) = .ok lk ∧ (lk.objects 0).resolved = true ∧
      BigEndian.number (elementAt sampleShorts.fin.bytes sampleShorts.primBody 2 0) = 1 ∧
      jf₁.readBack lk 0 0 = some 256 := by
  have state : (sampleShorts.arrayRun.map fun (jf₁, _, lk) =>
      ((lk.objects 0).resolved, jf₁.readBack lk 0 0)) = some (true, some 256) := by
    decide +kernel
  obtain ⟨⟨jf₁, hs₁, lk⟩, run, facts⟩ := Option.map_eq_some_iff.mp state
  simp only [Prod.mk.injEq] at facts
  obtain ⟨read, resolve⟩ := Jdump.arrayRun_some run
  exact ⟨jf₁, hs₁, lk, read, resolve, facts.1, by decide +kernel, facts.2⟩

end Phat
