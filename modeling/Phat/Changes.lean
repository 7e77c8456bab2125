import Phat.Readers

/-! What a step of the machine can do to the tables, said once. Every step is a sequence
of the changes listed here; an invariant of the tables is proved by cases on one change
and then holds in every reachable state. -/
namespace Phat

/-- The readers deliver the lower half of an identifier as it stands in the file, and
all of it with four bytes, and with eight when the upper four are zero. -/
structure Decodes (identsz : IdentSize) (raw ident : BitVec 64) : Prop where
  low : key ident = key raw
  small : raw.toNat < 2 ^ 32 → ident = raw
  four : identsz = .four → raw.toNat < 2 ^ 32

theorem Decodes.refl {identsz : IdentSize} {ident : BitVec 64}
    (four : identsz = .four → ident.toNat < 2 ^ 32) : Decodes identsz ident ident :=
  ⟨rfl, fun _ => rfl, four⟩

theorem readIdent_decodes (identsz : IdentSize) (f : FILE) :
    Decodes identsz (rawIdent identsz f) (readIdent identsz f).1 := by
  by_cases has : f.Has identsz.size
  · have raw : rawIdent identsz f = BitVec.ofNat 64 (BigEndian.number (f.ahead identsz.size)) :=
      if_pos has
    have length := FILE.length_ahead has
    have bound := BigEndian.number_lt (f.ahead identsz.size)
    rw [length] at bound
    rw [raw, readIdent_of_has has]
    cases identsz with
    | four =>
      simp only [IdentSize.size] at bound
      refine .refl fun _ => ?_
      simp only [IdentSize.size, BitVec.toNat_ofNat]
      omega
    | eight =>
      simp only [IdentSize.size] at bound length
      refine ⟨?_, fun small => ?_, fun four => by cases four⟩
      · simp only [key, identOf, IdentSize.size]
        rw [spread_setWidth length, BitVec.setWidth_ofNat_of_le (by decide)]
      · simp only [IdentSize.size, BitVec.toNat_ofNat] at small
        rw [Nat.mod_eq_of_lt (by omega)] at small
        exact spread_of_small length small
  · have raw : rawIdent identsz f = (readIdent identsz f).1 := if_neg has
    rw [raw]
    refine .refl ?_
    rintro rfl
    change (((readUint f).1.getD _).setWidth 64).toNat < _
    rw [BitVec.toNat_setWidth]
    omega

/-- Members of a class record that no reader changes once they are set. -/
def Cinfo.SameName (ci ci' : Cinfo) : Prop :=
  ci'.ident = ci.ident ∧ ci'.nident = ci.nident ∧ ci'.name = ci.name

inductive Change : Jdump → Jdump → Prop where
  | move (jf : Jdump) (f : FILE) : Change jf { jf with fin := f }
  | record (jf : Jdump) (pos : Nat) (tag : Byte) : Change jf (jf.note (.record pos tag))
  | sub (jf : Jdump) (pos : Nat) (left : BitVec 32) : Change jf (jf.note (.sub pos left))
  | roots (jf : Jdump) (roots : Table Root) : Change jf { jf with roots := roots }
  | enter (jf : Jdump) : Change jf (enterHeap jf)
  | fill (jf : Jdump) (c : ClassRef) (ci : Cinfo) : (jf.cinfo c).SameName ci →
      Change jf (jf.modifyClass c fun _ => ci)
  | string (jf : Jdump) (raw ident : BitVec 64) (usb : CString) : Decodes jf.identsz raw ident →
      Change jf ({ jf with sbTable := jf.sbTable.insert32 (key ident) usb }.note (.string raw usb))
  | load (jf : Jdump) (serial : BitVec 32) (raw classId nameId : BitVec 64) (name : CString) :
      Decodes jf.identsz raw classId → jf.sbTable.lookup32 (key nameId) = some name →
      Change jf ({ (jf.mkcinfo classId nameId (some name)).2 with
        cTable := jf.cTable.insert32 (key classId) jf.cinfos.next
        scTable := jf.scTable.insert32 serial jf.cinfos.next
        rcTable := jf.rcTable.insert32 (Crc32.crc32 name) jf.cinfos.next }.note
          (.load raw jf.cinfos.next))
  | invent (jf : Jdump) (cname : CString) (elemClassId : BitVec 64) :
      jf.findClass cname = none → Change jf (arrayClass jf cname elemClassId).2
  | object (jf : Jdump) (ht : HType) (raw ide cid : BitVec 64) (c : ClassRef)
      (init : Hobject → Hobject) : Decodes jf.identsz raw ide →
      (∀ ho, (init ho).instId = ho.instId ∧ (init ho).classId = ho.classId) →
      jf.cTable.lookup32 (key cid) = some c ∨
        (∃ cname, jf.findClass cname = some c ∧ cid = (jf.cinfo c).ident) →
      Change jf ({ (jf.makeObj ht ide cid).2.modifyObj jf.hobjects.next init with
        hTable := jf.hTable.insert32 (key ide) jf.hobjects.next }.note
          (.object raw jf.hobjects.next c))

abbrev Changes : Jdump → Jdump → Prop := Relation.ReflTransGen Change

section Steps
attribute [local irreducible] readIdent readUintLocal readUshortLocal readUshort readPool
  readStatics readFields readWords readIdents readClassHeader

variable {jf jf' : Jdump} {hsize hsize' : Count} {sum sum' : Summary}

theorem readRoot_changes (kind : RootKind) (hsize : Count) : Changes jf (readRoot kind jf hsize).1 := by
  have shape : (readRoot kind jf hsize).1 = { jf with
    fin := (readRoot kind jf hsize).1.fin
    roots := (readRoot kind jf hsize).1.roots } := rfl
  rw [shape]
  exact .tail (.single (.move jf _)) (.roots _ _)

theorem readClass_changes (read : readClass jf hsize = .ok (jf', hsize')) : Changes jf jf' := by
  rw [readClass] at read
  simp only at read
  split at read
  · cases read
  · rename_i c found
    cases read
    refine .tail (.single (.fill jf c _ ?_)) (.move _ _)
    exact ⟨rfl, rfl, rfl⟩

theorem arrayClass_known {cname : CString} {c : ClassRef} (elemClassId : BitVec 64)
    (known : jf.findClass cname = some c) : arrayClass jf cname elemClassId = (c, jf) := by
  rw [arrayClass, known]

theorem arrayClass_changes (cname : CString) (elemClassId : BitVec 64) :
    Changes jf (arrayClass jf cname elemClassId).2 ∧
      (arrayClass jf cname elemClassId).2.findClass cname =
        some (arrayClass jf cname elemClassId).1 := by
  cases known : jf.findClass cname with
  | some c =>
    rw [arrayClass_known elemClassId known]
    exact ⟨.refl, known⟩
  | none =>
    refine ⟨.single (.invent jf cname elemClassId known), ?_⟩
    rw [arrayClass, known]
    exact Table.lookup32_insert32_self _ _ _

/-- The class of an array is the one `findClass` finds by then. -/
theorem storeArray_changes (ht : HType) {raw ide : BitVec 64} {c : ClassRef} (elsz : Nat)
    (isz : BitVec 32) (cname : CString) (known : jf.findClass cname = some c)
    (decodes : Decodes jf.identsz raw ide) :
    Changes jf (storeArray jf ht raw ide c elsz isz) := by
  refine .tail (.single (.object jf ht raw ide (jf.cinfo c).ident c _ decodes ?_
    (.inr ⟨cname, known, rfl⟩))) (.move _ _)
  exact fun _ => ⟨rfl, rfl⟩

theorem Change.identsz (change : Change jf jf') : jf'.identsz = jf.identsz := by
  cases change with
  | invent cname elemClassId unknown =>
    simp only [arrayClass, unknown, Jdump.note, Jdump.mkcinfo]
  | _ => rfl

theorem Changes.identsz (changes : Changes jf jf') : jf'.identsz = jf.identsz := by
  induction changes with
  | refl => rfl
  | tail _ change ih => rw [change.identsz, ih]

theorem Change.fclass (change : Change jf jf') : jf'.fclass = jf.fclass := by
  cases change with
  | invent cname elemClassId unknown =>
    simp only [arrayClass, unknown, Jdump.note, Jdump.mkcinfo]
  | _ => rfl

theorem Changes.fclass (changes : Changes jf jf') : jf'.fclass = jf.fclass := by
  induction changes with
  | refl => rfl
  | tail _ change ih => rw [change.fclass, ih]

theorem arrayStored_changes (prim : Bool) (ht : HType) (cname : CString) (elsz : Nat) :
    Changes jf (jf.arrayStored prim ht cname elsz) := by
  obtain ⟨changes, known⟩ := @arrayClass_changes { jf with fin := (jf.arrayHead prim).2.2 } cname
    (jf.arrayHead prim).1
  refine .head (.move jf _) (changes.trans (storeArray_changes _ _ _ _ known ?_))
  rw [changes.identsz]
  exact readIdent_decodes jf.identsz jf.fin

theorem readArray_changes {prim : Bool} (read : readArray jf hsize prim = .ok (jf', hsize')) :
    Changes jf jf' := by
  cases readArray_cases read with
  | coded => exact arrayStored_changes _ _ _ _
  | named => exact arrayStored_changes _ _ _ _

theorem readInstance_changes (read : readInstance jf hsize = .ok (jf', hsize')) :
    Changes jf jf' := by
  have decodes := readIdent_decodes jf.identsz jf.fin
  rw [readInstance] at read
  simp only at read
  split at read
  · cases read
  · rename_i c found
    have counted := Change.fill { jf with fin := _ } c
      { jf.cinfo c with count := (jf.cinfo c).count + 1 } ⟨rfl, rfl, rfl⟩
    split at read
    · cases read
    · rename_i keep _
      cases read
      refine .head (.move jf _) (.head counted ?_)
      cases keep with
      | true =>
        refine .tail (.single (.object _ .hInstance _ _ _ c _ decodes ?_ (.inl found))) (.move _ _)
        exact fun _ => ⟨rfl, rfl⟩
      | false => exact .single (.move _ _)

theorem heapCase_changes {rtype : Byte}
    (read : heapCase rtype jf hsize sum = .ok (jf', hsize', sum')) : Changes jf jf' := by
  cases heapCase_cases read with
  | root => exact readRoot_changes _ hsize
  | classDump _ inner => exact readClass_changes inner
  | instanceDump _ inner => exact readInstance_changes inner
  | objArray _ inner => exact readArray_changes inner
  | primArray _ inner => exact readArray_changes inner
  | unknown => exact .single (.move _ _)

theorem heapPass_changes (pass : heapPass jf hsize sum = .ok (jf', hsize', sum')) :
    Changes jf jf' :=
  .head (.sub jf _ _) (.head (.move _ _) (heapCase_changes pass))

theorem readUtf8_changes {rlen : BitVec 32} (read : readUtf8 jf rlen = .ok jf') :
    Changes jf jf' := by
  have decodes := readIdent_decodes jf.identsz jf.fin
  rw [readUtf8] at read
  simp only at read
  split at read
  · cases read
  · cases read
    exact .tail (.single (.string jf _ _ _ decodes)) (.move _ _)

theorem readLoadClass_changes (read : readLoadClass jf = .ok jf') : Changes jf jf' := by
  have decodes := readIdent_decodes jf.identsz (readUintLocal jf.fin).2
  rw [readLoadClass] at read
  simp only at read
  split at read
  · cases read
  · rename_i name found
    cases read
    exact .tail (.single (.load jf _ _ _ _ name decodes found)) (.move _ _)

theorem readPlain_changes {rtype : Byte} {rlen : BitVec 32}
    (read : readPlain rtype jf rlen = .ok jf') : Changes jf jf' := by
  rw [readPlain] at read
  split at read
  · exact readUtf8_changes read
  · exact readLoadClass_changes read
  · rw [readFrame] at read
    simp only at read
    split at read
    · cases read
    · cases read
      exact .single (.move _ _)
  · cases read
    exact .single (.move _ _)
  · cases read
    exact .single (.move _ _)

theorem readTag_changes {tag : Option (Byte × BitVec 32)} (read : readTag jf = .ok (jf', tag)) :
    Changes jf jf' := by
  rw [readTag] at read
  simp only at read
  split at read
  · cases read
    exact .single (.move _ _)
  · split at read
    · cases read
    · split at read
      · cases read
      · cases read
        exact .tail (.single (.record jf _ _)) (.move _ _)

/-- Looking moves the file and does nothing else to this half. -/
theorem lookHeap_fin {fuel : Nat} {d d' : Dump} (look : lookHeap fuel d = .ok d') :
    ∃ f, d'.jf = { d.jf with fin := f } := by
  rw [lookHeap] at look
  split at look
  · cases look
    exact ⟨d.jf.fin, rfl⟩
  · simp only at look
    split at look
    · split at look
      · cases look
      · split at look
        · cases look
        · cases look
          exact ⟨_, rfl⟩
    · split at look
      · cases look
        exact ⟨d.jf.fin, rfl⟩
      · split at look
        · cases look
        · cases look
          exact ⟨_, rfl⟩

theorem Step.changes {s t : Machine} (step : Step s t) : Changes s.d.jf t.d.jf := by
  cases step with
  | record tag _ body => exact (readTag_changes tag).trans (readPlain_changes body)
  | heap tag => exact (readTag_changes tag).tail (.enter _)
  | sub _ pass => exact heapPass_changes pass
  | look _ look =>
    obtain ⟨f, same⟩ := lookHeap_fin look
    rw [same]
    exact .single (.move _ _)
  | finish tag => exact readTag_changes tag

theorem Steps.changes {s t : Machine} (steps : Steps s t) : Changes s.d.jf t.d.jf := by
  induction steps with
  | refl => exact .refl
  | tail _ step ih => exact ih.trans step.changes

end Steps

end Phat
