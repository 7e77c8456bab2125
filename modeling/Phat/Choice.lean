import Phat.Machine

/-! Reading a dump does not depend on the class to look at: every reader does the same
with and without one. -/
namespace Phat

/-- The state with another display option. -/
def Jdump.choose (jf : Jdump) (fclass : Option CString) : Jdump := { jf with fclass := fclass }

section Choose
attribute [local irreducible] readIdent readUintLocal readUshortLocal readUshort readWords
  readIdents readClassHeader readClassLists readUint FILE.getc FILE.fread hideSpecials rawIdent
  Crc32.crc32 Table.lookup32 Table.insert32

variable (jf : Jdump) (fclass : Option CString)

theorem readTag_choose : readTag (jf.choose fclass) =
    (readTag jf).map fun (jf, tag) => (jf.choose fclass, tag) := by
  have same : (jf.choose fclass).fin = jf.fin := rfl
  unfold readTag
  rw [same]
  by_cases ends : EOF = (uchar jf.fin.getc.1).toInt
  · simp only [if_pos ends]
    rfl
  · simp only [if_neg ends]
    split
    · rfl
    · split <;> rfl

theorem readUtf8_choose (rlen : BitVec 32) : readUtf8 (jf.choose fclass) rlen =
    (readUtf8 jf rlen).map (Jdump.choose · fclass) := by
  have same : (jf.choose fclass).identsz = jf.identsz := rfl
  unfold readUtf8
  rw [same]
  by_cases refused : maxCount 1 ≤ (utf8Count jf.identsz rlen).toNat ∨
      (utf8Len jf.identsz rlen).toInt < 0
  · simp only [if_pos refused]
    rfl
  · simp only [if_neg refused]
    rfl

theorem readLoadClass_choose : readLoadClass (jf.choose fclass) =
    (readLoadClass jf).map (Jdump.choose · fclass) := by
  have same : (jf.choose fclass).fin = jf.fin := rfl
  have ident : (jf.choose fclass).identsz = jf.identsz := rfl
  have table : (jf.choose fclass).sbTable = jf.sbTable := rfl
  unfold readLoadClass
  rw [same, ident, table]
  simp only
  split <;> rfl

theorem readFrame_choose : readFrame (jf.choose fclass) =
    (readFrame jf).map (Jdump.choose · fclass) := by
  have same : (jf.choose fclass).fin = jf.fin := rfl
  have ident : (jf.choose fclass).identsz = jf.identsz := rfl
  have table : (jf.choose fclass).scTable = jf.scTable := rfl
  unfold readFrame
  rw [same, ident, table]
  simp only
  split <;> rfl

theorem readPlain_choose (rtype : Byte) (rlen : BitVec 32) :
    readPlain rtype (jf.choose fclass) rlen =
      (readPlain rtype jf rlen).map (Jdump.choose · fclass) := by
  unfold readPlain
  split
  · exact readUtf8_choose jf fclass rlen
  · exact readLoadClass_choose jf fclass
  · exact readFrame_choose jf fclass
  · rfl
  · rfl

theorem readClass_choose (hs : Count) : readClass (jf.choose fclass) hs =
    (readClass jf hs).map fun (jf, hs) => (jf.choose fclass, hs) := by
  have same : (jf.choose fclass).fin = jf.fin := rfl
  have ident : (jf.choose fclass).identsz = jf.identsz := rfl
  have table : (jf.choose fclass).cTable = jf.cTable := rfl
  unfold readClass
  rw [same, ident, table]
  simp only
  split <;> rfl

theorem readInstance_choose (hs : Count) : readInstance (jf.choose fclass) hs =
    (readInstance jf hs).map fun (jf, hs) => (jf.choose fclass, hs) := by
  have same : (jf.choose fclass).fin = jf.fin := rfl
  have ident : (jf.choose fclass).identsz = jf.identsz := rfl
  have table : (jf.choose fclass).cTable = jf.cTable := rfl
  unfold readInstance
  rw [same, ident, table]
  simp only
  split
  · rfl
  · split
    · rename_i stop kept
      split
      · rename_i stop' kept'
        cases kept.symm.trans kept'
        rfl
      · rename_i keep kept'
        cases kept.symm.trans kept'
    · rename_i keep kept
      cases keep
      all_goals
        simp only [Bool.false_eq_true, if_false, if_true]
        split
        · rename_i stop kept'
          cases kept.symm.trans kept'
        · rename_i keep kept'
          cases kept.symm.trans kept'
          rfl

theorem arrayClass_choose (cname : CString) (elemClassId : BitVec 64) :
    arrayClass (jf.choose fclass) cname elemClassId =
      ((arrayClass jf cname elemClassId).1, (arrayClass jf cname elemClassId).2.choose fclass) := by
  have same : (jf.choose fclass).findClass cname = jf.findClass cname := rfl
  unfold arrayClass
  rw [same]
  split <;> rfl

theorem readArray_choose (hs : Count) (prim : Bool) : readArray (jf.choose fclass) hs prim =
    (readArray jf hs prim).map fun (jf, hs) => (jf.choose fclass, hs) := by
  have stored : ∀ jf : Jdump, ∀ cname elemClassId ht raw ide elsz isz,
      storeArray (arrayClass (jf.choose fclass) cname elemClassId).2 ht raw ide
        (arrayClass (jf.choose fclass) cname elemClassId).1 elsz isz =
      (storeArray (arrayClass jf cname elemClassId).2 ht raw ide
        (arrayClass jf cname elemClassId).1 elsz isz).choose fclass := by
    intro jf cname elemClassId ht raw ide elsz isz
    rw [arrayClass_choose]
    rfl
  have same : (jf.choose fclass).fin = jf.fin := rfl
  have ident : (jf.choose fclass).identsz = jf.identsz := rfl
  unfold readArray
  rw [same, ident]
  simp only
  generalize (readUintLocal (readUintLocal (readIdent jf.identsz jf.fin).2).2).2 = f
  generalize (if prim = true then
    ((BitVec.ofInt 64 f.getc.1, f.getc.2), (hs.sub (8 + jf.identsz.width)).sub 1)
    else (readIdent jf.identsz f, (hs.sub (8 + jf.identsz.width)).sub jf.identsz.width)) = element
  split
  · simp only [Except.map]
    exact congrArg (fun jf => Except.ok (jf, _)) (stored { jf with fin := _ } _ _ _ _ _ _ _)
  · split
    · rename_i none
      split
      · rfl
      · rename_i c found
        cases none.symm.trans found
    · rename_i c found
      have found' : jf.cTable.lookup32 (key element.1.1) = some c := found
      simp only [found']
      split
      · rename_i none
        have none' : ({ jf with fin := element.1.2 }.cinfo c).name = Option.none := none
        simp only [none']
        rfl
      · rename_i cname named
        have named' : ({ jf with fin := element.1.2 }.cinfo c).name = some cname := named
        simp only [named']
        split
        · rfl
        · simp only [Except.map]
          exact congrArg (fun jf => Except.ok (jf, _)) (stored { jf with fin := _ } _ _ _ _ _ _ _)

theorem heapCase_choose (rtype : Byte) (hs : Count) (sum : Summary) :
    heapCase rtype (jf.choose fclass) hs sum =
      (heapCase rtype jf hs sum).map fun (jf, rest) => (jf.choose fclass, rest) := by
  unfold heapCase
  split
  · rfl
  · split
    · rw [readClass_choose]
      cases readClass jf hs <;> rfl
    · rw [readInstance_choose]
      cases readInstance jf hs <;> rfl
    · rw [readArray_choose]
      cases readArray jf hs false <;> rfl
    · rw [readArray_choose]
      cases readArray jf hs true <;> rfl
    · rfl

theorem heapPass_choose (hs : Count) (sum : Summary) : heapPass (jf.choose fclass) hs sum =
    (heapPass jf hs sum).map fun (jf, rest) => (jf.choose fclass, rest) :=
  heapCase_choose { jf.note (.sub jf.fin.pos hs.left) with fin := jf.fin.getc.2 } fclass
    (uchar jf.fin.getc.1) (hs.sub 1) sum

end Choose
end Phat
