import Phat.Machine

/-! What the readers of sub-records have done when they return, said once: invariants of reading
are proved by cases on it. -/
namespace Phat

/-- The case of the switch of `readHeap` that has been taken. -/
inductive HeapCase (jf : Jdump) (hsize : Count) (sum : Summary) (rtype : Byte) :
    Jdump → Count → Summary → Prop where
  | root {kind : RootKind} : rootKind rtype = some kind →
      HeapCase jf hsize sum rtype (readRoot kind jf hsize).1 (readRoot kind jf hsize).2
        (kind.tally sum)
  | classDump {jf' : Jdump} {hsize' : Count} : rtype.toNat = 0x20 →
      readClass jf hsize = .ok (jf', hsize') →
      HeapCase jf hsize sum rtype jf' hsize' { sum with cclass := sum.cclass + 1 }
  | instanceDump {jf' : Jdump} {hsize' : Count} : rtype.toNat = 0x21 →
      readInstance jf hsize = .ok (jf', hsize') →
      HeapCase jf hsize sum rtype jf' hsize' { sum with inst := sum.inst + 1 }
  | objArray {jf' : Jdump} {hsize' : Count} : rtype.toNat = 0x22 →
      readArray jf hsize false = .ok (jf', hsize') →
      HeapCase jf hsize sum rtype jf' hsize' { sum with oarr := sum.oarr + 1 }
  | primArray {jf' : Jdump} {hsize' : Count} : rtype.toNat = 0x23 →
      readArray jf hsize true = .ok (jf', hsize') →
      HeapCase jf hsize sum rtype jf' hsize' { sum with parr := sum.parr + 1 }
  | unknown : rootKind rtype = none → rtype.toNat ∉ [0x20, 0x21, 0x22, 0x23] →
      HeapCase jf hsize sum rtype { jf with fin := jf.fin.seekCur hsize.left.toNat }
        { hsize with left := 0 } sum

/-- What stands in an array before its elements: the identifier or type code of the class, the
number of elements, and the position behind it. -/
def Jdump.arrayHead (jf : Jdump) (prim : Bool) : BitVec 64 × BitVec 32 × FILE :=
  let (_, f) := readIdent jf.identsz jf.fin
  let (_, f) := readUintLocal f
  let (isz, f) := readUintLocal f
  if prim then (BitVec.ofInt 64 f.getc.1, isz, f.getc.2)
  else ((readIdent jf.identsz f).1, isz, (readIdent jf.identsz f).2)

/-- The array stored as one of the class with this name. -/
def Jdump.arrayStored (jf : Jdump) (prim : Bool) (ht : HType) (cname : CString) (elsz : Nat) :
    Jdump :=
  let (elemClassId, isz, f) := jf.arrayHead prim
  let (c, jf') := arrayClass { jf with fin := f } cname elemClassId
  storeArray jf' ht (rawIdent jf.identsz jf.fin) (readIdent jf.identsz jf.fin).1 c elsz isz

/-- Where `readArray` has the name of the class from. -/
inductive ArrayCase (jf : Jdump) (prim : Bool) : Jdump → Prop where
  | coded {sig : Byte} {elsz : Nat} : prim = true →
      primType (jf.arrayHead prim).1 = some (sig, elsz) →
      ArrayCase jf prim (jf.arrayStored prim .hVarray [chr '[', sig] elsz)
  | named {c : ClassRef} {cname : CString} :
      (prim = true → primType (jf.arrayHead prim).1 = none) →
      jf.cTable.lookup32 (key (jf.arrayHead prim).1) = some c →
      (jf.cinfo c).name = some cname → 2 + cname.length < maxCount 1 →
      ArrayCase jf prim (jf.arrayStored prim .hOarray cname jf.identsz.size)

variable {jf jf' : Jdump} {hsize hsize' : Count} {sum sum' : Summary}

theorem map_ok {α β : Type} {x : Except Stop α} {f : α → β} {b : β} (mapped : x.map f = .ok b) :
    ∃ a, x = .ok a ∧ f a = b := by
  cases x with
  | error stop => cases mapped
  | ok a =>
    cases mapped
    exact ⟨a, rfl, rfl⟩

theorem map_error {α β : Type} {x : Except Stop α} {f : α → β} {stop : Stop}
    (mapped : x.map f = .error stop) : x = .error stop := by
  cases x with
  | error stop' =>
    cases mapped
    rfl
  | ok a => cases mapped

theorem heapCase_cases {rtype : Byte}
    (read : heapCase rtype jf hsize sum = .ok (jf', hsize', sum')) :
    HeapCase jf hsize sum rtype jf' hsize' sum' := by
  rw [heapCase] at read
  split at read
  · rename_i kind root
    cases read
    exact .root root
  · rename_i none
    split at read
    · rename_i tag
      obtain ⟨⟨jf₁, hsize₁⟩, inner, same⟩ := map_ok read
      cases same
      exact .classDump tag inner
    · rename_i tag
      obtain ⟨⟨jf₁, hsize₁⟩, inner, same⟩ := map_ok read
      cases same
      exact .instanceDump tag inner
    · rename_i tag
      obtain ⟨⟨jf₁, hsize₁⟩, inner, same⟩ := map_ok read
      cases same
      exact .objArray tag inner
    · rename_i tag
      obtain ⟨⟨jf₁, hsize₁⟩, inner, same⟩ := map_ok read
      cases same
      exact .primArray tag inner
    · rename_i notClass notInstance notObj notPrim
      cases read
      refine .unknown none fun member => ?_
      simp only [List.mem_cons, List.not_mem_nil, or_false] at member
      rcases member with tag | tag | tag | tag
      · exact notClass tag
      · exact notInstance tag
      · exact notObj tag
      · exact notPrim tag

section Arrays
attribute [local irreducible] readIdent readUintLocal arrayClass

theorem readArray_cases {prim : Bool} (read : readArray jf hsize prim = .ok (jf', hsize')) :
    ArrayCase jf prim jf' := by
  rw [readArray] at read
  simp only at read
  cases prim with
  | true =>
    simp only [if_true] at read
    split at read
    · rename_i sig elsz code
      cases read
      exact .coded rfl code
    · rename_i code
      split at read
      · cases read
      · rename_i c found
        split at read
        · cases read
        · rename_i cname name
          split at read
          · cases read
          · rename_i room
            cases read
            exact .named (fun _ => code) found name (Nat.lt_of_not_le room)
  | false =>
    simp only [Bool.false_eq_true, if_false] at read
    split at read
    · cases read
    · rename_i c found
      split at read
      · cases read
      · rename_i cname name
        split at read
        · cases read
        · rename_i room
          cases read
          exact .named (fun prim => by cases prim) found name (Nat.lt_of_not_le room)

end Arrays

end Phat
