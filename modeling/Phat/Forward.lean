import Phat.Framing

/-! Reading only moves forward: whatever the bytes are, no reader goes back, and a pass of
the record loop notes the position it starts at. -/
namespace Phat

def Event.asRecord : Event → Option Nat
  | .record pos _ => some pos
  | _ => none

/-- The positions at which passes of the record loop have started, the last first. -/
def recordStarts (log : List Event) : List Nat := log.filterMap Event.asRecord

/-- The same file, not further back. -/
structure Onward (f f' : FILE) : Prop where
  bytes : f'.bytes = f.bytes
  pos : f.pos ≤ f'.pos

/-- A part of a heap segment: no pass of the record loop starts in it. -/
structure Forward (jf jf' : Jdump) : Prop where
  fin : Onward jf.fin jf'.fin
  records : recordStarts jf'.log = recordStarts jf.log

section Files
variable {f f' f'' : FILE} {fVersion : Nat} {identsz : IdentSize} {hs : Count} {n : Nat}

theorem Onward.refl (f : FILE) : Onward f f := ⟨rfl, le_rfl⟩

theorem Onward.trans (first : Onward f f') (second : Onward f' f'') : Onward f f'' :=
  ⟨second.bytes.trans first.bytes, first.pos.trans second.pos⟩

theorem Onward.past (n reads : Nat) : Onward f { f with pos := f.past n, reads := reads } := by
  refine ⟨rfl, ?_⟩
  simp only [FILE.past]
  split
  · exact Nat.le_add_right _ _
  · exact le_max_left _ _

theorem getc_onward (f : FILE) : Onward f f.getc.2 := by
  rw [getc_file]
  exact .past 1 f.reads

theorem fread_onward (f : FILE) (n : Nat) : Onward f (f.fread n).2 := ⟨rfl, Nat.le_add_right _ _⟩

theorem seekCur_onward (f : FILE) (n : Nat) : Onward f (f.seekCur n) := ⟨rfl, Nat.le_add_right _ _⟩

theorem readIdent_onward (identsz : IdentSize) (f : FILE) : Onward f (readIdent identsz f).2 := by
  rw [readIdent_file]
  exact .past _ _

theorem readUint_onward (f : FILE) : Onward f (readUint f).2 := by
  rw [readUint_file]
  exact .past 4 f.reads

theorem readUintLocal_onward (f : FILE) : Onward f (readUintLocal f).2 := by
  rw [readUintLocal_file]
  exact .past _ _

theorem readUshort_onward (f : FILE) : Onward f (readUshort f).2 := by
  rw [readUshort_file]
  exact .past 2 f.reads

theorem readUshortLocal_onward (f : FILE) : Onward f (readUshortLocal f).2 := by
  rw [readUshortLocal_file]
  exact .past _ _

theorem readUlong_onward (f : FILE) : Onward f (readUlong f).2.used := by
  rw [readUlong_file]
  exact .past 8 (f.reads + 1)

theorem readTyped_onward (sig : Byte) : Onward f (readTyped identsz sig f).2 := by
  unfold readTyped
  split_ifs
  · exact readIdent_onward identsz f
  · exact getc_onward f
  · exact getc_onward f
  · exact readUshortLocal_onward f
  · exact readUintLocal_onward f
  · exact readUlong_onward f
  · exact seekCur_onward f 4
  · exact seekCur_onward f 8
  · exact .refl f

theorem readValue_onward (f : FILE) : Onward f (readValue fVersion identsz f).2 :=
  (getc_onward f).trans (readTyped_onward _)

theorem readPool_onward : Onward f (readPool fVersion identsz n f hs).1 := by
  induction n generalizing f hs with
  | zero => exact .refl f
  | succ n ih => exact ((readUshortLocal_onward f).trans (readValue_onward _)).trans ih

theorem readStatics_onward : Onward f (readStatics fVersion identsz n f hs).2.1 := by
  induction n generalizing f hs with
  | zero => exact .refl f
  | succ n ih => exact ((readIdent_onward identsz f).trans (readValue_onward _)).trans ih

theorem readFields_onward : Onward f (readFields fVersion identsz n f hs).2.1 := by
  induction n generalizing f hs with
  | zero => exact .refl f
  | succ n ih => exact ((readIdent_onward identsz f).trans (getc_onward _)).trans ih

theorem readIdents_onward : Onward f (readIdents identsz n f) := by
  induction n generalizing f with
  | zero => exact .refl f
  | succ n ih => exact (readIdent_onward identsz f).trans ih

theorem readWords_onward : Onward f (readWords n f) := by
  induction n generalizing f with
  | zero => exact .refl f
  | succ n ih => exact (readUintLocal_onward f).trans ih

theorem readClassHeader_onward : Onward f (readClassHeader identsz f).2 := by
  rw [readClassHeader_file]
  exact ((readUintLocal_onward f).trans readIdents_onward).trans (readUintLocal_onward _)

end Files

section Lists
attribute [local irreducible] readUshort readUshortLocal readPool readStatics readFields

theorem readClassLists_onward {f : FILE} {fVersion : Nat} {identsz : IdentSize} {hs : Count}
    (ci : Cinfo) : Onward f (readClassLists fVersion identsz ci f hs).2.1 := by
  rw [readClassLists_tail]
  exact (((readUshortLocal_onward f).trans readPool_onward).trans
    ((readUshort_onward _).trans readStatics_onward)).trans
      ((readUshort_onward _).trans readFields_onward)

end Lists

section Segment
attribute [local irreducible] readIdent readUintLocal readClassHeader readClassLists readWords
  readIdents

variable {jf jf' jf'' : Jdump} {hs hs' : Count} {sum sum' : Summary}

theorem Forward.refl (jf : Jdump) : Forward jf jf := ⟨.refl _, rfl⟩

theorem Forward.trans (first : Forward jf jf') (second : Forward jf' jf'') : Forward jf jf'' :=
  ⟨first.fin.trans second.fin, second.records.trans first.records⟩

theorem readRoot_forward (kind : RootKind) (hs : Count) : Forward jf (readRoot kind jf hs).1 := by
  constructor
  · exact ((readIdent_onward _ _).trans readIdents_onward).trans readWords_onward
  · rfl

theorem readClass_forward (read : readClass jf hs = .ok (jf', hs')) : Forward jf jf' := by
  rw [readClass] at read
  simp only at read
  split at read
  · cases read
  · cases read
    constructor
    · exact ((readIdent_onward _ _).trans readClassHeader_onward).trans (readClassLists_onward _)
    · rfl

theorem readInstance_forward (read : readInstance jf hs = .ok (jf', hs')) : Forward jf jf' := by
  rw [readInstance] at read
  simp only at read
  split at read
  · cases read
  · split at read
    · cases read
    · rename_i keep _
      cases read
      have header := (((readIdent_onward jf.identsz jf.fin).trans (readUintLocal_onward _)).trans
        (readIdent_onward jf.identsz _)).trans (readUintLocal_onward _)
      cases keep with
      | true => exact ⟨header.trans (seekCur_onward _ _), rfl⟩
      | false => exact ⟨header.trans (seekCur_onward _ _), rfl⟩

theorem arrayClass_forward (cname : CString) (elemClassId : BitVec 64) :
    Forward jf (arrayClass jf cname elemClassId).2 := by
  cases known : jf.findClass cname with
  | some c =>
    rw [arrayClass_known elemClassId known]
    exact .refl jf
  | none =>
    rw [arrayClass, known]
    exact ⟨.refl _, rfl⟩

theorem storeArray_forward (ht : HType) (raw ide : BitVec 64) (c : ClassRef) (elsz : Nat)
    (isz : BitVec 32) : Forward jf (storeArray jf ht raw ide c elsz isz) :=
  ⟨seekCur_onward _ _, rfl⟩

theorem arrayHead_onward (jf : Jdump) (prim : Bool) : Onward jf.fin (jf.arrayHead prim).2.2 := by
  have header := ((readIdent_onward jf.identsz jf.fin).trans (readUintLocal_onward _)).trans
    (readUintLocal_onward _)
  cases prim with
  | true => exact header.trans (getc_onward _)
  | false => exact header.trans (readIdent_onward _ _)

theorem arrayStored_forward (prim : Bool) (ht : HType) (cname : CString) (elsz : Nat) :
    Forward jf (jf.arrayStored prim ht cname elsz) := by
  have moved : Forward jf { jf with fin := (jf.arrayHead prim).2.2 } :=
    ⟨arrayHead_onward jf prim, rfl⟩
  exact (moved.trans (arrayClass_forward _ _)).trans (storeArray_forward _ _ _ _ _ _)

theorem readArray_forward {prim : Bool} (read : readArray jf hs prim = .ok (jf', hs')) :
    Forward jf jf' := by
  cases readArray_cases read with
  | coded => exact arrayStored_forward _ _ _ _
  | named => exact arrayStored_forward _ _ _ _

theorem heapCase_forward {rtype : Byte}
    (read : heapCase rtype jf hs sum = .ok (jf', hs', sum')) : Forward jf jf' := by
  cases heapCase_cases read with
  | root => exact readRoot_forward _ hs
  | classDump _ inner => exact readClass_forward inner
  | instanceDump _ inner => exact readInstance_forward inner
  | objArray _ inner => exact readArray_forward inner
  | primArray _ inner => exact readArray_forward inner
  | unknown => exact ⟨seekCur_onward _ _, rfl⟩

/-- A pass over a byte of the file gets past it. -/
theorem heapPass_forward (pass : heapPass jf hs sum = .ok (jf', hs', sum')) :
    Forward jf jf' ∧ (jf.fin.Has 1 → jf.fin.pos < jf'.fin.pos) := by
  have later := heapCase_forward pass
  refine ⟨⟨(getc_onward jf.fin).trans later.fin, later.records⟩, fun has => ?_⟩
  have start : jf.fin.getc.2.pos ≤ jf'.fin.pos := later.fin.pos
  have moved : jf.fin.getc.2.pos = jf.fin.pos + 1 := by
    rw [getc_file, FILE.past_of_has has]
  rw [moved] at start
  exact start

theorem heapLoop_forward {fuel : Nat}
    (run : heapLoop fuel jf hs sum = .ok (jf', hs', sum')) : Forward jf jf' := by
  induction fuel generalizing jf hs sum with
  | zero =>
    by_cases empty : hs.left = 0
    · rw [heapLoop_zero _ _ _ empty] at run
      cases run
      exact .refl _
    · rw [heapLoop_fuel _ _ empty] at run
      cases run
  | succ fuel ih =>
    by_cases empty : hs.left = 0
    · rw [heapLoop_zero _ _ _ empty] at run
      cases run
      exact .refl _
    · cases pass : heapPass jf hs sum with
      | error stop =>
        rw [heapLoop_error _ empty pass] at run
        cases run
      | ok result =>
        obtain ⟨jf₁, hs₁, sum₁⟩ := result
        rw [heapLoop_ok _ empty pass] at run
        exact (heapPass_forward pass).1.trans (ih run)

end Segment

section Records
attribute [local irreducible] readIdent readUintLocal readUint readIdents readWords

variable {jf jf' : Jdump}

theorem readPlain_forward {rtype : Byte} {rlen : BitVec 32}
    (read : readPlain rtype jf rlen = .ok jf') : Forward jf jf' := by
  rw [readPlain] at read
  split at read
  · rw [readUtf8] at read
    simp only at read
    split at read
    · cases read
    · cases read
      exact ⟨(readIdent_onward _ _).trans (fread_onward _ _), rfl⟩
  · rw [readLoadClass] at read
    simp only at read
    split at read
    · cases read
    · cases read
      exact ⟨(((readUintLocal_onward _).trans (readIdent_onward _ _)).trans
        (readUintLocal_onward _)).trans (readIdent_onward _ _), rfl⟩
  · rw [readFrame] at read
    simp only at read
    split at read
    · cases read
    · cases read
      exact ⟨(readIdents_onward.trans (readUintLocal_onward _)).trans (readUintLocal_onward _), rfl⟩
  · cases read
    exact ⟨(readWords_onward.trans (readUintLocal_onward _)).trans readIdents_onward, rfl⟩
  · cases read
    exact ⟨seekCur_onward _ _, rfl⟩

/-- A pass of the record loop notes where it starts. -/
theorem readTag_forward {tag : Option (Byte × BitVec 32)} (read : readTag jf = .ok (jf', tag)) :
    Onward jf.fin jf'.fin ∧
      ∃ new, recordStarts jf'.log = new ++ recordStarts jf.log ∧ ∀ pos ∈ new, pos = jf.fin.pos := by
  rw [readTag] at read
  simp only at read
  split at read
  · cases read
    refine ⟨getc_onward _, [], rfl, ?_⟩
    intro pos member
    cases member
  · split at read
    · cases read
    · rename_i f first
      split at read
      · cases read
      · rename_i f' second
        cases read
        have one := readUint_onward jf.fin.getc.2
        rw [first] at one
        have two := readUint_onward f
        rw [second] at two
        refine ⟨((getc_onward _).trans one).trans two, [jf.fin.pos], rfl, ?_⟩
        intro pos member
        exact List.mem_singleton.mp member

/-- Passes start where the loop has got to, or further on. -/
theorem dumpLoop_forward {fuel : Nat} {d d' : Dump} (run : dumpLoop fuel d = .ok d')
    (plain : d.jf.fclass = none) : ∃ new, recordStarts d'.jf.log = new ++ recordStarts d.jf.log ∧
      ∀ pos ∈ new, d.jf.fin.pos ≤ pos := by
  induction fuel generalizing d with
  | zero =>
    rw [dumpLoop] at run
    split at run
    · cases run
    · rename_i jf tag
      cases run
      obtain ⟨_, new, starts, here⟩ := readTag_forward tag
      exact ⟨new, starts, fun pos member => (here pos member).ge⟩
    · cases run
  | succ fuel ih =>
    rw [dumpLoop] at run
    split at run
    · cases run
    · rename_i jf tag
      cases run
      obtain ⟨_, new, starts, here⟩ := readTag_forward tag
      exact ⟨new, starts, fun pos member => (here pos member).ge⟩
    · rename_i jf rtype rlen tag
      obtain ⟨onward, new, starts, here⟩ := readTag_forward tag
      have unseen : jf.fclass = none := by
        rw [(readTag_changes tag).fclass]
        exact plain
      -- what a later pass adds to what this one has noted
      have add : ∀ jf₁, Forward jf jf₁ → ∀ later, recordStarts d'.jf.log =
          later ++ recordStarts jf₁.log → (∀ pos ∈ later, jf₁.fin.pos ≤ pos) →
          ∃ new, recordStarts d'.jf.log = new ++ recordStarts d.jf.log ∧
            ∀ pos ∈ new, d.jf.fin.pos ≤ pos := by
        intro jf₁ forward later all further
        refine ⟨later ++ new, ?_, ?_⟩
        · rw [all, forward.records, starts, List.append_assoc]
        · intro pos member
          rcases List.mem_append.mp member with member | member
          · exact (onward.pos.trans forward.fin.pos).trans (further pos member)
          · exact (here pos member).ge
      simp only at run
      split at run
      · split at run
        · cases run
        · rename_i d₁ whole
          rw [readHeap] at whole
          split at whole
          · cases whole
          · rename_i jf₁ hs₁ sum₁ segment
            have unseen₁ : jf₁.fclass = none := by
              obtain ⟨steps, _⟩ := heapLoop_steps (d := { d with jf := enterHeap jf }) segment
              rw [steps.changes.fclass]
              exact unseen
            simp only [lookHeap, unseen₁, Except.ok.injEq] at whole
            subst whole
            obtain ⟨later, all, further⟩ := ih run unseen₁
            refine add jf₁ ?_ later all further
            have inside := heapLoop_forward segment
            exact ⟨inside.fin, inside.records⟩
      · split at run
        · cases run
        · rename_i jf₁ body
          have unseen₁ : jf₁.fclass = none := by
            rw [(readPlain_changes body).fclass]
            exact unseen
          obtain ⟨later, all, further⟩ := ih run unseen₁
          exact add jf₁ (readPlain_forward body) later all further

end Records

end Phat
