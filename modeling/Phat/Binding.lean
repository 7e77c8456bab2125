import Phat.Changes

/-! Classes and objects agree. In every reachable state of a dump with four-byte
identifiers each class of `cTable` stands under the key of its own identifier, and each
object of `hTable` leads back to the class it was made for, as long as `readArray` has
invented no class. Inventing one breaks this at once. -/
namespace Phat

def Event.loaded : Event → Option (BitVec 64)
  | .load raw _ => some raw
  | _ => none

/-- The identifiers of the `HPROF_LOAD_CLASS` records so far. -/
def loads (log : List Event) : List (BitVec 64) := log.filterMap Event.loaded

def NoneInvented (log : List Event) : Prop :=
  ∀ c nameId fakeId, .invent c nameId fakeId ∉ log

namespace Jdump

/-- `makeObj` was given the identifier of class `c` for `o`. -/
def MadeFor (jf : Jdump) (o : ObjRef) (c : ClassRef) : Prop := ∃ raw, .object raw o c ∈ jf.log

/-- The class binding of a state. -/
structure ClassBound (jf : Jdump) : Prop where
  classes : ∀ k c, jf.cTable.lookup32 k = some c → k = key (jf.cinfo c).ident
  objects : ∀ k o, jf.hTable.lookup32 k = some o → ∃ c, jf.MadeFor o c ∧
    jf.cTable.lookup32 (key (jf.hobject o).classId) = some c
  unique : ∀ k o c, jf.hTable.lookup32 k = some o → jf.MadeFor o c →
    jf.cTable.lookup32 (key (jf.hobject o).classId) = some c

/-- The invariant: the name table leads to classes of `cTable` as well, and everything
logged is allocated. -/
structure Binding (jf : Jdump) : Prop where
  loaded : ∀ raw ∈ loads jf.log, raw.toNat < 2 ^ 32
  classes : ∀ k c, jf.cTable.lookup32 k = some c →
    k = key (jf.cinfo c).ident ∧ c < jf.cinfos.next ∧ (jf.cinfo c).ident ∈ loads jf.log
  names : ∀ k c, jf.rcTable.lookup32 k = some c →
    jf.cTable.lookup32 (key (jf.cinfo c).ident) = some c
  stored : ∀ k o, jf.hTable.lookup32 k = some o → ∃ c, jf.MadeFor o c
  made : ∀ raw o c, .object raw o c ∈ jf.log → o < jf.hobjects.next ∧
    jf.cTable.lookup32 (key (jf.hobject o).classId) = some c

end Jdump

variable {jf jf' : Jdump}

theorem key_injective {a b : BitVec 64} (small : a.toNat < 2 ^ 32) (small' : b.toNat < 2 ^ 32)
    (same : key a = key b) : a = b := by
  have value := congrArg BitVec.toNat same
  simp only [key, BitVec.toNat_setWidth] at value
  apply BitVec.eq_of_toNat_eq
  omega

theorem Change.log (change : Change jf jf') : ∃ events, jf'.log = events ++ jf.log := by
  cases change with
  | record pos tag => exact ⟨[_], rfl⟩
  | sub pos left => exact ⟨[_], rfl⟩
  | string raw ident usb _ => exact ⟨[_], rfl⟩
  | load serial raw classId nameId name _ _ => exact ⟨[_], rfl⟩
  | invent cname elemClassId unknown =>
    rw [arrayClass, unknown]
    exact ⟨[_], rfl⟩
  | object ht raw ide cid c init _ _ _ => exact ⟨[_], rfl⟩
  | _ => exact ⟨[], rfl⟩

theorem Jdump.Opened.binding (opened : jf.Opened) : jf.Binding := by
  refine ⟨?_, ?_, ?_, ?_, ?_⟩
  · simp [opened.log, loads]
  · simp [opened.cTable]
  · simp [opened.rcTable]
  · simp [opened.hTable]
  · simp [opened.log]

theorem Jdump.Binding.bound (binding : jf.Binding) : jf.ClassBound := by
  refine ⟨fun k c found => (binding.classes k c found).1, ?_, ?_⟩
  · intro k o found
    obtain ⟨c, raw, made⟩ := binding.stored k o found
    exact ⟨c, ⟨raw, made⟩, (binding.made raw o c made).2⟩
  · rintro k o c _ ⟨raw, made⟩
    exact (binding.made raw o c made).2

/-- Noting what is neither a class nor an object. -/
theorem Jdump.Binding.note {event : Event} (binding : jf.Binding) (unloaded : event.loaded = none)
    (other : ∀ raw o c, event ≠ .object raw o c) : (jf.note event).Binding := by
  obtain ⟨loaded, classes, names, stored, made⟩ := binding
  have same : loads (jf.note event).log = loads jf.log := List.filterMap_cons_none unloaded
  refine ⟨?_, fun k c found => ?_, names, fun k o found => ?_, fun raw o c member => ?_⟩
  · rw [same]
    exact loaded
  · rw [same]
    exact classes k c found
  · obtain ⟨c, raw, member⟩ := stored k o found
    exact ⟨c, raw, .tail _ member⟩
  · exact made raw o c ((List.mem_cons.mp member).resolve_left (other raw o c).symm)

/-- A class under an identifier that none has been loaded under. -/
theorem Jdump.Binding.load (binding : jf.Binding) (serial : BitVec 32) {raw nameId : BitVec 64}
    {name : CString} (small : raw.toNat < 2 ^ 32) (new : raw ∉ loads jf.log) :
    ({ (jf.mkcinfo raw nameId (some name)).2 with
      cTable := jf.cTable.insert32 (key raw) jf.cinfos.next
      scTable := jf.scTable.insert32 serial jf.cinfos.next
      rcTable := jf.rcTable.insert32 (Crc32.crc32 name) jf.cinfos.next }.note
        (.load raw jf.cinfos.next)).Binding := by
  obtain ⟨loaded, classes, names, stored, made⟩ := binding
  -- the new key is none of those in the table
  have apart : ∀ k x, jf.cTable.lookup32 k = some x → k ≠ key raw := by
    rintro k x found rfl
    obtain ⟨same, _, member⟩ := classes _ _ found
    have equal := key_injective (loaded _ member) small same.symm
    exact new (equal ▸ member)
  have kept : ∀ k x, jf.cTable.lookup32 k = some x →
      (jf.cTable.insert32 (key raw) jf.cinfos.next).lookup32 k = some x := fun k x found => by
    rw [Table.lookup32_insert32_of_ne _ _ (apart k x found), found]
  have old : ∀ x, x < jf.cinfos.next →
      (jf.mkcinfo raw nameId (some name)).2.cinfo x = jf.cinfo x := by
    intro x allocated
    simp only [mkcinfo, cinfo]
    rw [Store.get_alloc_of_ne _ _ (ne_of_lt allocated)]
  have fresh : ((jf.mkcinfo raw nameId (some name)).2.cinfo jf.cinfos.next).ident = raw := by
    simp [mkcinfo, cinfo]
  refine ⟨?_, ?_, ?_, ?_, ?_⟩
  · intro x member
    rcases List.mem_cons.mp member with rfl | member
    · exact small
    · exact loaded x member
  · intro k x found
    change (jf.cTable.insert32 (key raw) jf.cinfos.next).lookup32 k = some x at found
    rw [Table.lookup32_insert32] at found
    split at found
    · rename_i here
      cases found
      exact ⟨here.trans (congrArg key fresh.symm), Nat.lt_succ_self _, by
        change ((jf.mkcinfo raw nameId (some name)).2.cinfo jf.cinfos.next).ident ∈ raw :: _
        rw [fresh]
        exact .head _⟩
    · obtain ⟨same, allocated, member⟩ := classes k x found
      refine ⟨?_, Nat.lt_succ_of_lt allocated, ?_⟩
      · change k = key ((jf.mkcinfo raw nameId (some name)).2.cinfo x).ident
        rw [old x allocated]
        exact same
      · change ((jf.mkcinfo raw nameId (some name)).2.cinfo x).ident ∈ raw :: _
        rw [old x allocated]
        exact .tail _ member
  · intro k x found
    change (jf.rcTable.insert32 _ jf.cinfos.next).lookup32 k = some x at found
    change (jf.cTable.insert32 (key raw) jf.cinfos.next).lookup32
      (key ((jf.mkcinfo raw nameId (some name)).2.cinfo x).ident) = some x
    rw [Table.lookup32_insert32] at found
    split at found
    · cases found
      rw [fresh, Table.lookup32_insert32_self]
    · have held := names k x found
      rw [old x (classes _ _ held).2.1]
      exact kept _ _ held
  · intro k o found
    obtain ⟨c, r, member⟩ := stored k o found
    exact ⟨c, r, .tail _ member⟩
  · intro r o c member
    obtain ⟨allocated, held⟩ := made r o c (by simpa [Jdump.note, mkcinfo] using member)
    exact ⟨allocated, kept _ _ held⟩

/-- An object of a class that its class identifier leads to. -/
theorem Jdump.Binding.object {ht : HType} {raw ide cid : BitVec 64} {c : ClassRef}
    {init : Hobject → Hobject} (binding : jf.Binding)
    (keeps : ∀ ho, (init ho).instId = ho.instId ∧ (init ho).classId = ho.classId)
    (held : jf.cTable.lookup32 (key cid) = some c) :
    ({ (jf.makeObj ht ide cid).2.modifyObj jf.hobjects.next init with
      hTable := jf.hTable.insert32 (key ide) jf.hobjects.next }.note
        (.object raw jf.hobjects.next c)).Binding := by
  obtain ⟨loaded, classes, names, stored, made⟩ := binding
  have fresh : (((jf.makeObj ht ide cid).2.modifyObj jf.hobjects.next init).hobject
      jf.hobjects.next).classId = cid := by
    simp [makeObj, modifyObj, hobject, keeps]
  have old : ∀ x, x < jf.hobjects.next → ((jf.makeObj ht ide cid).2.modifyObj
      jf.hobjects.next init).hobject x = jf.hobject x := by
    intro x allocated
    simp only [makeObj, modifyObj, hobject]
    rw [Store.get_modify_of_ne _ _ (ne_of_lt allocated),
      Store.get_alloc_of_ne _ _ (ne_of_lt allocated)]
  refine ⟨loaded, classes, names, ?_, ?_⟩
  · intro k o found
    change (jf.hTable.insert32 (key ide) jf.hobjects.next).lookup32 k = some o at found
    rw [Table.lookup32_insert32] at found
    split at found
    · cases found
      exact ⟨c, raw, .head _⟩
    · obtain ⟨x, r, member⟩ := stored k o found
      exact ⟨x, r, .tail _ member⟩
  · intro r o x member
    change o < jf.hobjects.next + 1 ∧ jf.cTable.lookup32 (key (((jf.makeObj ht ide cid).2.modifyObj
      jf.hobjects.next init).hobject o).classId) = some x
    rcases List.mem_cons.mp member with here | member
    · cases here
      rw [fresh]
      exact ⟨Nat.lt_succ_self _, held⟩
    · obtain ⟨allocated, found⟩ := made r o x member
      rw [old o allocated]
      exact ⟨Nat.lt_succ_of_lt allocated, found⟩

/-- Every change but an invention keeps the invariant, provided the loaded identifiers
stay pairwise different. -/
theorem Jdump.Binding.change (binding : jf.Binding) (change : Change jf jf')
    (four : jf.identsz = .four) (distinct : (loads jf'.log).Nodup)
    (known : NoneInvented jf'.log) : jf'.Binding := by
  have ⟨loaded, classes, names, stored, made⟩ := binding
  cases change with
  | move f => exact ⟨loaded, classes, names, stored, made⟩
  | record pos tag => exact binding.note rfl fun _ _ _ => by simp
  | sub pos left => exact binding.note rfl fun _ _ _ => by simp
  | roots roots => exact ⟨loaded, classes, names, stored, made⟩
  | enter => exact ⟨loaded, classes, names, stored, made⟩
  | fill c ci same =>
    have ident : ∀ x, ((jf.modifyClass c fun _ => ci).cinfo x).ident = (jf.cinfo x).ident := by
      intro x
      by_cases here : x = c
      · subst here
        simp [modifyClass, cinfo, same.1]
      · simp [modifyClass, cinfo, Store.get_modify_of_ne _ _ here]
    refine ⟨loaded, fun k x found => ?_, fun k x found => ?_, stored, made⟩
    · rw [ident]
      exact classes k x found
    · rw [ident]
      exact names k x found
  | string raw ident usb decodes =>
    have entered : Binding { jf with sbTable := jf.sbTable.insert32 (key ident) usb } :=
      ⟨loaded, classes, names, stored, made⟩
    exact entered.note rfl fun _ _ _ => by simp
  | load serial raw classId nameId name decodes found =>
    have small := decodes.four four
    obtain rfl := (decodes.small small).symm
    exact binding.load serial small (List.nodup_cons.mp distinct).1
  | invent cname elemClassId unknown =>
    rw [arrayClass, unknown] at known
    exact absurd (.head _) (known jf.cinfos.next _ _)
  | object ht raw ide cid c init decodes keeps bound =>
    refine binding.object keeps ?_
    rcases bound with found | ⟨cname, found, rfl⟩
    · exact found
    · exact names _ _ found

theorem Changes.log (changes : Changes jf jf') : ∃ events, jf'.log = events ++ jf.log := by
  induction changes with
  | refl => exact ⟨[], rfl⟩
  | tail _ change ih =>
    obtain ⟨earlier, first⟩ := ih
    obtain ⟨later, second⟩ := change.log
    exact ⟨later ++ earlier, by rw [second, first, List.append_assoc]⟩

theorem Jdump.Binding.changes (binding : jf.Binding) (changes : Changes jf jf')
    (four : jf.identsz = .four) (distinct : (loads jf'.log).Nodup)
    (known : NoneInvented jf'.log) : jf'.Binding := by
  induction changes with
  | refl => exact binding
  | tail earlier change ih =>
    obtain ⟨events, log⟩ := change.log
    refine (ih ?_ ?_).change change ((Changes.identsz earlier).trans four) distinct known
    · rw [log, loads, List.filterMap_append] at distinct
      exact distinct.of_append_right
    · exact fun c nameId fakeId member =>
        known c nameId fakeId (log ▸ List.mem_append_right _ member)

theorem classes_bound {s t : Machine} (opened : s.d.jf.Opened) (four : s.d.jf.identsz = .four)
    (run : Steps s t) (distinct : (loads t.d.jf.log).Nodup) (known : NoneInvented t.d.jf.log) :
    t.d.jf.ClassBound :=
  (opened.binding.changes run.changes four distinct known).bound

/-- The string `[B` under 7, class 100 of that name, and an empty byte array 5. -/
def loadedDump : List Byte :=
  [0x01, 0, 0, 0, 0, 0, 0, 0, 6, 0, 0, 0, 7, 0x5b, 0x42,
    0x02, 0, 0, 0, 0, 0, 0, 0, 16, 0, 0, 0, 1, 0, 0, 0, 100, 0, 0, 0, 0, 0, 0, 0, 7,
    0x0c, 0, 0, 0, 0, 0, 0, 0, 14, 0x23, 0, 0, 0, 5, 0, 0, 0, 0, 0, 0, 0, 0, 8]

theorem classes_bound_loadedDump : ∃ d : Dump,
    Steps ⟨.records, .start loadedDump .four none⟩ ⟨.done, d⟩ ∧
      d.jf.hTable.lookup32 5 = some 0 ∧ d.jf.ClassBound := by
  have run : leaves 5 (.start loadedDump .four none) (fun d =>
      decide (d.jf.hTable.lookup32 5 = some 0) && decide (loads d.jf.log = [100]) &&
        d.jf.log.all fun e => !e matches .invent ..) = true := by decide +kernel
  obtain ⟨d, steps, check⟩ := leaves_steps run
  simp only [Bool.and_eq_true, decide_eq_true_eq] at check
  obtain ⟨⟨stored, distinct⟩, invented⟩ := check
  refine ⟨d, steps, stored, classes_bound (Jdump.start_opened _ _ _) rfl steps ?_ ?_⟩
  · change (loads d.jf.log).Nodup
    simp [distinct]
  · intro c nameId fakeId member
    have plain := List.all_eq_true.mp invented _ member
    simp at plain

/-- The same array without its class. -/
def arrayDump : List Byte :=
  [0x0c, 0, 0, 0, 0, 0, 0, 0, 14, 0x23, 0, 0, 0, 5, 0, 0, 0, 0, 0, 0, 0, 0, 8]

/-- Looking up the class of the array yields NULL: class 1000 stands under key 1001. -/
theorem classes_unbound_arrayDump : ∃ s t : Machine, s.d.jf.Opened ∧ s.d.jf.identsz = .four ∧
    Steps s t ∧ loads t.d.jf.log = [] ∧ ¬ t.d.jf.ClassBound := by
  have run : leaves 5 (.start arrayDump .four none) (fun d =>
      decide (d.jf.hTable.lookup32 5 = some 0) && decide (loads d.jf.log = []) &&
        decide (d.jf.cTable.lookup32 (key (d.jf.hobject 0).classId) = none)) = true := by
    decide +kernel
  obtain ⟨d, steps, check⟩ := leaves_steps run
  simp only [Bool.and_eq_true, decide_eq_true_eq] at check
  obtain ⟨⟨stored, none⟩, unknown⟩ := check
  refine ⟨⟨.records, _⟩, ⟨.done, d⟩, Jdump.start_opened _ _ _, rfl, steps, none, ?_⟩
  intro bound
  obtain ⟨c, _, found⟩ := bound.objects 5 0 stored
  rw [unknown] at found
  cases found

end Phat
