import Phat.Foundation.HashIndex
import Phat.Identity

/-! Classes by name. `rcTable` has one class for each CRC-32, the last that a LOAD_CLASS record or
`readArray` has entered under it; the names themselves are never compared. -/
namespace Phat
open HashIndex

/-- The class record that is made, and entered in `rcTable`. -/
def Event.classMade : Event → Option ClassRef
  | .load _ c => some c
  | .invent c _ _ => some c
  | _ => none

/-- The class records made so far, the last first. -/
def classesMade (log : List Event) : List ClassRef := log.filterMap Event.classMade

def nameHash (entry : CString × ClassRef) : Key := Crc32.crc32 entry.1

namespace Jdump

def entry (jf : Jdump) (c : ClassRef) : Option (CString × ClassRef) :=
  (jf.cinfo c).name.map fun cname => (cname, c)

/-- The class records made so far with their names. -/
def recorded (jf : Jdump) : List (CString × ClassRef) := (classesMade jf.log).filterMap jf.entry

/-- The invariant: every class of `cTable` is recorded with its name, and `rcTable` is the index
of what is recorded. -/
structure Indexed (jf : Jdump) : Prop where
  allocated : ∀ c ∈ classesMade jf.log, c < jf.cinfos.next
  classes : ∀ k c, jf.cTable.lookup32 k = some c → ∃ cname, (cname, c) ∈ jf.recorded
  names : ∀ k, jf.rcTable.lookup32 k = (newest nameHash jf.recorded k).map Prod.snd

variable {jf jf' : Jdump} {c : ClassRef} {cname : CString}

theorem mem_recorded :
    (cname, c) ∈ jf.recorded ↔ c ∈ classesMade jf.log ∧ (jf.cinfo c).name = some cname := by
  simp only [recorded, entry, List.mem_filterMap, Option.map_eq_some_iff, Prod.mk.injEq]
  constructor
  · rintro ⟨c', made, _, name, rfl, rfl⟩
    exact ⟨made, name⟩
  · rintro ⟨made, name⟩
    exact ⟨c, made, cname, name, rfl, rfl⟩

theorem recorded_congr (log : classesMade jf'.log = classesMade jf.log)
    (same : ∀ c ∈ classesMade jf.log, (jf'.cinfo c).name = (jf.cinfo c).name) :
    jf'.recorded = jf.recorded := by
  rw [recorded, recorded, log]
  exact List.filterMap_congr fun c made => by rw [entry, entry, same c made]

theorem Opened.indexed (opened : jf.Opened) : jf.Indexed := by
  refine ⟨?_, ?_, ?_⟩
  · simp [opened.log, classesMade]
  · simp [opened.cTable]
  · simp [opened.rcTable, opened.log, recorded, classesMade]

/-- A class made with a name and entered under it keeps the invariant. -/
theorem Indexed.insert {e : Event} {k : Key} {cid nid : BitVec 64} (indexed : jf.Indexed)
    (log : jf'.log = e :: jf.log) (made : e.classMade = some jf.cinfos.next)
    (cinfos : jf'.cinfos = (jf.mkcinfo cid nid (some cname)).2.cinfos)
    (cTable : jf'.cTable = jf.cTable.insert32 k jf.cinfos.next)
    (rcTable : jf'.rcTable = jf.rcTable.insert32 (Crc32.crc32 cname) jf.cinfos.next) :
    jf'.Indexed := by
  obtain ⟨allocated, classes, names⟩ := indexed
  have records : classesMade jf'.log = jf.cinfos.next :: classesMade jf.log := by
    rw [log, classesMade, List.filterMap_cons, made]
    rfl
  have fresh : (jf'.cinfo jf.cinfos.next).name = some cname := by
    rw [cinfo, cinfos, mkcinfo, Store.get_alloc_self]
  have old : ∀ c ∈ classesMade jf.log, jf'.entry c = jf.entry c := by
    intro c made
    rw [entry, entry, cinfo, cinfos, mkcinfo, Store.get_alloc_of_ne _ _ (ne_of_lt (allocated c made))]
  have recorded : jf'.recorded = (cname, jf.cinfos.next) :: jf.recorded := by
    rw [Jdump.recorded, records, List.filterMap_cons, entry, fresh]
    exact congrArg _ (List.filterMap_congr old)
  refine ⟨?_, ?_, ?_⟩
  · rw [records, cinfos]
    intro c made
    rcases List.mem_cons.mp made with rfl | made
    · exact Nat.lt_succ_self _
    · exact Nat.lt_succ_of_lt (allocated c made)
  · intro k' c found
    rw [cTable, Table.lookup32_insert32] at found
    rw [recorded]
    split at found
    · cases found
      exact ⟨cname, .head _⟩
    · obtain ⟨cname', member⟩ := classes k' c found
      exact ⟨cname', .tail _ member⟩
  · intro k'
    rw [rcTable, Table.lookup32_insert32, recorded]
    split
    · rename_i here
      rw [here, show Crc32.crc32 cname = nameHash (cname, jf.cinfos.next) from rfl,
        newest_cons_self]
      rfl
    · rename_i other
      rw [newest_cons_of_ne (show k' ≠ nameHash (cname, jf.cinfos.next) from other), names]

theorem Indexed.change (indexed : jf.Indexed) (change : Change jf jf') : jf'.Indexed := by
  cases change with
  | fill c ci same =>
    have kept : (jf.modifyClass c fun _ => ci).recorded = jf.recorded := by
      refine recorded_congr rfl fun x _ => ?_
      by_cases here : x = c
      · subst here
        simp [modifyClass, cinfo, same.2.2]
      · simp [modifyClass, cinfo, Store.get_modify_of_ne _ _ here]
    obtain ⟨allocated, classes, names⟩ := indexed
    refine ⟨allocated, ?_, ?_⟩
    · rw [kept]
      exact classes
    · rw [kept]
      exact names
  | load serial raw classId nameId name decodes found =>
    exact indexed.insert rfl rfl rfl rfl rfl
  | invent cname elemClassId unknown =>
    rw [arrayClass, unknown]
    exact indexed.insert rfl rfl rfl rfl rfl
  | _ => exact ⟨indexed.allocated, indexed.classes, indexed.names⟩

theorem Indexed.changes (indexed : jf.Indexed) (changes : Changes jf jf') : jf'.Indexed := by
  induction changes with
  | refl => exact indexed
  | tail _ change ih => exact ih.change change

theorem Indexed.findClass (indexed : jf.Indexed) (cname : CString) :
    jf.findClass cname = (newest nameHash jf.recorded (Crc32.crc32 cname)).map Prod.snd :=
  indexed.names _

/-- Some class is found under the name of every class recorded, so none is invented for it. -/
theorem Indexed.findClass_recorded (indexed : jf.Indexed) (member : (cname, c) ∈ jf.recorded) :
    ∃ e, newest nameHash jf.recorded (Crc32.crc32 cname) = some e ∧ e ∈ jf.recorded ∧
      jf.findClass cname = some e.2 := by
  obtain ⟨e, found, inside⟩ := @newest_exists _ _ _ nameHash _ _ member
  rw [nameHash] at found
  refine ⟨e, found, inside, ?_⟩
  rw [indexed.findClass, found]
  rfl

/-- `findClass` keeps to the name: what it returns has that name, and it returns something once
a class of that name has been loaded. -/
structure FindsByName (jf : Jdump) (cname : CString) : Prop where
  named : ∀ c, jf.findClass cname = some c → (jf.cinfo c).name = some cname
  found : ∀ raw c, .load raw c ∈ jf.log → (jf.cinfo c).name = some cname →
    ∃ found, jf.findClass cname = some found

theorem Indexed.findsByName_iff (indexed : jf.Indexed) (cname : CString) : jf.FindsByName cname ↔
    ∀ e, newest nameHash jf.recorded (Crc32.crc32 cname) = some e → e.1 = cname := by
  constructor
  · intro finds e found
    have named := finds.named e.2 (by rw [indexed.findClass, found]; rfl)
    have member : (e.1, e.2) ∈ jf.recorded := List.mem_of_find?_eq_some found
    rw [(mem_recorded.mp member).2, Option.some.injEq] at named
    exact named
  · intro wanted
    refine ⟨fun c found => ?_, fun raw c load name => ?_⟩
    · rw [indexed.findClass, Option.map_eq_some_iff] at found
      obtain ⟨e, found, rfl⟩ := found
      have member : (e.1, e.2) ∈ jf.recorded := List.mem_of_find?_eq_some found
      rw [← wanted e found]
      exact (mem_recorded.mp member).2
    · have made : c ∈ classesMade jf.log := List.mem_filterMap.mpr ⟨_, load, rfl⟩
      obtain ⟨e, _, _, found⟩ := indexed.findClass_recorded (mem_recorded.mpr ⟨made, name⟩)
      exact ⟨e.2, found⟩

end Jdump

/-- Looking a name up keeps to the name exactly if no other name of the same CRC-32 has been
entered without the name itself after it. -/
theorem class_found_by_name {s t : Machine} (opened : s.d.jf.Opened) (run : Steps s t)
    (cname : CString) : t.d.jf.FindsByName cname ↔
      ¬ Hidden nameHash t.d.jf.recorded (Crc32.crc32 cname) (fun e => e.1 = cname) := by
  rw [(opened.indexed.changes run.changes).findsByName_iff, newest_wanted_iff]

theorem class_found_by_name_loadedDump : ∃ d : Dump,
    Steps ⟨.records, .start loadedDump .four none⟩ ⟨.done, d⟩ ∧
      d.jf.findClass [0x5b, 0x42] = some 0 ∧ d.jf.FindsByName [0x5b, 0x42] := by
  have run : leaves 5 (.start loadedDump .four none) (fun d =>
      decide (d.jf.findClass [0x5b, 0x42] = some 0) &&
        decide (d.jf.recorded = [([0x5b, 0x42], 0)])) = true := by decide +kernel
  obtain ⟨d, steps, check⟩ := leaves_steps run
  simp only [Bool.and_eq_true, decide_eq_true_eq] at check
  obtain ⟨found, recorded⟩ := check
  refine ⟨d, steps, found, (class_found_by_name (Jdump.start_opened _ _ _) steps _).mpr ?_⟩
  refine not_hidden_of_all fun e member _ => ?_
  change e ∈ d.jf.recorded at member
  rw [recorded, List.mem_singleton] at member
  rw [member]

/-- The strings `plumless` under 7 and `buckeroo` under 8, and a class of each name. -/
def collidingDump : List Byte :=
  [0x01, 0, 0, 0, 0, 0, 0, 0, 12, 0, 0, 0, 7, 0x70, 0x6c, 0x75, 0x6d, 0x6c, 0x65, 0x73, 0x73,
    0x01, 0, 0, 0, 0, 0, 0, 0, 12, 0, 0, 0, 8, 0x62, 0x75, 0x63, 0x6b, 0x65, 0x72, 0x6f, 0x6f,
    0x02, 0, 0, 0, 0, 0, 0, 0, 16, 0, 0, 0, 1, 0, 0, 0, 100, 0, 0, 0, 0, 0, 0, 0, 7,
    0x02, 0, 0, 0, 0, 0, 0, 0, 16, 0, 0, 0, 2, 0, 0, 0, 200, 0, 0, 0, 0, 0, 0, 0, 8]

/-- Asked for `plumless`, `findClass` returns the class named `buckeroo`. -/
theorem collidingDump_mistaken : ∃ s t : Machine, s.d.jf.Opened ∧ Steps s t ∧
    ¬ t.d.jf.FindsByName [0x70, 0x6c, 0x75, 0x6d, 0x6c, 0x65, 0x73, 0x73] := by
  have run : leaves 5 (.start collidingDump .four none) (fun d =>
      decide (d.jf.findClass [0x70, 0x6c, 0x75, 0x6d, 0x6c, 0x65, 0x73, 0x73] = some 1) &&
        decide ((d.jf.cinfo 1).name = some [0x62, 0x75, 0x63, 0x6b, 0x65, 0x72, 0x6f, 0x6f])) =
          true := by decide +kernel
  obtain ⟨d, steps, check⟩ := leaves_steps run
  simp only [Bool.and_eq_true, decide_eq_true_eq] at check
  obtain ⟨found, name⟩ := check
  refine ⟨⟨.records, _⟩, ⟨.done, d⟩, Jdump.start_opened _ _ _, steps, fun finds => ?_⟩
  have named := finds.named 1 found
  change (d.jf.cinfo 1).name = _ at named
  rw [name] at named
  exact absurd named (by decide)

end Phat
