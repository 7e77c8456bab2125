import Phat.Binding

/-! What the 32-bit keys keep of the identifiers. The tables return the entry last
recorded for an identifier as long as no two identifiers recorded agree in their lower
halves, no stored object has anything in the upper half, and no invented class takes
the place of an entry. -/
namespace Phat

def Event.asString : Event → Option (BitVec 64 × CString)
  | .string raw text => some (raw, text)
  | _ => none

def Event.asLoad : Event → Option (BitVec 64 × ClassRef)
  | .load raw c => some (raw, c)
  | _ => none

def Event.asObject : Event → Option (BitVec 64 × ObjRef)
  | .object raw o _ => some (raw, o)
  | _ => none

/-- What has been recorded under each identifier, the last first. -/
def stringsOf (log : List Event) : List (BitVec 64 × CString) := log.filterMap Event.asString

def classesOf (log : List Event) : List (BitVec 64 × ClassRef) := log.filterMap Event.asLoad

def objectsOf (log : List Event) : List (BitVec 64 × ObjRef) := log.filterMap Event.asObject

section Entries
variable {α : Type} {t : Table α} {entries : List (BitVec 64 × α)} {raw : BitVec 64} {a : α}

/-- The table returns what was last recorded under an identifier. -/
def Retrieves (t : Table α) (entries : List (BitVec 64 × α)) : Prop :=
  ∀ raw a, (raw, a) ∈ entries → t.lookup32 (key raw) = entries.lookup raw

/-- No two identifiers share a key. -/
def Apart (entries : List (BitVec 64 × α)) : Prop :=
  ∀ x ∈ entries, ∀ y ∈ entries, key x.1 = key y.1 → x.1 = y.1

theorem Apart.tail {x : BitVec 64 × α} (apart : Apart (x :: entries)) : Apart entries :=
  fun y member z other => apart y (.tail _ member) z (.tail _ other)

theorem Retrieves.insert (retrieves : Retrieves t entries) (apart : Apart ((raw, a) :: entries)) :
    Retrieves (t.insert32 (key raw) a) ((raw, a) :: entries) := by
  intro other b member
  by_cases same : other = raw
  · subst same
    simp
  · have skip : (other == raw) = false := by simpa using same
    have inside : (other, b) ∈ entries := by
      rcases List.mem_cons.mp member with here | inside
      · cases here
        exact absurd rfl same
      · exact inside
    have differ : key other ≠ key raw := fun equal =>
      same (apart (other, b) (.tail _ inside) (raw, a) (.head _) equal)
    rw [Table.lookup32_insert32_of_ne _ _ differ, retrieves other b inside, List.lookup_cons, skip]

theorem Retrieves.displace (retrieves : Retrieves t entries) {k : Key} (a : α)
    (free : ∀ x ∈ entries, key x.1 ≠ k) : Retrieves (t.insert32 k a) entries := by
  intro raw b member
  rw [Table.lookup32_insert32_of_ne _ _ (free _ member), retrieves raw b member]

end Entries

/-- No invented class has taken the key of a string or a class recorded before. -/
def NoneDisplaced : List Event → Prop
  | [] => True
  | .invent _ nameId fakeId :: log =>
      (∀ x ∈ stringsOf log, key x.1 ≠ key nameId) ∧ (∀ x ∈ classesOf log, key x.1 ≠ key fakeId) ∧
        NoneDisplaced log
  | _ :: log => NoneDisplaced log

theorem noneDisplaced_of_nil {log : List Event} (texts : stringsOf log = [])
    (loaded : classesOf log = []) : NoneDisplaced log := by
  induction log with
  | nil => trivial
  | cons e log ih =>
    cases e with
    | string => cases texts
    | load => cases loaded
    | invent =>
      have texts : stringsOf log = [] := texts
      have loaded : classesOf log = [] := loaded
      exact ⟨by simp [texts], by simp [loaded], ih texts loaded⟩
    | _ => exact ih texts loaded

/-- The identifiers recorded so far fit the keys. -/
structure Separate (log : List Event) : Prop where
  strings : Apart (stringsOf log)
  classes : Apart (classesOf log)
  objects : ∀ x ∈ objectsOf log, x.1.toNat < 2 ^ 32
  displaced : NoneDisplaced log

theorem Separate.tail {e : Event} {log : List Event} (separate : Separate (e :: log)) :
    Separate log := by
  obtain ⟨strings, classes, objects, displaced⟩ := separate
  cases e with
  | string => exact ⟨strings.tail, classes, objects, displaced⟩
  | load => exact ⟨strings, classes.tail, objects, displaced⟩
  | object => exact ⟨strings, classes, fun x member => objects x (.tail _ member), displaced⟩
  | invent => exact ⟨strings, classes, objects, displaced.2.2⟩
  | _ => exact ⟨strings, classes, objects, displaced⟩

theorem Separate.suffix {events log : List Event} (separate : Separate (events ++ log)) :
    Separate log := by
  induction events with
  | nil => exact separate
  | cons e events ih => exact ih separate.tail

/-- Every identifier recorded is looked up successfully: strings, classes and objects
are those last recorded under it, and the object carries it. -/
structure Jdump.Identified (jf : Jdump) : Prop where
  strings : Retrieves jf.sbTable (stringsOf jf.log)
  classes : Retrieves jf.cTable (classesOf jf.log)
  objects : Retrieves jf.hTable (objectsOf jf.log)
  instId : ∀ raw o, (raw, o) ∈ objectsOf jf.log →
    o < jf.hobjects.next ∧ (jf.hobject o).instId = raw

variable {jf jf' : Jdump}

theorem Jdump.Opened.identified (opened : jf.Opened) : jf.Identified := by
  refine ⟨?_, ?_, ?_, ?_⟩
  · simp [Retrieves, opened.log, stringsOf]
  · simp [Retrieves, opened.log, classesOf]
  · simp [Retrieves, opened.log, objectsOf]
  · simp [opened.log, objectsOf]

theorem apart_of_small {entries : List (BitVec 64 × α)}
    (small : ∀ x ∈ entries, x.1.toNat < 2 ^ 32) : Apart entries :=
  fun x member y other => key_injective (small x member) (small y other)

theorem Jdump.Identified.change (identified : jf.Identified) (change : Change jf jf')
    (separate : Separate jf'.log) : jf'.Identified := by
  obtain ⟨texts, loaded, stored, instId⟩ := identified
  cases change with
  | string raw ident usb decodes =>
    refine ⟨?_, loaded, stored, instId⟩
    change Retrieves (jf.sbTable.insert32 (key ident) usb) ((raw, usb) :: stringsOf jf.log)
    rw [decodes.low]
    exact texts.insert separate.strings
  | load serial raw classId nameId name decodes found =>
    refine ⟨texts, ?_, stored, instId⟩
    change Retrieves (jf.cTable.insert32 (key classId) _) ((raw, jf.cinfos.next) :: classesOf jf.log)
    rw [decodes.low]
    exact loaded.insert separate.classes
  | invent cname elemClassId unknown =>
    rw [arrayClass, unknown] at separate ⊢
    obtain ⟨names, fakes, _⟩ := separate.displaced
    exact ⟨texts.displace _ names, loaded.displace _ fakes, stored, instId⟩
  | object ht raw ide cid c init decodes keeps bound =>
    have small : raw.toNat < 2 ^ 32 := separate.objects (raw, _) (.head _)
    refine ⟨texts, loaded, ?_, ?_⟩
    · change Retrieves (jf.hTable.insert32 (key ide) _)
        ((raw, jf.hobjects.next) :: objectsOf jf.log)
      rw [decodes.low]
      exact stored.insert (apart_of_small separate.objects)
    · intro r o member
      change o < jf.hobjects.next + 1 ∧ (((jf.makeObj ht ide cid).2.modifyObj jf.hobjects.next
        init).hobject o).instId = r
      rcases List.mem_cons.mp member with here | member
      · cases here
        refine ⟨Nat.lt_succ_self _, ?_⟩
        simp [makeObj, modifyObj, hobject, keeps, decodes.small small]
      · obtain ⟨allocated, same⟩ := instId r o member
        refine ⟨Nat.lt_succ_of_lt allocated, ?_⟩
        simp only [makeObj, modifyObj, hobject]
        rw [Store.get_modify_of_ne _ _ (ne_of_lt allocated),
          Store.get_alloc_of_ne _ _ (ne_of_lt allocated), same]
  | _ => exact ⟨texts, loaded, stored, instId⟩

theorem Jdump.Identified.changes (identified : jf.Identified) (changes : Changes jf jf')
    (separate : Separate jf'.log) : jf'.Identified := by
  induction changes with
  | refl => exact identified
  | tail _ change ih =>
    obtain ⟨events, log⟩ := change.log
    exact (ih (log ▸ separate).suffix).change change separate

theorem identities_kept {s t : Machine} (opened : s.d.jf.Opened) (run : Steps s t)
    (separate : Separate t.d.jf.log) : t.d.jf.Identified :=
  opened.identified.changes run.changes separate

/-- Two empty byte arrays, of identifiers 1 and 2. -/
def twoDump : List Byte :=
  [0x0c, 0, 0, 0, 0, 0, 0, 0, 36,
    0x23, 0, 0, 0, 0, 0, 0, 0, 1, 0, 0, 0, 0, 0, 0, 0, 0, 8,
    0x23, 0, 0, 0, 0, 0, 0, 0, 2, 0, 0, 0, 0, 0, 0, 0, 0, 8]

theorem identities_kept_twoDump : ∃ d : Dump,
    Steps ⟨.records, .start twoDump .eight none⟩ ⟨.done, d⟩ ∧
      objectsOf d.jf.log = [(2, 1), (1, 0)] ∧ d.jf.Identified := by
  have run : leaves 5 (.start twoDump .eight none) (fun d =>
      decide (objectsOf d.jf.log = [(2, 1), (1, 0)]) && decide (stringsOf d.jf.log = []) &&
        decide (classesOf d.jf.log = [])) = true := by decide +kernel
  obtain ⟨d, steps, check⟩ := leaves_steps run
  simp only [Bool.and_eq_true, decide_eq_true_eq] at check
  obtain ⟨⟨stored, texts⟩, loaded⟩ := check
  refine ⟨d, steps, stored, identities_kept (Jdump.start_opened _ _ _) steps ⟨?_, ?_, ?_, ?_⟩⟩
  · simp [Apart, texts]
  · simp [Apart, loaded]
  · change ∀ x ∈ objectsOf d.jf.log, x.1.toNat < 2 ^ 32
    rw [stored]
    decide
  · exact noneDisplaced_of_nil texts loaded

/-- Identifiers 2^32 + 1 and 1. -/
def sharedDump : List Byte :=
  [0x0c, 0, 0, 0, 0, 0, 0, 0, 36,
    0x23, 0, 0, 0, 1, 0, 0, 0, 1, 0, 0, 0, 0, 0, 0, 0, 0, 8,
    0x23, 0, 0, 0, 0, 0, 0, 0, 1, 0, 0, 0, 0, 0, 0, 0, 0, 8]

/-- The second array hides the first. -/
theorem identities_lost_sharedDump : ∃ s t : Machine, s.d.jf.Opened ∧
    s.d.jf.identsz = .eight ∧ Steps s t ∧ ¬ t.d.jf.Identified := by
  have run : leaves 5 (.start sharedDump .eight none) (fun d =>
      decide (objectsOf d.jf.log = [(1, 1), (0x100000001, 0)]) &&
        decide (d.jf.hTable.lookup32 1 = some 1)) = true := by decide +kernel
  obtain ⟨d, steps, check⟩ := leaves_steps run
  simp only [Bool.and_eq_true, decide_eq_true_eq] at check
  obtain ⟨stored, found⟩ := check
  refine ⟨⟨.records, _⟩, ⟨.done, d⟩, Jdump.start_opened _ _ _, rfl, steps, ?_⟩
  intro identified
  have first := identified.objects 0x100000001 0 (by simp [stored])
  change d.jf.hTable.lookup32 1 = List.lookup _ (objectsOf d.jf.log) at first
  rw [stored, found] at first
  exact absurd first (by decide)

end Phat
