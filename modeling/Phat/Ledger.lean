import Phat.Dump
import Phat.Readers

/-! A ledger of what a dump has declared so far, kept without addresses. It says which
readers find what they look for, how many instances of a class have been counted, and how
long the name is that an array of its objects makes a copy of. -/
namespace Phat

/-- What the readers look at in the record of a class. -/
structure LoadedClass where
  name : CString
  count : Nat
deriving DecidableEq

structure Ledger where
  strings : Key → Option CString
  serials : Key → Bool
  classes : Key → Option LoadedClass
  /-- Under which checksums of a name there is a class. -/
  hashes : Key → Bool
  fakeClass : Nat

namespace Ledger

def initial : Ledger := ⟨fun _ => none, fun _ => false, fun _ => none, fun _ => false, 1000⟩

def addString (ledger : Ledger) (k : Key) (text : CString) : Ledger :=
  { ledger with strings := Function.update ledger.strings k (some text) }

def addSerial (ledger : Ledger) (serial : Key) : Ledger :=
  { ledger with serials := Function.update ledger.serials serial true }

def addClass (ledger : Ledger) (k : Key) (name : CString) : Ledger :=
  { ledger with
    classes := Function.update ledger.classes k (some ⟨name, 0⟩)
    hashes := Function.update ledger.hashes (Crc32.crc32 name) true }

/-- The class of an array, if there is none under its name. -/
def invent (ledger : Ledger) (cname : CString) (elemClass : Key) : Ledger :=
  if ledger.hashes (Crc32.crc32 cname) then ledger
  else
    { (ledger.addString elemClass cname).addClass
        (key (BitVec.ofNat 64 (ledger.fakeClass + 1))) cname with
      fakeClass := ledger.fakeClass + 1 }

def countInstance (ledger : Ledger) (k : Key) : Ledger :=
  { ledger with
    classes := Function.update ledger.classes k ((ledger.classes k).map fun entry =>
      { entry with count := entry.count + 1 }) }

variable {ledger : Ledger} {k k' : Key}

/-- No entry is ever taken out. -/
theorem known_addClass (name : CString) (known : (ledger.classes k).isSome = true) :
    ((ledger.addClass k' name).classes k).isSome = true := by
  rw [addClass]
  by_cases here : k = k'
  · simp only [here, Function.update_self, Option.isSome_some]
  · simp only [Function.update_of_ne here, known]

theorem known_invent (cname : CString) (known : (ledger.classes k).isSome = true) :
    ((ledger.invent cname k').classes k).isSome = true := by
  rw [invent]
  split
  · exact known
  · exact known_addClass cname known

theorem known_countInstance (known : (ledger.classes k).isSome = true) :
    ((ledger.countInstance k').classes k).isSome = true := by
  rw [countInstance]
  by_cases here : k = k'
  · simpa only [here, Function.update_self, Option.isSome_map] using here ▸ known
  · simp only [Function.update_of_ne here, known]

end Ledger

/-- The ledger agrees with the tables, where it has a class. -/
structure Tracks (jf : Jdump) (ledger : Ledger) : Prop where
  strings : ∀ k, ledger.strings k = jf.sbTable.lookup32 k
  serials : ∀ k, ledger.serials k = (jf.scTable.lookup32 k).isSome
  classes : ∀ k entry, ledger.classes k = some entry → ∃ c, jf.cTable.lookup32 k = some c ∧
    c < jf.cinfos.next ∧ (jf.cinfo c).name = some entry.name
  hashes : ∀ hash, ledger.hashes hash = (jf.rcTable.lookup32 hash).isSome
  fakeClass : ledger.fakeClass = jf.fakeClass

/-- The ledger has every class, with the count of its record; no record has two keys. -/
structure Tallies (jf : Jdump) (ledger : Ledger) : Prop where
  absent : ∀ k, ledger.classes k = none → jf.cTable.lookup32 k = none
  allocated : ∀ k c, jf.cTable.lookup32 k = some c → c < jf.cinfos.next
  apart : ∀ k k' c, jf.cTable.lookup32 k = some c → jf.cTable.lookup32 k' = some c → k = k'
  counts : ∀ k entry c, ledger.classes k = some entry → jf.cTable.lookup32 k = some c →
    (jf.cinfo c).count = entry.count

/-- The ledger of a state: of the classes, those with a record and a name. -/
def Jdump.ledger (jf : Jdump) : Ledger where
  strings := jf.sbTable.lookup32
  serials k := (jf.scTable.lookup32 k).isSome
  classes k := (jf.cTable.lookup32 k).bind fun c =>
    if c < jf.cinfos.next then (jf.cinfo c).name.map fun name => ⟨name, (jf.cinfo c).count⟩
    else none
  hashes hash := (jf.rcTable.lookup32 hash).isSome
  fakeClass := jf.fakeClass

section States
variable {jf jf' : Jdump} {ledger : Ledger}

theorem Jdump.tracks_ledger (jf : Jdump) : Tracks jf jf.ledger where
  strings _ := rfl
  serials _ := rfl
  classes k entry found := by
    rw [ledger, Option.bind_eq_some_iff] at found
    obtain ⟨c, found, here⟩ := found
    split at here
    · rename_i allocated
      obtain ⟨name, known, rfl⟩ := Option.map_eq_some_iff.mp here
      exact ⟨c, found, allocated, known⟩
    · cases here
  hashes _ := rfl
  fakeClass := rfl

/-- A dump starts with nothing entered. -/
theorem Jdump.Opened.tracks (opened : jf.Opened) : Tracks jf .initial where
  strings k := by
    rw [opened.sbTable]
    rfl
  serials k := by
    rw [opened.scTable]
    rfl
  classes _ _ found := by cases found
  hashes hash := by
    rw [opened.rcTable]
    rfl
  fakeClass := opened.fakeClass.symm

theorem Jdump.Opened.tallies (opened : jf.Opened) : Tallies jf .initial := by
  have absent : ∀ k, jf.cTable.lookup32 k = none := by
    intro k
    rw [opened.cTable]
    rfl
  have nothing : ∀ k c, jf.cTable.lookup32 k ≠ some c := by
    intro k c found
    rw [absent] at found
    cases found
  exact ⟨fun k _ => absent k, fun k c found => absurd found (nothing k c),
    fun k _ c found => absurd found (nothing k c),
    fun _ _ _ known => by cases known⟩

/-- A segment starts with the ledger as it is. -/
theorem Tracks.enterHeap (tracks : Tracks jf ledger) : Tracks (enterHeap jf) ledger :=
  ⟨tracks.strings, tracks.serials, tracks.classes, tracks.hashes, tracks.fakeClass⟩

/-- A record made anew under a key, with a name that is entered as well. -/
theorem Tracks.addClass {k : Key} {cid nid : BitVec 64} {name : CString}
    (tracks : Tracks jf ledger) (sbTable : jf'.sbTable = jf.sbTable)
    (scTable : jf'.scTable = jf.scTable) (fakeClass : jf'.fakeClass = jf.fakeClass)
    (cTable : jf'.cTable = jf.cTable.insert32 k jf.cinfos.next)
    (rcTable : jf'.rcTable = jf.rcTable.insert32 (Crc32.crc32 name) jf.cinfos.next)
    (cinfos : jf'.cinfos = (jf.mkcinfo cid nid (some name)).2.cinfos) :
    Tracks jf' (ledger.addClass k name) := by
  constructor
  · rw [sbTable]
    exact tracks.strings
  · rw [scTable]
    exact tracks.serials
  · intro k' entry found
    rw [Ledger.addClass] at found
    by_cases here : k' = k
    · simp only [here, Function.update_self, Option.some.injEq] at found
      subst found
      refine ⟨jf.cinfos.next, ?_, ?_, ?_⟩
      · rw [cTable, here, Table.lookup32_insert32_self]
      · rw [cinfos]
        exact Nat.lt_succ_self _
      · rw [Jdump.cinfo, cinfos, Jdump.mkcinfo, Store.get_alloc_self]
    · simp only [Function.update_of_ne here] at found
      obtain ⟨c, old, allocated, known⟩ := tracks.classes k' entry found
      refine ⟨c, ?_, ?_, ?_⟩
      · rw [cTable, Table.lookup32_insert32_of_ne _ _ here, old]
      · rw [cinfos]
        exact Nat.lt_succ_of_lt allocated
      · rw [Jdump.cinfo, cinfos, Jdump.mkcinfo, Store.get_alloc_of_ne _ _ (ne_of_lt allocated)]
        exact known
  · intro hash
    rw [rcTable, Ledger.addClass]
    by_cases here : hash = Crc32.crc32 name
    · simp only [here, Function.update_self, Table.lookup32_insert32_self, Option.isSome_some]
    · simp only [Function.update_of_ne here, Table.lookup32_insert32_of_ne _ _ here, tracks.hashes]
  · rw [fakeClass]
    exact tracks.fakeClass

theorem Tallies.addClass {k : Key} {cid nid : BitVec 64} {name : CString}
    (tallies : Tallies jf ledger) (cTable : jf'.cTable = jf.cTable.insert32 k jf.cinfos.next)
    (cinfos : jf'.cinfos = (jf.mkcinfo cid nid (some name)).2.cinfos) :
    Tallies jf' (ledger.addClass k name) := by
  have entries : ∀ k' c, jf'.cTable.lookup32 k' = some c →
      k' = k ∧ c = jf.cinfos.next ∨ k' ≠ k ∧ jf.cTable.lookup32 k' = some c := by
    intro k' c found
    rw [cTable] at found
    by_cases here : k' = k
    · rw [here, Table.lookup32_insert32_self, Option.some.injEq] at found
      exact .inl ⟨here, found.symm⟩
    · rw [Table.lookup32_insert32_of_ne _ _ here] at found
      exact .inr ⟨here, found⟩
  constructor
  · intro k' none
    rw [Ledger.addClass] at none
    by_cases here : k' = k
    · simp only [here, Function.update_self] at none
      cases none
    · simp only [Function.update_of_ne here] at none
      rw [cTable, Table.lookup32_insert32_of_ne _ _ here]
      exact tallies.absent k' none
  · intro k' c found
    rw [cinfos]
    rcases entries k' c found with ⟨_, rfl⟩ | ⟨_, old⟩
    · exact Nat.lt_succ_self _
    · exact Nat.lt_succ_of_lt (tallies.allocated k' c old)
  · intro k₁ k₂ c first second
    rcases entries k₁ c first with ⟨rfl, rfl⟩ | ⟨_, old₁⟩
    · rcases entries k₂ _ second with ⟨rfl, _⟩ | ⟨_, old₂⟩
      · rfl
      · exact absurd (tallies.allocated k₂ _ old₂) (lt_irrefl _)
    · rcases entries k₂ _ second with ⟨_, rfl⟩ | ⟨_, old₂⟩
      · exact absurd (tallies.allocated k₁ _ old₁) (lt_irrefl _)
      · exact tallies.apart k₁ k₂ c old₁ old₂
  · intro k' entry c known found
    rw [Jdump.cinfo, cinfos, Jdump.mkcinfo]
    rw [Ledger.addClass] at known
    rcases entries k' c found with ⟨rfl, rfl⟩ | ⟨here, old⟩
    · simp only [Function.update_self, Option.some.injEq] at known
      rw [Store.get_alloc_self, ← known]
    · simp only [Function.update_of_ne here] at known
      rw [Store.get_alloc_of_ne _ _ (ne_of_lt (tallies.allocated k' c old))]
      exact tallies.counts k' entry c known old

theorem Tracks.addString {k : Key} {text : CString} (tracks : Tracks jf ledger) :
    Tracks { jf with sbTable := jf.sbTable.insert32 k text } (ledger.addString k text) where
  strings k' := by
    rw [Ledger.addString]
    by_cases here : k' = k
    · simp only [here, Function.update_self, Table.lookup32_insert32_self]
    · simp only [Function.update_of_ne here, Table.lookup32_insert32_of_ne _ _ here]
      exact tracks.strings k'
  serials := tracks.serials
  classes := tracks.classes
  hashes := tracks.hashes
  fakeClass := tracks.fakeClass

theorem Tracks.addSerial {serial : Key} {c : ClassRef} (tracks : Tracks jf ledger) :
    Tracks { jf with scTable := jf.scTable.insert32 serial c } (ledger.addSerial serial) where
  strings := tracks.strings
  serials k := by
    rw [Ledger.addSerial]
    by_cases here : k = serial
    · simp only [here, Function.update_self, Table.lookup32_insert32_self, Option.isSome_some]
    · simp only [Function.update_of_ne here, Table.lookup32_insert32_of_ne _ _ here]
      exact tracks.serials k
  classes := tracks.classes
  hashes := tracks.hashes
  fakeClass := tracks.fakeClass

/-- A class record that keeps its name. -/
theorem Tracks.fill {c : ClassRef} {ci : Cinfo} (tracks : Tracks jf ledger)
    (name : ci.name = (jf.cinfo c).name) : Tracks (jf.modifyClass c fun _ => ci) ledger where
  strings := tracks.strings
  serials := tracks.serials
  classes k entry found := by
    obtain ⟨c', old, allocated, known⟩ := tracks.classes k entry found
    refine ⟨c', old, allocated, ?_⟩
    by_cases here : c' = c
    · subst here
      simp only [Jdump.modifyClass, Jdump.cinfo, Store.get_modify_self, name]
      exact known
    · simp only [Jdump.modifyClass, Jdump.cinfo, Store.get_modify_of_ne _ _ here]
      exact known
  hashes := tracks.hashes
  fakeClass := tracks.fakeClass

theorem Tallies.fill {c : ClassRef} {ci : Cinfo} (tallies : Tallies jf ledger)
    (count : ci.count = (jf.cinfo c).count) : Tallies (jf.modifyClass c fun _ => ci) ledger where
  absent := tallies.absent
  allocated := tallies.allocated
  apart := tallies.apart
  counts k entry c' known found := by
    by_cases here : c' = c
    · subst here
      simp only [Jdump.modifyClass, Jdump.cinfo, Store.get_modify_self, count]
      exact tallies.counts k entry c' known found
    · simp only [Jdump.modifyClass, Jdump.cinfo, Store.get_modify_of_ne _ _ here]
      exact tallies.counts k entry c' known found

/-- One more instance of the class under `k`. -/
theorem Tracks.countInstance {k : Key} {c : ClassRef} (tracks : Tracks jf ledger) :
    Tracks (jf.modifyClass c fun ci => { ci with count := ci.count + 1 })
      (ledger.countInstance k) := by
  have kept : Tracks (jf.modifyClass c fun ci => { ci with count := ci.count + 1 }) ledger :=
    @Tracks.fill _ _ _ { jf.cinfo c with count := (jf.cinfo c).count + 1 } tracks rfl
  refine ⟨kept.strings, kept.serials, ?_, kept.hashes, kept.fakeClass⟩
  intro k' entry found
  rw [Ledger.countInstance] at found
  by_cases here : k' = k
  · simp only [here, Function.update_self] at found
    obtain ⟨entry', old, rfl⟩ := Option.map_eq_some_iff.mp found
    rw [here]
    exact kept.classes k entry' old
  · simp only [Function.update_of_ne here] at found
    exact kept.classes k' entry found

theorem Tallies.countInstance {k : Key} {c : ClassRef} (tallies : Tallies jf ledger)
    (found : jf.cTable.lookup32 k = some c) :
    Tallies (jf.modifyClass c fun ci => { ci with count := ci.count + 1 })
      (ledger.countInstance k) where
  absent k' none := by
    rw [Ledger.countInstance] at none
    by_cases here : k' = k
    · simp only [here, Function.update_self, Option.map_eq_none_iff] at none
      rw [here]
      exact tallies.absent k none
    · simp only [Function.update_of_ne here] at none
      exact tallies.absent k' none
  allocated := tallies.allocated
  apart := tallies.apart
  counts k' entry c' known found' := by
    rw [Ledger.countInstance] at known
    by_cases here : k' = k
    · simp only [here, Function.update_self] at known
      obtain ⟨entry', old, rfl⟩ := Option.map_eq_some_iff.mp known
      rw [here] at found'
      have same : c' = c := Option.some.inj (found'.symm.trans found)
      subst same
      simp only [Jdump.modifyClass, Jdump.cinfo, Store.get_modify_self]
      rw [tallies.counts k entry' c' old found]
    · simp only [Function.update_of_ne here] at known
      have other : c' ≠ c := by
        rintro rfl
        exact here (tallies.apart k' k c' found' found)
      simp only [Jdump.modifyClass, Jdump.cinfo, Store.get_modify_of_ne _ _ other]
      exact tallies.counts k' entry c' known found'

theorem arrayClass_tracks (tracks : Tracks jf ledger) (cname : CString) (elemClassId : BitVec 64) :
    Tracks (arrayClass jf cname elemClassId).2 (ledger.invent cname (key elemClassId)) ∧
      (Tallies jf ledger → Tallies (arrayClass jf cname elemClassId).2
        (ledger.invent cname (key elemClassId))) := by
  have hash := tracks.hashes (Crc32.crc32 cname)
  rw [arrayClass, Jdump.findClass]
  cases found : jf.rcTable.lookup32 (Crc32.crc32 cname) with
  | some c =>
    have known : ledger.hashes (Crc32.crc32 cname) = true := hash.trans (by rw [found]; rfl)
    rw [Ledger.invent, if_pos known]
    exact ⟨tracks, id⟩
  | none =>
    have unknown : ¬ ledger.hashes (Crc32.crc32 cname) = true := by
      rw [hash, found]
      exact Bool.false_ne_true
    rw [Ledger.invent, if_neg unknown, tracks.fakeClass]
    have named := @Tracks.addString jf ledger (key elemClassId) cname tracks
    have made := @Tracks.addClass _ { jf with
        sbTable := jf.sbTable.insert32 (key elemClassId) cname
        cTable := jf.cTable.insert32 (key (BitVec.ofNat 64 (jf.fakeClass + 1))) jf.cinfos.next
        rcTable := jf.rcTable.insert32 (Crc32.crc32 cname) jf.cinfos.next
        cinfos := (jf.mkcinfo (BitVec.ofNat 64 jf.fakeClass) elemClassId (some cname)).2.cinfos } _
      (key (BitVec.ofNat 64 (jf.fakeClass + 1))) (BitVec.ofNat 64 jf.fakeClass) elemClassId cname
      named rfl rfl rfl rfl rfl rfl
    refine ⟨⟨made.strings, made.serials, made.classes, made.hashes, rfl⟩, fun tallies => ?_⟩
    have tallied := @Tallies.addClass jf (arrayClass jf cname elemClassId).2 ledger
      (key (BitVec.ofNat 64 (jf.fakeClass + 1))) (BitVec.ofNat 64 jf.fakeClass) elemClassId cname
      tallies (by simp only [arrayClass, Jdump.findClass, found]; rfl)
      (by simp only [arrayClass, Jdump.findClass, found]; rfl)
    simp only [arrayClass, Jdump.findClass, found] at tallied
    exact ⟨tallied.absent, tallied.allocated, tallied.apart, tallied.counts⟩

end States

section Readers
attribute [local irreducible] readIdent readUintLocal readUshortLocal readUshort readClassHeader
  readPool readStatics readFields

variable {jf jf' : Jdump} {hs hs' : Count} {ledger : Ledger}

theorem arrayStored_tracks (tracks : Tracks jf ledger) (prim : Bool) (ht : HType) (cname : CString)
    (elsz : Nat) : Tracks (jf.arrayStored prim ht cname elsz)
        (ledger.invent cname (key (jf.arrayHead prim).1)) ∧
      (Tallies jf ledger → Tallies (jf.arrayStored prim ht cname elsz)
        (ledger.invent cname (key (jf.arrayHead prim).1))) := by
  have moved : Tracks { jf with fin := (jf.arrayHead prim).2.2 } ledger :=
    ⟨tracks.strings, tracks.serials, tracks.classes, tracks.hashes, tracks.fakeClass⟩
  obtain ⟨entered, tallied⟩ := arrayClass_tracks moved cname (jf.arrayHead prim).1
  refine ⟨⟨entered.strings, entered.serials, entered.classes, entered.hashes, entered.fakeClass⟩,
    fun tallies => ?_⟩
  have after := tallied ⟨tallies.absent, tallies.allocated, tallies.apart, tallies.counts⟩
  exact ⟨after.absent, after.allocated, after.apart, after.counts⟩

theorem readClassLists_keeps {fVersion : Nat} {identsz : IdentSize} {ci : Cinfo} {f : FILE}
    {result : Cinfo × FILE × Count} (lists : readClassLists fVersion identsz ci f hs = result) :
    result.1.name = ci.name ∧ result.1.count = ci.count := by
  subst lists
  exact ⟨rfl, rfl⟩

/-- A class dump leaves the name of its class, and the count. -/
theorem readClass_tracks (tracks : Tracks jf ledger) (read : readClass jf hs = .ok (jf', hs')) :
    Tracks jf' ledger ∧ (Tallies jf ledger → Tallies jf' ledger) := by
  rw [readClass] at read
  simp only at read
  split at read
  · cases read
  · rename_i c found
    cases read
    generalize lists : readClassLists jf.fVersion jf.identsz _ _ _ = result
    have kept := readClassLists_keeps lists
    have filled := @Tracks.fill jf ledger c result.1 tracks kept.1
    refine ⟨⟨filled.strings, filled.serials, filled.classes, filled.hashes, filled.fakeClass⟩,
      fun tallies => ?_⟩
    have after := @Tallies.fill jf ledger c result.1 tallies kept.2
    exact ⟨after.absent, after.allocated, after.apart, after.counts⟩

/-- The identifier of the class that an instance dump names. -/
def Jdump.instanceClass (jf : Jdump) : BitVec 64 :=
  (readIdent jf.identsz (readUintLocal (readIdent jf.identsz jf.fin).2).2).1

theorem readInstance_tracks (tracks : Tracks jf ledger)
    (read : readInstance jf hs = .ok (jf', hs')) :
    Tracks jf' (ledger.countInstance (key jf.instanceClass)) ∧
      (Tallies jf ledger → Tallies jf' (ledger.countInstance (key jf.instanceClass))) := by
  rw [readInstance] at read
  simp only at read
  split at read
  · cases read
  · rename_i c found
    have counted := @Tracks.countInstance jf ledger (key jf.instanceClass) c tracks
    split at read
    · cases read
    · rename_i keep _
      cases read
      constructor
      · cases keep <;>
          exact ⟨counted.strings, counted.serials, counted.classes, counted.hashes,
            counted.fakeClass⟩
      · intro tallies
        have tallied := @Tallies.countInstance jf ledger (key jf.instanceClass) c tallies found
        cases keep <;> exact ⟨tallied.absent, tallied.allocated, tallied.apart, tallied.counts⟩

end Readers

end Phat
