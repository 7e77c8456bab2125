import Phat.Classes
import Phat.Foundation.DepthFirstReach
import Phat.Resolve

/-! The graph that object resolution traverses, read off the dump alone: what each
object's turn reads, which references it follows, what it adds up and when it is
refused. Nothing here depends on the order of the traversal. -/
namespace Phat
open DepthFirst (Act Graph)

namespace Jdump

/-- The fields an instance of a class has, once the class is resolved. -/
noncomputable def layout (jf : Jdump) (c : ClassRef) : List Finfo :=
  open Classical in if chained : ∃ cs, jf.Chain c cs then jf.layoutOf 0 chained.choose else []

theorem layout_eq {jf : Jdump} {c : ClassRef} {cs : List ClassRef} (chain : jf.Chain c cs) :
    jf.layout c = jf.layoutOf 0 cs := by
  have chained : ∃ cs, jf.Chain c cs := ⟨cs, chain⟩
  rw [layout, dif_pos chained, chained.choose_spec.unique chain]

def classOf (jf : Jdump) (o : ObjRef) : Option ClassRef :=
  jf.cTable.lookup32 (key (jf.hobject o).classId)

noncomputable def fieldsOf (jf : Jdump) (o : ObjRef) : List Finfo :=
  match jf.classOf o with
  | none => []
  | some c => jf.layout c

/-- The call a reference leads to, if `hTable` knows it. -/
def follow (jf : Jdump) (ident : BitVec 64) : List (Act ObjRef Nat) :=
  match jf.hTable.lookup32 (key ident) with
  | none => []
  | some dref => [.follow dref]

/-- Slot `i` of an instance, as the field there says. -/
def readSlot (jf : Jdump) (o : ObjRef) (i : Nat) (field : Finfo) : FieldRead :=
  readField jf o i field.ftype ((jf.hobject o).fpos + field.offset)

def slotFollow (jf : Jdump) (stored : Option Hvalue) : List (Act ObjRef Nat) :=
  match stored with
  | some (.ident ident) => jf.follow ident
  | _ => []

/-- What the turn of an instance does for the slots from `i` on. -/
def slotActs (jf : Jdump) (o : ObjRef) : Nat → List Finfo → List (Act ObjRef Nat)
  | _, [] => []
  | i, field :: fields =>
    .touch (jf.readSlot o i field).pos ::
      (jf.slotFollow (jf.readSlot o i field).stored ++ jf.slotActs o (i + 1) fields)

def slotsSize (jf : Jdump) (o : ObjRef) : Nat → List Finfo → BitVec 64
  | _, [] => 0
  | i, field :: fields =>
    BitVec.ofNat 64 (jf.readSlot o i field).size + jf.slotsSize o (i + 1) fields

/-- What the slots hold then. A slot nothing is stored to keeps what it had. -/
def slotValues (jf : Jdump) (o : ObjRef) : Nat → List Finfo → List Hvalue
  | _, [] => []
  | i, field :: fields =>
    (jf.readSlot o i field).stored.getD .unset :: jf.slotValues o (i + 1) fields

/-- The identifiers in an object array, and where the file is left. -/
def elements (jf : Jdump) (o : ObjRef) : List (BitVec 64) × Nat :=
  readElements jf o (jf.hobject o).count.toNat 0 (jf.hobject o).fpos

/-- `xclassId` after the turn of a primitive array. -/
def xclassOf (jf : Jdump) (o : ObjRef) : BitVec 64 :=
  match jf.classOf o with
  | none => 0
  | some c => (xclassId (jf.hobject o).classId (jf.cinfo c).name 0).getD 0

def kindOf (jf : Jdump) (o : ObjRef) : BitVec 64 :=
  arrayKind (jf.xclassOf o) (jf.hobject o).classId

/-- The bytes of a primitive array whose elements are read, and where that leaves the
file; the others are only moved to. -/
def arrayData (jf : Jdump) (o : ObjRef) (width : Nat) : List Byte × FILE :=
  (jf.fin.seekSet (jf.hobject o).fpos).fread (width * (jf.hobject o).count.toNat)

def arrayEnd (jf : Jdump) (o : ObjRef) : Nat :=
  match elementCase (jf.kindOf o) with
  | some (width, true) => (jf.arrayData o width).2.pos
  | _ => (jf.hobject o).fpos

/-- An array without elements is left before its sizes are assigned. -/
def Empty (jf : Jdump) (o : ObjRef) : Prop :=
  (jf.hobject o).htype ≠ .hInstance ∧ (jf.hobject o).count = 0

noncomputable def objectActs (jf : Jdump) (o : ObjRef) : List (Act ObjRef Nat) :=
  match (jf.hobject o).htype with
  | .hVarray => if (jf.hobject o).count = 0 then [] else [.touch (jf.arrayEnd o)]
  | .hOarray =>
    if (jf.hobject o).count = 0 then []
    else .touch (jf.elements o).2 :: (jf.elements o).1.flatMap jf.follow
  | .hInstance => jf.slotActs o 0 (jf.fieldsOf o)

noncomputable def ownSize (jf : Jdump) (o : ObjRef) : BitVec 64 :=
  match (jf.hobject o).htype with
  | .hVarray => varraySize (jf.kindOf o) (jf.hobject o).count
  | .hOarray => oarraySize jf.identsz (jf.hobject o).count
  | .hInstance => jf.slotsSize o 0 (jf.fieldsOf o)

/-- What the turn of an object leaves in `hvalues`, if it assigns it. -/
noncomputable def decoded (jf : Jdump) (o : ObjRef) : Option Hvalues :=
  match (jf.hobject o).htype with
  | .hVarray =>
    if (jf.hobject o).count = 0 then some (.bytes [])
    else match elementCase (jf.kindOf o) with
      | some (width, true) => some (.bytes (jf.arrayData o width).1)
      | _ => some (if maxCount 8 ≤ (jf.hobject o).count.toNat then .null else .bytes [])
  | .hOarray =>
    if (jf.hobject o).count = 0 then none else some (.values ((jf.elements o).1.map .ident))
  | .hInstance =>
    if jf.fieldsOf o = [] then none else some (.values (jf.slotValues o 0 (jf.fieldsOf o)))

/-- Some array that the turn of the object uses is refused by `talloc_array`. -/
def Refused (jf : Jdump) (o : ObjRef) : Prop :=
  (∃ c cs, jf.classOf o = some c ∧ jf.Chain c cs ∧ maxCount 8 ≤ jf.fieldCount cs) ∨
    (maxCount 8 ≤ (jf.hobject o).count.toNat ∧ ((jf.hobject o).htype = .hOarray ∨
      ((jf.hobject o).htype = .hVarray ∧ ∃ width, elementCase (jf.kindOf o) = some (width, true))))

/-- Every stored object has a class with a name, whose superclass chain has at most
`depth` classes. -/
structure Resolvable (jf : Jdump) (depth : Nat) : Prop where
  zero : jf.cTable.lookup32 0 = none
  classes : ∀ o ∈ jf.stored, ∃ c cs, jf.classOf o = some c ∧ jf.Chain c cs ∧ cs.length ≤ depth ∧
    (jf.cinfo c).name.isSome = true

/-- The heap as `resolveInstance` traverses it; objects `hTable` does not hold are
never reached. -/
noncomputable def graph (jf : Jdump) : Graph ObjRef Nat (BitVec 64) where
  acts o := if o ∈ jf.stored then jf.objectActs o else []
  own := jf.ownSize
  idle o := o ∈ jf.stored ∧ jf.Empty o
  idle_acts o := by
    rintro ⟨stored, array, empty⟩
    rw [if_pos stored, objectActs]
    split
    · rw [if_pos empty]
    · rw [if_pos empty]
    · rename_i inst
      exact absurd inst array

end Jdump

section Graph
variable {jf : Jdump} {o dref : ObjRef} {ident : BitVec 64}

theorem Jdump.mem_stored {k : Key} (found : jf.hTable.lookup32 k = some o) : o ∈ jf.stored :=
  List.mem_map.mpr ⟨(k, o), Table.mem_toList.mpr found, rfl⟩

theorem Jdump.follow_none (found : jf.hTable.lookup32 (key ident) = none) : jf.follow ident = [] := by
  rw [follow, found]

theorem Jdump.follow_some (found : jf.hTable.lookup32 (key ident) = some dref) :
    jf.follow ident = [.follow dref] := by
  rw [follow, found]

theorem Jdump.targets_follow (member : dref ∈ DepthFirst.targets (jf.follow ident)) :
    dref ∈ jf.stored := by
  cases found : jf.hTable.lookup32 (key ident) with
  | none =>
    rw [follow_none found] at member
    cases member
  | some other =>
    rw [follow_some found, DepthFirst.targets_follow, DepthFirst.targets_nil,
      List.mem_singleton] at member
    subst member
    exact mem_stored found

theorem Jdump.targets_slotActs {i : Nat} {fields : List Finfo}
    (member : dref ∈ DepthFirst.targets (jf.slotActs o i fields)) : dref ∈ jf.stored := by
  induction fields generalizing i with
  | nil => cases member
  | cons field fields ih =>
    rw [slotActs, DepthFirst.targets_touch, DepthFirst.targets_append, List.mem_append] at member
    rcases member with here | later
    · unfold slotFollow at here
      split at here
      · exact targets_follow here
      · cases here
    · exact ih later

theorem Jdump.targets_elements {idents : List (BitVec 64)}
    (member : dref ∈ DepthFirst.targets (idents.flatMap jf.follow)) : dref ∈ jf.stored := by
  induction idents with
  | nil => cases member
  | cons ident idents ih =>
    rw [List.flatMap_cons, DepthFirst.targets_append, List.mem_append] at member
    exact member.elim targets_follow ih

/-- References lead to stored objects. -/
theorem Jdump.edge_stored (edge : jf.graph.Edge o dref) : dref ∈ jf.stored := by
  rw [Graph.Edge, graph] at edge
  simp only at edge
  split at edge
  · rw [objectActs] at edge
    split at edge
    · split at edge <;> cases edge
    · split at edge
      · cases edge
      · exact targets_elements edge
    · exact targets_slotActs edge
  · cases edge

theorem Jdump.reach_stored (stored : o ∈ jf.stored) (path : jf.graph.Reach o dref) :
    dref ∈ jf.stored := by
  cases path with
  | refl => exact stored
  | tail _ edge => exact edge_stored edge

theorem Jdump.graph_acts (member : o ∈ jf.stored) : jf.graph.acts o = jf.objectActs o :=
  if_pos member

theorem Jdump.graph_acts_outside (outside : o ∉ jf.stored) : jf.graph.acts o = [] :=
  if_neg outside

end Graph

/-- A part of the heap that no reference leads out of, with what `Resolvable` says of the
whole. -/
structure Jdump.Region (jf : Jdump) (S : ObjRef → Prop) (depth : Nat) : Prop where
  zero : jf.cTable.lookup32 0 = none
  stored : ∀ o, S o → o ∈ jf.stored
  closed : ∀ o dref, S o → jf.graph.Edge o dref → S dref
  classes : ∀ o, S o → ∃ c cs, jf.classOf o = some c ∧ jf.Chain c cs ∧ cs.length ≤ depth ∧
    (jf.cinfo c).name.isSome = true

theorem Jdump.Resolvable.region {jf : Jdump} {depth : Nat} (resolvable : jf.Resolvable depth) :
    jf.Region (· ∈ jf.stored) depth where
  zero := resolvable.zero
  stored _ := id
  closed _ _ _ := edge_stored
  classes := resolvable.classes

/-- What references lead to from these. -/
def Jdump.From (jf : Jdump) (os : List ObjRef) (x : ObjRef) : Prop :=
  ∃ o ∈ os, jf.graph.Reach o x

theorem Jdump.From.start {jf : Jdump} {os : List ObjRef} {o : ObjRef} (member : o ∈ os) :
    jf.From os o :=
  ⟨o, member, .refl⟩

theorem Jdump.Region.reach {jf : Jdump} {S : ObjRef → Prop} {depth : Nat} {o x : ObjRef}
    (region : jf.Region S depth) (inside : S o) (path : jf.graph.Reach o x) : S x := by
  induction path with
  | refl => exact inside
  | tail _ edge ih => exact region.closed _ _ ih edge

/-- Objects 1 and 2, instances of class 3, with their bodies of nine bytes at the start
of the file: a byte, a reference and an integer each. -/
def sampleHeap (bytes : List Byte) : Jdump :=
  { sampleClasses with
    fin := ⟨bytes, 0, fun _ => 0, 0⟩
    hTable := (Table.empty.insert32 1 0).insert32 2 1
    hobjects := ⟨2, fun o => ⟨.hInstance, BitVec.ofNat 64 (o + 1), 3, 9 * o, 0, 0⟩⟩ }

theorem sampleHeap_stored (bytes : List Byte) : (sampleHeap bytes).stored = [0, 1] := rfl

theorem sampleHeap_resolvable (bytes : List Byte) : (sampleHeap bytes).Resolvable 3 where
  zero := rfl
  classes _ _ := ⟨2, [2, 1, 0], rfl, (@sampleChain (sampleHeap bytes) rfl rfl).2.2, le_rfl, rfl⟩

/-- The first field declared by the class of an instance is a reference, and what the body
of the instance holds there leads to `dref`. -/
def Jdump.NamesFirst (jf : Jdump) (o dref : ObjRef) : Prop :=
  (jf.hobject o).htype = .hInstance ∧ ∃ c nameId rest, jf.classOf o = some c ∧
    (jf.cinfo c).fields = ⟨nameId, chr 'L'⟩ :: rest ∧
    jf.hTable.lookup32 (key (readIdent jf.identsz (jf.fin.seekSet (jf.hobject o).fpos)).1) =
      some dref

/-- An instance of a root class that declares a reference, which leads to an instance of a
class below it, where the reference is NULL. -/
def sampleRoot : Jdump :=
  { sampleHeap [0, 0, 0, 2, 0, 0, 0, 9, 0, 0, 0, 0] with
    cinfos := ⟨3, fun c => if c = 0 then { sampleClass 0 with cfields := 1, fields := [⟨7, chr 'L'⟩] }
      else sampleClass c⟩
    hobjects := ⟨2, fun o =>
      if o = 0 then ⟨.hInstance, 1, 1, 0, 0, 0⟩ else ⟨.hInstance, 2, 2, 4, 0, 0⟩⟩ }

theorem sampleRoot_resolvable : sampleRoot.Resolvable 2 where
  zero := rfl
  classes o _ := by
    have root : sampleRoot.Chain 0 [0] := .root rfl
    by_cases first : o = 0
    · subst first
      exact ⟨0, _, rfl, root, by decide, rfl⟩
    · have record : sampleRoot.hobject o = ⟨.hInstance, 2, 2, 4, 0, 0⟩ := if_neg first
      refine ⟨1, [1, 0], ?_, .super (by decide) rfl ?_ root, by decide, rfl⟩
      · rw [Jdump.classOf, record]
        rfl
      · rw [Jdump.Filled]
        decide

theorem sampleRoot_names : sampleRoot.NamesFirst 0 1 := ⟨rfl, 0, 7, [], rfl, rfl, rfl⟩

end Phat
