import Phat.Heap
import Phat.Layout

/-! Object resolution: `arc_add`, `resolveInstance`, `resolveInstances`. The recursive
call is a parameter of the loops that make it. -/
namespace Phat

def arcLookup (lk : Look) (parent child : ClassRef) : Option Nat :=
  (lk.classes parent).children.find? fun arc => (lk.arcs.get arc).child = child

/-- What `arc_add` adds where `arc_lookup` found nothing. -/
def putArc (lk : Look) (parent child : ClassRef) (count size : Int) : Look :=
  let arc := lk.arcs.next
  let lk := { lk with arcs := lk.arcs.alloc fun _ => ⟨parent, child, count, size⟩ }
  let lk := if parent ≠ child then
      { lk with
        arcTab := lk.arcTab ++ [arc]
        arcsMax := if lk.arcTab.length = lk.arcsMax then lk.arcsMax + 10 else lk.arcsMax }
    else lk
  let lk := lk.setClass parent
    { lk.classes parent with children := arc :: (lk.classes parent).children }
  lk.setClass child { lk.classes child with parents := arc :: (lk.classes child).parents }

/-- The part of `arc_add` where `arc_lookup` found nothing. A NULL of `talloc_size` is met by the
copy into the array. -/
def newArc (lk : Look) (parent child : ClassRef) (count size : Int) : Except Stop Look :=
  if parent ≠ child ∧ lk.arcTab.length = lk.arcsMax ∧ maxCount 1 ≤ 8 * (lk.arcsMax + 10) then
    .error .nomem
  else .ok (putArc lk parent child count size)

def arcAdd (jf : Jdump) (lk : Look) (hop hoc : ObjRef) (count : Int) : Except Stop Look :=
  match jf.cTable.lookup32 (key (jf.hobject hop).classId),
      jf.cTable.lookup32 (key (jf.hobject hoc).classId) with
  | some parent, some child =>
    match arcLookup lk parent child with
    | some arc => .ok { lk with arcs := lk.arcs.modify arc fun a =>
        { a with count := a.count + count, childSize := a.childSize + (jf.hobject hoc).size } }
    | none => newArc lk parent child count (jf.hobject hoc).size
  | _, _ => .error .null

/-- The type code for the letter after the bracket of a class name. -/
def xclassFor (sig : Byte) : Option (BitVec 64) :=
  if sig = chr 'B' ∨ sig = chr 'Z' then some 8
  else if sig = chr 'C' ∨ sig = chr 'S' then some 9
  else if sig = chr 'F' then some 6
  else if sig = chr 'D' then some 7
  else if sig = chr 'I' then some 10
  else if sig = chr 'J' then some 11
  else none

/-- Element width by type code, and whether the elements are read. -/
def elementCase (kind : BitVec 64) : Option (Nat × Bool) :=
  match kind.toNat with
  | 4 | 8 => some (1, true)
  | 5 | 9 => some (2, true)
  | 6 => some (4, false)
  | 7 => some (8, false)
  | 10 => some (4, true)
  | 11 => some (8, true)
  | _ => none

/-- `none` when `ci->name` is NULL and looked at. `*(ci->name + 1)` of a one-letter
name is its terminator; an empty name has no such byte. -/
def xclassId (classId : BitVec 64) (name : Option CString) (old : BitVec 64) :
    Option (BitVec 64) :=
  if (12 : Int) < classId.toInt then
    name.map fun name => (xclassFor (name.getD 1 0)).getD old
  else some old

/-- `ho->xclassId ? ho->xclassId : ho->classId` -/
def arrayKind (xclassId classId : BitVec 64) : BitVec 64 :=
  if xclassId ≠ 0 then xclassId else classId

/-- `size` of a primitive array, a product in `unsigned int`. -/
def varraySize (kind : BitVec 64) (count : BitVec 32) : BitVec 64 :=
  match elementCase kind with
  | some (width, _) => (BitVec.ofNat 32 width * count).setWidth 64
  | none => 0

/-- `size` of an object array. -/
def oarraySize (identsz : IdentSize) (count : BitVec 32) : BitVec 64 :=
  (count * identsz.width).setWidth 64

/-- `ho->osize = ci->size = size` -/
def Look.settle (lk : Look) (o : ObjRef) (c : ClassRef) (size : BitVec 64) : Look :=
  let lk := lk.setObj o { lk.objects o with osize := size }
  lk.setClass c { lk.classes c with size := size }

/-- Every `return` of `resolveInstance`. -/
def Look.leave (lk : Look) (o : ObjRef) (value : BitVec 64) : Look × BitVec 64 :=
  (lk.note (.ret o value), value)

/-- The branch of `H_VARRAY`. A NULL `hvalues` is met by the read into it. -/
def resolveVarray (jf : Jdump) (lk : Look) (o : ObjRef) (c : ClassRef) :
    Except Stop (Look × BitVec 64) :=
  let ho := jf.hobject o
  let hvalues := if maxCount 8 ≤ ho.count.toNat then Hvalues.null else .bytes []
  let lk := lk.setObj o { lk.objects o with hvalues := hvalues }
  if ho.count = 0 then .ok (lk.leave o 0)
  else
    match xclassId ho.classId (jf.cinfo c).name (lk.objects o).xclassId with
    | none => .error .null
    | some xclass =>
      let lk := lk.setObj o { lk.objects o with xclassId := xclass }
      let kind := arrayKind xclass ho.classId
      let size := varraySize kind ho.count
      match elementCase kind with
      | some (width, true) =>
        if maxCount 8 ≤ ho.count.toNat then .error .nomem
        else
          let (data, f) := (jf.fin.seekSet ho.fpos).fread (width * ho.count.toNat)
          let lk := lk.setObj o { lk.objects o with hvalues := .bytes data }
          let lk := { lk with pos := f.pos }.note (.touch f.pos)
          .ok ((lk.settle o c size).leave o size)
      | _ =>
        let lk := { lk with pos := ho.fpos }.note (.touch ho.fpos)
        .ok ((lk.settle o c size).leave o size)

/-- The reading loop of an object array: slots from `i` on, with `n` to go. -/
def readElements (jf : Jdump) (o : ObjRef) : Nat → Nat → Nat → List (BitVec 64) × Nat
  | 0, _, pos => ([], pos)
  | n + 1, i, pos =>
    let (ident, f) := readIdentOver jf.identsz (jf.unread o i) (jf.fin.seekSet pos)
    let (rest, pos) := readElements jf o n (i + 1) f.pos
    (ident :: rest, pos)

/-- `(ho->hvalues + i)->ident` -/
def Hvalues.identAt (hvalues : Hvalues) (i : Nat) : Option (BitVec 64) :=
  match hvalues with
  | .values slots => match slots[i]? with
    | some (.ident ident) => some ident
    | _ => none
  | _ => none

/-- What is done with a reference once it has been read; an identifier `hTable` does
not know is passed over. -/
def followRef (visit : Look → ObjRef → Except Stop (Look × BitVec 64)) (jf : Jdump) (lk : Look)
    (o : ObjRef) (ident : BitVec 64) : Except Stop Look :=
  match jf.hTable.lookup32 (key ident) with
  | none => .ok lk
  | some dref =>
    match visit lk dref with
    | .error stop => .error stop
    | .ok (lk, size) =>
      let ho := lk.objects o
      arcAdd jf (lk.setObj o { ho with csize := ho.csize + size }) o dref 1

/-- The second loop of an object array, at index `i` with `n` elements to go. -/
def elementLoop (visit : Look → ObjRef → Except Stop (Look × BitVec 64)) (jf : Jdump)
    (o : ObjRef) : Nat → Nat → Look → Except Stop Look
  | 0, _, lk => .ok lk
  | n + 1, i, lk =>
    match (lk.objects o).hvalues.identAt i with
    | none => .error .null
    | some ident =>
      match followRef visit jf lk o ident with
      | .error stop => .error stop
      | .ok lk => elementLoop visit jf o n (i + 1) lk

/-- The branch of `H_OARRAY`. -/
def resolveOarray (visit : Look → ObjRef → Except Stop (Look × BitVec 64)) (jf : Jdump)
    (lk : Look) (o : ObjRef) (c : ClassRef) : Except Stop (Look × BitVec 64) :=
  let ho := jf.hobject o
  if ho.count = 0 then .ok (lk.leave o 0)
  else if maxCount 8 ≤ ho.count.toNat then .error .nomem
  else
    let (idents, pos) := readElements jf o ho.count.toNat 0 ho.fpos
    let lk := lk.setObj o { lk.objects o with hvalues := .values (idents.map .ident) }
    let lk := { lk with pos := pos }.note (.touch pos)
    match elementLoop visit jf o ho.count.toNat 0 lk with
    | .error stop => .error stop
    | .ok lk =>
      let lk := lk.settle o c (oarraySize jf.identsz ho.count)
      .ok (lk.leave o ((lk.objects o).osize + (lk.objects o).csize))

/-- One case of the switch over field types: what it stores, if anything, what it adds
to `size`, and where it leaves the file. -/
structure FieldRead where
  stored : Option Hvalue
  size : Nat
  pos : Nat

/-- There is no case for `F` and `D`. -/
def readField (jf : Jdump) (o : ObjRef) (i : Nat) (ftype : Byte) (pos : Nat) : FieldRead :=
  let f := jf.fin.seekSet pos
  if ftype = chr '[' ∨ ftype = chr 'L' then
    let (ident, f) := readIdentOver jf.identsz (jf.unread o i) f
    ⟨some (.ident ident), jf.identsz.size, f.pos⟩
  else if ftype = chr 'Z' ∨ ftype = chr 'B' then
    let (ch, f) := f.getc
    ⟨some (.b (uchar ch)), 1, f.pos⟩
  else if ftype = chr 'S' ∨ ftype = chr 'C' then
    let (c, f) := readUshort f
    ⟨c.map .c, 2, f.pos⟩
  else if ftype = chr 'I' then
    let (i, f) := readUint f
    ⟨i.map .i, 4, f.pos⟩
  else if ftype = chr 'J' then
    let (j, f) := readUlong f
    ⟨j.map .j, 8, f.pos⟩
  else ⟨none, 0, pos⟩

/-- The assignment through `ho->hvalues + i`. -/
def storeSlot (lk : Look) (o : ObjRef) (i : Nat) (stored : Option Hvalue) : Except Stop Look :=
  match stored with
  | none => .ok lk
  | some value =>
    match (lk.objects o).hvalues with
    | .values slots =>
      if i < slots.length then
        .ok (lk.setObj o { lk.objects o with hvalues := .values (slots.set i value) })
      else .error .nomem
    | _ => .error .nomem

/-- Only the case of the reference types goes on after the assignment. -/
def followStored (visit : Look → ObjRef → Except Stop (Look × BitVec 64)) (jf : Jdump) (lk : Look)
    (o : ObjRef) (stored : Option Hvalue) : Except Stop Look :=
  match stored with
  | some (.ident ident) => followRef visit jf lk o ident
  | _ => .ok lk

/-- The field loop, at index `i` with `n` fields to go. -/
def fieldLoop (visit : Look → ObjRef → Except Stop (Look × BitVec 64)) (jf : Jdump)
    (o : ObjRef) (c : ClassRef) : Nat → Nat → BitVec 64 → Look → Except Stop (Look × BitVec 64)
  | 0, _, size, lk => .ok (lk, size)
  | n + 1, i, size, lk =>
    match (lk.classes c).values[i]? with
    | some ⟨some info, _⟩ =>
      let field := readField jf o i info.ftype ((jf.hobject o).fpos + info.offset)
      let lk := { lk with pos := field.pos }.note (.touch field.pos)
      match storeSlot lk o i field.stored with
      | .error stop => .error stop
      | .ok lk =>
        match followStored visit jf lk o field.stored with
        | .error stop => .error stop
        | .ok lk => fieldLoop visit jf o c n (i + 1) (size + BitVec.ofNat 64 field.size) lk
    | _ => .error .null

/-- `talloc_array(ho, union hvalue, ci->tfields)`, whose count is unsigned. -/
def instanceSlots (tfields : Int) (old : Hvalues) : Hvalues :=
  if tfields = 0 then old
  else if maxCount 8 ≤ (unsigned tfields).toNat then .null
  else .values (List.replicate tfields.toNat .unset)

/-- The rest of `resolveInstance`, for `H_INSTANCE`. -/
def resolveFields (visit : Look → ObjRef → Except Stop (Look × BitVec 64)) (jf : Jdump)
    (lk : Look) (o : ObjRef) (c : ClassRef) : Except Stop (Look × BitVec 64) :=
  let tfields := (lk.classes c).tfields
  let ho := lk.objects o
  let lk := lk.setObj o { ho with hvalues := instanceSlots tfields ho.hvalues }
  match fieldLoop visit jf o c tfields.toNat 0 0 lk with
  | .error stop => .error stop
  | .ok (lk, size) =>
    let lk := lk.settle o c size
    .ok (lk.leave o ((lk.objects o).osize + (lk.objects o).csize))

def resolveInstance (jf : Jdump) : Nat → Look → ObjRef → Except Stop (Look × BitVec 64)
  | 0, _, _ => .error .fuel
  | fuel + 1, lk, o =>
    let ho := lk.objects o
    if ho.resolved then .ok (lk.leave o (ho.osize + ho.csize))
    else
      let lk := (lk.setObj o { ho with resolved := true }).note (.enter o)
      match jf.cTable.lookup32 (key (jf.hobject o).classId) with
      | none => .error .null
      | some c =>
        let laid := if (lk.classes c).resolved then .ok lk else resolveClassNode jf (fuel + 1) lk c
        match laid with
        | .error stop => .error stop
        | .ok lk =>
          match (jf.hobject o).htype with
          | .hVarray => resolveVarray jf lk o c
          | .hOarray => resolveOarray (resolveInstance jf fuel) jf lk o c
          | .hInstance => resolveFields (resolveInstance jf fuel) jf lk o c

/-- The objects of a table in the order an in-order traversal visits them. -/
def Jdump.stored (jf : Jdump) : List ObjRef := jf.hTable.toList.map Prod.snd

/-- Outermost calls on a list of objects. -/
def resolveAll (jf : Jdump) (fuel : Nat) : List ObjRef → Look → Except Stop Look
  | [], lk => .ok lk
  | o :: os, lk =>
    match resolveInstance jf fuel lk o with
    | .error stop => .error stop
    | .ok (lk, _) => resolveAll jf fuel os lk

def resolveInstances (jf : Jdump) (fuel : Nat) (lk : Look) : Except Stop Look :=
  resolveAll jf fuel jf.stored lk

end Phat
