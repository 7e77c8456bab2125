import Phat.State

/-! Reading a heap dump segment: `readValue`, `readClass`, `readArray` and the loop of
`readHeap`. Diagnostics printed under `debug` and the summary printed at the end are
left out; the counters the summary prints are kept. -/
namespace Phat

/-- The unsigned `hsize` of the readers. `wrapped` is not in the program: it records
that some subtraction went below zero. -/
structure Count where
  left : BitVec 32
  wrapped : Bool
deriving DecidableEq

def Count.sub (hsize : Count) (n : BitVec 32) : Count :=
  ⟨hsize.left - n, hsize.wrapped || decide (hsize.left < n)⟩

/-- Conversion of an `int` to `unsigned`. -/
def unsigned (n : Int) : BitVec 32 := BitVec.ofInt 32 n

def IdentSize.width (identsz : IdentSize) : BitVec 32 := BitVec.ofNat 32 identsz.size

def sigFromType (otype : Byte) : Byte :=
  match otype.toNat with
  | 2 => chr 'L'
  | 4 => chr 'Z'
  | 5 => chr 'C'
  | 6 => chr 'F'
  | 7 => chr 'D'
  | 8 => chr 'B'
  | 9 => chr 'S'
  | 10 => chr 'I'
  | 11 => chr 'J'
  | _ => chr 'U'

/-- What `readValue` returns and stores. -/
structure Value where
  rc : Int
  htype : Byte
  hvalue : Hvalue

/-- The switch of `readValue`. -/
def readTyped (identsz : IdentSize) (htype : Byte) (f : FILE) : Value × FILE :=
  if htype = chr '[' ∨ htype = chr 'L' then
    let (ident, f) := readIdent identsz f
    (⟨identsz.size, htype, .ident ident⟩, f)
  else if htype = chr 'Z' then
    let (ch, f) := f.getc
    let b := uchar ch
    (⟨if b ≠ 0 ∧ b ≠ 1 then -1 else 1, htype, .b b⟩, f)
  else if htype = chr 'B' then
    let (ch, f) := f.getc
    (⟨1, htype, .b (uchar ch)⟩, f)
  else if htype = chr 'S' ∨ htype = chr 'C' then
    let (c, f) := readUshortLocal f
    (⟨2, htype, .c c⟩, f)
  else if htype = chr 'I' then
    let (i, f) := readUintLocal f
    (⟨4, htype, .i i⟩, f)
  else if htype = chr 'J' then
    let (j, f') := readUlong f
    (⟨8, htype, .j (j.getD f.old)⟩, f'.used)
  else if htype = chr 'F' then (⟨4, htype, .f⟩, f.seekCur 4)
  else if htype = chr 'D' then (⟨8, htype, .d⟩, f.seekCur 8)
  else (⟨0, htype, .unset⟩, f)

def readValue (fVersion : Nat) (identsz : IdentSize) (f : FILE) : Value × FILE :=
  let (ch, f) := f.getc
  readTyped identsz (if 1 ≤ fVersion then sigFromType (uchar ch) else uchar ch) f

/-- The constant pool loop of `readClass`, with `n` entries to go. -/
def readPool (fVersion : Nat) (identsz : IdentSize) : Nat → FILE → Count → FILE × Count
  | 0, f, hsize => (f, hsize)
  | n + 1, f, hsize =>
    let (_, f) := readUshortLocal f
    let hsize := hsize.sub 2
    let (value, f) := readValue fVersion identsz f
    readPool fVersion identsz n f (hsize.sub (unsigned value.rc))

def readStatics (fVersion : Nat) (identsz : IdentSize) :
    Nat → FILE → Count → List Static × FILE × Count
  | 0, f, hsize => ([], f, hsize)
  | n + 1, f, hsize =>
    let (instId, f) := readIdent identsz f
    let hsize := hsize.sub identsz.width
    let (value, f) := readValue fVersion identsz f
    let hsize := hsize.sub (unsigned (1 + value.rc))
    let (rest, f, hsize) := readStatics fVersion identsz n f hsize
    (⟨instId, value.htype, value.hvalue⟩ :: rest, f, hsize)

def readFields (fVersion : Nat) (identsz : IdentSize) :
    Nat → FILE → Count → List FieldDecl × FILE × Count
  | 0, f, hsize => ([], f, hsize)
  | n + 1, f, hsize =>
    let (ident, f) := readIdent identsz f
    let (ch, f) := f.getc
    let ftype := if 1 ≤ fVersion then sigFromType (uchar ch) else uchar ch
    let hsize := hsize.sub (1 + identsz.width)
    let (rest, f, hsize) := readFields fVersion identsz n f hsize
    (⟨ident, ftype⟩ :: rest, f, hsize)

/-- The members of a class record that the fixed part of a class dump assigns. -/
structure ClassHeader where
  superId : BitVec 64
  loaderId : BitVec 64
  signerId : BitVec 64
  domainId : BitVec 64

/-- `stackId`, the six identifiers and `instsz`. -/
def readClassHeader (identsz : IdentSize) (f : FILE) : ClassHeader × FILE :=
  let (_, f) := readUintLocal f
  let (superId, f) := readIdent identsz f
  let (loaderId, f) := readIdent identsz f
  let (signerId, f) := readIdent identsz f
  let (domainId, f) := readIdent identsz f
  let (_, f) := readIdent identsz f
  let (_, f) := readIdent identsz f
  let (_, f) := readUintLocal f
  (⟨superId, loaderId, signerId, domainId⟩, f)

/-- The three variable lists of a class dump. `cstats` and `cfields` keep their old
value when the read into them fails, and an empty list leaves the old array. -/
def readClassLists (fVersion : Nat) (identsz : IdentSize) (ci : Cinfo) (f : FILE)
    (hsize : Count) : Cinfo × FILE × Count :=
  let (cpool, f) := readUshortLocal f
  let hsize := hsize.sub 2
  let (f, hsize) := readPool fVersion identsz cpool.toNat f hsize
  let (cstats, f) := readUshort f
  let cstats := cstats.getD ci.cstats
  let hsize := hsize.sub 2
  let (statics, f, hsize) := readStatics fVersion identsz cstats.toNat f hsize
  let (cfields, f) := readUshort f
  let cfields := cfields.getD ci.cfields
  let hsize := hsize.sub 2
  let (fields, f, hsize) := readFields fVersion identsz cfields.toNat f hsize
  ({ ci with
      cstats := cstats
      statics := if 0 < cstats.toNat then statics else ci.statics
      cfields := cfields
      fields := if 0 < cfields.toNat then fields else ci.fields
      block := if 0 < cfields.toNat then ci.block + 1 else ci.block }, f, hsize)

def readClass (jf : Jdump) (hsize : Count) : Except Stop (Jdump × Count) :=
  let (ident, f) := readIdent jf.identsz jf.fin
  match jf.cTable.lookup32 (key ident) with
  | none => .error .null
  | some c =>
    let (header, f) := readClassHeader jf.identsz f
    let hsize := hsize.sub (7 * jf.identsz.width + 8)
    let ci := { jf.cinfo c with
      superId := header.superId
      loaderId := header.loaderId
      signerId := header.signerId
      domainId := header.domainId }
    let (ci, f, hsize) := readClassLists jf.fVersion jf.identsz ci f hsize
    .ok ({ jf.modifyClass c fun _ => ci with fin := f }, hsize)

/-- Element signature and size by type code; other codes leave `primSig` zero. -/
def primType (elemClassId : BitVec 64) : Option (Byte × Nat) :=
  match elemClassId.toNat with
  | 4 => some (chr 'Z', 1)
  | 5 => some (chr 'C', 2)
  | 6 => some (chr 'F', 4)
  | 7 => some (chr 'D', 8)
  | 8 => some (chr 'B', 1)
  | 9 => some (chr 'S', 2)
  | 10 => some (chr 'I', 4)
  | 11 => some (chr 'J', 8)
  | _ => none

/-- The class of an array, invented when `findClass` fails: `mkcinfo` is given the
value of `fakeClass` before its increment, `trbt_insert32` the one after it. -/
def arrayClass (jf : Jdump) (cname : CString) (elemClassId : BitVec 64) : ClassRef × Jdump :=
  match jf.findClass cname with
  | some c => (c, jf)
  | none =>
    let (c, jf) := jf.mkcinfo (BitVec.ofNat 64 jf.fakeClass) elemClassId (some cname)
    let jf := { jf with fakeClass := jf.fakeClass + 1 }
    let fakeId := BitVec.ofNat 64 jf.fakeClass
    (c, { jf with
      sbTable := jf.sbTable.insert32 (key elemClassId) cname
      cTable := jf.cTable.insert32 (key fakeId) c
      rcTable := jf.rcTable.insert32 (Crc32.crc32 cname) c }.note (.invent c elemClassId fakeId))

/-- The end of both branches of `readArray`. `raw` is recorded only. -/
def storeArray (jf : Jdump) (ht : HType) (raw ide : BitVec 64) (c : ClassRef) (elsz : Nat)
    (isz : BitVec 32) : Jdump :=
  let (o, jf) := jf.makeObj ht ide (jf.cinfo c).ident
  let jf := jf.modifyObj o fun ho => { ho with fpos := jf.fin.pos, size := elsz, count := isz }
  let jf := { jf with fin := jf.fin.seekCur (BitVec.ofNat 32 elsz * isz).toNat }
  { jf with hTable := jf.hTable.insert32 (key ide) o }.note (.object raw o c)

def readArray (jf : Jdump) (hsize : Count) (prim : Bool) : Except Stop (Jdump × Count) :=
  let raw := rawIdent jf.identsz jf.fin
  let (ide, f) := readIdent jf.identsz jf.fin
  let (_, f) := readUintLocal f
  let (isz, f) := readUintLocal f
  let hsize := hsize.sub (8 + jf.identsz.width)
  let ((elemClassId, f), hsize) :=
    if prim then
      let (ch, f) := f.getc
      ((BitVec.ofInt 64 ch, f), hsize.sub 1)
    else (readIdent jf.identsz f, hsize.sub jf.identsz.width)
  let jf := { jf with fin := f }
  match if prim then primType elemClassId else none with
  | some (primSig, elsz) =>
    let (c, jf) := arrayClass jf [chr '[', primSig] elemClassId
    let hsize := hsize.sub (BitVec.ofNat 32 elsz * isz)
    .ok (storeArray jf .hVarray raw ide c elsz isz, hsize)
  | none =>
    match jf.cTable.lookup32 (key elemClassId) with
    | none => .error .null
    | some ci =>
      match (jf.cinfo ci).name with
      | none => .error .null
      | some cname =>
        -- the copy of the name, which `strcat` would write through the NULL for
        if maxCount 1 ≤ 2 + cname.length then .error .nomem
        else
          let (c, jf') := arrayClass jf cname elemClassId
          let hsize := hsize.sub (jf.identsz.width * isz)
          .ok (storeArray jf' .hOarray raw ide c jf.identsz.size isz, hsize)

/-- The counters of `readHeap`. -/
structure Summary where
  roott : Nat
  rootg : Nat
  rootl : Nat
  frame : Nat
  stack : Nat
  sclass : Nat
  tblock : Nat
  monitor : Nat
  cclass : Nat
  inst : Nat
  oarr : Nat
  parr : Nat
deriving DecidableEq

def Summary.zero : Summary := ⟨0, 0, 0, 0, 0, 0, 0, 0, 0, 0, 0, 0⟩

/-- A GC root record: the identifiers and 4-byte words it consists of, the entry made
in `roots` under the first identifier, and the counter it advances. -/
structure RootKind where
  idents : Nat
  words : Nat
  entry : Option (BitVec 64 → Root)
  tally : Summary → Summary

def mkrinfo (rtype : RootType) (id : BitVec 64) : Root := .rinfo id 0 rtype []

def rootUnknown : RootKind := ⟨1, 0, none, fun s => s⟩

def rootThreadObj : RootKind := ⟨1, 2, none, fun s => { s with roott := s.roott + 1 }⟩

def rootJniGlobal : RootKind :=
  ⟨2, 0, some (mkrinfo .nativeStatic), fun s => { s with rootg := s.rootg + 1 }⟩

def rootJniLocal : RootKind :=
  ⟨1, 2, some (mkrinfo .nativeLocal), fun s => { s with rootl := s.rootl + 1 }⟩

def rootJavaFrame : RootKind :=
  ⟨1, 2, some (mkrinfo .javaLocal), fun s => { s with frame := s.frame + 1 }⟩

def rootNativeStack : RootKind :=
  ⟨1, 1, some (mkrinfo .nativeStack), fun s => { s with stack := s.stack + 1 }⟩

def rootStickyClass : RootKind :=
  ⟨1, 0, some (mkrinfo .systemClass), fun s => { s with sclass := s.sclass + 1 }⟩

def rootThreadBlock : RootKind :=
  ⟨1, 1, some (mkrinfo .threadBlock), fun s => { s with tblock := s.tblock + 1 }⟩

def rootMonitorUsed : RootKind :=
  ⟨1, 0, some fun id => .monitor (id.setWidth 32), fun s => { s with monitor := s.monitor + 1 }⟩

def rootKind (rtype : Byte) : Option RootKind :=
  match rtype.toNat with
  | 0xff => some rootUnknown
  | 0x08 => some rootThreadObj
  | 0x01 => some rootJniGlobal
  | 0x02 => some rootJniLocal
  | 0x03 => some rootJavaFrame
  | 0x04 => some rootNativeStack
  | 0x05 => some rootStickyClass
  | 0x06 => some rootThreadBlock
  | 0x07 => some rootMonitorUsed
  | _ => none

def readWords : Nat → FILE → FILE
  | 0, f => f
  | n + 1, f => readWords n (readUintLocal f).2

def readIdents (identsz : IdentSize) : Nat → FILE → FILE
  | 0, f => f
  | n + 1, f => readIdents identsz n (readIdent identsz f).2

/-- The body of a root case. All kinds subtract once, after their reads. -/
def readRoot (kind : RootKind) (jf : Jdump) (hsize : Count) : Jdump × Count :=
  let (id, f) := readIdent jf.identsz jf.fin
  let f := readWords kind.words (readIdents jf.identsz (kind.idents - 1) f)
  let hsize := hsize.sub
    (BitVec.ofNat 32 kind.idents * jf.identsz.width + BitVec.ofNat 32 (4 * kind.words))
  let roots := match kind.entry with
    | none => jf.roots
    | some entry => jf.roots.insert32 (key id) (entry id)
  ({ jf with fin := f, roots := roots }, hsize)

/-- `50000 > ci->count || classId == jf->javaLangString->ident`, evaluated in order. -/
def retained (jf : Jdump) (c : ClassRef) (classId : BitVec 64) : Except Stop Bool :=
  if 50000 > (jf.cinfo c).count then .ok true
  else match jf.javaLangString with
    | none => .error .null
    | some string => .ok (decide (classId = (jf.cinfo string).ident))

/-- The case of `HPROF_GC_INSTANCE_DUMP`. -/
def readInstance (jf : Jdump) (hsize : Count) : Except Stop (Jdump × Count) :=
  let raw := rawIdent jf.identsz jf.fin
  let (ide, f) := readIdent jf.identsz jf.fin
  let (_, f) := readUintLocal f
  let (classId, f) := readIdent jf.identsz f
  let (isz, f) := readUintLocal f
  let hsize := hsize.sub (isz + 8 + jf.identsz.width + jf.identsz.width)
  let jf := { jf with fin := f }
  match jf.cTable.lookup32 (key classId) with
  | none => .error .null
  | some c =>
    let jf := jf.modifyClass c fun ci => { ci with count := ci.count + 1 }
    match retained jf c classId with
    | .error stop => .error stop
    | .ok keep =>
      let jf :=
        if keep then
          let (o, jf) := jf.makeObj .hInstance ide classId
          let jf := jf.modifyObj o fun ho => { ho with fpos := jf.fin.pos }
          { jf with hTable := jf.hTable.insert32 (key ide) o }.note (.object raw o c)
        else jf
      .ok ({ jf with fin := jf.fin.seekCur isz.toNat }, hsize)

/-- The `switch` of `readHeap`; `hsize` no longer counts the tag. -/
def heapCase (rtype : Byte) (jf : Jdump) (hsize : Count) (sum : Summary) :
    Except Stop (Jdump × Count × Summary) :=
  match rootKind rtype with
  | some kind =>
    let (jf, hsize) := readRoot kind jf hsize
    .ok (jf, hsize, kind.tally sum)
  | none =>
    match rtype.toNat with
    | 0x20 => (readClass jf hsize).map fun (jf, hsize) =>
        (jf, hsize, { sum with cclass := sum.cclass + 1 })
    | 0x21 => (readInstance jf hsize).map fun (jf, hsize) =>
        (jf, hsize, { sum with inst := sum.inst + 1 })
    | 0x22 => (readArray jf hsize false).map fun (jf, hsize) =>
        (jf, hsize, { sum with oarr := sum.oarr + 1 })
    | 0x23 => (readArray jf hsize true).map fun (jf, hsize) =>
        (jf, hsize, { sum with parr := sum.parr + 1 })
    | _ => .ok ({ jf with fin := jf.fin.seekCur hsize.left.toNat }, { hsize with left := 0 }, sum)

/-- One pass through the loop body, after the condition. -/
def heapStep (rtype : Byte) (jf : Jdump) (hsize : Count) (sum : Summary) :
    Except Stop (Jdump × Count × Summary) :=
  heapCase rtype jf (hsize.sub 1) sum

/-- `while (0 < hsize && EOF != (rtype = getc(jf->fin)))`, where `rtype` is an
`unsigned char`: the comparison promotes it to a non-negative `int`. -/
def heapLoop : Nat → Jdump → Count → Summary → Except Stop (Jdump × Count × Summary)
  | fuel, jf, hsize, sum =>
    if hsize.left = 0 then .ok (jf, hsize, sum)
    else
      let jf := jf.note (.sub jf.fin.pos hsize.left)
      let (ch, f) := jf.fin.getc
      let rtype := uchar ch
      if EOF = (rtype.toNat : Int) then .ok ({ jf with fin := f }, hsize, sum)
      else
        match fuel with
        | 0 => .error .fuel
        | fuel + 1 =>
          match heapStep rtype { jf with fin := f } hsize sum with
          | .error stop => .error stop
          | .ok (jf, hsize, sum) => heapLoop fuel jf hsize sum

/-- `"java/lang/String"` -/
def javaLangStringName : CString :=
  ['j', 'a', 'v', 'a', '/', 'l', 'a', 'n', 'g', '/', 'S', 't', 'r', 'i', 'n', 'g'].map chr

/-- `readHeap` up to the end of its loop. -/
def readSegment (fuel : Nat) (jf : Jdump) (hsize : BitVec 32) :
    Except Stop (Jdump × Count × Summary) :=
  heapLoop fuel { jf with javaLangString := jf.findClass javaLangStringName } ⟨hsize, false⟩
    .zero

end Phat
