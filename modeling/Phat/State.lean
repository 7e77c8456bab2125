import Phat.Crc32
import Phat.Foundation.Store
import Phat.Rbtree
import Phat.Stream

/-! The records of phat.c that reading a dump fills, and the tables over them. The
members that only the resolver and the printer assign are in `Phat.Look`: no reader
looks at them, and a record is never freed, so each half keeps its own contents. -/
namespace Phat

/-- The bytes of a string before its terminating zero. -/
abbrev CString := List Byte

/-- Addresses of `cinfo` and `hobject` records. -/
abbrev ClassRef := Nat
abbrev ObjRef := Nat

/-- Ways the program ends early. `fuel` is no end of the program: the bound given to
the model was too small. -/
inductive Stop where
  | fuel
  | null
  | nomem
  | exit (status : Nat)
deriving DecidableEq

/-- `talloc_array` and `talloc_zero_array` return NULL from this count on. -/
def maxCount (elSize : Nat) : Nat := 0x7FFFFFFF / elSize

/-- `(long) ident` passed as the `uint32_t` key of a tree. -/
def key (ident : BitVec 64) : Key := ident.setWidth 32

/-- `union hvalue`, by the member last stored. -/
inductive Hvalue where
  | ident (value : BitVec 64)
  | b (value : Byte)
  | c (value : BitVec 16)
  | i (value : BitVec 32)
  | j (value : BitVec 64)
  | f
  | d
  | unset
deriving DecidableEq

/-- A static of a class: the members of its `hobject` that `readClass` assigns. -/
structure Static where
  instId : BitVec 64
  htype : Byte
  hvalue : Hvalue
deriving DecidableEq

/-- `finfo` as `readClass` fills it. -/
structure FieldDecl where
  ident : BitVec 64
  ftype : Byte
deriving DecidableEq

/-- `block` tells which allocation `fields` points to. -/
structure Cinfo where
  ident : BitVec 64
  nident : BitVec 64
  name : Option CString
  count : Nat
  superId : BitVec 64
  loaderId : BitVec 64
  signerId : BitVec 64
  domainId : BitVec 64
  cstats : BitVec 16
  cfields : BitVec 16
  statics : List Static
  fields : List FieldDecl
  block : Nat
deriving DecidableEq

inductive HType where
  | hInstance
  | hVarray
  | hOarray
deriving DecidableEq

structure Hobject where
  htype : HType
  instId : BitVec 64
  classId : BitVec 64
  fpos : Nat
  count : BitVec 32
  size : Nat
deriving DecidableEq

inductive RootType where
  | nativeStatic
  | nativeLocal
  | javaLocal
  | nativeStack
  | systemClass
  | threadBlock
deriving DecidableEq

/-- Entries of `roots`: an `rinfo` with its constant `ref` and `desc`, or the `int`
stored for a busy monitor. -/
inductive Root where
  | rinfo (ident ref : BitVec 64) (rtype : RootType) (desc : CString)
  | monitor (id : BitVec 32)
deriving DecidableEq

/-- What has been recorded so far; no function reads it back. `raw` is the identifier
as it stands in the file, before any reader has decoded it; an invented class is recorded
with the identifiers its name and itself are entered under. -/
inductive Event where
  | record (pos : Nat) (tag : Byte)
  | sub (pos : Nat) (left : BitVec 32)
  | string (raw : BitVec 64) (text : CString)
  | load (raw : BitVec 64) (c : ClassRef)
  | invent (c : ClassRef) (nameId fakeId : BitVec 64)
  | object (raw : BitVec 64) (o : ObjRef) (c : ClassRef)
deriving DecidableEq

/-- `struct jdump` with the counter `fakeClass`. `unread` is what slot `i` of object
`o` is left with when the resolver's read into it fails. -/
structure Jdump where
  fin : FILE
  fVersion : Nat
  identsz : IdentSize
  sbTable : Table CString
  cTable : Table ClassRef
  hTable : Table ObjRef
  rcTable : Table ClassRef
  scTable : Table ClassRef
  roots : Table Root
  javaLangString : Option ClassRef
  fclass : Option CString
  plimit : Int
  cinfos : Store Cinfo
  hobjects : Store Hobject
  fakeClass : Nat
  unread : ObjRef → Nat → BitVec 64
  log : List Event

namespace Jdump

abbrev cinfo (jf : Jdump) (c : ClassRef) : Cinfo := jf.cinfos.get c

abbrev hobject (jf : Jdump) (o : ObjRef) : Hobject := jf.hobjects.get o

def note (jf : Jdump) (event : Event) : Jdump := { jf with log := event :: jf.log }

/-- `mkcinfo`; it also clears `tfields` and `resolved`, see `ClassLook.fresh`. -/
def mkcinfo (jf : Jdump) (cid nid : BitVec 64) (name : Option CString) : ClassRef × Jdump :=
  (jf.cinfos.next, { jf with cinfos := jf.cinfos.alloc fun ci =>
    { ci with ident := cid, nident := nid, name := name, count := 0 } })

/-- `makeObj`; it also clears `resolved`, `visit`, `csize` and `xclassId`, see
`ObjLook.fresh`. -/
def makeObj (jf : Jdump) (ht : HType) (iid cid : BitVec 64) : ObjRef × Jdump :=
  (jf.hobjects.next, { jf with hobjects := jf.hobjects.alloc fun ho =>
    { ho with htype := ht, classId := cid, instId := iid, fpos := 0, size := 0 } })

def modifyObj (jf : Jdump) (o : ObjRef) (f : Hobject → Hobject) : Jdump :=
  { jf with hobjects := jf.hobjects.modify o f }

def modifyClass (jf : Jdump) (c : ClassRef) (f : Cinfo → Cinfo) : Jdump :=
  { jf with cinfos := jf.cinfos.modify c f }

/-- `findClass` -/
def findClass (jf : Jdump) (cname : CString) : Option ClassRef :=
  jf.rcTable.lookup32 (Crc32.crc32 cname)

end Jdump

/-- The identifier at the current position as the format spells it; where the file
ends inside it there is none, and the reader's result takes its place. -/
def rawIdent (identsz : IdentSize) (f : FILE) : BitVec 64 :=
  if f.pos + identsz.size ≤ f.bytes.length then
    BitVec.ofNat 64 (BigEndian.number (f.ahead identsz.size))
  else (readIdent identsz f).1

end Phat
