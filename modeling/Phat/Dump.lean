import Phat.Print

/-! `readHeap` as a whole and the record loop of `readDump`. -/
namespace Phat

/-- `'\n' == *in || '\r' == *in || 0x20 > *in`, where `*in` is a signed `char`. -/
def special (b : Byte) : Bool := b = chr '\n' ∨ b = chr '\r' ∨ b.toInt < 0x20

def hideSpecials (text : CString) : CString := text.map fun b => if special b then chr '.' else b

/-- The state of the program: what reading fills, what resolving fills, what printing
fills. -/
structure Dump where
  jf : Jdump
  lk : Look
  screen : Screen

/-- The size `talloc_zero_array` is asked for in an `HPROF_UTF8` record. -/
def utf8Count (identsz : IdentSize) (rlen : BitVec 32) : BitVec 32 := 1 + rlen - identsz.width

/-- `slen` -/
def utf8Len (identsz : IdentSize) (rlen : BitVec 32) : BitVec 32 := rlen - identsz.width

/-- `HPROF_UTF8`. A refused buffer is met by `fread`; a negative `slen` makes `fread`
run over a buffer of no bytes. -/
def readUtf8 (jf : Jdump) (rlen : BitVec 32) : Except Stop Jdump :=
  let raw := rawIdent jf.identsz jf.fin
  let (ident, f) := readIdent jf.identsz jf.fin
  if maxCount 1 ≤ (utf8Count jf.identsz rlen).toNat ∨ (utf8Len jf.identsz rlen).toInt < 0 then
    .error .nomem
  else
    let (data, f) := f.fread (utf8Len jf.identsz rlen).toNat
    let usb := hideSpecials (data.takeWhile (· ≠ 0))
    .ok ({ jf with fin := f, sbTable := jf.sbTable.insert32 (key ident) usb }.note
      (.string raw usb))

/-- `HPROF_LOAD_CLASS`. A class without a name is met by `strlen`. -/
def readLoadClass (jf : Jdump) : Except Stop Jdump :=
  let (serial, f) := readUintLocal jf.fin
  let raw := rawIdent jf.identsz f
  let (classId, f) := readIdent jf.identsz f
  let (_, f) := readUintLocal f
  let (classNameId, f) := readIdent jf.identsz f
  match jf.sbTable.lookup32 (key classNameId) with
  | none => .error .null
  | some name =>
    let (c, jf) := { jf with fin := f }.mkcinfo classId classNameId (some name)
    .ok ({ jf with
      cTable := jf.cTable.insert32 (key classId) c
      scTable := jf.scTable.insert32 serial c
      rcTable := jf.rcTable.insert32 (Crc32.crc32 name) c }.note (.load raw c))

/-- `HPROF_FRAME`; what it prints is left out, but not the class it names. -/
def readFrame (jf : Jdump) : Except Stop Jdump :=
  let f := readIdents jf.identsz 4 jf.fin
  let (serial, f) := readUintLocal f
  let (_, f) := readUintLocal f
  match jf.scTable.lookup32 serial with
  | none => .error .null
  | some _ => .ok { jf with fin := f }

/-- `HPROF_TRACE`; `frames` is an `int`. -/
def readTrace (jf : Jdump) : Jdump :=
  let f := readWords 2 jf.fin
  let (frames, f) := readUintLocal f
  { jf with fin := readIdents jf.identsz frames.toInt.toNat f }

/-- What `readHeap` does once its loop has ended. -/
def lookHeap (fuel : Nat) (d : Dump) : Except Stop Dump :=
  match d.jf.fclass with
  | none => .ok d
  | some fclass =>
    let start := { d.lk with pos := d.jf.fin.pos }
    let finish (lk : Look) (screen : Screen) : Dump :=
      { jf := { d.jf with fin := d.jf.fin.seekSet lk.pos }, lk := lk, screen := screen }
    if fclass.head? = some (chr '*') then
      match resolveInstances d.jf fuel start with
      | .error stop => .error stop
      | .ok lk =>
        match printInstances d.jf lk fuel d.screen with
        | .error (stop, _) => .error stop
        | .ok screen => .ok (finish lk screen)
    else
      match d.jf.findClass fclass with
      | none => .ok d
      | some cdata =>
        match collectStats d.jf fuel (d.jf.cinfo cdata).ident start d.screen with
        | .error (stop, _) => .error stop
        | .ok (lk, screen) => .ok (finish lk screen)

def readHeap (fuel : Nat) (d : Dump) (hsize : BitVec 32) : Except Stop Dump :=
  match readSegment fuel d.jf hsize with
  | .error stop => .error stop
  | .ok (jf, _, _) => lookHeap fuel { d with jf := jf }

/-- The cases of the switch of `readDump` other than the heap dump. -/
def readPlain (rtype : Byte) (jf : Jdump) (rlen : BitVec 32) : Except Stop Jdump :=
  match rtype.toNat with
  | 0x01 => readUtf8 jf rlen
  | 0x02 => readLoadClass jf
  | 0x04 => readFrame jf
  | 0x05 => .ok (readTrace jf)
  | _ => .ok { jf with fin := jf.fin.seekCur rlen.toNat }

/-- The tag and the two words before a record's body. Without a tag the loop ends:
`rtype` is a signed `char`, so the byte 255 compares equal to `EOF`. -/
def readTag (jf : Jdump) : Except Stop (Jdump × Option (Byte × BitVec 32)) :=
  let (ch, f) := jf.fin.getc
  let rtype := uchar ch
  if EOF = rtype.toInt then .ok ({ jf with fin := f }, none)
  else
    let jf := jf.note (.record jf.fin.pos rtype)
    match readUint f with
    | (none, _) => .error (.exit 2)
    | (some _, f) =>
      match readUint f with
      | (none, _) => .error (.exit 2)
      | (some rlen, f) => .ok ({ jf with fin := f }, some (rtype, rlen))

/-- `while (EOF != (rtype = getc(df->fin)))` -/
def dumpLoop : Nat → Dump → Except Stop Dump
  | fuel, d =>
    match readTag d.jf with
    | .error stop => .error stop
    | .ok (jf, none) => .ok { d with jf := jf }
    | .ok (jf, some (rtype, rlen)) =>
      match fuel with
      | 0 => .error .fuel
      | fuel + 1 =>
        if rtype.toNat = 0x0c then
          match readHeap fuel { d with jf := jf } rlen with
          | .error stop => .error stop
          | .ok d => dumpLoop fuel d
        else
          match readPlain rtype jf rlen with
          | .error stop => .error stop
          | .ok jf => dumpLoop fuel { d with jf := jf }

/-- What `readDump` has set up before its loop; the records not yet allocated hold
anything. -/
structure Jdump.Opened (jf : Jdump) : Prop where
  sbTable : jf.sbTable = .empty
  cTable : jf.cTable = .empty
  hTable : jf.hTable = .empty
  rcTable : jf.rcTable = .empty
  scTable : jf.scTable = .empty
  roots : jf.roots = .empty
  fakeClass : jf.fakeClass = 1000
  log : jf.log = []

/-- A file of version 1.0.1 opened with every byte of memory zero. -/
def Jdump.start (bytes : List Byte) (identsz : IdentSize) (fclass : Option CString) : Jdump where
  fin := ⟨bytes, 0, fun _ => 0, 0⟩
  fVersion := 1
  identsz := identsz
  sbTable := .empty
  cTable := .empty
  hTable := .empty
  rcTable := .empty
  scTable := .empty
  roots := .empty
  javaLangString := none
  fclass := fclass
  plimit := 0
  cinfos := ⟨0, fun _ => ⟨0, 0, none, 0, 0, 0, 0, 0, 0, 0, [], [], 0⟩⟩
  hobjects := ⟨0, fun _ => ⟨.hInstance, 0, 0, 0, 0, 0⟩⟩
  fakeClass := 1000
  unread := fun _ _ => 0
  log := []

def Dump.start (bytes : List Byte) (identsz : IdentSize) (fclass : Option CString) : Dump :=
  ⟨.start bytes identsz fclass, .zero, ⟨fun _ => false, []⟩⟩

theorem Jdump.start_opened (bytes : List Byte) (identsz : IdentSize) (fclass : Option CString) :
    (Jdump.start bytes identsz fclass).Opened :=
  ⟨rfl, rfl, rfl, rfl, rfl, rfl, rfl, rfl⟩

end Phat
