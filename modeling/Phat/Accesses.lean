import Phat.Machine

/-! The accesses to class records that the program makes, in the order it makes them:
what `readClass` assigns, and what `resolveSClassSize`, `getSuperClass`,
`resolveClassNode`, `arc_lookup` and `arc_add` read and assign. A record comes from
`talloc`, so a member no access has assigned holds whatever the memory there held. Each
function here goes through one function of the program and takes from it the states
between the accesses; reads of one member in a row are listed once. -/
namespace Phat

/-- The members of a class record that a class dump or a link assigns. -/
inductive Member where
  | superId
  | cstats
  | statics
  | cfields
  | fields
  | children
  | parents
deriving DecidableEq

inductive Access where
  | assign (c : ClassRef) (member : Member)
  | read (c : ClassRef) (member : Member)
deriving DecidableEq

/-- No member is read before it has been assigned. -/
def AssignedFirst (accesses : List Access) : Prop :=
  ∀ before c member after, accesses = before ++ .read c member :: after →
    .assign c member ∈ before

namespace Jdump

/-- `resolveSClassSize`. The order of its last two operands is the compiler's. -/
def sizeAccesses (jf : Jdump) : Nat → ClassRef → List Access
  | 0, _ => []
  | fuel + 1, c =>
    .read c .superId ::
      if (jf.cinfo c).superId = 0 then []
      else
        .read c .cfields ::
          match jf.getSuperClass c with
          | none => []
          | some super => jf.sizeAccesses fuel super

/-- `while (fieldNo >= cc->cfields)` -/
def seekAccesses (jf : Jdump) : Nat → ClassRef → Nat → List Access
  | 0, _, _ => []
  | fuel + 1, cc, fieldNo =>
    .read cc .cfields ::
      if fieldNo < (jf.cinfo cc).cfields.toNat then []
      else
        .read cc .superId ::
          match jf.getSuperClass cc with
          | none => []
          | some super => .read super .cfields :: jf.seekAccesses fuel super 0

end Jdump

/-- The field loop of `resolveClassNode`. -/
def fillAccesses (jf : Jdump) (fuel : Nat) (ci : ClassRef) :
    Nat → ClassRef → Nat → Int → Nat → Look → List Access
  | 0, _, _, _, _, _ => []
  | n + 1, cc, fieldNo, target, index, lk =>
    jf.seekAccesses fuel cc fieldNo ++
      match jf.seekField fuel cc fieldNo target with
      | .error _ => []
      | .ok (cc, fieldNo, target) =>
        .read cc .fields ::
          match (jf.cinfo cc).fields[fieldNo]? with
          | none => []
          | some decl =>
            let field := layoutField jf lk ci cc fieldNo decl index
            match storeValue (lk.classes ci).values (target + fieldNo) field with
            | .error _ => []
            | .ok values =>
              let look := assignOwn jf lk ci cc fieldNo field
              fillAccesses jf fuel ci n cc (fieldNo + 1) target
                (index + fieldSize jf.identsz decl.ftype)
                (lk.setClass ci { look with values := values })

/-- The part after the superclass. An array that is refused has no slots: the first
store through it ends the loop. -/
def layAccesses (jf : Jdump) (fuel : Nat) (lk : Look) (c : ClassRef) (tfields : Int) :
    List Access :=
  if 0 < tfields then
    let values := if maxCount 8 ≤ tfields.toNat then [] else List.replicate tfields.toNat ⟨none, 0⟩
    let lk := lk.setClass c { lk.classes c with values := values }
    .read c .cfields :: fillAccesses jf fuel c tfields.toNat c 0
      (tfields - (jf.cinfo c).cfields.toNat) 0 lk
  else []

/-- `for (i = 0; i < ci->cstats; i++)`, with `n` iterations to go. -/
def staticsAccesses (c : ClassRef) : Nat → List Access
  | 0 => [.read c .cstats]
  | n + 1 => .read c .cstats :: .read c .statics :: staticsAccesses c n

/-- `resolveClassNode` -/
def nodeAccesses (jf : Jdump) : Nat → Look → ClassRef → List Access
  | 0, _, _ => []
  | fuel + 1, lk, c =>
    if (lk.classes c).resolved then []
    else
      jf.sizeAccesses (fuel + 1) c ++
        match jf.resolveSClassSize (fuel + 1) c with
        | .error _ => []
        | .ok tfields =>
          let lk := lk.setClass c { lk.classes c with tfields := tfields }
          let lk := lk.setClass c (resolveStatics (lk.classes c) (jf.cinfo c).cstats.toNat)
          staticsAccesses c (jf.cinfo c).cstats.toNat ++ .read c .superId ::
            match jf.getSuperClass c with
            | none => layAccesses jf (fuel + 1) lk c tfields
            | some super => nodeAccesses jf fuel lk super ++
              match resolveClassNode jf fuel lk super with
              | .error _ => []
              | .ok lk => layAccesses jf (fuel + 1) lk c tfields

/-- `arc_add`, with `arc_lookup`, which returns at once where either class is NULL. -/
def arcAccesses (jf : Jdump) (lk : Look) (hop hoc : ObjRef) : List Access :=
  match jf.cTable.lookup32 (key (jf.hobject hop).classId),
      jf.cTable.lookup32 (key (jf.hobject hoc).classId) with
  | some parent, some child =>
    .read parent .children ::
      match arcLookup lk parent child with
      | some _ => []
      | none => [.read parent .children, .assign parent .children, .read child .parents,
          .assign child .parents]
  | some parent, none => [.read parent .children, .assign parent .children]
  | none, _ => []

/-- The calls through which the resolver comes to class records. -/
inductive Call where
  | node (fuel : Nat) (lk : Look) (c : ClassRef)
  | arc (lk : Look) (hop hoc : ObjRef)

def Call.accesses (jf : Jdump) : Call → List Access
  | .node fuel lk c => nodeAccesses jf fuel lk c
  | .arc lk hop hoc => arcAccesses jf lk hop hoc

section Calls
variable (visit : Look → ObjRef → Except Stop (Look × BitVec 64))
  (calls : Look → ObjRef → List Call) (jf : Jdump) (o : ObjRef)

def followCalls (lk : Look) (ident : BitVec 64) : List Call :=
  match jf.hTable.lookup32 (key ident) with
  | none => []
  | some dref =>
    calls lk dref ++
      match visit lk dref with
      | .error _ => []
      | .ok (lk, size) =>
        let ho := lk.objects o
        [.arc (lk.setObj o { ho with csize := ho.csize + size }) o dref]

def elementCalls : Nat → Nat → Look → List Call
  | 0, _, _ => []
  | n + 1, i, lk =>
    match (lk.objects o).hvalues.identAt i with
    | none => []
    | some ident =>
      followCalls visit calls jf o lk ident ++
        match followRef visit jf lk o ident with
        | .error _ => []
        | .ok lk => elementCalls n (i + 1) lk

def oarrayCalls (lk : Look) : List Call :=
  let ho := jf.hobject o
  if ho.count = 0 then []
  else if maxCount 8 ≤ ho.count.toNat then []
  else
    let (idents, pos) := readElements jf o ho.count.toNat 0 ho.fpos
    let lk := lk.setObj o { lk.objects o with hvalues := .values (idents.map .ident) }
    let lk := { lk with pos := pos }.note (.touch pos)
    elementCalls visit calls jf o ho.count.toNat 0 lk

def storedCalls (lk : Look) (stored : Option Hvalue) : List Call :=
  match stored with
  | some (.ident ident) => followCalls visit calls jf o lk ident
  | _ => []

def fieldCalls (c : ClassRef) : Nat → Nat → Look → List Call
  | 0, _, _ => []
  | n + 1, i, lk =>
    match (lk.classes c).values[i]? with
    | some ⟨some info, _⟩ =>
      let field := readField jf o i info.ftype ((jf.hobject o).fpos + info.offset)
      let lk := { lk with pos := field.pos }.note (.touch field.pos)
      match storeSlot lk o i field.stored with
      | .error _ => []
      | .ok lk =>
        storedCalls visit calls jf o lk field.stored ++
          match followStored visit jf lk o field.stored with
          | .error _ => []
          | .ok lk => fieldCalls c n (i + 1) lk
    | _ => []

def instanceFieldCalls (lk : Look) (c : ClassRef) : List Call :=
  let tfields := (lk.classes c).tfields
  let ho := lk.objects o
  let lk := lk.setObj o { ho with hvalues := instanceSlots tfields ho.hvalues }
  fieldCalls visit calls jf o c tfields.toNat 0 lk

end Calls

/-- `resolveInstance` -/
def instanceCalls (jf : Jdump) : Nat → Look → ObjRef → List Call
  | 0, _, _ => []
  | fuel + 1, lk, o =>
    let ho := lk.objects o
    if ho.resolved then []
    else
      let lk := (lk.setObj o { ho with resolved := true }).note (.enter o)
      match jf.cTable.lookup32 (key (jf.hobject o).classId) with
      | none => []
      | some c =>
        let laid := if (lk.classes c).resolved then .ok lk else resolveClassNode jf (fuel + 1) lk c
        (if (lk.classes c).resolved then [] else [.node (fuel + 1) lk c]) ++
          match laid with
          | .error _ => []
          | .ok lk =>
            match (jf.hobject o).htype with
            | .hVarray => []
            | .hOarray => oarrayCalls (resolveInstance jf fuel) (instanceCalls jf fuel) jf o lk
            | .hInstance =>
              instanceFieldCalls (resolveInstance jf fuel) (instanceCalls jf fuel) jf o lk c

/-- `resolveInstances` over a list of objects. -/
def allCalls (jf : Jdump) (fuel : Nat) : List ObjRef → Look → List Call
  | [], _ => []
  | o :: os, lk =>
    instanceCalls jf fuel lk o ++
      match resolveInstance jf fuel lk o with
      | .error _ => []
      | .ok (lk, _) => allCalls jf fuel os lk

/-- `collectStats` over a list of objects. -/
def collectCalls (jf : Jdump) (fuel : Nat) (ckey : BitVec 64) :
    List ObjRef → Look → Screen → List Call
  | [], _, _ => []
  | o :: os, lk, s =>
    if ckey = (jf.hobject o).classId then
      instanceCalls jf fuel lk o ++
        match resolveInstance jf fuel lk o with
        | .error _ => []
        | .ok (lk, _) =>
          match printInstance jf lk fuel s o 0 false false with
          | .error _ => []
          | .ok s => collectCalls jf fuel ckey os lk s
    else collectCalls jf fuel ckey os lk s

/-- What `readHeap` does once its loop has ended. -/
def lookCalls (fuel : Nat) (d : Dump) : List Call :=
  match d.jf.fclass with
  | none => []
  | some fclass =>
    let start := { d.lk with pos := d.jf.fin.pos }
    if fclass.head? = some (chr '*') then allCalls d.jf fuel d.jf.stored start
    else
      match d.jf.findClass fclass with
      | none => []
      | some cdata =>
        collectCalls d.jf fuel (d.jf.cinfo cdata).ident d.jf.stored start d.screen

/-- A class dump: the class it names and its counts, where the file goes on to them. -/
structure ClassCounts where
  c : ClassRef
  cstats : Option (BitVec 16)
  cfields : Option (BitVec 16)
deriving DecidableEq

/-- The counts in the part of a class dump that `readClassLists` reads. -/
def countsIn (fVersion : Nat) (identsz : IdentSize) (old : BitVec 16) (f : FILE) (hsize : Count) :
    Option (BitVec 16) × Option (BitVec 16) :=
  let (cpool, f) := readUshortLocal f
  let hsize := hsize.sub 2
  let (f, hsize) := readPool fVersion identsz cpool.toNat f hsize
  let (cstats, f) := readUshort f
  let hsize := hsize.sub 2
  let (_, f, _) := readStatics fVersion identsz (cstats.getD old).toNat f hsize
  (cstats, (readUshort f).1)

/-- The class dump at the current position; without its class `readClass` fails. -/
def classCounts (jf : Jdump) (hsize : Count) : Option ClassCounts :=
  let (ident, f) := readIdent jf.identsz jf.fin
  match jf.cTable.lookup32 (key ident) with
  | none => none
  | some c =>
    let (_, f) := readClassHeader jf.identsz f
    let hsize := hsize.sub (7 * jf.identsz.width + 8)
    let (cstats, cfields) := countsIn jf.fVersion jf.identsz (jf.cinfo c).cstats f hsize
    some ⟨c, cstats, cfields⟩

/-- A count, and the array, which is assigned if the count is not zero by then. -/
def countAccesses (c : ClassRef) (number array : Member) (old : BitVec 16)
    (count : Option (BitVec 16)) : List Access :=
  (if count.isSome then [.assign c number] else []) ++
    if 0 < (count.getD old).toNat then [.assign c array] else []

/-- `readClass` -/
def classAccesses (jf : Jdump) (dump : ClassCounts) : List Access :=
  .assign dump.c .superId ::
    (countAccesses dump.c .cstats .statics (jf.cinfo dump.c).cstats dump.cstats ++
      countAccesses dump.c .cfields .fields (jf.cinfo dump.c).cfields dump.cfields)

/-- The state in which the body of `readHeap`'s loop comes to its switch, with the tag. -/
def atSwitch (jf : Jdump) (hsize : Count) : Byte × Jdump :=
  let jf := jf.note (.sub jf.fin.pos hsize.left)
  let (ch, f) := jf.fin.getc
  (uchar ch, { jf with fin := f })

namespace Machine

/-- The class dump that the next pass reads, if it reads one. -/
def dumps (m : Machine) : Option ClassCounts :=
  match m.control with
  | .subs hsize _ =>
    if hsize.left ≠ 0 ∧ (atSwitch m.d.jf hsize).1.toNat = 0x20 then
      classCounts (atSwitch m.d.jf hsize).2 (hsize.sub 1)
    else none
  | _ => none

def calls (fuel : Nat) (m : Machine) : List Call :=
  match m.control with
  | .subs hsize _ => if hsize.left = 0 then lookCalls fuel m.d else []
  | _ => []

/-- What the next pass of the loop the program is in does, whether or not it ends the
program. It reads a class dump, or looks at the heap, or does neither. -/
def accesses (fuel : Nat) (m : Machine) : List Access :=
  (m.dumps.elim [] (classAccesses m.d.jf)) ++ (m.calls fuel).flatMap (Call.accesses m.d.jf)

end Machine

end Phat
