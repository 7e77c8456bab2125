import Phat.Resolve

/-! The printer: `printInstance`, `printInstances`. It reads what the resolver left and
assigns only `visit`. -/
namespace Phat

/-- `%x` and `%d` print the low 32 bits of a wider value. -/
def low32 (value : BitVec 64) : BitVec 32 := value.setWidth 32

/-- What is printed, line by line or element by element; a value never read is `none`.
`called` and `opened` print nothing: they record a call, with whether the object was
resolved then, and the start of the fields of an instance. -/
inductive Line where
  | called (o : ObjRef) (resolved : Bool)
  | opened (o : ObjRef)
  | recursive (instId classId self total : BitVec 32)
  | valueArray (instId classId xclassId count size : BitVec 32)
  | element (value : Option Nat)
  | more (elements : Nat)
  | objectArray (instId classId count size : BitVec 32)
  | elements (count : Nat)
  | null
  | unknown (ident : BitVec 32)
  | instance (instId classId : BitVec 32) (name : Option CString) (self : BitVec 32)
      (total : BitVec 64)
  | begin (indent : Nat)
  | field (i offset : Nat) (ftype : Byte) (name : Option CString)
  | value (value : Option Nat)
  | noValue
  | finish (indent : Nat)
  | newline
deriving DecidableEq

/-- The `visit` members and the output so far. -/
structure Screen where
  visit : ObjRef → Bool
  lines : List Line

/-- Printing ends with a screen, or the program stops and leaves one. -/
abbrev Printed (α : Type) : Type := Except (Stop × Screen) α

def Screen.print (s : Screen) (line : Line) : Screen := { s with lines := s.lines ++ [line] }

/-- Elements `i` of `width` bytes as the host, which is little-endian, reads them back
from memory. -/
def hostElement (data : List Byte) (width i : Nat) : Option Nat :=
  let bytes := (data.drop (width * i)).take width
  if bytes.length = width then some (BigEndian.number bytes.reverse) else none

/-- What the switch prints for element `i`; a `char` is printed sign-extended. -/
def elementLine (data : List Byte) (kind : BitVec 64) (inString : Bool) (i : Nat) :
    Option Line :=
  match kind.toNat with
  | 4 | 8 => some (.element ((hostElement data 1 i).map fun b =>
      ((BitVec.ofNat 8 b).signExtend 32).toNat))
  | 5 => some (.element ((hostElement data 2 i).map (· / 256)))
  | 9 => some (.element ((hostElement data 2 i).map fun c => if inString then c / 256 else c))
  | 10 => some (.element (hostElement data 4 i))
  | 11 => some (.element (hostElement data 8 i))
  | _ => none

/-- The element loop of a primitive array; it gives up after 101 elements. -/
def printElements (data : List Byte) (kind : BitVec 64) (inString : Bool) (count : Nat)
    (s : Screen) : Screen :=
  let lines := (List.range (min count 101)).filterMap (elementLine data kind inString)
  let s := { s with lines := s.lines ++ lines }
  if 101 < count then s.print (.more (count - 101)) else s

def printVarray (jf : Jdump) (lk : Look) (s : Screen) (o : ObjRef) (inString : Bool) :
    Printed Screen :=
  let ho := jf.hobject o
  let look := lk.objects o
  let s := s.print (.valueArray (low32 ho.instId) (low32 ho.classId) (low32 look.xclassId) ho.count
    (low32 look.osize))
  if ho.count = 0 then .ok (s.print .newline)
  else
    let kind := arrayKind look.xclassId ho.classId
    match look.hvalues, elementCase kind with
    | .bytes data, _ => .ok ((printElements data kind inString ho.count.toNat s).print .newline)
    | _, some (_, true) => .error (.null, s)
    | _, _ => .ok ((printElements [] kind inString ho.count.toNat s).print .newline)

/-- `if (0 != last_cnt) printf(" [ %d elements ]\n", last_cnt)` -/
def printRun (s : Screen) (lastCnt : Nat) : Screen :=
  if lastCnt ≠ 0 then s.print (.elements lastCnt) else s

/-- The element loop of an object array, at index `i` with `n` to go. `visit` prints an
object one level deeper. -/
def printOarrayLoop (visit : Screen → ObjRef → Printed Screen) (jf : Jdump) (lk : Look)
    (o : ObjRef) (pshort : Bool) :
    Nat → Nat → Nat → BitVec 64 → Screen → Printed Screen
  | 0, _, lastCnt, _, s => .ok (printRun s lastCnt)
  | n + 1, i, lastCnt, lastPid, s =>
    match (lk.objects o).hvalues.identAt i with
    | none => .error (.null, s)
    | some pid =>
      if pshort ∧ pid = 0 then printOarrayLoop visit jf lk o pshort n (i + 1) lastCnt lastPid s
      else
        match if pid = 0 then none else jf.hTable.lookup32 (key pid) with
        | some dref =>
          match visit (printRun s lastCnt) dref with
          | .error stop => .error stop
          | .ok s => printOarrayLoop visit jf lk o pshort n (i + 1) 0 lastPid s
        | none =>
          if lastPid ≠ pid then
            let s := (printRun s lastCnt).print (if pid = 0 then .null else .unknown (low32 pid))
            printOarrayLoop visit jf lk o pshort n (i + 1) 1 pid s
          else printOarrayLoop visit jf lk o pshort n (i + 1) (lastCnt + 1) lastPid s

def printOarray (visit : Screen → ObjRef → Printed Screen) (jf : Jdump) (lk : Look)
    (s : Screen) (o : ObjRef) (pshort : Bool) : Printed Screen :=
  let ho := jf.hobject o
  let s := s.print (.objectArray (low32 ho.instId) (low32 ho.classId) ho.count
    (low32 (lk.objects o).osize))
  printOarrayLoop visit jf lk o pshort ho.count.toNat 0 0 (BitVec.allOnes 64) s

/-- `value->b`, `value->c`, `value->i` and `value->j`. -/
def Hvalue.number : Hvalue → Option Nat
  | .b value => some value.toNat
  | .c value => some value.toNat
  | .i value => some value.toNat
  | .j value => some value.toNat
  | _ => none

def Hvalues.slot (hvalues : Hvalues) (i : Nat) : Hvalue :=
  match hvalues with
  | .values slots => slots.getD i .unset
  | _ => .unset

/-- The field loop, at index `i` with `n` to go. -/
def printFields (visit : Screen → ObjRef → Printed Screen) (jf : Jdump) (lk : Look)
    (o : ObjRef) (c : ClassRef) : Nat → Nat → Screen → Printed Screen
  | 0, _, s => .ok s
  | n + 1, i, s =>
    match (lk.classes c).values[i]? with
    | some ⟨some info, _⟩ =>
      let s := s.print (.field i info.offset info.ftype info.name)
      let next : Printed Screen :=
        if info.ftype = chr '[' ∨ info.ftype = chr 'L' then
          match (lk.objects o).hvalues.identAt i with
          | none => .error (.null, s)
          | some ident =>
            match if ident = 0 then none else jf.hTable.lookup32 (key ident) with
            | some dref => visit s dref
            | none => .ok (s.print (if ident = 0 then .null else .unknown (low32 ident)))
        else if info.ftype = chr 'B' ∨ info.ftype = chr 'Z' ∨ info.ftype = chr 'C' ∨
            info.ftype = chr 'S' ∨ info.ftype = chr 'I' ∨ info.ftype = chr 'J' then
          .ok (s.print (.value ((lk.objects o).hvalues.slot i).number))
        else .ok (s.print .noValue)
      match next with
      | .error stop => .error stop
      | .ok s => printFields visit jf lk o c n (i + 1) s
    | _ => .error (.null, s)

/-- `if (indent) printf(...)` -/
def printIndent (s : Screen) (indent : Nat) (line : Line) : Screen :=
  if indent ≠ 0 then s.print line else s

/-- `1 < indent && 0 != jf->plimit && indent > jf->plimit` -/
def Jdump.beyond (jf : Jdump) (indent : Nat) : Prop :=
  1 < indent ∧ jf.plimit ≠ 0 ∧ jf.plimit < indent

instance (jf : Jdump) (indent : Nat) : Decidable (jf.beyond indent) :=
  inferInstanceAs (Decidable (_ ∧ _ ∧ _))

/-- The part of `printInstance` for `H_INSTANCE`. -/
def printObject (visit : Screen → ObjRef → Bool → Printed Screen) (jf : Jdump) (lk : Look)
    (s : Screen) (o : ObjRef) (indent : Nat) (pshort : Bool) : Printed Screen :=
  let ho := jf.hobject o
  let look := lk.objects o
  match jf.cTable.lookup32 (key ho.classId) with
  | none => .error (.null, s)
  | some c =>
    let s := s.print
      (.instance (low32 ho.instId) (low32 ho.classId) (jf.cinfo c).name (low32 look.osize)
        (look.osize + look.csize))
    if pshort then .ok s
    else
      let s := { s with visit := Function.update s.visit o true }.print (.opened o)
      let s := printIndent s indent (.begin indent)
      let isString := decide (some c = jf.javaLangString)
      match printFields (fun s dref => visit s dref isString) jf lk o c
          (lk.classes c).tfields.toNat 0 s with
      | .error stop => .error stop
      | .ok s => .ok (printIndent s indent (.finish indent))

def printInstance (jf : Jdump) (lk : Look) :
    Nat → Screen → ObjRef → Nat → Bool → Bool → Printed Screen
  | 0, s, _, _, _, _ => .error (.fuel, s)
  | fuel + 1, s, o, indent, pshort, inString =>
    let ho := jf.hobject o
    let look := lk.objects o
    let s := s.print (.called o look.resolved)
    if s.visit o then
      .ok (s.print (.recursive (low32 ho.instId) (low32 ho.classId) (low32 look.osize)
        (low32 (look.osize + look.csize))))
    else if jf.beyond indent then .ok s
    else
      match ho.htype with
      | .hVarray => printVarray jf lk s o inString
      | .hOarray =>
        printOarray (fun s dref => printInstance jf lk fuel s dref (1 + indent) false false) jf lk s
          o pshort
      | .hInstance =>
        printObject (fun s dref => printInstance jf lk fuel s dref (1 + indent) false) jf lk s o
          indent pshort

/-- `printInstances` over a list of objects; the lines naming the nodes are left out. -/
def printAll (jf : Jdump) (lk : Look) (fuel : Nat) : List ObjRef → Screen → Printed Screen
  | [], s => .ok s
  | o :: os, s =>
    match printInstance jf lk fuel s o 0 false false with
    | .error stop => .error stop
    | .ok s => printAll jf lk fuel os s

def printInstances (jf : Jdump) (lk : Look) (fuel : Nat) (s : Screen) : Printed Screen :=
  printAll jf lk fuel jf.stored s

/-- `collectStats` over a list of objects. -/
def collectFrom (jf : Jdump) (fuel : Nat) (ckey : BitVec 64) :
    List ObjRef → Look → Screen → Printed (Look × Screen)
  | [], lk, s => .ok (lk, s)
  | o :: os, lk, s =>
    if ckey = (jf.hobject o).classId then
      match resolveInstance jf fuel lk o with
      | .error stop => .error (stop, s)
      | .ok (lk, _) =>
        match printInstance jf lk fuel s o 0 false false with
        | .error stop => .error stop
        | .ok s => collectFrom jf fuel ckey os lk s
    else collectFrom jf fuel ckey os lk s

def collectStats (jf : Jdump) (fuel : Nat) (ckey : BitVec 64) (lk : Look) (s : Screen) :
    Printed (Look × Screen) :=
  collectFrom jf fuel ckey jf.stored lk s

end Phat
