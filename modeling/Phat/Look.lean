import Phat.Foundation.DepthFirst
import Phat.State

/-! The members that the resolver assigns in `cinfo` and `hobject` records, and the
arcs between classes. -/
namespace Phat

/-- `finfo`, as an entry of `values` points to it. -/
structure Finfo where
  ident : BitVec 64
  name : Option CString
  ftype : Byte
  offset : Nat
deriving DecidableEq

/-- The members of an entry of `fields` that `resolveClassNode` assigns. -/
structure OwnField where
  name : Option CString
  offset : Nat

/-- A slot of the array `values`, with the number of times it has been assigned. -/
structure Cell where
  content : Option Finfo
  writes : Nat
deriving DecidableEq

/-- `own` is addressed by the allocation `Cinfo.block` and the index in it. -/
structure ClassLook where
  tfields : Int
  resolved : Bool
  statics : Nat → Bool
  own : Nat → Nat → OwnField
  values : List Cell
  size : BitVec 64
  children : List Nat
  parents : List Nat

/-- The part of `mkcinfo` on this half: `memory` is what the allocation holds. -/
def ClassLook.fresh (memory : ClassLook) : ClassLook :=
  { memory with tfields := 0, resolved := false }

/-- `hvalues`: unassigned, NULL, an array of `union hvalue`, or the raw bytes read into
it for a primitive array. -/
inductive Hvalues where
  | unset
  | null
  | values (slots : List Hvalue)
  | bytes (data : List Byte)
deriving DecidableEq

structure ObjLook where
  resolved : Bool
  osize : BitVec 64
  csize : BitVec 64
  xclassId : BitVec 64
  hvalues : Hvalues

/-- The part of `makeObj` on this half; `osize` and `hvalues` stay unassigned, and
`visit` is kept in `Screen`. -/
def ObjLook.fresh (memory : ObjLook) : ObjLook :=
  { memory with resolved := false, csize := 0, xclassId := 0 }

structure Arc where
  parent : ClassRef
  child : ClassRef
  count : Int
  childSize : Int
deriving DecidableEq

/-- `pos` is the position of `jf->fin` while objects are resolved. The lists
`children` and `parents` hold addresses in `arcs`, in the order of the links, and
`arcTab` is the used part of the global array `arcs`. `trace` is recorded only. -/
structure Look where
  pos : Nat
  classes : ClassRef → ClassLook
  objects : ObjRef → ObjLook
  arcs : Store Arc
  arcTab : List Nat
  arcsMax : Nat
  trace : List (DepthFirst.Event ObjRef Nat (BitVec 64))

namespace Look

def setClass (lk : Look) (c : ClassRef) (ci : ClassLook) : Look :=
  { lk with classes := Function.update lk.classes c ci }

def setObj (lk : Look) (o : ObjRef) (ho : ObjLook) : Look :=
  { lk with objects := Function.update lk.objects o ho }

/-- Every record with its half of `mkcinfo` or `makeObj` done. No function looks at a
record before it is allocated, so the initialisation may as well come first. -/
def initial (memory : Look) : Look :=
  { memory with
    classes := fun c => (memory.classes c).fresh
    objects := fun o => (memory.objects o).fresh
    arcTab := []
    arcsMax := 0
    trace := [] }

/-- Memory that is zero throughout. -/
def zero : Look where
  pos := 0
  classes := fun _ => ⟨0, false, fun _ => false, fun _ _ => ⟨none, 0⟩, [], 0, [], []⟩
  objects := fun _ => ⟨false, 0, 0, 0, .unset⟩
  arcs := ⟨0, fun _ => ⟨0, 0, 0, 0⟩⟩
  arcTab := []
  arcsMax := 0
  trace := []

def note (lk : Look) (event : DepthFirst.Event ObjRef Nat (BitVec 64)) : Look :=
  { lk with trace := lk.trace ++ [event] }

end Look

end Phat
