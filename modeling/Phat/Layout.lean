import Phat.Look

/-! Class resolution: `resolveSClassSize`, `getSuperClass`, `copyField` and
`resolveClassNode`. -/
namespace Phat

/-- Conversion to `int`. -/
def int (n : Int) : Int := n.bmod (2 ^ 32)

namespace Jdump

def getSuperClass (jf : Jdump) (c : ClassRef) : Option ClassRef :=
  jf.cTable.lookup32 (key (jf.cinfo c).superId)

def resolveSClassSize (jf : Jdump) : Nat → ClassRef → Except Stop Int
  | 0, _ => .error .fuel
  | fuel + 1, c =>
    if (jf.cinfo c).superId = 0 then .ok 0
    else
      match jf.getSuperClass c with
      | none => .error .null
      | some super =>
        match jf.resolveSClassSize fuel super with
        | .error stop => .error stop
        | .ok n => .ok (int ((jf.cinfo c).cfields.toNat + n))

/-- `while (fieldNo >= cc->cfields)` -/
def seekField (jf : Jdump) : Nat → ClassRef → Nat → Int → Except Stop (ClassRef × Nat × Int)
  | 0, _, _, _ => .error .fuel
  | fuel + 1, cc, fieldNo, target =>
    if fieldNo < (jf.cinfo cc).cfields.toNat then .ok (cc, fieldNo, target)
    else
      match jf.getSuperClass cc with
      | none => .error .null
      | some super => jf.seekField fuel super 0 (target - (jf.cinfo super).cfields.toNat)

end Jdump

/-- What a field type adds to `index`. -/
def fieldSize (identsz : IdentSize) (ftype : Byte) : Nat :=
  if ftype = chr 'L' ∨ ftype = chr '[' then identsz.size
  else if ftype = chr 'Z' ∨ ftype = chr 'B' then 1
  else if ftype = chr 'S' ∨ ftype = chr 'C' then 2
  else if ftype = chr 'F' ∨ ftype = chr 'I' then 4
  else if ftype = chr 'D' ∨ ftype = chr 'J' then 8
  else 0

/-- `*(values + slot) = field`; a slot outside the array is not memory of the array. -/
def storeValue (values : List Cell) (slot : Int) (field : Finfo) : Except Stop (List Cell) :=
  if 0 ≤ slot ∧ slot < values.length then
    .ok (values.modify slot.toNat fun cell => ⟨some field, cell.writes + 1⟩)
  else .error .null

/-- The record `*value` points to: the own entry of `fields` itself, named here, or a
copy of a superclass's entry with the name it has there. -/
def layoutField (jf : Jdump) (lk : Look) (ci cc : ClassRef) (fieldNo : Nat) (decl : FieldDecl)
    (index : Nat) : Finfo :=
  { ident := decl.ident
    name := if cc = ci then jf.sbTable.lookup32 (key decl.ident)
      else ((lk.classes cc).own (jf.cinfo cc).block fieldNo).name
    ftype := decl.ftype
    offset := index }

/-- Own entries are shared between `fields` and `values`, so the members assigned
through `*value` are assigned in `fields` too. No other code writes to them. -/
def assignOwn (jf : Jdump) (lk : Look) (ci cc : ClassRef) (fieldNo : Nat) (field : Finfo) :
    ClassLook :=
  let look := lk.classes ci
  let block := (jf.cinfo ci).block
  let entries := Function.update (look.own block) fieldNo ⟨field.name, field.offset⟩
  if cc = ci then { look with own := Function.update look.own block entries } else look

/-- The field loop of `resolveClassNode`, with `n` iterations to go. -/
def fillValues (jf : Jdump) (fuel : Nat) (ci : ClassRef) :
    Nat → ClassRef → Nat → Int → Nat → Look → Except Stop (Nat × Look)
  | 0, _, _, _, index, lk => .ok (index, lk)
  | n + 1, cc, fieldNo, target, index, lk =>
    match jf.seekField fuel cc fieldNo target with
    | .error stop => .error stop
    | .ok (cc, fieldNo, target) =>
      match (jf.cinfo cc).fields[fieldNo]? with
      | none => .error .null
      | some decl =>
        let field := layoutField jf lk ci cc fieldNo decl index
        match storeValue (lk.classes ci).values (target + fieldNo) field with
        | .error stop => .error stop
        | .ok values =>
          let look := assignOwn jf lk ci cc fieldNo field
          fillValues jf fuel ci n cc (fieldNo + 1) target
            (index + fieldSize jf.identsz decl.ftype) (lk.setClass ci { look with values := values })

/-- `resolveField` on the first `cstats` statics: each is only marked. -/
def resolveStatics (look : ClassLook) (cstats : Nat) : ClassLook :=
  { look with statics := fun i => decide (i < cstats) || look.statics i }

/-- The part of `resolveClassNode` after the superclass. `talloc_array` refusing the
array of pointers is met at the first store through `values`. -/
def layOut (jf : Jdump) (fuel : Nat) (lk : Look) (c : ClassRef) (tfields : Int) :
    Except Stop Look :=
  if 0 < tfields then
    if maxCount 8 ≤ tfields.toNat then .error .nomem
    else
      let lk := lk.setClass c
        { lk.classes c with values := List.replicate tfields.toNat ⟨none, 0⟩ }
      match fillValues jf fuel c tfields.toNat c 0 (tfields - (jf.cinfo c).cfields.toNat) 0 lk with
      | .error stop => .error stop
      | .ok (index, lk) => .ok (lk.setClass c { lk.classes c with size := BitVec.ofNat 64 index })
  else .ok lk

def resolveClassNode (jf : Jdump) : Nat → Look → ClassRef → Except Stop Look
  | 0, _, _ => .error .fuel
  | fuel + 1, lk, c =>
    if (lk.classes c).resolved then .ok lk
    else
      match jf.resolveSClassSize (fuel + 1) c with
      | .error stop => .error stop
      | .ok tfields =>
        let lk := lk.setClass c { lk.classes c with tfields := tfields }
        let lk := lk.setClass c (resolveStatics (lk.classes c) (jf.cinfo c).cstats.toNat)
        let above : Except Stop Look := match jf.getSuperClass c with
          | none => .ok lk
          | some super => resolveClassNode jf fuel lk super
        match above with
        | .error stop => .error stop
        | .ok lk =>
          match layOut jf (fuel + 1) lk c tfields with
          | .error stop => .error stop
          | .ok lk => .ok (lk.setClass c { lk.classes c with resolved := true })

end Phat
