import Phat.Closure
import Phat.Print

/-! What `printInstance` does with a heap whose resolved part is closed: it calls itself on
resolved objects only, meets no NULL, and ends unless it follows object arrays in a
circle. -/
namespace Phat

/-- Lines that are really printed. -/
def Line.Shows : Line → Prop
  | .called _ _ => False
  | .opened _ => False
  | _ => True

/-- `s'` shows what `s` shows and more. The calls recorded since are of resolved objects,
and `visit` tells the instances opened. -/
structure Grew (jf : Jdump) (s s' : Screen) (new : List Line) : Prop where
  lines : s'.lines = s.lines ++ new
  called : ∀ o b, .called o b ∈ new → b = true
  opened : ∀ o, new.count (.opened o) + (s.visit o).toNat = (s'.visit o).toNat
  instances : ∀ o, .opened o ∈ new → (jf.hobject o).htype = .hInstance

def Grows (jf : Jdump) (s s' : Screen) : Prop := ∃ new, Grew jf s s' new

/-- Printing ends; where that is not `sure`, it may also have been cut off. -/
def Shown (jf : Jdump) (sure : Prop) (s : Screen) (result : Printed Screen) : Prop :=
  (∃ s', result = .ok s' ∧ Grows jf s s') ∨
    (¬ sure ∧ ∃ s', result = .error (.fuel, s') ∧ Grows jf s s')

section Grew
variable {jf : Jdump} {s s₁ s' : Screen} {sure : Prop} {result : Printed Screen}

theorem Grows.refl (s : Screen) : Grows jf s s := by
  refine ⟨[], (List.append_nil _).symm, fun _ _ member => ?_, fun o => Nat.zero_add _,
    fun _ member => ?_⟩
  · cases member
  · cases member

theorem Grows.trans (first : Grows jf s s₁) (second : Grows jf s₁ s') : Grows jf s s' := by
  obtain ⟨new₁, first⟩ := first
  obtain ⟨new₂, second⟩ := second
  refine ⟨new₁ ++ new₂, ?_, fun o b member => ?_, fun o => ?_, fun o member => ?_⟩
  · rw [second.lines, first.lines, List.append_assoc]
  · exact (List.mem_append.mp member).elim (first.called o b) (second.called o b)
  · rw [← second.opened, ← first.opened, List.count_append, Nat.add_comm (new₁.count _),
      Nat.add_assoc]
  · exact (List.mem_append.mp member).elim (first.instances o) (second.instances o)

theorem Grows.visit (grows : Grows jf s s') {o : ObjRef} (marked : s.visit o = true) :
    s'.visit o = true := by
  obtain ⟨new, grew⟩ := grows
  have opened := grew.opened o
  cases still : s'.visit o with
  | true => rfl
  | false =>
    rw [marked, still] at opened
    simp at opened

/-- Lines without a record. -/
theorem Grows.add (s : Screen) {new : List Line} (shows : ∀ line ∈ new, line.Shows) :
    Grows jf s { s with lines := s.lines ++ new } := by
  refine ⟨new, rfl, fun o b member => (shows _ member).elim, fun o => ?_,
    fun o member => (shows _ member).elim⟩
  have none : new.count (.opened o) = 0 :=
    List.count_eq_zero.mpr fun member => (shows _ member).elim
  rw [none, Nat.zero_add]

theorem Grows.print (s : Screen) {line : Line} (shows : line.Shows) : Grows jf s (s.print line) := by
  apply Grows.add
  intro other member
  rw [List.mem_singleton.mp member]
  exact shows

theorem Grows.called (s : Screen) (o : ObjRef) : Grows jf s (s.print (.called o true)) := by
  refine ⟨[.called o true], rfl, fun x b member => ?_, fun x => ?_, fun x member => ?_⟩
  · cases List.mem_singleton.mp member
    rfl
  · rw [List.count_eq_zero.mpr (by simp), Nat.zero_add]
    rfl
  · cases List.mem_singleton.mp member

theorem Grows.opened (s : Screen) {o : ObjRef} (closed : s.visit o = false)
    (inst : (jf.hobject o).htype = .hInstance) :
    Grows jf s ({ s with visit := Function.update s.visit o true }.print (.opened o)) := by
  refine ⟨[.opened o], rfl, fun x b member => ?_, fun x => ?_, fun x member => ?_⟩
  · cases List.mem_singleton.mp member
  · by_cases here : x = o
    · subst here
      simp [Screen.print, closed]
    · rw [List.count_eq_zero.mpr (by simpa using here), Nat.zero_add]
      simp [Screen.print, here]
  · cases List.mem_singleton.mp member
    exact inst

/-- Only instances are ever marked. -/
theorem Grows.unmarked (grows : Grows jf s s') {o : ObjRef} (clear : s.visit o = false)
    (other : (jf.hobject o).htype ≠ .hInstance) : s'.visit o = false := by
  obtain ⟨new, grew⟩ := grows
  have none : new.count (.opened o) = 0 :=
    List.count_eq_zero.mpr fun member => other (grew.instances o member)
  have opened := grew.opened o
  rw [none, clear] at opened
  cases marked : s'.visit o with
  | false => rfl
  | true =>
    rw [marked] at opened
    cases opened

theorem Grows.shown (grows : Grows jf s s₁) (shown : Shown jf sure s₁ result) :
    Shown jf sure s result := by
  rcases shown with ⟨s', ok, more⟩ | ⟨unsure, s', cut, more⟩
  · exact .inl ⟨s', ok, grows.trans more⟩
  · exact .inr ⟨unsure, s', cut, grows.trans more⟩

theorem Grows.ok (grows : Grows jf s s') : Shown jf sure s (.ok s') := .inl ⟨s', rfl, grows⟩

theorem printRun_grows (s : Screen) (lastCnt : Nat) : Grows jf s (printRun s lastCnt) := by
  rw [printRun]
  split
  · exact .print s trivial
  · exact .refl s

theorem printIndent_grows (s : Screen) (indent : Nat) {line : Line} (shows : line.Shows) :
    Grows jf s (printIndent s indent line) := by
  rw [printIndent]
  split
  · exact .print s shows
  · exact .refl s

theorem elementLine_shows {data : List Byte} {kind : BitVec 64} {inString : Bool} {i : Nat}
    {line : Line} (element : elementLine data kind inString i = some line) : line.Shows := by
  rw [elementLine] at element
  split at element
  all_goals
    cases element
    try trivial

theorem printElements_grows (data : List Byte) (kind : BitVec 64) (inString : Bool) (count : Nat)
    (s : Screen) : Grows jf s (printElements data kind inString count s) := by
  have elements : Grows jf s { s with lines := s.lines ++
      (List.range (min count 101)).filterMap (elementLine data kind inString) } := by
    apply Grows.add
    intro line member
    obtain ⟨i, _, element⟩ := List.mem_filterMap.mp member
    exact elementLine_shows element
  rw [printElements]
  split
  · exact elements.trans (.print _ trivial)
  · exact elements

end Grew

section Loops
variable {jf : Jdump} {lk : Look} {sure : Prop} {visit : Screen → ObjRef → Printed Screen}
  {o : ObjRef} {leads : ObjRef → Prop} {s : Screen}

theorem unless_zero {ident : BitVec 64} {dref : ObjRef}
    (found : (if ident = 0 then none else jf.hTable.lookup32 (key ident)) = some dref) :
    ident ≠ 0 ∧ jf.hTable.lookup32 (key ident) = some dref := by
  split at found
  · cases found
  · rename_i other
    exact ⟨other, found⟩

/-- The element loop of an object array. -/
theorem printOarrayLoop_shown {pshort : Bool} {n i lastCnt : Nat} {lastPid : BitVec 64}
    (idents : ∀ j, i ≤ j → j < i + n → ∃ ident, (lk.objects o).hvalues.identAt j = some ident ∧
      ∀ x, ident ≠ 0 ∧ jf.hTable.lookup32 (key ident) = some x → leads x)
    (visits : ∀ s' x, Grows jf s s' → leads x → Shown jf sure s' (visit s' x)) :
    Shown jf sure s (printOarrayLoop visit jf lk o pshort n i lastCnt lastPid s) := by
  induction n generalizing i lastCnt lastPid s with
  | zero => exact (printRun_grows s lastCnt).ok
  | succ n ih =>
    obtain ⟨pid, here, target⟩ := idents i le_rfl (by omega)
    have rest : ∀ s' cnt last, Grows jf s s' →
        Shown jf sure s (printOarrayLoop visit jf lk o pshort n (i + 1) cnt last s') := by
      intro s' cnt last grows
      apply grows.shown
      apply ih
      · exact fun j low high => idents j (by omega) (by omega)
      · exact fun s'' x more => visits s'' x (grows.trans more)
    rw [printOarrayLoop, here]
    simp only
    split
    · exact rest s _ _ (.refl s)
    · split
      · rename_i dref found
        have grows : Grows jf s (printRun s lastCnt) := printRun_grows s lastCnt
        rcases visits _ dref grows (target dref (unless_zero found)) with
          ⟨s', ok, more⟩ | ⟨unsure, s', cut, more⟩
        · rw [ok]
          exact rest s' _ _ (grows.trans more)
        · rw [cut]
          exact .inr ⟨unsure, s', rfl, grows.trans more⟩
      · split
        · apply rest
          apply (printRun_grows s lastCnt).trans
          apply Grows.print
          split <;> trivial
        · exact rest s _ _ (.refl s)

/-- The field loop of an instance. -/
theorem printFields_shown {c : ClassRef} {n i : Nat}
    (values : ∀ j, i ≤ j → j < i + n → ∃ info, (lk.classes c).values[j]? = some (.once info) ∧
      (info.ftype = chr '[' ∨ info.ftype = chr 'L' → ∃ ident,
        (lk.objects o).hvalues.identAt j = some ident ∧
        ∀ x, ident ≠ 0 ∧ jf.hTable.lookup32 (key ident) = some x → leads x))
    (visits : ∀ s' x, Grows jf s s' → leads x → Shown jf sure s' (visit s' x)) :
    Shown jf sure s (printFields visit jf lk o c n i s) := by
  induction n generalizing i s with
  | zero => exact (Grows.refl s).ok
  | succ n ih =>
    obtain ⟨info, cell, reference⟩ := values i le_rfl (by omega)
    have rest : ∀ s', Grows jf s s' → Shown jf sure s (printFields visit jf lk o c n (i + 1) s') := by
      intro s' grows
      apply grows.shown
      apply ih
      · exact fun j low high => values j (by omega) (by omega)
      · exact fun s'' x more => visits s'' x (grows.trans more)
    have label : Grows jf s (s.print (.field i info.offset info.ftype info.name)) :=
      .print s trivial
    rw [printFields, cell]
    simp only [Cell.once]
    by_cases ref : info.ftype = chr '[' ∨ info.ftype = chr 'L'
    · obtain ⟨ident, here, target⟩ := reference ref
      simp only [if_pos ref, here]
      cases found : if ident = 0 then none else jf.hTable.lookup32 (key ident) with
      | none =>
        apply rest
        apply label.trans
        apply Grows.print
        split <;> trivial
      | some dref =>
        simp only
        rcases visits _ dref label (target dref (unless_zero found)) with
          ⟨s', ok, more⟩ | ⟨unsure, s', cut, more⟩
        · rw [ok]
          exact rest s' (label.trans more)
        · rw [cut]
          exact .inr ⟨unsure, s', rfl, label.trans more⟩
    · simp only [if_neg ref]
      split
      · rename_i next stop failed
        split at failed <;> cases failed
      · rename_i next s' shown
        apply rest
        split at shown
        · cases shown
          exact label.trans (.print _ trivial)
        · cases shown
          exact label.trans (.print _ trivial)

end Loops

/-- An object array has an element other than 0 that leads to `x`. -/
def Jdump.Holds (jf : Jdump) (o x : ObjRef) : Prop :=
  o ∈ jf.stored ∧ (jf.hobject o).htype = .hOarray ∧
    ∃ ident ∈ (jf.elements o).1, ident ≠ 0 ∧ jf.hTable.lookup32 (key ident) = some x

/-- Every call made by a call on an object of `S` has a smaller measure than that one. -/
def Lowers (jf : Jdump) (S : ObjRef → Prop) (measure : (ObjRef → Bool) → ObjRef → Nat → Nat) :
    Prop :=
  ∀ visit visit' o x indent, S o → visit o = false → ¬ jf.beyond indent →
    (∀ y, visit y = true → visit' y = true) →
    ((jf.hobject o).htype = .hInstance → visit' o = true) → jf.graph.Edge o x →
    ((jf.hobject o).htype = .hOarray → jf.Holds o x) →
    measure visit' x (1 + indent) < measure visit o indent

section Calls
variable {jf : Jdump} {S : ObjRef → Prop} {depth fuel : Nat} {lk : Look} {sure : Prop}
  {o : ObjRef} {s : Screen} {measure : (ObjRef → Bool) → ObjRef → Nat → Nat}

/-- The bytes of a primitive array are there if they are looked at. -/
theorem printVarray_shown (decoded : Decoded jf o (lk.objects o))
    (varray : (jf.hobject o).htype = .hVarray) (inString : Bool) :
    Shown jf sure s (printVarray jf lk s o inString) := by
  rw [printVarray]
  generalize header : s.print (.valueArray (low32 (jf.hobject o).instId)
    (low32 (jf.hobject o).classId) (low32 (lk.objects o).xclassId) (jf.hobject o).count
    (low32 (lk.objects o).osize)) = s₁
  have label : Grows jf s s₁ := by
    rw [← header]
    exact .print s trivial
  by_cases none : (jf.hobject o).count = 0
  · simp only [if_pos none]
    apply Grows.ok
    exact label.trans (.print _ trivial)
  · have kind : arrayKind (lk.objects o).xclassId (jf.hobject o).classId = jf.kindOf o := by
      rw [decoded.xclassId varray none, Jdump.kindOf]
    simp only [if_neg none, kind]
    have shown : ∀ data, Grows jf s ((printElements data (jf.kindOf o) inString
        (jf.hobject o).count.toNat s₁).print .newline) := by
      intro data
      exact label.trans ((printElements_grows _ _ _ _ _).trans (.print _ trivial))
    split
    · exact (shown _).ok
    · rename_i width reads other
      have bytes : jf.decoded o = some (.bytes (jf.arrayData o width).1) := by
        rw [Jdump.decoded, varray]
        simp only [if_neg none, reads]
      exact absurd (decoded.hvalues _ bytes) (other _)
    · exact (shown []).ok

/-- What the field loop finds for an instance. -/
theorem Grounded.fields (region : jf.Region S depth) (grounded : Grounded jf S lk) (inside : S o)
    (resolved : (lk.objects o).resolved = true) (inst : (jf.hobject o).htype = .hInstance) :
    ∃ c, jf.classOf o = some c ∧ ∀ j, 0 ≤ j → j < 0 + (lk.classes c).tfields.toNat →
      ∃ info, (lk.classes c).values[j]? = some (.once info) ∧
        (info.ftype = chr '[' ∨ info.ftype = chr 'L' → ∃ ident,
          (lk.objects o).hvalues.identAt j = some ident ∧
          ∀ x, ident ≠ 0 ∧ jf.hTable.lookup32 (key ident) = some x → jf.graph.Edge o x) := by
  have stored := region.stored o inside
  obtain ⟨c, cs, classOf, chain, _⟩ := region.classes o inside
  obtain ⟨cs', again, shape, _⟩ :=
    grounded.ready.sound c (grounded.laid o c inside resolved classOf)
  obtain rfl := again.unique chain
  have fields : jf.fieldsOf o = jf.layoutOf 0 cs' := by
    rw [Jdump.fieldsOf, classOf]
    exact Jdump.layout_eq chain
  have length := jf.length_layoutOf 0 cs'
  refine ⟨c, classOf, fun j _ bound => ?_⟩
  rw [shape.tfields, Int.toNat_natCast, Nat.zero_add] at bound
  have listed : j < (jf.layoutOf 0 cs').length := by omega
  generalize entry : (jf.layoutOf 0 cs')[j] = info
  have here : (jf.fieldsOf o)[j]? = some info := by
    rw [fields, List.getElem?_eq_getElem listed, entry]
  refine ⟨info, ?_, fun ref => ?_⟩
  · rw [shape.values (by omega), List.getElem?_map, ← fields, here]
    rfl
  · obtain ⟨ident, slot, leads⟩ := Jdump.slot_edge stored inst here ref
    have decoded : jf.decoded o = some (.values (jf.slotValues o 0 (jf.fieldsOf o))) := by
      have some : jf.fieldsOf o ≠ [] := by
        rw [fields]
        exact List.ne_nil_of_length_pos (by omega)
      rw [Jdump.decoded, inst]
      exact if_neg some
    refine ⟨ident, ?_, fun x known => leads x known.2⟩
    rw [(grounded.decoded o inside resolved).hvalues _ decoded, Hvalues.identAt]
    simp only [slot]

theorem Grounded.identAt (grounded : Grounded jf S lk) (inside : S o)
    (resolved : (lk.objects o).resolved = true) (oarray : (jf.hobject o).htype = .hOarray)
    (some : (jf.hobject o).count ≠ 0) (j : Nat) :
    (lk.objects o).hvalues.identAt j = (jf.elements o).1[j]? := by
  have decoded : jf.decoded o = .some (.values ((jf.elements o).1.map .ident)) := by
    rw [Jdump.decoded, oarray]
    exact if_neg some
  rw [(grounded.decoded o inside resolved).hvalues _ decoded, Hvalues.identAt]
  simp only [List.getElem?_map]
  cases (jf.elements o).1[j]? <;> rfl

/-- What the element loop finds for an object array. -/
theorem Grounded.elements (region : jf.Region S depth) (grounded : Grounded jf S lk)
    (inside : S o) (resolved : (lk.objects o).resolved = true)
    (oarray : (jf.hobject o).htype = .hOarray) :
    ∀ j, 0 ≤ j → j < 0 + (jf.hobject o).count.toNat → ∃ ident,
      (lk.objects o).hvalues.identAt j = some ident ∧ ∀ x, ident ≠ 0 ∧
        jf.hTable.lookup32 (key ident) = some x → jf.graph.Edge o x ∧ jf.Holds o x := by
  intro j _ bound
  have some : (jf.hobject o).count ≠ 0 := by
    intro none
    rw [none] at bound
    exact absurd bound (Nat.not_lt_zero _)
  have length : (jf.elements o).1.length = (jf.hobject o).count.toNat :=
    length_readElements jf o _ _ _
  have listed : j < (jf.elements o).1.length := by omega
  refine ⟨(jf.elements o).1[j], ?_, fun x known => ?_⟩
  · rw [grounded.identAt inside resolved oarray some, List.getElem?_eq_getElem listed]
  · have member := List.getElem_mem listed
    have stored := region.stored o inside
    constructor
    · exact Jdump.element_edge stored oarray some member known.2
    · exact ⟨stored, oarray, _, member, known.1, known.2⟩

/-- The part of `printInstance` for an instance not gone into yet. -/
theorem printObject_shown {visit : Screen → ObjRef → Bool → Printed Screen}
    (region : jf.Region S depth) (grounded : Grounded jf S lk) (inside : S o)
    (resolved : (lk.objects o).resolved = true) (inst : (jf.hobject o).htype = .hInstance)
    (clear : s.visit o = false) (indent : Nat) (pshort : Bool)
    (visits : ∀ s' x inString, (∀ y, s.visit y = true → s'.visit y = true) → s'.visit o = true →
      jf.graph.Edge o x → Shown jf sure s' (visit s' x inString)) :
    (∃ s', printObject visit jf lk s o indent pshort = .ok s' ∧ Grows jf s s' ∧
      (pshort = false → s'.visit o = true)) ∨
    (¬ sure ∧ ∃ s', printObject visit jf lk s o indent pshort = .error (.fuel, s') ∧
      Grows jf s s') := by
  obtain ⟨c, classOf, values⟩ := grounded.fields region inside resolved inst
  rw [Jdump.classOf] at classOf
  rw [printObject]
  simp only [classOf]
  generalize header : s.print (.instance (low32 (jf.hobject o).instId)
    (low32 (jf.hobject o).classId) (jf.cinfo c).name (low32 (lk.objects o).osize)
    ((lk.objects o).osize + (lk.objects o).csize)) = s₁
  have label : Grows jf s s₁ := by
    rw [← header]
    exact .print _ trivial
  cases short : pshort with
  | true => exact .inl ⟨s₁, rfl, label, fun no => by cases no⟩
  | false =>
    have closed : s₁.visit o = false := by
      rw [← header]
      exact clear
    have opened := Grows.opened s₁ closed inst
    generalize body : { s₁ with visit := Function.update s₁.visit o true }.print (.opened o) = s₂
      at opened
    have self : s₂.visit o = true := by
      rw [← body]
      exact Function.update_self _ _ _
    have begun : Grows jf s₂ (printIndent s₂ indent (.begin indent)) :=
      printIndent_grows s₂ indent trivial
    have before := (label.trans opened).trans begun
    have loop := @printFields_shown jf lk sure
      (fun s dref => visit s dref (decide (some c = jf.javaLangString))) o (jf.graph.Edge o) _ c _ 0
      values fun s' x grows edge => visits s' x _ (fun y marked => (before.trans grows).visit marked)
        ((begun.trans grows).visit self) edge
    simp only [Bool.false_eq_true, if_false]
    rcases loop with ⟨s', ok, grows⟩ | ⟨unsure, s', cut, grows⟩
    · have finish : Grows jf s' (printIndent s' indent (.finish indent)) :=
        printIndent_grows s' indent trivial
      rw [ok]
      exact .inl ⟨_, rfl, (before.trans grows).trans finish, fun _ =>
        ((begun.trans grows).trans finish).visit self⟩
    · rw [cut]
      exact .inr ⟨unsure, s', rfl, before.trans grows⟩

/-- Every call of `printInstance` on a resolved object. -/
theorem printInstance_shown (region : jf.Region S depth) (grounded : Grounded jf S lk)
    (lowers : sure → Lowers jf S measure) {indent : Nat} {pshort inString : Bool} (inside : S o)
    (resolved : (lk.objects o).resolved = true)
    (enough : sure → measure s.visit o indent < fuel) :
    Shown jf sure s (printInstance jf lk fuel s o indent pshort inString) := by
  induction fuel generalizing s o indent pshort inString with
  | zero =>
    by_cases certain : sure
    · exact absurd (enough certain) (Nat.not_lt_zero _)
    · exact .inr ⟨certain, s, rfl, .refl s⟩
  | succ fuel ih =>
    have called : Grows jf s (s.print (.called o true)) := .called s o
    rw [printInstance]
    simp only [resolved]
    by_cases marked : s.visit o = true
    · rw [if_pos (show (s.print (.called o true)).visit o = true from marked)]
      apply Grows.ok
      exact called.trans (.print _ trivial)
    rw [if_neg (show ¬ (s.print (.called o true)).visit o = true from marked)]
    by_cases deep : jf.beyond indent
    · rw [if_pos deep]
      exact called.ok
    rw [if_neg deep]
    have clear : s.visit o = false := Bool.eq_false_of_not_eq_true marked
    have deeper : ∀ s' x inString, (∀ y, s.visit y = true → s'.visit y = true) →
        ((jf.hobject o).htype = .hInstance → s'.visit o = true) → jf.graph.Edge o x →
        ((jf.hobject o).htype = .hOarray → jf.Holds o x) →
        Shown jf sure s' (printInstance jf lk fuel s' x (1 + indent) false inString) := by
      intro s' x inString kept self edge holds
      apply ih (region.closed o x inside edge) (grounded.closed o x inside resolved edge)
      intro certain
      have less := lowers certain s.visit s'.visit o x indent inside clear deep kept self edge holds
      have bound := enough certain
      omega
    cases kind : (jf.hobject o).htype with
    | hVarray =>
      exact called.shown (printVarray_shown (grounded.decoded o inside resolved) kind inString)
    | hOarray =>
      have label : Grows jf s ((s.print (.called o true)).print (.objectArray
          (low32 (jf.hobject o).instId) (low32 (jf.hobject o).classId) (jf.hobject o).count
          (low32 (lk.objects o).osize))) := called.trans (.print _ trivial)
      apply label.shown
      apply printOarrayLoop_shown (grounded.elements region inside resolved kind)
      rintro s' x grows ⟨edge, holds⟩
      apply deeper s' x false (fun y marked => (label.trans grows).visit marked) _ edge
      · exact fun _ => holds
      · intro inst
        rw [kind] at inst
        cases inst
    | hInstance =>
      have object := @printObject_shown jf S depth lk sure o (s.print (.called o true))
        (fun s dref => printInstance jf lk fuel s dref (1 + indent) false) region grounded inside
        resolved kind clear indent pshort fun s' x inString kept self edge =>
          deeper s' x inString kept (fun _ => self) edge fun oarray => by
            rw [kind] at oarray
            cases oarray
      rcases object with ⟨s', ok, grows, _⟩ | ⟨unsure, s', cut, grows⟩
      · exact .inl ⟨s', ok, called.trans grows⟩
      · exact .inr ⟨unsure, s', cut, called.trans grows⟩

/-- `printInstances`, and the outermost calls of `collectStats`. -/
theorem printAll_shown (region : jf.Region S depth) (grounded : Grounded jf S lk)
    (lowers : sure → Lowers jf S measure) {os : List ObjRef} (inside : ∀ o ∈ os, S o)
    (resolved : ∀ o ∈ os, (lk.objects o).resolved = true)
    (enough : sure → ∀ visit, ∀ o ∈ os, measure visit o 0 < fuel) :
    Shown jf sure s (printAll jf lk fuel os s) := by
  induction os generalizing s with
  | nil => exact (Grows.refl s).ok
  | cons o os ih =>
    have first := @printInstance_shown jf S depth fuel lk sure o s measure region grounded lowers 0
      false false (inside o List.mem_cons_self) (resolved o List.mem_cons_self)
      (fun certain => enough certain s.visit o List.mem_cons_self)
    rw [printAll]
    rcases first with ⟨s', ok, grows⟩ | ⟨unsure, s', cut, grows⟩
    · rw [ok]
      apply grows.shown
      apply ih
      · exact fun x member => inside x (.tail _ member)
      · exact fun x member => resolved x (.tail _ member)
      · exact fun certain visit x member => enough certain visit x (.tail _ member)
    · rw [cut]
      exact .inr ⟨unsure, s', rfl, grows⟩

end Calls

end Phat
