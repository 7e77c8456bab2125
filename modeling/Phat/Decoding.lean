import Phat.Print
import Phat.Retained
import Phat.Span

/-! What the resolver stores for an object is what its bytes say. A slot is read by seeking
to the offset of its field, in the order of `values` and with other objects read in
between; the values are those of one pass over the body from front to back. -/
namespace Phat

/-- What the readers make of the bytes of a field. -/
def valueOf (identsz : IdentSize) (ftype : Byte) (bytes : List Byte) : Hvalue :=
  if ftype = chr '[' ∨ ftype = chr 'L' then .ident (identOf identsz bytes)
  else if ftype = chr 'Z' ∨ ftype = chr 'B' then .b (bytes.headD 0)
  else if ftype = chr 'S' ∨ ftype = chr 'C' then .c (BitVec.ofNat 16 (BigEndian.number bytes))
  else if ftype = chr 'I' then .i (BitVec.ofNat 32 (BigEndian.number bytes))
  else if ftype = chr 'J' then .j (spread bytes)
  else if ftype = chr 'F' then .f
  else if ftype = chr 'D' then .d
  else .unset

/-- Fields that follow each other from the current position on. -/
def decodeFields (identsz : IdentSize) : List FieldDecl → FILE → List Hvalue × FILE
  | [], f => ([], f)
  | decl :: decls, f =>
    let (value, f) := readTyped identsz decl.ftype f
    let (rest, f) := decodeFields identsz decls f
    (value.hvalue :: rest, f)

/-- A body from front to back: the fields of the class, then those of its superclasses
upward. They are listed the way `values` lists them, the topmost first. -/
def Jdump.decodeBody (jf : Jdump) : List ClassRef → FILE → List Hvalue
  | [], _ => []
  | c :: cs, f =>
    let (own, f) := decodeFields jf.identsz (jf.counted c) f
    jf.decodeBody cs f ++ own

/-- Successive results of `readIdent`. -/
def readEach (identsz : IdentSize) : Nat → FILE → List (BitVec 64)
  | 0, _ => []
  | n + 1, f =>
    let (ident, f) := readIdent identsz f
    ident :: readEach identsz n f

section Readers
variable {identsz : IdentSize} {f : FILE} {ftype : Byte}

theorem uchar_of_has (has : f.Has 1) : uchar f.getc.1 = (f.ahead 1).headD 0 := by
  obtain ⟨b, read, ahead⟩ := FILE.getc_of_has has
  rw [read, ahead, uchar_toNat]
  rfl

theorem readTyped_value (has : f.Has (fieldSize identsz ftype)) :
    (readTyped identsz ftype f).1.hvalue =
      valueOf identsz ftype (f.ahead (fieldSize identsz ftype)) := by
  unfold readTyped valueOf
  by_cases ref : ftype = chr '[' ∨ ftype = chr 'L'
  · have size : fieldSize identsz ftype = identsz.size := by
      rcases ref with rfl | rfl <;> rfl
    rw [size] at has ⊢
    rw [if_pos ref, if_pos ref]
    exact congrArg Hvalue.ident (readIdent_of_has has)
  rw [if_neg ref, if_neg ref]
  by_cases bool : ftype = chr 'Z'
  · subst bool
    rw [if_pos rfl, if_pos (.inl rfl)]
    exact congrArg Hvalue.b (uchar_of_has has)
  rw [if_neg bool]
  by_cases byte : ftype = chr 'B'
  · subst byte
    rw [if_pos rfl, if_pos (.inr rfl)]
    exact congrArg Hvalue.b (uchar_of_has has)
  rw [if_neg byte, if_neg (not_or.mpr ⟨bool, byte⟩)]
  by_cases short : ftype = chr 'S' ∨ ftype = chr 'C'
  · have size : fieldSize identsz ftype = 2 := by
      rcases short with rfl | rfl <;> rfl
    rw [size] at has ⊢
    rw [if_pos short, if_pos short]
    change Hvalue.c ((readUshort f).1.getD _) = _
    rw [readUshort_of_has has, Option.getD_some]
  rw [if_neg short, if_neg short]
  by_cases int : ftype = chr 'I'
  · subst int
    rw [if_pos rfl, if_pos rfl]
    change Hvalue.i ((readUint f).1.getD _) = _
    rw [readUint_of_has has, Option.getD_some]
    rfl
  rw [if_neg int, if_neg int]
  by_cases long : ftype = chr 'J'
  · subst long
    rw [if_pos rfl, if_pos rfl]
    change Hvalue.j ((readUlong f).1.getD _) = _
    rw [readUlong_of_has has, Option.getD_some]
    rfl
  rw [if_neg long, if_neg long]
  split
  · rfl
  · split <;> rfl

/-- The switch of the resolver, which leaves out two types. -/
theorem readField_value {jf : Jdump} (o : ObjRef) (i : Nat) {pos : Nat}
    (has : (jf.fin.seekSet pos).Has (fieldSize jf.identsz ftype)) (float : ftype ≠ chr 'F')
    (double : ftype ≠ chr 'D') :
    (readField jf o i ftype pos).stored.getD .unset =
      valueOf jf.identsz ftype ((jf.fin.seekSet pos).ahead (fieldSize jf.identsz ftype)) := by
  unfold readField valueOf
  by_cases ref : ftype = chr '[' ∨ ftype = chr 'L'
  · have size : fieldSize jf.identsz ftype = jf.identsz.size := by
      rcases ref with rfl | rfl <;> rfl
    rw [size] at has ⊢
    rw [if_pos ref, if_pos ref]
    exact congrArg Hvalue.ident (readIdentOver_of_has _ has)
  rw [if_neg ref, if_neg ref]
  by_cases byte : ftype = chr 'Z' ∨ ftype = chr 'B'
  · have size : fieldSize jf.identsz ftype = 1 := by
      rcases byte with rfl | rfl <;> rfl
    rw [size] at has ⊢
    rw [if_pos byte, if_pos byte]
    exact congrArg Hvalue.b (uchar_of_has has)
  rw [if_neg byte, if_neg byte]
  by_cases short : ftype = chr 'S' ∨ ftype = chr 'C'
  · have size : fieldSize jf.identsz ftype = 2 := by
      rcases short with rfl | rfl <;> rfl
    rw [size] at has ⊢
    rw [if_pos short, if_pos short, readUshort_of_has has]
    rfl
  rw [if_neg short, if_neg short]
  by_cases int : ftype = chr 'I'
  · subst int
    rw [if_pos rfl, if_pos rfl, readUint_of_has has]
    rfl
  rw [if_neg int, if_neg int]
  by_cases long : ftype = chr 'J'
  · subst long
    rw [if_pos rfl, if_pos rfl, readUlong_of_has has]
    rfl
  rw [if_neg long, if_neg long, if_neg float, if_neg double]
  rfl

/-- A reader looks at nothing but the bytes from the position on. -/
theorem readIdentOver_congr {g : FILE} (bytes : f.bytes = g.bytes) (pos : f.pos = g.pos)
    (old : BitVec 64) : (readIdentOver identsz old f).1 = (readIdentOver identsz old g).1 := by
  by_cases has : f.Has identsz.size
  · have also : g.Has identsz.size := by
      rwa [FILE.Has, ← bytes, ← pos]
    rw [readIdentOver_of_has old has, readIdentOver_of_has old also, FILE.ahead, FILE.ahead, bytes,
      pos]
  · have also : ¬ g.Has identsz.size := by
      rwa [FILE.Has, ← bytes, ← pos]
    cases identsz
    · rw [readIdentOver, readIdentOver, readUint_of_short has, readUint_of_short also]
    · rw [readIdentOver, readIdentOver, readUlong_of_short has, readUlong_of_short also]

end Readers

section Body
variable {jf : Jdump} {c : ClassRef} {cs : List ClassRef} {f : FILE} {base offset : Nat}

/-- What the reader for the type of a field yields at its place in a body. -/
def Jdump.valueAt (jf : Jdump) (base : Nat) (field : Finfo) : Hvalue :=
  (readTyped jf.identsz field.ftype (jf.fin.seekSet (base + field.offset))).1.hvalue

theorem Jdump.inside_place {decls : List FieldDecl} {field : Finfo}
    (member : field ∈ jf.place offset decls) :
    field.offset + fieldSize jf.identsz field.ftype ≤ offset + jf.bodySize decls := by
  induction decls generalizing offset with
  | nil => cases member
  | cons decl decls ih =>
    rw [bodySize, List.map_cons, List.sum_cons]
    rcases List.mem_cons.mp member with rfl | member
    · simp only [placed]
      omega
    · have later := ih member
      rw [bodySize] at later
      omega

theorem Jdump.inside_layoutOf {field : Finfo} (member : field ∈ jf.layoutOf offset cs) :
    field.offset + fieldSize jf.identsz field.ftype ≤ offset + jf.chainSize cs := by
  induction cs generalizing offset with
  | nil => cases member
  | cons c cs ih =>
    rw [chainSize, List.map_cons, List.sum_cons]
    rw [layoutOf, List.mem_append] at member
    rcases member with above | own
    · have later := ih above
      rw [chainSize] at later
      omega
    · have here := inside_place own
      omega

theorem decodeFields_place {decls : List FieldDecl} (bytes : f.bytes = jf.fin.bytes)
    (pos : f.pos = base + offset)
    (fits : base + offset + jf.bodySize decls ≤ jf.fin.bytes.length) :
    (decodeFields jf.identsz decls f).1 = (jf.place offset decls).map (jf.valueAt base) ∧
      Reads f (decodeFields jf.identsz decls f).2 (jf.bodySize decls) := by
  induction decls generalizing f offset with
  | nil => exact ⟨rfl, .refl f⟩
  | cons decl decls ih =>
    rw [Jdump.bodySize, List.map_cons, List.sum_cons] at fits
    have rest : fieldSize jf.identsz decl.ftype ≤ f.rest.length := by
      rw [FILE.rest, List.length_drop, bytes, pos]
      omega
    obtain ⟨after, _⟩ := readTyped_reads rest
    have same : (readTyped jf.identsz decl.ftype f).1.hvalue =
        jf.valueAt base (jf.placed offset decl) := by
      have here : f.Has (fieldSize jf.identsz decl.ftype) := by
        rw [FILE.Has, bytes, pos]
        omega
      have there : (jf.fin.seekSet (base + offset)).Has (fieldSize jf.identsz decl.ftype) := by
        change base + offset + _ ≤ jf.fin.bytes.length
        omega
      rw [Jdump.valueAt, Jdump.placed, readTyped_value here, readTyped_value there, FILE.ahead, bytes,
        pos]
      rfl
    obtain ⟨values, last⟩ := @ih (readTyped jf.identsz decl.ftype f).2
      (offset + fieldSize jf.identsz decl.ftype) (after.bytes.trans bytes)
      (by rw [after.pos, pos, Nat.add_assoc]) (by rw [Jdump.bodySize]; omega)
    constructor
    · rw [decodeFields, Jdump.place, List.map_cons, ← same, ← values]
    · constructor
      · exact last.bytes.trans after.bytes
      · rw [Jdump.bodySize, List.map_cons, List.sum_cons, ← Nat.add_assoc, ← after.pos]
        exact last.pos

/-- Seeking to every field gives what one pass over the body gives. -/
theorem decodeBody_layoutOf (bytes : f.bytes = jf.fin.bytes) (pos : f.pos = base + offset)
    (fits : base + offset + jf.chainSize cs ≤ jf.fin.bytes.length) :
    jf.decodeBody cs f = (jf.layoutOf offset cs).map (jf.valueAt base) := by
  induction cs generalizing f offset with
  | nil => rfl
  | cons c cs ih =>
    rw [Jdump.chainSize, List.map_cons, List.sum_cons] at fits
    obtain ⟨own, after⟩ := @decodeFields_place jf f base offset (jf.counted c) bytes pos (by omega)
    have above := @ih (decodeFields jf.identsz (jf.counted c) f).2
      (offset + jf.bodySize (jf.counted c)) (after.bytes.trans bytes)
      (by rw [after.pos, pos, Nat.add_assoc]) (by rw [Jdump.chainSize]; omega)
    rw [Jdump.decodeBody, Jdump.layoutOf, List.map_append, ← own, ← above]

theorem Jdump.getElem?_slotValues (o : ObjRef) (i j : Nat) (fields : List Finfo) :
    (jf.slotValues o i fields)[j]? =
      fields[j]?.map fun field => (jf.readSlot o (i + j) field).stored.getD .unset := by
  induction fields generalizing i j with
  | nil => rfl
  | cons field fields ih =>
    cases j with
    | zero => rfl
    | succ j =>
      rw [slotValues, List.getElem?_cons_succ, List.getElem?_cons_succ, ih, Nat.add_right_comm,
        Nat.add_assoc]

/-- The identifiers of an object array, whatever part of it is in the file. -/
theorem readElements_readEach (o : ObjRef) (n i pos : Nat) :
    (readElements jf o n i pos).1 =
      readEach jf.identsz n ⟨jf.fin.bytes, pos, jf.unread o, i⟩ := by
  induction n generalizing i pos with
  | zero => rfl
  | succ n ih =>
    have value : (readIdentOver jf.identsz (jf.unread o i) (jf.fin.seekSet pos)).1 =
        (readIdent jf.identsz ⟨jf.fin.bytes, pos, jf.unread o, i⟩).1 := by
      exact @readIdentOver_congr jf.identsz (jf.fin.seekSet pos) ⟨jf.fin.bytes, pos, jf.unread o, i⟩
        rfl rfl (jf.unread o i)
    simp only [readElements, readEach, readIdent_file, readIdentOver_file, ih, value]
    rfl

end Body

theorem objects_decoded {jf : Jdump} {depth fuel : Nat} {order : List ObjRef} (memory : Look)
    (resolvable : jf.Resolvable depth) (roots : ∀ o ∈ order, o ∈ jf.stored)
    (enough : jf.stored.toFinset.card + depth < fuel) :
    Outcome (jf.Denied (.initial memory) order)
      (resolveAll jf fuel order (.initial memory)) fun lk =>
      (∀ o c cs, (lk.objects o).resolved = true → (jf.hobject o).htype = .hInstance →
        jf.classOf o = some c → jf.Chain c cs →
        (jf.hobject o).fpos + jf.chainSize cs ≤ jf.fin.bytes.length →
        ∀ i : Nat, i < (lk.classes c).tfields → ∃ field,
          (lk.classes c).values[i]? = some (.once field) ∧
          (field.ftype ≠ chr 'F' → field.ftype ≠ chr 'D' →
            (lk.objects o).hvalues.slot i = (readTyped jf.identsz field.ftype
              (jf.fin.seekSet ((jf.hobject o).fpos + field.offset))).1.hvalue ∧
            (jf.decodeBody cs (jf.fin.seekSet (jf.hobject o).fpos))[i]? =
              some ((lk.objects o).hvalues.slot i))) ∧
      ∀ o, (lk.objects o).resolved = true → (jf.hobject o).htype = .hOarray →
        (jf.hobject o).count ≠ 0 → (lk.objects o).hvalues = .values ((readEach jf.identsz
          (jf.hobject o).count.toNat
          ⟨jf.fin.bytes, (jf.hobject o).fpos, jf.unread o, 0⟩).map .ident) := by
  refine (resolveAll_follows resolvable.region enough (.initial jf memory) roots).imp ?_
  rintro lk ⟨trace, _, ran⟩
  have entered : ∀ o, (lk.objects o).resolved = true → o ∈ DepthFirst.entered trace := by
    intro o resolved
    exact ((ran.seen o).mp resolved).resolve_left (by intro before; cases before)
  refine ⟨fun o c cs resolved inst classOf chain inside i more => ?_,
    fun o resolved oarray some => ?_⟩
  · obtain ⟨cs', again, shape, _⟩ := ran.ready.sound c (ran.laid o (entered o resolved) c classOf)
    obtain rfl := again.unique chain
    have length := jf.length_layoutOf 0 cs'
    rw [shape.tfields] at more
    have bound : i < (jf.layoutOf 0 cs').length := by omega
    generalize listed : (jf.layoutOf 0 cs')[i] = field
    have here : (jf.layoutOf 0 cs')[i]? = .some field := by
      rw [List.getElem?_eq_getElem bound, listed]
    refine ⟨field, ?_, fun float double => ?_⟩
    · rw [shape.values (by omega), List.getElem?_map, here]
      rfl
    have fields : jf.fieldsOf o = jf.layoutOf 0 cs' := by
      rw [Jdump.fieldsOf, classOf]
      exact Jdump.layout_eq chain
    have decoded : jf.decoded o = .some (.values (jf.slotValues o 0 (jf.layoutOf 0 cs'))) := by
      have some : jf.layoutOf 0 cs' ≠ [] := List.ne_nil_of_length_pos (by omega)
      rw [Jdump.decoded, inst, fields]
      exact if_neg some
    have slot : (lk.objects o).hvalues.slot i =
        (jf.readSlot o i field).stored.getD .unset := by
      rw [(ran.decoded o (entered o resolved)).hvalues _ decoded, Hvalues.slot,
        List.getD_eq_getElem?_getD, Jdump.getElem?_slotValues, here, Nat.zero_add]
      rfl
    have has : (jf.fin.seekSet ((jf.hobject o).fpos + field.offset)).Has
        (fieldSize jf.identsz field.ftype) := by
      have last := Jdump.inside_layoutOf (List.mem_of_getElem? here)
      change (jf.hobject o).fpos + field.offset + _ ≤ jf.fin.bytes.length
      omega
    have value : (lk.objects o).hvalues.slot i = jf.valueAt (jf.hobject o).fpos field := by
      rw [slot, Jdump.readSlot, readField_value o i has float double, Jdump.valueAt,
        readTyped_value has]
    refine ⟨value, ?_⟩
    have body := @decodeBody_layoutOf jf cs' (jf.fin.seekSet (jf.hobject o).fpos)
      (jf.hobject o).fpos 0 rfl rfl inside
    rw [body, List.getElem?_map, here, value]
    rfl
  · have decoded : jf.decoded o = .some (.values ((jf.elements o).1.map .ident)) := by
      rw [Jdump.decoded, oarray]
      exact if_neg some
    rw [(ran.decoded o (entered o resolved)).hvalues _ decoded, Jdump.elements,
      readElements_readEach]

theorem objects_decoded_sampleLink : ∃ lk,
    resolveAll sampleLink 6 [0, 1] (.initial .zero) = .ok lk ∧
      (lk.objects 0).hvalues.slot 2 = .ident 2 := by
  have run : (resolveAll sampleLink 6 [0, 1] (.initial .zero)).toOption.map (fun lk =>
      ((lk.objects 0).resolved, (lk.classes 2).tfields, (lk.classes 2).values[2]?)) =
        some (true, 3, some (.once ⟨9, none, chr 'L', 1⟩)) := by decide +kernel
  obtain ⟨lk, ended, state⟩ := Option.map_eq_some_iff.mp run
  obtain ⟨resolved, three, laid⟩ : _ ∧ _ ∧ _ := by
    simpa only [Prod.mk.injEq] using state
  have roots : ∀ o ∈ [0, 1], o ∈ sampleLink.stored := fun _ => id
  rcases @objects_decoded sampleLink 3 6 [0, 1] .zero (sampleHeap_resolvable _) roots
    (by decide) with ⟨lk', ok, instances, _⟩ | ⟨stop, _⟩
  · rw [ok_of_toOption ended] at ok
    cases ok
    obtain ⟨field, again, decoded⟩ := instances 0 2 [2, 1, 0] resolved rfl rfl
      (@sampleChain sampleLink rfl rfl).2.2 (by decide) 2 (by rw [three]; decide)
    rw [laid] at again
    cases again
    obtain ⟨_, body⟩ := decoded (by decide) (by decide)
    have reference : (sampleLink.decodeBody [2, 1, 0] (sampleLink.fin.seekSet 0))[2]? =
        some (.ident 2) := rfl
    exact ⟨lk, ok_of_toOption ended, Option.some.inj (body.symm.trans reference)⟩
  · rw [ok_of_toOption ended] at stop
    cases stop

end Phat
