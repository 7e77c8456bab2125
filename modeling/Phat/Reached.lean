import Phat.Containment
import Phat.Records

/-! Which files `readDump` takes apart at every record. A heap dump whose bytes are not all
counted runs on into the record behind it, if there is one; a tag of 255 passes for the end
of the file. -/
namespace Phat

section Segment
attribute [local irreducible] readIdent readUintLocal readClassHeader readClassLists

variable {jf jf' : Jdump} {hs hs' : Count} {sum sum' : Summary} {more : List Byte}
  {record : HeapRecord} {fVersion : Nat} {identsz : IdentSize} {ledger : Ledger} {string : Bool}

theorem readClass_string (read : readClass jf hs = .ok (jf', hs')) :
    jf'.javaLangString = jf.javaLangString := by
  rw [readClass] at read
  simp only at read
  split at read
  · cases read
  · cases read
    rfl

theorem poolMissed_fits {pool : List PoolEntry} (wellFormed : ∀ entry ∈ pool,
    entry.index.length = 2 ∧ Typed fVersion identsz entry.type entry.value) :
    poolMissed fVersion pool ≤ (pool.flatMap PoolEntry.encode).length := by
  induction pool with
  | nil => exact le_rfl
  | cons entry pool ih =>
    obtain ⟨index, typed⟩ := wellFormed entry List.mem_cons_self
    have later := ih fun other member => wellFormed other (.tail _ member)
    have some := typed.some
    rw [poolMissed] at later ⊢
    rw [List.map_cons, List.sum_cons, List.flatMap_cons, List.length_append, PoolEntry.encode,
      List.length_append, List.length_cons, index]
    split <;> omega

theorem staticsMissed_fits (fVersion : Nat) (statics : List StaticEntry) (wellFormed : ∀ entry ∈
    statics, entry.ident.length = identsz.size ∧ Typed fVersion identsz entry.type entry.value) :
    staticsMissed fVersion statics ≤ (statics.flatMap StaticEntry.encode).length := by
  induction statics with
  | nil => exact le_rfl
  | cons entry statics ih =>
    obtain ⟨_, typed⟩ := wellFormed entry List.mem_cons_self
    have later := ih fun other member => wellFormed other (.tail _ member)
    have some := typed.some
    rw [staticsMissed] at later ⊢
    rw [List.map_cons, List.sum_cons, List.flatMap_cons, List.length_append, StaticEntry.encode,
      List.length_append, List.length_cons]
    split <;> omega

theorem HeapRecord.missed_fits (wellFormed : record.WellFormed fVersion identsz) :
    record.missed fVersion ≤ record.encode.length := by
  cases record with
  | sub record => exact Nat.zero_le _
  | classDump body =>
    have pool := poolMissed_fits wellFormed.pool
    have statics := staticsMissed_fits fVersion body.statics wellFormed.statics
    simp only [missed, encode, ClassBody.encode, ClassBody.lists, List.length_cons,
      List.length_append]
    omega

theorem HeapRecord.missed_eq_zero : record.missed fVersion = 0 ↔ record.Exact fVersion := by
  cases record with
  | sub record => exact ⟨fun _ => trivial, fun _ => rfl⟩
  | classDump body =>
    rw [missed, Nat.add_eq_zero_iff, poolMissed_eq_zero, staticsMissed_eq_zero]
    exact Iff.rfl

/-- A pass over a sub-record moves past it and counts all of it but what is missed. -/
theorem heapPass_heapRecord (wellFormed : record.WellFormed jf.fVersion jf.identsz)
    (knows : Knows jf ledger) (strings : jf.javaLangString.isSome = string)
    (passes : record.Passes string ledger)
    (rest : jf.fin.rest = record.encode ++ more) (fits : record.encode.length ≤ hs.left.toNat) :
    ∃ jf' hs' sum', heapPass jf hs sum = .ok (jf', hs', sum') ∧
      Past jf.fin jf'.fin record.encode more ∧
      hs'.left.toNat + record.encode.length = hs.left.toNat + record.missed jf.fVersion ∧
      jf'.javaLangString = jf.javaLangString ∧ Knows jf' (record.enter ledger) := by
  cases record with
  | sub record =>
    obtain ⟨known, roomy, spared⟩ := passes
    rw [← strings] at spared
    obtain ⟨jf', hs', run, onePass, after, counts, tracks, tallies⟩ := @heapPass_record jf hs sum
      more ledger record wellFormed.1 knows.toTracks known roomy
      (spared.imp_right fun few => ⟨knows.toTallies, few⟩) rest fits
    refine ⟨jf', hs', _, run, ⟨⟨onePass.bytes, ?_⟩, after⟩, counts.left, onePass.string,
      ⟨tracks, tallies knows.toTallies⟩⟩
    rw [onePass.pos, HeapRecord.encode, SubRecord.encode, List.length_cons, Nat.add_comm 1]
  | classDump body =>
    have small := HeapRecord.missed_fits wellFormed
    obtain ⟨c, found, _⟩ := knows.toTracks.named passes
    have layout : jf.fin.rest = 0x20 :: (body.encode ++ more) := rest
    obtain ⟨_, start⟩ := getc_piece layout
    obtain ⟨jf', hs', read, past, uncounted, _⟩ := @readClass_pieces
      { jf.note (.sub jf.fin.pos hs.left) with fin := jf.fin.getc.2 } body c more wellFormed
      start.rest found (hs.sub 1)
    have run : heapPass jf hs sum = .ok (jf', hs', { sum with cclass := sum.cclass + 1 }) := by
      rw [heapPass_switch layout]
      change (readClass _ _).map _ = _
      rw [read]
      rfl
    have both : Past jf.fin jf'.fin ([0x20] ++ body.encode) more := Past.trans start past
    have kept := readClass_string read
    have moved : Knows { jf.note (.sub jf.fin.pos hs.left) with fin := jf.fin.getc.2 } ledger :=
      knows.of_same rfl rfl rfl rfl rfl rfl
    obtain ⟨tracks, tallies⟩ := readClass_tracks moved.toTracks read
    refine ⟨jf', hs', _, run, both, ?_, kept, ⟨tracks, tallies moved.toTallies⟩⟩
    have one : Uncounted hs (hs.sub 1) 1 0 := .sub rfl
    have all : Uncounted hs hs' (1 + body.encode.length) (0 + (poolMissed jf.fVersion body.pool +
        staticsMissed jf.fVersion body.statics)) := one.trans uncounted
    have bound := hs.left.isLt
    have bound' := hs'.left.isLt
    have length : (HeapRecord.classDump body).encode.length = 1 + body.encode.length := by
      rw [HeapRecord.encode, List.length_cons, Nat.add_comm]
    have total : (HeapRecord.classDump body).missed jf.fVersion =
        0 + (poolMissed jf.fVersion body.pool + staticsMissed jf.fVersion body.statics) := by
      rw [Nat.zero_add]
      rfl
    rw [← length, ← total] at all
    have sum := congrArg BitVec.toNat all
    simp only [BitVec.toNat_add, BitVec.toNat_ofNat] at sum
    omega

theorem heapPass_stops (wellFormed : record.WellFormed jf.fVersion jf.identsz)
    (knows : Knows jf ledger) (strings : jf.javaLangString.isSome = string)
    (stops : ¬ record.Passes string ledger) (rest : jf.fin.rest = record.encode ++ more) :
    ∃ stop, heapPass jf hs sum = .error stop := by
  cases record with
  | sub record =>
    by_cases known : record.Known ledger
    · by_cases roomy : record.Roomy ledger
      · have neither := not_or.mp fun spared => stops ⟨known, roomy, spared⟩
        have none : jf.javaLangString = none := by
          rw [← Option.not_isSome_iff_eq_none, strings]
          exact neither.1
        exact ⟨_, heapPass_null wellFormed.1 knows.toTracks knows.toTallies none neither.2 rest⟩
      · exact ⟨_, heapPass_nomem wellFormed.1 knows.toTracks roomy rest⟩
    · exact ⟨_, heapPass_unloaded wellFormed.1 knows.toTallies known rest⟩
  | classDump body =>
    have absent := knows.absent _ (Option.not_isSome_iff_eq_none.mp stops)
    have layout : jf.fin.rest = 0x20 :: (body.ident ++ ((body.stack ++ body.superId ++
        body.others) ++ (body.lists ++ more))) := by
      rw [rest, HeapRecord.encode, ClassBody.encode]
      simp only [List.cons_append, List.append_assoc]
    obtain ⟨_, start⟩ := getc_piece layout
    rw [← readIdent_key start.rest wellFormed.ident] at absent
    refine ⟨.null, ?_⟩
    rw [heapPass_switch layout]
    change (readClass _ _).map _ = _
    rw [readClass]
    simp only [Jdump.note, absent]
    rfl

theorem HeapRecord.left_ne_zero {records : List HeapRecord} {k : Nat} (left : hs.left.toNat =
    ((record :: records).flatMap HeapRecord.encode).length + k) : hs.left ≠ 0 := by
  intro empty
  have zero : hs.left.toNat = 0 := by rw [empty]; rfl
  have positive : 0 < record.encode.length := by cases record <;> exact Nat.succ_pos _
  rw [List.flatMap_cons, List.length_append] at left
  omega

/-- The loop over sub-records, before what is left of the count. -/
theorem heapLoop_heapRecords {records : List HeapRecord} {k : Nat}
    (wellFormed : ∀ record ∈ records, record.WellFormed jf.fVersion jf.identsz)
    (knows : Knows jf ledger) (strings : jf.javaLangString.isSome = string)
    (rest : jf.fin.rest = records.flatMap HeapRecord.encode ++ more)
    (left : hs.left.toNat = (records.flatMap HeapRecord.encode).length + k) :
    (AllPass string ledger records →
      ∃ jf' hs' sum', (∀ fuel, heapLoop (fuel + records.length) jf hs sum =
          heapLoop fuel jf' hs' sum') ∧
        Past jf.fin jf'.fin (records.flatMap HeapRecord.encode) more ∧ Changes jf jf' ∧
        Forward jf jf' ∧ Knows jf' (records.foldl HeapRecord.enter ledger) ∧
        hs'.left.toNat = k + (records.map (HeapRecord.missed jf.fVersion)).sum) ∧
    (¬ AllPass string ledger records → ∀ fuel result, heapLoop fuel jf hs sum ≠ .ok result) := by
  induction records generalizing jf hs sum k ledger with
  | nil =>
    refine ⟨fun _ => ⟨jf, hs, sum, fun fuel => rfl, .of_reads rest (.refl _), .refl, .refl jf,
      knows, ?_⟩, fun stops => absurd trivial stops⟩
    rw [left]
    exact Nat.add_comm _ _
  | cons record records ih =>
    have going := HeapRecord.left_ne_zero left
    rw [List.flatMap_cons, List.append_assoc] at rest
    rw [List.flatMap_cons, List.length_append] at left
    have here := wellFormed record List.mem_cons_self
    by_cases passes : record.Passes string ledger
    · obtain ⟨jf₁, hs₁, sum₁, pass, past, counted, kept, knows₁⟩ := @heapPass_heapRecord jf hs sum
        _ record ledger string here knows strings passes rest (by omega)
      have changes := heapPass_changes pass
      have version := changes.fVersion
      obtain ⟨all, stopped⟩ := @ih jf₁ hs₁ sum₁ (record.enter ledger)
        (k + record.missed jf.fVersion)
        (by
          intro other member
          rw [version, changes.identsz]
          exact wellFormed other (.tail _ member))
        knows₁ (by rw [kept]; exact strings) past.rest (by omega)
      constructor
      · rintro ⟨_, later⟩
        obtain ⟨jf', hs', sum', run, past', changes', forward, knows', missed⟩ := all later
        refine ⟨jf', hs', sum', fun fuel => ?_, past.trans past', changes.trans changes',
          (heapPass_forward pass).1.trans forward, knows', ?_⟩
        · rw [List.length_cons, ← Nat.add_assoc, heapLoop_ok _ going pass, run]
        · rw [missed, version, List.map_cons, List.sum_cons, Nat.add_assoc]
      · intro stops fuel result run
        cases fuel with
        | zero =>
          rw [heapLoop_fuel _ _ going] at run
          cases run
        | succ fuel =>
          rw [heapLoop_ok _ going pass] at run
          exact stopped (fun later => stops ⟨passes, later⟩) fuel result run
    · refine ⟨fun all => absurd all.1 passes, fun _ fuel result run => ?_⟩
      obtain ⟨stop, failed⟩ := @heapPass_stops jf hs sum _ record ledger string here knows strings
        passes rest
      cases fuel with
      | zero =>
        rw [heapLoop_fuel _ _ going] at run
        cases run
      | succ fuel =>
        rw [heapLoop_error _ going failed] at run
        cases run

/-- At the end of the file every pass takes an unknown root out of nothing. -/
theorem heapPass_end (short : ¬ jf.fin.Has 1) : ∃ jf',
    heapPass jf hs sum = .ok (jf', (hs.sub 1).sub jf.identsz.width, sum) ∧
      jf'.fin.bytes = jf.fin.bytes ∧ jf'.fin.pos = jf.fin.pos ∧ jf'.identsz = jf.identsz := by
  have ended := FILE.getc_of_end short
  have switch : heapPass jf hs sum = .ok
      ((readRoot rootUnknown (jf.note (.sub jf.fin.pos hs.left)) (hs.sub 1)).1,
        (hs.sub 1).sub jf.identsz.width, sum) := by
    have width : BitVec.ofNat 32 1 * jf.identsz.width + BitVec.ofNat 32 (4 * 0) =
        jf.identsz.width := by
      cases jf.identsz <;> rfl
    rw [← width]
    simp only [heapPass, Jdump.note, ended]
    rfl
  refine ⟨_, switch, ?_, ?_, rfl⟩
  · change (readIdent jf.identsz jf.fin).2.bytes = _
    rw [readIdent_file]
  · change (readIdent jf.identsz jf.fin).2.pos = _
    have far : ¬ jf.fin.Has jf.identsz.size := by
      have size := jf.identsz.size_pos
      rw [FILE.Has] at short ⊢
      omega
    rw [readIdent_file, FILE.past_of_short far]
    rw [FILE.Has] at short
    exact max_eq_left (by omega)

/-- Some number of passes at the end of the file uses up any count. -/
theorem exists_passes (identsz : IdentSize) (left : BitVec 32) :
    ∃ n, left = BitVec.ofNat 32 n * (1 + identsz.width) := by
  have inverse : ∃ inv : BitVec 32, inv * (1 + identsz.width) = 1#32 := by
    cases identsz
    · exact ⟨3435973837, by decide⟩
    · exact ⟨954437177, by decide⟩
  obtain ⟨inv, unit⟩ := inverse
  refine ⟨(left * inv).toNat, ?_⟩
  rw [BitVec.ofNat_toNat, BitVec.setWidth_eq, BitVec.mul_assoc, unit, BitVec.mul_one]

theorem heapLoop_end {n : Nat} (short : ¬ jf.fin.Has 1)
    (left : hs.left = BitVec.ofNat 32 n * (1 + jf.identsz.width)) :
    ∃ jf' hs' sum', heapLoop n jf hs sum = .ok (jf', hs', sum') ∧
      jf'.fin.bytes = jf.fin.bytes ∧ jf'.fin.pos = jf.fin.pos := by
  induction n generalizing jf hs sum with
  | zero =>
    have empty : hs.left = 0 := by rw [left]; exact BitVec.zero_mul
    exact ⟨jf, hs, sum, heapLoop_zero _ _ _ empty, rfl, rfl⟩
  | succ n ih =>
    by_cases empty : hs.left = 0
    · exact ⟨jf, hs, sum, heapLoop_zero _ _ _ empty, rfl, rfl⟩
    · obtain ⟨jf₁, pass, bytes, pos, identsz⟩ := @heapPass_end jf hs sum short
      have next : ((hs.sub 1).sub jf.identsz.width).left =
          BitVec.ofNat 32 n * (1 + jf₁.identsz.width) := by
        simp only [Count.sub, left, identsz, BitVec.ofNat_add]
        generalize jf.identsz.width = width
        generalize BitVec.ofNat 32 n = m
        rw [BitVec.add_mul, BitVec.one_mul]
        bv_omega
      have still : ¬ jf₁.fin.Has 1 := by
        rw [FILE.Has, bytes, pos]
        exact short
      obtain ⟨jf', hs', sum', run, bytes', pos'⟩ := @ih jf₁ _ sum still next
      refine ⟨jf', hs', sum', ?_, bytes'.trans bytes, pos'.trans pos⟩
      rw [heapLoop_ok n empty pass, run]

end Segment

section Loop
variable {jf jf' : Jdump} {d d' : Dump} {fuel : Nat}

theorem heapLoop_mono {hs hs' : Count} {sum sum' : Summary}
    (run : heapLoop fuel jf hs sum = .ok (jf', hs', sum')) (more : Nat) :
    heapLoop (fuel + more) jf hs sum = .ok (jf', hs', sum') := by
  induction fuel generalizing jf hs sum with
  | zero =>
    by_cases empty : hs.left = 0
    · rw [heapLoop_zero _ _ _ empty] at run ⊢
      exact run
    · rw [heapLoop_fuel _ _ empty] at run
      cases run
  | succ fuel ih =>
    by_cases empty : hs.left = 0
    · rw [heapLoop_zero _ _ _ empty] at run ⊢
      exact run
    · rw [Nat.succ_add]
      cases pass : heapPass jf hs sum with
      | error stop =>
        rw [heapLoop_error _ empty pass] at run
        cases run
      | ok result =>
        obtain ⟨jf₁, hs₁, sum₁⟩ := result
        rw [heapLoop_ok _ empty pass] at run ⊢
        exact ih run

theorem dumpLoop_mono (run : dumpLoop fuel d = .ok d') (plain : d.jf.fclass = none) (more : Nat) :
    dumpLoop (fuel + more) d = .ok d' := by
  induction fuel generalizing d with
  | zero =>
    rw [dumpLoop] at run ⊢
    cases tag : readTag d.jf with
    | error stop =>
      simp only [tag] at run
      cases run
    | ok result =>
      obtain ⟨jf, found⟩ := result
      cases found with
      | none =>
        simp only [tag] at run ⊢
        exact run
      | some pair =>
        simp only [tag] at run
        cases run
  | succ fuel ih =>
    rw [Nat.succ_add]
    rw [dumpLoop] at run ⊢
    cases tag : readTag d.jf with
    | error stop =>
      simp only [tag] at run
      cases run
    | ok result =>
      obtain ⟨jf, found⟩ := result
      have unseen : jf.fclass = none := by
        rw [(readTag_changes tag).fclass]
        exact plain
      cases found with
      | none =>
        simp only [tag] at run ⊢
        exact run
      | some pair =>
        obtain ⟨rtype, rlen⟩ := pair
        simp only [tag] at run ⊢
        by_cases heap : rtype.toNat = 0x0c
        · rw [if_pos heap] at run ⊢
          cases segment : readSegment fuel jf rlen with
          | error stop =>
            simp only [readHeap, segment] at run
            cases run
          | ok result =>
            obtain ⟨jf₁, hs₁, sum₁⟩ := result
            have later : readSegment (fuel + more) jf rlen = .ok (jf₁, hs₁, sum₁) :=
              heapLoop_mono segment more
            have whole := @readHeap_plain jf₁ hs₁ sum₁ { d with jf := jf } fuel rlen segment unseen
            have whole' := @readHeap_plain jf₁ hs₁ sum₁ { d with jf := jf } _ rlen later unseen
            simp only [whole] at run
            simp only [whole']
            apply ih run
            obtain ⟨steps, _⟩ := heapLoop_steps (d := { d with jf := enterHeap jf }) segment
            rw [steps.changes.fclass]
            exact unseen
        · rw [if_neg heap] at run ⊢
          cases body : readPlain rtype jf rlen with
          | error stop =>
            simp only [body] at run
            cases run
          | ok jf₁ =>
            simp only [body] at run ⊢
            apply ih run
            rw [(readPlain_changes body).fclass]
            exact unseen

end Loop

/-- The loop from `d` on passes over every record once, in order, and ends with the file. -/
def Reaches (d : Dump) (records : List Record) : Prop :=
  ∃ fuel d', dumpLoop fuel d = .ok d' ∧
    recordStarts d'.jf.log = (recordsFrom d.jf.fin.pos records).reverse ++ recordStarts d.jf.log ∧
    d'.jf.fin.pos = d.jf.fin.bytes.length

/-- Every byte of a heap dump is counted. -/
def Content.Exact (fVersion : Nat) : Content → Prop
  | .heapDump records => ∀ record ∈ records, record.Exact fVersion
  | _ => True

/-- A tag of 255 ends the loop; a record that is not passed ends the program; a heap dump has
to be counted only if another record follows it. -/
def Passable (fVersion : Nat) : Ledger → List Record → Prop
  | _, [] => True
  | ledger, record :: records =>
    (record.content.tag ≠ 0xff ∧ record.content.Passes ledger ∧
      (records ≠ [] → record.content.Exact fVersion)) ∧
    Passable fVersion (record.content.enter ledger) records

/-- The loop has got to the first of the records. -/
structure Before (jf : Jdump) (ledger : Ledger) (records : List Record) : Prop where
  rest : jf.fin.rest = records.flatMap Record.encode
  inside : jf.fin.pos ≤ jf.fin.bytes.length
  plain : jf.fclass = none
  knows : Knows jf ledger

section Records
attribute [local irreducible] readIdent readUintLocal

variable {jf jf₁ : Jdump} {d : Dump} {ledger : Ledger} {record : Record}
  {records : List Record} {more : List Byte}

theorem EOF_iff (tag : Byte) : EOF = tag.toInt ↔ tag = 0xff := by
  revert tag
  decide +kernel

theorem Content.WellFormed.plainTag {fVersion : Nat} {identsz : IdentSize} {content : Content}
    (wellFormed : content.WellFormed fVersion identsz)
    (other : ∀ subs, content ≠ .heapDump subs) : content.tag.toNat ≠ 0x0c := by
  intro heap
  cases content with
  | heapDump subs => exact other subs rfl
  | other code data =>
    have same : code = 0x0c := byte_eq heap
    apply wellFormed
    rw [same]
    decide
  | _ => cases heap

/-- What the tag and the two words before a body leave. -/
structure Tagged (jf jf' : Jdump) (record : Record) (more : List Byte) : Prop where
  run : readTag jf =
    .ok (jf', some (record.content.tag, BitVec.ofNat 32 record.content.body.length))
  fin : ∃ head, head.length + record.content.body.length = record.encode.length ∧
    Past jf.fin jf'.fin head (record.content.body ++ more)
  starts : recordStarts jf'.log = jf.fin.pos :: recordStarts jf.log
  knows : ∀ ledger, Knows jf ledger → Knows jf' ledger

theorem readTag_record (time : record.time.length = 4) (short : record.content.body.length < 2 ^ 32)
    (rest : jf.fin.rest = record.encode ++ more) :
    (record.content.tag = 0xff → readTag jf = .ok ({ jf with fin := jf.fin.getc.2 }, none)) ∧
    (record.content.tag ≠ 0xff → ∃ jf', Tagged jf jf' record more) := by
  have layout : jf.fin.rest = record.content.tag :: (record.time ++ (BigEndian.digits 4
      record.content.body.length ++ (record.content.body ++ more))) := by
    rw [rest]
    simp [Record.encode]
  obtain ⟨code, first⟩ := getc_piece layout
  obtain ⟨f₁, stamp, second⟩ := readUint_piece first.rest time
  obtain ⟨f₂, size, third⟩ := readUint_piece second.rest (BigEndian.length_digits 4 _)
  have length : BitVec.ofNat 32 (BigEndian.number (BigEndian.digits 4
      record.content.body.length)) = BitVec.ofNat 32 record.content.body.length := by
    rw [BigEndian.number_digits, Nat.mod_eq_of_lt (by omega)]
  constructor
  · intro ends
    rw [readTag]
    simp only [code, EOF_iff]
    rw [if_pos ends]
  · intro goes
    refine ⟨{ jf.note (.record jf.fin.pos record.content.tag) with fin := f₂ }, ?_, ?_, rfl, ?_⟩
    · rw [readTag]
      simp only [code, EOF_iff]
      rw [if_neg goes]
      simp only [Jdump.note, stamp, size, length]
    · refine ⟨_, ?_, (first.trans second).trans third⟩
      simp only [Record.encode, List.length_append, List.length_cons, List.length_nil,
        BigEndian.length_digits]
      omega
    · intro ledger knows
      exact knows.of_same rfl rfl rfl rfl rfl rfl

theorem readTag_end (rest : jf.fin.rest = []) (inside : jf.fin.pos ≤ jf.fin.bytes.length) :
    readTag jf = .ok (jf, none) ∧ jf.fin.pos = jf.fin.bytes.length := by
  have length := congrArg List.length rest
  rw [FILE.rest, List.length_drop, List.length_nil] at length
  have ended := FILE.getc_of_end (FILE.short_of_rest rest)
  refine ⟨?_, by omega⟩
  rw [readTag]
  simp only [ended, uchar_EOF]
  rfl

/-- Nothing is left to reach. -/
theorem reaches_nil (before : Before d.jf ledger []) : Reaches d [] := by
  obtain ⟨tag, pos⟩ := readTag_end before.rest before.inside
  refine ⟨0, d, ?_, rfl, pos⟩
  rw [dumpLoop]
  simp only [tag]

/-- One record has been passed: the loop goes on from the next. -/
theorem reaches_advance {n : Nat} (plain : d.jf.fclass = none) (plain₁ : jf₁.fclass = none)
    (step : ∀ fuel, n ≤ fuel → dumpLoop (fuel + 1) d = dumpLoop fuel { d with jf := jf₁ })
    (bytes : jf₁.fin.bytes = d.jf.fin.bytes)
    (pos : jf₁.fin.pos = d.jf.fin.pos + record.encode.length)
    (starts : recordStarts jf₁.log = d.jf.fin.pos :: recordStarts d.jf.log) :
    Reaches d (record :: records) ↔ Reaches { d with jf := jf₁ } records := by
  have log : ∀ log, log = (recordsFrom d.jf.fin.pos (record :: records)).reverse ++
      recordStarts d.jf.log ↔
      log = (recordsFrom jf₁.fin.pos records).reverse ++ recordStarts jf₁.log := by
    intro log
    rw [starts, recordsFrom, List.reverse_cons, List.append_assoc, pos]
    rfl
  constructor
  · rintro ⟨fuel, d', run, all, ended⟩
    have run' := dumpLoop_mono run plain (n + 1)
    rw [← Nat.add_assoc, step _ (by omega)] at run'
    exact ⟨_, d', run', (log _).mp all, ended.trans (by rw [bytes])⟩
  · rintro ⟨fuel, d', run, all, ended⟩
    have run' := @dumpLoop_mono { d with jf := jf₁ } _ _ run plain₁ n
    rw [← step _ (by omega)] at run'
    exact ⟨_, d', run', (log _).mpr all, ended.trans (congrArg List.length bytes)⟩

/-- The loop takes a tag of 255 for the end of the file. -/
theorem Before.not_tag (before : Before d.jf ledger (record :: records))
    (wellFormed : record.WellFormed d.jf.fVersion d.jf.identsz)
    (ends : record.content.tag = 0xff) : ¬ Reaches d (record :: records) := by
  have rest := before.rest
  rw [List.flatMap_cons] at rest
  have tag := (readTag_record wellFormed.time wellFormed.length rest).1 ends
  rintro ⟨fuel, d', run, all, _⟩
  rw [dumpLoop] at run
  simp only [tag, Except.ok.injEq] at run
  subst run
  have length := congrArg List.length all
  simp only [recordsFrom, List.reverse_cons, List.length_append, List.length_cons] at length
  omega

theorem Before.passed (before : Before jf ledger (record :: records)) :
    jf.fin.pos + record.encode.length ≤ jf.fin.bytes.length := by
  have all := congrArg List.length before.rest
  rw [List.flatMap_cons, FILE.rest, List.length_drop, List.length_append] at all
  have inside := before.inside
  omega

/-- The loop reads the tag of any other record. -/
theorem Before.tagged (before : Before jf ledger (record :: records))
    (wellFormed : record.WellFormed jf.fVersion jf.identsz) (goes : record.content.tag ≠ 0xff) :
    ∃ jf', Tagged jf jf' record (records.flatMap Record.encode) ∧ Changes jf jf' ∧
      record.content.WellFormed jf'.fVersion jf'.identsz ∧ Knows jf' ledger := by
  have rest := before.rest
  rw [List.flatMap_cons] at rest
  obtain ⟨jf', tagged⟩ := (readTag_record wellFormed.time wellFormed.length rest).2 goes
  have changes := readTag_changes tagged.run
  have content := wellFormed.content
  rw [← changes.fVersion, ← changes.identsz] at content
  exact ⟨jf', tagged, changes, content, tagged.knows ledger before.knows⟩

/-- The reader of the record does not return. -/
theorem Before.not_passed (before : Before d.jf ledger (record :: records))
    (wellFormed : record.WellFormed d.jf.fVersion d.jf.identsz)
    (other : ∀ subs, record.content ≠ .heapDump subs) (goes : record.content.tag ≠ 0xff)
    (stops : ¬ record.content.Passes ledger) : ¬ Reaches d (record :: records) := by
  obtain ⟨jf', tagged, _, content, knows⟩ := before.tagged wellFormed goes
  obtain ⟨head, length, front⟩ := tagged.fin
  obtain ⟨stop, failed⟩ := (readPlain_takes content wellFormed.length other front.rest knows).2 stops
  rintro ⟨fuel, d', run, _⟩
  cases fuel with
  | zero =>
    rw [dumpLoop] at run
    simp only [tagged.run] at run
    cases run
  | succ fuel =>
    rw [dumpLoop] at run
    simp only [tagged.run, if_neg (wellFormed.content.plainTag other), failed] at run
    cases run

/-- After a record other than a heap dump. -/
theorem Before.plain_next (before : Before d.jf ledger (record :: records))
    (wellFormed : record.WellFormed d.jf.fVersion d.jf.identsz)
    (other : ∀ subs, record.content ≠ .heapDump subs) (goes : record.content.tag ≠ 0xff)
    (passes : record.content.Passes ledger) : ∃ jf₁, Before jf₁ (record.content.enter ledger) records ∧
      Changes d.jf jf₁ ∧ (Reaches d (record :: records) ↔ Reaches { d with jf := jf₁ } records) := by
  obtain ⟨jf', tagged, first, content, knows⟩ := before.tagged wellFormed goes
  obtain ⟨head, length, front⟩ := tagged.fin
  obtain ⟨jf₁, body, taken⟩ := (readPlain_takes content wellFormed.length other
    front.rest knows).1 passes
  have changes : Changes d.jf jf₁ := first.trans taken.changes
  have pos : jf₁.fin.pos = d.jf.fin.pos + record.encode.length := by
    rw [taken.fin.reads.pos, ← length, front.reads.pos, Nat.add_assoc]
  have bytes : jf₁.fin.bytes = d.jf.fin.bytes := taken.fin.reads.bytes.trans front.reads.bytes
  have plain₁ : jf₁.fclass = none := changes.fclass.trans before.plain
  refine ⟨jf₁, ⟨taken.fin.rest, ?_, plain₁, taken.knows⟩, changes, ?_⟩
  · rw [pos, bytes]
    exact before.passed
  · apply @reaches_advance jf₁ d record records 0 before.plain plain₁ ?_ bytes pos
      (taken.records.trans tagged.starts)
    intro fuel _
    rw [dumpLoop]
    simp only [tagged.run, if_neg (wellFormed.content.plainTag other), body]

/-- How far the loop of `readHeap` gets with the bytes of a heap dump. -/
structure Segment (jf jf₁ : Jdump) (ledger : Ledger) (subs : List HeapRecord) (hs : Count)
    (sum : Summary) (more : List Byte) : Prop where
  run : ∀ fuel, readSegment (fuel + subs.length) jf
    (BitVec.ofNat 32 (subs.flatMap HeapRecord.encode).length) = heapLoop fuel jf₁ hs sum
  fin : Past jf.fin jf₁.fin (subs.flatMap HeapRecord.encode) more
  changes : Changes jf jf₁
  records : recordStarts jf₁.log = recordStarts jf.log
  left : hs.left.toNat = (subs.map (HeapRecord.missed jf.fVersion)).sum
  knows : Knows jf₁ (subs.foldl HeapRecord.enter ledger)

theorem exists_segment {subs : List HeapRecord}
    (wellFormed : Content.WellFormed jf.fVersion jf.identsz (.heapDump subs))
    (short : (Content.body (.heapDump subs)).length < 2 ^ 32)
    (rest : jf.fin.rest = Content.body (.heapDump subs) ++ more) (knows : Knows jf ledger) :
    (Content.Passes ledger (.heapDump subs) →
      ∃ jf₁ hs sum, Segment jf jf₁ ledger subs hs sum more) ∧
    (¬ Content.Passes ledger (.heapDump subs) → ∀ fuel result, readSegment fuel jf
      (BitVec.ofNat 32 (subs.flatMap HeapRecord.encode).length) ≠ .ok result) := by
  have size : (BitVec.ofNat 32 (subs.flatMap HeapRecord.encode).length).toNat =
      (subs.flatMap HeapRecord.encode).length + 0 := by
    rw [BitVec.toNat_ofNat]
    exact Nat.mod_eq_of_lt short
  have strings : (enterHeap jf).javaLangString.isSome =
      ledger.hashes (Crc32.crc32 javaLangStringName) := (knows.hashes _).symm
  obtain ⟨all, stopped⟩ := @heapLoop_heapRecords (enterHeap jf)
    ⟨BitVec.ofNat 32 (subs.flatMap HeapRecord.encode).length, false⟩ .zero more ledger _ subs 0
    wellFormed (knows.of_same rfl rfl rfl rfl rfl rfl) strings rest size
  refine ⟨fun passes => ?_, stopped⟩
  obtain ⟨jf₁, hs, sum, run, past₁, changes, forward, knows₁, left⟩ := all passes
  refine ⟨jf₁, hs, sum, run, past₁, .head (.enter jf) changes, forward.records, ?_, knows₁⟩
  rw [left, Nat.zero_add]
  rfl

theorem missed_sum_eq_zero {fVersion : Nat} {subs : List HeapRecord} :
    (subs.map (HeapRecord.missed fVersion)).sum = 0 ↔
      Content.Exact fVersion (.heapDump subs) := by
  rw [Content.Exact]
  induction subs with
  | nil => simp
  | cons sub subs ih =>
    rw [List.map_cons, List.sum_cons, Nat.add_eq_zero_iff, ih, HeapRecord.missed_eq_zero,
      List.forall_mem_cons]

/-- The pass over a heap dump, as far as its bytes go. -/
theorem Before.heap (before : Before d.jf ledger (record :: records))
    (wellFormed : record.WellFormed d.jf.fVersion d.jf.identsz)
    {subs : List HeapRecord} (content : record.content = .heapDump subs)
    (passes : record.content.Passes ledger) :
    ∃ jf' jf₁ hs sum, Tagged d.jf jf' record (records.flatMap Record.encode) ∧
      Segment jf' jf₁ ledger subs hs sum (records.flatMap Record.encode) ∧
      Changes d.jf jf₁ ∧ Knows jf₁ (record.content.enter ledger) ∧
      jf₁.fin.bytes = d.jf.fin.bytes ∧ jf₁.fin.pos = d.jf.fin.pos + record.encode.length ∧
      jf₁.fin.pos ≤ jf₁.fin.bytes.length ∧
      recordStarts jf₁.log = d.jf.fin.pos :: recordStarts d.jf.log ∧
      (hs.left = 0 ↔ record.content.Exact d.jf.fVersion) := by
  have goes : record.content.tag ≠ 0xff := by
    rw [content]
    exact (by decide : (0x0c : Byte) ≠ 0xff)
  obtain ⟨jf', tagged, first, shape, knows⟩ := before.tagged wellFormed goes
  obtain ⟨head, length, front⟩ := tagged.fin
  have short := wellFormed.length
  have after := front.rest
  rw [content] at short after shape passes
  obtain ⟨jf₁, hs, sum, segment⟩ := (exists_segment shape short after knows).1 passes
  have pos : jf₁.fin.pos = d.jf.fin.pos + record.encode.length := by
    rw [segment.fin.reads.pos, ← length, front.reads.pos, Nat.add_assoc, content]
    rfl
  have bytes : jf₁.fin.bytes = d.jf.fin.bytes := segment.fin.reads.bytes.trans front.reads.bytes
  refine ⟨jf', jf₁, hs, sum, tagged, segment, first.trans segment.changes, ?_, bytes, pos, ?_,
    segment.records.trans tagged.starts, ?_⟩
  · rw [content]
    exact segment.knows
  · rw [pos, bytes]
    exact before.passed
  · rw [content, ← missed_sum_eq_zero, ← first.fVersion, ← segment.left]
    constructor
    · intro none
      rw [none]
      rfl
    · intro none
      exact BitVec.eq_of_toNat_eq none

/-- One pass of the loop over a heap dump whose own loop ends. -/
theorem dumpLoop_heap {jf' jf₂ : Jdump} {subs : List HeapRecord} {hs : Count} {sum : Summary}
    {fuel : Nat} (tagged : Tagged d.jf jf' record more) (content : record.content = .heapDump subs)
    (plain : jf'.fclass = none) (segment : readSegment fuel jf'
      (BitVec.ofNat 32 (subs.flatMap HeapRecord.encode).length) = .ok (jf₂, hs, sum)) :
    dumpLoop (fuel + 1) d = dumpLoop fuel { d with jf := jf₂ } := by
  have run := tagged.run
  rw [content] at run
  have whole := @readHeap_plain jf₂ _ _ { d with jf := jf' } _ _ segment plain
  rw [dumpLoop]
  simp only [run, Content.tag, Content.body]
  rw [if_pos (by decide)]
  simp only [whole]

/-- A sub-record stops the program. -/
theorem Before.heap_stopped (before : Before d.jf ledger (record :: records))
    (wellFormed : record.WellFormed d.jf.fVersion d.jf.identsz)
    {subs : List HeapRecord} (content : record.content = .heapDump subs)
    (stops : ¬ record.content.Passes ledger) : ¬ Reaches d (record :: records) := by
  have goes : record.content.tag ≠ 0xff := by
    rw [content]
    exact (by decide : (0x0c : Byte) ≠ 0xff)
  obtain ⟨jf', tagged, _, shape, knows⟩ := before.tagged wellFormed goes
  obtain ⟨head, length, front⟩ := tagged.fin
  have short := wellFormed.length
  have after := front.rest
  have tag := tagged.run
  rw [content] at short after shape stops tag
  have never := (exists_segment shape short after knows).2 stops
  rintro ⟨fuel, d', run, _⟩
  cases fuel with
  | zero =>
    rw [dumpLoop] at run
    simp only [tag] at run
    cases run
  | succ fuel =>
    rw [dumpLoop] at run
    simp only [tag, Content.tag, Content.body, readHeap] at run
    rw [if_pos (by decide)] at run
    cases segment : readSegment fuel jf'
        (BitVec.ofNat 32 (subs.flatMap HeapRecord.encode).length) with
    | error stop =>
      simp only [segment] at run
      cases run
    | ok result => exact never fuel result segment

/-- A heap dump that is counted, or is the last record, is passed. -/
theorem Before.heap_counted (before : Before d.jf ledger (record :: records))
    (wellFormed : record.WellFormed d.jf.fVersion d.jf.identsz)
    {subs : List HeapRecord} (content : record.content = .heapDump subs)
    (passes : record.content.Passes ledger) (exact : record.content.Exact d.jf.fVersion) :
    ∃ jf₁, Before jf₁ (record.content.enter ledger) records ∧ Changes d.jf jf₁ ∧
      (Reaches d (record :: records) ↔ Reaches { d with jf := jf₁ } records) := by
  obtain ⟨jf', jf₁, hs, sum, tagged, segment, changes, knows, bytes, pos, inside, starts, counted⟩ :=
    before.heap wellFormed content passes
  have plain' : jf'.fclass = none := (readTag_changes tagged.run).fclass.trans before.plain
  have plain₁ : jf₁.fclass = none := changes.fclass.trans before.plain
  refine ⟨jf₁, ⟨segment.fin.rest, inside, plain₁, knows⟩, changes, ?_⟩
  apply @reaches_advance jf₁ d record records subs.length before.plain plain₁ ?_ bytes pos starts
  intro fuel enough
  obtain ⟨more, rfl⟩ : ∃ m, fuel = m + subs.length := ⟨fuel - subs.length, by omega⟩
  have run := segment.run more
  rw [heapLoop_zero _ _ _ (counted.mpr exact)] at run
  exact dumpLoop_heap tagged content plain' run

theorem Before.heap_last (before : Before d.jf ledger [record])
    (wellFormed : record.WellFormed d.jf.fVersion d.jf.identsz)
    {subs : List HeapRecord} (content : record.content = .heapDump subs)
    (passes : record.content.Passes ledger) : Reaches d [record] := by
  obtain ⟨jf', jf₁, hs, sum, tagged, segment, changes, knows, bytes, pos, inside, starts, counted⟩ :=
    before.heap wellFormed content passes
  have plain' : jf'.fclass = none := (readTag_changes tagged.run).fclass.trans before.plain
  obtain ⟨_, ended⟩ := readTag_end segment.fin.rest inside
  have short := FILE.short_of_rest segment.fin.rest
  obtain ⟨n, left⟩ := exists_passes jf₁.identsz hs.left
  obtain ⟨jf₂, hs₂, sum₂, run, bytes₂, pos₂⟩ := heapLoop_end short left
  have forward := heapLoop_forward run
  rw [← segment.run n] at run
  have step := dumpLoop_heap tagged content plain' run
  have rest₂ : jf₂.fin.rest = [] := by
    rw [FILE.rest, bytes₂, pos₂]
    exact segment.fin.rest
  obtain ⟨tag₂, _⟩ := readTag_end rest₂ (by rw [bytes₂, pos₂]; exact inside)
  refine ⟨n + subs.length + 1, { d with jf := jf₂ }, ?_, ?_, ?_⟩
  · rw [step, dumpLoop]
    simp only [tag₂]
  · exact forward.records.trans starts
  · exact pos₂.trans (ended.trans (congrArg List.length bytes))

theorem heapLoop_past {jf' : Jdump} {hs hs' : Count} {sum sum' : Summary} {fuel : Nat}
    (run : heapLoop fuel jf hs sum = .ok (jf', hs', sum')) (left : hs.left ≠ 0)
    (has : jf.fin.Has 1) : jf.fin.pos < jf'.fin.pos := by
  cases fuel with
  | zero =>
    rw [heapLoop_fuel _ _ left] at run
    cases run
  | succ fuel =>
    cases pass : heapPass jf hs sum with
    | error stop =>
      rw [heapLoop_error _ left pass] at run
      cases run
    | ok result =>
      obtain ⟨jf₂, hs₂, sum₂⟩ := result
      rw [heapLoop_ok _ left pass] at run
      exact ((heapPass_forward pass).2 has).trans_le (heapLoop_forward run).fin.pos

/-- Otherwise the loop of `readHeap` has gone past the start of the next record. -/
theorem Before.heap_over {next : Record} (before : Before d.jf ledger (record :: next :: records))
    (wellFormed : record.WellFormed d.jf.fVersion d.jf.identsz)
    {subs : List HeapRecord} (content : record.content = .heapDump subs)
    (passes : record.content.Passes ledger)
    (inexact : ¬ record.content.Exact d.jf.fVersion) : ¬ Reaches d (record :: next :: records) := by
  obtain ⟨jf', jf₁, hs, sum, tagged, segment, changes, knows, bytes, pos, inside, starts, counted⟩ :=
    before.heap wellFormed content passes
  have plain' : jf'.fclass = none := (readTag_changes tagged.run).fclass.trans before.plain
  have more : hs.left ≠ 0 := fun none => inexact (counted.mp none)
  have has : jf₁.fin.Has 1 := by
    apply FILE.has_of_rest (by decide)
    rw [segment.fin.rest]
    simp only [List.flatMap_cons, Record.encode, List.length_append, List.length_cons]
    omega
  rintro ⟨fuel, d', run, all, _⟩
  replace run := dumpLoop_mono run before.plain (subs.length + 1)
  rw [← Nat.add_assoc] at run
  cases ended : heapLoop fuel jf₁ hs sum with
  | error stop =>
    rw [← segment.run fuel] at ended
    have tag := tagged.run
    rw [content] at tag
    rw [dumpLoop] at run
    simp only [tag, Content.tag, Content.body, readHeap] at run
    rw [if_pos (by decide)] at run
    simp only [ended] at run
    cases run
  | ok result =>
    obtain ⟨jf₂, hs₂, sum₂⟩ := result
    have far := heapLoop_past ended more has
    have forward := heapLoop_forward ended
    rw [← segment.run fuel] at ended
    rw [dumpLoop_heap tagged content plain' ended] at run
    have plain₂ : jf₂.fclass = none := by
      obtain ⟨steps, _⟩ := heapLoop_steps (d := { d with jf := enterHeap jf' }) ended
      rw [steps.changes.fclass]
      exact plain'
    obtain ⟨new, starts₂, further⟩ := dumpLoop_forward run plain₂
    -- the pass that should start at the next record is not among the later ones
    have missing : jf₁.fin.pos ∈ new := by
      have before₂ : recordStarts jf₂.log = d.jf.fin.pos :: recordStarts d.jf.log :=
        forward.records.trans starts
      rw [all] at starts₂
      simp only [before₂, recordsFrom, List.reverse_cons, List.append_assoc] at starts₂
      have listed : (recordsFrom (d.jf.fin.pos + record.encode.length + next.encode.length)
          records).reverse ++ [d.jf.fin.pos + record.encode.length] ++
            d.jf.fin.pos :: recordStarts d.jf.log = new ++ d.jf.fin.pos :: recordStarts d.jf.log := by
        simpa using starts₂
      rw [← List.append_cancel_right listed, pos]
      simp
    have late := further _ missing
    simp only at late
    omega

/-- From the first of the records on, the loop reaches them all if and only if nothing is in
the way. -/
theorem reaches_iff (before : Before d.jf ledger records)
    (wellFormed : ∀ record ∈ records, record.WellFormed d.jf.fVersion d.jf.identsz) :
    Reaches d records ↔ Passable d.jf.fVersion ledger records := by
  induction records generalizing d ledger with
  | nil => exact ⟨fun _ => trivial, fun _ => reaches_nil before⟩
  | cons record records ih =>
    have here := wellFormed record List.mem_cons_self
    by_cases goes : record.content.tag = 0xff
    · exact iff_of_false (before.not_tag here goes) fun passable => passable.1.1 goes
    by_cases passes : record.content.Passes ledger
    · -- what one passed record leaves to be shown
      have step : ∀ jf₁, Before jf₁ (record.content.enter ledger) records → Changes d.jf jf₁ →
          (Reaches d (record :: records) ↔ Reaches { d with jf := jf₁ } records) →
          (records ≠ [] → record.content.Exact d.jf.fVersion) →
          (Reaches d (record :: records) ↔ Passable d.jf.fVersion ledger (record :: records)) := by
        intro jf₁ before₁ changes reaches exact
        have later := @ih { d with jf := jf₁ } _ before₁ (by
          intro other member
          simp only [changes.fVersion, changes.identsz]
          exact wellFormed other (.tail _ member))
        simp only [changes.fVersion] at later
        rw [reaches, later, Passable]
        exact ⟨fun rest => ⟨⟨goes, passes, exact⟩, rest⟩, fun all => all.2⟩
      by_cases heap : ∃ subs, record.content = .heapDump subs
      · obtain ⟨subs, content⟩ := heap
        by_cases exact : record.content.Exact d.jf.fVersion
        · obtain ⟨jf₁, before₁, changes, reaches⟩ :=
            before.heap_counted here content passes exact
          exact step jf₁ before₁ changes reaches fun _ => exact
        · cases records with
          | nil =>
            refine iff_of_true (before.heap_last here content passes) ?_
            exact ⟨⟨goes, passes, fun more => absurd rfl more⟩, trivial⟩
          | cons next records =>
            refine iff_of_false (before.heap_over here content passes exact) ?_
            exact fun passable => exact (passable.1.2.2 (List.cons_ne_nil _ _))
      · have other := not_exists.mp heap
        have exact : record.content.Exact d.jf.fVersion := by
          cases content : record.content with
          | heapDump subs => exact absurd content (other subs)
          | _ => trivial
        obtain ⟨jf₁, before₁, changes, reaches⟩ :=
          before.plain_next here other goes passes
        exact step jf₁ before₁ changes reaches fun _ => exact
    · refine iff_of_false ?_ fun passable => passes passable.1.2.1
      by_cases heap : ∃ subs, record.content = .heapDump subs
      · obtain ⟨subs, content⟩ := heap
        exact before.heap_stopped here content passes
      · exact before.not_passed here (not_exists.mp heap) goes passes

end Records

/-- `readDump` without a class to look at passes over every record of the file, once and
in order, and over nothing else, and leaves its loop where the file ends. -/
def RecordsReached (memory : Dump) (sb : List Byte) (plimit : Int) (file : FILE) (start : Nat)
    (records : List Record) : Prop :=
  ∃ fuel d, readDump memory sb none plimit fuel file = .ok d ∧
    recordStarts d.jf.log = (recordsFrom start records).reverse ∧
    d.jf.fin.pos = file.bytes.length

/-- The header and the records of a dump file. -/
structure DumpFile (header : Header) (text : CString) (records : List Record) : Prop where
  version : (text, header.fVersion) ∈ versionTexts
  each : ∀ record ∈ records, record.WellFormed header.fVersion header.identsz

/-- A file opened at its start. -/
def fileOf (header : Header) (text : CString) (records : List Record) (stale : Nat → BitVec 64)
    (reads : Nat) : FILE :=
  ⟨header.encode text ++ records.flatMap Record.encode, 0, stale, reads⟩

/-- Behind the header the loop has got to the first record. -/
theorem DumpFile.reached_iff {header : Header} {text : CString} {records : List Record}
    (wellFormed : DumpFile header text records) (memory : Dump) (sb : List Byte) (plimit : Int)
    (stale : Nat → BitVec 64) (reads : Nat) : ∃ d, Before d.jf .initial records ∧
      d.jf.fVersion = header.fVersion ∧ d.jf.identsz = header.identsz ∧
      (RecordsReached memory sb plimit (fileOf header text records stale reads)
        (header.encode text).length records ↔ Reaches d records) := by
  have rest : (fileOf header text records stale reads).rest =
      header.encode text ++ records.flatMap Record.encode := rfl
  obtain ⟨date, f, read, past⟩ := readHeader_encode wellFormed.version sb rest
  refine ⟨{ jf := memory.jf.create ⟨header.fVersion, header.identsz, date⟩ f none plimit
            lk := .initial memory.lk
            screen := memory.screen }, ⟨past.rest, ?_, rfl, ?_⟩, rfl, rfl, ?_⟩
  · have bytes : f.bytes.length = (header.encode text ++ records.flatMap Record.encode).length :=
      congrArg List.length past.reads.bytes
    have pos : f.pos = 0 + (header.encode text).length := past.reads.pos
    rw [List.length_append] at bytes
    change f.pos ≤ f.bytes.length
    omega
  · have opened := memory.jf.create_opened ⟨header.fVersion, header.identsz, date⟩ f none plimit
    exact ⟨opened.tracks, opened.tallies⟩
  · have pos : f.pos = (header.encode text).length := past.reads.pos.trans (Nat.zero_add _)
    have bytes : f.bytes = (fileOf header text records stale reads).bytes := past.reads.bytes
    have noted : recordStarts (memory.jf.create ⟨header.fVersion, header.identsz, date⟩ f none
        plimit).log = [] := rfl
    rw [RecordsReached, Reaches]
    simp only [readDump, read, noted, List.append_nil]
    change _ ↔ ∃ (fuel : Nat) (d' : Dump), _ ∧
      recordStarts d'.jf.log = (recordsFrom f.pos records).reverse ∧ d'.jf.fin.pos = f.bytes.length
    rw [pos, bytes]

theorem records_reached {header : Header} {text : CString} {records : List Record}
    (wellFormed : DumpFile header text records) (memory : Dump) (sb : List Byte) (plimit : Int)
    (stale : Nat → BitVec 64) (reads : Nat) :
    RecordsReached memory sb plimit (fileOf header text records stale reads)
      (header.encode text).length records ↔ Passable header.fVersion .initial records := by
  obtain ⟨d, before, version, identsz, reached⟩ :=
    wellFormed.reached_iff memory sb plimit stale reads
  rw [reached, ← version]
  apply reaches_iff before
  rw [version, identsz]
  exact wellFormed.each

def sampleHeader : Header := ⟨1, .four, 0⟩

/-- A string, the class it names, a stack frame in it, a heap dump with an instance of it, and
a record of a kind the program skips. No class of strings is loaded. -/
def sampleFile : List Record :=
  [⟨[0, 0, 0, 0], .utf8 [0, 0, 0, 5] [0x41]⟩,
    ⟨[0, 0, 0, 0], .loadClass [0, 0, 0, 1] [0, 0, 0, 1] [0, 0, 0, 0] [0, 0, 0, 5]⟩,
    ⟨[0, 0, 0, 0], .frame (List.replicate 16 0) [0, 0, 0, 1] [0, 0, 0, 0]⟩,
    ⟨[0, 0, 0, 0], .heapDump [.sub (.primArray [0, 0, 0, 4] [0, 0, 0, 0] 5 [[0, 1]]),
      .sub (.instanceDump [0, 0, 0, 6] [0, 0, 0, 0] [0, 0, 0, 1] [0, 0, 0, 42])]⟩,
    ⟨[0, 0, 0, 0], .other 0x0d [1, 2, 3]⟩]

theorem records_reached_sample :
    RecordsReached (.start [] .four none) [] 0
      (fileOf sampleHeader (profileName ++ [chr '.', chr '1']) sampleFile (fun _ => 0) 0) 31
      sampleFile := by
  have wellFormed : DumpFile sampleHeader (profileName ++ [chr '.', chr '1']) sampleFile := by
    constructor
    · decide
    · intro record member
      simp only [sampleFile, List.mem_cons, List.not_mem_nil, or_false] at member
      rcases member with rfl | rfl | rfl | rfl | rfl
      · exact ⟨rfl, by decide, rfl⟩
      · exact ⟨rfl, by decide, rfl, rfl, rfl, rfl⟩
      · exact ⟨rfl, by decide, rfl, rfl, rfl⟩
      · refine ⟨rfl, by decide, ?_⟩
        intro sub member
        simp only [List.mem_cons, List.not_mem_nil, or_false] at member
        rcases member with rfl | rfl
        · exact ⟨⟨rfl, rfl, by decide, by decide, by decide⟩, by decide⟩
        · exact ⟨⟨rfl, rfl, rfl, by decide⟩, by decide⟩
      · exact ⟨rfl, by decide, (by decide : (0x0d : Byte) ∉ _)⟩
  have passable : Passable sampleHeader.fVersion .initial sampleFile := by
    have short : ([0x41] : List Byte).length + 1 < maxCount 1 := by decide
    refine ⟨⟨by decide, short, fun _ => trivial⟩, ⟨by decide, ?_, fun _ => trivial⟩,
      ⟨by decide, ?_, fun _ => trivial⟩, ⟨by decide, ?_, ?_⟩,
      ⟨by decide, trivial, fun _ => trivial⟩, trivial⟩
    · change Option.isSome _ = true
      decide +kernel
    · change Ledger.serials _ _ = true
      decide +kernel
    · refine ⟨⟨fun _ needed => (by cases needed), trivial, .inr trivial⟩,
        ⟨fun ident needed => ?_, trivial, .inr fun entry found => ?_⟩, trivial⟩
      · cases needed
        decide +kernel
      · have counted : some entry = some ⟨[0x41], 0⟩ := found.symm.trans (by decide +kernel)
        cases counted
        decide
    · intro _ sub member
      simp only [List.mem_cons, List.not_mem_nil, or_false] at member
      rcases member with rfl | rfl <;> trivial
  exact (records_reached wellFormed (.start [] .four none) [] 0 (fun _ => 0) 0).mpr passable

/-- A record with the tag 255 and one behind it. -/
def sampleEnd : List Record := [⟨[0, 0, 0, 0], .other 0xff []⟩, ⟨[0, 0, 0, 0], .other 0x0d []⟩]

/-- The loop does not get to the first of them. -/
theorem tag_taken_for_end :
    DumpFile sampleHeader (profileName ++ [chr '.', chr '1']) sampleEnd ∧
      ¬ RecordsReached (.start [] .four none) [] 0
        (fileOf sampleHeader (profileName ++ [chr '.', chr '1']) sampleEnd (fun _ => 0) 0) 31
        sampleEnd := by
  have records : ∀ record ∈ sampleEnd, record.WellFormed 1 .four := by
    intro record member
    simp only [sampleEnd, List.mem_cons, List.not_mem_nil, or_false] at member
    rcases member with rfl | rfl
    · exact ⟨rfl, by decide, (by decide : (0xff : Byte) ∉ _)⟩
    · exact ⟨rfl, by decide, (by decide : (0x0d : Byte) ∉ _)⟩
  have wellFormed : DumpFile sampleHeader (profileName ++ [chr '.', chr '1']) sampleEnd :=
    ⟨by decide, records⟩
  refine ⟨wellFormed, fun reached => ?_⟩
  obtain ⟨d, before, version, identsz, same⟩ :=
    wellFormed.reached_iff (.start [] .four none) [] 0 (fun _ => 0) 0
  apply before.not_tag ?_ rfl (same.mp reached)
  rw [version, identsz]
  exact records _ List.mem_cons_self

end Phat
