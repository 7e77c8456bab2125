import Phat.Counting

/-! One pass through the loop of `readHeap` over a sub-record that lies in the file: the
position moves to the end of it, and the remaining count by as much if it is sound. -/
namespace Phat

def Event.asSub : Event → Option Nat
  | .sub pos _ => some pos
  | _ => none

/-- The positions at which passes have started, the last first. -/
def startsOf (log : List Event) : List Nat := log.filterMap Event.asSub

/-- The case of a sub-record moves the file by `n` bytes and starts no other pass. -/
structure Passed (jf jf' : Jdump) (n : Nat) : Prop where
  reads : Reads jf.fin jf'.fin n
  fVersion : jf'.fVersion = jf.fVersion
  identsz : jf'.identsz = jf.identsz
  string : jf'.javaLangString = jf.javaLangString
  starts : startsOf jf'.log = startsOf jf.log

section Cases
attribute [local irreducible] readIdent readUintLocal readUshortLocal readUshort readWords
  readIdents readClassHeader readClassLists

variable {jf jf' : Jdump} {hs hs' : Count} {s : Span}

theorem whole_some {rest : List Byte} {n : Nat} (parse : whole rest n = some s) :
    n ≤ rest.length ∧ s = ⟨n, true⟩ := by
  rw [whole] at parse
  split at parse
  · cases parse
    exact ⟨‹_›, rfl⟩
  · cases parse

theorem readIdents_succ (identsz : IdentSize) (n : Nat) (f : FILE) :
    readIdents identsz (n + 1) f = readIdents identsz n (readIdent identsz f).2 := by
  rw [readIdents]

theorem readWords_succ (n : Nat) (f : FILE) :
    readWords (n + 1) f = readWords n (readUintLocal f).2 := by
  rw [readWords]

theorem readIdents_reads {identsz : IdentSize} {n : Nat} {f : FILE}
    (fits : n * identsz.size ≤ f.rest.length) :
    Reads f (readIdents identsz n f) (n * identsz.size) := by
  induction n generalizing f with
  | zero =>
    rw [readIdents, Nat.zero_mul]
    exact .refl f
  | succ n ih =>
    rw [Nat.succ_mul] at fits ⊢
    have first := readIdent_reads (show identsz.size ≤ f.rest.length by omega)
    rw [readIdents_succ, Nat.add_comm]
    apply first.trans
    apply ih
    rw [first.rest, List.length_drop]
    omega

theorem readWords_reads {n : Nat} {f : FILE} (fits : 4 * n ≤ f.rest.length) :
    Reads f (readWords n f) (4 * n) := by
  induction n generalizing f with
  | zero =>
    rw [readWords]
    exact .refl f
  | succ n ih =>
    have first := readUintLocal_reads (show 4 ≤ f.rest.length by omega)
    rw [readWords_succ, Nat.mul_succ, Nat.add_comm]
    apply first.trans
    apply ih
    rw [first.rest, List.length_drop]
    omega

theorem rootKind_small {rtype : Byte} {kind : RootKind} (found : rootKind rtype = some kind) :
    1 ≤ kind.idents ∧ kind.idents ≤ 2 ∧ kind.words ≤ 2 := by
  unfold rootKind at found
  split at found <;> cases found <;> decide

theorem readRoot_passes {rtype : Byte} {kind : RootKind} (found : rootKind rtype = some kind)
    (parse : whole jf.fin.rest (kind.idents * jf.identsz.size + 4 * kind.words) = some s)
    (hs : Count) : Passed jf (readRoot kind jf hs).1 s.length ∧
      (s.length ≤ hs.left.toNat → Counted hs (readRoot kind jf hs).2 s) := by
  obtain ⟨idents, _, words⟩ := rootKind_small found
  obtain ⟨fits, rfl⟩ := whole_some parse
  have split : kind.idents * jf.identsz.size =
      jf.identsz.size + (kind.idents - 1) * jf.identsz.size := by
    obtain ⟨n, count⟩ : ∃ n, kind.idents = n + 1 := ⟨kind.idents - 1, by omega⟩
    rw [count, Nat.add_sub_cancel, Nat.succ_mul, Nat.add_comm]
  constructor
  · have first := readIdent_reads (show jf.identsz.size ≤ jf.fin.rest.length by omega)
    have others := readIdents_reads (show (kind.idents - 1) * jf.identsz.size ≤
      (readIdent jf.identsz jf.fin).2.rest.length by rw [first.rest, List.length_drop]; omega)
    have named := first.trans others
    have last := readWords_reads (show 4 * kind.words ≤ (readIdents jf.identsz (kind.idents - 1)
      (readIdent jf.identsz jf.fin).2).rest.length by rw [named.rest, List.length_drop]; omega)
    have all := named.trans last
    rw [← split] at all
    exact ⟨all, rfl, rfl, rfl, rfl⟩
  · intro room
    refine (Count.sub_counts ?_ room).counted
    have small : kind.idents * jf.identsz.size ≤ 16 := by
      have size : jf.identsz.size ≤ 8 := by cases jf.identsz <;> decide
      exact le_trans (Nat.mul_le_mul ‹_› size) (by decide)
    rw [BitVec.toNat_add, BitVec.toNat_mul, IdentSize.width_toNat, BitVec.toNat_ofNat,
      BitVec.toNat_ofNat, Nat.mod_eq_of_lt (show kind.idents < 2 ^ 32 by omega),
      Nat.mod_eq_of_lt (show 4 * kind.words < 2 ^ 32 by omega)]
    simp only
    rw [Nat.mod_eq_of_lt (show kind.idents * jf.identsz.size < 2 ^ 32 by omega),
      Nat.mod_eq_of_lt (by omega)]

theorem readClassHeader_file (identsz : IdentSize) (f : FILE) : (readClassHeader identsz f).2 =
    (readUintLocal (readIdents identsz 6 (readUintLocal f).2)).2 := by
  unfold readClassHeader
  simp only [readIdents_succ]
  rw [readIdents]

theorem readClassHeader_reads {identsz : IdentSize} {f : FILE}
    (fits : 6 * identsz.size + 8 ≤ f.rest.length) :
    Reads f (readClassHeader identsz f).2 (6 * identsz.size + 8) := by
  have first := readUintLocal_reads (show 4 ≤ f.rest.length by omega)
  have idents := readIdents_reads (show 6 * identsz.size ≤ (readUintLocal f).2.rest.length by
    rw [first.rest, List.length_drop]; omega)
  have named := first.trans idents
  have last := readUintLocal_reads (show 4 ≤ (readIdents identsz 6 (readUintLocal f).2).rest.length
    by rw [named.rest, List.length_drop]; omega)
  rw [readClassHeader_file]
  have all := named.trans last
  rwa [show 4 + 6 * identsz.size + 4 = 6 * identsz.size + 8 by omega] at all

theorem readClass_passes (parse : classSpan jf.fVersion jf.identsz jf.fin.rest = some s)
    (read : readClass jf hs = .ok (jf', hs')) : Passed jf jf' s.length ∧
      (s.length ≤ hs.left.toNat → hs.left.toNat < 2 ^ 32 - 1 → Counted hs hs' s) := by
  simp only [classSpan, Option.bind_eq_bind, Option.bind_eq_some_iff] at parse
  obtain ⟨lists, parse, same⟩ := parse
  cases same
  have room : 7 * jf.identsz.size + 8 ≤ jf.fin.rest.length := by
    simp only [listsSpan, Option.bind_eq_bind, Option.bind_eq_some_iff] at parse
    obtain ⟨cpool, first, _⟩ := parse
    have fits := (numberAt_fits first).1
    rw [List.length_drop] at fits
    omega
  have ident := readIdent_reads (show jf.identsz.size ≤ jf.fin.rest.length by omega)
  have header := readClassHeader_reads (show 6 * jf.identsz.size + 8 ≤
    (readIdent jf.identsz jf.fin).2.rest.length by rw [ident.rest, List.length_drop]; omega)
  have fixed := ident.trans header
  rw [show jf.identsz.size + (6 * jf.identsz.size + 8) = 7 * jf.identsz.size + 8 by omega] at fixed
  rw [← fixed.rest] at parse
  rw [readClass] at read
  simp only at read
  split at read
  · cases read
  · rename_i c found
    cases read
    obtain ⟨reads, counted⟩ := readClassLists_reads _ parse (hs.sub (7 * jf.identsz.width + 8))
    refine ⟨⟨fixed.trans reads, rfl, rfl, rfl, rfl⟩, fun fits below => ?_⟩
    have width : (7 * jf.identsz.width + 8).toNat = 7 * jf.identsz.size + 8 := by
      cases jf.identsz <;> rfl
    simp only at fits
    have start := Count.sub_counts width (show 7 * jf.identsz.size + 8 ≤ hs.left.toNat by omega)
    have left := start.left
    rcases counted (by omega) (by omega) with ⟨wrapped, unsound⟩ | ⟨m, short, counts, exact⟩
    · exact .inl ⟨wrapped, unsound⟩
    · exact .inr ⟨_, by simp only; omega, start.trans counts, by simp only [← exact]; omega⟩

theorem readInstance_passes (parse : instanceSpan jf.identsz jf.fin.rest = some s)
    (read : readInstance jf hs = .ok (jf', hs')) (fits : s.length ≤ hs.left.toNat) :
    Passed jf jf' s.length ∧ Counted hs hs' s := by
  simp only [instanceSpan, Option.bind_eq_bind, Option.bind_eq_some_iff] at parse
  obtain ⟨isz, size, parse⟩ := parse
  obtain ⟨enough, rfl⟩ := whole_some parse
  simp only at fits
  have ident := readIdent_reads (show jf.identsz.size ≤ jf.fin.rest.length by omega)
  have stack := ident.trans (readUintLocal_reads
    (show 4 ≤ (readIdent jf.identsz jf.fin).2.rest.length by
      rw [ident.rest, List.length_drop]; omega))
  have named := stack.trans (readIdent_reads
    (show jf.identsz.size ≤ (readUintLocal (readIdent jf.identsz jf.fin).2).2.rest.length by
      rw [stack.rest, List.length_drop]; omega))
  rw [show jf.identsz.size + 4 + jf.identsz.size = 2 * jf.identsz.size + 4 by omega] at named
  rw [← named.rest] at size
  obtain ⟨sized, value⟩ := readUint_number size
  have header := named.trans sized
  have width : ∀ b : BitVec 32, b.toNat = isz →
      (b + 8 + jf.identsz.width + jf.identsz.width).toNat = 2 * jf.identsz.size + 8 + isz := by
    intro b value
    have bound := hs.left.isLt
    have eight : (8 : BitVec 32).toNat = 8 := rfl
    simp only [BitVec.toNat_add, IdentSize.width_toNat, value, eight]
    omega
  rw [readInstance] at read
  simp only at read
  split at read
  · cases read
  · split at read
    · cases read
    · rename_i keep _
      cases read
      refine ⟨?_, (Count.sub_counts (width _ value) fits).counted⟩
      have moved : Reads jf.fin ((readUintLocal (readIdent jf.identsz (readUintLocal (readIdent
          jf.identsz jf.fin).2).2).2).2.seekCur isz) (2 * jf.identsz.size + 8 + isz) := by
        constructor
        · exact header.bytes
        · simp only [FILE.seekCur, header.pos]
          omega
      rw [← value] at moved ⊢
      cases keep <;> exact ⟨moved, rfl, rfl, rfl, rfl⟩

theorem arrayClass_keeps (cname : CString) (elemClassId : BitVec 64) :
    (arrayClass jf cname elemClassId).2.fin = jf.fin ∧
      (arrayClass jf cname elemClassId).2.fVersion = jf.fVersion ∧
      (arrayClass jf cname elemClassId).2.identsz = jf.identsz ∧
      (arrayClass jf cname elemClassId).2.javaLangString = jf.javaLangString ∧
      startsOf (arrayClass jf cname elemClassId).2.log = startsOf jf.log := by
  cases known : jf.findClass cname with
  | some c =>
    rw [arrayClass_known elemClassId known]
    exact ⟨rfl, rfl, rfl, rfl, rfl⟩
  | none =>
    rw [arrayClass, known]
    exact ⟨rfl, rfl, rfl, rfl, rfl⟩

/-- The end of `readArray`: the elements are skipped. -/
theorem storeArray_passes {jf₀ : Jdump} {n k : Nat} (ht : HType) (raw ide elemClassId : BitVec 64)
    (cname : CString) (elsz : Nat) {isz : BitVec 32} (reads : Reads jf₀.fin jf.fin n)
    (same : jf.fVersion = jf₀.fVersion ∧ jf.identsz = jf₀.identsz ∧
      jf.javaLangString = jf₀.javaLangString ∧ jf.log = jf₀.log)
    (size : (BitVec.ofNat 32 elsz * isz).toNat = k) :
    Passed jf₀ (storeArray (arrayClass jf cname elemClassId).2 ht raw ide
      (arrayClass jf cname elemClassId).1 elsz isz) (n + k) := by
  obtain ⟨fin, version, identsz, string, starts⟩ := @arrayClass_keeps jf cname elemClassId
  refine ⟨⟨?_, ?_⟩, version.trans same.1, identsz.trans same.2.1, string.trans same.2.2.1,
    starts.trans (by rw [same.2.2.2])⟩
  · change ((arrayClass jf cname elemClassId).2.fin.seekCur _).bytes = _
    rw [fin]
    exact reads.bytes
  · change ((arrayClass jf cname elemClassId).2.fin.seekCur _).pos = _
    rw [fin, size]
    simp only [FILE.seekCur, reads.pos, Nat.add_assoc]

theorem primType_small {e : BitVec 64} {sig : Byte} {elsz : Nat}
    (known : primType e = some (sig, elsz)) : elsz ≤ 8 := by
  unfold primType at known
  split at known <;> cases known <;> decide

theorem product_toNat {elsz n : Nat} {isz : BitVec 32} (value : isz.toNat = n) (small : elsz ≤ 8)
    (fits : elsz * n < 2 ^ 32) : (BitVec.ofNat 32 elsz * isz).toNat = elsz * n := by
  rw [BitVec.toNat_mul, BitVec.toNat_ofNat, value, Nat.mod_eq_of_lt (show elsz < 2 ^ 32 by omega),
    Nat.mod_eq_of_lt fits]

/-- The identifier, the trace number and the length of an array. -/
theorem arrayHeader_reads {isz : Nat}
    (size : numberAt 4 (jf.fin.rest.drop (jf.identsz.size + 4)) = some isz) :
    Reads jf.fin (readUintLocal (readUintLocal (readIdent jf.identsz jf.fin).2).2).2
        (jf.identsz.size + 8) ∧
      (readUintLocal (readUintLocal (readIdent jf.identsz jf.fin).2).2).1.toNat = isz := by
  have fits := (numberAt_fits size).1
  rw [List.length_drop] at fits
  have ident := readIdent_reads (show jf.identsz.size ≤ jf.fin.rest.length by omega)
  have stack := ident.trans (readUintLocal_reads
    (show 4 ≤ (readIdent jf.identsz jf.fin).2.rest.length by
      rw [ident.rest, List.length_drop]; omega))
  rw [← stack.rest] at size
  obtain ⟨sized, value⟩ := readUint_number size
  exact ⟨stack.trans sized, value⟩

theorem readObjArray_passes (parse : objArraySpan jf.identsz jf.fin.rest = some s)
    (read : readArray jf hs false = .ok (jf', hs')) (fits : s.length ≤ hs.left.toNat) :
    Passed jf jf' s.length ∧ Counted hs hs' s := by
  simp only [objArraySpan, Option.bind_eq_bind, Option.bind_eq_some_iff] at parse
  obtain ⟨isz, size, parse⟩ := parse
  obtain ⟨enough, rfl⟩ := whole_some parse
  simp only at fits
  obtain ⟨header, value⟩ := arrayHeader_reads size
  have bound := hs.left.isLt
  have named := header.trans (readIdent_reads (show jf.identsz.size ≤ (readUintLocal (readUintLocal
    (readIdent jf.identsz jf.fin).2).2).2.rest.length by rw [header.rest, List.length_drop]; omega))
  have small : jf.identsz.size ≤ 8 := by cases jf.identsz <;> decide
  have product := product_toNat value small (by omega)
  rw [readArray] at read
  simp only [Bool.false_eq_true, if_false] at read
  split at read
  · cases read
  · split at read
    · cases read
    · rename_i cname _
      split at read
      · cases read
      · cases read
        constructor
        · have passed := @storeArray_passes { jf with fin := _ } jf _ _ .hOarray
            (rawIdent jf.identsz jf.fin) (readIdent jf.identsz jf.fin).1
            (readIdent jf.identsz (readUintLocal (readUintLocal (readIdent jf.identsz
              jf.fin).2).2).2).1 cname jf.identsz.size _ named ⟨rfl, rfl, rfl, rfl⟩ product
          rwa [show jf.identsz.size + 8 + jf.identsz.size + jf.identsz.size * isz =
            2 * jf.identsz.size + 8 + jf.identsz.size * isz by omega] at passed
        · have width : (8 + jf.identsz.width).toNat = jf.identsz.size + 8 := by
            cases jf.identsz <;> rfl
          have first := Count.sub_counts width (show jf.identsz.size + 8 ≤ hs.left.toNat by omega)
          have left := first.left
          have second := first.trans (Count.sub_counts jf.identsz.width_toNat
            (show jf.identsz.size ≤ (hs.sub (8 + jf.identsz.width)).left.toNat by omega))
          have rest := second.left
          have third := second.trans (Count.sub_counts product (by omega))
          rw [show jf.identsz.size + 8 + jf.identsz.size + jf.identsz.size * isz =
            2 * jf.identsz.size + 8 + jf.identsz.size * isz by omega] at third
          exact third.counted

theorem readPrimArray_passes (parse : primArraySpan jf.identsz jf.fin.rest = some s)
    (read : readArray jf hs true = .ok (jf', hs')) (fits : s.length ≤ hs.left.toNat) :
    Passed jf jf' s.length ∧ Counted hs hs' s := by
  simp only [primArraySpan, Option.bind_eq_bind, Option.bind_eq_some_iff] at parse
  obtain ⟨isz, size, type, head, parse⟩ := parse
  obtain ⟨enough, rfl⟩ := whole_some parse
  simp only at fits
  obtain ⟨header, value⟩ := arrayHeader_reads size
  have bound := hs.left.isLt
  rw [← header.rest] at head
  obtain ⟨tail, rest⟩ : ∃ tail, (readUintLocal (readUintLocal (readIdent jf.identsz
      jf.fin).2).2).2.rest = type :: tail := by
    cases list : (readUintLocal (readUintLocal (readIdent jf.identsz jf.fin).2).2).2.rest with
    | nil =>
      rw [list] at head
      cases head
    | cons b tail =>
      rw [list] at head
      cases head
      exact ⟨tail, rfl⟩
  obtain ⟨read₁, one⟩ := getc_of_rest rest
  have named := header.trans one
  have code : BitVec.ofInt 64 (readUintLocal (readUintLocal (readIdent jf.identsz
      jf.fin).2).2).2.getc.1 = type.setWidth 64 := by
    rw [read₁]
    apply BitVec.eq_of_toNat_eq
    simp
  have width : (8 + jf.identsz.width).toNat = jf.identsz.size + 8 := by
    cases jf.identsz <;> rfl
  have first := Count.sub_counts width (show jf.identsz.size + 8 ≤ hs.left.toNat by omega)
  have left := first.left
  have unit : (1 : BitVec 32).toNat = 1 := rfl
  have second := first.trans (Count.sub_counts unit
    (show 1 ≤ (hs.sub (8 + jf.identsz.width)).left.toNat by omega))
  have remaining := second.left
  rw [readArray] at read
  simp only [if_true] at read
  rw [code] at read
  split at read
  · rename_i primSig elsz known
    cases read
    have size : elementWidth jf.identsz type = elsz := by
      rw [elementWidth, known]
    rw [size] at fits ⊢
    have product := product_toNat value (primType_small known) (by omega)
    constructor
    · exact @storeArray_passes { jf with fin := _ } jf _ _ .hVarray
        (rawIdent jf.identsz jf.fin) (readIdent jf.identsz jf.fin).1 (type.setWidth 64)
        [chr '[', primSig] elsz _ named ⟨rfl, rfl, rfl, rfl⟩ product
    · exact (second.trans (Count.sub_counts product (by omega))).counted
  · rename_i unknown
    have size : elementWidth jf.identsz type = jf.identsz.size := by
      rw [elementWidth, unknown]
    rw [size] at fits ⊢
    have small : jf.identsz.size ≤ 8 := by cases jf.identsz <;> decide
    have product := product_toNat value small (by omega)
    split at read
    · cases read
    · split at read
      · cases read
      · rename_i cname _
        split at read
        · cases read
        · cases read
          constructor
          · exact @storeArray_passes { jf with fin := _ } jf _ _ .hOarray
              (rawIdent jf.identsz jf.fin) (readIdent jf.identsz jf.fin).1 (type.setWidth 64) cname
              jf.identsz.size _ named ⟨rfl, rfl, rfl, rfl⟩ product
          · exact (second.trans (Count.sub_counts product (by omega))).counted

end Cases

/-- The counters after sub-records with the given tags. -/
def Summary.of (tags : List Byte) : Summary where
  roott := tags.count 0x08
  rootg := tags.count 0x01
  rootl := tags.count 0x02
  frame := tags.count 0x03
  stack := tags.count 0x04
  sclass := tags.count 0x05
  tblock := tags.count 0x06
  monitor := tags.count 0x07
  cclass := tags.count 0x20
  inst := tags.count 0x21
  oarr := tags.count 0x22
  parr := tags.count 0x23

def Summary.plus (a b : Summary) : Summary where
  roott := a.roott + b.roott
  rootg := a.rootg + b.rootg
  rootl := a.rootl + b.rootl
  frame := a.frame + b.frame
  stack := a.stack + b.stack
  sclass := a.sclass + b.sclass
  tblock := a.tblock + b.tblock
  monitor := a.monitor + b.monitor
  cclass := a.cclass + b.cclass
  inst := a.inst + b.inst
  oarr := a.oarr + b.oarr
  parr := a.parr + b.parr

theorem Summary.of_cons (tag : Byte) (tags : List Byte) :
    Summary.of (tag :: tags) = (Summary.of [tag]).plus (.of tags) := by
  simp only [Summary.of, Summary.plus, List.count_cons, List.count_nil, Summary.mk.injEq]
  simp only [Nat.zero_add, Nat.add_comm, and_self]

theorem Summary.plus_assoc (a b c : Summary) : (a.plus b).plus c = a.plus (b.plus c) := by
  simp only [Summary.plus, Nat.add_assoc]

@[simp] theorem Summary.zero_plus (a : Summary) : Summary.zero.plus a = a := by
  simp only [Summary.plus, Summary.zero, Nat.zero_add]

@[simp] theorem Summary.plus_nil (a : Summary) : a.plus (.of []) = a := rfl

theorem byte_eq {tag : Byte} {n : Nat} (value : tag.toNat = n) : tag = BitVec.ofNat 8 n := by
  rw [← value, BitVec.ofNat_toNat, BitVec.setWidth_eq]

theorem rootKind_tally {rtype : Byte} {kind : RootKind} (found : rootKind rtype = some kind)
    (sum : Summary) : kind.tally sum = sum.plus (.of [rtype]) := by
  unfold rootKind at found
  split at found
  case h_10 => cases found
  all_goals
    rename_i value
    cases found
    rw [byte_eq value]
    rfl

section Pass
variable {jf jf' : Jdump} {hs hs' : Count} {sum sum' : Summary} {s : Span} {rtype : Byte}

theorem heapCase_passes (parse : span jf.fVersion jf.identsz rtype jf.fin.rest = some s)
    (read : heapCase rtype jf hs sum = .ok (jf', hs', sum')) (fits : s.length ≤ hs.left.toNat)
    (below : hs.left.toNat < 2 ^ 32 - 1) :
    Passed jf jf' s.length ∧ Counted hs hs' s ∧ sum' = sum.plus (.of [rtype]) := by
  have dump : ∀ {value}, rtype.toNat = value → value ∈ [0x20, 0x21, 0x22, 0x23] →
      rootKind rtype = none := by
    intro value tag member
    simp only [List.mem_cons, List.not_mem_nil, or_false] at member
    rcases member with rfl | rfl | rfl | rfl <;> simp only [rootKind, tag]
  rw [span] at parse
  cases heapCase_cases read with
  | root found =>
    rw [found] at parse
    obtain ⟨passed, counted⟩ := readRoot_passes found parse hs
    exact ⟨passed, counted fits, rootKind_tally found sum⟩
  | classDump tag inner =>
    rw [dump tag (by decide), tag] at parse
    obtain ⟨passed, counted⟩ := readClass_passes parse inner
    exact ⟨passed, counted fits below, by rw [byte_eq tag]; rfl⟩
  | instanceDump tag inner =>
    rw [dump tag (by decide), tag] at parse
    obtain ⟨passed, counted⟩ := readInstance_passes parse inner fits
    exact ⟨passed, counted, by rw [byte_eq tag]; rfl⟩
  | objArray tag inner =>
    rw [dump tag (by decide), tag] at parse
    obtain ⟨passed, counted⟩ := readObjArray_passes parse inner fits
    exact ⟨passed, counted, by rw [byte_eq tag]; rfl⟩
  | primArray tag inner =>
    rw [dump tag (by decide), tag] at parse
    obtain ⟨passed, counted⟩ := readPrimArray_passes parse inner fits
    exact ⟨passed, counted, by rw [byte_eq tag]; rfl⟩
  | unknown none other =>
    rw [none] at parse
    simp only at parse
    split at parse
    · rename_i tag
      exact absurd (by rw [tag]; decide) other
    · rename_i tag
      exact absurd (by rw [tag]; decide) other
    · rename_i tag
      exact absurd (by rw [tag]; decide) other
    · rename_i tag
      exact absurd (by rw [tag]; decide) other
    · cases parse

/-- A whole pass, tag included. -/
structure OnePass (jf jf' : Jdump) (hs hs' : Count) (s : Span) : Prop where
  bytes : jf'.fin.bytes = jf.fin.bytes
  pos : jf'.fin.pos = jf.fin.pos + (1 + s.length)
  fVersion : jf'.fVersion = jf.fVersion
  identsz : jf'.identsz = jf.identsz
  string : jf'.javaLangString = jf.javaLangString
  starts : startsOf jf'.log = jf.fin.pos :: startsOf jf.log
  counted : Counted hs hs' ⟨1 + s.length, s.sound⟩

/-- The tag decides the case. -/
theorem heapPass_switch {tail : List Byte} (rest : jf.fin.rest = rtype :: tail) :
    heapPass jf hs sum = heapCase rtype
      { jf.note (.sub jf.fin.pos hs.left) with fin := jf.fin.getc.2 } (hs.sub 1) sum := by
  obtain ⟨value, _⟩ := getc_of_rest rest
  rw [← uchar_toNat rtype, ← value]
  rfl

theorem heapPass_passes {tail : List Byte} (rest : jf.fin.rest = rtype :: tail)
    (parse : span jf.fVersion jf.identsz rtype tail = some s)
    (pass : heapPass jf hs sum = .ok (jf', hs', sum')) (fits : 1 + s.length ≤ hs.left.toNat) :
    OnePass jf jf' hs hs' s ∧ sum' = sum.plus (.of [rtype]) := by
  obtain ⟨_, start⟩ := getc_of_rest rest
  have unit : (1 : BitVec 32).toNat = 1 := rfl
  have first := Count.sub_counts unit (show 1 ≤ hs.left.toNat by omega)
  have left := first.left
  have bound := hs.left.isLt
  have after : jf.fin.getc.2.rest = tail := by
    rw [start.rest, rest]
    rfl
  rw [heapPass_switch rest] at pass
  rw [← after] at parse
  obtain ⟨⟨reads, version, identsz, string, starts⟩, counted, tally⟩ :=
    heapCase_passes parse pass (by omega) (by omega)
  have moved := start.trans reads
  refine ⟨⟨moved.bytes, moved.pos, version, identsz, string, starts, ?_⟩, tally⟩
  rcases counted with ⟨wrapped, unsound⟩ | ⟨m, short, counts, exact⟩
  · exact .inl ⟨wrapped, unsound⟩
  · exact .inr ⟨_, by simp only; omega, first.trans counts, by simp only [← exact]; omega⟩

end Pass

end Phat
