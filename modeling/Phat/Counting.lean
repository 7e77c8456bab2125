import Phat.Changes
import Phat.Span

/-! The remaining count kept by hand against the bytes really consumed: for every piece
of a sub-record the readers move by its length, and what they subtract is that length
exactly when the piece is sound. -/
namespace Phat

/-- `n` has been subtracted without going below zero. -/
structure Counts (hs hs' : Count) (n : Nat) : Prop where
  left : hs'.left.toNat + n = hs.left.toNat
  wrapped : hs'.wrapped = hs.wrapped

/-- The count of a piece: right if it is sound; otherwise too little was subtracted, or
the count went below zero. -/
def Counted (hs hs' : Count) (s : Span) : Prop :=
  (hs'.wrapped = true ∧ s.sound = false) ∨
    ∃ m ≤ s.length, Counts hs hs' m ∧ (m = s.length ↔ s.sound = true)

section Count
variable {hs hs' hs'' : Count} {n m : Nat} {s t : Span}

theorem Counts.refl (hs : Count) : Counts hs hs 0 := ⟨rfl, rfl⟩

theorem Counts.trans (first : Counts hs hs' n) (second : Counts hs' hs'' m) :
    Counts hs hs'' (n + m) := by
  have a := first.left
  have b := second.left
  exact ⟨by omega, second.wrapped.trans first.wrapped⟩

theorem Count.sub_counts {b : BitVec 32} (value : b.toNat = n) (fits : n ≤ hs.left.toNat) :
    Counts hs (hs.sub b) n := by
  constructor
  · have bound := hs.left.isLt
    simp only [Count.sub, BitVec.toNat_sub]
    omega
  · have order : ¬ hs.left < b := by
      rw [BitVec.lt_def]
      omega
    simp [Count.sub, order]

theorem Count.sub_wrapped (b : BitVec 32) (old : hs.wrapped = true) :
    (hs.sub b).wrapped = true := by
  simp [Count.sub, old]

theorem Count.sub_below {b : BitVec 32} (below : hs.left.toNat < b.toNat) :
    (hs.sub b).wrapped = true := by
  have order : hs.left < b := BitVec.lt_def.mpr below
  simp [Count.sub, order]

theorem Counts.counted (counts : Counts hs hs' n) : Counted hs hs' ⟨n, true⟩ :=
  .inr ⟨n, le_rfl, counts, by simp⟩

/-- Pieces are counted one after the other; a count below zero is never forgotten. -/
theorem Counted.trans (first : Counted hs hs' s) (sticky : hs'.wrapped = true → hs''.wrapped = true)
    (second : t.length ≤ hs'.left.toNat → Counted hs' hs'' t)
    (fits : s.length + t.length ≤ hs.left.toNat) :
    Counted hs hs'' ⟨s.length + t.length, s.sound && t.sound⟩ := by
  rcases first with ⟨wrapped, unsound⟩ | ⟨m, short, counts, exact⟩
  · exact .inl ⟨sticky wrapped, by simp [unsound]⟩
  · have left := counts.left
    rcases second (by omega) with ⟨wrapped, unsound⟩ | ⟨m', short', counts', exact'⟩
    · exact .inl ⟨wrapped, by simp [unsound]⟩
    · refine .inr ⟨m + m', by simp only; omega, counts.trans counts', ?_⟩
      simp only [Bool.and_eq_true, ← exact, ← exact']
      omega

theorem unsigned_toNat {rc : Int} (value : rc = n) (small : n < 2 ^ 32) :
    (unsigned rc).toNat = n := by
  subst value
  simp only [unsigned, BitVec.toNat_ofInt]
  omega

theorem IdentSize.width_toNat (identsz : IdentSize) : identsz.width.toNat = identsz.size := by
  cases identsz <;> rfl

end Count

section Lists
attribute [local irreducible] readIdent readUintLocal readUshortLocal readUshort readValue

variable {fVersion : Nat} {identsz : IdentSize} {f : FILE} {hs : Count} {n : Nat} {s : Span}

theorem readPool_succ (f : FILE) (hs : Count) (n : Nat) :
    readPool fVersion identsz (n + 1) f hs =
      readPool fVersion identsz n (readValue fVersion identsz (readUshortLocal f).2).2
        ((hs.sub 2).sub (unsigned (readValue fVersion identsz (readUshortLocal f).2).1.rc)) := rfl

theorem readStatics_succ (f : FILE) (hs : Count) (n : Nat) :
    (readStatics fVersion identsz (n + 1) f hs).2 =
      (readStatics fVersion identsz n (readValue fVersion identsz (readIdent identsz f).2).2
        ((hs.sub identsz.width).sub
          (unsigned (1 + (readValue fVersion identsz (readIdent identsz f).2).1.rc)))).2 := rfl

theorem readFields_succ (f : FILE) (hs : Count) (n : Nat) :
    (readFields fVersion identsz (n + 1) f hs).2 =
      (readFields fVersion identsz n (readIdent identsz f).2.getc.2
        (hs.sub (1 + identsz.width))).2 := rfl

theorem readPool_wrapped (wrapped : hs.wrapped = true) :
    (readPool fVersion identsz n f hs).2.wrapped = true := by
  induction n generalizing f hs with
  | zero => exact wrapped
  | succ n ih =>
    rw [readPool_succ]
    exact ih (Count.sub_wrapped _ (Count.sub_wrapped _ wrapped))

theorem readStatics_wrapped (wrapped : hs.wrapped = true) :
    (readStatics fVersion identsz n f hs).2.2.wrapped = true := by
  induction n generalizing f hs with
  | zero => exact wrapped
  | succ n ih =>
    rw [readStatics_succ]
    exact ih (Count.sub_wrapped _ (Count.sub_wrapped _ wrapped))

theorem readFields_wrapped (wrapped : hs.wrapped = true) :
    (readFields fVersion identsz n f hs).2.2.wrapped = true := by
  induction n generalizing f hs with
  | zero => exact wrapped
  | succ n ih =>
    rw [readFields_succ]
    exact ih (Count.sub_wrapped _ wrapped)

/-- The pieces of an entry, and the entries after it. -/
theorem entriesSpan_succ {skip : Nat} {rest : List Byte}
    (parse : entriesSpan fVersion identsz skip (n + 1) rest = some s) :
    ∃ value tail, valueSpan fVersion identsz (rest.drop skip) = some value ∧
      entriesSpan fVersion identsz skip n (rest.drop (skip + value.length)) = some tail ∧
      s = ⟨skip + value.length + tail.length, value.sound && tail.sound⟩ := by
  rw [entriesSpan] at parse
  split at parse
  · cases parse
  · rename_i value here
    split at parse
    · cases parse
    · rename_i tail there
      cases parse
      exact ⟨value, tail, here, there, rfl⟩

theorem skip_le {skip : Nat} {rest : List Byte} {value : Span}
    (parse : valueSpan fVersion identsz (rest.drop skip) = some value) :
    skip ≤ rest.length ∧ 1 ≤ value.length := by
  cases entry : rest.drop skip with
  | nil =>
    rw [entry] at parse
    cases parse
  | cons type tail =>
    rw [entry, valueSpan] at parse
    have length := congrArg List.length entry
    rw [List.length_drop, List.length_cons] at length
    split at parse
    · cases parse
      exact ⟨by omega, by simp only; omega⟩
    · cases parse

theorem readStatics_reads (parse : entriesSpan fVersion identsz identsz.size n f.rest = some s)
    (hs : Count) : Reads f (readStatics fVersion identsz n f hs).2.1 s.length ∧
      (s.length ≤ hs.left.toNat → Counted hs (readStatics fVersion identsz n f hs).2.2 s) := by
  induction n generalizing f hs s with
  | zero =>
    cases parse
    exact ⟨.refl f, fun _ => (Counts.refl hs).counted⟩
  | succ n ih =>
    obtain ⟨value, tail, here, there, rfl⟩ := entriesSpan_succ parse
    obtain ⟨fit, positive⟩ := skip_le here
    have name := readIdent_reads fit
    rw [← name.rest] at here
    obtain ⟨body, rc⟩ := readValue_reads here
    have entry := name.trans body
    rw [← entry.rest] at there
    obtain ⟨reads, counted⟩ := ih there ((hs.sub identsz.width).sub
      (unsigned (1 + (readValue fVersion identsz (readIdent identsz f).2).1.rc)))
    rw [readStatics_succ]
    refine ⟨by simpa only [Nat.add_assoc] using entry.trans reads, fun fits => ?_⟩
    simp only at fits
    have bound := hs.left.isLt
    have first := Count.sub_counts identsz.width_toNat (show identsz.size ≤ hs.left.toNat by omega)
    have left := first.left
    have head : Counted hs ((hs.sub identsz.width).sub
        (unsigned (1 + (readValue fVersion identsz (readIdent identsz f).2).1.rc)))
        ⟨identsz.size + value.length, value.sound⟩ := by
      cases sound : value.sound with
      | true =>
        rw [if_pos sound] at rc
        exact (first.trans (Count.sub_counts (unsigned_toNat rc (by omega)) (by omega))).counted
      | false =>
        rw [if_neg (by simp [sound])] at rc
        have second := Count.sub_counts (unsigned_toNat (n := 0) rc (by omega))
          (Nat.zero_le (hs.sub identsz.width).left.toNat)
        exact .inr ⟨_, by simp only; omega, first.trans second, by simp; omega⟩
    exact head.trans readStatics_wrapped counted fits

theorem readPool_reads (parse : entriesSpan fVersion identsz 2 n f.rest = some s) (hs : Count) :
    Reads f (readPool fVersion identsz n f hs).1 s.length ∧
      (s.length ≤ hs.left.toNat → hs.left.toNat < 2 ^ 32 - 1 →
        Counted hs (readPool fVersion identsz n f hs).2 ⟨s.length, n = 0⟩) := by
  induction n generalizing f hs s with
  | zero =>
    cases parse
    exact ⟨.refl f, fun _ _ => (Counts.refl hs).counted⟩
  | succ n ih =>
    obtain ⟨value, tail, here, there, rfl⟩ := entriesSpan_succ parse
    obtain ⟨fit, positive⟩ := skip_le here
    have index := readUshortLocal_reads fit
    rw [← index.rest] at here
    obtain ⟨body, rc⟩ := readValue_reads here
    have entry := index.trans body
    rw [← entry.rest] at there
    obtain ⟨reads, counted⟩ := ih there ((hs.sub 2).sub
      (unsigned (readValue fVersion identsz (readUshortLocal f).2).1.rc))
    rw [readPool_succ]
    refine ⟨by simpa only [Nat.add_assoc] using entry.trans reads, fun fits below => ?_⟩
    simp only at fits
    have two : (2 : BitVec 32).toNat = 2 := rfl
    have first := Count.sub_counts two (show 2 ≤ hs.left.toNat by omega)
    have left := first.left
    cases sound : value.sound with
    | true =>
      rw [if_pos sound] at rc
      have size : (readValue fVersion identsz (readUshortLocal f).2).1.rc =
          (value.length - 1 : Nat) := by omega
      have second := Count.sub_counts (unsigned_toNat size (by omega))
        (show value.length - 1 ≤ (hs.sub 2).left.toNat by omega)
      have both := (first.trans second).left
      rcases counted (by omega) (by omega) with ⟨wrapped, _⟩ | ⟨m, short, counts, _⟩
      · exact .inl ⟨wrapped, by simp⟩
      · exact .inr ⟨_, by simp only at short ⊢; omega, (first.trans second).trans counts, by
          simp only at short
          simp
          omega⟩
    | false =>
      -- a result of -1 is subtracted as the largest unsigned value
      rw [if_neg (by simp [sound])] at rc
      have all : (unsigned (readValue fVersion identsz (readUshortLocal f).2).1.rc).toNat =
          2 ^ 32 - 1 := by
        rw [show (readValue fVersion identsz (readUshortLocal f).2).1.rc = -1 by omega]
        rfl
      exact .inl ⟨readPool_wrapped (Count.sub_below (by omega)), by simp⟩

theorem readFields_reads (fits : n * (identsz.size + 1) ≤ f.rest.length) (hs : Count) :
    Reads f (readFields fVersion identsz n f hs).2.1 (n * (identsz.size + 1)) ∧
      (n * (identsz.size + 1) ≤ hs.left.toNat → Counts hs
        (readFields fVersion identsz n f hs).2.2 (n * (identsz.size + 1))) := by
  induction n generalizing f hs with
  | zero =>
    rw [Nat.zero_mul]
    exact ⟨.refl f, fun _ => .refl hs⟩
  | succ n ih =>
    rw [Nat.succ_mul] at fits ⊢
    have name := readIdent_reads (show identsz.size ≤ f.rest.length by omega)
    have after := name.rest
    have some : 0 < (readIdent identsz f).2.rest.length := by
      rw [after, List.length_drop]
      omega
    obtain ⟨b, tail, rest⟩ := List.exists_cons_of_length_pos some
    have entry := name.trans (getc_of_rest rest).2
    have enough : n * (identsz.size + 1) ≤ (readIdent identsz f).2.getc.2.rest.length := by
      rw [entry.rest, List.length_drop]
      omega
    obtain ⟨reads, counted⟩ := ih enough (hs.sub (1 + identsz.width))
    rw [readFields_succ, Nat.add_comm]
    refine ⟨entry.trans reads, fun enough => ?_⟩
    have width : (1 + identsz.width).toNat = identsz.size + 1 := by
      cases identsz <;> rfl
    have first := Count.sub_counts width (show identsz.size + 1 ≤ hs.left.toNat by omega)
    have left := first.left
    exact first.trans (counted (by omega))

theorem readClassLists_tail (fVersion : Nat) (identsz : IdentSize) (ci : Cinfo) (f : FILE)
    (hs : Count) :
    let pool := readPool fVersion identsz (readUshortLocal f).1.toNat (readUshortLocal f).2
      (hs.sub 2)
    let statics := readStatics fVersion identsz ((readUshort pool.1).1.getD ci.cstats).toNat
      (readUshort pool.1).2 (pool.2.sub 2)
    (readClassLists fVersion identsz ci f hs).2 =
      (readFields fVersion identsz ((readUshort statics.2.1).1.getD ci.cfields).toNat
        (readUshort statics.2.1).2 (statics.2.2.sub 2)).2 := rfl

theorem readClassLists_reads (ci : Cinfo) (parse : listsSpan fVersion identsz f.rest = some s)
    (hs : Count) : Reads f (readClassLists fVersion identsz ci f hs).2.1 s.length ∧
      (s.length ≤ hs.left.toNat → hs.left.toNat < 2 ^ 32 - 1 →
        Counted hs (readClassLists fVersion identsz ci f hs).2.2 s) := by
  simp only [listsSpan, Option.bind_eq_bind, Option.bind_eq_some_iff] at parse
  obtain ⟨cpool, first, pool, entries, cstats, second, statics, values, cfields, third, fields,
    last, same⟩ := parse
  cases same
  rw [readClassLists_tail]
  simp only
  -- the files after the pool, the statics and their counts
  obtain ⟨start, cpoolValue⟩ := readUshortLocal_number first
  rw [cpoolValue]
  rw [← start.rest] at entries
  obtain ⟨poolReads, poolCounted⟩ := readPool_reads entries (hs.sub 2)
  have poolSticky := @readPool_wrapped fVersion identsz (readUshortLocal f).2 (hs.sub 2) cpool
  generalize readPool fVersion identsz cpool (readUshortLocal f).2 (hs.sub 2) = p at *
  have toStats := start.trans poolReads
  rw [← toStats.rest] at second values third last
  obtain ⟨statsRead, statsValue⟩ := readUshort_number second
  rw [statsValue]
  rw [← statsRead.rest] at values
  obtain ⟨staticsReads, staticsCounted⟩ := readStatics_reads values (p.2.sub 2)
  have sticky := @readStatics_wrapped fVersion identsz (readUshort p.1).2 (p.2.sub 2) cstats
  generalize readStatics fVersion identsz cstats (readUshort p.1).2 (p.2.sub 2) = q at *
  have toFields := statsRead.trans staticsReads
  rw [← toFields.rest] at third last
  obtain ⟨fieldsRead, fieldsValue⟩ := readUshort_number third
  rw [fieldsValue]
  rw [whole] at last
  split at last
  · rename_i enough
    cases last
    have room : cfields * (identsz.size + 1) ≤ (readUshort q.2.1).2.rest.length := by
      rw [fieldsRead.rest, List.length_drop]
      omega
    obtain ⟨fieldsReads, fieldsCounted⟩ := readFields_reads room (q.2.2.sub 2)
    refine ⟨(toStats.trans toFields).trans (fieldsRead.trans fieldsReads), fun fits below => ?_⟩
    simp only at fits
    have two : (2 : BitVec 32).toNat = 2 := rfl
    have step : ∀ c : Count, 2 ≤ c.left.toNat → Counted c (c.sub 2) ⟨2, true⟩ := fun c room =>
      (Count.sub_counts two room).counted
    have first := step hs (by omega)
    have left := (Count.sub_counts two (show 2 ≤ hs.left.toNat by omega)).left
    have pooled := first.trans poolSticky (fun room => poolCounted room (by omega))
      (by simp only; omega)
    have second := pooled.trans (Count.sub_wrapped 2) (fun room => step p.2 room) (by simp only; omega)
    have listed := second.trans sticky staticsCounted (by simp only; omega)
    have third := listed.trans (Count.sub_wrapped 2) (fun room => step q.2.2 room) (by simp only; omega)
    have counted := third.trans readFields_wrapped (fun room => (fieldsCounted room).counted)
      (by simp only; omega)
    have same : (⟨2 + pool.length + 2 + statics.length + 2 + cfields * (identsz.size + 1),
        ((((true && decide (cpool = 0)) && true) && statics.sound) && true) && true⟩ : Span) =
        ⟨2 + pool.length + (2 + statics.length) + (2 + cfields * (identsz.size + 1)),
          decide (cpool = 0) && statics.sound⟩ := by
      simp only [Bool.true_and, Bool.and_true, Span.mk.injEq, and_true]
      omega
    exact same ▸ counted
  · cases last

end Lists

end Phat
