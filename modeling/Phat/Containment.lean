import Phat.Framing

/-! Segments of any bytes. `readHeap` checks none of the lengths it subtracts, so it
keeps to the segment and to the file exactly when sound sub-records tile the segment. -/
namespace Phat

/-- The sub-record at `pos` lies in the file and ends by `limit`; one with an unknown tag
takes what is left up to `limit`. -/
def Inside (fVersion : Nat) (identsz : IdentSize) (bytes : List Byte) (pos limit : Nat) : Prop :=
  ∃ rtype tail, bytes.drop pos = rtype :: tail ∧
    if knownTag rtype then
      ∃ s, span fVersion identsz rtype tail = some s ∧ pos + (1 + s.length) ≤ limit
    else pos < limit ∧ limit ≤ bytes.length

/-- Sound sub-records follow each other from a position to `limit`, where an unknown tag
may cover the rest. -/
inductive Tiles (fVersion : Nat) (identsz : IdentSize) (bytes : List Byte) (limit : Nat) :
    Nat → Prop where
  | done : Tiles fVersion identsz bytes limit limit
  | sub {pos : Nat} {rtype : Byte} {tail : List Byte} {s : Span} :
      bytes.drop pos = rtype :: tail → span fVersion identsz rtype tail = some s →
      s.sound = true → pos + (1 + s.length) ≤ limit →
      Tiles fVersion identsz bytes limit (pos + (1 + s.length)) →
      Tiles fVersion identsz bytes limit pos
  | rest {pos : Nat} {rtype : Byte} {tail : List Byte} :
      bytes.drop pos = rtype :: tail → knownTag rtype = false → pos < limit →
      limit ≤ bytes.length → Tiles fVersion identsz bytes limit pos

/-- A pass from one state of the loop to the next. -/
def Pass (x y : Jdump × Count × Summary) : Prop :=
  x.2.1.left ≠ 0 ∧ heapPass x.1 x.2.1 x.2.2 = .ok y

abbrev Passes : Jdump × Count × Summary → Jdump × Count × Summary → Prop :=
  Relation.ReflTransGen Pass

/-- In every state the loop of `readHeap` reaches, the count has not gone below zero, the
sub-record processed next lies in the segment and in the file, and no more than the
segment has been consumed. -/
def Contained (jf : Jdump) (hsize : BitVec 32) : Prop :=
  ∀ jf' hs sum, Passes (enterHeap jf, ⟨hsize, false⟩, .zero) (jf', hs, sum) →
    hs.wrapped = false ∧ jf'.fin.pos ≤ jf.fin.pos + hsize.toNat ∧
      (hs.left ≠ 0 → Inside jf.fVersion jf.identsz jf.fin.bytes jf'.fin.pos
        (jf.fin.pos + hsize.toNat))

theorem knownTag_of_span {fVersion : Nat} {identsz : IdentSize} {rtype : Byte} {tail : List Byte}
    {s : Span} (parse : span fVersion identsz rtype tail = some s) : knownTag rtype = true := by
  rw [span] at parse
  rw [knownTag]
  split at parse
  · rename_i kind found
    rw [found]
    rfl
  · split at parse
    case h_5 => cases parse
    all_goals
      rename_i value
      simp [value]

section Passes
variable {jf jf' : Jdump} {hs hs' : Count} {sum sum' : Summary} {rtype : Byte} {tail : List Byte}

theorem left_ne_zero (more : hs.left ≠ 0) : 0 < hs.left.toNat := by
  rw [Nat.pos_iff_ne_zero]
  intro zero
  exact more (BitVec.eq_of_toNat_eq zero)

/-- An unknown tag: the rest of the segment is skipped. -/
theorem heapPass_unknown (rest : jf.fin.rest = rtype :: tail) (unknown : knownTag rtype = false)
    (more : hs.left ≠ 0) (pass : heapPass jf hs sum = .ok (jf', hs', sum')) :
    jf'.fin.bytes = jf.fin.bytes ∧ jf'.fin.pos = jf.fin.pos + hs.left.toNat ∧
      jf'.fVersion = jf.fVersion ∧ jf'.identsz = jf.identsz ∧ hs'.left = 0 ∧
      hs'.wrapped = hs.wrapped := by
  obtain ⟨value, start⟩ := getc_of_rest rest
  have unit : (1 : BitVec 32).toNat = 1 := rfl
  have first := Count.sub_counts unit (show 1 ≤ hs.left.toNat from left_ne_zero more)
  have left := first.left
  simp only [knownTag, Bool.or_eq_false_iff, Option.isSome_eq_false_iff,
    Option.isNone_iff_eq_none] at unknown
  obtain ⟨none, range⟩ := unknown
  have switch : heapPass jf hs sum =
      .ok ({ jf.note (.sub jf.fin.pos hs.left) with
          fin := jf.fin.getc.2.seekCur (hs.sub 1).left.toNat },
        { hs.sub 1 with left := 0 }, sum) := by
    have case : heapPass jf hs sum = heapCase (uchar jf.fin.getc.1)
        { jf.note (.sub jf.fin.pos hs.left) with fin := jf.fin.getc.2 } (hs.sub 1) sum := rfl
    rw [case, value, uchar_toNat, heapCase, none]
    simp only
    split
    case h_5 => rfl
    all_goals
      rename_i tag
      simp [tag] at range
  rw [switch] at pass
  cases pass
  refine ⟨start.bytes, ?_, rfl, rfl, rfl, first.wrapped⟩
  simp only [FILE.seekCur, start.pos]
  omega

end Passes

section Segment
variable {jf : Jdump} {hsize : BitVec 32}

/-- What the loop keeps over a tiled segment. -/
structure Tiled (jf : Jdump) (hsize : BitVec 32) (x : Jdump × Count × Summary) : Prop where
  bytes : x.1.fin.bytes = jf.fin.bytes
  fVersion : x.1.fVersion = jf.fVersion
  identsz : x.1.identsz = jf.identsz
  wrapped : x.2.1.wrapped = false
  total : x.1.fin.pos + x.2.1.left.toNat = jf.fin.pos + hsize.toNat
  tiles : Tiles jf.fVersion jf.identsz jf.fin.bytes (jf.fin.pos + hsize.toNat) x.1.fin.pos

theorem Tiled.pass {x y : Jdump × Count × Summary} (tiled : Tiled jf hsize x) (pass : Pass x y) :
    Tiled jf hsize y := by
  obtain ⟨jf₁, hs, sum⟩ := x
  obtain ⟨jf₂, hs', sum'⟩ := y
  obtain ⟨bytes, version, identsz, wrapped, total, tiles⟩ := tiled
  obtain ⟨more, pass⟩ := pass
  simp only at bytes version identsz wrapped total tiles more pass
  have positive := left_ne_zero more
  have rest : jf₁.fin.rest = jf.fin.bytes.drop jf₁.fin.pos := by rw [FILE.rest, bytes]
  generalize at_pos : jf₁.fin.pos = pos at tiles
  cases tiles with
  | done => omega
  | sub here parse sound ends after =>
    rw [at_pos, here] at rest
    rw [← version, ← identsz] at parse
    obtain ⟨⟨bytes', pos', version', identsz', _, _, counted⟩, _⟩ :=
      heapPass_passes rest parse pass (by omega)
    rw [at_pos] at pos'
    rcases counted with ⟨_, unsound⟩ | ⟨m, short, counts, exact⟩
    · simp [sound] at unsound
    · have whole := exact.mpr sound
      have left := counts.left
      simp only at whole
      refine ⟨bytes'.trans bytes, version'.trans version, identsz'.trans identsz,
        counts.wrapped.trans wrapped, ?_, ?_⟩
      · simp only
        omega
      · simp only
        rw [pos']
        exact after
  | rest here unknown before inFile =>
    rw [at_pos, here] at rest
    obtain ⟨bytes', pos', version', identsz', zero, wrapped'⟩ :=
      heapPass_unknown rest unknown more pass
    have ends : jf₂.fin.pos = jf.fin.pos + hsize.toNat := by omega
    refine ⟨bytes'.trans bytes, version'.trans version, identsz'.trans identsz,
      wrapped'.trans wrapped, ?_, ?_⟩
    · simp only [zero, ends]
      rfl
    · simp only [ends]
      exact .done

theorem Tiles.inside {fVersion : Nat} {identsz : IdentSize} {bytes : List Byte} {limit pos : Nat}
    (tiles : Tiles fVersion identsz bytes limit pos) (before : pos < limit) :
    Inside fVersion identsz bytes pos limit := by
  cases tiles with
  | done => omega
  | sub here parse _ ends _ =>
    refine ⟨_, _, here, ?_⟩
    rw [if_pos (knownTag_of_span parse)]
    exact ⟨_, parse, ends⟩
  | rest here unknown before inFile =>
    refine ⟨_, _, here, ?_⟩
    rw [if_neg (by simp [unknown])]
    exact ⟨before, inFile⟩

theorem contained_of_tiles (tiles : Tiles jf.fVersion jf.identsz jf.fin.bytes
    (jf.fin.pos + hsize.toNat) jf.fin.pos) : Contained jf hsize := by
  intro jf' hs sum passes
  have tiled : ∀ x, Passes (enterHeap jf, ⟨hsize, false⟩, .zero) x → Tiled jf hsize x := by
    intro x passes
    induction passes with
    | refl => exact ⟨rfl, rfl, rfl, rfl, rfl, tiles⟩
    | tail _ pass ih => exact ih.pass pass
  replace tiled := tiled _ passes
  have total := tiled.total
  simp only at total
  refine ⟨tiled.wrapped, by omega, fun more => ?_⟩
  have positive := left_ne_zero more
  exact tiled.tiles.inside (by simp only; omega)

/-- In a run that returns, the count and the position end together, so a count that has
been left too high at some sub-record shows at the end. -/
theorem tiles_of_loop (contained : Contained jf hsize) {fuel : Nat} {jf' : Jdump} {hs : Count}
    {sum : Summary} {result : Jdump × Count × Summary} {drift : Nat}
    (passes : Passes (enterHeap jf, ⟨hsize, false⟩, .zero) (jf', hs, sum))
    (same : jf'.fin.bytes = jf.fin.bytes ∧ jf'.fVersion = jf.fVersion ∧ jf'.identsz = jf.identsz)
    (total : jf'.fin.pos + hs.left.toNat = jf.fin.pos + hsize.toNat + drift)
    (run : heapLoop fuel jf' hs sum = .ok result) :
    drift = 0 ∧ Tiles jf.fVersion jf.identsz jf.fin.bytes (jf.fin.pos + hsize.toNat)
      jf'.fin.pos := by
  obtain ⟨bytes, version, identsz⟩ := same
  induction fuel generalizing jf' hs sum drift with
  | zero =>
    obtain ⟨_, bound, _⟩ := contained _ _ _ passes
    by_cases empty : hs.left = 0
    · have zero : hs.left.toNat = 0 := by rw [empty]; rfl
      have ends : jf'.fin.pos = jf.fin.pos + hsize.toNat := by omega
      exact ⟨by omega, ends ▸ .done⟩
    · rw [heapLoop_fuel _ _ empty] at run
      cases run
  | succ fuel ih =>
    obtain ⟨_, bound, inside⟩ := contained _ _ _ passes
    by_cases empty : hs.left = 0
    · have zero : hs.left.toNat = 0 := by rw [empty]; rfl
      have ends : jf'.fin.pos = jf.fin.pos + hsize.toNat := by omega
      exact ⟨by omega, ends ▸ .done⟩
    cases pass : heapPass jf' hs sum with
    | error stop =>
      rw [heapLoop_error _ empty pass] at run
      cases run
    | ok next =>
      obtain ⟨jf₂, hs', sum'⟩ := next
      rw [heapLoop_ok _ empty pass] at run
      have later : Passes _ (jf₂, hs', sum') := passes.tail ⟨empty, pass⟩
      obtain ⟨clear, bound', _⟩ := contained _ _ _ later
      obtain ⟨rtype, tail, here, place⟩ := inside empty
      have rest : jf'.fin.rest = rtype :: tail := by rw [FILE.rest, bytes, here]
      cases known : knownTag rtype with
      | true =>
        rw [if_pos known] at place
        obtain ⟨s, parse, ends⟩ := place
        have parse' := parse
        rw [← version, ← identsz] at parse'
        obtain ⟨⟨bytes', pos', version', identsz', _, _, counted⟩, _⟩ :=
          heapPass_passes rest parse' pass (by omega)
        rcases counted with ⟨wrapped, _⟩ | ⟨m, short, counts, exact⟩
        · rw [clear] at wrapped
          cases wrapped
        · have left := counts.left
          simp only at short exact
          have drifted : jf₂.fin.pos + hs'.left.toNat =
              jf.fin.pos + hsize.toNat + (drift + (1 + s.length - m)) := by omega
          obtain ⟨level, tiles⟩ := ih later drifted run (bytes'.trans bytes)
            (version'.trans version) (identsz'.trans identsz)
          rw [pos'] at tiles
          exact ⟨by omega, .sub here parse (exact.mp (by omega)) ends tiles⟩
      | false =>
        rw [if_neg (by simp [known])] at place
        obtain ⟨_, pos', _, _, _, _⟩ := heapPass_unknown rest known empty pass
        exact ⟨by omega, .rest here known place.1 place.2⟩

theorem segment_contained (jf : Jdump) (hsize : BitVec 32) :
    (Tiles jf.fVersion jf.identsz jf.fin.bytes (jf.fin.pos + hsize.toNat) jf.fin.pos →
      Contained jf hsize) ∧
    ((∃ fuel result, readSegment fuel jf hsize = .ok result) →
      (Contained jf hsize ↔
        Tiles jf.fVersion jf.identsz jf.fin.bytes (jf.fin.pos + hsize.toNat) jf.fin.pos)) := by
  refine ⟨contained_of_tiles, ?_⟩
  rintro ⟨fuel, result, run⟩
  constructor
  · intro contained
    have level : (enterHeap jf).fin.pos + hsize.toNat = jf.fin.pos + hsize.toNat + 0 := rfl
    exact (tiles_of_loop contained .refl ⟨rfl, rfl, rfl⟩ level run).2
  · exact contained_of_tiles

/-- A record of one byte declared at the very end of the file: a sub-record is processed
there all the same. -/
theorem segment_uncontained : ¬ Contained (.start [] .four none) 1 := by
  intro contained
  obtain ⟨_, _, inside⟩ := contained _ _ _ .refl
  obtain ⟨rtype, tail, here, _⟩ := inside (by decide)
  cases here

end Segment

end Phat
