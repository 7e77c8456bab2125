import Phat.Decoding

/-! Readers on a file that goes on with a known piece: what they make of the piece, and
that the file goes on after it with what followed. -/
namespace Phat

/-- `piece` has been read, and the file goes on with `more`. -/
structure Past (f f' : FILE) (piece more : List Byte) : Prop where
  reads : Reads f f' piece.length
  rest : f'.rest = more

section Pieces
variable {f f' f'' : FILE} {piece next more : List Byte} {n : Nat} {identsz : IdentSize}

theorem Past.of_reads (rest : f.rest = piece ++ more) (reads : Reads f f' piece.length) :
    Past f f' piece more := by
  constructor
  · exact reads
  · rw [reads.rest, rest, List.drop_left]

theorem Past.trans (first : Past f f' piece (next ++ more)) (second : Past f' f'' next more) :
    Past f f'' (piece ++ next) more := by
  constructor
  · rw [List.length_append]
    exact first.reads.trans second.reads
  · exact second.rest

theorem FILE.ahead_piece (rest : f.rest = piece ++ more) (length : piece.length = n) :
    f.ahead n = piece := by
  change f.rest.take n = piece
  rw [rest, List.take_left' length]

theorem FILE.has_piece (rest : f.rest = piece ++ more) (length : piece.length = n)
    (some : 0 < n) : f.Has n := by
  apply FILE.has_of_rest some
  rw [rest, List.length_append]
  omega

theorem readIdent_piece (rest : f.rest = piece ++ more) (length : piece.length = identsz.size) :
    (readIdent identsz f).1 = identOf identsz piece ∧
      Past f (readIdent identsz f).2 piece more := by
  have has := FILE.has_piece rest length identsz.size_pos
  constructor
  · rw [readIdent_of_has has, FILE.ahead_piece rest length]
  · apply Past.of_reads rest
    rw [length]
    apply readIdent_reads
    rw [rest, List.length_append]
    omega

theorem readUintLocal_piece (rest : f.rest = piece ++ more) (length : piece.length = 4) :
    (readUintLocal f).1 = BitVec.ofNat 32 (BigEndian.number piece) ∧
      Past f (readUintLocal f).2 piece more := by
  have has := FILE.has_piece rest length (by decide)
  constructor
  · change (readUint f).1.getD _ = _
    rw [readUint_of_has has, Option.getD_some, FILE.ahead_piece rest length]
  · apply Past.of_reads rest
    rw [length]
    apply readUintLocal_reads
    rw [rest, List.length_append]
    omega

theorem readUint_piece (rest : f.rest = piece ++ more) (length : piece.length = 4) :
    ∃ f', readUint f = (some (BitVec.ofNat 32 (BigEndian.number piece)), f') ∧
      Past f f' piece more := by
  have has := FILE.has_piece rest length (by decide)
  rw [readUint_of_has has, FILE.ahead_piece rest length]
  exact ⟨_, rfl, .of_reads rest ⟨rfl, by rw [length]; rfl⟩⟩

theorem readUlong_piece (rest : f.rest = piece ++ more) (length : piece.length = 8) :
    ∃ f', readUlong f = (some (spread piece), f') ∧ Past f f' piece more := by
  have has := FILE.has_piece rest length (by decide)
  rw [readUlong_of_has has, FILE.ahead_piece rest length]
  exact ⟨_, rfl, .of_reads rest ⟨rfl, by rw [length]; rfl⟩⟩

theorem readUshort_piece (rest : f.rest = piece ++ more) (length : piece.length = 2) :
    (readUshort f).1 = some (BitVec.ofNat 16 (BigEndian.number piece)) ∧
      Past f (readUshort f).2 piece more := by
  have has := FILE.has_piece rest length (by decide)
  rw [readUshort_of_has has, FILE.ahead_piece rest length]
  exact ⟨rfl, .of_reads rest ⟨rfl, by rw [length]; rfl⟩⟩

theorem readUshortLocal_piece (rest : f.rest = piece ++ more) (length : piece.length = 2) :
    (readUshortLocal f).1 = BitVec.ofNat 16 (BigEndian.number piece) ∧
      Past f (readUshortLocal f).2 piece more := by
  obtain ⟨value, past⟩ := readUshort_piece rest length
  constructor
  · change (readUshort f).1.getD _ = _
    rw [value, Option.getD_some]
  · exact ⟨⟨past.reads.bytes, past.reads.pos⟩, past.rest⟩

theorem getc_piece {b : Byte} (rest : f.rest = b :: more) :
    uchar f.getc.1 = b ∧ Past f f.getc.2 [b] more := by
  obtain ⟨value, reads⟩ := getc_of_rest rest
  constructor
  · rw [value, uchar_toNat]
  · exact .of_reads rest reads

/-- A count of two bytes. -/
theorem number_digits_two (fits : n < 2 ^ 16) :
    (BitVec.ofNat 16 (BigEndian.number (BigEndian.digits 2 n))).toNat = n := by
  rw [BigEndian.number_digits, BitVec.toNat_ofNat]
  omega

theorem readTyped_htype (sig : Byte) : (readTyped identsz sig f).1.htype = sig := by
  unfold readTyped
  split_ifs <;> rfl

/-- Values of the types the format knows take up some bytes. -/
theorem fieldSize_pos {sig : Byte}
    (valid : sig ∈ ['L', '[', 'Z', 'B', 'S', 'C', 'I', 'J', 'F', 'D'].map chr) :
    0 < fieldSize identsz sig := by
  simp only [List.map_cons, List.map_nil, List.mem_cons, List.not_mem_nil, or_false] at valid
  rcases valid with rfl | rfl | rfl | rfl | rfl | rfl | rfl | rfl | rfl | rfl <;>
    cases identsz <;> decide

end Pieces

end Phat
