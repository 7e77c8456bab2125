import Phat.Dump

/-! The header of a dump file and what `readDump` sets up before its record loop. -/
namespace Phat

/-- `"JAVA"` as a number. -/
def MAGIC_HEADER : BitVec 32 := 0x4a415641

/-- The loop of `readVersion` with room for `n` more bytes in `sb`; the zero that is stored
when the room is used up is not among them. -/
def versionBytes : Nat → FILE → List Byte × FILE
  | 0, f => ([], f)
  | n + 1, f =>
    let (ch, f) := f.getc
    if ch = EOF then ([], f)
    else if uchar ch = 0 then ([0], f)
    else
      let (rest, f) := versionBytes n f
      (uchar ch :: rest, f)

/-- `" PROFILE 1.0"` -/
def profileName : CString :=
  [' ', 'P', 'R', 'O', 'F', 'I', 'L', 'E', ' ', '1', '.', '0'].map chr

/-- The texts `readVersion` compares with, and what it returns for each. -/
def versionTexts : List (CString × Nat) :=
  [(profileName ++ [chr '.', chr '2'], 2), (profileName ++ [chr '.', chr '1'], 1),
    (profileName, 0)]

theorem profileName_nonzero : ∀ b ∈ profileName, b ≠ 0 := by
  rw [profileName, List.forall_mem_map]
  simp [chr]

theorem versionTexts_nonzero : ∀ entry ∈ versionTexts, ∀ b ∈ entry.1, b ≠ 0 := by
  have minor : ∀ more : List Byte, (∀ b ∈ more, b ≠ 0) → ∀ b ∈ profileName ++ more, b ≠ 0 :=
    fun more clear => List.forall_mem_append.mpr ⟨profileName_nonzero, clear⟩
  rw [versionTexts, List.forall_mem_cons, List.forall_mem_cons, List.forall_mem_singleton]
  exact ⟨minor _ (by simp [chr]), minor _ (by simp [chr]), profileName_nonzero⟩

theorem versionTexts_lookup_self :
    ∀ entry ∈ versionTexts, versionTexts.lookup entry.1 = some entry.2 := by decide

/-- `none` stands for the result -1. `sb` holds `memory` behind the bytes read, which
`strcmp` meets when the file ends before a zero; 39 bytes of 40 are used at most. -/
def readVersion (memory : List Byte) (f : FILE) : Option Nat × FILE :=
  let (sb, f) := versionBytes 39 f
  let text := (sb ++ memory).takeWhile (· ≠ 0)
  (if sb = [] then none else versionTexts.lookup text, f)

/-- `4 != df->identsz && 8 != df->identsz` -/
def identSize (n : BitVec 32) : Option IdentSize :=
  if n = 4 then some .four else if n = 8 then some .eight else none

structure Header where
  fVersion : Nat
  identsz : IdentSize
  date : BitVec 64
deriving DecidableEq

/-- `readDump` up to the date, which is only printed. -/
def readHeader (memory : List Byte) (f : FILE) : Except Stop (Header × FILE) :=
  match readUint f with
  | (none, _) => .error (.exit 2)
  | (some magic, f) =>
    if MAGIC_HEADER ≠ magic then .error (.exit 2)
    else
      match readVersion memory f with
      | (none, _) => .error (.exit 3)
      | (some fVersion, f) =>
        match readUint f with
        | (none, _) => .error (.exit 2)
        | (some size, f) =>
          match identSize size with
          | none => .error (.exit 4)
          | some identsz =>
            match readUlong f with
            | (none, _) => .error (.exit 2)
            | (some date, f) => .ok (⟨fVersion, identsz, date⟩, f)

/-- The tables created before the record loop; `memory` is what `malloc` returns. -/
def Jdump.create (memory : Jdump) (header : Header) (f : FILE) (fclass : Option CString)
    (plimit : Int) : Jdump :=
  { memory with
    fin := f
    fVersion := header.fVersion
    identsz := header.identsz
    sbTable := .empty
    cTable := .empty
    hTable := .empty
    rcTable := .empty
    scTable := .empty
    roots := .empty
    fclass := fclass
    plimit := plimit
    fakeClass := 1000
    log := [] }

theorem Jdump.create_opened (memory : Jdump) (header : Header) (f : FILE)
    (fclass : Option CString) (plimit : Int) : (memory.create header f fclass plimit).Opened :=
  ⟨rfl, rfl, rfl, rfl, rfl, rfl, rfl, rfl⟩

/-- The program on a dump file, from its first byte on. -/
def readDump (memory : Dump) (sb : List Byte) (fclass : Option CString) (plimit : Int)
    (fuel : Nat) (file : FILE) : Except Stop Dump :=
  match readHeader sb file with
  | .error stop => .error stop
  | .ok (header, f) =>
    dumpLoop fuel { jf := memory.jf.create header f fclass plimit, lk := .initial memory.lk,
                    screen := memory.screen }

/-- A header as the format writes it, with the text of its version. -/
def Header.encode (header : Header) (text : CString) : List Byte :=
  BigEndian.digits 4 MAGIC_HEADER.toNat ++ (text ++ 0 ::
    (BigEndian.digits 4 header.identsz.size ++ BigEndian.digits 8 header.date.toNat))

end Phat
