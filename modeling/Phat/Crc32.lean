import Mathlib.Data.BitVec

/-! The CRC-32 of zlib's `crc32`, which keys the table of class names: reflected
polynomial 0xEDB88320, initial and final complement. -/
namespace Phat.Crc32

/-- One bit of the register is shifted out. -/
def shift (crc : BitVec 32) : BitVec 32 :=
  if crc.getLsbD 0 then crc >>> 1 ^^^ 0xEDB88320#32 else crc >>> 1

def update (crc : BitVec 32) (byte : BitVec 8) : BitVec 32 :=
  shift (shift (shift (shift (shift (shift (shift (shift (crc ^^^ byte.setWidth 32))))))))

/-- `crc32(crc32(0, Z_NULL, 0), bytes, len)` -/
def crc32 (bytes : List (BitVec 8)) : BitVec 32 :=
  ~~~ bytes.foldl update (~~~ 0#32)

-- the check value every CRC-32 is published with, of the digits 1 to 9
example : crc32 [0x31, 0x32, 0x33, 0x34, 0x35, 0x36, 0x37, 0x38, 0x39] = 0xCBF43926#32 := by
  decide +kernel

end Phat.Crc32
