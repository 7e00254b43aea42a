import Mathlib.Logic.Function.Iterate

namespace Crc32

-- One bit of the reflected polynomial division that defines CRC-32.
def shift (crc : UInt32) : UInt32 :=
  if crc % 2 = 1 then (crc >>> 1) ^^^ 0xEDB88320 else crc >>> 1

def update (crc : UInt32) (byte : UInt8) : UInt32 :=
  shift^[8] (crc ^^^ byte.toUInt32)

def checksum (bytes : List UInt8) : UInt32 :=
  bytes.foldl update 0xFFFFFFFF ^^^ 0xFFFFFFFF

-- The check value of the standard, for the digits from 1 to 9.
example : checksum [49, 50, 51, 52, 53, 54, 55, 56, 57] = 0xCBF43926 := by decide +kernel

end Crc32
