import Mathlib.Data.Nat.Bitwise

/-!
# CRC-32

The checksum with the reflected polynomial `0xEDB88320`, bit by bit.
-/

namespace Sevenz.Lib

def crcBit (crc : Nat) : Nat :=
  if crc % 2 = 1 then (crc / 2) ^^^ 0xEDB88320 else crc / 2

def crcByte (crc : Nat) (byte : UInt8) : Nat := Nat.repeat crcBit 8 (crc ^^^ byte.toNat)

def crc32 (bytes : List UInt8) : UInt32 :=
  UInt32.ofNat (bytes.foldl crcByte 0xFFFFFFFF ^^^ 0xFFFFFFFF)

example : crc32 [49, 50, 51, 52, 53, 54, 55, 56, 57] = 0xCBF43926 := by decide +kernel

end Sevenz.Lib
