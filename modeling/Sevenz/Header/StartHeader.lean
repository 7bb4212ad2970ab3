import Sevenz.Header.Read

/-!
# The start header

The thirty-two bytes `finish` writes over the front of the file, and that they lead the
reader to the end header.
-/

namespace Sevenz

open Lib Lib.Parser

def startHeaderBody (crc32 : List UInt8 → UInt32) (headerPos : Nat) (header : List UInt8) :
    List UInt8 :=
  leBytes 8 (headerPos - signatureHeaderSize) ++
    (leBytes 8 (header.length % 2 ^ 32) ++ writeU32 (crc32 header))

def writeStartHeader (crc32 : List UInt8 → UInt32) (headerPos : Nat) (header : List UInt8) :
    List UInt8 :=
  let body := startHeaderBody crc32 headerPos header
  sevenZSignature ++ ([0, 4] ++ (writeU32 (crc32 body) ++ body))

def archiveFile (crc32 : List UInt8 → UInt32) (packed header : List UInt8) : List UInt8 :=
  writeStartHeader crc32 (signatureHeaderSize + packed.length) header ++ (packed ++ header)

variable (crc32 : List UInt8 → UInt32) (headerPos : Nat) (packed header : List UInt8)

@[simp] theorem startHeaderBody_length :
    (startHeaderBody crc32 headerPos header).length = 20 := by
  simp [startHeaderBody, leBytes_length, writeU32]

theorem writeStartHeader_length :
    (writeStartHeader crc32 headerPos header).length = signatureHeaderSize := by
  simp [writeStartHeader, sevenZSignature, leBytes_length, writeU32, signatureHeaderSize]

theorem drop_archiveFile :
    (archiveFile crc32 packed header).drop signatureHeaderSize = packed ++ header := by
  rw [archiveFile]
  exact List.drop_left' (writeStartHeader_length crc32 _ header)

theorem archiveFile_length :
    (archiveFile crc32 packed header).length =
      signatureHeaderSize + (packed.length + header.length) := by
  rw [archiveFile, List.length_append, writeStartHeader_length, List.length_append]

end Sevenz
