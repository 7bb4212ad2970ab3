import Sevenz.Header.Block
import Sevenz.Reader.Codecs

/-!
# The decode stack of a block

`ArchiveReader::build_decode_stack` with its multi-input form, and the coder order they and
the header decode follow.
-/

namespace Sevenz

open Lib

def idAes256Sha256 : List UInt8 := [0x06, 0xF1, 0x07, 0x01]

def idBcj2 : List UInt8 := [0x03, 0x03, 0x01, 0x1B]

/-- The exponent no archive may exceed, whatever the caller allows. -/
def maxAesCyclesPower : Nat := 24

def checkAesCoder (limits : ArchiveLimits) (coder : Coder) : Result Unit :=
  if coder.encoderMethodId ≠ idAes256Sha256 then pure ()
  else do
    let first ← Result.okOr (.other "AES256 properties too short") coder.properties.head?
    let power := first.toNat % 64
    let cap := min limits.maxAesCyclesPower.toNat maxAesCyclesPower
    Result.rejectIf (power ≠ 63 ∧ power > cap) (.limitExceeded .aesCyclesPower cap power)

def checkAesCoders (limits : ArchiveLimits) : List Coder → Result Unit
  | [] => pure ()
  | coder :: coders => do
      checkAesCoder limits coder
      checkAesCoders limits coders

def orderedCoders (block : Block) : Nat → Option Nat → List (Nat × Coder)
  | 0, _ => []
  | _, none => []
  | remaining + 1, some i =>
      match block.coders[i]? with
      | none => []
      | some coder =>
          (i, coder) ::
            orderedCoders block remaining
              ((block.findBindPairForOutStream i).map BindPair.inIndex)

@[simp] theorem orderedCoders_none (block : Block) (remaining : Nat) :
    orderedCoders block remaining none = [] := by
  cases remaining <;> rfl

def Block.orderedCoderIter (block : Block) : List (Nat × Coder) :=
  orderedCoders block block.coders.length block.packedStreams.head?

def addChain (codecs : Codecs) (block : Block) (unsupported : Error) :
    List (Nat × Coder) → Decoder → Result Decoder
  | [], decoder => pure decoder
  | (index, coder) :: chain, decoder => do
      Result.rejectIf (coder.numInStreams ≠ 1 ∨ coder.numOutStreams ≠ 1) unsupported
      let decoder ← codecs.addDecoder decoder
        { coderIndex := index, coder
          sizeIndex := index, uncompressedLen := block.getUnpackSizeAtIndex index }
      addChain codecs block unsupported chain decoder

/-- What `build_decode_stack` returns: a decoder, the checksum to verify over it, and the
size of the first packed stream. -/
structure DecodeStack where
  decoder : Decoder
  check : Option (UInt64 × UInt64)
  packSize : UInt64
  deriving DecidableEq, Repr

def DecodeStack.read (stack : DecodeStack) (codecs : Codecs) :
    ReadFn IoError (Option CrcState × List Nat) :=
  maybeCrcRead codecs.crc32 (codecs.decode stack.decoder).read

def DecodeStack.start (stack : DecodeStack) : Option CrcState × List Nat :=
  (stack.check.map fun check => CrcState.new check.1 check.2, [])

/-- The checksum of a block's data, which a block of a single sub-stream may store there. -/
def blockCrc (archive : Archive) (block : Block) (blockIndex : Nat) : Result (Option UInt64) :=
  if block.hasCrc then pure (some block.crc)
  else
    match archive.subStreamsInfo with
    | none => pure none
    | some info =>
        if block.numUnpackSubStreams = 1 then do
          let index ← Result.index archive.streamMap.blockFirstSubStreamIndex blockIndex
          if info.hasCrc.contains index then do
            let crc ← Result.index info.crcs index
            pure (some crc)
          else pure none
        else pure none

def withCheck (block : Block) : Option UInt64 → Result (Option (UInt64 × UInt64))
  | none => pure none
  | some crc => do
      let size ← block.getUnpackSize
      pure (some (size, crc))

/-- `SIGNATURE_HEADER_SIZE.checked_add(archive.pack_pos)`. -/
def packStart (archive : Archive) : Option Nat :=
  checkedAdd signatureHeaderSize archive.packPos.toNat

def maxCoderCount : Nat := 32

def packSources (archive : Archive) (first startPos : Nat) : Nat → Nat → Result (List Decoder)
  | 0, _ => pure []
  | n + 1, i => do
      let packPos ← Result.okOr (.other "pack stream offset out of range")
        (checkedAdd startPos (archive.streamMap.packStreamOffsets.getD (first + i) 0))
      let packSize ← Result.index archive.packSizes (first + i)
      let _ ← Result.okOr (.other "pack stream size out of range")
        (checkedAdd packPos packSize.toNat)
      let sources ← packSources archive first startPos n (i + 1)
      pure (.pack i packPos packSize.toNat :: sources)

def checkOutIndices (block : Block) : List BindPair → Result Unit
  | [] => pure ()
  | bp :: bindPairs => do
      Result.rejectIf (bp.outIndex ≥ block.coders.length)
        (.other "bind pair out index exceeds coder count")
      checkOutIndices block bindPairs

def mainCoderIndex (block : Block) : Nat :=
  ((List.range block.coders.length).find? fun i =>
    (block.findBindPairForOutStream i).isNone).getD 0

def getInStream (block : Block) (sources : List Decoder) (resolve : Nat → Result Decoder)
    (inStreamIndex : Nat) : Result Decoder :=
  match block.packedStreams.idxOf? inStreamIndex with
  | some index => Result.index sources index
  | none => do
      let bp ← Result.okOr (.other s!"Couldn't find bind pair for stream {inStreamIndex}")
        (block.findBindPairForInStream inStreamIndex)
      resolve bp.outIndex

/-- `get_in_stream2`.  The source counts the depth up and gives up past the coder count; here
what is left of that count is counted down. -/
def getInStream2 (codecs : Codecs) (block : Block) (sources : List Decoder) :
    Nat → Nat → Result Decoder
  | 0, _ => Result.fail (.other "cyclic coder bind-pair graph")
  | depthLeft + 1, index => do
      let coder ← Result.okOr (.other "in_stream_index out of range") block.coders[index]?
      let startIndex := block.firstIn index
      let uncompressedLen ←
        Result.okOr (.other "in_stream_index out of range") block.unpackSizes[index]?
      let stage : Stage := { coderIndex := index, coder, sizeIndex := index, uncompressedLen }
      let input := getInStream block sources (getInStream2 codecs block sources depthLeft)
      if coder.numInStreams = 1 then do
        let input ← input startIndex
        codecs.addDecoder input stage
      else if coder.encoderMethodId = idBcj2 then do
        Result.rejectIf (coder.numInStreams ≠ 4)
          (.other "BCJ2 coder must declare exactly four input streams")
        let main ← input startIndex
        let call ← input (startIndex + 1)
        let jump ← input (startIndex + 2)
        let range ← input (startIndex + 3)
        pure (.bcj2 stage main call jump range)
      else Result.fail (.unsupported s!"Unsupported multi-input coder: {coder.encoderMethodId}")

def buildDecodeStack2 (codecs : Codecs) (archive : Archive) (blockIndex : Nat) :
    Result DecodeStack := do
  let block ← Result.index archive.blocks blockIndex
  Result.rejectIf (block.coders.length > maxCoderCount)
    (.unsupported s!"Too many coders: {block.coders.length}")
  let first ← Result.index archive.streamMap.blockFirstPackStreamIndex blockIndex
  let startPos ← Result.okOr (.other "pack position out of range") (packStart archive)
  Result.sliceCheck (first + block.packedStreams.length) archive.streamMap.packStreamOffsets
  let sources ← packSources archive first startPos block.packedStreams.length 0
  checkOutIndices block block.bindPairs
  let decoder ←
    getInStream2 codecs block sources (block.coders.length + 1) (mainCoderIndex block)
  let check ← withCheck block (if block.hasCrc then some block.crc else none)
  let packSize ← Result.index archive.packSizes first
  pure { decoder, check, packSize }

/-- `checked_add` of the first pack stream's offset, which is only looked up where the pack
position itself is in range. -/
def blockOffset (archive : Archive) (first : Nat) : Result Nat :=
  match packStart archive with
  | none => Result.fail (.other "block offset out of range")
  | some start => do
      let offset ← Result.index archive.streamMap.packStreamOffsets first
      Result.okOr (.other "block offset out of range") (checkedAdd start offset)

def buildDecodeStack (codecs : Codecs) (limits : ArchiveLimits) (archive : Archive)
    (blockIndex : Nat) : Result DecodeStack := do
  let block ← Result.index archive.blocks blockIndex
  checkAesCoders limits block.coders
  if block.totalInputStreams > block.totalOutputStreams then
    buildDecodeStack2 codecs archive blockIndex
  else do
    let first ← Result.index archive.streamMap.blockFirstPackStreamIndex blockIndex
    let offset ← blockOffset archive first
    let crc ← blockCrc archive block blockIndex
    codecs.seek offset
    let packSize ← Result.index archive.packSizes first
    let decoder ←
      addChain codecs block
        (.unsupported "Multi input/output stream coders are not supported")
        block.orderedCoderIter (.pack 0 offset packSize.toNat)
    let check ← withCheck block crc
    pure { decoder, check, packSize }

end Sevenz
