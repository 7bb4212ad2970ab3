import Sevenz.Header.PackInfo
import Sevenz.Header.Block

/-!
# The streams info section

`read_unpack_info`, `read_sub_streams_info` and the section that holds them.
-/

namespace Sevenz

open Lib Lib.Parser

/-- The loop over a header's blocks.  The coders are counted across all of them. -/
def readBlocks (bounds : HeaderBounds) : Nat → Nat → HeaderReader (List Block)
  | 0, _ => pure []
  | n + 1, totalCoders => do
      let block ← readBlock bounds
      let totalCoders := min (totalCoders + block.coders.length) (2 ^ 64 - 1)
      let cap := bounds.limits.maxTotalCoders.toNat
      Result.rejectIf (totalCoders > cap) (.limitExceeded .totalCoders cap totalCoders)
      let blocks ← readBlocks bounds n totalCoders
      pure (block :: blocks)

def readUnpackSizes (blocks : List Block) : HeaderReader (List Block) :=
  blocks.mapM fun block => do
    let sizes ← many block.totalOutputStreams readVariableU64
    pure { block with unpackSizes := block.unpackSizes ++ sizes }

def readBlockCrc (numBlocks : Nat) (crcsDefined : BitSet) (block : Block × Nat) :
    HeaderReader Block :=
  if block.2 ≥ numBlocks then pure block.1
  else if crcsDefined.contains block.2 then do
    let crc ← readU32
    pure { block.1 with hasCrc := true, crc := crc.toUInt64 }
  else pure { block.1 with hasCrc := false }

/-- `if nid == K_CRC`: the digests, and the id of the property after them. -/
def readBlockCrcs (numBlocks : Nat) (blocks : List Block) (nid : UInt8) :
    HeaderReader (List Block × UInt8) :=
  if nid = kCrc then do
    let crcsDefined ← readAllOrBits numBlocks
    let blocks ← blocks.zipIdx.mapM (readBlockCrc numBlocks crcsDefined)
    let nid ← readU8
    pure (blocks, nid)
  else pure (blocks, nid)

def readUnpackInfo (bounds : HeaderBounds) (archive : Archive) : HeaderReader Archive := do
  let nid ← readU8
  Result.rejectIf (nid ≠ kFolder) (.other s!"Expected kFolder, got {nid}")
  let num ← readNumber
  let numBlocks ← bounds.count num .entries
  let external ← readU8
  Result.rejectIf (external ≠ 0) .externalUnsupported
  let blocks ← readBlocks bounds numBlocks 0
  let nid ← readU8
  Result.rejectIf (nid ≠ kCodersUnpackSize) (.other s!"Expected kCodersUnpackSize, got {nid}")
  let blocks ← readUnpackSizes (archive.blocks ++ blocks)
  let nid ← readU8
  let (blocks, nid) ← readBlockCrcs numBlocks blocks nid
  Result.rejectIf (nid ≠ kEnd) .badTerminatedUnpackInfo
  pure { archive with blocks }

def readNumUnpackStreams (bounds : HeaderBounds) :
    List Block → Nat → HeaderReader (List Block × Nat)
  | [], total => pure ([], total)
  | block :: blocks, total => do
      let num ← readNumber
      let numStreams ← bounds.count num .entries
      let total ← bounds.addCount total numStreams
      let (blocks, total) ← readNumUnpackStreams bounds blocks total
      pure ({ block with numUnpackSubStreams := numStreams } :: blocks, total)

structure SubStreamCounts where
  blocks : List Block
  totalUnpackStreams : Nat
  nid : UInt8

def readSubStreamCounts (bounds : HeaderBounds) (blocks : List Block) :
    HeaderReader SubStreamCounts := do
  let blocks := blocks.map fun block => { block with numUnpackSubStreams := 1 }
  let nid ← readU8
  if nid = kNumUnpackStream then do
    let (blocks, totalUnpackStreams) ← readNumUnpackStreams bounds blocks 0
    let nid ← readU8
    pure { blocks, totalUnpackStreams, nid }
  else pure { blocks, totalUnpackStreams := blocks.length, nid }

/-- The flat array of sizes while it is filled: its next free index, and the sum of the
sizes read for the block in hand. -/
structure SizeFill where
  unpackSizes : List UInt64
  nextUnpackStream : Nat
  sum : Nat

def readExplicitSizes : Nat → SizeFill → HeaderReader SizeFill
  | 0, fill => pure fill
  | n + 1, fill => do
      let size ← readVariableU64
      let unpackSizes ← Result.setIndex fill.unpackSizes fill.nextUnpackStream size
      let sum ← Result.okOr (.other "sub-stream size sum overflow")
        (checkedAdd fill.sum size.toNat)
      readExplicitSizes n { unpackSizes, nextUnpackStream := fill.nextUnpackStream + 1, sum }

/-- One block's round of the size loop.  Without the size property no explicit size is read
and the one inferred size is stored at the next free index. -/
def readBlockSizes (nid : UInt8) (block : Block) (unpackSizes : List UInt64)
    (nextUnpackStream : Nat) : HeaderReader (List UInt64 × Nat) := do
  let explicit := if nid = kSize then block.numUnpackSubStreams - 1 else 0
  let fill ← readExplicitSizes explicit { unpackSizes, nextUnpackStream, sum := 0 }
  let total ← block.getUnpackSize
  Result.rejectIf (fill.sum > total.toNat)
    (.other "sum of unpack sizes of block exceeds total unpack size")
  let unpackSizes ←
    Result.setIndex fill.unpackSizes fill.nextUnpackStream (total - UInt64.ofNat fill.sum)
  pure (unpackSizes, fill.nextUnpackStream + 1)

def readSubStreamSizes (nid : UInt8) : List Block → List UInt64 → Nat → HeaderReader (List UInt64)
  | [], unpackSizes, _ => pure unpackSizes
  | block :: blocks, unpackSizes, next =>
      if block.numUnpackSubStreams = 0 then readSubStreamSizes nid blocks unpackSizes next
      else do
        let (unpackSizes, next) ← readBlockSizes nid block unpackSizes next
        readSubStreamSizes nid blocks unpackSizes next

def Block.ownsDigest (block : Block) : Bool := block.numUnpackSubStreams == 1 && block.hasCrc

def countDigests (total : Nat) : List Block → Nat → Result Nat
  | [], numDigests => pure numDigests
  | block :: blocks, numDigests =>
      if block.ownsDigest then countDigests total blocks numDigests
      else do
        let numDigests ← Result.okOr (.other "sub-stream digest count out of range")
          ((checkedAdd numDigests block.numUnpackSubStreams).filter fun n => n ≤ total)
        countDigests total blocks numDigests

structure DigestFill where
  hasCrc : BitSet
  crcs : List UInt64
  nextCrc : Nat
  nextMissingCrc : Nat

def fillMissing (hasMissingCrc : BitSet) (missingCrcs : List UInt64) :
    Nat → DigestFill → Result DigestFill
  | 0, fill => pure fill
  | n + 1, fill => do
      let hasCrc :=
        if hasMissingCrc.contains fill.nextMissingCrc then fill.hasCrc.insert fill.nextCrc
        else fill.hasCrc.remove fill.nextCrc
      let crc ← Result.index missingCrcs fill.nextMissingCrc
      let crcs ← Result.setIndex fill.crcs fill.nextCrc crc
      fillMissing hasMissingCrc missingCrcs n
        { hasCrc, crcs, nextCrc := fill.nextCrc + 1, nextMissingCrc := fill.nextMissingCrc + 1 }

def fillDigests (hasMissingCrc : BitSet) (missingCrcs : List UInt64) :
    List Block → DigestFill → Result DigestFill
  | [], fill => pure fill
  | block :: blocks, fill => do
      if block.ownsDigest then do
        let crcs ← Result.setIndex fill.crcs fill.nextCrc block.crc
        fillDigests hasMissingCrc missingCrcs blocks
          { fill with
            hasCrc := fill.hasCrc.insert fill.nextCrc
            crcs := crcs
            nextCrc := fill.nextCrc + 1 }
      else do
        let fill ← fillMissing hasMissingCrc missingCrcs block.numUnpackSubStreams fill
        fillDigests hasMissingCrc missingCrcs blocks fill

/-- `if nid == K_CRC`: the sub-stream digests, and the id of the property after them. -/
def readSubStreamDigests (blocks : List Block) (numDigests : Nat) (info : SubStreamsInfo)
    (nid : UInt8) : HeaderReader (SubStreamsInfo × UInt8) :=
  if nid = kCrc then do
    let hasMissingCrc ← readAllOrBits numDigests
    let missingCrcs ← readDigests numDigests hasMissingCrc
    let fill ← fillDigests hasMissingCrc missingCrcs blocks
      { hasCrc := info.hasCrc, crcs := info.crcs, nextCrc := 0, nextMissingCrc := 0 }
    let nid ← readU8
    pure ({ info with hasCrc := fill.hasCrc, crcs := fill.crcs }, nid)
  else pure (info, nid)

def skipSizeId (nid : UInt8) : HeaderReader UInt8 :=
  if nid = kSize then readU8 else pure nid

def readSubStreamsInfo (bounds : HeaderBounds) (archive : Archive) : HeaderReader Archive := do
  let counts ← readSubStreamCounts bounds archive.blocks
  let total := counts.totalUnpackStreams
  let unpackSizes ←
    readSubStreamSizes counts.nid counts.blocks (List.replicate total 0) 0
  let nid ← skipSizeId counts.nid
  let numDigests ← countDigests total counts.blocks 0
  let info : SubStreamsInfo :=
    { unpackSizes
      hasCrc := BitSet.empty.reserveLenExact total
      crcs := List.replicate total 0 }
  let (info, nid) ← readSubStreamDigests counts.blocks numDigests info nid
  Result.rejectIf (nid ≠ kEnd) .badTerminatedSubStreamsInfo
  pure { archive with blocks := counts.blocks, subStreamsInfo := some info }

def optionalSection (expected nid : UInt8) (archive : Archive)
    (read : Archive → HeaderReader Archive) (absent : Archive → Archive) :
    HeaderReader (Archive × UInt8) :=
  if nid = expected then do
    let archive ← read archive
    let nid ← readU8
    pure (archive, nid)
  else pure (absent archive, nid)

def readStreamsInfo (bounds : HeaderBounds) (archive : Archive) : HeaderReader Archive := do
  let nid ← readU8
  let (archive, nid) ← optionalSection kPackInfo nid archive (readPackInfo bounds) id
  let (archive, nid) ← optionalSection kUnpackInfo nid archive (readUnpackInfo bounds)
    fun archive => { archive with blocks := [] }
  let (archive, nid) ← optionalSection kSubStreamsInfo nid archive (readSubStreamsInfo bounds) id
  Result.rejectIf (nid ≠ kEnd) (.badTerminatedStreamsInfo nid)
  pure archive

end Sevenz
