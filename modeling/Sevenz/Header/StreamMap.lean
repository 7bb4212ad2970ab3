import Sevenz.Header.StreamsInfo

/-!
# The stream map

`Archive::calculate_stream_map`: where each block's pack streams, sub-streams and files
start, and which block each file is decoded from.
-/

namespace Sevenz

def packStreamIndices (numPackSizes : Nat) : List Block → Nat → Result (List Nat)
  | [], _ => pure []
  | block :: blocks, next => do
      let next' ← Result.okOr (.other "pack stream index overflow")
        (checkedAdd next block.packedStreams.length)
      Result.rejectIf (next' > numPackSizes)
        (.other "block references pack streams beyond the available pack sizes")
      let indices ← packStreamIndices numPackSizes blocks next'
      pure (next :: indices)

def subStreamIndices : List Block → Nat → Result (List Nat)
  | [], _ => pure []
  | block :: blocks, next => do
      let next' ← Result.okOr (.other "sub-stream index overflow")
        (checkedAdd next block.numUnpackSubStreams)
      let indices ← subStreamIndices blocks next'
      pure (next :: indices)

def packStreamOffsets : List UInt64 → Nat → Result (List Nat)
  | [], _ => pure []
  | size :: sizes, next => do
      let next' ← Result.okOr (.other "pack stream offset overflow")
        (checkedAdd next size.toNat)
      let offsets ← packStreamOffsets sizes next'
      pure (next :: offsets)

/-- The position of the file loop: the first files found so far, the block in hand and how
many of its sub-streams are taken. -/
structure MapState where
  blockFirstFileIndex : List Nat
  nextBlockIndex : Nat
  nextBlockUnpackStreamIndex : Nat

def seekBlock (blocks : List Block) (i : Nat) : Nat → MapState → Result MapState
  | 0, st => pure st
  | n + 1, st => do
      let blockFirstFileIndex ← Result.setIndex st.blockFirstFileIndex st.nextBlockIndex i
      let block ← Result.index blocks st.nextBlockIndex
      if block.numUnpackSubStreams > 0 then pure { st with blockFirstFileIndex }
      else
        seekBlock blocks i n
          { st with blockFirstFileIndex, nextBlockIndex := st.nextBlockIndex + 1 }

/-- `if next_block_unpack_stream_index == 0`: the file starts a block. -/
def startBlock (blocks : List Block) (i : Nat) (st : MapState) : Result MapState :=
  if st.nextBlockUnpackStreamIndex = 0 then do
    let st ← seekBlock blocks i (blocks.length - st.nextBlockIndex) st
    Result.rejectIf (st.nextBlockIndex ≥ blocks.length) (.other "Too few blocks in archive")
    pure st
  else pure st

def setCompressedSize (packSizes : List UInt64) (blockFirstPackStreamIndex : List Nat) (i : Nat)
    (st : MapState) (file : ArchiveEntry) : Result ArchiveEntry := do
  let first ← Result.index st.blockFirstFileIndex st.nextBlockIndex
  if first = i then do
    let packIndex ← Result.index blockFirstPackStreamIndex st.nextBlockIndex
    let packSize ← Result.okOr
      (.other "block references a pack stream index beyond pack_sizes") packSizes[packIndex]?
    pure { file with compressedSize := packSize }
  else pure file

def MapState.takeSubStream (st : MapState) (block : Block) : MapState :=
  if st.nextBlockUnpackStreamIndex + 1 ≥ block.numUnpackSubStreams then
    { st with nextBlockIndex := st.nextBlockIndex + 1, nextBlockUnpackStreamIndex := 0 }
  else { st with nextBlockUnpackStreamIndex := st.nextBlockUnpackStreamIndex + 1 }

def mapFile (blocks : List Block) (packSizes : List UInt64)
    (blockFirstPackStreamIndex : List Nat) (i : Nat) (file : ArchiveEntry) (st : MapState) :
    Result (Option Nat × ArchiveEntry × MapState) :=
  if file.hasStream = false ∧ st.nextBlockUnpackStreamIndex = 0 then pure (none, file, st)
  else do
    let st ← startBlock blocks i st
    if file.hasStream = false then pure (some st.nextBlockIndex, file, st)
    else do
      let file ← setCompressedSize packSizes blockFirstPackStreamIndex i st file
      let block ← Result.index blocks st.nextBlockIndex
      pure (some st.nextBlockIndex, file, st.takeSubStream block)

def mapFiles (blocks : List Block) (packSizes : List UInt64)
    (blockFirstPackStreamIndex : List Nat) :
    Nat → List ArchiveEntry → MapState → Result (List (Option Nat) × List ArchiveEntry × MapState)
  | _, [], st => pure ([], [], st)
  | i, file :: files, st => do
      let (blockIndex, file, st) ← mapFile blocks packSizes blockFirstPackStreamIndex i file st
      let (blockIndices, files, st) ←
        mapFiles blocks packSizes blockFirstPackStreamIndex (i + 1) files st
      pure (blockIndex :: blockIndices, file :: files, st)

def checkFileSpans (numFiles : Nat) (blockFirstFileIndex : List Nat) :
    Nat → List Block → Result Unit
  | _, [] => pure ()
  | b, block :: blocks => do
      let start ← Result.index blockFirstFileIndex b
      let last ← Result.okOr (.other "block file span overflow")
        (checkedAdd start block.numUnpackSubStreams)
      Result.rejectIf (last > numFiles)
        (.other "block declares more sub-streams than the archive has files")
      checkFileSpans numFiles blockFirstFileIndex (b + 1) blocks

def calculateStreamMap (archive : Archive) : Result Archive := do
  let blocks := archive.blocks
  let blockFirstPackStreamIndex ← packStreamIndices archive.packSizes.length blocks 0
  let blockFirstSubStreamIndex ← subStreamIndices blocks 0
  let packStreamOffsets ← packStreamOffsets archive.packSizes 0
  let (fileBlockIndex, files, st) ←
    mapFiles blocks archive.packSizes blockFirstPackStreamIndex 0 archive.files
      { blockFirstFileIndex := List.replicate blocks.length 0
        nextBlockIndex := 0
        nextBlockUnpackStreamIndex := 0 }
  checkFileSpans archive.files.length st.blockFirstFileIndex 0 blocks
  pure { archive with
    files
    streamMap :=
      { blockFirstPackStreamIndex, packStreamOffsets, blockFirstSubStreamIndex, fileBlockIndex
        blockFirstFileIndex := st.blockFirstFileIndex } }

end Sevenz
