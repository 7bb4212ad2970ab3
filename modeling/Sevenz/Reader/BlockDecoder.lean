import Sevenz.Reader.DecodeStack

/-!
# Walking a block

`BlockDecoder::for_each_entries`: a block's entries are handed to the caller one after the
other, each through a reader over the block's one decoded stream.
-/

namespace Sevenz

open Lib

/-- One call of the caller's closure: the reads it made of the entry's reader, the reads those
made of the block's decoded stream, and what it returned.  `none` is a closure that does not
return. -/
structure Visit where
  blockIndex : Option Nat
  fileIndex : Nat
  records : List (ReadRecord IoError)
  blockReads : List (ReadRecord IoError)
  answer : Option (Except Error Bool)

structure SubStreamCompletion where
  blockIndex : Nat
  subStreamIndex : Nat
  fileIndex : Nat
  unpackedOffset : UInt64
  len : UInt64
  crc32 : UInt32
  deriving DecidableEq, Repr

structure BlockCompletion where
  blockIndex : Nat
  unpackedSize : UInt64
  crcVerified : Bool
  deriving DecidableEq, Repr

/-- The calls of the closure and of the two completion hooks, in order. -/
structure WalkLog where
  visits : List Visit := []
  subStreams : List SubStreamCompletion := []
  blocks : List BlockCompletion := []

/-- The caller's closure.  It may keep what it has seen, and it is handed a reference to the
entry, which identifies it. -/
abbrev Callback := List Visit → Nat → ArchiveEntry → Script IoError (Option (Except Error Bool))

structure PackStreamRange where
  index : Nat
  offset : Nat
  size : UInt64
  deriving DecidableEq, Repr

def saturatingAdd (a b : Nat) : Nat := min (a + b) (2 ^ 64 - 1)

def packStreamRange (archive : Archive) (index : Nat) : Option PackStreamRange := do
  let offset ← archive.streamMap.packStreamOffsets[index]?
  let size ← archive.packSizes[index]?
  pure
    { index
      offset := saturatingAdd (saturatingAdd signatureHeaderSize archive.packPos.toNat) offset
      size }

def blockPackStreams (archive : Archive) (blockIndex : Nat) : List PackStreamRange :=
  match archive.blocks[blockIndex]?, archive.streamMap.blockFirstPackStreamIndex[blockIndex]? with
  | some block, some first =>
      (List.range' first (max block.packedStreams.length 1)).filterMap (packStreamRange archive)
  | _, _ => []

/-- The offsets the files of a block start at, the leading zero left out, and whether any of
them has a checksum.  The sum wraps as in a build without overflow checks. -/
def boundaryLoop : List ArchiveEntry → UInt64 → List UInt64 × Bool
  | [], _ => ([], false)
  | file :: files, at_ =>
      if file.hasStream ∧ file.size > 0 then
        let (offsets, wanted) := boundaryLoop files (at_ + file.size)
        (if at_ ≠ 0 then at_ :: offsets else offsets, file.hasCrc || wanted)
      else boundaryLoop files at_

def fileBoundaries (archive : Archive) (blockIndex : Nat) : Result (List UInt64) := do
  let block ← Result.index archive.blocks blockIndex
  if block.coders.length ≠ 1 then pure []
  else do
    let start ← Result.index archive.streamMap.blockFirstFileIndex blockIndex
    let (offsets, wanted) :=
      boundaryLoop ((archive.files.drop start).take block.numUnpackSubStreams) 0
    if ¬ (block.hasCrc || wanted) then pure []
    else if offsets.isEmpty then pure [0xFFFFFFFFFFFFFFFF]
    else pure offsets

structure BlockDecoder where
  codecs : Codecs
  limits : ArchiveLimits
  verifyChecksums : Bool
  passwordGiven : Bool
  archive : Archive
  blockIndex : Nat

/-- What is settled before the first entry: the split points, the decode stack, whether the
workers compute the checksums, and where the block's files and sub-streams start. -/
structure OpenBlock extends BlockDecoder where
  block : Block
  packedOffset : Nat
  splits : List UInt64
  stack : DecodeStack
  folding : Bool
  start : Nat
  firstSubStream : Nat

structure BlockState where
  chain : FaultState (Option CrcState × List Nat)
  unpackedOffset : UInt64
  subStream : Nat
  log : WalkLog

namespace BlockDecoder

def checksumSplits (d : BlockDecoder) : Result (List UInt64) :=
  if d.verifyChecksums then fileBoundaries d.archive d.blockIndex else pure []

def openBlock (d : BlockDecoder) : Result OpenBlock := do
  let splits ← d.checksumSplits
  let opts : DecodeOptions :=
    { limits := d.limits, verifyChecksums := d.verifyChecksums, checksumSplits := splits }
  let packedOffset := ((blockPackStreams d.archive d.blockIndex).head?.map (·.offset)).getD 0
  let stack ← (buildDecodeStack d.codecs d.limits d.archive d.blockIndex).mapErr
    fun e => e.inBlock d.blockIndex packedOffset
  let folding := opts.foldingChecksums d.codecs stack.decoder
  let start ← Result.index d.archive.streamMap.blockFirstFileIndex d.blockIndex
  let block ← Result.index d.archive.blocks d.blockIndex
  let firstSubStream ← Result.index d.archive.streamMap.blockFirstSubStreamIndex d.blockIndex
  pure { d with block, packedOffset, splits, stack, folding, start, firstSubStream }

end BlockDecoder

namespace OpenBlock

variable (d : OpenBlock)

def entryRead : ReadFn IoError
    (Option CrcState × Nat × FaultState (Option CrcState × List Nat)) :=
  maybeCrcRead d.codecs.crc32 (boundedRead (faultRead (d.stack.read d.codecs)))

def entryCheck (file : ArchiveEntry) : Option CrcState :=
  if file.hasCrc && d.verifyChecksums && !d.folding then some (CrcState.new file.size file.crc)
  else none

/-- An error the closure returned.  Only a failure that came out of the decode chain is this
block's. -/
def locate (faulted : Bool) (e : Error) : Error :=
  let e := e.maybeBadPasswordIf d.passwordGiven
  if faulted then e.inBlock d.blockIndex d.packedOffset else e

def folded (reads : List (ReadRecord IoError)) (offset len : Nat) : Option UInt32 :=
  d.codecs.folded d.stack.decoder d.splits reads offset len

def foldedEntry (file : ArchiveEntry) (st : BlockState) : Option UInt32 :=
  if d.folding then d.folded st.chain.reads st.unpackedOffset.toNat file.size.toNat else none

def subStreamCompletion (fileIndex : Nat) (file : ArchiveEntry) (st : BlockState)
    (crc32 : UInt32) : SubStreamCompletion :=
  { blockIndex := d.blockIndex
    subStreamIndex := d.firstSubStream + st.subStream
    fileIndex
    unpackedOffset := st.unpackedOffset
    len := file.size
    crc32 }

/-- What follows a call that returned `Ok`: the folded checksum, the hook, the counts. -/
def finishEntry (fileIndex : Nat) (file : ArchiveEntry) (report : Option UInt32) (goOn : Bool)
    (st : BlockState) : Result Bool × BlockState :=
  if (d.foldedEntry file st).any fun crc => file.hasCrc && crc.toUInt64 != file.crc then
    (Result.fail (Error.checksumVerificationFailed.inBlock d.blockIndex d.packedOffset), st)
  else
    let completions :=
      (((d.foldedEntry file st).or report).map (d.subStreamCompletion fileIndex file st)).toList
    (.ok goOn,
      { st with
        unpackedOffset := st.unpackedOffset + file.size
        subStream := st.subStream + 1
        log := { st.log with subStreams := st.log.subStreams ++ completions } })

/-- The closure's run on an entry with bytes: its answer, its reads, and what is left of the
readers it was handed. -/
def callStream (each : Callback) (fileIndex : Nat) (file : ArchiveEntry) (st : BlockState) :
    Option (Except Error Bool) × List (ReadRecord IoError) ×
      Option CrcState × Nat × FaultState (Option CrcState × List Nat) :=
  (each st.log.visits fileIndex file).run d.entryRead
    (d.entryCheck file, file.size.toNat, st.chain)

def streamVisit (each : Callback) (fileIndex : Nat) (file : ArchiveEntry) (st : BlockState) :
    Visit :=
  let (answer, records, _, _, chain) := d.callStream each fileIndex file st
  { blockIndex := some d.blockIndex, fileIndex, records
    blockReads := chain.reads.drop st.chain.reads.length, answer }

def afterCall (each : Callback) (fileIndex : Nat) (file : ArchiveEntry) (st : BlockState) :
    BlockState :=
  { st with
    chain := (d.callStream each fileIndex file st).2.2.2.2
    log := { st.log with visits := st.log.visits ++ [d.streamVisit each fileIndex file st] } }

def visitStream (each : Callback) (fileIndex : Nat) (file : ArchiveEntry) (st : BlockState) :
    Result Bool × BlockState :=
  let (answer, _, check, _, chain) := d.callStream each fileIndex file st
  let st := d.afterCall each fileIndex file st
  match answer with
  | none => (.error .outOfFuel, st)
  | some (.error e) => (Result.fail (d.locate chain.faulted e), st)
  | some (.ok goOn) => d.finishEntry fileIndex file (check.bind CrcState.report) goOn st

end OpenBlock

/-- What the closure's answer is to the walk, where its errors pass through as they are. -/
def answerResult : Option (Except Error Bool) → Result Bool
  | none => .error .outOfFuel
  | some (.error e) => Result.fail e
  | some (.ok goOn) => .ok goOn

def emptyVisit (each : Callback) (blockIndex : Option Nat) (fileIndex : Nat)
    (file : ArchiveEntry) (log : WalkLog) : Visit :=
  let (answer, records, _) := (each log.visits fileIndex file).run emptyRead ()
  { blockIndex, fileIndex, records, blockReads := [], answer }

def visitEmpty (each : Callback) (blockIndex : Option Nat) (fileIndex : Nat)
    (file : ArchiveEntry) (log : WalkLog) : Result Bool × WalkLog :=
  let visit := emptyVisit each blockIndex fileIndex file log
  (answerResult visit.answer, { log with visits := log.visits ++ [visit] })

namespace OpenBlock

variable (d : OpenBlock)

def visitEntry (each : Callback) (fileIndex : Nat) (file : ArchiveEntry) (st : BlockState) :
    Result Bool × BlockState :=
  if file.hasStream ∧ file.size > 0 then d.visitStream each fileIndex file st
  else
    let (answer, log) := visitEmpty each (some d.blockIndex) fileIndex file st.log
    let subStream := if file.hasStream then st.subStream + 1 else st.subStream
    (answer, { st with subStream, log })

def walkEntries (each : Callback) : List Nat → BlockState → Result Bool × BlockState
  | [], st => (.ok true, st)
  | fileIndex :: rest, st =>
      match d.archive.files[fileIndex]? with
      | none => (.error (.panic .indexOutOfBounds), st)
      | some file =>
          match d.visitEntry each fileIndex file st with
          | (.ok true, st) => walkEntries each rest st
          | (answer, st) => (answer, st)

def checkFolded (reads : List (ReadRecord IoError)) : Result Bool :=
  if d.folding ∧ d.block.hasCrc then do
    let size ← d.block.getUnpackSize
    Result.rejectIf
      ((d.folded reads 0 size.toNat).any (fun crc => crc.toUInt64 != d.block.crc) = true)
      (Error.checksumVerificationFailed.inBlock d.blockIndex d.packedOffset)
    pure true
  else pure true

def initial (log : WalkLog) : BlockState :=
  { chain := { faulted := false, reads := [], inner := d.stack.start }
    unpackedOffset := 0, subStream := 0, log }

/-- The walk over an open block: whether the closure let it run to the end. -/
def walk (each : Callback) (log : WalkLog) : Result Bool × WalkLog :=
  match d.walkEntries each (List.range' d.start d.block.numUnpackSubStreams) (d.initial log) with
  | (.ok true, st) => (d.checkFolded st.chain.reads, st.log)
  | (answer, st) => (answer, st.log)

end OpenBlock

def BlockDecoder.forEachEntries (d : BlockDecoder) (each : Callback) (log : WalkLog) :
    Result Bool × WalkLog :=
  match d.openBlock with
  | .error e => (.error e, log)
  | .ok opened => opened.walk each log

end Sevenz
