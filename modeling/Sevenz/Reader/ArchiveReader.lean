import Sevenz.Reader.BlockDecoder

/-!
# Walking an archive

`ArchiveReader::for_each_entries`, which walks the blocks and then passes over the files of
no block, and `ArchiveReader::read_file`.
-/

namespace Sevenz

open Lib

structure ArchiveReader where
  codecs : Codecs
  limits : ArchiveLimits
  verifyChecksums : Bool
  passwordGiven : Bool
  archive : Archive

namespace Archive

def subStreamCrc (archive : Archive) (index : Nat) : Option (Option UInt32) := do
  let info ← archive.subStreamsInfo
  let _ ← info.unpackSizes[index]?
  pure
    (if info.hasCrc.contains index then
      info.crcs[index]?.map fun crc => UInt32.ofNat (crc.toNat % 2 ^ 32)
    else none)

def blockSubStreamCrcs (archive : Archive) (blockIndex : Nat) : List (Option UInt32) :=
  match archive.blocks[blockIndex]?, archive.streamMap.blockFirstSubStreamIndex[blockIndex]? with
  | some block, some first =>
      (List.range' first block.numUnpackSubStreams).filterMap archive.subStreamCrc
  | _, _ => []

end Archive

namespace ArchiveReader

variable (r : ArchiveReader)

def blockDecoder (blockIndex : Nat) : BlockDecoder :=
  { codecs := r.codecs, limits := r.limits, verifyChecksums := r.verifyChecksums
    passwordGiven := r.passwordGiven, archive := r.archive, blockIndex }

def completeBlock (blockIndex : Nat) (finished : Bool) (log : WalkLog) : Result WalkLog :=
  if finished then do
    let block ← Result.index r.archive.blocks blockIndex
    let crcs := r.archive.blockSubStreamCrcs blockIndex
    let unpackedSize ← block.getUnpackSize
    let crcVerified := block.hasCrc || (!crcs.isEmpty && crcs.all Option.isSome)
    pure { log with blocks := log.blocks ++ [{ blockIndex, unpackedSize, crcVerified }] }
  else pure log

/-- The loop over the blocks.  A closure that stops a block does not stop the loop. -/
def walkBlocks (each : Callback) : List Nat → WalkLog → Result Unit × WalkLog
  | [], log => (.ok (), log)
  | blockIndex :: rest, log =>
      match (r.blockDecoder blockIndex).forEachEntries each log with
      | (.error e, log) => (.error e, log)
      | (.ok finished, log) =>
          match r.completeBlock blockIndex finished log with
          | .error e => (.error e, log)
          | .ok log => walkBlocks each rest log

def walkEmptyFiles (each : Callback) : List Nat → WalkLog → Result Unit × WalkLog
  | [], log => (.ok (), log)
  | fileIndex :: rest, log =>
      match r.archive.streamMap.fileBlockIndex[fileIndex]?, r.archive.files[fileIndex]? with
      | some none, some file =>
          match visitEmpty each none fileIndex file log with
          | (.ok true, log) => walkEmptyFiles each rest log
          | (.ok false, log) => (.ok (), log)
          | (.error e, log) => (.error e, log)
      | some (some _), some _ => walkEmptyFiles each rest log
      | _, _ => (.error (.panic .indexOutOfBounds), log)

def forEachEntries (each : Callback) : Result Unit × WalkLog :=
  match r.walkBlocks each (List.range r.archive.blocks.length) {} with
  | (.error e, log) => (.error e, log)
  | (.ok (), log) => r.walkEmptyFiles each (List.range r.archive.files.length) log

/-- `fill_index`: a name leads to the last file that has it. -/
def findFile (name : List Char) : Option (Nat × ArchiveEntry) :=
  (r.archive.files.zipIdx.map fun file => (file.2, file.1)).reverse.find?
    fun file => file.2.name == name

def readUntil (target : Nat) : Callback := fun _ fileIndex _ =>
  Script.readToEnd retryInterrupted r.codecs.bufferLength
    (fun e => some (.error (Error.ofIo e))) (fun _ => some (.ok (fileIndex != target))) none
    r.codecs.rounds []

def dataOf (target : Nat) (log : WalkLog) : Option (List UInt8) :=
  (log.visits.find? fun visit => visit.fileIndex == target).map fun visit =>
    delivered visit.records

def readSolid (blockIndex target : Nat) : Result (List UInt8) :=
  let (answer, log) := (r.blockDecoder blockIndex).forEachEntries (r.readUntil target) {}
  do
    let _ ← answer
    Result.okOr .fileNotFound (dataOf target log)

def openAlone (blockIndex : Nat) : Result DecodeStack := do
  let packIndex ← Result.index r.archive.streamMap.blockFirstPackStreamIndex blockIndex
  let packOffset ← Result.index r.archive.streamMap.packStreamOffsets packIndex
  let blockOffset ← Result.okOr (.other "block offset out of range")
    ((packStart r.archive).bind fun start => checkedAdd start packOffset)
  r.codecs.seek blockOffset
  buildDecodeStack r.codecs r.limits r.archive blockIndex

/-- The reader of a file that is decoded alone.  No fault is recorded in this place, but the
reads of the block's stream are kept here as a walk keeps them. -/
def fileRead (stack : DecodeStack) :
    ReadFn IoError (Option CrcState × Nat × FaultState (Option CrcState × List Nat)) :=
  maybeCrcRead r.codecs.crc32 (boundedRead (faultRead (stack.read r.codecs)))

def runAlone (stack : DecodeStack) (file : ArchiveEntry) :
    Result (List UInt8) × List (ReadRecord IoError) ×
      Option CrcState × Nat × FaultState (Option CrcState × List Nat) :=
  let check := if file.hasCrc then some (CrcState.new file.size file.crc) else none
  let script : Script IoError (Result (List UInt8)) :=
    Script.readToEnd retryInterrupted r.codecs.bufferLength
      (fun e => Result.fail (Error.ofIo e)) pure (.error .outOfFuel) r.codecs.rounds []
  script.run (r.fileRead stack)
    (check, file.size.toNat, { faulted := false, reads := [], inner := stack.start })

def aloneReads (blockIndex : Nat) (file : ArchiveEntry) : List (ReadRecord IoError) :=
  match r.openAlone blockIndex with
  | .ok stack => (r.runAlone stack file).2.2.2.2.reads
  | .error _ => []

def readAlone (blockIndex : Nat) (file : ArchiveEntry) : Result (List UInt8) := do
  let stack ← r.openAlone blockIndex
  (r.runAlone stack file).1

def readFile (name : List Char) : Result (List UInt8) := do
  let (target, file) ← Result.okOr .fileNotFound (r.findFile name)
  if ¬ file.hasStream then pure []
  else do
    let blockIndex ← Result.index r.archive.streamMap.fileBlockIndex target
    let blockIndex ← Result.okOr (.other "File has no associated block") blockIndex
    if r.archive.isSolid then r.readSolid blockIndex target
    else r.readAlone blockIndex file

end ArchiveReader

end Sevenz
