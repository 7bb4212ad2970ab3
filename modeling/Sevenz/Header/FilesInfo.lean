import Sevenz.Header.StreamMap
import Sevenz.Lib.Utf16

/-!
# The files info section

`Archive::read_files_info`: the property loop, and the pass that hands each file with a
stream the next sub-stream.
-/

namespace Sevenz

open Lib Lib.Parser

def readU16 : HeaderReader UInt16 := do
  let value ← Parser.le unexpectedEof 2
  pure (UInt16.ofNat value)

/-- One name of `NamesReader`, with at most `n` units left in the blob: the units up to the
next zero, and how many are left after it. -/
def readNameUnits (maxNameBytes : Nat) : Nat → List UInt16 → HeaderReader (List UInt16 × Nat)
  | 0, cache => pure (cache, 0)
  | n + 1, cache => do
      let u ← readU16
      if u = 0 then pure (cache, n)
      else do
        Result.rejectIf (cache.length * 2 ≥ maxNameBytes)
          (.limitExceeded .nameBytes maxNameBytes (maxNameBytes + 2))
        readNameUnits maxNameBytes n (cache ++ [u])

def readNames (maxNameBytes : Nat) : List ArchiveEntry → Nat → HeaderReader (List ArchiveEntry)
  | [], 0 => pure []
  | [], _ + 1 => failWith (.other "Error parsing file names")
  | _ :: _, 0 => failWith (.other "Error parsing file names")
  | file :: files, units + 1 => do
      let (cache, rest) ← readNameUnits maxNameBytes (units + 1) []
      let name ← Result.okOr (.other "invalid utf-16: lone surrogate found") (decodeUtf16 cache)
      let files ← readNames maxNameBytes files rest
      pure ({ file with name } :: files)

structure FileProperties where
  files : List ArchiveEntry
  isEmptyStream : Option BitSet := none
  isEmptyFile : Option BitSet := none
  isAnti : Option BitSet := none

def readDefined (property : String) (update : Bool → ArchiveEntry → HeaderReader ArchiveEntry)
    (files : List ArchiveEntry) : HeaderReader (List ArchiveEntry) := do
  let timesDefined ← readAllOrBits files.length
  let external ← readU8
  Result.rejectIf (external ≠ 0) (.other s!"{property} Unimplemented:external={external}")
  files.zipIdx.mapM fun file => update (timesDefined.contains file.2) file.1

def readCreationDate (defined : Bool) (file : ArchiveEntry) : HeaderReader ArchiveEntry :=
  if defined then do
    let creationDate ← readU64
    pure { file with hasCreationDate := true, creationDate }
  else pure { file with hasCreationDate := false }

def readAccessDate (defined : Bool) (file : ArchiveEntry) : HeaderReader ArchiveEntry :=
  if defined then do
    let accessDate ← readU64
    pure { file with hasAccessDate := true, accessDate }
  else pure { file with hasAccessDate := false }

def readLastModifiedDate (defined : Bool) (file : ArchiveEntry) : HeaderReader ArchiveEntry :=
  if defined then do
    let lastModifiedDate ← readU64
    pure { file with hasLastModifiedDate := true, lastModifiedDate }
  else pure { file with hasLastModifiedDate := false }

def readWindowsAttributes (defined : Bool) (file : ArchiveEntry) : HeaderReader ArchiveEntry :=
  if defined then do
    let windowsAttributes ← readU32
    pure { file with hasWindowsAttributes := true, windowsAttributes }
  else pure { file with hasWindowsAttributes := false }

def readEmptyBits (isEmptyStream : Option BitSet) : HeaderReader BitSet := do
  let s ← Result.okOr
    (.other "Header format error: kEmptyStream must appear before kEmptyFile") isEmptyStream
  readBits s.len

def readNamesProperty (bounds : HeaderBounds) (size : Nat) (files : List ArchiveEntry) :
    HeaderReader (List ArchiveEntry) := do
  let external ← readU8
  Result.rejectIf (external ≠ 0) (.other "Not implemented:external != 0")
  Result.rejectIf (size = 0 ∨ (size - 1) % 2 ≠ 0) (.other "file names length invalid")
  let size ← bounds.count size .totalNameBytes
  readNames bounds.limits.maxNameBytes.toNat files ((size - 1) / 2)

def readFileProperty (bounds : HeaderBounds) (propType : UInt8) (size : Nat)
    (props : FileProperties) : HeaderReader FileProperties :=
  if propType = kEmptyStream then do
    let bits ← readBits props.files.length
    pure { props with isEmptyStream := some bits }
  else if propType = kEmptyFile then do
    let bits ← readEmptyBits props.isEmptyStream
    pure { props with isEmptyFile := some bits }
  else if propType = kAnti then do
    let bits ← readEmptyBits props.isEmptyStream
    pure { props with isAnti := some bits }
  else if propType = kName then do
    let files ← readNamesProperty bounds size props.files
    pure { props with files }
  else if propType = kCTime then do
    let files ← readDefined "kCTime" readCreationDate props.files
    pure { props with files }
  else if propType = kATime then do
    let files ← readDefined "kATime" readAccessDate props.files
    pure { props with files }
  else if propType = kMTime then do
    let files ← readDefined "kMTime" readLastModifiedDate props.files
    pure { props with files }
  else if propType = kWinAttributes then do
    let files ← readDefined "kWinAttributes" readWindowsAttributes props.files
    pure { props with files }
  else if propType = kStartPos then failWith (.other "kStartPos is unsupported, please report")
  else do
    -- `K_DUMMY` and every unknown property are passed over.
    let size ← bounds.size size
    skip size
    pure props

def readPropertyLoop (bounds : HeaderBounds) :
    Nat → FileProperties → HeaderReader FileProperties
  | 0, _ => throw .outOfFuel
  | fuel + 1, props => do
      let propType ← readU8
      if propType = 0 then pure props
      else do
        let size ← readNumber
        let props ← readFileProperty bounds propType size props
        readPropertyLoop bounds fuel props

/-- Every round of the loop takes a byte, so the bytes there are bound the rounds. -/
def readFileProperties (bounds : HeaderBounds) (numFiles : Nat) : HeaderReader FileProperties :=
  fun s =>
    readPropertyLoop bounds (s.length + 1)
      { files := List.replicate numFiles ArchiveEntry.new } s

structure EntryCounters where
  nonEmptyFileCounter : Nat := 0
  emptyFileCounter : Nat := 0

def assignEntry (info : Option SubStreamsInfo) (props : FileProperties) (i : Nat)
    (file : ArchiveEntry) (counters : EntryCounters) :
    Result (ArchiveEntry × EntryCounters) := do
  let hasStream := (props.isEmptyStream.map fun s => !s.contains i).getD true
  if hasStream then do
    let info ← Result.okOr
      (.other "Archive contains file with streams but no subStreamsInfo") info
    let crc ← Result.okOr (.other "Archive declares more streamed files than sub-streams")
      info.crcs[counters.nonEmptyFileCounter]?
    let size ← Result.okOr (.other "Archive declares more streamed files than sub-streams")
      info.unpackSizes[counters.nonEmptyFileCounter]?
    pure
      ({ file with
          hasStream := true, isDirectory := false, isAntiItem := false, crc, size
          hasCrc := info.hasCrc.contains counters.nonEmptyFileCounter },
        { counters with nonEmptyFileCounter := counters.nonEmptyFileCounter + 1 })
  else
    pure
      ({ file with
          hasStream := false
          isDirectory :=
            (props.isEmptyFile.map fun s => !s.contains counters.emptyFileCounter).getD true
          isAntiItem :=
            (props.isAnti.map fun s => s.contains counters.emptyFileCounter).getD false
          hasCrc := false, size := 0 },
        { counters with emptyFileCounter := counters.emptyFileCounter + 1 })

def assignEntries (info : Option SubStreamsInfo) (props : FileProperties) :
    Nat → List ArchiveEntry → EntryCounters → Result (List ArchiveEntry)
  | _, [], _ => pure []
  | i, file :: files, counters => do
      let (file, counters) ← assignEntry info props i file counters
      let files ← assignEntries info props (i + 1) files counters
      pure (file :: files)

def readFilesInfo (bounds : HeaderBounds) (archive : Archive) : HeaderReader Archive := do
  let num ← readNumber
  let numFiles ← bounds.count num .entries
  let props ← readFileProperties bounds numFiles
  let files ← assignEntries archive.subStreamsInfo props 0 props.files {}
  calculateStreamMap { archive with files }

end Sevenz
