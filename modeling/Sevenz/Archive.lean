import Sevenz.BitSet

/-!
# Archives

The data a parsed archive holds, the property ids of its header, and the limits a caller
reads it under.  Stored numbers keep their machine width; counts and indices are naturals.
-/

namespace Sevenz

def signatureHeaderSize : Nat := 32

def sevenZSignature : List UInt8 := [0x37, 0x7A, 0xBC, 0xAF, 0x27, 0x1C]

abbrev kEnd : UInt8 := 0x00
abbrev kHeader : UInt8 := 0x01
abbrev kArchiveProperties : UInt8 := 0x02
abbrev kAdditionalStreamsInfo : UInt8 := 0x03
abbrev kMainStreamsInfo : UInt8 := 0x04
abbrev kFilesInfo : UInt8 := 0x05
abbrev kPackInfo : UInt8 := 0x06
abbrev kUnpackInfo : UInt8 := 0x07
abbrev kSubStreamsInfo : UInt8 := 0x08
abbrev kSize : UInt8 := 0x09
abbrev kCrc : UInt8 := 0x0A
abbrev kFolder : UInt8 := 0x0B
abbrev kCodersUnpackSize : UInt8 := 0x0C
abbrev kNumUnpackStream : UInt8 := 0x0D
abbrev kEmptyStream : UInt8 := 0x0E
abbrev kEmptyFile : UInt8 := 0x0F
abbrev kAnti : UInt8 := 0x10
abbrev kName : UInt8 := 0x11
abbrev kCTime : UInt8 := 0x12
abbrev kATime : UInt8 := 0x13
abbrev kMTime : UInt8 := 0x14
abbrev kWinAttributes : UInt8 := 0x15
abbrev kEncodedHeader : UInt8 := 0x17
abbrev kStartPos : UInt8 := 0x18
abbrev kDummy : UInt8 := 0x19

/-- A file or directory entry.  The name is the sequence of its Unicode scalar values. -/
structure ArchiveEntry where
  name : List Char := []
  hasStream : Bool := false
  isDirectory : Bool := false
  isAntiItem : Bool := false
  hasCreationDate : Bool := false
  hasLastModifiedDate : Bool := false
  hasAccessDate : Bool := false
  creationDate : UInt64 := 0
  lastModifiedDate : UInt64 := 0
  accessDate : UInt64 := 0
  hasWindowsAttributes : Bool := false
  windowsAttributes : UInt32 := 0
  hasCrc : Bool := false
  crc : UInt64 := 0
  compressedCrc : UInt64 := 0
  size : UInt64 := 0
  compressedSize : UInt64 := 0
  deriving DecidableEq, Inhabited, Repr

namespace ArchiveEntry

def new : ArchiveEntry := {}

def newFile (entryName : List Char) : ArchiveEntry :=
  { name := entryName, hasStream := true, isDirectory := false }

def newDirectory (entryName : List Char) : ArchiveEntry :=
  { name := entryName, hasStream := false, isDirectory := true }

/-- What `from_path` learns of a path; each date is `none` where the file system has none. -/
structure PathMetadata where
  isFile : Bool
  isDir : Bool
  modified : Option UInt64
  created : Option UInt64
  accessed : Option UInt64

def fromPath (path : PathMetadata) (entryName : List Char) : ArchiveEntry :=
  { name := entryName
    hasStream := path.isFile
    isDirectory := path.isDir
    lastModifiedDate := path.modified.getD 0
    hasLastModifiedDate := decide (path.modified.getD 0 > 0)
    creationDate := path.created.getD 0
    hasCreationDate := decide (path.created.getD 0 > 0)
    accessDate := path.accessed.getD 0
    hasAccessDate := decide (path.accessed.getD 0 > 0) }

end ArchiveEntry

structure BindPair where
  inIndex : Nat
  outIndex : Nat
  deriving DecidableEq, Repr

structure Coder where
  encoderMethodId : List UInt8
  numInStreams : Nat
  numOutStreams : Nat
  properties : List UInt8
  deriving DecidableEq, Repr

/-- A compression block: its coders, how their streams are bound, and what they unpack to. -/
structure Block where
  coders : List Coder := []
  hasCrc : Bool := false
  crc : UInt64 := 0
  totalInputStreams : Nat := 0
  totalOutputStreams : Nat := 0
  bindPairs : List BindPair := []
  packedStreams : List Nat := []
  unpackSizes : List UInt64 := []
  numUnpackSubStreams : Nat := 0
  deriving DecidableEq, Repr

namespace Block

def findBindPairForInStream (block : Block) (index : Nat) : Option BindPair :=
  block.bindPairs.find? fun bp => bp.inIndex == index

def findBindPairForOutStream (block : Block) (index : Nat) : Option BindPair :=
  block.bindPairs.find? fun bp => bp.outIndex == index

def lastUnboundSize (block : Block) : Nat → Result UInt64
  | 0 => pure 0
  | i + 1 =>
      if (block.findBindPairForOutStream i).isNone then Result.index block.unpackSizes i
      else block.lastUnboundSize i

def getUnpackSize (block : Block) : Result UInt64 :=
  if block.totalOutputStreams = 0 then pure 0
  else block.lastUnboundSize block.totalOutputStreams

theorem lastUnboundSize_isOk {block : Block} {n : Nat} (h : n ≤ block.unpackSizes.length) :
    ∃ size, block.lastUnboundSize n = .ok size := by
  induction n with
  | zero => exact ⟨0, rfl⟩
  | succ n ih =>
      rw [lastUnboundSize]
      split
      · exact ⟨_, Result.index_of_lt h⟩
      · exact ih (Nat.le_of_succ_le h)

theorem getUnpackSize_isOk {block : Block}
    (h : block.totalOutputStreams ≤ block.unpackSizes.length) :
    ∃ size, block.getUnpackSize = .ok size := by
  unfold getUnpackSize
  split
  · exact ⟨0, rfl⟩
  · exact lastUnboundSize_isOk h

def getUnpackSizeAtIndex (block : Block) (index : Nat) : UInt64 :=
  block.unpackSizes.getD index 0

end Block

structure SubStreamsInfo where
  unpackSizes : List UInt64
  hasCrc : BitSet
  crcs : List UInt64
  deriving DecidableEq

structure StreamMap where
  blockFirstPackStreamIndex : List Nat := []
  packStreamOffsets : List Nat := []
  blockFirstSubStreamIndex : List Nat := []
  blockFirstFileIndex : List Nat := []
  fileBlockIndex : List (Option Nat) := []
  deriving DecidableEq, Repr

structure Archive where
  packPos : UInt64 := 0
  packSizes : List UInt64 := []
  packCrcsDefined : BitSet := BitSet.empty
  packCrcs : List UInt64 := []
  subStreamsInfo : Option SubStreamsInfo := none
  blocks : List Block := []
  files : List ArchiveEntry := []
  streamMap : StreamMap := {}
  isSolid : Bool := false
  deriving DecidableEq

structure ArchiveLimits where
  memoryLimitBytes : UInt64 := 0xFFFFFFFFFFFFFFFF
  maxEndHeaderBytes : UInt64 := 0xFFFFFFFFFFFFFFFF
  maxHeaderUnpackedBytes : UInt64 := 64 * 0x100000
  maxHeaderDepth : UInt8 := 2
  maxEntries : UInt64 := 1000000
  maxNameBytes : UInt64 := 64 * 0x400
  maxTotalNameBytes : UInt64 := 64 * 0x100000
  maxCodersPerBlock : UInt64 := 8
  maxStreamsPerCoder : UInt64 := 8
  maxTotalCoders : UInt64 := 1000000
  maxUnpackBytes : UInt64 := 0xFFFFFFFFFFFFFFFF
  maxUnpackRatio : UInt64 := 0xFFFFFFFFFFFFFFFF
  maxAesCyclesPower : UInt8 := 24
  maxAesKdfRounds : UInt64 := 0x10000000
  rejectUnsafePaths : Bool := false

/-- What the header is allowed to claim: the bytes it is read out of, and the caller's limits. -/
structure HeaderBounds where
  bytes : Nat
  limits : ArchiveLimits

namespace HeaderBounds

def cap (bounds : HeaderBounds) : Limit → Nat
  | .codersPerBlock => bounds.limits.maxCodersPerBlock.toNat
  | .totalCoders => bounds.limits.maxTotalCoders.toNat
  | .totalNameBytes => bounds.limits.maxTotalNameBytes.toNat
  | _ => bounds.limits.maxEntries.toNat

def count (bounds : HeaderBounds) (value : Nat) (what : Limit) : Result Nat := do
  Result.rejectIf (value > bounds.bytes) (.limitExceeded .archiveBytes bounds.bytes value)
  Result.rejectIf (value > bounds.cap what) (.limitExceeded what (bounds.cap what) value)
  pure value

def addCount (bounds : HeaderBounds) (total additional : Nat) : Result Nat := do
  let total ← Result.okOr (.other "total unpack streams overflow") (checkedAdd total additional)
  bounds.count total .entries

def size (bounds : HeaderBounds) (value : Nat) : Result Nat := do
  Result.rejectIf (value > bounds.bytes) (.limitExceeded .archiveBytes bounds.bytes value)
  pure value

theorem count_eq_ok {bounds : HeaderBounds} {value n : Nat} {what : Limit} :
    bounds.count value what = .ok n ↔
      n = value ∧ value ≤ bounds.bytes ∧ value ≤ bounds.cap what := by
  unfold count
  simp only [Result.bind_eq_ok, Result.rejectIf_eq_ok, Result.pure_eq_ok, Nat.not_lt, gt_iff_lt]
  exact ⟨fun ⟨_, h₁, _, h₂, h₃⟩ => ⟨h₃, h₁, h₂⟩, fun ⟨h₃, h₁, h₂⟩ => ⟨(), h₁, (), h₂, h₃⟩⟩

theorem addCount_eq_ok {bounds : HeaderBounds} {total additional n : Nat} :
    bounds.addCount total additional = .ok n ↔
      n = total + additional ∧ total + additional < 2 ^ 64 ∧
        n ≤ bounds.bytes ∧ n ≤ bounds.limits.maxEntries.toNat := by
  unfold addCount
  simp only [Result.bind_eq_ok, Result.okOr_eq_ok, checkedAdd_eq_some, count_eq_ok]
  constructor
  · rintro ⟨_, ⟨hlt, rfl⟩, rfl, hbytes, hcap⟩
    exact ⟨rfl, hlt, hbytes, hcap⟩
  · rintro ⟨rfl, hlt, hbytes, hcap⟩
    exact ⟨_, ⟨hlt, rfl⟩, rfl, hbytes, hcap⟩

theorem size_eq_ok {bounds : HeaderBounds} {value n : Nat} :
    bounds.size value = .ok n ↔ n = value ∧ value ≤ bounds.bytes := by
  unfold size
  simp only [Result.bind_eq_ok, Result.rejectIf_eq_ok, Result.pure_eq_ok, Nat.not_lt, gt_iff_lt]
  exact ⟨fun ⟨_, h₁, h₂⟩ => ⟨h₂, h₁⟩, fun ⟨h₂, h₁⟩ => ⟨(), h₁, h₂⟩⟩

end HeaderBounds

structure StartHeader where
  nextHeaderOffset : Nat
  nextHeaderSize : Nat
  nextHeaderCrc : Nat

end Sevenz
