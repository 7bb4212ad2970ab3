import Sevenz.Header.Read
import Sevenz.Lib.Tracked

/-!
# What parsing a header reserves

The readers of the header again, each noting the collections it makes to hold a number of
things before it fills them: every `vec!`, `with_capacity`, `reserve` and `resize` of the source.
Without the notes they are the readers themselves.
-/

namespace Sevenz

open Lib Lib.Parser

/-- A collection made to hold so many things, or so many of the header's bytes. -/
inductive Reservation
  | counted (what : Limit) (n : Nat)
  | bytes (n : Nat)

abbrev TrackedReader (α : Type) := Tracked Fault Reservation α

abbrev reserve (n : Nat) : TrackedReader Unit := .note (.counted .entries n)

def trackAllOrBits (size : Nat) : TrackedReader BitSet := do
  reserve size
  .read (readAllOrBits size)

def trackPackSizes (numPackStreams : Nat) (archive : Archive) (nid : UInt8) :
    TrackedReader (Archive × UInt8) :=
  if nid = kSize then do
    reserve numPackStreams
    .read (readPackSizes numPackStreams archive nid)
  else .read (readPackSizes numPackStreams archive nid)

def trackPackCrcs (numPackStreams : Nat) (archive : Archive) (nid : UInt8) :
    TrackedReader (Archive × UInt8) :=
  if nid = kCrc then do
    let packCrcsDefined ← trackAllOrBits numPackStreams
    reserve numPackStreams
    let packCrcs ← .read (readDigests numPackStreams packCrcsDefined)
    let nid ← .read readU8
    pure ({ archive with packCrcsDefined, packCrcs }, nid)
  else pure (archive, nid)

def trackPackInfo (bounds : HeaderBounds) (archive : Archive) : TrackedReader Archive := do
  let packPos ← .read readVariableU64
  let num ← .read readNumber
  let numPackStreams ← .lift (bounds.count num .entries)
  let nid ← .read readU8
  let (archive, nid) ← trackPackSizes numPackStreams { archive with packPos } nid
  let (archive, nid) ← trackPackCrcs numPackStreams archive nid
  .lift (Result.rejectIf (nid ≠ kEnd) (.badTerminatedPackInfo nid))
  pure archive

def trackProperties (bounds : HeaderBounds) (hasAttributes : Bool) :
    TrackedReader (List UInt8) :=
  if hasAttributes then do
    let size ← .read readNumber
    let propertiesSize ← .lift (bounds.size size)
    .note (.bytes propertiesSize)
    .read (readExact propertiesSize)
  else pure []

def trackCoder (bounds : HeaderBounds) (totals : StreamTotals) :
    TrackedReader (Coder × StreamTotals) := do
  let bits ← .read readU8
  let encoderMethodId ← .read (readExact (bits &&& 0xF).toNat)
  let (numInStreams, numOutStreams) ← .read (readStreamCounts (bits &&& 0x10 == 0))
  let totalIn ← .lift (Result.okOr (.other "coder stream counts exceed available input")
    (checkedAdd totals.totalIn numInStreams))
  let totalOut ← .lift (Result.okOr (.other "coder stream counts exceed available input")
    (checkedAdd totals.totalOut numOutStreams))
  let cap := bounds.limits.maxStreamsPerCoder.toNat
  .lift (Result.rejectIf (numInStreams > cap ∨ numOutStreams > cap)
    (.limitExceeded .streamsPerCoder cap (max numInStreams numOutStreams)))
  let _ ← .lift (bounds.count totalIn .entries)
  let _ ← .lift (bounds.count totalOut .entries)
  let properties ← trackProperties bounds (bits &&& 0x20 != 0)
  .lift (Result.rejectIf (bits &&& 0x80 ≠ 0)
    (.other ("Alternative methods are unsupported, please report. " ++
      "The reference implementation doesn't support them either.")))
  pure ({ encoderMethodId, numInStreams, numOutStreams, properties }, { totalIn, totalOut })

def trackCoders (bounds : HeaderBounds) :
    Nat → StreamTotals → TrackedReader (List Coder × StreamTotals)
  | 0, totals => pure ([], totals)
  | n + 1, totals => do
      let (coder, totals) ← trackCoder bounds totals
      let (coders, totals) ← trackCoders bounds n totals
      pure (coder :: coders, totals)

def reserveGraph (block : Block) : TrackedReader Unit := do
  reserve block.totalInputStreams
  reserve block.totalOutputStreams
  reserve block.totalInputStreams
  reserve block.totalOutputStreams
  .note (.counted .codersPerBlock block.coders.length)

def trackBlock (bounds : HeaderBounds) : TrackedReader Block := do
  let num ← .read readNumber
  let numCoders ← .lift (bounds.count num .codersPerBlock)
  .note (.counted .codersPerBlock numCoders)
  let (coders, totals) ← trackCoders bounds numCoders { totalIn := 0, totalOut := 0 }
  .lift (Result.rejectIf (totals.totalOut = 0) (.other "Total output streams can't be 0"))
  let numBindPairs := totals.totalOut - 1
  reserve numBindPairs
  let bindPairs ← .read (many numBindPairs (readBindPair totals))
  let block : Block :=
    { coders, bindPairs
      totalInputStreams := totals.totalIn
      totalOutputStreams := totals.totalOut }
  .lift (Result.rejectIf (totals.totalIn < numBindPairs)
    (.other "Total input streams can't be less than the number of bind pairs"))
  reserve (totals.totalIn - numBindPairs)
  let packedStreams ←
    .read (readPackedStreams block totals.totalIn (totals.totalIn - numBindPairs))
  let block := { block with packedStreams }
  reserveGraph block
  .lift (validateCoderGraph block)
  pure block

def trackBlocks (bounds : HeaderBounds) : Nat → Nat → TrackedReader (List Block)
  | 0, _ => pure []
  | n + 1, totalCoders => do
      let block ← trackBlock bounds
      let totalCoders := min (totalCoders + block.coders.length) (2 ^ 64 - 1)
      let cap := bounds.limits.maxTotalCoders.toNat
      .lift (Result.rejectIf (totalCoders > cap) (.limitExceeded .totalCoders cap totalCoders))
      let blocks ← trackBlocks bounds n totalCoders
      pure (block :: blocks)

def trackUnpackSizes (bounds : HeaderBounds) : List Block → TrackedReader (List Block)
  | [] => pure []
  | block :: blocks => do
      reserve (min block.totalOutputStreams bounds.bytes)
      let sizes ← .read (many block.totalOutputStreams readVariableU64)
      let blocks ← trackUnpackSizes bounds blocks
      pure ({ block with unpackSizes := block.unpackSizes ++ sizes } :: blocks)

def trackBlockCrcs (numBlocks : Nat) (blocks : List Block) (nid : UInt8) :
    TrackedReader (List Block × UInt8) :=
  if nid = kCrc then do
    let crcsDefined ← trackAllOrBits numBlocks
    let blocks ← .read (blocks.zipIdx.mapM (readBlockCrc numBlocks crcsDefined))
    let nid ← .read readU8
    pure (blocks, nid)
  else pure (blocks, nid)

def trackUnpackInfo (bounds : HeaderBounds) (archive : Archive) : TrackedReader Archive := do
  let nid ← .read readU8
  .lift (Result.rejectIf (nid ≠ kFolder) (.other s!"Expected kFolder, got {nid}"))
  let num ← .read readNumber
  let numBlocks ← .lift (bounds.count num .entries)
  reserve (min numBlocks 1024)
  let external ← .read readU8
  .lift (Result.rejectIf (external ≠ 0) .externalUnsupported)
  let blocks ← trackBlocks bounds numBlocks 0
  let nid ← .read readU8
  .lift (Result.rejectIf (nid ≠ kCodersUnpackSize)
    (.other s!"Expected kCodersUnpackSize, got {nid}"))
  let blocks ← trackUnpackSizes bounds (archive.blocks ++ blocks)
  let nid ← .read readU8
  let (blocks, nid) ← trackBlockCrcs numBlocks blocks nid
  .lift (Result.rejectIf (nid ≠ kEnd) .badTerminatedUnpackInfo)
  pure { archive with blocks }

def trackSubStreamDigests (blocks : List Block) (numDigests : Nat) (info : SubStreamsInfo)
    (nid : UInt8) : TrackedReader (SubStreamsInfo × UInt8) :=
  if nid = kCrc then do
    let hasMissingCrc ← trackAllOrBits numDigests
    reserve numDigests
    let missingCrcs ← .read (readDigests numDigests hasMissingCrc)
    let fill ← .lift (fillDigests hasMissingCrc missingCrcs blocks
      { hasCrc := info.hasCrc, crcs := info.crcs, nextCrc := 0, nextMissingCrc := 0 })
    let nid ← .read readU8
    pure ({ info with hasCrc := fill.hasCrc, crcs := fill.crcs }, nid)
  else pure (info, nid)

def trackSubStreamsInfo (bounds : HeaderBounds) (archive : Archive) :
    TrackedReader Archive := do
  let counts ← .read (readSubStreamCounts bounds archive.blocks)
  let total := counts.totalUnpackStreams
  -- the sizes, the bits and the digests
  reserve total
  reserve total
  reserve total
  let unpackSizes ←
    .read (readSubStreamSizes counts.nid counts.blocks (List.replicate total 0) 0)
  let nid ← .read (skipSizeId counts.nid)
  let numDigests ← .lift (countDigests total counts.blocks 0)
  let info : SubStreamsInfo :=
    { unpackSizes
      hasCrc := BitSet.empty.reserveLenExact total
      crcs := List.replicate total 0 }
  let (info, nid) ← trackSubStreamDigests counts.blocks numDigests info nid
  .lift (Result.rejectIf (nid ≠ kEnd) .badTerminatedSubStreamsInfo)
  pure { archive with blocks := counts.blocks, subStreamsInfo := some info }

def trackSection (expected nid : UInt8) (archive : Archive)
    (track : Archive → TrackedReader Archive) (absent : Archive → Archive) :
    TrackedReader (Archive × UInt8) :=
  if nid = expected then do
    let archive ← track archive
    let nid ← .read readU8
    pure (archive, nid)
  else pure (absent archive, nid)

def trackStreamsInfo (bounds : HeaderBounds) (archive : Archive) : TrackedReader Archive := do
  let nid ← .read readU8
  let (archive, nid) ← trackSection kPackInfo nid archive (trackPackInfo bounds) id
  let (archive, nid) ← trackSection kUnpackInfo nid archive (trackUnpackInfo bounds)
    fun archive => { archive with blocks := [] }
  let (archive, nid) ←
    trackSection kSubStreamsInfo nid archive (trackSubStreamsInfo bounds) id
  .lift (Result.rejectIf (nid ≠ kEnd) (.badTerminatedStreamsInfo nid))
  pure archive

def trackDefined (property : String)
    (update : Bool → ArchiveEntry → HeaderReader ArchiveEntry) (files : List ArchiveEntry) :
    TrackedReader (List ArchiveEntry) := do
  reserve files.length
  .read (readDefined property update files)

def trackEmptyBits (isEmptyStream : Option BitSet) : TrackedReader BitSet := do
  let s ← .lift (Result.okOr
    (.other "Header format error: kEmptyStream must appear before kEmptyFile") isEmptyStream)
  reserve s.len
  .read (readBits s.len)

def trackFileProperty (bounds : HeaderBounds) (propType : UInt8) (size : Nat)
    (props : FileProperties) : TrackedReader FileProperties :=
  if propType = kEmptyStream then do
    reserve props.files.length
    let bits ← .read (readBits props.files.length)
    pure { props with isEmptyStream := some bits }
  else if propType = kEmptyFile then do
    let bits ← trackEmptyBits props.isEmptyStream
    pure { props with isEmptyFile := some bits }
  else if propType = kAnti then do
    let bits ← trackEmptyBits props.isEmptyStream
    pure { props with isAnti := some bits }
  else if propType = kName then do
    let files ← .read (readNamesProperty bounds size props.files)
    pure { props with files }
  else if propType = kCTime then do
    let files ← trackDefined "kCTime" readCreationDate props.files
    pure { props with files }
  else if propType = kATime then do
    let files ← trackDefined "kATime" readAccessDate props.files
    pure { props with files }
  else if propType = kMTime then do
    let files ← trackDefined "kMTime" readLastModifiedDate props.files
    pure { props with files }
  else if propType = kWinAttributes then do
    let files ← trackDefined "kWinAttributes" readWindowsAttributes props.files
    pure { props with files }
  else if propType = kStartPos then
    .read (failWith (.other "kStartPos is unsupported, please report"))
  else do
    let size ← .lift (bounds.size size)
    .read (skip size)
    pure props

def trackPropertyLoop (bounds : HeaderBounds) :
    Nat → FileProperties → TrackedReader FileProperties
  | 0, _ => .read (throw .outOfFuel)
  | fuel + 1, props => do
      let propType ← .read readU8
      if propType = 0 then pure props
      else do
        let size ← .read readNumber
        let props ← trackFileProperty bounds propType size props
        trackPropertyLoop bounds fuel props

def trackFileProperties (bounds : HeaderBounds) (numFiles : Nat) :
    TrackedReader FileProperties :=
  { run := fun s =>
      (trackPropertyLoop bounds (s.length + 1)
        { files := List.replicate numFiles ArchiveEntry.new }).run s }

def trackStreamMap (archive : Archive) : TrackedReader Archive := do
  reserve archive.blocks.length
  reserve archive.blocks.length
  reserve archive.packSizes.length
  reserve archive.blocks.length
  reserve archive.files.length
  .lift (calculateStreamMap archive)

def trackFilesInfo (bounds : HeaderBounds) (archive : Archive) : TrackedReader Archive := do
  let num ← .read readNumber
  let numFiles ← .lift (bounds.count num .entries)
  reserve numFiles
  let props ← trackFileProperties bounds numFiles
  let files ← .lift (assignEntries archive.subStreamsInfo props 0 props.files {})
  trackStreamMap { archive with files }

def trackFilesOrMap (bounds : HeaderBounds) (nid : UInt8) (archive : Archive) :
    TrackedReader (Archive × UInt8) :=
  if nid = kFilesInfo then do
    let archive ← trackFilesInfo bounds archive
    let nid ← .read readU8
    pure (archive, nid)
  else do
    let archive ← trackStreamMap archive
    pure (archive, nid)

def trackHeader (bounds : HeaderBounds) (archive : Archive) : TrackedReader Archive := do
  let nid ← .read readU8
  let nid ← .read (skipArchiveProperties bounds nid)
  .lift (Result.rejectIf (nid = kAdditionalStreamsInfo) (.other "Additional streams unsupported"))
  let (archive, nid) ← trackSection kMainStreamsInfo nid archive (trackStreamsInfo bounds) id
  let (archive, nid) ← trackFilesOrMap bounds nid archive
  .lift (Result.rejectIf (nid ≠ kEnd) (.badTerminatedHeader nid))
  pure archive

section Erase

open Tracked

variable (bounds : HeaderBounds) (archive : Archive)

theorem erase_trackAllOrBits (size : Nat) : (trackAllOrBits size).erase = readAllOrBits size := by
  simp [trackAllOrBits]

theorem erase_trackPackSizes (n : Nat) (nid : UInt8) :
    (trackPackSizes n archive nid).erase = readPackSizes n archive nid := by
  unfold trackPackSizes
  split <;> simp

theorem erase_trackPackCrcs (n : Nat) (nid : UInt8) :
    (trackPackCrcs n archive nid).erase = readPackCrcs n archive nid := by
  unfold trackPackCrcs readPackCrcs
  rw [erase_ite]
  simp [erase_trackAllOrBits]

theorem erase_trackPackInfo : (trackPackInfo bounds archive).erase = readPackInfo bounds archive := by
  unfold trackPackInfo readPackInfo
  simp only [erase_bind, erase_read, erase_lift, erase_pure, erase_trackPackSizes,
    erase_trackPackCrcs]

theorem erase_trackProperties (hasAttributes : Bool) :
    (trackProperties bounds hasAttributes).erase = readProperties bounds hasAttributes := by
  unfold trackProperties readProperties
  cases hasAttributes with
  | false => rfl
  | true => simp

theorem erase_trackCoder (totals : StreamTotals) :
    (trackCoder bounds totals).erase = readCoder bounds totals := by
  unfold trackCoder readCoder
  simp only [erase_bind, erase_read, erase_lift, erase_pure, erase_trackProperties]

theorem erase_trackCoders (n : Nat) (totals : StreamTotals) :
    (trackCoders bounds n totals).erase = readCoders bounds n totals := by
  induction n generalizing totals with
  | zero => rfl
  | succ n ih =>
      unfold trackCoders readCoders
      simp only [erase_bind, erase_pure, erase_trackCoder, ih]

theorem erase_trackBlock : (trackBlock bounds).erase = readBlock bounds := by
  unfold trackBlock readBlock reserveGraph
  simp only [erase_bind, erase_read, erase_lift, erase_pure, erase_note, erase_trackCoders,
    pure_bind]

theorem erase_trackBlocks (n totalCoders : Nat) :
    (trackBlocks bounds n totalCoders).erase = readBlocks bounds n totalCoders := by
  induction n generalizing totalCoders with
  | zero => rfl
  | succ n ih =>
      unfold trackBlocks readBlocks
      simp only [erase_bind, erase_lift, erase_pure, erase_trackBlock, ih]

theorem erase_trackUnpackSizes (blocks : List Block) :
    (trackUnpackSizes bounds blocks).erase = readUnpackSizes blocks := by
  induction blocks with
  | nil => rfl
  | cons block blocks ih =>
      unfold trackUnpackSizes
      simp only [erase_bind, erase_read, erase_pure, erase_note, pure_bind, ih]
      simp [readUnpackSizes, List.mapM_cons]

theorem erase_trackBlockCrcs (numBlocks : Nat) (blocks : List Block) (nid : UInt8) :
    (trackBlockCrcs numBlocks blocks nid).erase = readBlockCrcs numBlocks blocks nid := by
  unfold trackBlockCrcs readBlockCrcs
  rw [erase_ite]
  simp [erase_trackAllOrBits]

theorem erase_trackUnpackInfo :
    (trackUnpackInfo bounds archive).erase = readUnpackInfo bounds archive := by
  unfold trackUnpackInfo readUnpackInfo
  simp only [erase_bind, erase_read, erase_lift, erase_pure, erase_note, erase_trackBlocks,
    erase_trackUnpackSizes, erase_trackBlockCrcs, pure_bind]

theorem erase_trackSubStreamDigests (blocks : List Block) (numDigests : Nat)
    (info : SubStreamsInfo) (nid : UInt8) :
    (trackSubStreamDigests blocks numDigests info nid).erase =
      readSubStreamDigests blocks numDigests info nid := by
  unfold trackSubStreamDigests readSubStreamDigests
  rw [erase_ite]
  simp [erase_trackAllOrBits]

theorem erase_trackSubStreamsInfo :
    (trackSubStreamsInfo bounds archive).erase = readSubStreamsInfo bounds archive := by
  unfold trackSubStreamsInfo readSubStreamsInfo
  simp only [erase_bind, erase_read, erase_lift, erase_pure, erase_note,
    erase_trackSubStreamDigests, pure_bind]

theorem erase_trackSection {track : Archive → TrackedReader Archive}
    {read : Archive → HeaderReader Archive} (h : ∀ archive, (track archive).erase = read archive)
    (expected nid : UInt8) (absent : Archive → Archive) :
    (trackSection expected nid archive track absent).erase =
      optionalSection expected nid archive read absent := by
  unfold trackSection optionalSection
  rw [erase_ite]
  simp [h]

theorem erase_trackStreamsInfo :
    (trackStreamsInfo bounds archive).erase = readStreamsInfo bounds archive := by
  unfold trackStreamsInfo readStreamsInfo
  simp only [erase_bind, erase_read, erase_lift, erase_pure,
    erase_trackSection _ (erase_trackPackInfo bounds),
    erase_trackSection _ (erase_trackUnpackInfo bounds),
    erase_trackSection _ (erase_trackSubStreamsInfo bounds)]

theorem erase_trackDefined (property : String)
    (update : Bool → ArchiveEntry → HeaderReader ArchiveEntry) (files : List ArchiveEntry) :
    (trackDefined property update files).erase = readDefined property update files := by
  simp [trackDefined]

theorem erase_trackEmptyBits (isEmptyStream : Option BitSet) :
    (trackEmptyBits isEmptyStream).erase = readEmptyBits isEmptyStream := by
  unfold trackEmptyBits readEmptyBits
  simp only [erase_bind, erase_read, erase_lift, erase_note, pure_bind]

theorem erase_trackFileProperty (propType : UInt8) (size : Nat) (props : FileProperties) :
    (trackFileProperty bounds propType size props).erase =
      readFileProperty bounds propType size props := by
  unfold trackFileProperty readFileProperty
  simp only [erase_ite, erase_bind, erase_read, erase_lift, erase_pure, erase_note,
    erase_trackDefined, erase_trackEmptyBits, pure_bind]

theorem erase_trackPropertyLoop (fuel : Nat) (props : FileProperties) :
    (trackPropertyLoop bounds fuel props).erase = readPropertyLoop bounds fuel props := by
  induction fuel generalizing props with
  | zero => rfl
  | succ fuel ih =>
      unfold trackPropertyLoop readPropertyLoop
      simp only [erase_bind, erase_read, erase_pure, erase_ite, erase_trackFileProperty, ih]

theorem erase_trackFileProperties (numFiles : Nat) :
    (trackFileProperties bounds numFiles).erase = readFileProperties bounds numFiles := by
  funext s
  have hloop := erase_trackPropertyLoop bounds (s.length + 1)
    { files := List.replicate numFiles ArchiveEntry.new }
  exact congrFun hloop s

theorem erase_trackStreamMap :
    (trackStreamMap archive).erase = (monadLift (calculateStreamMap archive) : HeaderReader _) := by
  unfold trackStreamMap
  simp only [erase_bind, erase_lift, erase_note, pure_bind]

theorem erase_trackFilesInfo :
    (trackFilesInfo bounds archive).erase = readFilesInfo bounds archive := by
  unfold trackFilesInfo readFilesInfo
  simp only [erase_bind, erase_read, erase_lift, erase_note, erase_trackFileProperties,
    erase_trackStreamMap, pure_bind]

theorem erase_trackFilesOrMap (nid : UInt8) :
    (trackFilesOrMap bounds nid archive).erase = readFilesOrMap bounds nid archive := by
  unfold trackFilesOrMap readFilesOrMap
  simp only [erase_ite, erase_bind, erase_read, erase_pure, erase_trackFilesInfo,
    erase_trackStreamMap]

theorem erase_trackHeader : (trackHeader bounds archive).erase = readHeader bounds archive := by
  unfold trackHeader readHeader
  simp only [erase_bind, erase_read, erase_lift, erase_pure,
    erase_trackSection _ (erase_trackStreamsInfo bounds), erase_trackFilesOrMap]

end Erase

end Sevenz
