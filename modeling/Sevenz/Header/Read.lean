import Sevenz.Header.FilesInfo
import Sevenz.Reader.DecodeStack

/-!
# Reading an archive

`Archive::read_with_limits` over the bytes of a file: the start header, the end header with
its compressed form, and what is checked of the archive that was parsed.
-/

namespace Sevenz

open Lib Lib.Parser

def archivePropertiesLoop (bounds : HeaderBounds) : Nat → UInt8 → HeaderReader Unit
  | 0, _ => throw .outOfFuel
  | fuel + 1, nid =>
      if nid = kEnd then pure ()
      else do
        let size ← readVariableU64
        let propertySize ← bounds.size size.toNat
        skip propertySize
        let nid ← readU8
        archivePropertiesLoop bounds fuel nid

def readArchiveProperties (bounds : HeaderBounds) : HeaderReader Unit := fun s =>
  (do
    let nid ← readU8
    archivePropertiesLoop bounds (s.length + 1) nid) s

/-- The files section ends with the stream map; a header without one gets its map here. -/
def readFilesOrMap (bounds : HeaderBounds) (nid : UInt8) (archive : Archive) :
    HeaderReader (Archive × UInt8) :=
  if nid = kFilesInfo then do
    let archive ← readFilesInfo bounds archive
    let nid ← readU8
    pure (archive, nid)
  else do
    let archive ← calculateStreamMap archive
    pure (archive, nid)

def skipArchiveProperties (bounds : HeaderBounds) (nid : UInt8) : HeaderReader UInt8 :=
  if nid = kArchiveProperties then do
    readArchiveProperties bounds
    readU8
  else pure nid

def readHeader (bounds : HeaderBounds) (archive : Archive) : HeaderReader Archive := do
  let nid ← readU8
  let nid ← skipArchiveProperties bounds nid
  Result.rejectIf (nid = kAdditionalStreamsInfo) (.other "Additional streams unsupported")
  let (archive, nid) ← optionalSection kMainStreamsInfo nid archive (readStreamsInfo bounds) id
  let (archive, nid) ← readFilesOrMap bounds nid archive
  Result.rejectIf (nid ≠ kEnd) (.badTerminatedHeader nid)
  pure archive

/-- The chain of decoders a compressed header is read through, the checksum to verify over
it, and the size it unpacks to. -/
def readEncodedHeader (codecs : Codecs) (opts : DecodeOptions) (bounds : HeaderBounds) :
    HeaderReader (DecodeStack × Nat) := do
  let archive ← readStreamsInfo bounds {}
  checkAesCoders opts.limits (archive.blocks.flatMap Block.coders)
  let block ← Result.okOr (.other "no blocks, can't read encoded header") archive.blocks.head?
  let blockOffset ← Result.okOr (.other "pack position out of range") (packStart archive)
  Result.rejectIf (archive.packSizes.isEmpty = true)
    (.other "no packed streams, can't read encoded header")
  let declaredUnpack ← block.getUnpackSize
  let cap := bounds.limits.maxHeaderUnpackedBytes.toNat
  Result.rejectIf (declaredUnpack.toNat > cap)
    (.limitExceeded .headerUnpackedBytes cap declaredUnpack.toNat)
  let packSize ← Result.index archive.packSizes 0
  let decoder ← addChain codecs block
    (.other "Multi input/output stream coders are not yet supported")
    block.orderedCoderIter (.pack 0 blockOffset packSize.toNat)
  let verify := block.hasCrc && opts.verifyChecksums && !opts.foldingChecksums codecs decoder
  let check := if verify then some (declaredUnpack, block.crc) else none
  pure ({ decoder, check, packSize }, declaredUnpack.toNat)

/-- Reads a compressed header whole.  Only a stream that is interrupted over and over runs
out of rounds. -/
def unpackHeader (codecs : Codecs) (passwordGiven : Bool) (stack : DecodeStack)
    (unpackSize : Nat) : Result (List UInt8) := do
  let script : Script IoError (Result (List UInt8)) :=
    Script.readToEnd retryInterrupted codecs.bufferLength
      (fun e => Result.fail (Error.badPassword e passwordGiven)) pure (.error .outOfFuel)
      codecs.rounds []
  let buf ← (script.run (boundedRead (stack.read codecs)) (unpackSize, stack.start)).1
  Result.rejectIf (buf.length ≠ unpackSize) (Error.badPassword .unexpectedEof passwordGiven)
  pure buf

def loadEndHeader (codecs : Codecs) (limits : ArchiveLimits) (file : List UInt8)
    (startHeader : StartHeader) (verifyCrc : Bool) : Result (List UInt8) := do
  let size := startHeader.nextHeaderSize
  let cap := limits.maxEndHeaderBytes.toNat
  Result.rejectIf (size > cap) (.endHeaderTooLarge cap size)
  Result.rejectIf (size ≥ 2 ^ 64 ∨ size > file.length)
    (.other s!"Cannot handle next_header_size {size}")
  let headerPos ← Result.okOr (.other "next header offset out of range")
    ((checkedAdd signatureHeaderSize startHeader.nextHeaderOffset).filter
      fun pos => pos ≤ file.length)
  let (buf, _) ← readExact size (file.drop headerPos)
  Result.rejectIf (verifyCrc = true ∧ (codecs.crc32 buf).toNat ≠ startHeader.nextHeaderCrc)
    .nextHeaderCrcMismatch
  pure buf

def openHeader (codecs : Codecs) (limits : ArchiveLimits) (passwordGiven : Bool)
    (buf : List UInt8) : Result (UInt8 × List UInt8) := do
  let (nid, rest) ← readU8 buf
  if nid = kEncodedHeader then do
    let depth := limits.maxHeaderDepth.toNat
    Result.rejectIf (depth < 2) (.limitExceeded .headerDepth depth 2)
    let ((stack, unpackSize), _) ←
      readEncodedHeader codecs (.header limits) { bytes := buf.length, limits } rest
    let buf ← unpackHeader codecs passwordGiven stack unpackSize
    readU8 buf
  else pure (nid, rest)

def parseHeader (limits : ArchiveLimits) (nid : UInt8) (header : List UInt8) :
    Result Archive := do
  Result.rejectIf (nid = kEncodedHeader)
    (.limitExceeded .headerDepth limits.maxHeaderDepth.toNat 3)
  Result.rejectIf (nid ≠ kHeader) (.other "Broken or unsupported archive: no Header")
  let (archive, _) ← readHeader { bytes := header.length, limits } {} header
  pure archive

def sumPackSizes : List UInt64 → Nat → Result Nat
  | [], total => pure total
  | size :: sizes, total => do
      let total ← Result.okOr (.other "pack sizes overflow") (checkedAdd total size.toNat)
      sumPackSizes sizes total

def checkPackRange (fileLen : Nat) (archive : Archive) : Result Nat := do
  let packedTotal ← sumPackSizes archive.packSizes 0
  let packedEnd ← Result.okOr (.other "pack stream range out of range")
    ((packStart archive).bind fun start => checkedAdd start packedTotal)
  Result.rejectIf (packedEnd > fileLen)
    (.other s!"pack streams end at {packedEnd}, past the end of a {fileLen}-byte archive")
  pure packedTotal

def sumUnpackSizes : List Block → Nat → Result Nat
  | [], total => pure total
  | block :: blocks, total => do
      let size ← block.getUnpackSize
      let total ← Result.okOr (.other "unpacked sizes overflow") (checkedAdd total size.toNat)
      sumUnpackSizes blocks total

def checkUnpackLimits (limits : ArchiveLimits) (archive : Archive) (packedTotal : Nat) :
    Result Unit :=
  let maxBytes := limits.maxUnpackBytes.toNat
  let maxRatio := limits.maxUnpackRatio.toNat
  if maxBytes < 2 ^ 64 - 1 ∨ maxRatio < 2 ^ 64 - 1 then do
    let unpackedTotal ← sumUnpackSizes archive.blocks 0
    Result.rejectIf (unpackedTotal > maxBytes)
      (.limitExceeded .unpackBytes maxBytes unpackedTotal)
    let ratio := unpackedTotal / packedTotal
    Result.rejectIf (maxRatio < 2 ^ 64 - 1 ∧ packedTotal > 0 ∧ ratio > maxRatio)
      (.limitExceeded .unpackRatio maxRatio ratio)
  else pure ()

def isSeparator (c : Char) : Bool := c == '/' || c == '\\'

def namesADrive : List Char → Bool
  | c :: ':' :: _ => c.isAlpha
  | _ => false

def unsafePathReason (name : List Char) : Option String :=
  if name.isEmpty then some "the entry has no name"
  else if name.contains '\x00' then some "the name contains a NUL"
  else if name.head?.any isSeparator then some "the name is an absolute path"
  else if namesADrive name then some "the name names a drive"
  else if (name.splitOnP isSeparator).contains ['.', '.'] then
    some "the name walks out of the extraction directory"
  else none

def checkNames (files : List ArchiveEntry) : Result Unit :=
  match files.findSome? fun file => (unsafePathReason file.name).map fun r => (file.name, r) with
  | none => pure ()
  | some (name, reason) => Result.fail (.unsafeEntryName name reason)

def checkUnsafePaths (limits : ArchiveLimits) (files : List ArchiveEntry) : Result Unit :=
  if limits.rejectUnsafePaths then checkNames files else pure ()

def checkArchive (limits : ArchiveLimits) (fileLen : Nat) (archive : Archive) :
    Result Archive := do
  let packedTotal ← checkPackRange fileLen archive
  checkUnpackLimits limits archive packedTotal
  checkUnsafePaths limits archive.files
  checkAesCoders limits (archive.blocks.flatMap Block.coders)
  pure { archive with isSolid := archive.blocks.any fun block => block.numUnpackSubStreams > 1 }

def initArchive (codecs : Codecs) (limits : ArchiveLimits) (passwordGiven : Bool)
    (file : List UInt8) (startHeader : StartHeader) (verifyCrc : Bool) : Result Archive := do
  let buf ← loadEndHeader codecs limits file startHeader verifyCrc
  let (nid, header) ← openHeader codecs limits passwordGiven buf
  let archive ← parseHeader limits nid header
  checkArchive limits file.length archive

def readStartHeader (codecs : Codecs) (startHeaderCrc : UInt32) : HeaderReader StartHeader := do
  let buf ← readExact 20
  Result.rejectIf (codecs.crc32 buf ≠ startHeaderCrc) .checksumVerificationFailed
  pure
    { nextHeaderOffset := leValue (buf.take 8)
      nextHeaderSize := leValue ((buf.drop 8).take 8)
      nextHeaderCrc := leValue (buf.drop 16) }

def headerValid (startHeaderCrc : UInt32) : HeaderReader Bool := fun s =>
  if startHeaderCrc = 0 then do
    let (buf, _) ← readExact 20 s
    pure (buf.any (· ≠ 0), s)
  else pure (true, s)

/-- The scan of `try_to_locale_end_header`, from just below the given position down. -/
def scanEndHeader (attempt : StartHeader → Result Archive) (file : List UInt8) (minPos : Nat) :
    Nat → Result Archive
  | 0 => Result.fail (.other "Start header corrupt and unable to guess end header")
  | pos + 1 =>
      if pos + 1 ≤ minPos then
        Result.fail (.other "Start header corrupt and unable to guess end header")
      else do
        let nid ← Result.okOr (.ofIo .unexpectedEof) file[pos]?
        if (nid = kEncodedHeader ∨ nid = kHeader) ∧ signatureHeaderSize ≤ pos then do
          let result ← attempt
            { nextHeaderOffset := pos - signatureHeaderSize
              nextHeaderSize := file.length - pos
              nextHeaderCrc := 0 }
          if result.files.isEmpty then scanEndHeader attempt file minPos pos
          else pure result
        else scanEndHeader attempt file minPos pos

/-- At most the last mebibyte of the file is searched, and nothing of its first bytes. -/
def tryToLocaleEndHeader (attempt : StartHeader → Result Archive) (file : List UInt8) :
    Result Archive :=
  let searchLimit := 1024 * 1024
  let minPos := if 12 + searchLimit > file.length then 12 else file.length - searchLimit
  scanEndHeader attempt file minPos (file.length - 1)

def readSignature : HeaderReader UInt32 := do
  let signature ← readExact 6
  Result.rejectIf (signature ≠ sevenZSignature) (.badSignature signature)
  let major ← readU8
  let minor ← readU8
  Result.rejectIf (major ≠ 0) (.unsupportedVersion major minor)
  readU32

def readWithLimits (codecs : Codecs) (limits : ArchiveLimits) (passwordGiven : Bool)
    (file : List UInt8) : Result Archive := do
  let (startHeaderCrc, rest) ← readSignature file
  let (valid, rest) ← headerValid startHeaderCrc rest
  if valid then do
    let (startHeader, _) ← readStartHeader codecs startHeaderCrc rest
    initArchive codecs limits passwordGiven file startHeader true
  else
    tryToLocaleEndHeader
      (fun startHeader => initArchive codecs limits passwordGiven file startHeader false) file

end Sevenz
