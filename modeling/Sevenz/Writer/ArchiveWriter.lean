import Sevenz.Lib.Emits
import Sevenz.Header.StartHeader
import Sevenz.Writer.FilesInfo
import Sevenz.Writer.UnpackInfo

/-!
# The archive writer

`ArchiveWriter`: the pushes, and what `finish` makes of them.  A push that fails leaves the
writer as it was, but for the bytes it had already put out.
-/

namespace Sevenz

open Lib

/-- What the calls of `read` on a source answer, in order.  The source is at its end when it
reads nothing, and after the last of them. -/
abbrev Source := List (Except IoError (List UInt8))

/-- The counters of a `SourceReader`; `crc` is what its running checksum has taken in. -/
structure SourceTally where
  size : Nat := 0
  crc : List UInt8 := []
  crcValue : UInt32 := 0
  deriving DecidableEq

def SourceTally.read (crc32 : List UInt8 → UInt32) (buf : List UInt8) (tally : SourceTally) :
    SourceTally :=
  if tally.crcValue ≠ 0 then tally
  else if buf.isEmpty then { tally with crc := [], crcValue := crc32 tally.crc }
  else { tally with size := tally.size + buf.length, crc := tally.crc ++ buf }

structure SourceReader where
  reader : Source
  tally : SourceTally := {}

def SourceReader.new (reader : Source) : SourceReader := { reader }

/-- The writer `create_writer` builds over the output at hand.  Every call says what it put out,
also when it failed. -/
structure ContentEncoder where
  State : Type
  create : List EncoderConfiguration → Emits Fault State
  writeAll : List UInt8 → State → Emits Fault State
  flush : State → Emits Fault State
  /-- `write(&[])`. -/
  writeEnd : State → Emits Fault State
  moreSizes : State → List UInt64

/-- What an error says was being done when a read, a write, the flush or the last write failed. -/
structure EncodeContext where
  read : String
  encode : String
  flush : String
  finish : String

def ioMsg (context : String) : Fault → Fault
  | .error (.io error _) => .error (.io error context)
  | fault => fault

def entriesNamesLoop : List ArchiveEntry → String → String
  | [], names => names
  | entry :: entries, names =>
      let names := (names ++ String.ofList entry.name).push ';'
      if names.utf8ByteSize > 512 then names else entriesNamesLoop entries names

def entriesNames (entries : List ArchiveEntry) : String := entriesNamesLoop entries ""

namespace EncodeContext

def entry (name : List Char) : EncodeContext :=
  let message := "Encode entry:" ++ String.ofList name
  { read := message, encode := message, flush := message, finish := message }

def entries (entries : List ArchiveEntry) : EncodeContext where
  read := "Encode entries:" ++ entriesNames entries
  encode := "Encode entries:" ++ entriesNames entries
  flush := "Encode entry:" ++ entriesNames entries
  finish := "Encode entry:" ++ entriesNames entries

def prepare (entries : List ArchiveEntry) : EncodeContext where
  read := "prepare_block: read source:" ++ entriesNames entries
  encode := "prepare_block: encode:" ++ entriesNames entries
  flush := "prepare_block: flush:" ++ entriesNames entries
  finish := "prepare_block: finish:" ++ entriesNames entries

end EncodeContext

/-- What is known of a block once it is encoded: the counters of its sources, all that was
written into the encoder, and what each coder but the last took in. -/
structure Encoded where
  tallies : List SourceTally
  written : List UInt8
  moreSizes : List UInt64

def Encoded.sizes (encoded : Encoded) : List UInt64 :=
  encoded.moreSizes ++ [UInt64.ofNat encoded.written.length]

namespace ContentEncoder

variable (encoder : ContentEncoder) (crc32 : List UInt8 → UInt32) (context : EncodeContext)

structure Feed where
  state : encoder.State
  written : List UInt8 := []

def feedSource : Source → SourceTally → encoder.Feed → Emits Fault (SourceTally × encoder.Feed)
  | [], tally, feed => pure (tally.read crc32 [], feed)
  | .error error :: _, _, _ => .fail (.error (.io error context.read))
  | .ok buf :: reads, tally, feed =>
      if buf.isEmpty then pure (tally.read crc32 [], feed)
      else do
        let state ← (encoder.writeAll buf feed.state).mapError (ioMsg context.encode)
        feedSource reads (tally.read crc32 buf) { state, written := feed.written ++ buf }

def feedSources :
    List SourceReader → encoder.Feed → Emits Fault (List SourceTally × encoder.Feed)
  | [], feed => pure ([], feed)
  | source :: sources, feed => do
      let (tally, feed) ← encoder.feedSource crc32 context source.reader source.tally feed
      let (tallies, feed) ← feedSources sources feed
      pure (tally :: tallies, feed)

def encodeContent (methods : List EncoderConfiguration) (sources : List SourceReader) :
    Emits Fault Encoded := do
  let state ← encoder.create methods
  let (tallies, feed) ← encoder.feedSources crc32 context sources { state }
  let state ← (encoder.flush feed.state).mapError (ioMsg context.flush)
  let state ← (encoder.writeEnd state).mapError (ioMsg context.finish)
  pure { tallies, written := feed.written, moreSizes := encoder.moreSizes state }

end ContentEncoder

/-- `ArchiveWriter`.  The output is what has been put out from the start of the file on; its
first bytes stay open for the start header. -/
structure ArchiveWriter where
  output : List UInt8
  files : List ArchiveEntry := []
  contentMethods : List EncoderConfiguration := [{ method := .lzma2 }]
  packInfo : PackInfo := {}
  unpackInfo : UnpackInfo := {}
  encryptHeader : Bool := true
  contentMethods_ne : contentMethods ≠ [] := by simp

namespace ArchiveWriter

def new : ArchiveWriter := { output := List.replicate signatureHeaderSize 0 }

def setContentMethods (methods : List EncoderConfiguration) (writer : ArchiveWriter) :
    ArchiveWriter :=
  if h : methods = [] then writer
  else { writer with contentMethods := methods, contentMethods_ne := h }

def setEncryptHeader (enabled : Bool) (writer : ArchiveWriter) : ArchiveWriter :=
  { writer with encryptHeader := enabled }

end ArchiveWriter

def ArchiveEntry.tallied (entry : ArchiveEntry) (tally : SourceTally) : ArchiveEntry :=
  { entry with
    crc := tally.crcValue.toUInt64, size := UInt64.ofNat tally.size, hasCrc := true }

def ArchiveEntry.encoded (entry : ArchiveEntry) (crc32 : List UInt8 → UInt32)
    (written compressed : List UInt8) : ArchiveEntry :=
  { entry with
    hasStream := true
    size := UInt64.ofNat written.length
    crc := (crc32 written).toUInt64
    hasCrc := true
    compressedCrc := (crc32 compressed).toUInt64
    compressedSize := UInt64.ofNat compressed.length }

def ArchiveEntry.empty (entry : ArchiveEntry) : ArchiveEntry :=
  { entry with hasStream := false, size := 0, compressedSize := 0, hasCrc := false }

structure PreparedBlock where
  compressed : List UInt8
  compressedCrc : UInt32
  entries : List ArchiveEntry
  methods : List EncoderConfiguration
  sizes : List UInt64
  crc : UInt32
  subStreamSizes : List UInt64
  subStreamCrcs : List UInt32
  deriving DecidableEq

section Pushes

variable (crc32 : List UInt8 → UInt32) (encoder : ContentEncoder)

/-- `push_archive_entry`: the writer it returns has the output it was given. -/
def ArchiveWriter.pushArchiveEntry (entry : ArchiveEntry) (reader : Option Source)
    (writer : ArchiveWriter) : Emits Fault ArchiveWriter :=
  match entry.isDirectory, reader with
  | false, some source => do
      let (encoded, compressed) ←
        (encoder.encodeContent crc32 (.entry entry.name) writer.contentMethods
          [.new source]).listen
      let crc := crc32 encoded.written
      pure { writer with
        packInfo := writer.packInfo.addStream (UInt64.ofNat compressed.length) (crc32 compressed)
        unpackInfo := writer.unpackInfo.add writer.contentMethods encoded.sizes crc
        files := writer.files ++ [entry.encoded crc32 encoded.written compressed] }
  | _, _ => pure { writer with files := writer.files ++ [entry.empty] }

def ArchiveWriter.pushArchiveEntries (entries : List ArchiveEntry) (sources : List SourceReader)
    (writer : ArchiveWriter) : Emits Fault ArchiveWriter :=
  if sources.length ≠ entries.length then .fail (.panic .assertionFailed)
  else do
    let (encoded, compressed) ←
      (encoder.encodeContent crc32 (.entries entries) writer.contentMethods sources).listen
    let entries := List.zipWith ArchiveEntry.tallied entries encoded.tallies
    pure { writer with
      packInfo := writer.packInfo.addStream (UInt64.ofNat compressed.length) (crc32 compressed)
      unpackInfo := writer.unpackInfo.addMultiple writer.contentMethods encoded.sizes
        (crc32 encoded.written) (UInt64.ofNat entries.length) (entries.map ArchiveEntry.size)
        (entries.map fun entry => entry.crc.toUInt32)
      files := writer.files ++ entries }

def prepareBlock (methods : List EncoderConfiguration) (entries : List ArchiveEntry)
    (sources : List SourceReader) : Result PreparedBlock := do
  Result.rejectIf (methods.isEmpty = true) (.other "prepare_block: `methods` must not be empty")
  Result.rejectIf (sources.length ≠ entries.length)
    (.other s!"prepare_block: {entries.length} entries against {sources.length} readers")
  let encode := encoder.encodeContent crc32 (.prepare entries) methods sources
  let encoded ← encode.result
  let entries := List.zipWith ArchiveEntry.tallied entries encoded.tallies
  pure
    { compressed := encode.bytes
      compressedCrc := crc32 encode.bytes
      entries
      methods
      sizes := encoded.sizes
      crc := crc32 encoded.written
      subStreamSizes := entries.map ArchiveEntry.size
      subStreamCrcs := entries.map fun entry => entry.crc.toUInt32 }

end Pushes

/-- `push_prepared_block`.  Where the output fails, it does after some of the bytes. -/
def ArchiveWriter.pushPreparedBlock (block : PreparedBlock) (outputError : Option (Nat × IoError))
    (writer : ArchiveWriter) : Emits Fault ArchiveWriter :=
  if block.entries.isEmpty then pure writer
  else
    match outputError with
    | some (taken, error) =>
        { bytes := block.compressed.take taken
          result := Result.fail (.io error "push_prepared_block: write") }
    | none =>
        { bytes := block.compressed
          result := .ok { writer with
            packInfo := writer.packInfo.addStream (UInt64.ofNat block.compressed.length)
              block.compressedCrc
            unpackInfo := writer.unpackInfo.addMultiple block.methods block.sizes block.crc
              (UInt64.ofNat block.entries.length) block.subStreamSizes block.subStreamCrcs
            files := writer.files ++ block.entries } }

def ContentEncoder.encodeHeader (encoder : ContentEncoder) (methods : List EncoderConfiguration)
    (rawHeader : List UInt8) : Emits Fault (List UInt64) := do
  let state ← encoder.create methods
  let state ← encoder.writeAll rawHeader state
  let state ← encoder.flush state
  let state ← encoder.writeEnd state
  pure (encoder.moreSizes state)

namespace ArchiveWriter

variable (versions : CodecVersions) (writer : ArchiveWriter)

def writeStreamsInfo : List UInt8 :=
  (if writer.packInfo.len > 0 then
      writer.packInfo.writeTo ++ writer.unpackInfo.writeTo versions
    else []) ++
    (writer.unpackInfo.writeSubstreams ++ [kEnd])

def writeHeader : List UInt8 :=
  [kHeader, kMainStreamsInfo] ++
    (writer.writeStreamsInfo versions ++ (writeFilesInfo writer.files ++ [kEnd]))

def headerEncryption : Option EncoderConfiguration :=
  if writer.encryptHeader then
    writer.contentMethods.find? fun conf => conf.method.id == EncoderMethod.aes256Sha256.id
  else none

def headerMethods : List EncoderConfiguration :=
  writer.headerEncryption.toList ++ [{ method := .lzma }]

def headerPackInfo (crc32 : List UInt8 → UInt32) (position : Nat) (encodedData : List UInt8) :
    PackInfo :=
  ({ pos := UInt64.ofNat (position - signatureHeaderSize) } : PackInfo).addStream
    (UInt64.ofNat encodedData.length) (crc32 encodedData)

def headerUnpackInfo (crc32 : List UInt8 → UInt32) (moreSizes : List UInt64)
    (rawHeader : List UInt8) : UnpackInfo :=
  ({} : UnpackInfo).add writer.headerMethods
    (moreSizes ++ [UInt64.ofNat rawHeader.length]) (crc32 rawHeader)

def writeEncodedHeader (crc32 : List UInt8 → UInt32) (encoder : ContentEncoder) :
    Emits Fault (List UInt8) := do
  let rawHeader := writer.writeHeader versions
  let (moreSizes, encodedData) ← (encoder.encodeHeader writer.headerMethods rawHeader).buffered
  if writer.headerEncryption.isNone ∧ encodedData.length + 20 ≥ rawHeader.length then
    pure rawHeader
  else do
    Emits.put encodedData
    let packInfo := headerPackInfo crc32 writer.output.length encodedData
    let unpackInfo := writer.headerUnpackInfo crc32 moreSizes rawHeader
    pure (kEncodedHeader :: (packInfo.writeTo ++
      (unpackInfo.writeTo versions ++ (unpackInfo.writeSubstreams ++ [kEnd]))))

def finish (crc32 : List UInt8 → UInt32) (encoder : ContentEncoder) : Result (List UInt8) := do
  let step := writer.writeEncodedHeader versions crc32 encoder
  let header ← step.result
  pure (archiveFile crc32 (writer.output.drop signatureHeaderSize ++ step.bytes) header)

end ArchiveWriter

end Sevenz
