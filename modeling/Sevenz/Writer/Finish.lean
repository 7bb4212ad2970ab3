import Sevenz.Writer.EncodedHeader
import Sevenz.Writer.Pushes

/-!
# Reading a finished archive back

`finish` ends the file in one of three layouts, with the end header as it is, compressed, or
compressed and encrypted, and puts the start header in front.  The reader finds its way back
to the bytes of `write_header` from each of them.
-/

namespace Sevenz

open Lib Lib.Parser

def archiveOf (limits : ArchiveLimits) (fileLen : Nat) (opened : Result (UInt8 × List UInt8)) :
    Result Archive := do
  let (nid, header) ← opened
  let archive ← parseHeader limits nid header
  checkArchive limits fileLen archive

section

variable {codecs : Codecs} {limits : ArchiveLimits} {passwordGiven : Bool}
  {packed header : List UInt8}

theorem readSignature_writeStartHeader (crc32 : List UInt8 → UInt32) (headerPos : Nat)
    (rest : List UInt8) :
    readSignature (writeStartHeader crc32 headerPos header ++ rest) =
      .ok (crc32 (startHeaderBody crc32 headerPos header),
        startHeaderBody crc32 headerPos header ++ rest) := by
  have hdecodes : Decodes readSignature
      (sevenZSignature ++ ([0] ++ ([4] ++
        writeU32 (crc32 (startHeaderBody crc32 headerPos header)))))
      (crc32 (startHeaderBody crc32 headerPos header)) := by
    apply (Decodes.bytes unexpectedEof sevenZSignature).bind
    apply (Decodes.lift ((Result.rejectIf_eq_ok (u := ())).mpr (not_not.mpr rfl))).bind_nil
    apply (decodes_readU8 0).bind
    apply (decodes_readU8 4).bind
    apply (Decodes.lift ((Result.rejectIf_eq_ok (u := ())).mpr (not_not.mpr rfl))).bind_nil
    exact decodes_readU32 _
  have := hdecodes (startHeaderBody crc32 headerPos header ++ rest)
  simpa [writeStartHeader, List.append_assoc] using this

theorem readStartHeader_body (headerPos : Nat) (hpos : headerPos - signatureHeaderSize < 2 ^ 64)
    (rest : List UInt8) :
    readStartHeader codecs (codecs.crc32 (startHeaderBody codecs.crc32 headerPos header))
        (startHeaderBody codecs.crc32 headerPos header ++ rest) =
      .ok ({ nextHeaderOffset := headerPos - signatureHeaderSize
             nextHeaderSize := header.length % 2 ^ 32
             nextHeaderCrc := (codecs.crc32 header).toNat }, rest) := by
  have hlength := startHeaderBody_length codecs.crc32 headerPos header
  have hread : readExact 20 (startHeaderBody codecs.crc32 headerPos header ++ rest) =
      .ok (startHeaderBody codecs.crc32 headerPos header, rest) := by
    have hbytes := Decodes.bytes unexpectedEof (startHeaderBody codecs.crc32 headerPos header) rest
    rwa [hlength] at hbytes
  have hoffset : leValue ((startHeaderBody codecs.crc32 headerPos header).take 8) =
      headerPos - signatureHeaderSize := by
    rw [startHeaderBody, List.take_left' (leBytes_length 8 _), leValue_leBytes_of_lt hpos]
  have hsize : leValue (((startHeaderBody codecs.crc32 headerPos header).drop 8).take 8) =
      header.length % 2 ^ 32 := by
    have hlt : header.length % 2 ^ 32 < 256 ^ 8 := by omega
    rw [startHeaderBody, List.drop_left' (leBytes_length 8 _),
      List.take_left' (leBytes_length 8 _), leValue_leBytes_of_lt hlt]
  have hcrc : leValue ((startHeaderBody codecs.crc32 headerPos header).drop 16) =
      (codecs.crc32 header).toNat := by
    rw [startHeaderBody, ← List.drop_drop (i := 8) (j := 8),
      List.drop_left' (leBytes_length 8 _), List.drop_left' (leBytes_length 8 _), writeU32,
      leValue_leBytes_of_lt (codecs.crc32 header).toNat_lt]
  rw [readStartHeader, bind_apply_ok hread, hoffset, hsize, hcrc]
  exact lift_bind_eq_ok.mpr ⟨(), Result.rejectIf_eq_ok.mpr (not_not.mpr rfl), rfl⟩

theorem leValue_eq_zero {bs : List UInt8} (h : ∀ b ∈ bs, b = 0) : leValue bs = 0 := by
  induction bs with
  | nil => rfl
  | cons b bs ih =>
      obtain ⟨rfl, hbs⟩ := List.forall_mem_cons.mp h
      rw [leValue, ih hbs]
      rfl

theorem headerValid_body (crc32 : List UInt8 → UInt32) (startHeaderCrc : UInt32) (headerPos : Nat)
    (hsize : header.length % 2 ^ 32 ≠ 0) (rest : List UInt8) :
    headerValid startHeaderCrc (startHeaderBody crc32 headerPos header ++ rest) =
      .ok (true, startHeaderBody crc32 headerPos header ++ rest) := by
  have hlength := startHeaderBody_length crc32 headerPos header
  have hread : readExact 20 (startHeaderBody crc32 headerPos header ++ rest) =
      .ok (startHeaderBody crc32 headerPos header, rest) := by
    have hbytes := Decodes.bytes unexpectedEof (startHeaderBody crc32 headerPos header) rest
    rwa [hlength] at hbytes
  have hany : (startHeaderBody crc32 headerPos header).any (· ≠ 0) = true := by
    by_contra hzero
    apply hsize
    have hzeros : ∀ b ∈ leBytes 8 (header.length % 2 ^ 32), b = 0 := by
      simp only [startHeaderBody, List.any_append, Bool.or_eq_true, not_or] at hzero
      simpa using hzero.2.1
    have hvalue : leValue (leBytes 8 (header.length % 2 ^ 32)) = 0 := leValue_eq_zero hzeros
    rwa [leValue_leBytes_of_lt (show header.length % 2 ^ 32 < 256 ^ 8 by omega)] at hvalue
  unfold headerValid
  split
  · rw [Result.bind_of_ok hread]
    dsimp only
    rw [hany]
    rfl
  · rfl

/-- The start header leads to the end header, as far as its size goes into 32 bits. -/
theorem readWithLimits_archiveFile (hpacked : packed.length < 2 ^ 64)
    (hsize : header.length % 2 ^ 32 ≠ 0) :
    readWithLimits codecs limits passwordGiven (archiveFile codecs.crc32 packed header) =
      initArchive codecs limits passwordGiven (archiveFile codecs.crc32 packed header)
        { nextHeaderOffset := packed.length
          nextHeaderSize := header.length % 2 ^ 32
          nextHeaderCrc := (codecs.crc32 header).toNat } true := by
  have hpos : signatureHeaderSize + packed.length - signatureHeaderSize = packed.length :=
    Nat.add_sub_cancel_left _ _
  have hstart := @readStartHeader_body codecs header
    (signatureHeaderSize + packed.length) (by rwa [hpos]) (packed ++ header)
  have hsignature : readSignature (archiveFile codecs.crc32 packed header) = _ :=
    readSignature_writeStartHeader codecs.crc32 (signatureHeaderSize + packed.length)
      (packed ++ header)
  rw [readWithLimits, Result.bind_of_ok hsignature]
  dsimp only
  rw [Result.bind_of_ok (headerValid_body _ _ _ hsize _)]
  dsimp only
  rw [if_pos rfl, Result.bind_of_ok hstart, hpos]

theorem loadEndHeader_archiveFile {size : Nat} (hsize : size ≤ header.length)
    (hcap : size ≤ limits.maxEndHeaderBytes.toNat)
    (hfile : (archiveFile codecs.crc32 packed header).length < 2 ^ 64) (crc : Nat) :
    loadEndHeader codecs limits (archiveFile codecs.crc32 packed header)
        { nextHeaderOffset := packed.length, nextHeaderSize := size, nextHeaderCrc := crc } true =
      if (codecs.crc32 (header.take size)).toNat ≠ crc then Result.fail .nextHeaderCrcMismatch
      else .ok (header.take size) := by
  have hlength := archiveFile_length codecs.crc32 packed header
  have hdrop : (archiveFile codecs.crc32 packed header).drop
      (signatureHeaderSize + packed.length) = header := by
    rw [← List.drop_drop, drop_archiveFile, List.drop_left]
  have hadd : checkedAdd signatureHeaderSize packed.length =
      some (signatureHeaderSize + packed.length) := checkedAdd_eq_some.mpr ⟨by omega, rfl⟩
  have hpos : (checkedAdd signatureHeaderSize packed.length).filter
      (fun pos => pos ≤ (archiveFile codecs.crc32 packed header).length) =
        some (signatureHeaderSize + packed.length) := by
    rw [hadd, Option.filter_some, if_pos (by rw [hlength]; simp)]
  have hread : readExact size header = .ok (header.take size, header.drop size) := by
    rw [readExact, Parser.bytes, if_pos hsize]
  rw [loadEndHeader]
  dsimp only
  rw [Result.bind_of_ok ((Result.rejectIf_eq_ok (u := ())).mpr (Nat.not_lt.mpr hcap)),
    Result.bind_of_ok ((Result.rejectIf_eq_ok (u := ())).mpr (by omega)), hpos,
    Result.bind_of_ok (Result.okOr_eq_ok.mpr rfl), hdrop, Result.bind_of_ok hread]
  dsimp only
  by_cases hcrc : (codecs.crc32 (header.take size)).toNat = crc
  · rw [if_neg (not_not.mpr hcrc),
      Result.bind_of_ok ((Result.rejectIf_eq_ok (u := ())).mpr (by simp [hcrc]))]
    rfl
  · rw [if_pos hcrc, Result.rejectIf, if_pos ⟨rfl, hcrc⟩]
    rfl

theorem readWithLimits_endHeader (hfile : (archiveFile codecs.crc32 packed header).length < 2 ^ 64)
    (hne : header ≠ []) (hshort : header.length < 2 ^ 32)
    (hcap : header.length ≤ limits.maxEndHeaderBytes.toNat) :
    readWithLimits codecs limits passwordGiven (archiveFile codecs.crc32 packed header) =
      archiveOf limits (archiveFile codecs.crc32 packed header).length
        (openHeader codecs limits passwordGiven header) := by
  have hlength := archiveFile_length codecs.crc32 packed header
  have hpos := List.length_pos_of_ne_nil hne
  have hload := loadEndHeader_archiveFile (Nat.le_refl header.length) hcap hfile
    (codecs.crc32 header).toNat
  rw [List.take_length, if_neg (not_not.mpr rfl)] at hload
  rw [readWithLimits_archiveFile (by omega) (by rw [Nat.mod_eq_of_lt hshort]; omega), initArchive,
    Nat.mod_eq_of_lt hshort, Result.bind_of_ok hload]
  rfl

end

/-- The decoders undo the encoder: where its output for some data lies in the file, the coders
put on it give the data back. -/
structure Codecs.Undo (codecs : Codecs) (file : List UInt8) (versions : CodecVersions)
    (encoder : ContentEncoder) (methods : List EncoderConfiguration) : Prop where
  accepts : ∀ mc ∈ methods, ∀ input stage, stage.coder = mc.coder versions →
    codecs.refuses input stage = none
  counts : ∀ data moreSizes, (encoder.encodeHeader methods data).result = .ok moreSizes →
    moreSizes.length + 1 = methods.length
  restores : ∀ data moreSizes start (stages : List Stage),
    (encoder.encodeHeader methods data).result = .ok moreSizes →
    (file.drop start).take (encoder.encodeHeader methods data).bytes.length =
      (encoder.encodeHeader methods data).bytes →
    stages.map (fun stage => (stage.coder, stage.uncompressedLen)) =
      (methods.map (EncoderConfiguration.coder versions)).zip
        (moreSizes ++ [UInt64.ofNat data.length]) →
    (codecs.decode (stackOf stages.reverse
      (.pack 0 start (encoder.encodeHeader methods data).bytes.length))).Delivers data

namespace ArchiveWriter

variable (versions : CodecVersions) (writer : ArchiveWriter)

def KeepsRawHeader (encoder : ContentEncoder) : Prop :=
  writer.headerEncryption.isNone ∧
    (encoder.encodeHeader writer.headerMethods (writer.writeHeader versions)).bytes.length + 20 ≥
      (writer.writeHeader versions).length

structure HeaderWithinLimits (crc32 : List UInt8 → UInt32) (encoder : ContentEncoder)
    (limits : ArchiveLimits) : Prop where
  endHeader : ∀ header, (writer.writeEncodedHeader versions crc32 encoder).result = .ok header →
    header.length ≤ limits.maxEndHeaderBytes.toNat
  encoded : limits.AllowsEncodedHeader versions writer.headerMethods
    (writer.writeHeader versions).length

def headerStreams (crc32 : List UInt8 → UInt32) (encodedData : List UInt8)
    (moreSizes : List UInt64) : EncodedStreams where
  pos := UInt64.ofNat (writer.output.length - signatureHeaderSize)
  packSize := UInt64.ofNat encodedData.length
  packCrc := crc32 encodedData
  methods := writer.headerMethods
  sizes := moreSizes ++ [UInt64.ofNat (writer.writeHeader versions).length]
  crc := crc32 (writer.writeHeader versions)

theorem headerMethods_length : writer.headerMethods.length ≤ 2 := by
  rw [headerMethods, List.length_append]
  cases writer.headerEncryption <;> simp

theorem headerMethods_ne : writer.headerMethods ≠ [] :=
  List.append_ne_nil_of_right_ne_nil _ (List.cons_ne_nil _ _)

theorem archiveFile_slice (crc32 : List UInt8 → UInt32) (before piece header : List UInt8) :
    ((archiveFile crc32 (before ++ piece) header).drop
      (signatureHeaderSize + before.length)).take piece.length = piece := by
  rw [← List.drop_drop, drop_archiveFile, List.append_assoc, List.drop_left, List.take_left]

theorem finish_cases {versions : CodecVersions} {writer : ArchiveWriter}
    {crc32 : List UInt8 → UInt32} {encoder : ContentEncoder} {file : List UInt8}
    (h : writer.finish versions crc32 encoder = .ok file) :
    ∃ moreSizes header, (writer.writeEncodedHeader versions crc32 encoder).result = .ok header ∧
      (encoder.encodeHeader writer.headerMethods (writer.writeHeader versions)).result =
        .ok moreSizes ∧
      ((writer.KeepsRawHeader versions encoder ∧ header = writer.writeHeader versions ∧
          file = archiveFile crc32 (writer.output.drop signatureHeaderSize) header) ∨
        ∃ encodedData,
          encodedData =
            (encoder.encodeHeader writer.headerMethods (writer.writeHeader versions)).bytes ∧
          header = kEncodedHeader ::
            (writer.headerStreams versions crc32 encodedData moreSizes).bytes versions ∧
          file = archiveFile crc32 (writer.output.drop signatureHeaderSize ++ encodedData)
            header) := by
  obtain ⟨header, hresult, hfile⟩ := Result.bind_eq_ok.mp h
  have hfile := Result.pure_eq_ok.mp hfile
  have hsteps := hresult
  obtain ⟨⟨moreSizes, encodedData⟩, hencode, hlayout⟩ := Emits.bind_result_eq_ok.mp hsteps
  obtain ⟨hmore, hdata⟩ := Emits.buffered_result_eq_ok.mp hencode
  dsimp only at hmore hdata hlayout
  have hstep : writer.writeEncodedHeader versions crc32 encoder = _ :=
    Emits.bind_of_ok hencode _
  refine ⟨moreSizes, header, hresult, hmore, ?_⟩
  dsimp only at hstep
  rw [hstep] at hfile
  by_cases hraw : writer.headerEncryption.isNone ∧
      encodedData.length + 20 ≥ (writer.writeHeader versions).length
  · rw [if_pos hraw] at hlayout hfile
    cases hlayout
    refine Or.inl ⟨by rwa [KeepsRawHeader, ← hdata], rfl, ?_⟩
    rw [hfile]
    simp [Emits.buffered]
  · rw [if_neg hraw] at hlayout hfile
    cases hlayout
    refine Or.inr ⟨encodedData, hdata, rfl, ?_⟩
    rw [hfile]
    simp [Emits.buffered, Emits.put, bind]

theorem decodes_readStreamsInfo_nil (versions : CodecVersions) {bounds : HeaderBounds}
    (hmachine : bounds.bytes < 2 ^ 64) :
    ∃ archive, ReadsStreams versions {} {} [] archive ∧
      Decodes (readStreamsInfo bounds {}) [kSubStreamsInfo, kEnd, kEnd] archive := by
  obtain ⟨archive, ⟨hblocks, hlists⟩, hsub⟩ := @decodes_readSubStreamsInfo bounds
    { blocks := [] } {} [] .nil .nil (Nat.zero_le _) hmachine fun _ => Nat.zero_le _
  obtain ⟨hpos, hsizes⟩ := readSubStreamsInfo_packs (hsub [])
  refine ⟨archive, ⟨hpos, hsizes, hblocks, hlists⟩, ?_⟩
  have hbytes : ([kSubStreamsInfo, kEnd, kEnd] : List UInt8) =
      [kSubStreamsInfo] ++ ([] ++ ([] ++ ((({} : UnpackInfo).writeSubstreamsBody ++ [kEnd]) ++
        []))) := rfl
  rw [hbytes]
  apply (decodes_readU8 kSubStreamsInfo).bind
  apply (Decodes.pure (({} : Archive), kSubStreamsInfo)).bind
  apply (Decodes.pure (({ blocks := [] } : Archive), kSubStreamsInfo)).bind
  apply (optionalSection_decodes hsub kEnd).bind
  exact (Decodes.lift ((Result.rejectIf_eq_ok (u := ())).mpr (not_not.mpr rfl))).bind_nil
    (Decodes.pure _)

theorem decodes_readHeader {bounds : HeaderBounds} {archive : Archive} {info : SubStreamsInfo}
    {files : List ArchiveEntry} {bs : List UInt8}
    (hread : Decodes (readStreamsInfo bounds {}) bs archive) (hmatch : archive.Matches info files)
    (hfits : FitsHeader bounds files) (hnul : ∀ file ∈ files, ∀ c ∈ file.name, c.toNat ≠ 0)
    (hsame : SameEmptyBytes files) :
    ∃ result, calculateStreamMap { archive with files := dealSubStreams info 0 files } =
        .ok result ∧
      Decodes (readHeader bounds {})
        ([kMainStreamsInfo] ++ (bs ++ (writeFilesInfo files ++ [kEnd]))) result := by
  obtain ⟨result, hmap, hfiles⟩ := decodes_readFilesInfo hmatch hfits hnul hsame
  refine ⟨result, hmap, ?_⟩
  have hbytes : [kMainStreamsInfo] ++ (bs ++ (writeFilesInfo files ++ [kEnd])) =
      [kMainStreamsInfo] ++ ([] ++ ((bs ++ [kFilesInfo]) ++
        ((writeFilesInfoBody files ++ [kEnd]) ++ []))) := by
    simp [writeFilesInfo]
  rw [hbytes]
  apply (decodes_readU8 kMainStreamsInfo).bind
  apply (Decodes.pure kMainStreamsInfo).bind
  apply (Decodes.lift ((Result.rejectIf_eq_ok (u := ())).mpr (by decide))).bind_nil
  apply (optionalSection_decodes hread kFilesInfo).bind
  have hfilesOrMap : Decodes (readFilesOrMap bounds kFilesInfo archive)
      (writeFilesInfoBody files ++ [kEnd]) (result, kEnd) := by
    rw [readFilesOrMap, if_pos rfl]
    exact hfiles.bind ((decodes_readU8 kEnd).bind_pure _)
  apply hfilesOrMap.bind
  exact (Decodes.lift ((Result.rejectIf_eq_ok (u := ())).mpr (not_not.mpr rfl))).bind_nil
    (Decodes.pure _)

theorem decodes_readHeader_nil {bounds : HeaderBounds} {files : List ArchiveEntry}
    (hstreams : files.countP ArchiveEntry.hasStream = 0) (hfits : FitsHeader bounds files)
    (hnul : ∀ file ∈ files, ∀ c ∈ file.name, c.toNat ≠ 0) (hsame : SameEmptyBytes files) :
    ∃ archive, archive.packPos = 0 ∧ archive.packSizes = [] ∧ archive.blocks = [] ∧
      Decodes (readHeader bounds {})
        ([kMainStreamsInfo] ++ ([kSubStreamsInfo, kEnd, kEnd] ++ (writeFilesInfo files ++ [kEnd])))
        archive := by
  obtain ⟨archive, ⟨hpos, hsizes, hblocks, info, hinfo, hlists⟩, hread⟩ :=
    @decodes_readStreamsInfo_nil { brotli := 0, zstdMajor := 0, zstdMinor := 0 } bounds
      hfits.machine
  have hblocks : archive.blocks = [] := hblocks
  have hcount : files.length < 2 ^ 64 :=
    Nat.lt_of_le_of_lt hfits.entries bounds.limits.maxEntries.toNat_lt
  have hmatch : archive.Matches info files := by
    refine ⟨hinfo, ?_, ?_, ⟨?_, ?_, ?_, ?_, hcount, ?_⟩⟩
    · rw [hlists.crcs, hstreams]
      rfl
    · rw [hlists.unpackSizes, hstreams]
      rfl
    · rw [hstreams]
      exact congrArg countSubStreams hblocks
    · simp [hblocks, Block.packLens]
    · simp [hblocks]
    · simp [hsizes]
    · simp [hsizes]
  obtain ⟨result, hmap, hheader⟩ := decodes_readHeader hread hmatch hfits hnul hsame
  obtain ⟨-, -, hresult⟩ := calculateStreamMap_eq_ok hmap
  exact ⟨result, by rw [hresult]; exact hpos, by rw [hresult]; exact hsizes,
    by rw [hresult]; exact hblocks, hheader⟩

theorem writeHeader_directory (versions : CodecVersions) {writer : ArchiveWriter}
    {name : List Char} (hpack : writer.packInfo = {}) (hunpack : writer.unpackInfo = {})
    (hfiles : writer.files = [.newDirectory name]) :
    writer.writeHeader versions = kHeader :: ([kMainStreamsInfo] ++
      ([kSubStreamsInfo, kEnd, kEnd] ++ (writeFilesInfo [.newDirectory name] ++ [kEnd]))) := by
  rw [writeHeader, writeStreamsInfo, hpack, hunpack, hfiles]
  rfl

theorem writeFilesInfo_directory (name : List Char) :
    (writeFilesInfo [.newDirectory name]).length =
      10 + (writeNumber (2 * ((encodeUtf16 name).length + 1) + 1)).length +
        2 * (encodeUtf16 name).length := by
  have hstream : writeFileEmptyStreams [.newDirectory name] =
      kEmptyStream :: (writeNumber 1 ++ [0x80]) := by
    have hbits : writeBitSet (BitSet.ofBits [true]) = [0x80] := by decide
    exact congrArg (writeProperty kEmptyStream) hbits
  have hkinds : writeFileEmptyFiles [.newDirectory name] = [] ∧
      writeFileAntiItems [.newDirectory name] = [] := ⟨rfl, rfl⟩
  have htimes : writeFileCtimes [.newDirectory name] = [] ∧
      writeFileAtimes [.newDirectory name] = [] ∧ writeFileMtimes [.newDirectory name] = [] ∧
        writeFileWindowsAttrs [.newDirectory name] = [] := ⟨rfl, rfl, rfl, rfl⟩
  have hshape : writeFilesInfo [.newDirectory name] = kFilesInfo :: (writeNumber 1 ++
      ((kEmptyStream :: (writeNumber 1 ++ [0x80])) ++
        (writeFileNames [.newDirectory name] ++ [kEnd]))) := by
    rw [writeFilesInfo, writeFilesInfoBody, writeFileProperties, hstream, hkinds.1, hkinds.2,
      htimes.1, htimes.2.1, htimes.2.2.1, htimes.2.2.2]
    rfl
  have hnumber : (writeNumber 1).length = 1 := by decide
  have hunits := flatMap_names_length [.newDirectory name]
  have hsum : ([ArchiveEntry.newDirectory name].map nameUnits).sum =
      (encodeUtf16 name).length + 1 := rfl
  rw [hsum] at hunits
  rw [hshape, writeFileNames, writeProperty, List.length_cons, List.length_cons, hunits]
  simp only [List.length_append, List.length_cons, List.length_nil, hnumber, hunits]
  omega

end ArchiveWriter

def copyingAll (file : List UInt8) : Codecs :=
  { Codecs.copying file with refuses := fun _ _ => none }

theorem copied_stackOf (file : List UInt8) (stages : List Stage) (source : Decoder) :
    Codecs.copied file (stackOf stages source) = Codecs.copied file source := by
  induction stages with
  | nil => rfl
  | cons stage stages ih => exact ih

theorem copyingAll_undo_of_bytes (file : List UInt8) (versions : CodecVersions)
    {encoder : ContentEncoder} {methods : List EncoderConfiguration}
    (hbytes : ∀ data, (encoder.encodeHeader methods data).bytes = data)
    (hcounts : ∀ data moreSizes, (encoder.encodeHeader methods data).result = .ok moreSizes →
      moreSizes.length + 1 = methods.length) :
    (copyingAll file).Undo file versions encoder methods where
  accepts _ _ _ _ _ := rfl
  counts := hcounts
  restores := by
    intro data moreSizes start stages hmore hlies hstages
    have hcopied : Codecs.copied file (stackOf stages.reverse
        (.pack 0 start (encoder.encodeHeader methods data).bytes.length)) = data := by
      rw [copied_stackOf]
      exact hlies.trans (hbytes data)
    change (Stream.ofContent (Codecs.copied file _)).Delivers data
    rw [hcopied]
    exact Stream.ofContent_delivers data

theorem copyingAll_undo (file : List UInt8) (versions : CodecVersions)
    (mc : EncoderConfiguration) : (copyingAll file).Undo file versions copyEncoder [mc] := by
  apply copyingAll_undo_of_bytes
  · exact List.append_nil
  · rintro data _ ⟨⟩
    rfl

theorem ArchiveWriter.writeEncodedHeader_copy {writer : ArchiveWriter} (versions : CodecVersions)
    (crc32 : List UInt8 → UInt32) (h : writer.headerEncryption = none) :
    writer.writeEncodedHeader versions crc32 copyEncoder =
      { bytes := [], result := .ok (writer.writeHeader versions) } := by
  have hencode : (copyEncoder.encodeHeader writer.headerMethods
      (writer.writeHeader versions)).buffered.result =
        .ok ([], writer.writeHeader versions ++ []) := rfl
  have hlong : writer.headerEncryption.isNone ∧ (writer.writeHeader versions ++ []).length + 20 ≥
      (writer.writeHeader versions).length := by
    rw [h, List.append_nil]
    exact ⟨rfl, Nat.le_add_right _ _⟩
  rw [writeEncodedHeader]
  refine (Emits.bind_of_ok hencode _).trans ?_
  dsimp only
  rw [if_pos hlong]
  rfl

theorem ArchiveWriter.finish_copy {writer : ArchiveWriter} (versions : CodecVersions)
    (crc32 : List UInt8 → UInt32) (h : writer.headerEncryption = none) :
    writer.finish versions crc32 copyEncoder = .ok (archiveFile crc32
      (writer.output.drop signatureHeaderSize) (writer.writeHeader versions)) := by
  rw [finish, writer.writeEncodedHeader_copy versions crc32 h]
  exact (Result.bind_of_ok rfl).trans (by rw [List.append_nil]; rfl)

def ArchiveLimits.unlimited : ArchiveLimits where
  memoryLimitBytes := 0xFFFFFFFFFFFFFFFF
  maxEndHeaderBytes := 0xFFFFFFFFFFFFFFFF
  maxHeaderUnpackedBytes := 0xFFFFFFFFFFFFFFFF
  maxHeaderDepth := 0xFF
  maxEntries := 0xFFFFFFFFFFFFFFFF
  maxNameBytes := 0xFFFFFFFFFFFFFFFF
  maxTotalNameBytes := 0xFFFFFFFFFFFFFFFF
  maxCodersPerBlock := 0xFFFFFFFFFFFFFFFF
  maxStreamsPerCoder := 0xFFFFFFFFFFFFFFFF
  maxTotalCoders := 0xFFFFFFFFFFFFFFFF
  maxUnpackBytes := 0xFFFFFFFFFFFFFFFF
  maxUnpackRatio := 0xFFFFFFFFFFFFFFFF
  maxAesCyclesPower := 63
  maxAesKdfRounds := 0xFFFFFFFFFFFFFFFF
  rejectUnsafePaths := false

def directoryWriter (name : List Char) : ArchiveWriter :=
  { ArchiveWriter.new with files := [.newDirectory name] }

def directoryHeader (name : List Char) : List UInt8 :=
  [kMainStreamsInfo] ++
    ([kSubStreamsInfo, kEnd, kEnd] ++ (writeFilesInfo [.newDirectory name] ++ [kEnd]))

section

variable {name : List Char}

theorem directoryWriter_writeHeader (versions : CodecVersions) (name : List Char) :
    (directoryWriter name).writeHeader versions = kHeader :: directoryHeader name :=
  ArchiveWriter.writeHeader_directory versions rfl rfl rfl

theorem directoryHeader_length (hname : (encodeUtf16 name).length = 2147483638) :
    (directoryHeader name).length = 2 ^ 32 := by
  have hnumber : (writeNumber (2 * (2147483638 + 1) + 1)).length = 5 := by decide +kernel
  rw [directoryHeader, List.length_append, List.length_append, List.length_append,
    ArchiveWriter.writeFilesInfo_directory, hname, hnumber]
  rfl

theorem nameUnits_directory (name : List Char) :
    ([ArchiveEntry.newDirectory name].map nameUnits).sum = (encodeUtf16 name).length + 1 := rfl

theorem directoryHeader_fits (hname : (encodeUtf16 name).length = 2147483638) :
    FitsHeader { bytes := (directoryHeader name).length, limits := .unlimited }
      [.newDirectory name] := by
  have htotal := directoryHeader_length hname
  have hmax : (0xFFFFFFFFFFFFFFFF : UInt64).toNat = 18446744073709551615 := rfl
  refine ⟨?_, ?_, ⟨?_, ?_⟩, ?_⟩
  · rw [directoryHeader, writeFilesInfo]
    simp only [List.length_append, List.length_cons]
    omega
  · rw [htotal]
    decide
  · intro file hfile
    obtain rfl := List.mem_singleton.mp hfile
    change 2 * (encodeUtf16 name).length ≤ (0xFFFFFFFFFFFFFFFF : UInt64).toNat
    omega
  · change 2 * ([ArchiveEntry.newDirectory name].map nameUnits).sum + 1 ≤
      (0xFFFFFFFFFFFFFFFF : UInt64).toNat
    rw [nameUnits_directory]
    omega
  · exact Nat.le_of_ble_eq_true rfl

theorem directoryWriter_parses (hname : (encodeUtf16 name).length = 2147483638)
    (hnul : ∀ c ∈ name, c.toNat ≠ 0) {fileLen : Nat} (hlen : signatureHeaderSize ≤ fileLen) :
    ∃ archive, archiveOf .unlimited fileLen
      (readU8 ((directoryWriter name).writeHeader anyVersions)) = .ok archive := by
  have hnul : ∀ file ∈ [ArchiveEntry.newDirectory name], ∀ c ∈ file.name, c.toNat ≠ 0 := by
    intro file hfile
    obtain rfl := List.mem_singleton.mp hfile
    exact hnul
  obtain ⟨archive, hpos, hsizes, hblocks, hread⟩ := ArchiveWriter.decodes_readHeader_nil rfl
    (directoryHeader_fits hname) hnul ⟨.inl rfl, .inl rfl⟩
  have hparse : parseHeader .unlimited kHeader (directoryHeader name) = .ok archive := by
    have := hread []
    rw [List.append_nil] at this
    rw [parseHeader, Result.bind_of_ok ((Result.rejectIf_eq_ok (u := ())).mpr (by decide)),
      Result.bind_of_ok ((Result.rejectIf_eq_ok (u := ())).mpr (by decide))]
    exact Result.bind_of_ok this
  have hrange : checkPackRange fileLen archive = .ok 0 := by
    have hstart : packStart archive = some signatureHeaderSize := by
      rw [packStart, hpos]
      rfl
    rw [checkPackRange, hsizes, hstart]
    exact (Result.bind_of_ok rfl).trans ((Result.bind_of_ok rfl).trans
      (Result.bind_of_ok ((Result.rejectIf_eq_ok (u := ())).mpr (Nat.not_lt.mpr hlen))))
  refine ⟨{ archive with isSolid := archive.blocks.any fun block =>
    block.numUnpackSubStreams > 1 }, ?_⟩
  have hfirst : readU8 (kHeader :: directoryHeader name) = .ok (kHeader, directoryHeader name) :=
    rfl
  rw [directoryWriter_writeHeader, archiveOf, hfirst]
  refine (Result.bind_of_ok rfl).trans ((Result.bind_of_ok hparse).trans ?_)
  rw [checkArchive, Result.bind_of_ok hrange, hblocks]
  rfl

end

theorem ArchiveWriter.headerWithinLimits_copy {writer : ArchiveWriter} {versions : CodecVersions}
    {limits : ArchiveLimits} (crc32 : List UInt8 → UInt32) (h : writer.headerEncryption = none)
    (hcap : (writer.writeHeader versions).length ≤ limits.maxEndHeaderBytes.toNat)
    (hencoded : limits.AllowsEncodedHeader versions writer.headerMethods
      (writer.writeHeader versions).length) :
    writer.HeaderWithinLimits versions crc32 copyEncoder limits := by
  refine ⟨?_, hencoded⟩
  intro header hheader
  rw [writer.writeEncodedHeader_copy versions crc32 h] at hheader
  cases hheader
  exact hcap

namespace ArchiveWriter

theorem readWithLimits_encodedHeader {versions : CodecVersions} {writer : ArchiveWriter}
    {codecs : Codecs} {encoder : ContentEncoder} {limits : ArchiveLimits} {passwordGiven : Bool}
    {encodedData header file : List UInt8} {moreSizes : List UInt64}
    (hmore : (encoder.encodeHeader writer.headerMethods (writer.writeHeader versions)).result =
      .ok moreSizes)
    (hdata : encodedData =
      (encoder.encodeHeader writer.headerMethods (writer.writeHeader versions)).bytes)
    (hheader : header = kEncodedHeader ::
      (writer.headerStreams versions codecs.crc32 encodedData moreSizes).bytes versions)
    (hlayout : file = archiveFile codecs.crc32
      (writer.output.drop signatureHeaderSize ++ encodedData) header)
    (hfile : file.length < 2 ^ 64)
    (hundo : codecs.Undo file versions encoder writer.headerMethods)
    (hcap : header.length ≤ limits.maxEndHeaderBytes.toNat)
    (hencoded : limits.AllowsEncodedHeader versions writer.headerMethods
      (writer.writeHeader versions).length)
    (hrounds : (writer.writeHeader versions).length < codecs.rounds) :
    readWithLimits codecs limits passwordGiven file =
      archiveOf limits file.length (readU8 (writer.writeHeader versions)) := by
  subst hheader hlayout
  have hcounts := hundo.counts _ _ hmore
  have hmethods := writer.headerMethods_length
  have hlength := EncodedStreams.bytes_length_le versions
    (writer.headerStreams versions codecs.crc32 encodedData moreSizes)
  have hsizes : (writer.headerStreams versions codecs.crc32 encodedData moreSizes).sizes.length =
      writer.headerMethods.length := by
    rw [← hcounts]
    exact List.length_append
  have hshort : (kEncodedHeader :: (writer.headerStreams versions codecs.crc32 encodedData
      moreSizes).bytes versions).length < 2 ^ 32 := by
    rw [hsizes] at hlength
    change _ ≤ 80 + 151 * writer.headerMethods.length + _ at hlength
    rw [List.length_cons]
    omega
  have htotal := hfile
  rw [archiveFile_length, List.length_append, List.length_drop] at htotal
  have hpos : (writer.headerStreams versions codecs.crc32 encodedData moreSizes).pos.toNat =
      writer.output.length - signatureHeaderSize :=
    UInt64.toNat_ofNat_of_lt' (show _ < 2 ^ 64 by omega)
  have hpack : (writer.headerStreams versions codecs.crc32 encodedData
      moreSizes).packSize.toNat = encodedData.length :=
    UInt64.toNat_ofNat_of_lt' (show _ < 2 ^ 64 by omega)
  rw [readWithLimits_endHeader hfile (List.cons_ne_nil _ _) hshort hcap]
  apply congrArg (archiveOf limits _)
  apply EncodedStreams.openHeader_bytes versions passwordGiven writer.headerMethods_ne hsizes
    List.getLast?_concat _ _ hencoded hundo.accepts _ hrounds
  · rw [List.length_cons] at hshort
    omega
  · rw [hpos]
    omega
  · have hstages := (EncodedStreams.block_records versions
      (writer.headerStreams versions codecs.crc32 encodedData moreSizes)).stages
        hsizes.symm
    have hlies := archiveFile_slice codecs.crc32 (writer.output.drop signatureHeaderSize)
      encodedData (kEncodedHeader ::
        (writer.headerStreams versions codecs.crc32 encodedData moreSizes).bytes versions)
    rw [List.length_drop] at hlies
    have hdelivers := hundo.restores _ _ (signatureHeaderSize +
      (writer.output.length - signatureHeaderSize)) _ hmore (by rwa [← hdata]) hstages
    rw [← hdata] at hdelivers
    rw [hpos, hpack]
    exact hdelivers

/-- Where the raw header is kept only below 4 GiB, the file leads the reader back to the bytes of
`write_header`, in each layout. -/
theorem readWithLimits_finish {versions : CodecVersions} {writer : ArchiveWriter}
    {codecs : Codecs} {encoder : ContentEncoder} {limits : ArchiveLimits} {passwordGiven : Bool}
    {file : List UInt8} (hfinish : writer.finish versions codecs.crc32 encoder = .ok file)
    (hfile : file.length < 2 ^ 64)
    (hundo : codecs.Undo file versions encoder writer.headerMethods)
    (hlimits : writer.HeaderWithinLimits versions codecs.crc32 encoder limits)
    (hrounds : (writer.writeHeader versions).length < codecs.rounds)
    (hraw : writer.KeepsRawHeader versions encoder →
      (writer.writeHeader versions).length < 2 ^ 32) :
    readWithLimits codecs limits passwordGiven file =
      archiveOf limits file.length (readU8 (writer.writeHeader versions)) := by
  obtain ⟨moreSizes, header, hresult, hmore, hlayout⟩ := finish_cases hfinish
  have hcap := hlimits.endHeader header hresult
  obtain ⟨hkeeps, rfl, rfl⟩ | ⟨encodedData, hdata, rfl, rfl⟩ := hlayout
  · rw [readWithLimits_endHeader hfile (List.cons_ne_nil _ _) (hraw hkeeps) hcap]
    rfl
  · exact readWithLimits_encodedHeader hmore hdata rfl rfl hfile hundo hcap hlimits.encoded hrounds

end ArchiveWriter

def copyTwice : ContentEncoder where
  State := Nat
  create _ := pure 0
  writeAll buf count := { bytes := buf, result := .ok (count + buf.length) }
  flush count := pure count
  writeEnd count := pure count
  moreSizes count := [UInt64.ofNat count]

theorem copyingAll_undo_copyTwice (file : List UInt8) (versions : CodecVersions)
    (mc mc' : EncoderConfiguration) :
    (copyingAll file).Undo file versions copyTwice [mc, mc'] := by
  apply copyingAll_undo_of_bytes
  · exact List.append_nil
  · rintro data _ ⟨⟩
    rfl

def aesConfiguration : EncoderConfiguration where
  method := .aes256Sha256
  options := some (.aes
    { password := [0x61, 0x00], iv := Vector.replicate 16 0, salt := Vector.replicate 16 0
      numCyclesPower := 8 })

def encryptedPushes : List Push := [onePush 'a' [.ok [7]], .contentMethods [aesConfiguration]]

/-- The header of the first file is stored raw, that of the second encoded. -/
theorem readWithLimits_finish_onePush :
    (∃ file,
      (sessionAfter [onePush 'a' [.ok [7]]]).writer.finish anyVersions crc32 copyEncoder =
          .ok file ∧
        readWithLimits (copyingAll file) {} false file = archiveOf {} file.length
          (readU8 ((sessionAfter [onePush 'a' [.ok [7]]]).writer.writeHeader anyVersions))) ∧
    ∃ file, (sessionAfter encryptedPushes).writer.finish anyVersions crc32 copyTwice = .ok file ∧
      readWithLimits (copyingAll file) {} true file = archiveOf {} file.length
        (readU8 ((sessionAfter encryptedPushes).writer.writeHeader anyVersions)) := by
  constructor
  · have hfinish := (sessionAfter [onePush 'a' [.ok [7]]]).writer.finish_copy anyVersions crc32 rfl
    refine ⟨_, hfinish, ArchiveWriter.readWithLimits_finish hfinish (by decide +kernel)
      (copyingAll_undo _ _ _) (ArchiveWriter.headerWithinLimits_copy crc32 rfl (by decide +kernel)
        ⟨by decide, by decide +kernel, by constructor <;> decide +kernel, by decide +kernel, rfl⟩)
      ?_ fun _ => by decide +kernel⟩
    decide +kernel
  · have hfile : ((sessionAfter encryptedPushes).writer.finish anyVersions crc32 copyTwice).holds
        (fun file => decide (file.length < 2 ^ 64 ∧
          ((sessionAfter encryptedPushes).writer.writeHeader anyVersions).length <
            (copyingAll file).rounds)) = true := by
      decide +kernel
    obtain ⟨file, hfinish, hlength⟩ := Result.exists_of_holds hfile
    obtain ⟨hlength, hrounds⟩ := of_decide_eq_true hlength
    have hheader : Result.holds
        (fun header => decide (header.length ≤ ({} : ArchiveLimits).maxEndHeaderBytes.toNat))
        ((sessionAfter encryptedPushes).writer.writeEncodedHeader anyVersions crc32
          copyTwice).result = true := by
      decide +kernel
    refine ⟨file, hfinish, ArchiveWriter.readWithLimits_finish hfinish hlength
      (copyingAll_undo_copyTwice _ _ _ _) ⟨?_, ?_⟩ hrounds fun _ => by decide +kernel⟩
    · intro header hresult
      obtain ⟨header', hresult', hle⟩ := Result.exists_of_holds hheader
      cases hresult.symm.trans hresult'
      exact of_decide_eq_true hle
    · exact ⟨by decide, by decide +kernel, by constructor <;> decide +kernel, by decide +kernel,
        by decide +kernel⟩

def directoryPush (name : List Char) : Push := .archiveEntry copyEncoder (.newDirectory name) none

theorem run_directoryPush (name : List Char) :
    run (Session.step crc32) {} [directoryPush name] =
      some { writer := directoryWriter name } := rfl

theorem readWithLimits_directory_ne_ok {name : List Char}
    (hname : (encodeUtf16 name).length = 2147483638) {codecs : Codecs} (passwordGiven : Bool)
    (archive : Archive) :
    readWithLimits codecs .unlimited passwordGiven
      (archiveFile codecs.crc32 [] ((directoryWriter name).writeHeader anyVersions)) ≠
        .ok archive := by
  intro hread
  have hlength : ((directoryWriter name).writeHeader anyVersions).length = 2 ^ 32 + 1 := by
    rw [directoryWriter_writeHeader, List.length_cons, directoryHeader_length hname]
  have hfile := archiveFile_length codecs.crc32 [] ((directoryWriter name).writeHeader anyVersions)
  have hone : ((directoryWriter name).writeHeader anyVersions).length % 2 ^ 32 = 1 := by omega
  have hmax : (0xFFFFFFFFFFFFFFFF : UInt64).toNat = 18446744073709551615 := rfl
  have hsize : signatureHeaderSize = 32 := rfl
  rw [hlength, hsize, List.length_nil] at hfile
  rw [readWithLimits_archiveFile (by decide) (by rw [hone]; decide), hone] at hread
  obtain ⟨buf, hload, hread⟩ := Result.bind_eq_ok.mp hread
  have hstart := @loadEndHeader_archiveFile codecs .unlimited []
    ((directoryWriter name).writeHeader anyVersions) 1 (by omega) (by decide) (by omega)
    (codecs.crc32 ((directoryWriter name).writeHeader anyVersions)).toNat
  have hbuf : buf = [kHeader] := by
    rw [hstart] at hload
    split at hload
    · cases hload
    · cases hload
      rw [directoryWriter_writeHeader]
      rfl
  subst hbuf
  have hopen : openHeader codecs .unlimited passwordGiven [kHeader] = .ok (kHeader, []) := rfl
  rw [Result.bind_of_ok hopen] at hread
  obtain ⟨parsed, hparse, -⟩ := Result.bind_eq_ok.mp hread
  cases hparse

def longName : List Char := List.replicate 2147483638 'a'

theorem encodeUtf16_replicate (n : Nat) :
    (encodeUtf16 (List.replicate n 'a')).length = n := by
  induction n with
  | zero => rfl
  | succ n ih =>
      rw [List.replicate_succ, encodeUtf16, List.flatMap_cons, List.length_append]
      change 1 + (encodeUtf16 (List.replicate n 'a')).length = _
      rw [ih, Nat.add_comm]

theorem directoryWriter_misread {name : List Char}
    (hname : (encodeUtf16 name).length = 2147483638) (hnul : ∀ c ∈ name, c.toNat ≠ 0) :
    ∃ file archive, (directoryWriter name).finish anyVersions crc32 copyEncoder = .ok file ∧
      file.length < 2 ^ 64 ∧
      (copyingAll file).Undo file anyVersions copyEncoder (directoryWriter name).headerMethods ∧
      (directoryWriter name).HeaderWithinLimits anyVersions crc32 copyEncoder .unlimited ∧
      ((directoryWriter name).writeHeader anyVersions).length < (copyingAll file).rounds ∧
      archiveOf .unlimited file.length
        (readU8 ((directoryWriter name).writeHeader anyVersions)) = .ok archive ∧
      readWithLimits (copyingAll file) .unlimited false file ≠ .ok archive := by
  have hlength : ((directoryWriter name).writeHeader anyVersions).length = 2 ^ 32 + 1 := by
    rw [directoryWriter_writeHeader, List.length_cons, directoryHeader_length hname]
  have hmax : (0xFFFFFFFFFFFFFFFF : UInt64).toNat = 18446744073709551615 := rfl
  have hsize : signatureHeaderSize = 32 := rfl
  have hfile := archiveFile_length crc32 [] ((directoryWriter name).writeHeader anyVersions)
  rw [hlength, hsize, List.length_nil] at hfile
  obtain ⟨archive, hparse⟩ := directoryWriter_parses hname hnul
    (show signatureHeaderSize ≤
      (archiveFile crc32 [] ((directoryWriter name).writeHeader anyVersions)).length by omega)
  refine ⟨_, archive, (directoryWriter name).finish_copy anyVersions crc32 rfl, ?_,
    copyingAll_undo _ _ _, ArchiveWriter.headerWithinLimits_copy crc32 rfl ?_ ⟨?_, ?_, ?_, ?_, ?_⟩,
    ?_, hparse, readWithLimits_directory_ne_ok hname false archive⟩
  · change (archiveFile crc32 [] _).length < _
    omega
  · change _ ≤ (0xFFFFFFFFFFFFFFFF : UInt64).toNat
    omega
  · decide
  · change _ ≤ (0xFFFFFFFFFFFFFFFF : UInt64).toNat
    omega
  · constructor <;> exact Nat.le_of_ble_eq_true rfl
  · exact Nat.le_of_ble_eq_true rfl
  · rfl
  · change _ < (archiveFile crc32 [] _).length + 1
    omega

theorem longName_notReadBack : ∃ session file archive,
    run (Session.step crc32) {} [directoryPush longName] = some session ∧
      session.writer.finish anyVersions crc32 copyEncoder = .ok file ∧ file.length < 2 ^ 64 ∧
      (copyingAll file).Undo file anyVersions copyEncoder session.writer.headerMethods ∧
      session.writer.HeaderWithinLimits anyVersions crc32 copyEncoder .unlimited ∧
      (session.writer.writeHeader anyVersions).length < (copyingAll file).rounds ∧
      archiveOf .unlimited file.length (readU8 (session.writer.writeHeader anyVersions)) =
        .ok archive ∧
      readWithLimits (copyingAll file) .unlimited false file ≠ .ok archive := by
  have hnul : ∀ c ∈ longName, c.toNat ≠ 0 := by
    intro c hc
    rw [List.eq_of_mem_replicate hc]
    decide
  obtain ⟨file, archive, h⟩ := directoryWriter_misread (encodeUtf16_replicate _) hnul
  exact ⟨_, file, archive, run_directoryPush longName, h⟩

end Sevenz
