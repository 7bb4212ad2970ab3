import Sevenz.Writer.Finish

/-!
# The archive a header is read back into

The header that a writer ends a file with, against the reader: the streams sections with their
blocks, the files, and what is checked of them.
-/

namespace Sevenz

open Lib Lib.Parser

namespace ArchiveWriter

/-- A writer with these sub-streams in its blocks, whose header the reader can make out. -/
structure Legible (writer : ArchiveWriter) (streams : List (List SubStream)) : Prop where
  pos : writer.packInfo.pos = 0
  packs : writer.packInfo.len = writer.unpackInfo.blocks.length
  crcs : writer.packInfo.CrcsAlike
  methods : ∀ block ∈ writer.unpackInfo.blocks, block.methods ≠ []
  sizes : ∀ block ∈ writer.unpackInfo.blocks, block.sizes.length = block.methods.length
  added : List.Forall₂ BlockInfo.Added writer.unpackInfo.blocks streams
  streamed : writer.files.countP ArchiveEntry.hasStream = streams.flatten.length
  emptyBytes : SameEmptyBytes writer.files
  names : ∀ file ∈ writer.files, ∀ c ∈ file.name, c.toNat ≠ 0

structure WithinLimits (versions : CodecVersions) (limits : ArchiveLimits)
    (writer : ArchiveWriter) : Prop where
  blocks : writer.unpackInfo.WithinLimits limits
  name : ∀ file ∈ writer.files, 2 * (encodeUtf16 file.name).length ≤ limits.maxNameBytes.toNat
  names : 2 * (writer.files.map nameUnits).sum + 1 ≤ limits.maxTotalNameBytes.toNat
  entries : writer.files.length ≤ limits.maxEntries.toNat
  unpacked : checkUnpackLimits limits
    { blocks := writer.unpackInfo.blocks.map (BlockInfo.block versions) }
    (writer.packInfo.sizes.map UInt64.toNat).sum = .ok ()
  paths : checkUnsafePaths limits writer.files = .ok ()
  aesCoders : ∀ block ∈ writer.unpackInfo.blocks,
    checkAesCoders limits (block.methods.map (EncoderConfiguration.coder versions)) = .ok ()

/-- The file goes by the same name, has a stream where the entry does, and is a directory where
the entry is one without a stream. -/
def SameFile (file file' : ArchiveEntry) : Prop :=
  file'.name = file.name ∧ file'.hasStream = file.hasStream ∧
    file'.isDirectory = (!file.hasStream && file.isDirectory)

/-- What is read back: the streams sections, and the files as far as their names and kinds. -/
structure ReadsArchive (versions : CodecVersions) (writer : ArchiveWriter)
    (streams : List (List SubStream)) (archive : Archive) : Prop
    extends ReadsStreams versions writer.packInfo writer.unpackInfo streams archive where
  files : List.Forall₂ SameFile writer.files archive.files

variable {versions : CodecVersions} {writer : ArchiveWriter} {streams : List (List SubStream)}
  {limits : ArchiveLimits}

theorem Legible.decodes_writeStreamsInfo (h : writer.Legible streams) {bounds : HeaderBounds}
    (hwithin : writer.unpackInfo.WithinLimits bounds.limits)
    (hentries : streams.flatten.length ≤ bounds.limits.maxEntries.toNat)
    (hbytes : (writer.writeStreamsInfo versions).length ≤ bounds.bytes)
    (hmachine : bounds.bytes < 2 ^ 64) :
    ∃ archive, ReadsStreams versions writer.packInfo writer.unpackInfo streams archive ∧
      Decodes (readStreamsInfo bounds {}) (writer.writeStreamsInfo versions) archive := by
  unfold writeStreamsInfo at hbytes ⊢
  by_cases hpos : writer.packInfo.len > 0
  · rw [if_pos hpos, List.append_assoc] at hbytes ⊢
    exact decodes_readStreamsInfo versions hpos h.crcs (Nat.le_of_eq h.packs) h.methods h.sizes
      h.added hwithin (fun _ => hentries) hbytes hmachine
  · have hlen : writer.packInfo.len = 0 := Nat.eq_zero_of_not_pos hpos
    have hsizes : writer.packInfo.sizes = [] := List.eq_nil_of_length_eq_zero hlen
    have hblocks : writer.unpackInfo.blocks = [] :=
      List.eq_nil_of_length_eq_zero (h.packs.symm.trans hlen)
    have hstreams : streams = [] := by
      have hadded := h.added
      rw [hblocks] at hadded
      exact List.forall₂_nil_left_iff.mp hadded
    have hunpack : writer.unpackInfo = {} := by
      cases hinfo : writer.unpackInfo
      rw [hinfo] at hblocks
      exact congrArg UnpackInfo.mk hblocks
    obtain ⟨archive, hread, hdecodes⟩ := @decodes_readStreamsInfo_nil versions bounds hmachine
    rw [if_neg hpos, hunpack, hstreams]
    exact ⟨archive, ⟨hread.packPos.trans h.pos.symm, hread.packSizes.trans hsizes.symm,
      hread.blocks, hread.subStreamsInfo⟩, hdecodes⟩

theorem sameFile_dealSubStreams (info : SubStreamsInfo) (j : Nat) {files files' : List ArchiveEntry}
    (h : List.Forall₂ ArchiveEntry.SameEntry (dealSubStreams info j files) files') :
    List.Forall₂ SameFile files files' := by
  induction files generalizing j files' with
  | nil =>
      cases h
      exact .nil
  | cons file files ih =>
      rw [dealSubStreams] at h
      cases hstream : file.hasStream with
      | true =>
          rw [hstream, if_pos rfl] at h
          cases h with
          | cons hsame h =>
              refine .cons ?_ (ih (j + 1) h)
              rw [hsame]
              exact ⟨rfl, hstream.symm, by rw [hstream]; rfl⟩
      | false =>
          rw [hstream, if_neg Bool.false_ne_true] at h
          cases h with
          | cons hsame h =>
              refine .cons ?_ (ih j h)
              rw [hsame]
              exact ⟨rfl, hstream.symm, by rw [hstream]; rfl⟩

theorem subStreamCounts_withCount {blocks : List Block} {streams : List (List SubStream)}
    (hlength : blocks.length = streams.length) :
    Block.subStreamCounts (List.zipWith withCount blocks streams) = streams.map List.length := by
  induction blocks generalizing streams with
  | nil =>
      rw [List.eq_nil_of_length_eq_zero hlength.symm]
      rfl
  | cons block blocks ih =>
      cases streams with
      | nil => cases hlength
      | cons ss streams => exact congrArg (ss.length :: ·) (ih (Nat.succ.inj hlength))

theorem map_withCount {β : Type} {f : Block → β}
    (hf : ∀ block streams, f (withCount block streams) = f block) {blocks : List Block}
    {streams : List (List SubStream)} (hlength : blocks.length = streams.length) :
    (List.zipWith withCount blocks streams).map f = blocks.map f := by
  induction blocks generalizing streams with
  | nil => rfl
  | cons block blocks ih =>
      cases streams with
      | nil => cases hlength
      | cons ss streams =>
          rw [List.zipWith_cons_cons, List.map_cons, List.map_cons, hf, ih (Nat.succ.inj hlength)]

theorem sumUnpackSizes_withCount {blocks : List Block} {streams : List (List SubStream)}
    (hlength : blocks.length = streams.length) (total : Nat) :
    sumUnpackSizes (List.zipWith withCount blocks streams) total = sumUnpackSizes blocks total := by
  induction blocks generalizing streams total with
  | nil => rfl
  | cons block blocks ih =>
      cases streams with
      | nil => cases hlength
      | cons ss streams =>
          rw [List.zipWith_cons_cons, sumUnpackSizes, sumUnpackSizes, getUnpackSize_withCount]
          simp only [ih (Nat.succ.inj hlength)]

theorem packLens_chain (infos : List BlockInfo) :
    Block.packLens (infos.map (BlockInfo.block versions)) = List.replicate infos.length 1 := by
  rw [Block.packLens, List.map_map]
  exact List.map_const' ..

theorem Legible.matches (h : writer.Legible streams) (hlimits : writer.WithinLimits versions limits)
    (hpacked : (writer.packInfo.sizes.map UInt64.toNat).sum < 2 ^ 64) {archive : Archive}
    (hread : ReadsStreams versions writer.packInfo writer.unpackInfo streams archive)
    {info : SubStreamsInfo} (hinfo : archive.subStreamsInfo = some info)
    (hlists : info.Lists streams.flatten) : archive.Matches info writer.files := by
  have hlength : (writer.unpackInfo.blocks.map (BlockInfo.block versions)).length =
      streams.length := by
    rw [List.length_map, h.added.length_eq]
  have hcount : archive.packSizes.length = writer.unpackInfo.blocks.length := by
    rw [hread.packSizes]
    exact h.packs
  have hentries := limits.maxEntries.toNat_lt
  have hblocks := hlimits.blocks.blocks
  have hfiles := hlimits.entries
  have hpackLens : Block.packLens archive.blocks =
      List.replicate writer.unpackInfo.blocks.length 1 := by
    rw [hread.blocks, ← @packLens_chain versions]
    exact map_withCount (fun _ _ => rfl) hlength
  refine ⟨hinfo, ?_, ?_, ⟨?_, ?_, ?_, ?_, ?_, ?_⟩⟩
  · rw [hlists.crcs, List.length_map, h.streamed]
  · rw [hlists.unpackSizes, List.length_map, h.streamed]
  · dsimp only
    rw [countSubStreams, h.streamed, hread.blocks, List.length_flatten]
    exact congrArg List.sum (subStreamCounts_withCount hlength)
  · dsimp only
    rw [hpackLens, hcount, List.sum_replicate_nat, Nat.mul_one]
  · intro block hblock _
    have hlen : block.packedStreams.length ∈ Block.packLens archive.blocks :=
      List.mem_map_of_mem hblock
    rw [hpackLens] at hlen
    exact List.ne_nil_of_length_pos (List.eq_of_mem_replicate hlen ▸ Nat.one_pos)
  · dsimp only
    omega
  · dsimp only
    omega
  · dsimp only
    rw [hread.packSizes]
    exact hpacked

theorem Legible.parseHeader_writeHeader (h : writer.Legible streams)
    (hlimits : writer.WithinLimits versions limits)
    (hmachine : (writer.writeHeader versions).length < 2 ^ 64)
    (hpacked : (writer.packInfo.sizes.map UInt64.toNat).sum < 2 ^ 64) :
    ∃ archive, parseHeader limits kHeader ([kMainStreamsInfo] ++
        (writer.writeStreamsInfo versions ++ (writeFilesInfo writer.files ++ [kEnd]))) =
          .ok archive ∧ writer.ReadsArchive versions streams archive := by
  have hheader : writer.writeHeader versions = kHeader :: ([kMainStreamsInfo] ++
      (writer.writeStreamsInfo versions ++ (writeFilesInfo writer.files ++ [kEnd]))) := rfl
  rw [hheader, List.length_cons] at hmachine
  generalize hheader : [kMainStreamsInfo] ++ (writer.writeStreamsInfo versions ++
    (writeFilesInfo writer.files ++ [kEnd])) = header at hmachine ⊢
  have hlength := congrArg List.length hheader
  simp only [List.length_append, List.length_cons, writeFilesInfo] at hlength
  have hstreamed : streams.flatten.length ≤ limits.maxEntries.toNat := by
    rw [← h.streamed]
    exact Nat.le_trans List.countP_le_length hlimits.entries
  obtain ⟨archive, hread, hdecodes⟩ := @decodes_writeStreamsInfo versions writer streams h
    { bytes := header.length, limits } hlimits.blocks hstreamed (by dsimp only; omega)
    (by dsimp only; omega)
  obtain ⟨info, hinfo, hlists⟩ := hread.subStreamsInfo
  have hfits : FitsHeader { bytes := header.length, limits } writer.files :=
    ⟨by dsimp only; omega, by dsimp only; omega, ⟨hlimits.name, hlimits.names⟩, hlimits.entries⟩
  obtain ⟨result, hmap, hresult⟩ := decodes_readHeader hdecodes
    (h.matches hlimits hpacked hread hinfo hlists) hfits h.names h.emptyBytes
  obtain ⟨-, hsame, heq⟩ := calculateStreamMap_eq_ok hmap
  have hparsed := hresult []
  rw [List.append_nil, hheader] at hparsed
  refine ⟨result, ?_, ?_⟩
  · rw [parseHeader, Result.bind_of_ok ((Result.rejectIf_eq_ok (u := ())).mpr (by decide)),
      Result.bind_of_ok ((Result.rejectIf_eq_ok (u := ())).mpr (by decide))]
    exact Result.bind_of_ok hparsed
  · rw [heq]
    exact ⟨⟨hread.packPos, hread.packSizes, hread.blocks, hread.subStreamsInfo⟩,
      sameFile_dealSubStreams info 0 hsame⟩

theorem sumPackSizes_of_lt {sizes : List UInt64} {total : Nat}
    (h : total + (sizes.map UInt64.toNat).sum < 2 ^ 64) :
    sumPackSizes sizes total = .ok (total + (sizes.map UInt64.toNat).sum) := by
  induction sizes generalizing total with
  | nil => rfl
  | cons size sizes ih =>
      rw [List.map_cons, List.sum_cons] at h ⊢
      have hadd : checkedAdd total size.toNat = some (total + size.toNat) :=
        checkedAdd_eq_some.mpr ⟨by omega, rfl⟩
      have hrest := @ih (total + size.toNat) (by omega)
      rw [sumPackSizes, hadd, ← Nat.add_assoc, ← hrest]
      exact Result.bind_of_ok rfl

theorem checkAesCoders_eq_ok {coders : List Coder} :
    checkAesCoders limits coders = .ok () ↔
      ∀ coder ∈ coders, checkAesCoder limits coder = .ok () := by
  induction coders with
  | nil => exact ⟨fun _ => List.forall_mem_nil _, fun _ => rfl⟩
  | cons coder coders ih =>
      rw [List.forall_mem_cons, ← ih, checkAesCoders]
      constructor
      · intro h
        obtain ⟨_, hfirst, hrest⟩ := Result.bind_eq_ok.mp h
        exact ⟨hfirst, hrest⟩
      · rintro ⟨hfirst, hrest⟩
        exact (Result.bind_of_ok hfirst).trans hrest

theorem map_name_sameFile {files files' : List ArchiveEntry}
    (h : List.Forall₂ SameFile files files') :
    files'.map ArchiveEntry.name = files.map ArchiveEntry.name := by
  induction h with
  | nil => rfl
  | cons hfirst _ ih => rw [List.map_cons, List.map_cons, ih, hfirst.1]

theorem checkUnsafePaths_sameFile {files files' : List ArchiveEntry}
    (h : List.Forall₂ SameFile files files') :
    checkUnsafePaths limits files' = checkUnsafePaths limits files := by
  have hfind : (files'.findSome? fun file =>
      (unsafePathReason file.name).map fun reason => (file.name, reason)) =
      files.findSome? fun file =>
        (unsafePathReason file.name).map fun reason => (file.name, reason) := by
    induction h with
    | nil => rfl
    | cons hfirst _ ih => rw [List.findSome?_cons, List.findSome?_cons, ih, hfirst.1]
  rw [checkUnsafePaths, checkUnsafePaths, checkNames, checkNames, hfind]

theorem checkUnpackLimits_congr {archive archive' : Archive} (packedTotal : Nat)
    (h : sumUnpackSizes archive'.blocks 0 = sumUnpackSizes archive.blocks 0) :
    checkUnpackLimits limits archive' packedTotal =
      checkUnpackLimits limits archive packedTotal := by
  rw [checkUnpackLimits, checkUnpackLimits, h]

theorem ReadsArchive.passes {archive : Archive}
    (hread : writer.ReadsArchive versions streams archive) (h : writer.Legible streams)
    (hlimits : writer.WithinLimits versions limits) {fileLen : Nat} (hmachine : fileLen < 2 ^ 64)
    (hpacked : signatureHeaderSize + (writer.packInfo.sizes.map UInt64.toNat).sum ≤ fileLen) :
    checkArchive limits fileLen archive = .ok { archive with
      isSolid := archive.blocks.any fun block => block.numUnpackSubStreams > 1 } := by
  have hlength : (writer.unpackInfo.blocks.map (BlockInfo.block versions)).length =
      streams.length := by
    rw [List.length_map, h.added.length_eq]
  have hrange : checkPackRange fileLen archive =
      .ok (writer.packInfo.sizes.map UInt64.toNat).sum := by
    have hstart : packStart archive = some signatureHeaderSize := by
      rw [packStart, hread.packPos, h.pos]
      rfl
    have htotal := @sumPackSizes_of_lt writer.packInfo.sizes 0 (by omega)
    rw [Nat.zero_add] at htotal
    have hend : ((packStart archive).bind fun start =>
        checkedAdd start (writer.packInfo.sizes.map UInt64.toNat).sum) =
          some (signatureHeaderSize + (writer.packInfo.sizes.map UInt64.toNat).sum) := by
      rw [hstart]
      exact checkedAdd_eq_some.mpr ⟨by omega, rfl⟩
    rw [checkPackRange, hread.packSizes, Result.bind_of_ok htotal, hend]
    exact (Result.bind_of_ok rfl).trans
      (Result.bind_of_ok ((Result.rejectIf_eq_ok (u := ())).mpr (Nat.not_lt.mpr hpacked)))
  have hunpacked : checkUnpackLimits limits archive
      (writer.packInfo.sizes.map UInt64.toNat).sum = .ok () := by
    rw [← hlimits.unpacked]
    refine checkUnpackLimits_congr _ ?_
    rw [hread.blocks]
    exact sumUnpackSizes_withCount hlength 0
  have hpaths : checkUnsafePaths limits archive.files = .ok () :=
    (checkUnsafePaths_sameFile hread.files).trans hlimits.paths
  have hcoders : checkAesCoders limits (archive.blocks.flatMap Block.coders) = .ok () := by
    rw [checkAesCoders_eq_ok, hread.blocks, List.flatMap_def,
      map_withCount (fun _ _ => rfl) hlength, ← List.flatMap_def, List.forall_mem_flatMap]
    intro block hblock
    obtain ⟨info, hinfo, rfl⟩ := List.mem_map.mp hblock
    exact checkAesCoders_eq_ok.mp (hlimits.aesCoders info hinfo)
  rw [checkArchive, Result.bind_of_ok hrange, Result.bind_of_ok hunpacked,
    Result.bind_of_ok hpaths, Result.bind_of_ok hcoders]
  rfl

theorem Legible.archiveOf_writeHeader (h : writer.Legible streams)
    (hlimits : writer.WithinLimits versions limits)
    (hheader : (writer.writeHeader versions).length < 2 ^ 64) {fileLen : Nat}
    (hmachine : fileLen < 2 ^ 64)
    (hpacked : signatureHeaderSize + (writer.packInfo.sizes.map UInt64.toNat).sum ≤ fileLen) :
    ∃ archive, archiveOf limits fileLen (readU8 (writer.writeHeader versions)) = .ok archive ∧
      writer.ReadsArchive versions streams archive := by
  obtain ⟨archive, hparse, hread⟩ := h.parseHeader_writeHeader hlimits hheader (by omega)
  have hfirst : readU8 (writer.writeHeader versions) = .ok (kHeader, [kMainStreamsInfo] ++
      (writer.writeStreamsInfo versions ++ (writeFilesInfo writer.files ++ [kEnd]))) := rfl
  refine ⟨{ archive with
    isSolid := archive.blocks.any fun block => block.numUnpackSubStreams > 1 }, ?_,
    ⟨⟨hread.packPos, hread.packSizes, hread.blocks, hread.subStreamsInfo⟩, hread.files⟩⟩
  rw [archiveOf, hfirst]
  exact (Result.bind_of_ok rfl).trans ((Result.bind_of_ok hparse).trans
    (hread.passes h hlimits hmachine hpacked))

theorem Legible.readWithLimits_eq_ok (h : writer.Legible streams) {codecs : Codecs}
    {encoder : ContentEncoder} (passwordGiven : Bool) {file : List UInt8}
    (hlimits : writer.WithinLimits versions limits)
    (hfinish : writer.finish versions codecs.crc32 encoder = .ok file)
    (hfile : file.length < 2 ^ 64)
    (hundo : codecs.Undo file versions encoder writer.headerMethods)
    (hheader : writer.HeaderWithinLimits versions codecs.crc32 encoder limits)
    (hrounds : (writer.writeHeader versions).length < codecs.rounds)
    (hraw : writer.KeepsRawHeader versions encoder →
      (writer.writeHeader versions).length < 2 ^ 32)
    (hpacked : signatureHeaderSize + (writer.packInfo.sizes.map UInt64.toNat).sum ≤ file.length) :
    ∃ archive, readWithLimits codecs limits passwordGiven file = .ok archive ∧
      writer.ReadsArchive versions streams archive := by
  have hlength : (writer.writeHeader versions).length < 2 ^ 64 :=
    Nat.lt_of_le_of_lt hheader.encoded.unpacked limits.maxHeaderUnpackedBytes.toNat_lt
  obtain ⟨archive, harchive, hread⟩ := h.archiveOf_writeHeader hlimits hlength hfile hpacked
  refine ⟨archive, ?_, hread⟩
  obtain ⟨moreSizes, header, hresult, hmore, hlayout⟩ := finish_cases hfinish
  have hcap := hheader.endHeader header hresult
  obtain ⟨hkeeps, rfl, rfl⟩ | ⟨encodedData, hdata, rfl, rfl⟩ := hlayout
  · rw [readWithLimits_endHeader hfile (List.cons_ne_nil _ _) (hraw hkeeps) hcap]
    exact harchive
  · rw [readWithLimits_encodedHeader hmore hdata rfl rfl hfile hundo hcap hheader.encoded hrounds]
    exact harchive

end ArchiveWriter

end Sevenz
