import Sevenz.Reader.Follows
import Sevenz.Writer.TakenArchive

/-!
# Reading back what was pushed

A walk over the archive of a run of pushes opens every block on the contents that were pushed for
it, and hands each of them out with its entry.
-/

namespace Sevenz

open Lib

theorem records_withCount {versions : CodecVersions} (info : BlockInfo)
    (streams : List SubStream) :
    (withCount (info.block versions) streams).Records versions info.methods info.sizes :=
  ⟨rfl, rfl, rfl, by simp [withCount, BlockInfo.block, Block.chain],
    by simp [withCount, BlockInfo.block, Block.chain], rfl⟩

structure StoredBlock.ReadAs (versions : CodecVersions) (info : BlockInfo) (stored : StoredBlock)
    (block : Block) : Prop where
  records : block.Records versions info.methods info.sizes
  counts : info.sizes.length = info.methods.length
  plain : block.hasCrc = false
  streams : block.numUnpackSubStreams = stored.contents.length
  unpackSize : block.getUnpackSize = .ok (UInt64.ofNat stored.contents.flatten.length)

theorem StoredBlock.ReadAs.withCheck_eq {versions : CodecVersions} {info : BlockInfo}
    {stored : StoredBlock} {block : Block} (h : stored.ReadAs versions info block)
    {crc32 : List UInt8 → UInt32} {crc : Option UInt64}
    (hcrc : ∀ value ∈ crc, value = (crc32 stored.contents.flatten).toUInt64) :
    ∃ check, withCheck block crc = .ok check ∧
      ∀ pair ∈ check, pair = (UInt64.ofNat stored.contents.flatten.length,
        (crc32 stored.contents.flatten).toUInt64) := by
  cases crc with
  | none => exact ⟨none, rfl, by simp⟩
  | some crc =>
      refine ⟨_, Result.bind_of_ok h.unpackSize, ?_⟩
      rintro _ ⟨⟩
      rw [hcrc crc rfl]

section

variable {codecs : Codecs} {versions : CodecVersions} {limits : ArchiveLimits}
  {file : List UInt8} {session : Session} {archive : Archive}
  {owned : List (Option (List UInt8))} {encoder : ContentEncoder}

namespace Session.Taken

section

variable (ht : session.Taken codecs.crc32 versions archive)
  (h : session.Filed codecs.crc32 (codecs.UndoContent file versions) owned)
include ht h

theorem readAs {b : Nat} {stored : StoredBlock} (hstored : session.stored[b]? = some stored) :
    ∃ info block, info ∈ session.writer.unpackInfo.blocks ∧
      info.Made codecs.crc32 (codecs.UndoContent file versions) stored ∧
      archive.blocks[b]? = some block ∧ stored.ReadAs versions info block := by
  obtain ⟨info, hinfo, hmade, hblock⟩ := ht.block_eq h hstored
  have hmem := List.mem_of_getElem? hinfo
  have hcounts := h.sizes_length info hmem
  refine ⟨info, _, hmem, hmade, hblock, records_withCount info _, hcounts, rfl,
    List.length_map _, ?_⟩
  obtain ⟨-, encoder, context, sources, encoded, -, -, -, hwritten, hsizes⟩ := hmade
  refine (getUnpackSize_withCount _ _).trans (Block.chain_getUnpackSize ?_ ?_)
  · rw [List.length_map, hcounts]
  · rw [hsizes, hwritten]
    exact List.getLast?_concat

variable (hfinish : session.writer.finish versions codecs.crc32 encoder = .ok file)
  (hfile : file.length < 2 ^ 64)
include hfinish hfile

theorem blockOffset_eq {b : Nat} (hb : b < session.writer.packInfo.sizes.length) :
    blockOffset archive b = .ok (signatureHeaderSize +
      offset (session.writer.packInfo.sizes.map UInt64.toNat) b) := by
  have hwithin := h.packed_within hfinish hfile
  have hoffset := offset_le_sum (session.writer.packInfo.sizes.map UInt64.toNat) b
  have hstart : packStart archive = some signatureHeaderSize := by
    rw [packStart, ht.packPos, h.pos]
    rfl
  have hadd : checkedAdd signatureHeaderSize
      (offset (session.writer.packInfo.sizes.map UInt64.toNat) b) =
        some (signatureHeaderSize +
          offset (session.writer.packInfo.sizes.map UInt64.toNat) b) :=
    checkedAdd_eq_some.mpr ⟨by omega, rfl⟩
  have hindex := ht.packOffset_eq hb
  rw [blockOffset, hstart]
  dsimp only
  rw [Result.bind_of_ok (Result.index_eq_ok.mpr hindex), hadd]
  rfl

theorem buildDecodeStack_eq_ok (hlimits : session.writer.WithinLimits versions limits)
    (hseek : ∀ offset, codecs.seekError offset = none) {b : Nat} {stored : StoredBlock}
    (hstored : session.stored[b]? = some stored) :
    ∃ stack, buildDecodeStack codecs limits archive b = .ok stack ∧
      (codecs.decode stack.decoder).Delivers stored.contents.flatten ∧
      ∀ check ∈ stack.check, check = (UInt64.ofNat stored.contents.flatten.length,
        (codecs.crc32 stored.contents.flatten).toUInt64) := by
  obtain ⟨info, block, hinfo, ⟨hne, encoder, context, sources, encoded, hundo, hencoded,
    hcompressed, hwritten, hsizes⟩, hblock, hread⟩ := ht.readAs h hstored
  have hb : b < archive.blocks.length := (List.getElem?_eq_some_iff.mp hblock).1
  have hpack : session.writer.packInfo.sizes[b]? =
      some (UInt64.ofNat stored.compressed.length) := by
    rw [h.packSizes, List.getElem?_map, hstored]
    rfl
  have hposition := ht.blockOffset_eq h hfinish hfile (List.getElem?_eq_some_iff.mp hpack).1
  have haes : checkAesCoders limits block.coders = .ok () :=
    hread.records.coders ▸ hlimits.aesCoders info hinfo
  have hsingle : ¬ block.totalInputStreams > block.totalOutputStreams := by
    rw [hread.records.totalInputStreams, hread.records.totalOutputStreams]
    exact Nat.lt_irrefl _
  have hseeks : ∀ offset, codecs.seek offset = .ok () := by
    intro offset
    rw [Codecs.seek, hseek]
    rfl
  obtain ⟨crc, hcrc, hvalue⟩ := ht.blockCrc_eq h hstored hread.plain hread.streams
  obtain ⟨check, hcheck, hchecked⟩ := hread.withCheck_eq hvalue
  have hslice := h.packed_slice hfinish hfile hstored
  have hstages := hread.records.stages hread.counts.symm
  have hdelivers : (codecs.decode (stackOf (block.orderedCoderIter.map block.stage).reverse
      (.pack 0 (signatureHeaderSize + offset (session.writer.packInfo.sizes.map UInt64.toNat) b)
        stored.compressed.length))).Delivers stored.contents.flatten := by
    rw [hcompressed] at hslice ⊢
    rw [hwritten]
    rw [hsizes] at hstages
    exact hundo.restores context sources encoded _ _ hencoded hslice hstages
  refine ⟨⟨_, check, UInt64.ofNat stored.compressed.length⟩, ?_, hdelivers, hchecked⟩
  rw [buildDecodeStack, Result.bind_of_ok (Result.index_eq_ok.mpr hblock),
    Result.bind_of_ok haes, if_neg hsingle,
    Result.bind_of_ok (Result.index_eq_ok.mpr (ht.firstPack_eq h hb)),
    Result.bind_of_ok hposition, Result.bind_of_ok hcrc, Result.bind_of_ok (hseeks _),
    ht.packSizes, Result.bind_of_ok (Result.index_eq_ok.mpr hpack),
    h.packSizes_exact hfinish hfile stored (List.mem_of_getElem? hstored),
    Result.bind_of_ok (hread.records.addChain hundo.accepts _ _), Result.bind_of_ok hcheck]
  rfl

theorem restores (hlimits : session.writer.WithinLimits versions limits)
    (hseek : ∀ offset, codecs.seekError offset = none) (verifyChecksums passwordGiven : Bool)
    {b : Nat} {stored : StoredBlock} (hstored : session.stored[b]? = some stored)
    (hrounds : stored.contents.flatten.length < codecs.rounds) :
    ∃ opened Holds, ArchiveReader.Restores
      { codecs, limits, verifyChecksums, passwordGiven, archive } (contentAt owned) b opened
        Holds := by
  obtain ⟨stack, hbuild, ⟨Holds, hserves, hholds⟩, hcheck⟩ :=
    ht.buildDecodeStack_eq_ok h hfinish hfile hlimits hseek hstored
  obtain ⟨info, block, -, -, hblock, hread⟩ := ht.readAs h hstored
  have hb : b < archive.blocks.length := (List.getElem?_eq_some_iff.mp hblock).1
  obtain ⟨opened, hopen, rfl⟩ := (@ArchiveReader.openBlock_isOk_iff
    { codecs, limits, verifyChecksums, passwordGiven, archive } ht.described b hb stack).mp hbuild
  have hcontents := ht.flatMap_blockRange h hstored
  have hcounted := h.counted stored (List.mem_of_getElem? hstored)
  have hopened : archive.blocks[b]? = some opened.block := (openBlock_eq_ok hopen).2.1
  obtain rfl := Option.some.inj (hblock.symm.trans hopened)
  refine ⟨opened, Verifies codecs.crc32 Holds, ?_⟩
  exact {
    opens := hopen
    serves := serves_verifying codecs.crc32 hserves
    holds := by
      refine ⟨hcontents ▸ hholds, ?_⟩
      intro check hmem
      obtain ⟨pair, hpair, rfl⟩ := Option.map_eq_some_iff.mp hmem
      rw [hcheck pair hpair, hcontents]
      exact awaits_new hcounted
    files := by
      intro i hi
      rw [(ht.blockRange_eq h hb).1] at hi
      have hstreamed := (Archive.mem_streamedEntries.mp hi).1
      rw [isStreamed_owned (ht.ownersOf h), List.getD_eq_getElem?_getD] at hstreamed
      cases howned : owned[i]? with
      | none =>
          rw [howned] at hstreamed
          cases hstreamed
      | some content =>
          rw [howned, Option.getD_some] at hstreamed
          obtain ⟨content, rfl⟩ := Option.isSome_iff_exists.mp hstreamed
          have hcontent : contentAt owned i = content := by
            rw [contentAt, List.getD_eq_getElem?_getD, howned]
            rfl
          rw [hcontent]
          exact ht.verified h howned
    plain := hread.plain
    sized := by rw [hread.unpackSize]; rfl
    counted := by rwa [hcontents]
    rounds := by rwa [hcontents] }

end

end Session.Taken

end

/-- What the reader brings along to read the file of a session: decoders that undo the encoder of
the header, a source it can seek in, and limits that leave room for the archive. -/
structure Codecs.Opens (codecs : Codecs) (limits : ArchiveLimits) (versions : CodecVersions)
    (encoder : ContentEncoder) (session : Session) (file : List UInt8) : Prop where
  within : session.writer.WithinLimits versions limits
  header : session.writer.HeaderWithinLimits versions codecs.crc32 encoder limits
  raw : session.writer.KeepsRawHeader versions encoder →
    (session.writer.writeHeader versions).length < 2 ^ 32
  undo : codecs.Undo file versions encoder session.writer.headerMethods
  seek : ∀ offset, codecs.seekError offset = none
  folds : codecs.FoldsPieces
  machine : file.length < 2 ^ 64
  headerRounds : (session.writer.writeHeader versions).length < codecs.rounds
  rounds : ∀ block ∈ session.stored, block.contents.flatten.length < codecs.rounds

section

variable {codecs : Codecs} {versions : CodecVersions} {limits : ArchiveLimits}
  {file : List UInt8} {session : Session} {owned : List (Option (List UInt8))}
  {encoder : ContentEncoder}

theorem Session.Filed.taken
    (h : session.Filed codecs.crc32 (codecs.UndoContent file versions) owned)
    (hreadable : session.writer.Readable)
    (hfinish : session.writer.finish versions codecs.crc32 encoder = .ok file)
    (hopens : codecs.Opens limits versions encoder session file) (passwordGiven : Bool) :
    ∃ archive, readWithLimits codecs limits passwordGiven file = .ok archive ∧
      session.Taken codecs.crc32 versions archive := by
  obtain ⟨archive, htaken, hread⟩ := (h.legible hreadable).readWithLimits_eq_ok passwordGiven
    hopens.within hfinish hopens.machine hopens.undo hopens.header hopens.headerRounds hopens.raw
    (h.packed_within hfinish hopens.machine)
  exact ⟨archive, htaken, hread, readWithLimits_described htaken,
    readWithLimits_countsAlike htaken, readWithLimits_leavesGaps htaken⟩

/-- A walk over the archive by a closure that reads as the draining one does hands out each entry
once, with what was pushed for it. -/
theorem Session.Taken.forEachEntries_eq_ok {archive : Archive}
    (ht : session.Taken codecs.crc32 versions archive)
    (h : session.Filed codecs.crc32 (codecs.UndoContent file versions) owned)
    (hfinish : session.writer.finish versions codecs.crc32 encoder = .ok file)
    (hopens : codecs.Opens limits versions encoder session file)
    {r : ArchiveReader} (verifyChecksums passwordGiven : Bool)
    (hr : r = { codecs, limits, verifyChecksums, passwordGiven, archive })
    {each : Callback} {Good : List Visit → Prop} (heach : each.Follows r (contentAt owned) Good) :
    ∃ log, r.forEachEntries each = (.ok (), log) ∧
      (∀ i < archive.files.length, (visitedFiles log.visits).count i = 1) ∧
      (∀ visit ∈ log.visits, visit.Returns (contentAt owned)) ∧ Good log.visits := by
  have hblocks : ∀ b < r.archive.blocks.length,
      ∃ opened Holds, r.Restores (contentAt owned) b opened Holds := by
    intro b hb
    subst hr
    have hlt : b < session.stored.length := ht.blocks_length h ▸ hb
    exact ht.restores h hfinish hopens.machine hopens.within hopens.seek verifyChecksums
      passwordGiven (List.getElem?_eq_getElem hlt) (hopens.rounds _ (List.getElem_mem hlt))
  have hempty : ∀ i, r.archive.streamMap.fileBlockIndex[i]? = some none →
      contentAt owned i = [] := by
    intro i hnone
    subst hr
    rw [contentAt, List.getD_eq_getElem?_getD]
    cases howned : owned[i]? with
    | none => rfl
    | some content =>
        cases content with
        | none => rfl
        | some content =>
            -- an entry with a stream is in a block
            obtain ⟨file', hfile', hstream, -⟩ := ht.verified h howned
            obtain ⟨hlt, rfl⟩ := List.getElem?_eq_some_iff.mp hfile'
            have hsome := ht.described.mapped.streamed.get hlt
              (ht.described.mapped.fileBlock ▸ hlt) hstream
            obtain ⟨hlt', hnone⟩ := List.getElem?_eq_some_iff.mp hnone
            rw [List.get_eq_getElem, hnone] at hsome
            cases hsome
  obtain ⟨log, hrun, horder, hreturns, hgood⟩ := ArchiveReader.forEachEntries_follows
    (hr ▸ hopens.folds) heach (hr ▸ ht.described.mapped) hblocks hempty
  refine ⟨log, hrun, fun i hi => ?_, hreturns, hgood⟩
  subst hr
  rw [horder]
  exact ht.described.mapped.once_of_fileCount_eq (fun b hb => (ht.blockRange_eq h hb).2) i hi

theorem Session.Filed.readBack
    (h : session.Filed codecs.crc32 (codecs.UndoContent file versions) owned)
    (hfinish : session.writer.finish versions codecs.crc32 encoder = .ok file)
    (hreadable : session.writer.Readable)
    (hopens : codecs.Opens limits versions encoder session file)
    (verifyChecksums passwordGiven : Bool) :
    ∃ archive log, readWithLimits codecs limits passwordGiven file = .ok archive ∧
      archive.files.map ArchiveEntry.name = session.writer.files.map ArchiveEntry.name ∧
      OwnersOf archive.files owned ∧
      (let r : ArchiveReader := { codecs, limits, verifyChecksums, passwordGiven, archive }
       r.forEachEntries r.drain = (.ok (), log)) ∧
      (∀ i < archive.files.length, (visitedFiles log.visits).count i = 1) ∧
      ∀ visit ∈ log.visits, visit.Continues ∧
        delivered visit.records = contentAt owned visit.fileIndex := by
  obtain ⟨archive, htaken, ht⟩ := h.taken hreadable hfinish hopens passwordGiven
  obtain ⟨log, hwalk, honce, hreturns, -⟩ :=
    ht.forEachEntries_eq_ok h hfinish hopens verifyChecksums passwordGiven rfl
      (ArchiveReader.drain_follows _ _ (Nat.zero_lt_of_lt hopens.headerRounds))
  exact ⟨archive, log, htaken, ArchiveWriter.map_name_sameFile ht.files, ht.ownersOf h, hwalk,
    honce, hreturns⟩

end

/-- What is pushed is read back: where every call of a run succeeds and marks what it stores, and
the decoders undo the encoders, the reader takes the archive from the finished file, with the
files that were pushed in their order, and a walk over it that reads every entry to its end hands
each of them out once, with the content that was pushed for it. -/
theorem forEachEntries_readBack {codecs : Codecs} {versions : CodecVersions}
    {limits : ArchiveLimits} {encoder : ContentEncoder} {pushes : List Push} {session : Session}
    {file : List UInt8} (hrun : run (Session.step codecs.crc32) {} pushes = some session)
    (hsteps : EveryStep (Session.step codecs.crc32) {} pushes fun _ push before _ =>
      push.Succeeds codecs.crc32 before.writer ∧ push.Flagged ∧
        ∀ encoder methods, push.encoding before.writer = some (encoder, methods) →
          codecs.UndoContent file versions encoder methods)
    (hfinish : session.writer.finish versions codecs.crc32 encoder = .ok file)
    (hreadable : session.writer.Readable)
    (hopens : codecs.Opens limits versions encoder session file)
    (verifyChecksums passwordGiven : Bool) :
    ∃ archive log, readWithLimits codecs limits passwordGiven file = .ok archive ∧
      archive.files.map ArchiveEntry.name = pushes.flatMap Push.names ∧
      OwnersOf archive.files (pushes.flatMap Push.owned) ∧
      (let r : ArchiveReader := { codecs, limits, verifyChecksums, passwordGiven, archive }
       r.forEachEntries r.drain = (.ok (), log)) ∧
      (∀ i < archive.files.length, (visitedFiles log.visits).count i = 1) ∧
      ∀ visit ∈ log.visits, visit.Continues ∧
        delivered visit.records = contentAt (pushes.flatMap Push.owned) visit.fileIndex := by
  obtain ⟨hnames, -⟩ :=
    Session.files_of_run hrun (hsteps.mono fun _ _ _ _ _ _ hclean => hclean.1)
  rw [← hnames]
  exact (Session.filed_of_run hrun hsteps).readBack hfinish hreadable hopens verifyChecksums
    passwordGiven

section

variable {crc32 : List UInt8 → UInt32} {context : EncodeContext}

theorem feedSource_copy {reads : Source} {tally : SourceTally} {feed : copyEncoder.Feed}
    {r : SourceTally × copyEncoder.Feed}
    (h : (copyEncoder.feedSource crc32 context reads tally feed).result = .ok r) :
    (copyEncoder.feedSource crc32 context reads tally feed).bytes = reads.content := by
  induction reads generalizing tally feed with
  | nil => rfl
  | cons read reads ih =>
      match read with
      | .error error => cases h
      | .ok [] => rfl
      | .ok (b :: bytes) => exact congrArg (_ ++ ·) (ih h)

theorem feedSources_copy {sources : List SourceReader} {feed : copyEncoder.Feed}
    {r : List SourceTally × copyEncoder.Feed}
    (h : (copyEncoder.feedSources crc32 context sources feed).result = .ok r) :
    (copyEncoder.feedSources crc32 context sources feed).bytes =
      sources.flatMap fun source => source.reader.content := by
  induction sources generalizing feed r with
  | nil => rfl
  | cons source sources ih =>
      obtain ⟨⟨tally, fed⟩, hsource, h⟩ := Emits.bind_result_eq_ok.mp h
      obtain ⟨⟨tallies, last⟩, hsources, -⟩ := Emits.bind_result_eq_ok.mp h
      rw [ContentEncoder.feedSources, Emits.bind_of_ok hsource]
      dsimp only
      rw [feedSource_copy hsource, Emits.bind_of_ok hsources, ih hsources, Emits.pure_bytes,
        List.append_nil, List.flatMap_cons]

theorem encodeContent_copy {methods : List EncoderConfiguration} {sources : List SourceReader}
    {encoded : Encoded}
    (h : (copyEncoder.encodeContent crc32 context methods sources).result = .ok encoded) :
    (copyEncoder.encodeContent crc32 context methods sources).bytes = encoded.written ∧
      encoded.sizes = [UInt64.ofNat encoded.written.length] := by
  obtain ⟨-, hwritten, -⟩ := ContentEncoder.encodeContent_spec h
  obtain ⟨state, -, h⟩ := Emits.bind_result_eq_ok.mp h
  obtain ⟨⟨tallies, feed⟩, hfeed, h⟩ := Emits.bind_result_eq_ok.mp h
  cases h
  have hbytes : (copyEncoder.encodeContent crc32 context methods sources).bytes =
      (copyEncoder.feedSources crc32 context sources { state }).bytes := by
    rw [ContentEncoder.encodeContent]
    exact (congrArg Emits.bytes (Emits.bind_of_ok hfeed _)).trans (List.append_nil _)
  exact ⟨hbytes.trans ((feedSources_copy hfeed).trans hwritten.symm), rfl⟩

end

theorem copyingAll_undoContent (file : List UInt8) (versions : CodecVersions)
    (mc : EncoderConfiguration) :
    (copyingAll file).UndoContent file versions copyEncoder [mc] := by
  constructor
  · intro _ _ _ _ _
    rfl
  · intro context sources encoded h
    rw [(encodeContent_copy h).2]
    rfl
  · intro context sources encoded start stages h hlies hstages
    have hcopied : Codecs.copied file (stackOf stages.reverse (.pack 0 start
        (copyEncoder.encodeContent (copyingAll file).crc32 context [mc] sources).bytes.length)) =
          encoded.written := by
      rw [copied_stackOf]
      exact hlies.trans (encodeContent_copy h).1
    change (Stream.ofContent (Codecs.copied file _)).Delivers encoded.written
    rw [hcopied]
    exact Stream.ofContent_delivers encoded.written

theorem mixedPushes_readable : (sessionAfter mixedPushes).writer.Readable := by
  have hcrcs : (sessionAfter mixedPushes).writer.packInfo.crcs.all (· != 0) = true := by
    decide +kernel
  have hnames : ((sessionAfter mixedPushes).writer.files.all fun file =>
      file.name.all (·.toNat != 0)) = true := by
    decide +kernel
  refine ⟨.inl fun crc hcrc => ?_, by decide +kernel, fun file hfile c hc => ?_⟩
  · exact bne_iff_ne.mp (List.all_eq_true.mp hcrcs crc hcrc)
  · exact bne_iff_ne.mp (List.all_eq_true.mp (List.all_eq_true.mp hnames file hfile) c hc)

theorem mixedPushes_within : (sessionAfter mixedPushes).writer.WithinLimits anyVersions {} := by
  have hone : ∀ block ∈ (sessionAfter mixedPushes).writer.unpackInfo.blocks,
      block.methods = [{ method := .copy }] := by
    intro block hblock
    obtain rfl | rfl := by simpa using (show block ∈ [_, _] from hblock)
    · rfl
    · rfl
  refine ⟨⟨by decide +kernel, fun block hblock => ?_, by decide +kernel⟩, by decide +kernel,
    by decide +kernel, by decide +kernel, rfl, by decide +kernel, fun block hblock => ?_⟩
  · rw [hone block hblock]
    constructor <;> decide +kernel
  · rw [hone block hblock]
    rfl

theorem mixedPushes_opens {file : List UInt8}
    (hfinish : (sessionAfter mixedPushes).writer.finish anyVersions crc32 copyEncoder = .ok file) :
    (copyingAll file).Opens {} anyVersions copyEncoder (sessionAfter mixedPushes) file := by
  cases ((sessionAfter mixedPushes).writer.finish_copy anyVersions crc32 rfl).symm.trans hfinish
  generalize hfile : archiveFile crc32 ((sessionAfter mixedPushes).writer.output.drop
    signatureHeaderSize) ((sessionAfter mixedPushes).writer.writeHeader anyVersions) = file
  have hheader : ((sessionAfter mixedPushes).writer.writeHeader anyVersions).length < 2 ^ 20 := by
    decide +kernel
  have hlength : file.length < 2 ^ 64 ∧ signatureHeaderSize +
      ((sessionAfter mixedPushes).writer.writeHeader anyVersions).length ≤ file.length := by
    have hpacked : ((sessionAfter mixedPushes).writer.output.drop
        signatureHeaderSize).length = 5 := by
      decide +kernel
    have hstart : signatureHeaderSize = 32 := rfl
    rw [← hfile, archiveFile_length, hpacked]
    omega
  have hstored : ∀ block ∈ (sessionAfter mixedPushes).stored,
      block.contents.flatten.length < signatureHeaderSize := by
    decide +kernel
  have hrounds : (copyingAll file).rounds = file.length + 1 := rfl
  exact {
    within := mixedPushes_within
    header := ArchiveWriter.headerWithinLimits_copy crc32 rfl (by decide +kernel)
      ⟨by decide, by decide +kernel, by constructor <;> decide +kernel, by decide +kernel, rfl⟩
    raw := fun _ => by omega
    undo := copyingAll_undo _ _ _
    seek := fun _ => rfl
    folds := Codecs.foldsPieces_of_not_engaged fun _ => rfl
    machine := hlength.1
    headerRounds := by omega
    rounds := fun block hblock => by
      have := hstored block hblock
      omega }

theorem mixedPushes_undo (file : List UInt8) :
    EveryStep (Session.step crc32) {} mixedPushes fun _ push before _ =>
      ∀ encoder methods, push.encoding before.writer = some (encoder, methods) →
        (copyingAll file).UndoContent file anyVersions encoder methods :=
  mixedPushes_steps.mono fun _ _ _ _ _ _ hclean encoder methods hencoding => by
    obtain ⟨rfl, mc, rfl⟩ := hclean.2.2 encoder methods hencoding
    exact copyingAll_undoContent file anyVersions mc

theorem forEachEntries_readBack_mixed : ∃ file archive log,
    (sessionAfter mixedPushes).writer.finish anyVersions crc32 copyEncoder = .ok file ∧
      readWithLimits (copyingAll file) {} false file = .ok archive ∧
      archive.files.map ArchiveEntry.name = mixedPushes.flatMap Push.names ∧
      OwnersOf archive.files (mixedPushes.flatMap Push.owned) ∧
      (let r : ArchiveReader := { codecs := copyingAll file, limits := {}, verifyChecksums := true
                                  passwordGiven := false, archive }
       r.forEachEntries r.drain = (.ok (), log)) ∧
      (∀ i < archive.files.length, (visitedFiles log.visits).count i = 1) ∧
      ∀ visit ∈ log.visits, visit.Continues ∧ delivered visit.records =
        contentAt (mixedPushes.flatMap Push.owned) visit.fileIndex := by
  have hfinish := (sessionAfter mixedPushes).writer.finish_copy anyVersions crc32 rfl
  generalize archiveFile crc32 ((sessionAfter mixedPushes).writer.output.drop
    signatureHeaderSize) ((sessionAfter mixedPushes).writer.writeHeader anyVersions) = file
      at hfinish
  have hrun : run (Session.step (copyingAll file).crc32) {} mixedPushes =
      some (sessionAfter mixedPushes) := rfl
  have hsteps : EveryStep (Session.step (copyingAll file).crc32) {} mixedPushes
      fun _ push before _ => push.Succeeds crc32 before.writer ∧ push.Flagged ∧
        ∀ encoder methods, push.encoding before.writer = some (encoder, methods) →
          (copyingAll file).UndoContent file anyVersions encoder methods :=
    fun before push after hpushes t t' hbefore hstep =>
      have hclean := mixedPushes_steps before push after hpushes t t' hbefore hstep
      ⟨hclean.1, hclean.2.1, mixedPushes_undo file before push after hpushes t t' hbefore hstep⟩
  obtain ⟨archive, log, h⟩ := forEachEntries_readBack hrun hsteps hfinish mixedPushes_readable
    (mixedPushes_opens hfinish) true false
  exact ⟨file, archive, log, hfinish, h⟩

end Sevenz
