import Sevenz.Header.SubStreamOrder
import Sevenz.Reader.SubStreamHook
import Sevenz.Writer.Records
import Sevenz.Writer.WrittenArchive

/-!
# The archive of a run of pushes

The file that a run of pushes leaves behind, and the archive that a reader takes from it: its
packed streams, its blocks and its files are those of the run, and every file has the sub-stream
of what was pushed for it.
-/

namespace Sevenz

open Lib

/-- The decoders undo the encoder: where its output for some contents lies in the file, the
coders put on it give the contents back. -/
structure Codecs.UndoContent (codecs : Codecs) (file : List UInt8) (versions : CodecVersions)
    (encoder : ContentEncoder) (methods : List EncoderConfiguration) : Prop where
  accepts : ∀ mc ∈ methods, ∀ input stage, stage.coder = mc.coder versions →
    codecs.refuses input stage = none
  counts : ∀ context sources encoded,
    (encoder.encodeContent codecs.crc32 context methods sources).result = .ok encoded →
      encoded.sizes.length = methods.length
  restores : ∀ context sources encoded start (stages : List Stage),
    (encoder.encodeContent codecs.crc32 context methods sources).result = .ok encoded →
    (file.drop start).take
        (encoder.encodeContent codecs.crc32 context methods sources).bytes.length =
      (encoder.encodeContent codecs.crc32 context methods sources).bytes →
    stages.map (fun stage => (stage.coder, stage.uncompressedLen)) =
      (methods.map (EncoderConfiguration.coder versions)).zip encoded.sizes →
    (codecs.decode (stackOf stages.reverse (.pack 0 start
      (encoder.encodeContent codecs.crc32 context methods sources).bytes.length))).Delivers
        encoded.written

/-- The header of the writer is one that can be read back: packed streams that all have a checksum
or all have none, names without a NUL, and no byte left out of its vectors. -/
structure ArchiveWriter.Readable (writer : ArchiveWriter) : Prop where
  crcs : writer.packInfo.CrcsAlike
  emptyBytes : SameEmptyBytes writer.files
  names : ∀ file ∈ writer.files, ∀ c ∈ file.name, c.toNat ≠ 0

theorem ArchiveWriter.finish_drop {versions : CodecVersions} {writer : ArchiveWriter}
    {crc32 : List UInt8 → UInt32} {encoder : ContentEncoder} {file : List UInt8}
    (h : writer.finish versions crc32 encoder = .ok file) :
    ∃ rest, file.drop signatureHeaderSize = writer.output.drop signatureHeaderSize ++ rest := by
  obtain ⟨moreSizes, header, -, -, hlayout⟩ := finish_cases h
  obtain ⟨-, rfl, rfl⟩ | ⟨encodedData, -, rfl, rfl⟩ := hlayout
  · exact ⟨_, drop_archiveFile crc32 _ _⟩
  · exact ⟨_, (drop_archiveFile crc32 _ _).trans (List.append_assoc _ _ _)⟩

namespace Session.Filed

variable {codecs : Codecs} {versions : CodecVersions} {file : List UInt8} {session : Session}
  {owned : List (Option (List UInt8))} {encoder : ContentEncoder}

theorem sizes_length (h : session.Filed codecs.crc32 (codecs.UndoContent file versions) owned) :
    ∀ info ∈ session.writer.unpackInfo.blocks, info.sizes.length = info.methods.length := by
  intro info hinfo
  obtain ⟨block, -, -, encoder, context, sources, encoded, hundo, hencoded, -, -, hsizes⟩ :=
    (ArchiveReader.exists_of_mem_forall₂ h.made).1 info hinfo
  rw [hsizes]
  exact hundo.counts context sources encoded hencoded

theorem methods_ne {uses : ContentEncoder → List EncoderConfiguration → Prop}
    (h : session.Filed codecs.crc32 uses owned) :
    ∀ info ∈ session.writer.unpackInfo.blocks, info.methods ≠ [] := by
  intro info hinfo
  obtain ⟨block, -, hne, -⟩ := (ArchiveReader.exists_of_mem_forall₂ h.made).1 info hinfo
  exact hne

theorem legible (h : session.Filed codecs.crc32 (codecs.UndoContent file versions) owned)
    (hreadable : session.writer.Readable) :
    session.writer.Legible (session.stored.map (StoredBlock.subStreams codecs.crc32)) where
  pos := h.pos
  packs := by rw [PackInfo.len, h.packSizes, List.length_map, h.blocks.length_eq]
  crcs := hreadable.crcs
  methods := h.methods_ne
  sizes := h.sizes_length
  added := List.forall₂_map_right_iff.mpr h.blocks
  streamed := by
    have hlength := congrArg List.length h.streams
    rwa [List.length_map, ← List.countP_eq_length_filter, List.flatMap_def] at hlength
  emptyBytes := hreadable.emptyBytes
  names := hreadable.names

section

variable {uses : ContentEncoder → List EncoderConfiguration → Prop}
  (h : session.Filed codecs.crc32 uses owned)
  (hfinish : session.writer.finish versions codecs.crc32 encoder = .ok file)
include h hfinish

theorem drop_file : ∃ rest, file.drop signatureHeaderSize =
    (session.stored.map StoredBlock.compressed).flatten ++ rest := by
  obtain ⟨rest, hdrop⟩ := ArchiveWriter.finish_drop hfinish
  rw [h.output, List.drop_left' (List.length_replicate ..)] at hdrop
  exact ⟨rest, hdrop⟩

variable (hfile : file.length < 2 ^ 64)
include hfile

theorem packSizes_exact : ∀ block ∈ session.stored,
    (UInt64.ofNat block.compressed.length).toNat = block.compressed.length := by
  obtain ⟨rest, hdrop⟩ := h.drop_file hfinish
  intro block hblock
  apply UInt64.toNat_ofNat_of_lt'
  have hpiece : block.compressed.length ≤
      (session.stored.map StoredBlock.compressed).flatten.length :=
    (List.sublist_flatten_of_mem (List.mem_map_of_mem hblock)).length_le
  have hlength := congrArg List.length hdrop
  rw [List.length_drop, List.length_append] at hlength
  change block.compressed.length < 2 ^ 64
  omega

theorem packSizes_toNat : session.writer.packInfo.sizes.map UInt64.toNat =
    (session.stored.map StoredBlock.compressed).map List.length := by
  rw [h.packSizes, List.map_map, List.map_map]
  exact List.map_congr_left (h.packSizes_exact hfinish hfile)

theorem packed_slice {b : Nat} {block : StoredBlock} (hblock : session.stored[b]? = some block) :
    (file.drop (signatureHeaderSize +
      offset (session.writer.packInfo.sizes.map UInt64.toNat) b)).take block.compressed.length =
        block.compressed := by
  obtain ⟨rest, hdrop⟩ := h.drop_file hfinish
  have hpiece : (session.stored.map StoredBlock.compressed)[b]? = some block.compressed := by
    rw [List.getElem?_map, hblock]
    rfl
  rw [h.packSizes_toNat hfinish hfile, ← List.drop_drop, hdrop]
  exact slice_flatten hpiece rest

theorem packed_within : signatureHeaderSize +
    (session.writer.packInfo.sizes.map UInt64.toNat).sum ≤ file.length := by
  obtain ⟨rest, hdrop⟩ := h.drop_file hfinish
  have hlength := congrArg List.length hdrop
  rw [List.length_drop, List.length_append, List.length_flatten,
    ← h.packSizes_toNat hfinish hfile] at hlength
  obtain ⟨moreSizes, header, -, -, hlayout⟩ := ArchiveWriter.finish_cases hfinish
  have hstart : signatureHeaderSize ≤ file.length := by
    obtain ⟨-, rfl, rfl⟩ | ⟨encodedData, -, rfl, rfl⟩ := hlayout
    all_goals
      rw [archiveFile_length]
      omega
  omega

end

end Session.Filed

def contentAt (owned : List (Option (List UInt8))) (i : Nat) : List UInt8 :=
  (owned.getD i none).getD []

section

variable {owned : List (Option (List UInt8))}

theorem map_contentAt (owned : List (Option (List UInt8))) :
    ((List.range owned.length).filter fun i => (owned.getD i none).isSome).map (contentAt owned) =
      owned.reduceOption := by
  induction owned with
  | nil => rfl
  | cons content owned ih =>
      have hrest : ((List.range owned.length).filter fun i => (owned.getD i none).isSome).map
          (contentAt (content :: owned) ∘ Nat.succ) = owned.reduceOption := ih
      rw [List.length_cons, List.range_succ_eq_map, List.filter_cons, List.filter_map]
      cases content with
      | none =>
          rw [List.reduceOption_cons_of_none, ← hrest, ← List.map_map]
          rfl
      | some content =>
          rw [List.reduceOption_cons_of_some, ← hrest, ← List.map_map]
          rfl

theorem reduceOption_getElem? {i : Nat} {content : List UInt8}
    (h : owned[i]? = some (some content)) :
    owned.reduceOption[(owned.take i).reduceOption.length]? = some content := by
  induction owned generalizing i with
  | nil => cases h
  | cons first owned ih =>
      cases i with
      | zero =>
          cases h
          rfl
      | succ i =>
          have hrest := ih h
          cases first with
          | none => exact hrest
          | some first => exact hrest

abbrev OwnersOf (files : List ArchiveEntry) (owned : List (Option (List UInt8))) : Prop :=
  List.Forall₂ (fun file content => file.hasStream = content.isSome) files owned

theorem ownersOf_sameFile {crc32 : List UInt8 → UInt32} {files files' : List ArchiveEntry}
    (howns : List.Forall₂ (ArchiveEntry.Owns crc32) files owned)
    (hsame : List.Forall₂ ArchiveWriter.SameFile files files') : OwnersOf files' owned := by
  induction howns generalizing files' with
  | nil =>
      cases hsame
      exact .nil
  | @cons file content files owned hfirst _ ih =>
      cases hsame with
      | cons hsame hrest =>
          refine .cons ?_ (ih hrest)
          rw [hsame.2.1]
          cases content with
          | none => exact hfirst
          | some content => exact hfirst.1

theorem streamsBefore_owned {files : List ArchiveEntry} (h : OwnersOf files owned) (i : Nat) :
    streamsBefore files i = (owned.take i).reduceOption.length := by
  induction h generalizing i with
  | nil => simp [streamsBefore]
  | @cons file content files owned hfirst _ ih =>
      cases i with
      | zero => rfl
      | succ i =>
          rw [streamsBefore_cons_succ, ih, hfirst, List.take_succ_cons]
          cases content with
          | none =>
              rw [List.reduceOption_cons_of_none]
              exact Nat.zero_add _
          | some content =>
              rw [List.reduceOption_cons_of_some, List.length_cons]
              exact Nat.add_comm _ _

theorem hasStream_owned {files : List ArchiveEntry} (h : OwnersOf files owned) {i : Nat}
    {file : ArchiveEntry} (hfile : files[i]? = some file) :
    ∃ content, owned[i]? = some content ∧ file.hasStream = content.isSome := by
  obtain ⟨hlt, rfl⟩ := List.getElem?_eq_some_iff.mp hfile
  exact ⟨_, List.getElem?_eq_getElem (h.length_eq ▸ hlt), h.get hlt (h.length_eq ▸ hlt)⟩

theorem isStreamed_owned {archive : Archive} (h : OwnersOf archive.files owned) (i : Nat) :
    archive.isStreamed i = (owned.getD i none).isSome := by
  rw [List.getD_eq_getElem?_getD]
  cases hfile : archive.files[i]? with
  | none =>
      have hnone : owned[i]? = none := by
        rw [List.getElem?_eq_none_iff, ← h.length_eq]
        exact List.getElem?_eq_none_iff.mp hfile
      rw [Archive.isStreamed, hfile, hnone]
      rfl
  | some file =>
      obtain ⟨content, howned, hstream⟩ := hasStream_owned h hfile
      rw [Archive.isStreamed_eq hfile, hstream, howned]
      rfl

theorem streamedFiles_contents {archive : Archive} (h : OwnersOf archive.files owned) :
    archive.streamedFiles.map (contentAt owned) = owned.reduceOption := by
  have hstreamed : archive.isStreamed = fun i => (owned.getD i none).isSome :=
    funext (isStreamed_owned h)
  rw [Archive.streamedFiles, hstreamed, h.length_eq, map_contentAt]

end

structure Session.Taken (crc32 : List UInt8 → UInt32) (versions : CodecVersions)
    (session : Session) (archive : Archive) : Prop
    extends ArchiveWriter.ReadsArchive versions session.writer
      (session.stored.map (StoredBlock.subStreams crc32)) archive where
  described : archive.Described
  counts : archive.CountsAlike
  gaps : archive.LeavesGaps

namespace Session.Taken

variable {crc32 : List UInt8 → UInt32} {versions : CodecVersions} {session : Session}
  {archive : Archive} {owned : List (Option (List UInt8))}
  {uses : ContentEncoder → List EncoderConfiguration → Prop}
  (ht : session.Taken crc32 versions archive) (h : session.Filed crc32 uses owned)
include ht h

theorem blocks_length : archive.blocks.length = session.stored.length := by
  rw [ht.blocks, List.length_zipWith, List.length_map, List.length_map, h.blocks.length_eq,
    Nat.min_self]

theorem block_eq {b : Nat} {stored : StoredBlock} (hstored : session.stored[b]? = some stored) :
    ∃ info, session.writer.unpackInfo.blocks[b]? = some info ∧ info.Made crc32 uses stored ∧
      archive.blocks[b]? = some (withCount (info.block versions) (stored.subStreams crc32)) := by
  obtain ⟨hlt, rfl⟩ := List.getElem?_eq_some_iff.mp hstored
  have hlt' : b < session.writer.unpackInfo.blocks.length := h.made.length_eq.symm ▸ hlt
  refine ⟨_, List.getElem?_eq_getElem hlt', h.made.get hlt' hlt, ?_⟩
  rw [ht.blocks, List.getElem?_zipWith, List.getElem?_map, List.getElem?_map, hstored,
    List.getElem?_eq_getElem hlt']
  rfl

theorem subStreamCounts_eq : Block.subStreamCounts archive.blocks =
    session.stored.map fun block => block.contents.length := by
  have hlength : (session.writer.unpackInfo.blocks.map (BlockInfo.block versions)).length =
      (session.stored.map (StoredBlock.subStreams crc32)).length := by
    rw [List.length_map, List.length_map, h.blocks.length_eq]
  rw [ht.blocks, ArchiveWriter.subStreamCounts_withCount hlength, List.map_map]
  exact List.map_congr_left fun block _ => List.length_map _

theorem ownersOf : OwnersOf archive.files owned := ownersOf_sameFile h.owners ht.files

theorem outside {i : Nat} (howned : owned[i]? = some none) :
    archive.streamMap.fileBlockIndex[i]? = some none := by
  have howners := ht.ownersOf h
  obtain ⟨m, -, hcount⟩ := h.between i howned
  have hlt : i < archive.files.length :=
    howners.length_eq.symm ▸ (List.getElem?_eq_some_iff.mp howned).1
  have hfile : archive.files[i]? = some archive.files[i] := List.getElem?_eq_getElem hlt
  obtain ⟨content, hcontent, hstream⟩ := hasStream_owned howners hfile
  obtain rfl := Option.some.inj (howned.symm.trans hcontent)
  refine ht.gaps i m _ hfile hstream ?_
  rw [streamsBefore_owned howners, hcount, ht.subStreamCounts_eq h]

theorem streamedEntries_contents {b : Nat} {stored : StoredBlock}
    (hstored : session.stored[b]? = some stored) :
    (archive.streamedEntries b).map (contentAt owned) = stored.contents := by
  obtain ⟨info, -, -, hblock⟩ := ht.block_eq h hstored
  have hcount : (withCount (info.block versions) (stored.subStreams crc32)).numUnpackSubStreams =
      stored.contents.length := List.length_map _
  have hpiece : (session.stored.map StoredBlock.contents)[b]? = some stored.contents := by
    rw [List.getElem?_map, hstored]
    rfl
  have hslice := slice_flatten hpiece []
  rw [List.append_nil, List.map_map] at hslice
  rw [ht.counts.streamedEntries_eq hblock, hcount, List.map_take, List.map_drop,
    streamedFiles_contents (ht.ownersOf h), h.contents, ht.subStreamCounts_eq h, List.flatMap_def]
  exact hslice

theorem blockRange_eq {b : Nat} (hb : b < archive.blocks.length) :
    archive.blockRange b = archive.streamedEntries b ∧
      archive.streamMap.fileCount b = subStreamsOf archive.blocks b := by
  have hlt : b < session.stored.length := ht.blocks_length h ▸ hb
  have hstored : session.stored[b]? = some session.stored[b] := List.getElem?_eq_getElem hlt
  have hgaps : ∀ (i : Nat) (file : ArchiveEntry), archive.files[i]? = some file →
      file.hasStream = false → archive.streamMap.fileBlockIndex[i]? = some none := by
    intro i file hfile hstream
    obtain ⟨content, howned, hcontent⟩ := hasStream_owned (ht.ownersOf h) hfile
    cases content with
    | none => exact ht.outside h howned
    | some content => cases hstream.symm.trans hcontent
  have hrange := ht.described.mapped.range_eq_streamedEntries hgaps b
  have hlength := congrArg List.length (ht.streamedEntries_contents h hstored)
  have hcount : archive.streamMap.fileCount b = subStreamsOf archive.blocks b := by
    obtain ⟨info, -, -, hblock⟩ := ht.block_eq h hstored
    rw [List.length_map, ← hrange, List.length_range'] at hlength
    rw [hlength, subStreamsOf_eq hblock]
    exact (List.length_map _).symm
  exact ⟨by rw [Archive.blockRange, ← hcount, hrange], hcount⟩

theorem flatMap_blockRange {b : Nat} {stored : StoredBlock}
    (hstored : session.stored[b]? = some stored) :
    (archive.blockRange b).flatMap (contentAt owned) = stored.contents.flatten := by
  have hb : b < archive.blocks.length := by
    rw [ht.blocks_length h]
    exact (List.getElem?_eq_some_iff.mp hstored).1
  rw [(ht.blockRange_eq h hb).1, List.flatMap_def, ht.streamedEntries_contents h hstored]

theorem verified {i : Nat} {content : List UInt8} (howned : owned[i]? = some (some content)) :
    ∃ file, archive.files[i]? = some file ∧ file.hasStream = true ∧
      file.Verified crc32 content := by
  have howners := ht.ownersOf h
  have hlt : i < archive.files.length :=
    howners.length_eq.symm ▸ (List.getElem?_eq_some_iff.mp howned).1
  have hfile : archive.files[i]? = some archive.files[i] := List.getElem?_eq_getElem hlt
  obtain ⟨content', hcontent', hstream⟩ := hasStream_owned howners hfile
  obtain rfl := Option.some.inj (howned.symm.trans hcontent')
  obtain ⟨info, hinfo, hgives⟩ := ht.counts.gives i _ hfile hstream
  obtain ⟨info', hinfo', hlists⟩ := ht.subStreamsInfo
  obtain rfl := Option.some.inj (hinfo.symm.trans hinfo')
  have hstreams : (session.stored.map (StoredBlock.subStreams crc32)).flatten =
      owned.reduceOption.map (subStreamOf crc32) := by
    rw [h.contents, List.map_flatMap, List.flatMap_def]
    rfl
  have hstreamed : (session.stored.map (StoredBlock.subStreams crc32)).flatten[
      streamsBefore archive.files i]? = some (subStreamOf crc32 content) := by
    rw [hstreams, List.getElem?_map, streamsBefore_owned howners, reduceOption_getElem? howned]
    rfl
  have hsize := hgives.size
  have hcrc := hgives.crc
  rw [hlists.unpackSizes, List.getElem?_map, hstreamed] at hsize
  rw [hlists.crcs, List.getElem?_map, hstreamed] at hcrc
  have hcounted : content.length < 2 ^ 63 := by
    have hmem : content ∈ session.stored.flatMap StoredBlock.contents := by
      rw [← h.contents]
      exact List.mem_of_getElem? (reduceOption_getElem? howned)
    obtain ⟨stored, hstored, hcontent⟩ := List.mem_flatMap.mp hmem
    exact Nat.lt_of_le_of_lt (List.sublist_flatten_of_mem hcontent).length_le
      (h.counted stored hstored)
  refine ⟨_, hfile, hstream, ?_, Option.some.inj hcrc⟩
  rw [← Option.some.inj hsize]
  exact (UInt64.toNat_ofNat_of_lt' (show content.length < 2 ^ 64 by omega)).symm

theorem firstPack_eq {b : Nat} (hb : b < archive.blocks.length) :
    archive.streamMap.blockFirstPackStreamIndex[b]? = some b := by
  have hlength : (session.writer.unpackInfo.blocks.map (BlockInfo.block versions)).length =
      (session.stored.map (StoredBlock.subStreams crc32)).length := by
    rw [List.length_map, List.length_map, h.blocks.length_eq]
  have hlens : Block.packLens archive.blocks = List.replicate archive.blocks.length 1 := by
    rw [ht.blocks, List.length_zipWith, ← hlength, Nat.min_self, List.length_map,
      ← @ArchiveWriter.packLens_chain versions]
    exact ArchiveWriter.map_withCount (fun _ _ => rfl) hlength
  rw [ht.described.mapped.firstPack, hlens,
    starts_getElem? (by rwa [List.length_replicate]), offset, List.take_replicate,
    List.sum_replicate_nat, Nat.mul_one, Nat.min_eq_left (Nat.le_of_lt hb), Nat.zero_add]

omit h in
theorem packOffset_eq {b : Nat} (hb : b < session.writer.packInfo.sizes.length) :
    archive.streamMap.packStreamOffsets[b]? =
      some (offset (session.writer.packInfo.sizes.map UInt64.toNat) b) := by
  rw [ht.described.mapped.packOffsets, ht.packSizes,
    starts_getElem? (by rwa [List.length_map]), Nat.zero_add]

theorem blockCrc_eq {b : Nat} {stored : StoredBlock}
    (hstored : session.stored[b]? = some stored) {block : Block} (hplain : block.hasCrc = false)
    (hcount : block.numUnpackSubStreams = stored.contents.length) :
    ∃ crc, blockCrc archive block b = .ok crc ∧
      ∀ value ∈ crc, value = (crc32 stored.contents.flatten).toUInt64 := by
  obtain ⟨info, hinfo, hlists⟩ := ht.subStreamsInfo
  unfold blockCrc
  rw [hplain, if_neg Bool.false_ne_true, hinfo]
  dsimp only
  by_cases hone : block.numUnpackSubStreams = 1
  · obtain ⟨content, hcontent⟩ := List.length_eq_one_iff.mp (hcount.symm.trans hone)
    have hb : b < (session.stored.map fun block => block.contents.length).length := by
      rw [List.length_map]
      exact (List.getElem?_eq_some_iff.mp hstored).1
    have hfirst : archive.streamMap.blockFirstSubStreamIndex[b]? =
        some (offset (session.stored.map fun block => block.contents.length) b) := by
      rw [ht.described.mapped.firstSubStream, ht.subStreamCounts_eq h, starts_getElem? hb,
        Nat.zero_add]
    have hpiece : (session.stored.map (StoredBlock.subStreams crc32))[b]? =
        some [subStreamOf crc32 content] := by
      rw [List.getElem?_map, hstored, Option.map_some, StoredBlock.subStreams, hcontent]
      rfl
    have hslice := slice_flatten hpiece []
    rw [List.append_nil, List.map_map] at hslice
    have hcounts : List.map (List.length ∘ StoredBlock.subStreams crc32) session.stored =
        session.stored.map fun block => block.contents.length :=
      List.map_congr_left fun block _ => List.length_map _
    rw [hcounts] at hslice
    have hstream : (session.stored.map (StoredBlock.subStreams crc32)).flatten[
        offset (session.stored.map fun block => block.contents.length) b]? =
          some (subStreamOf crc32 content) := by
      have hhead := congrArg List.head? hslice
      rwa [List.length_singleton, List.head?_take, if_neg Nat.one_ne_zero, List.head?_drop,
        List.head?_cons] at hhead
    have hcrc : info.crcs[offset (session.stored.map fun block => block.contents.length) b]? =
        some (crc32 content).toUInt64 := by
      rw [hlists.crcs, List.getElem?_map, hstream]
      rfl
    have hlisted := hlists.hasCrc _ (List.getElem?_eq_some_iff.mp hstream).1
    rw [if_pos hone, Result.bind_of_ok (Result.index_eq_ok.mpr hfirst), if_pos hlisted,
      Result.bind_of_ok (Result.index_eq_ok.mpr hcrc)]
    refine ⟨_, rfl, ?_⟩
    rintro _ ⟨⟩
    rw [hcontent, List.flatten_singleton]
  · rw [if_neg hone]
    exact ⟨none, rfl, by simp⟩

end Session.Taken

end Sevenz
