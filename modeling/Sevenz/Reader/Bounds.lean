import Sevenz.Header.Accepted
import Sevenz.Header.StartHeader
import Sevenz.Reader.Visits
import Mathlib.Data.List.Perm.Subperm

/-!
# No index out of bounds while decoding

The indices a decode uses are those of the stream map, the block's graph and its sizes.  All
of them are in range for an accepted archive, but for the first pack stream of a block that
has none.
-/

namespace Sevenz

open Lib Result

theorem noPanic_checkAesCoders (limits : ArchiveLimits) (coders : List Coder) :
    NoPanic (checkAesCoders limits coders) := by
  induction coders with
  | nil => exact noPanic_ok _
  | cons coder coders ih =>
      refine NoPanic.bind ?_ fun _ _ => ih
      unfold checkAesCoder
      split
      · exact noPanic_ok _
      · exact (noPanic_okOr _ _).bind fun _ _ => noPanic_rejectIf _ _

theorem noPanic_addDecoder (codecs : Codecs) (decoder : Decoder) (stage : Stage) :
    NoPanic (codecs.addDecoder decoder stage) := by
  unfold Codecs.addDecoder
  split
  · exact noPanic_fail _
  · exact noPanic_ok _

theorem noPanic_seek (codecs : Codecs) (position : Nat) : NoPanic (codecs.seek position) := by
  unfold Codecs.seek
  split
  · exact noPanic_fail _
  · exact noPanic_ok _

theorem noPanic_addChain (codecs : Codecs) (block : Block) (unsupported : Error)
    (chain : List (Nat × Coder)) (decoder : Decoder) :
    NoPanic (addChain codecs block unsupported chain decoder) := by
  induction chain generalizing decoder with
  | nil => exact noPanic_ok _
  | cons link chain ih =>
      refine (noPanic_rejectIf _ _).bind fun _ _ => ?_
      exact (noPanic_addDecoder _ _ _).bind fun decoder' _ => ih decoder'

theorem noPanic_checkOutIndices (block : Block) (bindPairs : List BindPair) :
    NoPanic (checkOutIndices block bindPairs) := by
  induction bindPairs with
  | nil => exact noPanic_ok _
  | cons bp bindPairs ih => exact (noPanic_rejectIf _ _).bind fun _ _ => ih

theorem noPanic_getInStream {block : Block} {sources : List Decoder}
    {resolve : Nat → Result Decoder} (hsources : block.packedStreams.length ≤ sources.length)
    (hresolve : ∀ i, NoPanic (resolve i)) (i : Nat) :
    NoPanic (getInStream block sources resolve i) := by
  unfold getInStream
  split
  · rename_i index hindex
    refine noPanic_index.mpr (Nat.lt_of_lt_of_le ?_ hsources)
    rw [List.idxOf?_eq_some_iff] at hindex
    exact hindex.1
  · exact (noPanic_okOr _ _).bind fun bp _ => hresolve bp.outIndex

/-- Walking the graph from the output uses the pack streams' own positions only. -/
theorem noPanic_getInStream2 {codecs : Codecs} {block : Block} {sources : List Decoder}
    (hsources : block.packedStreams.length ≤ sources.length) (depthLeft index : Nat) :
    NoPanic (getInStream2 codecs block sources depthLeft index) := by
  induction depthLeft generalizing index with
  | zero => exact noPanic_fail _
  | succ depthLeft ih =>
      have hinput := noPanic_getInStream hsources ih
      unfold getInStream2
      refine (noPanic_okOr _ _).bind fun coder _ => ?_
      refine (noPanic_okOr _ _).bind fun size _ => ?_
      dsimp only
      split
      · exact (hinput _).bind fun _ _ => noPanic_addDecoder _ _ _
      · split
        · refine (noPanic_rejectIf _ _).bind fun _ _ => ?_
          refine (hinput _).bind fun _ _ => (hinput _).bind fun _ _ => ?_
          refine (hinput _).bind fun _ _ => (hinput _).bind fun _ _ => noPanic_ok _
        · exact noPanic_fail _

theorem Block.WellBound.packedStreams_pos {block : Block} (h : block.WellBound)
    (hmore : block.totalOutputStreams < block.totalInputStreams) :
    0 < block.packedStreams.length := by
  refine Nat.pos_of_ne_zero fun hnone => ?_
  have hnil := List.eq_nil_of_length_eq_zero hnone
  have hins : List.range block.totalInputStreams ⊆ block.bindPairs.map BindPair.inIndex := by
    intro i hi
    have := h.inOnce i (List.mem_range.mp hi)
    rw [hnil, List.count_nil, Nat.add_zero] at this
    exact List.count_pos_iff.mp (by omega)
  have houts : block.bindPairs.map BindPair.outIndex ⊆ List.range block.totalOutputStreams := by
    intro o ho
    obtain ⟨bp, hbp, rfl⟩ := List.mem_map.mp ho
    exact List.mem_range.mpr (h.bindRange bp hbp).2
  have hle := (List.subperm_of_subset List.nodup_range hins).length_le
  have hle' := (List.subperm_of_subset (List.nodup_iff_count.mpr h.outOnce) houts).length_le
  rw [List.length_range, List.length_map] at hle hle'
  omega

section Described

variable {archive : Archive} {b : Nat} {block : Block}

theorem Archive.Described.firstPack (h : archive.Described) (hb : archive.blocks[b]? = some block) :
    ∃ first, archive.streamMap.blockFirstPackStreamIndex[b]? = some first ∧
      first + block.packedStreams.length ≤ archive.packSizes.length := by
  have hlen : (Block.packLens archive.blocks)[b]? = some block.packedStreams.length := by
    rw [Block.packLens, List.getElem?_map, hb]
    rfl
  have hlt : b < (Block.packLens archive.blocks).length := (List.getElem?_eq_some_iff.mp hlen).1
  refine ⟨offset (Block.packLens archive.blocks) b, ?_, ?_⟩
  · rw [h.mapped.firstPack, starts_getElem? hlt, Nat.zero_add]
  · rw [← offset_succ hlen]
    exact (offset_le_sum _ _).trans h.mapped.packed

theorem Archive.Described.packStreamOffsets_length (h : archive.Described) :
    archive.streamMap.packStreamOffsets.length = archive.packSizes.length := by
  rw [h.mapped.packOffsets, starts_length, List.length_map]

theorem noPanic_withCheck (h : block.Parsed) (crc : Option UInt64) :
    NoPanic (withCheck block crc) := by
  cases crc with
  | none => exact noPanic_ok _
  | some crc =>
      obtain ⟨size, hsize⟩ := h.getUnpackSize_isOk
      exact (hsize ▸ noPanic_ok size : NoPanic block.getUnpackSize).bind fun _ _ => noPanic_ok _

theorem Archive.Described.firstSubStream (h : archive.Described) (hb : b < archive.blocks.length) :
    b < archive.streamMap.blockFirstSubStreamIndex.length := by
  rw [h.mapped.firstSubStream, starts_length, Block.subStreamCounts, List.length_map]
  exact hb

theorem noPanic_blockCrc (h : archive.Described) (hb : b < archive.blocks.length) :
    NoPanic (blockCrc archive block b) := by
  unfold blockCrc
  split
  · exact noPanic_ok _
  · split
    · exact noPanic_ok _
    · rename_i info hinfo
      split
      · refine (noPanic_index.mpr (h.firstSubStream hb)).bind fun index _ => ?_
        split
        · rename_i hcrc
          have hcovers := h.parsed.info info hinfo
          refine (noPanic_index.mpr ?_).bind fun _ _ => noPanic_ok _
          rw [hcovers.crcs]
          exact hcovers.hasCrc index hcrc
        · exact noPanic_ok _
      · exact noPanic_ok _

theorem noPanic_packSources {first startPos n i : Nat}
    (hle : first + (i + n) ≤ archive.packSizes.length) :
    NoPanic (packSources archive first startPos n i) := by
  induction n generalizing i with
  | zero => exact noPanic_ok _
  | succ n ih =>
      unfold packSources
      refine (noPanic_okOr _ _).bind fun packPos _ => ?_
      refine (noPanic_index.mpr (by omega)).bind fun packSize _ => ?_
      refine (noPanic_okOr _ _).bind fun _ _ => ?_
      exact (ih (by omega)).bind fun _ _ => noPanic_ok _

theorem packSources_length {first startPos n i : Nat} {sources : List Decoder}
    (h : packSources archive first startPos n i = .ok sources) : sources.length = n := by
  induction n generalizing i sources with
  | zero =>
      cases Result.pure_eq_ok.mp h
      rfl
  | succ n ih =>
      obtain ⟨packPos, -, h⟩ := Result.bind_eq_ok.mp h
      obtain ⟨packSize, -, h⟩ := Result.bind_eq_ok.mp h
      obtain ⟨_, -, h⟩ := Result.bind_eq_ok.mp h
      obtain ⟨rest, hrest, h⟩ := Result.bind_eq_ok.mp h
      cases Result.pure_eq_ok.mp h
      rw [List.length_cons, ih hrest]

theorem noPanic_buildDecodeStack2 (h : archive.Described) (codecs : Codecs)
    (hb : archive.blocks[b]? = some block)
    (hmore : block.totalOutputStreams < block.totalInputStreams) :
    NoPanic (buildDecodeStack2 codecs archive b) := by
  have hparsed := h.parsed.blocks block (List.mem_of_getElem? hb)
  have hpos := hparsed.wellBound.packedStreams_pos hmore
  obtain ⟨first, hfirst, hle⟩ := h.firstPack hb
  unfold buildDecodeStack2
  rw [bind_of_ok (index_eq_ok.mpr hb)]
  refine (noPanic_rejectIf _ _).bind fun _ _ => ?_
  rw [bind_of_ok (index_eq_ok.mpr hfirst)]
  refine (noPanic_okOr _ _).bind fun startPos _ => ?_
  refine (noPanic_sliceCheck.mpr (h.packStreamOffsets_length ▸ hle)).bind fun _ _ => ?_
  refine (noPanic_packSources (by rwa [Nat.zero_add])).bind fun sources hsources => ?_
  refine (noPanic_checkOutIndices _ _).bind fun _ _ => ?_
  refine (noPanic_getInStream2 (packSources_length hsources).ge _ _).bind fun decoder _ => ?_
  refine (noPanic_withCheck hparsed _).bind fun check _ => ?_
  exact (noPanic_index.mpr (by omega)).bind fun _ _ => noPanic_ok _

/-- Where decoding a block can start: its coders are refused for their AES work, or there is
a pack stream at the block's first index, as there is where the block has any of its own. -/
def Archive.HasFirstPackStream (archive : Archive) (limits : ArchiveLimits) (b : Nat)
    (block : Block) : Prop :=
  checkAesCoders limits block.coders = .ok () → block.packedStreams = [] →
    archive.streamMap.blockFirstPackStreamIndex.getD b 0 < archive.packSizes.length

theorem noPanic_buildDecodeStack_iff (h : archive.Described) {fileLen : Nat}
    (hwithin : archive.PackedWithin fileLen) (codecs : Codecs) (limits : ArchiveLimits)
    (hb : archive.blocks[b]? = some block) :
    NoPanic (buildDecodeStack codecs limits archive b) ↔
      archive.HasFirstPackStream limits b block := by
  have hparsed := h.parsed.blocks block (List.mem_of_getElem? hb)
  have hlt : b < archive.blocks.length := (List.getElem?_eq_some_iff.mp hb).1
  obtain ⟨first, hfirst, hle⟩ := h.firstPack hb
  have hgetD : archive.streamMap.blockFirstPackStreamIndex.getD b 0 = first := by
    rw [List.getD_eq_getElem?_getD, hfirst]
    rfl
  unfold buildDecodeStack Archive.HasFirstPackStream
  rw [bind_of_ok (index_eq_ok.mpr hb), hgetD]
  cases haes : checkAesCoders limits block.coders with
  | error e =>
      refine iff_of_true ?_ fun hok => by cases hok
      exact (haes ▸ noPanic_checkAesCoders limits block.coders).bind fun _ hok => by cases hok
  | ok u =>
      rw [bind_of_ok rfl]
      split
      · rename_i hmore
        refine iff_of_true (noPanic_buildDecodeStack2 h codecs hb hmore) fun _ hnil => ?_
        have := hparsed.wellBound.packedStreams_pos hmore
        rw [hnil] at this
        exact absurd this (Nat.lt_irrefl 0)
      · rw [bind_of_ok (index_eq_ok.mpr hfirst)]
        unfold blockOffset
        rw [hwithin.packStart]
        dsimp only
        by_cases hin : first < archive.packSizes.length
        · refine iff_of_true ?_ fun _ _ => hin
          refine NoPanic.bind ?_ fun position _ => ?_
          · refine (noPanic_index.mpr (h.packStreamOffsets_length ▸ hin)).bind fun _ _ => ?_
            exact noPanic_okOr _ _
          · refine (noPanic_blockCrc h hlt).bind fun crc _ => ?_
            refine (noPanic_seek _ _).bind fun _ _ => ?_
            refine (noPanic_index.mpr hin).bind fun packSize _ => ?_
            refine (noPanic_addChain _ _ _ _ _).bind fun decoder _ => ?_
            exact (noPanic_withCheck hparsed _).bind fun _ _ => noPanic_ok _
        · have hout : Result.index archive.streamMap.packStreamOffsets first =
              .error (.panic .indexOutOfBounds) := by
            rw [Result.index, List.getElem?_eq_none]
            rw [h.packStreamOffsets_length]
            exact Nat.le_of_not_lt hin
          refine iff_of_false ?_ fun hcond => hin (hcond rfl ?_)
          · rw [hout]
            exact fun hno => hno _ rfl
          · exact List.eq_nil_of_length_eq_zero (by omega)

theorem fileBoundaries_isOk (h : archive.Described) (hb : b < archive.blocks.length) :
    ∃ splits, fileBoundaries archive b = .ok splits := by
  unfold fileBoundaries
  rw [bind_of_ok (index_of_lt hb)]
  split
  · exact ⟨[], rfl⟩
  · rw [bind_of_ok (index_of_lt (h.mapped.firstFile.symm ▸ hb))]
    dsimp only
    split
    · exact ⟨_, rfl⟩
    · split
      · exact ⟨_, rfl⟩
      · exact ⟨_, rfl⟩

theorem checksumSplits_isOk {d : BlockDecoder} (h : d.archive.Described)
    (hb : d.blockIndex < d.archive.blocks.length) : ∃ splits, d.checksumSplits = .ok splits := by
  unfold BlockDecoder.checksumSplits
  split
  · exact fileBoundaries_isOk h hb
  · exact ⟨[], rfl⟩

theorem noPanic_openBlock_iff {d : BlockDecoder} (h : d.archive.Described)
    (hb : d.blockIndex < d.archive.blocks.length) :
    NoPanic d.openBlock ↔
      NoPanic (buildDecodeStack d.codecs d.limits d.archive d.blockIndex) := by
  obtain ⟨splits, hsplits⟩ := checksumSplits_isOk h hb
  unfold BlockDecoder.openBlock
  rw [bind_of_ok hsplits]
  refine (noPanic_bind_iff fun stack _ => ?_).trans noPanic_mapErr
  refine (noPanic_index.mpr (h.mapped.firstFile.symm ▸ hb)).bind fun start _ => ?_
  refine (noPanic_index.mpr hb).bind fun block _ => ?_
  exact (noPanic_index.mpr (h.firstSubStream hb)).bind fun _ _ => noPanic_ok _

theorem noPanic_answerResult (answer : Option (Except Error Bool)) :
    NoPanic (answerResult answer) := by
  unfold answerResult
  split
  · exact fun p hp => by cases hp
  · exact noPanic_fail _
  · exact noPanic_ok _

theorem noPanic_visitEntry (d : OpenBlock) (each : Callback) (fileIndex : Nat)
    (file : ArchiveEntry) (st : BlockState) :
    NoPanic (d.visitEntry each fileIndex file st).1 := by
  unfold OpenBlock.visitEntry
  split
  · unfold OpenBlock.visitStream
    dsimp only
    split
    · exact fun p hp => by cases hp
    · exact noPanic_fail _
    · unfold OpenBlock.finishEntry
      split
      · exact noPanic_fail _
      · exact noPanic_ok _
  · exact noPanic_answerResult _

theorem noPanic_walkEntries (d : OpenBlock) (each : Callback) {files : List Nat}
    (hfiles : ∀ i ∈ files, i < d.archive.files.length) (st : BlockState) :
    NoPanic (d.walkEntries each files st).1 := by
  induction files generalizing st with
  | nil => exact noPanic_ok _
  | cons i files ih =>
      obtain ⟨file, hfile⟩ : ∃ file, d.archive.files[i]? = some file :=
        ⟨_, List.getElem?_eq_getElem (hfiles i List.mem_cons_self)⟩
      have hvisit := noPanic_visitEntry d each i file st
      unfold OpenBlock.walkEntries
      rw [hfile]
      dsimp only
      split
      · exact ih (fun j hj => hfiles j (List.mem_cons_of_mem i hj)) _
      · rename_i answer st' _ hstep
        rw [hstep] at hvisit
        exact hvisit

theorem noPanic_walk {d : BlockDecoder} {opened : OpenBlock} (h : d.archive.Described)
    (hopen : d.openBlock = .ok opened) (each : Callback) (log : WalkLog) :
    NoPanic (opened.walk each log).1 := by
  obtain ⟨rfl, hblock, hstart, -, -⟩ := openBlock_eq_ok hopen
  have hb : opened.blockIndex < opened.archive.blocks.length :=
    (List.getElem?_eq_some_iff.mp hblock).1
  have hfiles : ∀ i ∈ List.range' opened.start opened.block.numUnpackSubStreams,
      i < opened.archive.files.length := by
    intro i hi
    have hfits := h.mapped.fits opened.blockIndex hb
    rw [subStreamsOf_eq hblock, StreamMap.firstFile, List.getD_eq_getElem?_getD, hstart] at hfits
    exact Nat.lt_of_lt_of_le (List.mem_range'_1.mp hi).2 hfits
  have hwalk := noPanic_walkEntries opened each hfiles (opened.initial log)
  unfold OpenBlock.walk
  split
  · unfold OpenBlock.checkFolded
    split
    · obtain ⟨size, hsize⟩ :=
        (h.parsed.blocks opened.block (List.mem_of_getElem? hblock)).getUnpackSize_isOk
      rw [bind_of_ok hsize]
      exact (noPanic_rejectIf _ _).bind fun _ _ => noPanic_ok _
    · exact noPanic_ok _
  · rename_i answer st _ hstep
    rw [hstep] at hwalk
    exact hwalk

theorem noPanic_forEachEntries_iff {d : BlockDecoder} (h : d.archive.Described)
    (hb : d.blockIndex < d.archive.blocks.length) (each : Callback) (log : WalkLog) :
    NoPanic (d.forEachEntries each log).1 ↔
      NoPanic (buildDecodeStack d.codecs d.limits d.archive d.blockIndex) := by
  rw [← noPanic_openBlock_iff h hb]
  unfold BlockDecoder.forEachEntries
  split
  · rename_i e hopen
    rw [hopen]
    exact ⟨fun hno p hp => hno p (by cases hp; rfl), fun hno p hp => hno p (by cases hp; rfl)⟩
  · rename_i opened hopen
    rw [hopen]
    exact iff_of_true (noPanic_walk h hopen each log) (noPanic_ok _)

end Described

/-- Computing the stream map of an accepted archive, building the decode stack of one of its
blocks and walking the block's entries panic nowhere, exactly where decoding the block has a
pack stream to start from or its coders are refused before. -/
theorem readWithLimits_noPanic_iff {codecs : Codecs} {limits : ArchiveLimits}
    {passwordGiven : Bool} {file : List UInt8} {archive : Archive}
    (h : readWithLimits codecs limits passwordGiven file = .ok archive) {d : BlockDecoder}
    (hd : d.archive = archive) {block : Block} (hb : archive.blocks[d.blockIndex]? = some block) :
    (NoPanic (calculateStreamMap archive) ∧
        NoPanic (buildDecodeStack d.codecs d.limits archive d.blockIndex) ∧
        ∀ each log, NoPanic (d.forEachEntries each log).1) ↔
      archive.HasFirstPackStream d.limits d.blockIndex block := by
  subst hd
  have hdescribed := readWithLimits_described h
  have hlt : d.blockIndex < d.archive.blocks.length := (List.getElem?_eq_some_iff.mp hb).1
  rw [← noPanic_buildDecodeStack_iff hdescribed (readWithLimits_packedWithin h) d.codecs
    d.limits hb]
  constructor
  · exact fun hall => hall.2.1
  · exact fun hbuild => ⟨noPanic_calculateStreamMap _, hbuild,
      fun each log => (noPanic_forEachEntries_iff hdescribed hlt each log).mpr hbuild⟩

def noInputFile : List UInt8 :=
  archiveFile crc32 []
    [kHeader, kMainStreamsInfo,
      kUnpackInfo, kFolder, 1, 0, 1, 0x11, 0, 0, 1, kCodersUnpackSize, 0, kEnd, kEnd, kEnd]

def copyingBlockDecoder (file : List UInt8) (archive : Archive) : BlockDecoder :=
  (copyingReader file archive).blockDecoder 0

theorem noInputFile_accepted : ∃ archive block,
    readWithLimits (.copying noInputFile) {} false noInputFile = .ok archive ∧
      archive.blocks[0]? = some block ∧
      buildDecodeStack (.copying noInputFile) {} archive 0 = .error (.panic .indexOutOfBounds) := by
  obtain ⟨archive, hread, hcheck⟩ := Result.exists_of_holds
    (show (readWithLimits (.copying noInputFile) {} false noInputFile).holds
      (fun archive => archive.blocks[0]?.any fun _ =>
        buildDecodeStack (.copying noInputFile) {} archive 0 =
          .error (.panic .indexOutOfBounds)) = true by decide +kernel)
  obtain ⟨block, hblock, hpanic⟩ := (Option.any_eq_true _ _).mp hcheck
  exact ⟨archive, block, hread, hblock, of_decide_eq_true hpanic⟩

theorem noInputFile_noPanic_iff : ∃ archive block,
    readWithLimits (.copying noInputFile) {} false noInputFile = .ok archive ∧
      archive.blocks[0]? = some block ∧
      ((NoPanic (calculateStreamMap archive) ∧
          NoPanic (buildDecodeStack (.copying noInputFile) {} archive 0) ∧
          ∀ each log,
            NoPanic ((copyingBlockDecoder noInputFile archive).forEachEntries each log).1) ↔
        archive.HasFirstPackStream {} 0 block) := by
  obtain ⟨archive, block, hread, hblock, -⟩ := noInputFile_accepted
  exact ⟨archive, block, hread, hblock,
    readWithLimits_noPanic_iff hread (d := copyingBlockDecoder noInputFile archive) rfl hblock⟩

/-- Its decode stack is looked for at a pack stream the archive does not have. -/
theorem noInputFile_panics : ∃ archive,
    readWithLimits (.copying noInputFile) {} false noInputFile = .ok archive ∧
      0 < archive.blocks.length ∧
      buildDecodeStack (.copying noInputFile) {} archive 0 = .error (.panic .indexOutOfBounds) := by
  obtain ⟨archive, block, hread, hblock, hpanic⟩ := noInputFile_accepted
  exact ⟨archive, hread, (List.getElem?_eq_some_iff.mp hblock).1, hpanic⟩

end Sevenz
