import Sevenz.Header.FileSpans
import Sevenz.Header.WellFormed

/-!
# Counts that match

`calculate_stream_map` succeeds where the blocks have just the sub-streams that the files with a
stream take.
-/

namespace Sevenz

open Lib

/-- The file loop before the `i`th file, with `n` files with a stream to come: the blocks have
that many sub-streams left. -/
structure Dealing (blocks : List Block) (n i : Nat) (st : MapState) : Prop where
  length : st.blockFirstFileIndex.length = blocks.length
  firsts : ∀ first ∈ st.blockFirstFileIndex, first ≤ i
  left : countSubStreams (blocks.drop st.nextBlockIndex) = n + st.nextBlockUnpackStreamIndex
  room : st.nextBlockUnpackStreamIndex ≠ 0 → ∃ block, blocks[st.nextBlockIndex]? = some block ∧
    st.nextBlockUnpackStreamIndex < block.numUnpackSubStreams

theorem countSubStreams_drop {blocks : List Block} {b : Nat} {block : Block}
    (h : blocks[b]? = some block) :
    countSubStreams (blocks.drop b) =
      block.numUnpackSubStreams + countSubStreams (blocks.drop (b + 1)) := by
  obtain ⟨hlt, rfl⟩ := List.getElem?_eq_some_iff.mp h
  rw [List.drop_eq_getElem_cons hlt, countSubStreams, List.map_cons, List.sum_cons]
  rfl

theorem Dealing.next {blocks : List Block} {n i j : Nat} {st : MapState}
    (h : Dealing blocks n i st) (hij : i ≤ j) : Dealing blocks n j st :=
  { h with firsts := fun first hfirst => (h.firsts first hfirst).trans hij }

theorem seekBlock_isOk {blocks : List Block} {n i fuel : Nat} {st : MapState}
    (h : Dealing blocks n i st) (hnew : st.nextBlockUnpackStreamIndex = 0) (hn : 0 < n)
    (hfuel : fuel = blocks.length - st.nextBlockIndex) :
    ∃ st' block, seekBlock blocks i fuel st = .ok st' ∧ Dealing blocks n i st' ∧
      st'.nextBlockUnpackStreamIndex = 0 ∧ blocks[st'.nextBlockIndex]? = some block ∧
      0 < block.numUnpackSubStreams := by
  have hlt : st.nextBlockIndex < blocks.length := by
    by_contra hge
    have hleft := h.left
    rw [List.drop_of_length_le (by omega), hnew] at hleft
    simp [countSubStreams] at hleft
    omega
  induction fuel generalizing st with
  | zero => omega
  | succ fuel ih =>
      have hset : Result.setIndex st.blockFirstFileIndex st.nextBlockIndex i =
          .ok (st.blockFirstFileIndex.set st.nextBlockIndex i) :=
        Result.setIndex_of_lt (by rwa [h.length])
      have hget : blocks[st.nextBlockIndex]? = some blocks[st.nextBlockIndex] :=
        List.getElem?_eq_getElem hlt
      have hfirsts : ∀ first ∈ st.blockFirstFileIndex.set st.nextBlockIndex i, first ≤ i := by
        intro first hfirst
        cases List.mem_or_eq_of_mem_set hfirst with
        | inl hmem => exact h.firsts first hmem
        | inr heq => exact Nat.le_of_eq heq
      rw [seekBlock, Result.bind_of_ok hset, Result.bind_of_ok (Result.index_of_lt hlt)]
      by_cases hpos : blocks[st.nextBlockIndex].numUnpackSubStreams > 0
      · rw [if_pos hpos]
        exact ⟨_, blocks[st.nextBlockIndex], rfl,
          ⟨by simpa using h.length, hfirsts, h.left, h.room⟩, hnew, hget, hpos⟩
      · rw [if_neg hpos]
        have hleft := h.left
        rw [countSubStreams_drop hget, Nat.eq_zero_of_not_pos hpos, Nat.zero_add] at hleft
        have hdealing : Dealing blocks n i
            { st with
              blockFirstFileIndex := st.blockFirstFileIndex.set st.nextBlockIndex i
              nextBlockIndex := st.nextBlockIndex + 1 } :=
          ⟨by simpa using h.length, hfirsts, hleft, fun hne => absurd hnew hne⟩
        have hlt' : st.nextBlockIndex + 1 < blocks.length := by
          by_contra hge
          rw [List.drop_of_length_le (by omega), hnew] at hleft
          simp [countSubStreams] at hleft
          omega
        exact ih hdealing hnew (by dsimp only; omega) hlt'

theorem startBlock_isOk {blocks : List Block} {n i : Nat} {st : MapState}
    (h : Dealing blocks n i st) (hn : 0 < n ∨ st.nextBlockUnpackStreamIndex ≠ 0) :
    ∃ st' block, startBlock blocks i st = .ok st' ∧ Dealing blocks n i st' ∧
      blocks[st'.nextBlockIndex]? = some block ∧
      st'.nextBlockUnpackStreamIndex < block.numUnpackSubStreams := by
  unfold startBlock
  by_cases hnew : st.nextBlockUnpackStreamIndex = 0
  · obtain ⟨st', block, hseek, hdealing, hnew', hget, hpos⟩ :=
      seekBlock_isOk h hnew (hn.resolve_right (not_not.mpr hnew)) rfl
    have hlt := (List.getElem?_eq_some_iff.mp hget).1
    refine ⟨st', block, ?_, hdealing, hget, by omega⟩
    rw [if_pos hnew, Result.bind_of_ok hseek,
      Result.bind_of_ok ((Result.rejectIf_eq_ok (u := ())).mpr (Nat.not_le.mpr hlt))]
    rfl
  · obtain ⟨block, hget, hroom⟩ := h.room hnew
    exact ⟨st, block, by rw [if_neg hnew]; rfl, h, hget, hroom⟩

theorem Dealing.takeSubStream {blocks : List Block} {n i : Nat} {st : MapState} {block : Block}
    (h : Dealing blocks (n + 1) i st) (hget : blocks[st.nextBlockIndex]? = some block)
    (hroom : st.nextBlockUnpackStreamIndex < block.numUnpackSubStreams) :
    Dealing blocks n i (st.takeSubStream block) := by
  have hleft := h.left
  rw [countSubStreams_drop hget] at hleft
  unfold MapState.takeSubStream
  split
  · exact ⟨h.length, h.firsts, by dsimp only; omega, fun hne => absurd rfl hne⟩
  · refine ⟨h.length, h.firsts, ?_, fun _ => ⟨block, hget, by dsimp only; omega⟩⟩
    dsimp only
    rw [countSubStreams_drop hget]
    omega

/-- Each block with sub-streams has a pack stream to record the size of. -/
def FirstPacksIn (blocks : List Block) (packSizes : List UInt64) (firstPack : List Nat) : Prop :=
  ∀ (b : Nat) (block : Block), blocks[b]? = some block → 0 < block.numUnpackSubStreams →
    ∃ first, firstPack[b]? = some first ∧ first < packSizes.length

theorem mapFile_isOk {blocks : List Block} {packSizes : List UInt64} {firstPack : List Nat}
    {n i : Nat} {file : ArchiveEntry} {st : MapState} (hpacks : FirstPacksIn blocks packSizes firstPack)
    (h : Dealing blocks (n + file.hasStream.toNat) i st) :
    ∃ x file' st', mapFile blocks packSizes firstPack i file st = .ok (x, file', st') ∧
      Dealing blocks n i st' := by
  unfold mapFile
  by_cases hfree : file.hasStream = false ∧ st.nextBlockUnpackStreamIndex = 0
  · rw [hfree.1] at h
    exact ⟨none, file, st, by rw [if_pos hfree]; rfl, h⟩
  · rw [if_neg hfree]
    cases hstream : file.hasStream with
    | false =>
        rw [hstream] at h hfree
        obtain ⟨st', block, hstart, hdealing, -, -⟩ :=
          startBlock_isOk h (.inr fun hzero => hfree ⟨rfl, hzero⟩)
        exact ⟨some st'.nextBlockIndex, file, st', by rw [Result.bind_of_ok hstart]; rfl, hdealing⟩
    | true =>
        rw [hstream] at h
        obtain ⟨st', block, hstart, hdealing, hget, hroom⟩ :=
          startBlock_isOk h (.inl (Nat.succ_pos n))
        have hlt := (List.getElem?_eq_some_iff.mp hget).1
        obtain ⟨first, hfirst, hpack⟩ := hpacks _ _ hget (Nat.zero_lt_of_lt hroom)
        have hsize : ∃ file', setCompressedSize packSizes firstPack i st' file = .ok file' := by
          unfold setCompressedSize
          rw [Result.bind_of_ok (Result.index_of_lt (by rwa [hdealing.length]))]
          split
          · rw [Result.bind_of_ok (Result.index_eq_ok.mpr hfirst),
              Result.bind_of_ok (Result.okOr_eq_ok.mpr (List.getElem?_eq_getElem hpack))]
            exact ⟨_, rfl⟩
          · exact ⟨file, rfl⟩
        obtain ⟨file', hsize⟩ := hsize
        refine ⟨some st'.nextBlockIndex, file', st'.takeSubStream block, ?_,
          hdealing.takeSubStream hget hroom⟩
        rw [Result.bind_of_ok hstart, if_neg (by simp), Result.bind_of_ok hsize,
          Result.bind_of_ok (Result.index_eq_ok.mpr hget)]
        rfl

theorem mapFiles_isOk {blocks : List Block} {packSizes : List UInt64} {firstPack : List Nat}
    {i : Nat} {files : List ArchiveEntry} {st : MapState}
    (hpacks : FirstPacksIn blocks packSizes firstPack)
    (h : Dealing blocks (files.countP ArchiveEntry.hasStream) i st) :
    ∃ xs files' st', mapFiles blocks packSizes firstPack i files st = .ok (xs, files', st') ∧
      Dealing blocks 0 (i + files.length) st' := by
  induction files generalizing i st with
  | nil => exact ⟨[], [], st, rfl, h⟩
  | cons file files ih =>
      have hcount : (file :: files).countP ArchiveEntry.hasStream =
          files.countP ArchiveEntry.hasStream + file.hasStream.toNat := by
        rw [List.countP_cons]
        cases file.hasStream <;> rfl
      rw [hcount] at h
      obtain ⟨x, file', st₁, hfile, hdealing⟩ := mapFile_isOk hpacks h
      obtain ⟨xs, files', st', hfiles, hend⟩ := ih (hdealing.next (Nat.le_succ i))
      refine ⟨x :: xs, file' :: files', st', ?_, hend.next (by rw [List.length_cons]; omega)⟩
      rw [mapFiles, Result.bind_of_ok hfile]
      dsimp only
      rw [Result.bind_of_ok hfiles]
      rfl

theorem packStreamIndices_isOk {k next : Nat} {blocks : List Block}
    (hfits : next + (Block.packLens blocks).sum ≤ k) (hk : k < 2 ^ 64) :
    packStreamIndices k blocks next = .ok (starts next (Block.packLens blocks)) := by
  induction blocks generalizing next with
  | nil => rfl
  | cons block blocks ih =>
      rw [Block.packLens, List.map_cons, List.sum_cons] at hfits
      change next + (_ + (Block.packLens blocks).sum) ≤ k at hfits
      have hadd : checkedAdd next block.packedStreams.length =
          some (next + block.packedStreams.length) :=
        checkedAdd_eq_some.mpr ⟨by omega, rfl⟩
      rw [packStreamIndices, Result.bind_of_ok (Result.okOr_eq_ok.mpr hadd),
        Result.bind_of_ok ((Result.rejectIf_eq_ok (u := ())).mpr (by omega)),
        Result.bind_of_ok (ih (by omega))]
      rfl

theorem subStreamIndices_isOk {next : Nat} {blocks : List Block}
    (hfits : next + (Block.subStreamCounts blocks).sum < 2 ^ 64) :
    subStreamIndices blocks next = .ok (starts next (Block.subStreamCounts blocks)) := by
  induction blocks generalizing next with
  | nil => rfl
  | cons block blocks ih =>
      rw [Block.subStreamCounts, List.map_cons, List.sum_cons] at hfits
      change next + (_ + (Block.subStreamCounts blocks).sum) < 2 ^ 64 at hfits
      have hadd : checkedAdd next block.numUnpackSubStreams =
          some (next + block.numUnpackSubStreams) :=
        checkedAdd_eq_some.mpr ⟨by omega, rfl⟩
      rw [subStreamIndices, Result.bind_of_ok (Result.okOr_eq_ok.mpr hadd),
        Result.bind_of_ok (ih (by omega))]
      rfl

theorem packStreamOffsets_isOk {next : Nat} {sizes : List UInt64}
    (hfits : next + (sizes.map UInt64.toNat).sum < 2 ^ 64) :
    packStreamOffsets sizes next = .ok (starts next (sizes.map UInt64.toNat)) := by
  induction sizes generalizing next with
  | nil => rfl
  | cons size sizes ih =>
      rw [List.map_cons, List.sum_cons] at hfits
      have hadd : checkedAdd next size.toNat = some (next + size.toNat) :=
        checkedAdd_eq_some.mpr ⟨by omega, rfl⟩
      rw [packStreamOffsets, Result.bind_of_ok (Result.okOr_eq_ok.mpr hadd),
        Result.bind_of_ok (ih (by omega))]
      rfl

theorem checkFileSpans_isOk {numFiles b : Nat} {firsts : List Nat} {blocks : List Block}
    (hlength : b + blocks.length ≤ firsts.length) (hmachine : numFiles < 2 ^ 64)
    (hfits : ∀ k < blocks.length, firsts.getD (b + k) 0 + subStreamsOf blocks k ≤ numFiles) :
    checkFileSpans numFiles firsts b blocks = .ok () := by
  induction blocks generalizing b with
  | nil => rfl
  | cons block blocks ih =>
      rw [List.length_cons] at hlength
      have hlt : b < firsts.length := by omega
      have hfirst := hfits 0 (by simp)
      rw [Nat.add_zero, List.getD_eq_getElem?_getD, List.getElem?_eq_getElem hlt,
        subStreamsOf_eq (show (block :: blocks)[0]? = some block from rfl)] at hfirst
      change firsts[b] + _ ≤ _ at hfirst
      have hadd : checkedAdd firsts[b] block.numUnpackSubStreams =
          some (firsts[b] + block.numUnpackSubStreams) :=
        checkedAdd_eq_some.mpr ⟨by omega, rfl⟩
      rw [checkFileSpans, Result.bind_of_ok (Result.index_of_lt hlt),
        Result.bind_of_ok (Result.okOr_eq_ok.mpr hadd),
        Result.bind_of_ok ((Result.rejectIf_eq_ok (u := ())).mpr (by omega))]
      apply ih (by omega)
      intro k hk
      have := hfits (k + 1) (by rw [List.length_cons]; omega)
      rwa [show b + (k + 1) = b + 1 + k by omega] at this

/-- The blocks describe just the sub-streams the files take, each block with sub-streams has a
pack stream, and the sums are in range. -/
structure Archive.CountsMatch (archive : Archive) : Prop where
  subStreams : countSubStreams archive.blocks = archive.files.countP ArchiveEntry.hasStream
  packed : (Block.packLens archive.blocks).sum ≤ archive.packSizes.length
  blocks : ∀ block ∈ archive.blocks, 0 < block.numUnpackSubStreams → block.packedStreams ≠ []
  machine : archive.packSizes.length < 2 ^ 64
  files : archive.files.length < 2 ^ 64
  sizes : (archive.packSizes.map UInt64.toNat).sum < 2 ^ 64

theorem Archive.CountsMatch.firstPacksIn {archive : Archive} (h : archive.CountsMatch) :
    FirstPacksIn archive.blocks archive.packSizes
      (starts 0 (Block.packLens archive.blocks)) := by
  intro b block hget hpos
  have hlt := (List.getElem?_eq_some_iff.mp hget).1
  have hlen : (Block.packLens archive.blocks)[b]? = some block.packedStreams.length := by
    rw [Block.packLens, List.getElem?_map, hget]
    rfl
  have hstart : (starts 0 (Block.packLens archive.blocks))[b]? =
      some (0 + offset (Block.packLens archive.blocks) b) :=
    starts_getElem? (by simpa [Block.packLens] using hlt)
  have hnext := offset_succ hlen
  have hle := offset_le_sum (Block.packLens archive.blocks) (b + 1)
  have hne := List.length_pos_of_ne_nil (h.blocks block (List.mem_of_getElem? hget) hpos)
  have hpacked := h.packed
  exact ⟨_, hstart, by omega⟩

theorem MapInvariant.fits {blocks : List Block} {indices : List (Option Nat)} {st : MapState}
    (h : MapInvariant blocks indices st) (hend : Dealing blocks 0 indices.length st) {b : Nat}
    (hb : b < blocks.length) : st.first b + subStreamsOf blocks b ≤ indices.length := by
  have hget : blocks[b]? = some blocks[b] := List.getElem?_eq_getElem hb
  by_cases hpassed : b < st.nextBlockIndex
  · have htaken := (h.passed b hpassed).1
    cases hcount : indices.count (some b) with
    | zero =>
        have hfirst := hend.firsts (st.first b) (by
          rw [MapState.first, List.getD_eq_getElem?_getD,
            List.getElem?_eq_getElem (by rwa [hend.length])]
          exact List.getElem_mem _)
        omega
    | succ n =>
        have hlast := (h.spans b (st.first b + n)).mpr ⟨by omega, by omega⟩
        have := (List.getElem?_eq_some_iff.mp hlast).1
        omega
  · have hleft := hend.left
    have hnew : st.nextBlockUnpackStreamIndex = 0 := by
      by_contra hne
      obtain ⟨block, hblock, hroom⟩ := hend.room hne
      rw [countSubStreams_drop hblock] at hleft
      omega
    have hmem : blocks[b] ∈ blocks.drop st.nextBlockIndex := by
      rw [List.mem_drop_iff_getElem]
      exact ⟨b - st.nextBlockIndex, by omega, by simp [Nat.add_sub_cancel' (Nat.le_of_not_lt hpassed)]⟩
    have hzero := List.le_sum_of_mem (List.mem_map_of_mem (f := Block.numUnpackSubStreams) hmem)
    change _ ≤ countSubStreams (blocks.drop st.nextBlockIndex) at hzero
    have huntouched := (h.untouched b (MapState.untouched_of hpassed fun hin => hin.2 hnew)).1
    rw [subStreamsOf_eq hget]
    omega

theorem calculateStreamMap_isOk {archive : Archive} (h : archive.CountsMatch) :
    ∃ archive', calculateStreamMap archive = .ok archive' := by
  have hcount : (Block.subStreamCounts archive.blocks).sum =
      archive.files.countP ArchiveEntry.hasStream := h.subStreams
  have hstreamed : archive.files.countP ArchiveEntry.hasStream ≤ archive.files.length :=
    List.countP_le_length
  have hfiles := h.files
  have hstart : Dealing archive.blocks (archive.files.countP ArchiveEntry.hasStream) 0
      { blockFirstFileIndex := List.replicate archive.blocks.length 0
        nextBlockIndex := 0
        nextBlockUnpackStreamIndex := 0 } :=
    ⟨List.length_replicate, fun first hfirst => Nat.le_of_eq (List.eq_of_mem_replicate hfirst),
      h.subStreams, fun hne => absurd rfl hne⟩
  obtain ⟨indices, files', st, hmap, hend⟩ := mapFiles_isOk h.firstPacksIn hstart
  have hinv : MapInvariant archive.blocks indices st :=
    mapFiles_invariant hmap (mapInvariant_init archive.blocks)
  obtain ⟨hsame, hsome⟩ := mapFiles_files hmap
  have hlength : indices.length = archive.files.length :=
    hsome.length_eq.symm.trans hsame.length_eq.symm
  rw [Nat.zero_add, ← hlength] at hend
  have hspans : checkFileSpans archive.files.length st.blockFirstFileIndex 0 archive.blocks =
      .ok () := by
    apply checkFileSpans_isOk (by rw [Nat.zero_add, hend.length]) hfiles
    intro b hb
    rw [Nat.zero_add, ← hlength]
    exact hinv.fits hend hb
  refine ⟨{ archive with
    files := files'
    streamMap :=
      { blockFirstPackStreamIndex := starts 0 (Block.packLens archive.blocks)
        packStreamOffsets := starts 0 (archive.packSizes.map UInt64.toNat)
        blockFirstSubStreamIndex := starts 0 (Block.subStreamCounts archive.blocks)
        fileBlockIndex := indices
        blockFirstFileIndex := st.blockFirstFileIndex } }, ?_⟩
  rw [calculateStreamMap]
  dsimp only
  rw [Result.bind_of_ok (packStreamIndices_isOk (by rw [Nat.zero_add]; exact h.packed) h.machine),
    Result.bind_of_ok (subStreamIndices_isOk (by omega)),
    Result.bind_of_ok (packStreamOffsets_isOk (by rw [Nat.zero_add]; exact h.sizes)),
    Result.bind_of_ok hmap, Result.bind_of_ok hspans]
  rfl

end Sevenz
