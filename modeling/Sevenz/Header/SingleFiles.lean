import Sevenz.Header.Accepted

/-!
# Archives that are not solid

No block of such an archive has several sub-streams, so that no two files are of one block.
-/

namespace Sevenz

theorem seekBlock_keeps {blocks : List Block} {i n : Nat} {st st' : MapState}
    (h : seekBlock blocks i n st = .ok st') :
    st'.nextBlockUnpackStreamIndex = st.nextBlockUnpackStreamIndex := by
  induction n generalizing st with
  | zero =>
      cases Result.pure_eq_ok.mp h
      rfl
  | succ n ih =>
      obtain ⟨firsts, -, h⟩ := Result.bind_eq_ok.mp h
      obtain ⟨block, -, h⟩ := Result.bind_eq_ok.mp h
      split at h
      · cases Result.pure_eq_ok.mp h
        rfl
      · have hrest := ih h
        exact hrest

theorem mapFile_single {blocks : List Block} {packSizes : List UInt64} {firstPack : List Nat}
    (hsingle : ∀ block ∈ blocks, block.numUnpackSubStreams ≤ 1) {i : Nat}
    {file file' : ArchiveEntry} {x : Option Nat} {st st' : MapState}
    (h : mapFile blocks packSizes firstPack i file st = .ok (x, file', st'))
    (hfresh : st.nextBlockUnpackStreamIndex = 0) :
    st'.nextBlockUnpackStreamIndex = 0 ∧ ∀ b ∈ x, b < st'.nextBlockIndex := by
  unfold mapFile at h
  split at h
  · cases Result.pure_eq_ok.mp h
    exact ⟨hfresh, by simp⟩
  · rename_i hstream
    obtain ⟨st₁, hstart, h⟩ := Result.bind_eq_ok.mp h
    have hfresh₁ : st₁.nextBlockUnpackStreamIndex = 0 := by
      rw [startBlock, if_pos hfresh] at hstart
      obtain ⟨st₂, hseek, hstart⟩ := Result.bind_eq_ok.mp hstart
      obtain ⟨_, -, hstart⟩ := Result.bind_eq_ok.mp hstart
      cases Result.pure_eq_ok.mp hstart
      exact (seekBlock_keeps hseek).trans hfresh
    split at h
    · rename_i hnone
      exact absurd ⟨hnone, hfresh⟩ hstream
    · obtain ⟨file₁, -, h⟩ := Result.bind_eq_ok.mp h
      obtain ⟨block, hblock, h⟩ := Result.bind_eq_ok.mp h
      cases Result.pure_eq_ok.mp h
      have hle := hsingle block (List.mem_of_getElem? (Result.index_eq_ok.mp hblock))
      have htake : st₁.takeSubStream block = { st₁ with
          nextBlockIndex := st₁.nextBlockIndex + 1, nextBlockUnpackStreamIndex := 0 } := by
        rw [MapState.takeSubStream, if_pos (by omega)]
      simp [htake]

theorem mapFiles_single {blocks : List Block} {packSizes : List UInt64} {firstPack : List Nat}
    (hsingle : ∀ block ∈ blocks, block.numUnpackSubStreams ≤ 1) {i : Nat}
    {rest : List (Option Nat)} {files files' : List ArchiveEntry} {st st' : MapState}
    (h : mapFiles blocks packSizes firstPack i files st = .ok (rest, files', st'))
    (hfresh : st.nextBlockUnpackStreamIndex = 0) :
    rest.Pairwise fun x y => ∀ b ∈ x, ∀ b' ∈ y, b < b' := by
  induction files generalizing i rest files' st with
  | nil =>
      cases Result.pure_eq_ok.mp h
      exact .nil
  | cons file files ih =>
      obtain ⟨⟨x, file₁, st₁⟩, hfile, h⟩ := Result.bind_eq_ok.mp h
      obtain ⟨⟨xs, files₁, st₂⟩, hfiles, h⟩ := Result.bind_eq_ok.mp h
      cases Result.pure_eq_ok.mp h
      obtain ⟨hfresh₁, hended⟩ := mapFile_single hsingle hfile hfresh
      have habove := (mapFiles_ordered hfiles).1
      apply List.Pairwise.cons
      · intro y hy b hb b' hb'
        exact Nat.lt_of_lt_of_le (hended b hb) (habove y hy b' hb')
      · exact ih hfiles hfresh₁

def Archive.OneFileEach (archive : Archive) : Prop :=
  archive.streamMap.fileBlockIndex.Pairwise fun x y => ∀ b ∈ x, ∀ b' ∈ y, b < b'

theorem calculateStreamMap_oneFileEach {archive archive' : Archive}
    (h : calculateStreamMap archive = .ok archive')
    (hsingle : ∀ block ∈ archive.blocks, block.numUnpackSubStreams ≤ 1) :
    archive'.OneFileEach := by
  obtain ⟨firstPack, -, h⟩ := Result.bind_eq_ok.mp h
  obtain ⟨firstSub, -, h⟩ := Result.bind_eq_ok.mp h
  obtain ⟨offsets, -, h⟩ := Result.bind_eq_ok.mp h
  obtain ⟨⟨indices, files, st⟩, hfiles, h⟩ := Result.bind_eq_ok.mp h
  obtain ⟨_, -, h⟩ := Result.bind_eq_ok.mp h
  cases Result.pure_eq_ok.mp h
  exact mapFiles_single hsingle hfiles rfl

theorem readWithLimits_oneFileEach {codecs : Codecs} {limits : ArchiveLimits}
    {passwordGiven : Bool} {file : List UInt8} {archive : Archive}
    (h : readWithLimits codecs limits passwordGiven file = .ok archive)
    (halone : archive.isSolid = false) :
    (∀ block ∈ archive.blocks, block.numUnpackSubStreams ≤ 1) ∧ archive.OneFileEach := by
  obtain ⟨header, startHeader, verifyCrc, buf, parsed, -, -, hparse, hcheck⟩ :=
    readWithLimits_readFrom h
  obtain ⟨-, s', hread⟩ := parseHeader_eq_ok hparse
  obtain ⟨described, hmap⟩ := readHeader_mapped hread
  obtain ⟨-, -, rfl⟩ := checkArchive_eq_ok hcheck
  have hblocks : parsed.blocks = described.blocks := by
    rw [(calculateStreamMap_eq_ok hmap).2.2]
  have hsingle : ∀ block ∈ parsed.blocks, block.numUnpackSubStreams ≤ 1 := by
    intro block hblock
    have hnot := List.any_eq_false.mp halone block hblock
    simpa using hnot
  have hone : parsed.OneFileEach :=
    calculateStreamMap_oneFileEach hmap fun block hblock => hsingle block (hblocks ▸ hblock)
  exact ⟨hsingle, hone⟩

theorem range_of_oneFileEach {archive : Archive} (hmapped : archive.Mapped)
    (hone : archive.OneFileEach) {i b : Nat}
    (hblock : archive.streamMap.fileBlockIndex[i]? = some (some b)) :
    archive.streamMap.firstFile b = i := by
  have hspan := (hmapped.spans b i).mp hblock
  by_contra hne
  have hlt : archive.streamMap.firstFile b < i := by omega
  have hfirst := (hmapped.spans b (archive.streamMap.firstFile b)).mpr
    ⟨Nat.le_refl _, by omega⟩
  obtain ⟨h₀, hfirst⟩ := List.getElem?_eq_some_iff.mp hfirst
  obtain ⟨h₁, hblock⟩ := List.getElem?_eq_some_iff.mp hblock
  have := List.pairwise_iff_getElem.mp hone _ _ h₀ h₁ hlt b hfirst b hblock
  exact Nat.lt_irrefl b this

end Sevenz
