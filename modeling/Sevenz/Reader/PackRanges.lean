import Sevenz.Header.Accepted
import Sevenz.Header.StartHeader
import Sevenz.Reader.BlockDecoder

/-!
# The pack streams of a block

`Archive::block_pack_streams`: where the packed bytes of a block lie in the file.  Blocks take
the archive's pack streams in order, and the streams lie end to end.
-/

namespace Sevenz

open Lib

def PackStreamRange.stop (range : PackStreamRange) : Nat := range.offset + range.size.toNat

/-- Each block has as many ranges as pack streams, all of them in the file, and no two blocks
share a byte. -/
structure Archive.RangesApart (archive : Archive) (fileLen : Nat) : Prop where
  count : ∀ b block, archive.blocks[b]? = some block →
    (blockPackStreams archive b).length = block.packedStreams.length
  within : ∀ b, ∀ range ∈ blockPackStreams archive b,
    signatureHeaderSize ≤ range.offset ∧ range.stop ≤ fileLen
  apart : ∀ b b', b ≠ b' → ∀ range ∈ blockPackStreams archive b,
    ∀ range' ∈ blockPackStreams archive b', range.stop ≤ range'.offset ∨ range'.stop ≤ range.offset

theorem checkArchive_packEnd_lt {limits : ArchiveLimits} {fileLen : Nat}
    {archive archive' : Archive} (h : checkArchive limits fileLen archive = .ok archive') :
    signatureHeaderSize + archive.packPos.toNat + (archive.packSizes.map UInt64.toNat).sum <
      2 ^ 64 := by
  obtain ⟨packedTotal, hrange, -⟩ := Result.bind_eq_ok.mp h
  obtain ⟨total, hsum, hrange⟩ := Result.bind_eq_ok.mp hrange
  obtain ⟨packedEnd, hend, -⟩ := Result.bind_eq_ok.mp hrange
  obtain ⟨start, hstart, hadd⟩ := Option.bind_eq_some_iff.mp (Result.okOr_eq_ok.mp hend)
  obtain ⟨-, rfl⟩ := checkedAdd_eq_some.mp hstart
  obtain ⟨hlt, -⟩ := checkedAdd_eq_some.mp hadd
  rwa [sumPackSizes_eq_ok hsum, Nat.zero_add] at hlt

/-- An archive whose pack streams lie in a file and whose stream map was calculated. -/
structure Archive.Located (archive : Archive) (fileLen : Nat) : Prop where
  mapped : archive.Mapped
  packEnd : signatureHeaderSize + archive.packPos.toNat +
    (archive.packSizes.map UInt64.toNat).sum ≤ fileLen
  machine : signatureHeaderSize + archive.packPos.toNat +
    (archive.packSizes.map UInt64.toNat).sum < 2 ^ 64

theorem readWithLimits_located {codecs : Codecs} {limits : ArchiveLimits} {passwordGiven : Bool}
    {file : List UInt8} {archive : Archive}
    (h : readWithLimits codecs limits passwordGiven file = .ok archive) :
    archive.Located file.length := by
  obtain ⟨header, startHeader, verifyCrc, buf, parsed, -, -, -, hcheck⟩ :=
    readWithLimits_readFrom h
  have hmachine := checkArchive_packEnd_lt hcheck
  have hmapped := (readWithLimits_described h).mapped
  obtain ⟨hwithin, -, rfl⟩ := checkArchive_eq_ok hcheck
  exact ⟨hmapped, hwithin.packEnd, hmachine⟩

theorem Block.offset_packLens_succ {blocks : List Block} {b : Nat} {block : Block}
    (hblock : blocks[b]? = some block) :
    offset (packLens blocks) (b + 1) =
      offset (packLens blocks) b + block.packedStreams.length := by
  apply offset_succ
  rw [packLens, List.getElem?_map, hblock]
  rfl

namespace Archive.Located

variable {archive : Archive} {fileLen : Nat} (h : archive.Located fileLen)

include h

theorem packStreamRange_eq_some {index : Nat} {range : PackStreamRange} :
    packStreamRange archive index = some range ↔
      ∃ size, archive.packSizes[index]? = some size ∧
        range = { index
                  offset := signatureHeaderSize + archive.packPos.toNat +
                    offset (archive.packSizes.map UInt64.toNat) index
                  size } := by
  unfold packStreamRange
  rw [h.mapped.packOffsets]
  cases hsize : archive.packSizes[index]? with
  | none => simp
  | some size =>
      have hlt := (List.getElem?_eq_some_iff.mp hsize).1
      have hoffset := offset_le_sum (archive.packSizes.map UInt64.toNat) index
      have hmachine := h.machine
      rw [starts_getElem? (by simpa using hlt)]
      simp only [saturatingAdd, Option.bind_eq_bind, Option.bind_some, Option.pure_def,
        Option.some.injEq, Nat.zero_add, exists_eq_left', eq_comm (a := range)]
      rw [Nat.min_eq_left (by omega), Nat.min_eq_left (by omega)]

theorem stop_eq {index : Nat} {range : PackStreamRange}
    (hrange : packStreamRange archive index = some range) :
    range.stop = signatureHeaderSize + archive.packPos.toNat +
      offset (archive.packSizes.map UInt64.toNat) (index + 1) := by
  obtain ⟨size, hsize, rfl⟩ := h.packStreamRange_eq_some.mp hrange
  rw [PackStreamRange.stop, offset_succ (n := size.toNat) (by rw [List.getElem?_map, hsize]; rfl),
    Nat.add_assoc]

theorem stop_le {index index' : Nat} {range range' : PackStreamRange} (hlt : index < index')
    (hrange : packStreamRange archive index = some range)
    (hrange' : packStreamRange archive index' = some range') : range.stop ≤ range'.offset := by
  obtain ⟨size, -, rfl⟩ := h.packStreamRange_eq_some.mp hrange'
  rw [h.stop_eq hrange]
  exact Nat.add_le_add_left (offset_mono _ hlt) _

theorem mem_blockPackStreams {b : Nat} {range : PackStreamRange}
    (hmem : range ∈ blockPackStreams archive b) :
    ∃ block index, archive.blocks[b]? = some block ∧
      packStreamRange archive index = some range ∧
      offset (Block.packLens archive.blocks) b ≤ index ∧
      index < offset (Block.packLens archive.blocks) b + max block.packedStreams.length 1 := by
  unfold blockPackStreams at hmem
  rw [h.mapped.firstPack] at hmem
  cases hblock : archive.blocks[b]? with
  | none => simp [hblock] at hmem
  | some block =>
      have hlt := (List.getElem?_eq_some_iff.mp hblock).1
      rw [hblock, starts_getElem? (by simpa [Block.packLens] using hlt)] at hmem
      obtain ⟨index, hindex, hrange⟩ := List.mem_filterMap.mp hmem
      rw [List.mem_range'_1, Nat.zero_add] at hindex
      exact ⟨block, index, rfl, hrange, hindex⟩

theorem isSome_packStreamRange {index : Nat} :
    (packStreamRange archive index).isSome = true ↔ index < archive.packSizes.length := by
  rw [Option.isSome_iff_exists]
  constructor
  · intro hsome
    obtain ⟨range, hrange⟩ := hsome
    obtain ⟨size, hsize, -⟩ := h.packStreamRange_eq_some.mp hrange
    exact (List.getElem?_eq_some_iff.mp hsize).1
  · intro hlt
    exact ⟨_, h.packStreamRange_eq_some.mpr ⟨_, List.getElem?_eq_getElem hlt, rfl⟩⟩

theorem blockPackStreams_eq {b : Nat} {block : Block} (hblock : archive.blocks[b]? = some block) :
    blockPackStreams archive b =
      (List.range' (offset (Block.packLens archive.blocks) b)
        (max block.packedStreams.length 1)).filterMap (packStreamRange archive) := by
  have hlt := (List.getElem?_eq_some_iff.mp hblock).1
  unfold blockPackStreams
  rw [h.mapped.firstPack, hblock, starts_getElem? (by simpa [Block.packLens] using hlt),
    Nat.zero_add]

theorem length_blockPackStreams {b : Nat} {block : Block}
    (hblock : archive.blocks[b]? = some block) (hne : block.packedStreams ≠ []) :
    (blockPackStreams archive b).length = block.packedStreams.length := by
  have hpos := List.length_pos_of_ne_nil hne
  have hend := Block.offset_packLens_succ hblock
  have hsum := offset_le_sum (Block.packLens archive.blocks) (b + 1)
  have hpacked := h.mapped.packed
  rw [h.blockPackStreams_eq hblock, List.filterMap_length_eq_length.mpr, List.length_range']
  · omega
  · intro index hindex
    rw [List.mem_range'_1] at hindex
    rw [h.isSome_packStreamRange]
    omega

theorem length_blockPackStreams_nil {b : Nat} {block : Block}
    (hblock : archive.blocks[b]? = some block) (hnil : block.packedStreams = []) :
    (blockPackStreams archive b).length = 0 ↔
      archive.packSizes.length ≤ offset (Block.packLens archive.blocks) b := by
  have hfirst : (packStreamRange archive (offset (Block.packLens archive.blocks) b)).isSome =
      true ↔ offset (Block.packLens archive.blocks) b < archive.packSizes.length :=
    h.isSome_packStreamRange
  rw [h.blockPackStreams_eq hblock, hnil, List.length_nil, Nat.zero_max, List.range'_one]
  cases hrange : packStreamRange archive (offset (Block.packLens archive.blocks) b) with
  | none =>
      rw [hrange] at hfirst
      simp [hrange] at hfirst ⊢
      omega
  | some range =>
      rw [hrange] at hfirst
      simp [hrange] at hfirst ⊢
      omega

theorem rangesApart_iff :
    archive.RangesApart fileLen ↔
      ∀ b block, archive.blocks[b]? = some block → block.packedStreams = [] →
        archive.packSizes.length ≤ offset (Block.packLens archive.blocks) b := by
  constructor
  · intro hapart b block hblock hnil
    rw [← h.length_blockPackStreams_nil hblock hnil, hapart.count b block hblock, hnil]
    rfl
  · intro hnone
    have hindex : ∀ {b range}, range ∈ blockPackStreams archive b → ∃ index,
        packStreamRange archive index = some range ∧
          offset (Block.packLens archive.blocks) b ≤ index ∧
          index < offset (Block.packLens archive.blocks) (b + 1) := by
      intro b range hmem
      obtain ⟨block, index, hblock, hrange, hle, hlt⟩ := h.mem_blockPackStreams hmem
      have hend := Block.offset_packLens_succ hblock
      have hpos : block.packedStreams ≠ [] := by
        intro hnil
        have hnext := (h.length_blockPackStreams_nil hblock hnil).mpr (hnone b block hblock hnil)
        rw [List.eq_nil_of_length_eq_zero hnext] at hmem
        cases hmem
      have hlen := List.length_pos_of_ne_nil hpos
      exact ⟨index, hrange, hle, by omega⟩
    constructor
    · intro b block hblock
      by_cases hnil : block.packedStreams = []
      · rw [(h.length_blockPackStreams_nil hblock hnil).mpr (hnone b block hblock hnil), hnil]
        rfl
      · exact h.length_blockPackStreams hblock hnil
    · intro b range hmem
      obtain ⟨index, hrange, -, -⟩ := hindex hmem
      have hstop := h.stop_eq hrange
      have hsum := offset_le_sum (archive.packSizes.map UInt64.toNat) (index + 1)
      have hpackEnd := h.packEnd
      obtain ⟨size, -, rfl⟩ := h.packStreamRange_eq_some.mp hrange
      exact ⟨by dsimp only; omega, by omega⟩
    · intro b b' hne range hmem range' hmem'
      obtain ⟨index, hrange, hle, hlt⟩ := hindex hmem
      obtain ⟨index', hrange', hle', hlt'⟩ := hindex hmem'
      rcases Nat.lt_or_gt_of_ne hne with hbefore | hafter
      · have hmono := offset_mono (Block.packLens archive.blocks) (show b + 1 ≤ b' from hbefore)
        exact Or.inl (h.stop_le (by omega) hrange hrange')
      · have hmono := offset_mono (Block.packLens archive.blocks) (show b' + 1 ≤ b from hafter)
        exact Or.inr (h.stop_le (by omega) hrange' hrange)

end Archive.Located

section

variable {codecs : Codecs} {limits : ArchiveLimits} {passwordGiven : Bool} {file : List UInt8}
  {archive : Archive}

/-- Of an accepted archive, the ranges are those of the blocks exactly if no pack stream is left
from a block on that has none of its own. -/
theorem readWithLimits_rangesApart_iff
    (h : readWithLimits codecs limits passwordGiven file = .ok archive) :
    archive.RangesApart file.length ↔
      ∀ b block, archive.blocks[b]? = some block → block.packedStreams = [] →
        archive.packSizes.length ≤ offset (Block.packLens archive.blocks) b :=
  (readWithLimits_located h).rangesApart_iff

end

/-- A block of one coder that takes nothing in, and then one that copies the one pack stream. -/
def borrowedFile : List UInt8 :=
  archiveFile crc32 [0x41]
    [kHeader, kMainStreamsInfo, kPackInfo, 0, 1, kSize, 1, kEnd,
      kUnpackInfo, kFolder, 2, 0, 1, 0x11, 0, 0, 1, 1, 0x01, 0, kCodersUnpackSize, 0, 1, kEnd,
      kEnd, kEnd]

theorem borrowedFile_rangesApart_iff : ∃ archive,
    readWithLimits (.copying borrowedFile) {} false borrowedFile = .ok archive ∧
      (archive.RangesApart borrowedFile.length ↔
        ∀ b block, archive.blocks[b]? = some block → block.packedStreams = [] →
          archive.packSizes.length ≤ offset (Block.packLens archive.blocks) b) := by
  obtain ⟨archive, hread, -⟩ := Result.exists_of_holds
    (show (readWithLimits (.copying borrowedFile) {} false borrowedFile).holds
      (fun _ => true) = true by decide +kernel)
  exact ⟨archive, hread, readWithLimits_rangesApart_iff hread⟩

/-- The block without pack streams is given the range of the other block. -/
theorem borrowedFile_not_rangesApart : ∃ archive,
    readWithLimits (.copying borrowedFile) {} false borrowedFile = .ok archive ∧
      (archive.blocks.map fun block => block.packedStreams.length) = [0, 1] ∧
      blockPackStreams archive 0 = [{ index := 0, offset := 32, size := 1 }] ∧
      blockPackStreams archive 1 = [{ index := 0, offset := 32, size := 1 }] ∧
      ¬ archive.RangesApart borrowedFile.length := by
  obtain ⟨archive, hread, hranges⟩ := Result.exists_of_holds
    (show (readWithLimits (.copying borrowedFile) {} false borrowedFile).holds
      (fun archive => decide
        ((archive.blocks.map fun block => block.packedStreams.length) = [0, 1] ∧
          blockPackStreams archive 0 = [{ index := 0, offset := 32, size := 1 }] ∧
          blockPackStreams archive 1 = [{ index := 0, offset := 32, size := 1 }])) = true by
      decide +kernel)
  obtain ⟨hlens, hfirst, hsecond⟩ := of_decide_eq_true hranges
  refine ⟨archive, hread, hlens, hfirst, hsecond, fun hapart => ?_⟩
  have hoverlap := hapart.apart 0 1 (by decide) _ (hfirst ▸ List.mem_singleton_self _) _
    (hsecond ▸ List.mem_singleton_self _)
  exact absurd hoverlap (by decide)

end Sevenz
