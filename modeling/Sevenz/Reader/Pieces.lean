import Sevenz.Reader.Visits

/-!
# The pieces of a block

`BlockDecoder::file_boundaries` has the workers of a parallel coder cut their output where the
files of the block start.  A walk asks them for the checksums of the ranges between.
-/

namespace Sevenz

open Lib

abbrev ArchiveEntry.HasBytes (file : ArchiveEntry) : Prop :=
  file.hasStream = true ∧ file.size > 0

def ArchiveEntry.taken (file : ArchiveEntry) : Nat :=
  if file.HasBytes then file.size.toNat else 0

def Archive.streamedBytes (archive : Archive) (files : List Nat) : Nat :=
  (files.map fun i =>
    match archive.files[i]? with
    | some file => if file.hasStream ∧ file.size > 0 then file.size.toNat else 0
    | none => 0).sum

/-- What `Lzma2Control::folded` promises of a range that was read: its checksum, where pieces
cover the range exactly.  The output is cut at each split point. -/
structure Codecs.FoldsPieces (codecs : Codecs) : Prop where
  cut : ∀ decoder, codecs.engaged decoder = true → ∀ splits, ∀ split ∈ splits,
    split.toNat ∈ codecs.cuts decoder splits
  right : ∀ decoder, codecs.engaged decoder = true → ∀ splits reads offset len crc,
    offset + len ≤ (delivered reads).length →
      codecs.folded decoder splits reads offset len = some crc →
        crc = codecs.crc32 (((delivered reads).drop offset).take len)
  covered : ∀ decoder, codecs.engaged decoder = true → ∀ splits, splits ≠ [] →
    ∀ reads offset len, 0 < len → offset + len ≤ (delivered reads).length →
      (offset = 0 ∨ offset ∈ codecs.cuts decoder splits) →
        offset + len ∈ codecs.cuts decoder splits →
          (codecs.folded decoder splits reads offset len).isSome = true

theorem Codecs.foldsPieces_of_not_engaged {codecs : Codecs}
    (h : ∀ decoder, codecs.engaged decoder = false) : codecs.FoldsPieces where
  cut decoder hengaged := absurd hengaged (Bool.eq_false_iff.mp (h decoder))
  right decoder hengaged := absurd hengaged (Bool.eq_false_iff.mp (h decoder))
  covered decoder hengaged := absurd hengaged (Bool.eq_false_iff.mp (h decoder))

namespace OpenBlock

variable (d : OpenBlock)

theorem streamedBytes_cons {archive : Archive} {i : Nat} {files : List Nat} {file : ArchiveEntry}
    (h : archive.files[i]? = some file) :
    archive.streamedBytes (i :: files) = file.taken + archive.streamedBytes files := by
  rw [Archive.streamedBytes, List.map_cons, List.sum_cons, h]
  rfl

def Answers (offset len : Nat) : Prop :=
  ∀ reads, offset + len ≤ (delivered reads).length →
    d.folded reads offset len =
      some (d.codecs.crc32 (((delivered reads).drop offset).take len))

/-- They have the checksum of each range that a walk over the files asks for. -/
def AnswersFrom : Nat → List Nat → Prop
  | _, [] => True
  | offset, i :: files => ∀ file, d.archive.files[i]? = some file →
      (file.HasBytes → d.Answers offset file.size.toNat) ∧
        AnswersFrom (offset + file.taken) files

variable {d}

theorem answers_of_cuts (hfold : d.codecs.FoldsPieces)
    (hengaged : d.codecs.engaged d.stack.decoder = true) (hsplits : d.splits ≠ [])
    {offset len : Nat} (hpos : 0 < len)
    (hstart : offset = 0 ∨ offset ∈ d.codecs.cuts d.stack.decoder d.splits)
    (hend : offset + len ∈ d.codecs.cuts d.stack.decoder d.splits) : d.Answers offset len := by
  intro reads hread
  have hsome := hfold.covered _ hengaged _ hsplits reads offset len hpos hread hstart hend
  obtain ⟨crc, hcrc⟩ := Option.isSome_iff_exists.mp hsome
  rw [folded, hcrc, hfold.right _ hengaged _ _ _ _ _ hread hcrc]

end OpenBlock

theorem streamedBytes_range' {archive : Archive} {start n : Nat} :
    archive.streamedBytes (List.range' start n) =
      (((archive.files.drop start).take n).map ArchiveEntry.taken).sum := by
  induction n generalizing start with
  | zero => rfl
  | succ n ih =>
      rw [List.range'_succ]
      cases hfile : archive.files[start]? with
      | none =>
          have hle := List.getElem?_eq_none_iff.mp hfile
          rw [Archive.streamedBytes, List.map_cons, List.sum_cons, hfile, Nat.zero_add]
          change archive.streamedBytes (List.range' (start + 1) n) = _
          rw [ih, List.drop_eq_nil_of_le hle, List.drop_eq_nil_of_le (Nat.le_succ_of_le hle),
            List.take_nil, List.take_nil]
      | some file =>
          obtain ⟨hlt, rfl⟩ := List.getElem?_eq_some_iff.mp hfile
          rw [OpenBlock.streamedBytes_cons hfile, ih, List.drop_eq_getElem_cons hlt,
            List.take_succ_cons, List.map_cons, List.sum_cons]

theorem mem_boundaryLoop {files : List ArchiveEntry} {at_ : UInt64} (hat : at_ ≠ 0)
    (hpos : 0 < (files.map ArchiveEntry.taken).sum) : at_ ∈ (boundaryLoop files at_).1 := by
  induction files with
  | nil => exact absurd hpos (Nat.lt_irrefl 0)
  | cons file files ih =>
      unfold boundaryLoop
      by_cases hbytes : file.HasBytes
      · rw [if_pos hbytes]
        dsimp only
        rw [if_pos hat]
        exact List.mem_cons_self
      · rw [if_neg hbytes]
        rw [List.map_cons, List.sum_cons, ArchiveEntry.taken, if_neg hbytes, Nat.zero_add] at hpos
        exact ih hpos

theorem boundaryLoop_subset {file : ArchiveEntry} {files : List ArchiveEntry} {at_ : UInt64}
    (hbytes : file.HasBytes) :
    (boundaryLoop files (at_ + file.size)).1 ⊆ (boundaryLoop (file :: files) at_).1 := by
  rw [boundaryLoop, if_pos hbytes]
  dsimp only
  split
  · exact List.subset_cons_self _ _
  · exact List.Subset.refl _

namespace OpenBlock

variable {d : OpenBlock}

/-- Where files with bytes begin the workers' output is cut, unless the block begins there. -/
theorem cut_of_boundaryLoop (hfold : d.codecs.FoldsPieces)
    (hengaged : d.codecs.engaged d.stack.decoder = true) {files : List ArchiveEntry} {at_ : UInt64}
    (hplanned : ∀ split ∈ (boundaryLoop files at_).1, split ∈ d.splits)
    (hpos : 0 < (files.map ArchiveEntry.taken).sum) :
    at_.toNat = 0 ∨ at_.toNat ∈ d.codecs.cuts d.stack.decoder d.splits := by
  by_cases hat : at_ = 0
  · exact Or.inl (by rw [hat]; rfl)
  · exact Or.inr (hfold.cut _ hengaged _ _ (hplanned _ (mem_boundaryLoop hat hpos)))

/-- The boundaries of the files are all the cuts that a walk over them needs, the last file's end
apart. -/
theorem answersFrom_of_boundaryLoop (hfold : d.codecs.FoldsPieces)
    (hengaged : d.codecs.engaged d.stack.decoder = true) (hsplits : d.splits ≠ [])
    {start n : Nat} (at_ : UInt64)
    (hplanned : ∀ split ∈ (boundaryLoop ((d.archive.files.drop start).take n) at_).1,
      split ∈ d.splits)
    (hroom : at_.toNat + d.archive.streamedBytes (List.range' start n) < 2 ^ 64)
    (hlast : d.archive.streamedBytes (List.range' start n) = 0 ∨
      at_.toNat + d.archive.streamedBytes (List.range' start n) ∈
        d.codecs.cuts d.stack.decoder d.splits) :
    d.AnswersFrom at_.toNat (List.range' start n) := by
  induction n generalizing start at_ with
  | zero => trivial
  | succ n ih =>
      rw [List.range'_succ] at hroom hlast ⊢
      intro file hfile
      obtain ⟨hlt, rfl⟩ := List.getElem?_eq_some_iff.mp hfile
      rw [List.drop_eq_getElem_cons hlt, List.take_succ_cons] at hplanned
      rw [streamedBytes_cons hfile] at hroom hlast
      by_cases hbytes : d.archive.files[start].HasBytes
      · have hpos : 0 < d.archive.files[start].size.toNat := UInt64.lt_iff_toNat_lt.mp hbytes.2
        rw [ArchiveEntry.taken, if_pos hbytes] at hroom hlast ⊢
        have hnext : (at_ + d.archive.files[start].size).toNat =
            at_.toNat + d.archive.files[start].size.toNat := by
          rw [UInt64.toNat_add]
          exact Nat.mod_eq_of_lt (by omega)
        have hrest : ∀ split ∈ (boundaryLoop ((d.archive.files.drop (start + 1)).take n)
            (at_ + d.archive.files[start].size)).1, split ∈ d.splits :=
          fun split hsplit => hplanned split (boundaryLoop_subset hbytes hsplit)
        refine ⟨fun _ => answers_of_cuts hfold hengaged hsplits hpos ?_ ?_, ?_⟩
        · apply cut_of_boundaryLoop hfold hengaged hplanned
          rw [List.map_cons, List.sum_cons, ArchiveEntry.taken, if_pos hbytes]
          omega
        · -- it ends where the next one starts, or is the last
          rcases Nat.eq_zero_or_pos
            (d.archive.streamedBytes (List.range' (start + 1) n)) with hnone | hmore
          · rw [hnone, Nat.add_zero] at hlast
            exact hlast.resolve_left (by omega)
          · rw [streamedBytes_range'] at hmore
            rw [← hnext]
            exact (cut_of_boundaryLoop hfold hengaged hrest hmore).resolve_left (by omega)
        · rw [← hnext]
          exact ih _ hrest (by omega) (by
            rw [hnext, Nat.add_assoc]
            exact hlast.imp_left fun hzero => by omega)
      · rw [ArchiveEntry.taken, if_neg hbytes] at hroom hlast ⊢
        rw [Nat.zero_add] at hroom hlast
        rw [boundaryLoop, if_neg hbytes] at hplanned
        exact ⟨fun hbytes' => absurd hbytes' hbytes, ih at_ hplanned hroom hlast⟩

end OpenBlock

def BlockDecoder.Folds (d : BlockDecoder) : Prop :=
  ∃ opened, d.openBlock = .ok opened ∧ opened.folding = true

/-- Where the workers compute the checksums, a piece of theirs ends where the last entry of the
walk does, and the offsets of the entries can be counted. -/
def BlockDecoder.PiecesFit (d : BlockDecoder) : Prop :=
  ∀ opened, d.openBlock = .ok opened → opened.folding = true →
    d.archive.streamedBytes (d.archive.blockRange d.blockIndex) < 2 ^ 64 ∧
      (d.archive.streamedBytes (d.archive.blockRange d.blockIndex) = 0 ∨
        d.archive.streamedBytes (d.archive.blockRange d.blockIndex) ∈
          d.codecs.cuts opened.stack.decoder opened.splits)

theorem openBlock_folding_eq_true {d : BlockDecoder} {opened : OpenBlock}
    (h : d.openBlock = .ok opened) (hfolding : opened.folding = true) :
    d.codecs.engaged opened.stack.decoder = true ∧ opened.splits ≠ [] ∧
      d.checksumSplits = .ok opened.splits := by
  obtain ⟨splits, hsplits, h⟩ := Result.bind_eq_ok.mp h
  obtain ⟨stack, -, h⟩ := Result.bind_eq_ok.mp h
  obtain ⟨start, -, h⟩ := Result.bind_eq_ok.mp h
  obtain ⟨block, -, h⟩ := Result.bind_eq_ok.mp h
  obtain ⟨firstSubStream, -, h⟩ := Result.bind_eq_ok.mp h
  cases Result.pure_eq_ok.mp h
  obtain ⟨hsome, hengaged⟩ := Bool.and_eq_true_iff.mp hfolding
  exact ⟨hengaged, by simpa using hsome, hsplits⟩

theorem openBlock_engaged {d : BlockDecoder} {opened : OpenBlock} (h : d.openBlock = .ok opened)
    (hfolding : opened.folding = true) : d.codecs.engaged opened.stack.decoder = true :=
  (openBlock_folding_eq_true h hfolding).1

theorem boundaryLoop_subset_splits {d : BlockDecoder} {opened : OpenBlock}
    (h : d.openBlock = .ok opened) (hfolding : opened.folding = true) :
    (boundaryLoop ((d.archive.files.drop opened.start).take opened.block.numUnpackSubStreams)
      0).1 ⊆ opened.splits := by
  obtain ⟨-, hne, hsplits⟩ := openBlock_folding_eq_true h hfolding
  obtain ⟨-, hblock, hstart, -, -⟩ := openBlock_eq_ok h
  unfold BlockDecoder.checksumSplits at hsplits
  split at hsplits
  · unfold fileBoundaries at hsplits
    rw [Result.bind_of_ok (Result.index_eq_ok.mpr hblock)] at hsplits
    split at hsplits
    · exact absurd (Result.pure_eq_ok.mp hsplits) hne
    · rw [Result.bind_of_ok (Result.index_eq_ok.mpr hstart)] at hsplits
      dsimp only at hsplits
      split at hsplits
      · exact absurd (Result.pure_eq_ok.mp hsplits) hne
      · split at hsplits
        · rename_i hempty
          rw [List.isEmpty_iff.mp hempty]
          exact List.nil_subset _
        · rw [Result.pure_eq_ok.mp hsplits]
          exact List.Subset.refl _
  · exact absurd (Result.pure_eq_ok.mp hsplits) hne

theorem answersFrom_of_piecesFit {d : BlockDecoder} (hfold : d.codecs.FoldsPieces)
    (hfit : d.PiecesFit) {opened : OpenBlock} (h : d.openBlock = .ok opened)
    (hfolding : opened.folding = true) :
    opened.AnswersFrom 0 (d.archive.blockRange d.blockIndex) := by
  obtain ⟨hroom, hlast⟩ := hfit opened h hfolding
  obtain ⟨hengaged, hne, -⟩ := openBlock_folding_eq_true h hfolding
  have hplanned := boundaryLoop_subset_splits h hfolding
  obtain ⟨hsame, hblock, hstart, -, -⟩ := openBlock_eq_ok h
  subst hsame
  have hrange : opened.archive.blockRange opened.blockIndex =
      List.range' opened.start opened.block.numUnpackSubStreams := by
    rw [Archive.blockRange, subStreamsOf_eq hblock, StreamMap.firstFile,
      List.getD_eq_getElem?_getD, hstart]
    rfl
  rw [hrange] at hroom hlast ⊢
  refine OpenBlock.answersFrom_of_boundaryLoop hfold hengaged hne 0
    (fun split hsplit => hplanned hsplit) ?_ ?_
  · change 0 + _ < _
    rwa [Nat.zero_add]
  · change _ ∨ 0 + _ ∈ _
    rwa [Nat.zero_add]

end Sevenz
