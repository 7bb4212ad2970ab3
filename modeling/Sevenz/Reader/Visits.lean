import Sevenz.Header.Accepted
import Sevenz.Header.StartHeader
import Sevenz.Reader.ArchiveReader
import Mathlib.Data.List.Nodup
import Mathlib.Data.List.Pairwise

/-!
# Which entries a walk visits

A walk that the closure never stops calls it for the entries of each block in turn and then
for the files of no block.
-/

namespace Sevenz

open Lib

def Visit.Continues (visit : Visit) : Prop := visit.answer = some (.ok true)

instance (visit : Visit) : Decidable visit.Continues :=
  inferInstanceAs (Decidable (visit.answer = some (.ok true)))

def visitedFiles (visits : List Visit) : List Nat := visits.map Visit.fileIndex

def AddsVisit (fileIndex : Nat) (before : List Visit) (answer : Result Bool)
    (after : List Visit) : Prop :=
  ∃ visit, after = before ++ [visit] ∧ visit.fileIndex = fileIndex ∧
    ∀ goOn, answer = .ok goOn → visit.answer = some (.ok goOn)

theorem answerResult_eq_ok {answer : Option (Except Error Bool)} {goOn : Bool} :
    answerResult answer = .ok goOn ↔ answer = some (.ok goOn) := by
  unfold answerResult
  split <;> simp

theorem visitEmpty_addsVisit (each : Callback) (blockIndex : Option Nat) (fileIndex : Nat)
    (file : ArchiveEntry) (log : WalkLog) :
    AddsVisit fileIndex log.visits (visitEmpty each blockIndex fileIndex file log).1
      (visitEmpty each blockIndex fileIndex file log).2.visits :=
  ⟨_, rfl, rfl, fun _ => answerResult_eq_ok.mp⟩

namespace OpenBlock

variable (d : OpenBlock)

theorem finishEntry_visits (fileIndex : Nat) (file : ArchiveEntry) (report : Option UInt32)
    (goOn : Bool) (st : BlockState) :
    (d.finishEntry fileIndex file report goOn st).2.log.visits = st.log.visits := by
  unfold finishEntry
  split <;> rfl

theorem finishEntry_answer {fileIndex : Nat} {file : ArchiveEntry} {report : Option UInt32}
    {goOn g : Bool} {st : BlockState}
    (h : (d.finishEntry fileIndex file report goOn st).1 = .ok g) : g = goOn := by
  unfold finishEntry at h
  split at h
  · cases h
  · cases h
    rfl

theorem visitStream_addsVisit (each : Callback) (fileIndex : Nat) (file : ArchiveEntry)
    (st : BlockState) :
    AddsVisit fileIndex st.log.visits (d.visitStream each fileIndex file st).1
      (d.visitStream each fileIndex file st).2.log.visits := by
  unfold visitStream
  dsimp only
  split
  · exact ⟨_, rfl, rfl, fun _ h => by cases h⟩
  · exact ⟨_, rfl, rfl, fun _ h => by cases h⟩
  · rename_i goOn hanswer
    rw [finishEntry_visits]
    refine ⟨_, rfl, rfl, fun g h => ?_⟩
    rw [d.finishEntry_answer h]
    exact hanswer

theorem visitEntry_addsVisit (each : Callback) (fileIndex : Nat) (file : ArchiveEntry)
    (st : BlockState) :
    AddsVisit fileIndex st.log.visits (d.visitEntry each fileIndex file st).1
      (d.visitEntry each fileIndex file st).2.log.visits := by
  unfold visitEntry
  split
  · exact d.visitStream_addsVisit each fileIndex file st
  · exact visitEmpty_addsVisit each (some d.blockIndex) fileIndex file st.log

end OpenBlock

/-- A part of a walk adds visits; where all of them go on they are of the given files. -/
def AddsVisits (files : List Nat) (before after : List Visit) : Prop :=
  ∃ visits, after = before ++ visits ∧
    ((∀ visit ∈ visits, visit.Continues) → visitedFiles visits = files)

theorem AddsVisits.nil (before : List Visit) : AddsVisits [] before before :=
  ⟨[], (List.append_nil _).symm, fun _ => rfl⟩

theorem AddsVisits.trans {files files' : List Nat} {before middle after : List Visit}
    (h : AddsVisits files before middle) (h' : AddsVisits files' middle after) :
    AddsVisits (files ++ files') before after := by
  obtain ⟨visits, rfl, hvisits⟩ := h
  obtain ⟨visits', rfl, hvisits'⟩ := h'
  refine ⟨visits ++ visits', List.append_assoc .., fun hall => ?_⟩
  rw [visitedFiles, List.map_append, ← visitedFiles, ← visitedFiles,
    hvisits fun v hv => hall v (List.mem_append_left _ hv),
    hvisits' fun v hv => hall v (List.mem_append_right _ hv)]

theorem AddsVisit.addsVisits {fileIndex : Nat} {before after : List Visit}
    {answer : Result Bool} (h : AddsVisit fileIndex before answer after) :
    AddsVisits [fileIndex] before after := by
  obtain ⟨visit, rfl, rfl, -⟩ := h
  exact ⟨[visit], rfl, fun _ => rfl⟩

theorem AddsVisit.stops {fileIndex : Nat} {files : List Nat} {before after : List Visit}
    (h : AddsVisit fileIndex before (.ok false) after) : AddsVisits files before after := by
  obtain ⟨visit, rfl, -, hanswer⟩ := h
  refine ⟨[visit], rfl, fun hall => ?_⟩
  have := (hanswer false rfl).symm.trans (hall visit List.mem_cons_self)
  cases this

namespace OpenBlock

variable (d : OpenBlock)

theorem walkEntries_cons {each : Callback} {i : Nat} {files : List Nat} {st st' : BlockState}
    {g : Bool} (h : d.walkEntries each (i :: files) st = (.ok g, st')) :
    ∃ file g₁ st₁, d.archive.files[i]? = some file ∧
      d.visitEntry each i file st = (.ok g₁, st₁) ∧
      ((g₁ = true ∧ d.walkEntries each files st₁ = (.ok g, st')) ∨
        (g₁ = false ∧ g = false ∧ st' = st₁)) := by
  unfold walkEntries at h
  split at h
  · cases h
  · rename_i file hfile
    refine ⟨file, ?_⟩
    split at h
    · rename_i st₁ hstep
      exact ⟨true, st₁, hfile, hstep, Or.inl ⟨rfl, h⟩⟩
    · rename_i answer st₁ hne hstep
      cases h
      cases g with
      | true => exact absurd rfl hne
      | false => exact ⟨false, st', hfile, hstep, Or.inr ⟨rfl, rfl, rfl⟩⟩

theorem walkEntries_addsVisits {each : Callback} {files : List Nat} {st st' : BlockState}
    {finished : Bool} (h : d.walkEntries each files st = (.ok finished, st')) :
    AddsVisits files st.log.visits st'.log.visits := by
  induction files generalizing st with
  | nil =>
      cases h
      exact AddsVisits.nil _
  | cons fileIndex files ih =>
      obtain ⟨file, g₁, st₁, -, hstep, hrest⟩ := d.walkEntries_cons h
      have hadds := d.visitEntry_addsVisit each fileIndex file st
      rw [hstep] at hadds
      rcases hrest with ⟨rfl, h⟩ | ⟨rfl, rfl, rfl⟩
      · exact hadds.addsVisits.trans (ih h)
      · exact hadds.stops

theorem walk_addsVisits {each : Callback} {log log' : WalkLog} {finished : Bool}
    (h : d.walk each log = (.ok finished, log')) :
    AddsVisits (List.range' d.start d.block.numUnpackSubStreams) log.visits log'.visits := by
  unfold walk at h
  split at h
  · rename_i st hwalk
    obtain ⟨-, rfl⟩ := Prod.mk.inj h
    exact d.walkEntries_addsVisits hwalk
  · rename_i answer st hne hwalk
    cases h
    exact d.walkEntries_addsVisits hwalk

end OpenBlock

theorem openBlock_eq_ok {d : BlockDecoder} {opened : OpenBlock} (h : d.openBlock = .ok opened) :
    opened.toBlockDecoder = d ∧ d.archive.blocks[d.blockIndex]? = some opened.block ∧
      d.archive.streamMap.blockFirstFileIndex[d.blockIndex]? = some opened.start ∧
      d.archive.streamMap.blockFirstSubStreamIndex[d.blockIndex]? = some opened.firstSubStream ∧
      buildDecodeStack d.codecs d.limits d.archive d.blockIndex = .ok opened.stack := by
  unfold BlockDecoder.openBlock at h
  obtain ⟨splits, -, h⟩ := Result.bind_eq_ok.mp h
  obtain ⟨stack, hstack, h⟩ := Result.bind_eq_ok.mp h
  obtain ⟨start, hstart, h⟩ := Result.bind_eq_ok.mp h
  obtain ⟨block, hblock, h⟩ := Result.bind_eq_ok.mp h
  obtain ⟨firstSubStream, hfirst, h⟩ := Result.bind_eq_ok.mp h
  cases Result.pure_eq_ok.mp h
  exact ⟨rfl, Result.index_eq_ok.mp hblock, Result.index_eq_ok.mp hstart,
    Result.index_eq_ok.mp hfirst, Result.mapErr_eq_ok.mp hstack⟩

def Archive.blockRange (archive : Archive) (b : Nat) : List Nat :=
  List.range' (archive.streamMap.firstFile b) (subStreamsOf archive.blocks b)

theorem blockDecoder_addsVisits {d : BlockDecoder} {each : Callback} {log log' : WalkLog}
    {finished : Bool} (h : d.forEachEntries each log = (.ok finished, log')) :
    AddsVisits (d.archive.blockRange d.blockIndex) log.visits log'.visits := by
  unfold BlockDecoder.forEachEntries at h
  split at h
  · cases h
  · rename_i opened hopen
    obtain ⟨rfl, hblock, hstart, -, -⟩ := openBlock_eq_ok hopen
    have hadds := opened.walk_addsVisits h
    rwa [Archive.blockRange, subStreamsOf_eq hblock, StreamMap.firstFile,
      List.getD_eq_getElem?_getD, hstart]

namespace ArchiveReader

variable (r : ArchiveReader)

theorem completeBlock_visits {b : Nat} {finished : Bool} {log log' : WalkLog}
    (h : r.completeBlock b finished log = .ok log') : log'.visits = log.visits := by
  unfold completeBlock at h
  split at h
  · obtain ⟨block, -, h⟩ := Result.bind_eq_ok.mp h
    obtain ⟨size, -, h⟩ := Result.bind_eq_ok.mp h
    cases Result.pure_eq_ok.mp h
    rfl
  · cases Result.pure_eq_ok.mp h
    rfl

theorem walkBlocks_addsVisits {each : Callback} {blocks : List Nat} {log log' : WalkLog}
    (h : r.walkBlocks each blocks log = (.ok (), log')) :
    AddsVisits (blocks.flatMap r.archive.blockRange) log.visits log'.visits := by
  induction blocks generalizing log with
  | nil =>
      cases h
      exact AddsVisits.nil _
  | cons b blocks ih =>
      unfold walkBlocks at h
      split at h
      · cases h
      · rename_i finished log₁ hblock
        split at h
        · cases h
        · rename_i log₂ hcomplete
          have hadds := blockDecoder_addsVisits hblock
          rw [← r.completeBlock_visits hcomplete] at hadds
          rw [List.flatMap_cons]
          exact hadds.trans (ih h)

def emptyFiles (archive : Archive) (files : List Nat) : List Nat :=
  files.filter fun i => archive.streamMap.fileBlockIndex[i]? = some none

theorem walkEmptyFiles_addsVisits {each : Callback} {files : List Nat} {log log' : WalkLog}
    (h : r.walkEmptyFiles each files log = (.ok (), log')) :
    AddsVisits (emptyFiles r.archive files) log.visits log'.visits := by
  induction files generalizing log with
  | nil =>
      cases h
      exact AddsVisits.nil _
  | cons i files ih =>
      unfold walkEmptyFiles at h
      split at h
      · rename_i file hblock hfile
        have hadds := visitEmpty_addsVisit each none i file log
        have hcons : emptyFiles r.archive (i :: files) = [i] ++ emptyFiles r.archive files := by
          rw [emptyFiles, List.filter_cons_of_pos (by simpa using hblock)]
          rfl
        rw [hcons]
        split at h
        · rename_i log₁ hstep
          rw [hstep] at hadds
          exact hadds.addsVisits.trans (ih h)
        · rename_i log₁ hstep
          cases h
          rw [hstep] at hadds
          exact hadds.stops
        · cases h
      · rename_i b file hblock hfile
        rw [emptyFiles, List.filter_cons_of_neg (by simp [hblock])]
        exact ih h
      · cases h

def walkOrder (archive : Archive) : List Nat :=
  (List.range archive.blocks.length).flatMap archive.blockRange ++
    emptyFiles archive (List.range archive.files.length)

/-- A walk that ran to its end, never stopped, visited the files of each block's range and
then the files of no block. -/
theorem forEachEntries_visitedFiles {each : Callback} {log : WalkLog}
    (h : r.forEachEntries each = (.ok (), log)) (hall : ∀ visit ∈ log.visits, visit.Continues) :
    visitedFiles log.visits = walkOrder r.archive := by
  unfold forEachEntries at h
  split at h
  · cases h
  · rename_i log₁ hblocks
    obtain ⟨visits, hvisits, hfiles⟩ :=
      (r.walkBlocks_addsVisits hblocks).trans (r.walkEmptyFiles_addsVisits h)
    rw [List.nil_append] at hvisits
    rw [hvisits] at hall ⊢
    exact hfiles hall

end ArchiveReader

open ArchiveReader

variable {archive : Archive}

theorem mem_blockRange {b i : Nat} : i ∈ archive.blockRange b ↔
    archive.streamMap.firstFile b ≤ i ∧
      i < archive.streamMap.firstFile b + subStreamsOf archive.blocks b := by
  rw [Archive.blockRange, List.mem_range'_1]

theorem mem_walkOrder {i : Nat} : i ∈ walkOrder archive ↔
    (∃ b < archive.blocks.length, i ∈ archive.blockRange b) ∨
      (i < archive.files.length ∧ archive.streamMap.fileBlockIndex[i]? = some none) := by
  simp [walkOrder, emptyFiles, List.mem_flatMap]

theorem eq_of_mem_blockRange (h : (walkOrder archive).Nodup) {b b' i : Nat}
    (hb : b < archive.blocks.length) (hb' : b' < archive.blocks.length)
    (hi : i ∈ archive.blockRange b) (hi' : i ∈ archive.blockRange b') : b = b' := by
  have hflat := (List.nodup_append.mp h).1
  have : Std.Symm (Function.onFun List.Disjoint archive.blockRange) := ⟨fun _ _ hxy _ hy hx => hxy hx hy⟩
  by_contra hne
  exact (List.nodup_flatMap.mp hflat).2.forall
    (List.mem_range.mpr hb) (List.mem_range.mpr hb') hne hi hi'

theorem ne_none_of_mem_blockRange (h : (walkOrder archive).Nodup) {b i : Nat}
    (hb : b < archive.blocks.length) (hlt : i < archive.files.length)
    (hi : i ∈ archive.blockRange b) : archive.streamMap.fileBlockIndex[i]? ≠ some none := by
  intro hnone
  have hdisjoint := (List.nodup_append.mp h).2.2
  refine hdisjoint i (List.mem_flatMap.mpr ⟨b, List.mem_range.mpr hb, hi⟩) i ?_ rfl
  simp [emptyFiles, hlt, hnone]

namespace Archive.Mapped

variable (h : archive.Mapped)
include h

theorem lt_of_mem_walkOrder {i : Nat} (hi : i ∈ walkOrder archive) : i < archive.files.length := by
  rcases mem_walkOrder.mp hi with ⟨b, hb, hi⟩ | ⟨hi, -⟩
  · exact Nat.lt_of_lt_of_le (mem_blockRange.mp hi).2 (h.fits b hb)
  · exact hi

theorem nodup_of_once (honce : ∀ i < archive.files.length, (walkOrder archive).count i = 1) :
    (walkOrder archive).Nodup := by
  refine List.nodup_iff_count_eq_one.mpr fun i hi => ?_
  exact honce i (h.lt_of_mem_walkOrder hi)

theorem fileCount_eq_of_once
    (honce : ∀ i < archive.files.length, (walkOrder archive).count i = 1) {b : Nat}
    (hb : b < archive.blocks.length) :
    archive.streamMap.fileCount b = subStreamsOf archive.blocks b := by
  have hnodup := h.nodup_of_once honce
  have hfits := h.fits b hb
  rcases h.filled b hb with hle | ⟨hfirst, hcount⟩
  · -- a file of the block past its range would be in the range of a block without files
    by_contra hne
    have hlt : subStreamsOf archive.blocks b < archive.streamMap.fileCount b := by omega
    obtain ⟨-, hpos⟩ := h.begun b (by omega)
    have hmapped := (h.spans b
      (archive.streamMap.firstFile b + subStreamsOf archive.blocks b)).mpr (by omega)
    have hin := (List.getElem?_eq_some_iff.mp hmapped).1
    rw [h.fileBlock] at hin
    have hmem : archive.streamMap.firstFile b + subStreamsOf archive.blocks b ∈
        walkOrder archive := by
      refine List.count_pos_iff.mp ?_
      rw [honce _ hin]
      exact Nat.one_pos
    rcases mem_walkOrder.mp hmem with ⟨b', hb', hi'⟩ | ⟨-, hnone⟩
    · have hrange := mem_blockRange.mp hi'
      have hne' : b' ≠ b := by
        rintro rfl
        omega
      rcases h.filled b' hb' with hle' | ⟨hfirst', -⟩
      · have := (h.spans b' (archive.streamMap.firstFile b +
          subStreamsOf archive.blocks b)).mpr (by omega)
        rw [hmapped] at this
        cases this
        exact hne' rfl
      · refine hne' (eq_of_mem_blockRange hnodup hb' hb (i := archive.streamMap.firstFile b)
          (mem_blockRange.mpr ⟨by omega, by omega⟩) (mem_blockRange.mpr ⟨by omega, by omega⟩))
    · rw [hmapped] at hnone
      cases hnone
  · -- a block that was never begun takes the first file, which another visit has as well
    rw [hcount]
    by_contra hne
    have hzero : 0 ∈ archive.blockRange b := mem_blockRange.mpr ⟨by omega, by omega⟩
    have hlt : 0 < archive.files.length := by omega
    have hnone := ne_none_of_mem_blockRange hnodup hb hlt hzero
    obtain ⟨x, hx⟩ : ∃ x, archive.streamMap.fileBlockIndex[0]? = some x :=
      ⟨_, List.getElem?_eq_getElem (h.fileBlock ▸ hlt)⟩
    cases x with
    | none => exact hnone hx
    | some b' =>
        obtain ⟨hle', hlt'⟩ := (h.spans b' 0).mp hx
        obtain ⟨hb', hpos'⟩ := h.begun b' (by omega)
        have heq := eq_of_mem_blockRange hnodup hb hb' hzero
          (mem_blockRange.mpr ⟨hle', by omega⟩)
        subst heq
        omega

theorem once_of_fileCount_eq (hcount : ∀ b < archive.blocks.length,
      archive.streamMap.fileCount b = subStreamsOf archive.blocks b) (i : Nat)
    (hi : i < archive.files.length) : (walkOrder archive).count i = 1 := by
  have hspan : ∀ b < archive.blocks.length, ∀ j,
      j ∈ archive.blockRange b ↔ archive.streamMap.fileBlockIndex[j]? = some (some b) := by
    intro b hb j
    rw [mem_blockRange, h.spans, hcount b hb]
  refine List.count_eq_one_of_mem ?_ ?_
  · refine List.nodup_append.mpr ⟨List.nodup_flatMap.mpr ⟨fun b _ => List.nodup_range',
      ?_⟩, List.nodup_range.filter _, ?_⟩
    · refine List.nodup_range.pairwise_of_forall_ne fun b hb b' hb' hne j hj hj' => hne ?_
      rw [hspan b (List.mem_range.mp hb)] at hj
      rw [hspan b' (List.mem_range.mp hb'), hj] at hj'
      exact Option.some.inj (Option.some.inj hj')
    · rintro j hj j' hj' rfl
      obtain ⟨b, hb, hj⟩ := List.mem_flatMap.mp hj
      rw [hspan b (List.mem_range.mp hb)] at hj
      have hnone := (List.mem_filter.mp hj').2
      rw [hj] at hnone
      simp at hnone
  · obtain ⟨x, hx⟩ : ∃ x, archive.streamMap.fileBlockIndex[i]? = some x :=
      ⟨_, List.getElem?_eq_getElem (h.fileBlock ▸ hi)⟩
    refine mem_walkOrder.mpr ?_
    cases x with
    | none => exact .inr ⟨hi, hx⟩
    | some b =>
        have hspan' := (h.spans b i).mp hx
        have hb := (h.begun b (by omega)).1
        exact .inl ⟨b, hb, (hspan b hb i).mpr hx⟩

end Archive.Mapped

/-- In a walk of an accepted archive that ran to its end and was never stopped, the closure
was called once for every file exactly where each block has as many files mapped to it as it
has sub-streams. -/
theorem forEachEntries_once_iff {codecs : Codecs} {limits : ArchiveLimits}
    {passwordGiven : Bool} {file : List UInt8}
    (haccepted : readWithLimits codecs limits passwordGiven file = .ok archive)
    {r : ArchiveReader} (hr : r.archive = archive) {each : Callback} {log : WalkLog}
    (hrun : r.forEachEntries each = (.ok (), log))
    (hall : ∀ visit ∈ log.visits, visit.Continues) :
    (∀ i < archive.files.length, (visitedFiles log.visits).count i = 1) ↔
      ∀ b < archive.blocks.length,
        archive.streamMap.fileCount b = subStreamsOf archive.blocks b := by
  have hmapped := (readWithLimits_described haccepted).mapped
  rw [r.forEachEntries_visitedFiles hrun hall, hr]
  constructor
  · exact fun honce b hb => hmapped.fileCount_eq_of_once honce hb
  · exact fun hcount i hi => hmapped.once_of_fileCount_eq hcount i hi

def readAllEntries : Callback := fun _ _ _ =>
  Script.readToEnd retryInterrupted (fun _ => 8192) (fun e => some (.error (Error.ofIo e)))
    (fun _ => some (.ok true)) none 16 []

def copyingReader (file : List UInt8) (archive : Archive) : ArchiveReader :=
  { codecs := .copying file, limits := {}, verifyChecksums := true, passwordGiven := false
    archive }

def interleavedFile : List UInt8 :=
  archiveFile crc32 [0x41, 0x42]
    [kHeader, kMainStreamsInfo,
      kPackInfo, 0, 1, kSize, 2, kEnd,
      kUnpackInfo, kFolder, 1, 0, 1, 1, 0, kCodersUnpackSize, 2, kEnd,
      kSubStreamsInfo, kNumUnpackStream, 2, kSize, 1, kEnd, kEnd,
      kFilesInfo, 3, kEmptyStream, 1, 0x40, kEnd, kEnd]

theorem interleavedFile_walk : ∃ archive log,
    readWithLimits (.copying interleavedFile) {} false interleavedFile = .ok archive ∧
      (copyingReader interleavedFile archive).forEachEntries readAllEntries = (.ok (), log) ∧
      (∀ visit ∈ log.visits, visit.Continues) ∧
      archive.files.length = 3 ∧ visitedFiles log.visits = [0, 1] := by
  obtain ⟨archive, hread, hcheck⟩ := Result.exists_of_holds
    (show (readWithLimits (.copying interleavedFile) {} false interleavedFile).holds
      (fun archive =>
        let run := (copyingReader interleavedFile archive).forEachEntries readAllEntries
        run.1.holds (fun _ => true) && decide ((∀ visit ∈ run.2.visits, visit.Continues) ∧
          archive.files.length = 3 ∧ visitedFiles run.2.visits = [0, 1])) = true by
      decide +kernel)
  obtain ⟨hrun, hrest⟩ := Bool.and_eq_true_iff.mp hcheck
  obtain ⟨_, hok, -⟩ := Result.exists_of_holds hrun
  exact ⟨archive, _, hread, Prod.ext hok rfl, of_decide_eq_true hrest⟩

theorem interleavedFile_once_iff : ∃ archive log,
    readWithLimits (.copying interleavedFile) {} false interleavedFile = .ok archive ∧
      (copyingReader interleavedFile archive).forEachEntries readAllEntries = (.ok (), log) ∧
      ((∀ i < archive.files.length, (visitedFiles log.visits).count i = 1) ↔
        ∀ b < archive.blocks.length,
          archive.streamMap.fileCount b = subStreamsOf archive.blocks b) := by
  obtain ⟨archive, log, hread, hrun, hall, -⟩ := interleavedFile_walk
  exact ⟨archive, log, hread, hrun, forEachEntries_once_iff hread rfl hrun hall⟩

/-- The directory takes the second file's place in the block's range, so that file is never
handed out. -/
theorem interleavedFile_skips_entry : ∃ archive log,
    readWithLimits (.copying interleavedFile) {} false interleavedFile = .ok archive ∧
      (copyingReader interleavedFile archive).forEachEntries readAllEntries = (.ok (), log) ∧
      (∀ visit ∈ log.visits, visit.Continues) ∧
      ¬ ∀ i < archive.files.length, (visitedFiles log.visits).count i = 1 := by
  obtain ⟨archive, log, hread, hrun, hall, hfiles, hvisited⟩ := interleavedFile_walk
  refine ⟨archive, log, hread, hrun, hall, fun honce => ?_⟩
  have := honce 2 (by rw [hfiles]; decide)
  rw [hvisited] at this
  exact absurd this (by decide)

end Sevenz
