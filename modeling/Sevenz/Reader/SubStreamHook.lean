import Sevenz.Reader.Integrity
import Mathlib.Data.List.Sort

/-!
# The sub-stream hook

Which files a walk reports to `set_sub_stream_complete_hook`, against those the archive
records a checksum of.
-/

namespace Sevenz

open Lib

namespace Archive

variable (archive : Archive)

def streamsIn (files : List Nat) : Nat :=
  files.countP fun i => archive.files[i]?.any ArchiveEntry.hasStream

def sizeIn (files : List Nat) : UInt64 :=
  (files.map fun i =>
    match archive.files[i]? with
    | some file => if file.HasBytes then file.size else 0
    | none => 0).sum

def completionAt (b firstSubStream first i : Nat) (file : ArchiveEntry) (crc32 : UInt32) :
    SubStreamCompletion :=
  { blockIndex := b
    subStreamIndex := firstSubStream + archive.streamsIn (List.range' first (i - first))
    fileIndex := i
    unpackedOffset := archive.sizeIn (List.range' first (i - first))
    len := file.size
    crc32 }

/-- The completion that a file with a recorded checksum is to have: the sub-streams of a block
belong to its files in order. -/
def recordedSubStream (i : Nat) : Option SubStreamCompletion :=
  match archive.files[i]?, archive.streamMap.fileBlockIndex[i]? with
  | some file, some (some b) =>
      if file.HasBytes ∧ file.hasCrc = true then
        some (archive.completionAt b (archive.streamMap.blockFirstSubStreamIndex.getD b 0)
          (archive.streamMap.firstFile b) i file file.crc.toUInt32)
      else none
  | _, _ => none

def recordedSubStreams : List SubStreamCompletion :=
  (List.range archive.files.length).filterMap archive.recordedSubStream

variable {archive}

theorem streamsIn_concat {first i : Nat} {file : ArchiveEntry} (hle : first ≤ i)
    (hfile : archive.files[i]? = some file) :
    archive.streamsIn (List.range' first (i + 1 - first)) =
      archive.streamsIn (List.range' first (i - first)) + if file.hasStream then 1 else 0 := by
  have hlast : first + (i - first) = i := by omega
  rw [Nat.sub_add_comm hle, List.range'_1_concat, hlast, streamsIn, List.countP_append]
  congr 1
  rw [List.countP_singleton, hfile]
  rfl

theorem sizeIn_concat {first i : Nat} {file : ArchiveEntry} (hle : first ≤ i)
    (hfile : archive.files[i]? = some file) :
    archive.sizeIn (List.range' first (i + 1 - first)) =
      archive.sizeIn (List.range' first (i - first)) + if file.HasBytes then file.size else 0 := by
  have hlast : first + (i - first) = i := by omega
  rw [Nat.sub_add_comm hle, List.range'_1_concat, hlast, sizeIn, List.map_append,
    List.sum_append, List.map_singleton, List.sum_singleton, hfile]
  rfl

end Archive

/-- The visit drained its entry and let the walk go on. -/
structure Visit.Drains (visit : Visit) : Prop where
  continues : visit.Continues
  readToEnd : ReadToEnd visit.records
  unrefused : Unrefused visit.records

instance (visit : Visit) : Decidable visit.Drains :=
  decidable_of_iff (visit.Continues ∧ ReadToEnd visit.records ∧ Unrefused visit.records)
    ⟨fun ⟨h₁, h₂, h₃⟩ => ⟨h₁, h₂, h₃⟩, fun ⟨h₁, h₂, h₃⟩ => ⟨h₁, h₂, h₃⟩⟩

namespace OpenBlock

variable (d : OpenBlock)

/-- The files whose checksum a walk of the block reports where it reads them whole. -/
def Reports (file : ArchiveEntry) : Prop :=
  file.HasBytes ∧ (d.folding = true ∨ file.hasCrc = true ∧ file.size.toNat < 2 ^ 63)

instance (file : ArchiveEntry) : Decidable (d.Reports file) :=
  inferInstanceAs (Decidable (_ ∧ _))

def reported (i : Nat) : Bool := d.archive.files[i]?.any fun file => decide (d.Reports file)

structure AtFile (i : Nat) (st : BlockState) : Prop where
  le : d.start ≤ i
  subStream : st.subStream = d.archive.streamsIn (List.range' d.start (i - d.start))
  unpackedOffset : st.unpackedOffset = d.archive.sizeIn (List.range' d.start (i - d.start))

theorem atFile_initial (log : WalkLog) : d.AtFile d.start (d.initial log) := by
  constructor
  · exact Nat.le_refl _
  · rw [Nat.sub_self]
    rfl
  · rw [Nat.sub_self]
    rfl

theorem AtFile.next {i : Nat} {st st' : BlockState} {file : ArchiveEntry} (h : d.AtFile i st)
    (hfile : d.archive.files[i]? = some file)
    (hsub : st'.subStream = st.subStream + if file.hasStream then 1 else 0)
    (hoffset : st'.unpackedOffset = st.unpackedOffset + if file.HasBytes then file.size else 0) :
    d.AtFile (i + 1) st' := by
  constructor
  · exact Nat.le_succ_of_le h.le
  · rw [hsub, h.subStream, Archive.streamsIn_concat h.le hfile]
  · rw [hoffset, h.unpackedOffset, Archive.sizeIn_concat h.le hfile]

def Completes (i : Nat) (completion : SubStreamCompletion) : Prop :=
  ∃ file crc, d.archive.files[i]? = some file ∧
    completion = d.archive.completionAt d.blockIndex d.firstSubStream d.start i file crc ∧
    (file.hasCrc = true → crc.toUInt64 = file.crc)

theorem finishEntry_completions {i : Nat} {file : ArchiveEntry} {report : Option UInt32}
    {goOn g : Bool} {st st' : BlockState}
    (h : d.finishEntry i file report goOn st = (.ok g, st')) :
    st'.subStream = st.subStream + 1 ∧
      st'.log.subStreams = st.log.subStreams ++
        (((d.foldedEntry file st).or report).map (d.subStreamCompletion i file st)).toList := by
  unfold finishEntry at h
  split at h
  · cases h
  · cases h
    exact ⟨rfl, rfl⟩

/-- What is asked of the workers in the steps of a walk: that they have the checksums of the
ranges it comes to, and that the walk has not lost count. -/
structure FoldsFrom (files : List Nat) (st : BlockState) : Prop where
  answers : d.AnswersFrom st.unpackedOffset.toNat files
  counted : Counted st
  room : st.unpackedOffset.toNat + d.archive.streamedBytes files < 2 ^ 64

theorem completes_of_eq {i : Nat} {file : ArchiveEntry} {crc : UInt32} {st : BlockState}
    (hat : d.AtFile i st) (hfile : d.archive.files[i]? = some file)
    (hcrc : file.hasCrc = true → crc.toUInt64 = file.crc) :
    d.Completes i (d.subStreamCompletion i file st crc) := by
  refine ⟨file, crc, hfile, ?_, hcrc⟩
  rw [subStreamCompletion, hat.subStream, hat.unpackedOffset]
  rfl

theorem visitStream_report (hverify : d.verifyChecksums = true) {each : Callback} {i : Nat}
    {file : ArchiveEntry} {st : BlockState} (hbytes : file.HasBytes)
    (hend : ReadToEnd (d.streamVisit each i file st).records)
    (hunrefused : Unrefused (d.streamVisit each i file st).records)
    (hunbroken : Unbroken (d.streamVisit each i file st).blockReads) (hfolding : d.folding = false) :
    (d.Reports file → ∃ crc,
      (d.callStream each i file st).2.2.1.bind CrcState.report = some crc ∧
        crc.toUInt64 = file.crc) ∧
      (¬ d.Reports file → (d.callStream each i file st).2.2.1.bind CrcState.report = none) := by
  rcases hcall : d.callStream each i file st with ⟨answer, records, check, remain, chain⟩
  obtain ⟨htrace, hvisit⟩ := d.callStream_trace hcall
  rw [hvisit] at hend hunrefused hunbroken
  have hreports : d.Reports file ↔ file.hasCrc = true ∧ file.size.toNat < 2 ^ 63 := by
    simp only [Reports, hfolding, Bool.false_eq_true, false_or, and_iff_right hbytes]
  rw [hreports]
  by_cases hcrc : file.hasCrc = true
  · have hcheck : d.entryCheck file = some (CrcState.new file.size file.crc) := by
      simp [entryCheck, hcrc, hverify, hfolding]
    rw [hcheck] at htrace
    obtain ⟨reads, happend, hsome, hnone⟩ := verifying_reports (d.stack.read_honest d.codecs)
      (UInt64.lt_iff_toNat_lt.mp hbytes.2) htrace hend hunrefused
    dsimp only at hunbroken ⊢
    rw [happend, List.drop_left] at hunbroken
    exact ⟨fun hsized => hsome hunbroken hsized.2, fun hnot => hnone fun hsized => hnot ⟨hcrc, hsized⟩⟩
  · have hcheck : d.entryCheck file = none := by
      simp [entryCheck, hcrc]
    rw [hcheck] at htrace
    have hnone := (trace_maybeCrcRead_none htrace).1
    dsimp only at hnone ⊢
    rw [hnone]
    exact ⟨fun hsized => absurd hsized.1 hcrc, fun _ => rfl⟩

theorem visitEntry_foldedEntry {each : Callback} {i : Nat} {files : List Nat}
    {file : ArchiveEntry} {st st' : BlockState} {g : Bool} (hfolding : d.folding = true)
    (h : d.visitEntry each i file st = (.ok g, st')) (hfile : d.archive.files[i]? = some file)
    (hbytes : file.HasBytes) (hfolds : d.FoldsFrom (i :: files) st)
    (hend : ReadToEnd (d.entryVisit each i file st).records)
    (hunbroken : Unbroken (d.entryVisit each i file st).blockReads) :
    ∃ crc, d.foldedEntry file (d.afterCall each i file st) = some crc ∧
      (file.hasCrc = true → crc.toUInt64 = file.crc) := by
  have hroom := hfolds.room
  rw [streamedBytes_cons hfile] at hroom
  have hanswer := (hfolds.answers file hfile).1
  obtain ⟨hcounted, hoffset, -⟩ := d.visitEntry_folded hfolding hanswer h hfolds.counted
    (by omega) hend hunbroken
  rw [ArchiveEntry.taken, if_pos hbytes] at hoffset
  rw [visitEntry, if_pos hbytes] at h
  obtain ⟨report, -, hfinish⟩ := d.visitStream_eq_ok h
  obtain ⟨hchain, -, hmatch⟩ := d.finishEntry_eq_ok hfinish
  rw [Counted, hchain, hoffset] at hcounted
  have hfolded : d.foldedEntry file (d.afterCall each i file st) = some _ :=
    (if_pos hfolding).trans (hanswer hbytes _ (Nat.le_of_eq hcounted.symm))
  exact ⟨_, hfolded, hmatch _ hfolded⟩

theorem visitEntry_completes (hverify : d.verifyChecksums = true) {each : Callback} {i : Nat}
    {files : List Nat} {file : ArchiveEntry} {st st' : BlockState} {g : Bool}
    (h : d.visitEntry each i file st = (.ok g, st')) (hfile : d.archive.files[i]? = some file)
    (hat : d.AtFile i st)
    (hfolds : d.folding = true → d.FoldsFrom (i :: files) st)
    (hend : ReadToEnd (d.entryVisit each i file st).records)
    (hunrefused : Unrefused (d.entryVisit each i file st).records)
    (hunbroken : Unbroken (d.entryVisit each i file st).blockReads) :
    (∃ completions, st'.log.subStreams = st.log.subStreams ++ completions ∧
      List.Forall₂ d.Completes (if d.Reports file then [i] else []) completions) ∧
      d.AtFile (i + 1) st' := by
  by_cases hbytes : file.HasBytes
  · have hstep := h
    rw [visitEntry, if_pos hbytes] at h
    obtain ⟨report, rfl, hfinish⟩ := d.visitStream_eq_ok h
    obtain ⟨-, hoffset, -⟩ := d.finishEntry_eq_ok hfinish
    obtain ⟨hsub, hlog⟩ := d.finishEntry_completions hfinish
    have hafter : d.AtFile i (d.afterCall each i file st) :=
      ⟨hat.le, hat.subStream, hat.unpackedOffset⟩
    refine ⟨⟨_, hlog, ?_⟩, hat.next d hfile ?_ ?_⟩
    · by_cases hfolding : d.folding = true
      · obtain ⟨crc, hfolded, hmatch⟩ := d.visitEntry_foldedEntry hfolding hstep hfile hbytes
          (hfolds hfolding) hend hunbroken
        rw [if_pos (show d.Reports file from ⟨hbytes, Or.inl hfolding⟩), hfolded]
        exact .cons (d.completes_of_eq hafter hfile hmatch) .nil
      · rw [entryVisit, if_pos hbytes] at hend hunrefused hunbroken
        obtain ⟨hsome, hnone⟩ := d.visitStream_report hverify hbytes hend hunrefused hunbroken
          (Bool.eq_false_iff.mpr hfolding)
        have hunfolded : d.foldedEntry file (d.afterCall each i file st) = none := if_neg hfolding
        rw [hunfolded, Option.none_or]
        by_cases hreports : d.Reports file
        · obtain ⟨crc, hreport, hmatch⟩ := hsome hreports
          rw [if_pos hreports, hreport]
          exact .cons (d.completes_of_eq hafter hfile fun _ => hmatch) .nil
        · rw [if_neg hreports, hnone hreports]
          exact .nil
    · rw [hsub, if_pos hbytes.1]
      rfl
    · rw [hoffset, if_pos hbytes]
      rfl
  · rw [visitEntry, if_neg hbytes] at h
    obtain ⟨-, rfl⟩ := Prod.mk.inj h
    have hsilent : ¬ d.Reports file := fun hreports => hbytes hreports.1
    refine ⟨⟨[], (List.append_nil _).symm, ?_⟩, hat.next d hfile ?_ ?_⟩
    · rw [if_neg hsilent]
      exact .nil
    · dsimp only
      split <;> rfl
    · rw [if_neg hbytes]
      exact (UInt64.add_zero _).symm

theorem FoldsFrom.next {st st' : BlockState} {files : List Nat} {each : Callback} {i : Nat}
    {file : ArchiveEntry} {g : Bool} (hfolding : d.folding = true)
    (h : d.FoldsFrom (i :: files) st) (hfile : d.archive.files[i]? = some file)
    (hstep : d.visitEntry each i file st = (.ok g, st'))
    (hend : ReadToEnd (d.entryVisit each i file st).records)
    (hunbroken : Unbroken (d.entryVisit each i file st).blockReads) : d.FoldsFrom files st' := by
  have hroom := h.room
  rw [streamedBytes_cons hfile] at hroom
  obtain ⟨hanswer, hanswers⟩ := h.answers file hfile
  obtain ⟨hcounted, hoffset, -⟩ := d.visitEntry_folded hfolding hanswer hstep h.counted
    (by omega) hend hunbroken
  exact ⟨hoffset ▸ hanswers, hcounted, by omega⟩

theorem walkEntries_completes (hverify : d.verifyChecksums = true) {each : Callback} {n i : Nat}
    {st st' : BlockState} {g : Bool} {visits : List Visit}
    (h : d.walkEntries each (List.range' i n) st = (.ok g, st')) (hat : d.AtFile i st)
    (hfolds : d.folding = true → d.FoldsFrom (List.range' i n) st)
    (happend : st'.log.visits = st.log.visits ++ visits)
    (hvisits : ∀ visit ∈ visits, visit.Drains ∧ Unbroken visit.blockReads) :
    ∃ completions, st'.log.subStreams = st.log.subStreams ++ completions ∧
      List.Forall₂ d.Completes ((List.range' i n).filter d.reported) completions := by
  induction n generalizing i st visits with
  | zero =>
      cases h
      exact ⟨[], (List.append_nil _).symm, .nil⟩
  | succ n ih =>
      rw [List.range'_succ] at h hfolds ⊢
      obtain ⟨file, g₁, st₁, hfile, hstep, hrest⟩ := d.walkEntries_cons h
      have hadded := d.visitEntry_visits each i file st
      rw [hstep] at hadded
      have hanswer := d.visitEntry_answer (g := g₁) (by rw [hstep])
      obtain ⟨more, hmore⟩ : ∃ more, st'.log.visits = st₁.log.visits ++ more := by
        rcases hrest with ⟨-, h⟩ | ⟨-, -, rfl⟩
        · obtain ⟨more, hmore, -⟩ := d.walkEntries_addsVisits h
          exact ⟨more, hmore⟩
        · exact ⟨[], (List.append_nil _).symm⟩
      obtain rfl : visits = d.entryVisit each i file st :: more := by
        rw [hmore, hadded, List.append_assoc] at happend
        exact (List.append_cancel_left happend).symm
      obtain ⟨⟨hdrains, hunbroken⟩, hvisits⟩ := List.forall_mem_cons.mp hvisits
      rcases hrest with ⟨rfl, h⟩ | ⟨rfl, -, -⟩
      · obtain ⟨⟨completions, hlog, hcompletes⟩, hat₁⟩ := d.visitEntry_completes hverify hstep
          hfile hat hfolds hdrains.readToEnd hdrains.unrefused hunbroken
        obtain ⟨rest, hlog', hrest'⟩ := ih h hat₁
          (fun hfolding =>
            (hfolds hfolding).next d hfolding hfile hstep hdrains.readToEnd hunbroken)
          hmore hvisits
        refine ⟨completions ++ rest, by rw [hlog', hlog, List.append_assoc], ?_⟩
        have hreported : d.reported i = decide (d.Reports file) := by
          rw [reported, hfile, Option.any_some]
        have hfilter : (i :: List.range' (i + 1) n).filter d.reported =
            (if d.Reports file then [i] else []) ++ (List.range' (i + 1) n).filter d.reported := by
          rw [List.filter_cons, hreported]
          split <;> simp_all
        rw [hfilter]
        exact List.rel_append hcompletes hrest'
      · -- the closure stopped the walk, which none of its calls did
        have := hanswer.symm.trans hdrains.continues
        cases this

end OpenBlock

namespace ArchiveReader

variable (r : ArchiveReader)

/-- The files whose checksum the walk of a block reports: where the workers compute the
checksums all that have bytes, elsewhere those with a checksum and a size that the verifying
reader can count. -/
def Reports (b : Nat) (file : ArchiveEntry) : Prop :=
  file.HasBytes ∧
    ((r.blockDecoder b).Folds ∨ file.hasCrc = true ∧ file.size.toNat < 2 ^ 63)

open scoped Classical in
noncomputable def reportedFiles (b : Nat) : List Nat :=
  (r.archive.blockRange b).filter fun i => r.archive.files[i]?.any fun file => r.Reports b file

def Completes (b i : Nat) (completion : SubStreamCompletion) : Prop :=
  ∃ file crc, r.archive.files[i]? = some file ∧
    completion = r.archive.completionAt b (r.archive.streamMap.blockFirstSubStreamIndex.getD b 0)
      (r.archive.streamMap.firstFile b) i file crc ∧
    (file.hasCrc = true → crc.toUInt64 = file.crc)

/-- The workers that compute the checksums of a block have that of each byte range that a walk over
its entries asks for. -/
def FolderAnswers (b : Nat) : Prop :=
  ∀ opened, (r.blockDecoder b).openBlock = .ok opened → opened.folding = true →
    opened.AnswersFrom 0 (r.archive.blockRange b)

theorem folderAnswers_of_piecesFit {b : Nat} (hfold : r.codecs.FoldsPieces)
    (hfit : (r.blockDecoder b).PiecesFit) : r.FolderAnswers b :=
  fun _ hopen hfolding => answersFrom_of_piecesFit hfold hfit hopen hfolding

theorem forEachEntries_completes {b : Nat} (hverify : r.verifyChecksums = true)
    (hanswers : r.FolderAnswers b)
    (hroom : (r.blockDecoder b).Folds →
      r.archive.streamedBytes (r.archive.blockRange b) < 2 ^ 64) {each : Callback}
    {log log' : WalkLog} {g : Bool}
    {visits : List Visit} (h : (r.blockDecoder b).forEachEntries each log = (.ok g, log'))
    (happend : log'.visits = log.visits ++ visits)
    (hvisits : ∀ visit ∈ visits, visit.Drains ∧ Unbroken visit.blockReads) :
    ∃ completions, log'.subStreams = log.subStreams ++ completions ∧
      List.Forall₂ (r.Completes b) (r.reportedFiles b) completions := by
  obtain ⟨opened, st', g₁, hopen, hsame, hwalk, rfl⟩ := forEachEntries_eq_ok h
  obtain ⟨-, hblock, hstart, hfirst, -⟩ := openBlock_eq_ok hopen
  have hstart' : r.archive.streamMap.firstFile b = opened.start := by
    rw [StreamMap.firstFile, List.getD_eq_getElem?_getD]
    exact congrArg (Option.getD · 0) hstart
  have hfirst' : r.archive.streamMap.blockFirstSubStreamIndex.getD b 0 = opened.firstSubStream := by
    rw [List.getD_eq_getElem?_getD]
    exact congrArg (Option.getD · 0) hfirst
  have harchive : opened.archive = r.archive := congrArg BlockDecoder.archive hsame
  have hindex : opened.blockIndex = b := congrArg BlockDecoder.blockIndex hsame
  have hfolds : opened.folding = true →
      opened.FoldsFrom (r.archive.blockRange b) (opened.initial log) := by
    intro hfolding
    refine ⟨hanswers opened hopen hfolding, rfl, ?_⟩
    change 0 + _ < _
    rw [Nat.zero_add, harchive]
    exact hroom ⟨opened, hopen, hfolding⟩
  change opened.walkEntries each (List.range' (r.archive.streamMap.firstFile b) _) _ = _ at hwalk
  rw [Archive.blockRange] at hfolds
  rw [hstart'] at hwalk hfolds
  obtain ⟨completions, hlog, hcompletes⟩ := opened.walkEntries_completes
    ((congrArg BlockDecoder.verifyChecksums hsame).trans hverify) hwalk
    (opened.atFile_initial log) hfolds happend hvisits
  refine ⟨completions, hlog, ?_⟩
  have hfilter : r.reportedFiles b = (List.range' opened.start
      (subStreamsOf r.archive.blocks b)).filter opened.reported := by
    rw [reportedFiles, Archive.blockRange, hstart']
    refine List.filter_congr fun i _ => ?_
    rw [OpenBlock.reported, harchive]
    refine congrArg (fun p => Option.any p r.archive.files[i]?) (funext fun file => ?_)
    refine decide_eq_decide.mpr (and_congr_right fun _ => or_congr_left ?_)
    constructor
    · rintro ⟨opened', hopen', hfolding⟩
      cases hopen.symm.trans hopen'
      exact hfolding
    · exact fun hfolding => ⟨opened, hopen, hfolding⟩
  rw [hfilter]
  refine hcompletes.imp fun i completion => ?_
  rintro ⟨file, crc, hfile, rfl, hcrc⟩
  rw [harchive] at hfile
  refine ⟨file, crc, hfile, ?_, hcrc⟩
  rw [hstart', hfirst', harchive, hindex]

theorem completeBlock_subStreams {b : Nat} {finished : Bool} {log log' : WalkLog}
    (h : r.completeBlock b finished log = .ok log') : log'.subStreams = log.subStreams := by
  unfold completeBlock at h
  split at h
  · obtain ⟨block, -, h⟩ := Result.bind_eq_ok.mp h
    obtain ⟨size, -, h⟩ := Result.bind_eq_ok.mp h
    cases Result.pure_eq_ok.mp h
    rfl
  · cases Result.pure_eq_ok.mp h
    rfl

noncomputable def reportedPairs (blocks : List Nat) : List (Nat × Nat) :=
  blocks.flatMap fun b => (r.reportedFiles b).map (Prod.mk b)

theorem walkBlocks_completes (hverify : r.verifyChecksums = true)
    (hanswers : ∀ b, r.FolderAnswers b)
    (hroom : ∀ b, (r.blockDecoder b).Folds →
      r.archive.streamedBytes (r.archive.blockRange b) < 2 ^ 64) {each : Callback}
    {blocks : List Nat} {log log' : WalkLog}
    (h : r.walkBlocks each blocks log = (.ok (), log'))
    (hvisits : ∀ visit ∈ log'.visits, visit.Drains ∧ Unbroken visit.blockReads) :
    ∃ completions, log'.subStreams = log.subStreams ++ completions ∧
      List.Forall₂ (fun pair => r.Completes pair.1 pair.2) (r.reportedPairs blocks)
        completions := by
  induction blocks generalizing log with
  | nil =>
      cases h
      exact ⟨[], (List.append_nil _).symm, .nil⟩
  | cons b blocks ih =>
      unfold walkBlocks at h
      split at h
      · cases h
      · rename_i finished log₁ hwalk
        split at h
        · cases h
        · rename_i log₂ hcomplete
          have hsame := r.completeBlock_visits hcomplete
          obtain ⟨visits, hrest, -⟩ := r.walkBlocks_addsVisits h
          obtain ⟨new, hnew, -⟩ := blockDecoder_addsVisits hwalk
          obtain ⟨completions, hlog, hcompletes⟩ := r.forEachEntries_completes hverify
            (hanswers b) (hroom b) hwalk hnew fun visit hvisit => hvisits visit (by
              rw [hrest, hsame, hnew]
              exact List.mem_append_left _ (List.mem_append_right _ hvisit))
          obtain ⟨rest, hlog', hrest'⟩ := ih h
          refine ⟨completions ++ rest, ?_, ?_⟩
          · rw [hlog', r.completeBlock_subStreams hcomplete, hlog, List.append_assoc]
          · have hpairs : List.Forall₂ (fun pair => r.Completes pair.1 pair.2)
                ((r.reportedFiles b).map (Prod.mk b)) completions :=
              List.forall₂_map_left_iff.mpr hcompletes
            exact List.rel_append hpairs hrest'

theorem walkEmptyFiles_subStreams {each : Callback} {files : List Nat} {log log' : WalkLog}
    (h : r.walkEmptyFiles each files log = (.ok (), log')) : log'.subStreams = log.subStreams := by
  induction files generalizing log with
  | nil =>
      cases h
      rfl
  | cons i files ih =>
      unfold walkEmptyFiles at h
      split at h
      · rename_i file hblock hfile
        have hvisit : (visitEmpty each none i file log).2.subStreams = log.subStreams := rfl
        split at h
        · rename_i log₁ hstep
          rw [hstep] at hvisit
          exact (ih h).trans hvisit
        · rename_i log₁ hstep
          rw [hstep] at hvisit
          cases h
          exact hvisit
        · cases h
      · exact ih h
      · cases h

def ReportsOwnFiles : Prop :=
  ∀ b < r.archive.blocks.length, ∀ i file, r.archive.files[i]? = some file →
    ((i ∈ r.archive.blockRange b ∧ r.Reports b file) ↔
      (r.archive.streamMap.fileBlockIndex[i]? = some (some b) ∧ file.HasBytes ∧
        file.hasCrc = true))

variable {r}

theorem mem_reportedFiles {b i : Nat} :
    i ∈ r.reportedFiles b ↔
      ∃ file, r.archive.files[i]? = some file ∧ i ∈ r.archive.blockRange b ∧ r.Reports b file := by
  rw [reportedFiles, List.mem_filter]
  cases hfile : r.archive.files[i]? with
  | none => simp
  | some file => simp

theorem mem_reportedPairs {blocks : List Nat} {pair : Nat × Nat} :
    pair ∈ r.reportedPairs blocks ↔ pair.1 ∈ blocks ∧ pair.2 ∈ r.reportedFiles pair.1 := by
  obtain ⟨b, i⟩ := pair
  simp [reportedPairs, List.mem_flatMap]

theorem mem_recordedSubStreams {archive : Archive} {completion : SubStreamCompletion} :
    completion ∈ archive.recordedSubStreams ↔
      ∃ b file, archive.files[completion.fileIndex]? = some file ∧
        archive.streamMap.fileBlockIndex[completion.fileIndex]? = some (some b) ∧
        file.HasBytes ∧ file.hasCrc = true ∧
        completion = archive.completionAt b (archive.streamMap.blockFirstSubStreamIndex.getD b 0)
          (archive.streamMap.firstFile b) completion.fileIndex file file.crc.toUInt32 := by
  rw [Archive.recordedSubStreams, List.mem_filterMap]
  constructor
  · rintro ⟨i, -, hsome⟩
    unfold Archive.recordedSubStream at hsome
    split at hsome
    · rename_i file b hfile hblock
      split at hsome
      · rename_i hbytes
        cases hsome
        exact ⟨b, file, hfile, hblock, hbytes.1, hbytes.2, rfl⟩
      · cases hsome
    · cases hsome
  · rintro ⟨b, file, hfile, hblock, hbytes, hcrc, heq⟩
    refine ⟨_, List.mem_range.mpr (List.getElem?_eq_some_iff.mp hfile).1, ?_⟩
    rw [Archive.recordedSubStream, hfile, hblock]
    exact (if_pos ⟨hbytes, hcrc⟩).trans (congrArg some heq.symm)

theorem recordedSubStreams_pairwise (archive : Archive) :
    archive.recordedSubStreams.Pairwise fun c c' => c.fileIndex < c'.fileIndex := by
  have hindex : ∀ {i c}, archive.recordedSubStream i = some c → c.fileIndex = i := by
    intro i c hsome
    unfold Archive.recordedSubStream at hsome
    split at hsome
    · split at hsome
      · cases hsome
        rfl
      · cases hsome
    · cases hsome
  refine List.Pairwise.filterMap _ (fun i j hlt c hc c' hc' => ?_) List.pairwise_lt_range
  rwa [hindex hc, hindex hc']

theorem reportedPairs_pairwise (horder : r.archive.InFileOrder) (hown : r.ReportsOwnFiles) :
    (r.reportedPairs (List.range r.archive.blocks.length)).Pairwise
      fun pair pair' => pair.2 < pair'.2 := by
  refine List.pairwise_flatMap.mpr ⟨fun b _ => ?_, ?_⟩
  · refine List.pairwise_map.mpr ?_
    exact (List.pairwise_lt_range' _).filter _
  · refine List.pairwise_lt_range.imp_of_mem fun {b b'} hb hb' hlt => ?_
    intro pair hpair pair' hpair'
    obtain ⟨i, hi, rfl⟩ := List.mem_map.mp hpair
    obtain ⟨i', hi', rfl⟩ := List.mem_map.mp hpair'
    obtain ⟨file, hfile, hreports⟩ := mem_reportedFiles.mp hi
    obtain ⟨file', hfile', hreports'⟩ := mem_reportedFiles.mp hi'
    have hblock := ((hown b (List.mem_range.mp hb) i file hfile).mp hreports).1
    have hblock' := ((hown b' (List.mem_range.mp hb') i' file' hfile').mp hreports').1
    by_contra hge
    rcases Nat.lt_or_eq_of_le (Nat.le_of_not_lt hge) with hback | rfl
    · obtain ⟨hi₀, hblock⟩ := List.getElem?_eq_some_iff.mp hblock
      obtain ⟨hi₁, hblock'⟩ := List.getElem?_eq_some_iff.mp hblock'
      have := List.pairwise_iff_getElem.mp horder i' i hi₁ hi₀ hback b' hblock' b hblock
      omega
    · cases hblock.symm.trans hblock'
      exact Nat.lt_irrefl b hlt

theorem exists_of_mem_forall₂ {α β : Type} {R : α → β → Prop} {xs : List α} {ys : List β}
    (h : List.Forall₂ R xs ys) :
    (∀ x ∈ xs, ∃ y ∈ ys, R x y) ∧ ∀ y ∈ ys, ∃ x ∈ xs, R x y := by
  induction h with
  | nil => simp
  | cons hxy _ ih =>
      simp only [List.forall_mem_cons, List.exists_mem_cons_iff]
      exact ⟨⟨Or.inl hxy, fun x hx => Or.inr (ih.1 x hx)⟩, Or.inl hxy,
        fun y hy => Or.inr (ih.2 y hy)⟩

theorem forEachEntries_reported (hverify : r.verifyChecksums = true)
    (hanswers : ∀ b, r.FolderAnswers b)
    (hroom : ∀ b, (r.blockDecoder b).Folds →
      r.archive.streamedBytes (r.archive.blockRange b) < 2 ^ 64) {each : Callback}
    {log : WalkLog} (hrun : r.forEachEntries each = (.ok (), log))
    (hvisits : ∀ visit ∈ log.visits, visit.Drains ∧ Unbroken visit.blockReads) :
    List.Forall₂ (fun pair => r.Completes pair.1 pair.2)
      (r.reportedPairs (List.range r.archive.blocks.length)) log.subStreams := by
  unfold forEachEntries at hrun
  split at hrun
  · cases hrun
  · rename_i log₁ hblocks
    obtain ⟨visits, hrest, -⟩ := r.walkEmptyFiles_addsVisits hrun
    obtain ⟨completions, hlog, hcompletes⟩ := r.walkBlocks_completes hverify hanswers hroom
      hblocks fun visit hvisit => hvisits visit (hrest ▸ List.mem_append_left _ hvisit)
    rw [r.walkEmptyFiles_subStreams hrun, hlog]
    exact hcompletes

theorem Completes.recorded {b i : Nat} {completion : SubStreamCompletion} {file : ArchiveEntry}
    (h : r.Completes b i completion) (hfile : r.archive.files[i]? = some file)
    (hcrc : file.hasCrc = true) :
    completion = r.archive.completionAt b (r.archive.streamMap.blockFirstSubStreamIndex.getD b 0)
      (r.archive.streamMap.firstFile b) i file file.crc.toUInt32 := by
  obtain ⟨file', crc, hfile', rfl, hmatch⟩ := h
  cases hfile.symm.trans hfile'
  rw [← hmatch hcrc, UInt32.toUInt32_toUInt64]

section

variable {completions : List SubStreamCompletion}
  (hreported : List.Forall₂ (fun pair => r.Completes pair.1 pair.2)
    (r.reportedPairs (List.range r.archive.blocks.length)) completions)

include hreported

theorem reportsOwnFiles_of_recorded (heq : completions = r.archive.recordedSubStreams) :
    r.ReportsOwnFiles := by
  obtain ⟨hleft, hright⟩ := exists_of_mem_forall₂ hreported
  intro b hb i file hfile
  constructor
  · rintro ⟨hrange, hreports⟩
    obtain ⟨completion, hmem, file', crc, hfile', rfl, -⟩ := hleft (b, i)
      (mem_reportedPairs.mpr ⟨List.mem_range.mpr hb,
        mem_reportedFiles.mpr ⟨file, hfile, hrange, hreports⟩⟩)
    rw [heq] at hmem
    obtain ⟨b', file'', hfile'', hblock, hbytes, hcrc, hsame⟩ := mem_recordedSubStreams.mp hmem
    cases hfile.symm.trans hfile''
    obtain rfl : b = b' := congrArg SubStreamCompletion.blockIndex hsame
    exact ⟨hblock, hbytes, hcrc⟩
  · rintro ⟨hblock, hbytes, hcrc⟩
    have hmem : r.archive.completionAt b _ _ i file _ ∈ r.archive.recordedSubStreams :=
      mem_recordedSubStreams.mpr ⟨b, file, hfile, hblock, hbytes, hcrc, rfl⟩
    rw [← heq] at hmem
    obtain ⟨⟨b', i'⟩, hpair, file', crc, hfile', hsame, -⟩ := hright _ hmem
    obtain rfl : b = b' := congrArg SubStreamCompletion.blockIndex hsame
    obtain rfl : i = i' := congrArg SubStreamCompletion.fileIndex hsame
    obtain ⟨file'', hfile'', hin⟩ := mem_reportedFiles.mp (mem_reportedPairs.mp hpair).2
    cases hfile.symm.trans hfile''
    exact hin

theorem reported_pairwise (horder : r.archive.InFileOrder) (hown : r.ReportsOwnFiles) :
    completions.Pairwise fun c c' => c.fileIndex < c'.fileIndex := by
  have hindices : (r.reportedPairs (List.range r.archive.blocks.length)).map Prod.snd =
      completions.map SubStreamCompletion.fileIndex := by
    rw [← List.forall₂_eq_eq_eq, List.forall₂_map_left_iff, List.forall₂_map_right_iff]
    refine hreported.imp fun pair completion => ?_
    rintro ⟨file, crc, -, rfl, -⟩
    rfl
  have hsorted := reportedPairs_pairwise horder hown
  rwa [← List.pairwise_map (f := Prod.snd) (R := (· < ·)), hindices, List.pairwise_map] at hsorted

theorem mem_reported_iff (hmapped : r.archive.Mapped) (hown : r.ReportsOwnFiles)
    {completion : SubStreamCompletion} :
    completion ∈ completions ↔ completion ∈ r.archive.recordedSubStreams := by
  obtain ⟨hleft, hright⟩ := exists_of_mem_forall₂ hreported
  rw [mem_recordedSubStreams]
  constructor
  · intro hmem
    obtain ⟨⟨b, i⟩, hpair, hcompletes⟩ := hright completion hmem
    obtain ⟨hb, hfiles⟩ := mem_reportedPairs.mp hpair
    obtain ⟨file, hfile, hin⟩ := mem_reportedFiles.mp hfiles
    obtain ⟨hblock, hbytes, hcrc⟩ := (hown b (List.mem_range.mp hb) i file hfile).mp hin
    rw [hcompletes.recorded hfile hcrc]
    exact ⟨b, file, hfile, hblock, hbytes, hcrc, rfl⟩
  · rintro ⟨b, file, hfile, hblock, hbytes, hcrc, heq⟩
    have hcount : 0 < r.archive.streamMap.fileCount b :=
      List.count_pos_iff.mpr (List.mem_of_getElem? hblock)
    have hb := (hmapped.begun b hcount).1
    obtain ⟨hrange, hreports⟩ := (hown b hb _ file hfile).mpr ⟨hblock, hbytes, hcrc⟩
    obtain ⟨completion', hmem, hcompletes⟩ := hleft (b, completion.fileIndex)
      (mem_reportedPairs.mpr ⟨List.mem_range.mpr hb,
        mem_reportedFiles.mpr ⟨file, hfile, hrange, hreports⟩⟩)
    rw [heq, ← hcompletes.recorded hfile hcrc]
    exact hmem

end

end ArchiveReader

/-- In a walk with the checks on that drained every entry, of which none was cut short, the calls
of the sub-stream hook are one for each non-empty file with a recorded checksum, in file order,
exactly where each block reports its own files with a checksum and no others. -/
theorem forEachEntries_subStreams_iff {codecs : Codecs} {limits : ArchiveLimits}
    {passwordGiven : Bool} {bytes : List UInt8} {archive : Archive}
    (haccepted : readWithLimits codecs limits passwordGiven bytes = .ok archive)
    {r : ArchiveReader} (hr : r.archive = archive) (hverify : r.verifyChecksums = true)
    (hanswers : ∀ b, r.FolderAnswers b)
    (hroom : ∀ b, (r.blockDecoder b).Folds →
      r.archive.streamedBytes (r.archive.blockRange b) < 2 ^ 64)
    {each : Callback} {log : WalkLog} (hrun : r.forEachEntries each = (.ok (), log))
    (hdrains : ∀ visit ∈ log.visits, visit.Drains)
    (hwhole : ∀ visit ∈ log.visits, Unbroken visit.blockReads) :
    log.subStreams = r.archive.recordedSubStreams ↔ r.ReportsOwnFiles := by
  subst hr
  have hmapped := (readWithLimits_described haccepted).mapped
  have hreported := ArchiveReader.forEachEntries_reported hverify hanswers hroom hrun
    fun visit hvisit => ⟨hdrains visit hvisit, hwhole visit hvisit⟩
  constructor
  · exact ArchiveReader.reportsOwnFiles_of_recorded hreported
  · intro hown
    -- both lists are in file order, so they are equal where their members are
    let before : SubStreamCompletion → SubStreamCompletion → Prop :=
      fun c c' => c.fileIndex < c'.fileIndex
    have : Std.Antisymm before := ⟨fun _ _ h h' => absurd h' (Nat.lt_asymm h)⟩
    have : Std.Irrefl before := ⟨fun _ => Nat.lt_irrefl _⟩
    refine List.Pairwise.eq_of_mem_iff (r := before) ?_
      (ArchiveReader.recordedSubStreams_pairwise _) fun completion => ?_
    · exact ArchiveReader.reported_pairwise hreported (readWithLimits_inFileOrder haccepted) hown
    · exact ArchiveReader.mem_reported_iff hreported hmapped hown

def idLzma2 : List UInt8 := [0x21]

def storedChunks : Nat → List UInt8 → List UInt8
  | n + 1, control :: high :: low :: rest =>
      if control = 1 ∨ control = 2 then
        let size := high.toNat * 256 + low.toNat + 1
        rest.take size ++ storedChunks n (rest.drop size)
      else []
  | _, _ => []

/-- The pieces of such a stream end at the split points and with the stream. -/
def storingCuts (file : List UInt8) (decoder : Decoder) (splits : List UInt64) : List Nat :=
  splits.map UInt64.toNat ++ [(storedChunks file.length (Codecs.copied file decoder)).length]

/-- The codecs as they are for blocks that one LZMA2 coder stores, on one thread or several. -/
def Codecs.storing (parallel : Bool) (file : List UInt8) : Codecs :=
  { Codecs.copying file with
    refuses := fun _ stage =>
      if stage.coder.encoderMethodId = idLzma2 then none
      else some (.unsupportedCompressionMethod s!"{stage.coder.encoderMethodId}")
    decode := fun decoder => Stream.ofContent (storedChunks file.length (copied file decoder))
    engaged := fun _ => parallel
    cuts := storingCuts file
    folded := fun decoder splits reads offset len =>
      if (offset = 0 ∨ offset ∈ storingCuts file decoder splits) ∧
          offset + len ∈ storingCuts file decoder splits ∧
          offset + len ≤ (delivered reads).length then
        some (Lib.crc32 (((delivered reads).drop offset).take len))
      else none }

theorem storing_foldsPieces (parallel : Bool) (file : List UInt8) :
    (Codecs.storing parallel file).FoldsPieces where
  cut _ _ splits split hsplit :=
    List.mem_append_left _ (List.mem_map_of_mem hsplit)
  right _ _ splits reads offset len crc _ hfolded := by
    change (if _ then _ else none) = some crc at hfolded
    split at hfolded
    · exact (Option.some.inj hfolded).symm
    · cases hfolded
  covered _ _ splits _ reads offset len _ hread hstart hend := by
    change (if _ then _ else none).isSome = true
    rw [if_pos ⟨hstart, hend, hread⟩]
    rfl

/-- A stored block of three bytes for two files, of which only the first has a checksum. -/
def partlyCheckedFile : List UInt8 :=
  archiveFile crc32 [1, 0, 2, 0x41, 0x42, 0x43, 0]
    ([kHeader, kMainStreamsInfo,
      kPackInfo, 0, 1, kSize, 7, kEnd,
      kUnpackInfo, kFolder, 1, 0, 1, 0x21, 0x21, 1, 0, kCodersUnpackSize, 3, kEnd,
      kSubStreamsInfo, kNumUnpackStream, 2, kSize, 2, kCrc, 0, 0x80] ++
      writeU32 (crc32 [0x41, 0x42]) ++ [kEnd, kEnd, kFilesInfo, 2, kEnd, kEnd])

def storingReader (parallel : Bool) (file : List UInt8) (archive : Archive) : ArchiveReader :=
  { copyingReader file archive with codecs := .storing parallel file }

/-- On several threads the hook is also called for the file without a checksum. -/
theorem partlyCheckedFile_overreported : ∃ archive log,
    readWithLimits (.storing true partlyCheckedFile) {} false partlyCheckedFile = .ok archive ∧
      (storingReader true partlyCheckedFile archive).forEachEntries readAllEntries =
        (.ok (), log) ∧
      (∀ visit ∈ log.visits, visit.Drains ∧ Unbroken visit.blockReads) ∧
      log.subStreams ≠ archive.recordedSubStreams := by
  obtain ⟨archive, hread, hcheck⟩ := Result.exists_of_holds
    (show (readWithLimits (.storing true partlyCheckedFile) {} false partlyCheckedFile).holds
      (fun archive =>
        let run := (storingReader true partlyCheckedFile archive).forEachEntries readAllEntries
        run.1.holds (fun _ => true) &&
          decide ((∀ visit ∈ run.2.visits, visit.Drains ∧ Unbroken visit.blockReads) ∧
            run.2.subStreams ≠ archive.recordedSubStreams)) = true by decide +kernel)
  obtain ⟨hrun, hrest⟩ := Bool.and_eq_true_iff.mp hcheck
  obtain ⟨_, hok, -⟩ := Result.exists_of_holds hrun
  exact ⟨archive, _, hread, Prod.ext hok rfl, of_decide_eq_true hrest⟩

def checkedPair : List UInt8 :=
  archiveFile crc32 [1, 0, 2, 0x41, 0x42, 0x43, 0]
    ([kHeader, kMainStreamsInfo,
      kPackInfo, 0, 1, kSize, 7, kEnd,
      kUnpackInfo, kFolder, 1, 0, 1, 0x21, 0x21, 1, 0, kCodersUnpackSize, 3, kEnd,
      kSubStreamsInfo, kNumUnpackStream, 2, kSize, 2, kCrc, 1] ++
      writeU32 (crc32 [0x41, 0x42]) ++ writeU32 (crc32 [0x43]) ++
      [kEnd, kEnd, kFilesInfo, 2, kEnd, kEnd])

/-- Two workers' pieces are the two files, and the hook is called as the archive records it. -/
theorem checkedPair_subStreams_iff : ∃ archive log,
    readWithLimits (.storing true checkedPair) {} false checkedPair = .ok archive ∧
      (storingReader true checkedPair archive).forEachEntries readAllEntries = (.ok (), log) ∧
      ((storingReader true checkedPair archive).blockDecoder 0).Folds ∧
      log.subStreams.length = 2 ∧
      (log.subStreams = archive.recordedSubStreams ↔
        (storingReader true checkedPair archive).ReportsOwnFiles) := by
  obtain ⟨archive, hread, hcheck⟩ := Result.exists_of_holds
    (show (readWithLimits (.storing true checkedPair) {} false checkedPair).holds
      (fun archive =>
        let r := storingReader true checkedPair archive
        let run := r.forEachEntries readAllEntries
        run.1.holds (fun _ => true) &&
          (r.blockDecoder 0).openBlock.holds (fun opened => decide (opened.folding = true ∧
            3 ∈ storingCuts checkedPair opened.stack.decoder opened.splits)) &&
          decide ((∀ visit ∈ run.2.visits, visit.Drains ∧ Unbroken visit.blockReads) ∧
            run.2.subStreams.length = 2 ∧ archive.blocks.length = 1 ∧
            archive.streamedBytes (archive.blockRange 0) = 3)) = true by decide +kernel)
  obtain ⟨hchecked, hrest⟩ := Bool.and_eq_true_iff.mp hcheck
  obtain ⟨hrun, hblock⟩ := Bool.and_eq_true_iff.mp hchecked
  obtain ⟨_, hok, -⟩ := Result.exists_of_holds hrun
  obtain ⟨opened, hopen, hopened⟩ := Result.exists_of_holds hblock
  obtain ⟨hfolding, hcut⟩ := of_decide_eq_true hopened
  obtain ⟨hvisits, hcount, hblocks, hbytes⟩ := of_decide_eq_true hrest
  let r := storingReader true checkedPair archive
  have hfirst : ∀ b opened, (r.blockDecoder b).openBlock = .ok opened → b = 0 := by
    intro b opened hopen
    have hlt := (List.getElem?_eq_some_iff.mp (openBlock_eq_ok hopen).2.1).1
    change b < archive.blocks.length at hlt
    omega
  have hfit : ∀ b, (r.blockDecoder b).PiecesFit := by
    intro b opened' hopen' _
    obtain rfl := hfirst b opened' hopen'
    cases hopen.symm.trans hopen'
    change archive.streamedBytes (archive.blockRange 0) < 2 ^ 64 ∧
      (_ ∨ archive.streamedBytes (archive.blockRange 0) ∈ storingCuts checkedPair _ _)
    rw [hbytes]
    exact ⟨by decide, Or.inr hcut⟩
  refine ⟨archive, _, hread, Prod.ext hok rfl, ⟨opened, hopen, hfolding⟩, hcount, ?_⟩
  refine forEachEntries_subStreams_iff hread (r := r) rfl rfl
    (fun b => r.folderAnswers_of_piecesFit (storing_foldsPieces true checkedPair) (hfit b))
    (fun b hfolds => ?_) (Prod.ext hok rfl) (fun visit hvisit => (hvisits visit hvisit).1)
    fun visit hvisit => (hvisits visit hvisit).2
  obtain ⟨opened', hopen', hfolding'⟩ := hfolds
  exact (hfit b opened' hopen' hfolding').1

end Sevenz
