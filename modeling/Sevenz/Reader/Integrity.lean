import Sevenz.Reader.EntryReader
import Sevenz.Reader.Pieces

/-!
# Which data a walk lets through

With the checks on, an entry with a checksum is delivered as the archive describes it where
the stream of its block does not end early.  Where it does, what came before is taken for the
whole entry.
-/

namespace Sevenz

open Lib

theorem DecodeStack.read_honest (stack : DecodeStack) (codecs : Codecs) :
    Honest (stack.read codecs) :=
  maybeCrcRead_honest (Stream.honest _)

namespace OpenBlock

variable (d : OpenBlock)

def entryVisit (each : Callback) (fileIndex : Nat) (file : ArchiveEntry) (st : BlockState) :
    Visit :=
  if file.hasStream ∧ file.size > 0 then d.streamVisit each fileIndex file st
  else emptyVisit each (some d.blockIndex) fileIndex file st.log

theorem visitStream_visits (each : Callback) (fileIndex : Nat) (file : ArchiveEntry)
    (st : BlockState) :
    (d.visitStream each fileIndex file st).2.log.visits =
      st.log.visits ++ [d.streamVisit each fileIndex file st] := by
  unfold visitStream
  dsimp only
  split
  · rfl
  · rfl
  · rw [finishEntry_visits]
    rfl

theorem visitEntry_visits (each : Callback) (fileIndex : Nat) (file : ArchiveEntry)
    (st : BlockState) :
    (d.visitEntry each fileIndex file st).2.log.visits =
      st.log.visits ++ [d.entryVisit each fileIndex file st] := by
  unfold visitEntry entryVisit
  split
  · exact d.visitStream_visits each fileIndex file st
  · rfl

theorem entryVisit_fileIndex (each : Callback) (fileIndex : Nat) (file : ArchiveEntry)
    (st : BlockState) : (d.entryVisit each fileIndex file st).fileIndex = fileIndex := by
  unfold entryVisit
  split <;> rfl

theorem entryVisit_blockIndex (each : Callback) (fileIndex : Nat) (file : ArchiveEntry)
    (st : BlockState) :
    (d.entryVisit each fileIndex file st).blockIndex = some d.blockIndex := by
  unfold entryVisit
  split <;> rfl

theorem entryVisit_run (each : Callback) (fileIndex : Nat) (file : ArchiveEntry)
    (st : BlockState) :
    ∃ (τ : Type) (read : ReadFn IoError τ) (s s' : τ),
      (each st.log.visits fileIndex file).run read s =
        ((d.entryVisit each fileIndex file st).answer,
          (d.entryVisit each fileIndex file st).records, s') := by
  unfold entryVisit
  split
  · exact ⟨_, d.entryRead, (d.entryCheck file, file.size.toNat, st.chain), _, rfl⟩
  · exact ⟨_, emptyRead, (), _, rfl⟩

theorem walkEntries_appends {each : Callback} {files : List Nat} {st st' : BlockState} {g : Bool}
    (h : d.walkEntries each files st = (.ok g, st')) :
    ∃ visits, st'.log.visits = st.log.visits ++ visits ∧
      ∀ visit ∈ visits, ∃ i ∈ files, ∃ file st₁ g₁, d.archive.files[i]? = some file ∧
        visit = d.entryVisit each i file st₁ ∧ (d.visitEntry each i file st₁).1 = .ok g₁ := by
  induction files generalizing st with
  | nil =>
      cases h
      exact ⟨[], (List.append_nil _).symm, by simp⟩
  | cons i files ih =>
      obtain ⟨file, g₁, st₁, hfile, hstep, hrest⟩ := d.walkEntries_cons h
      have hadded := d.visitEntry_visits each i file st
      rw [hstep] at hadded
      have hfirst : ∃ j ∈ i :: files, ∃ file' st₂ g₂, d.archive.files[j]? = some file' ∧
          d.entryVisit each i file st = d.entryVisit each j file' st₂ ∧
            (d.visitEntry each j file' st₂).1 = .ok g₂ :=
        ⟨i, List.mem_cons_self, file, st, g₁, hfile, rfl, by rw [hstep]⟩
      rcases hrest with ⟨rfl, h⟩ | ⟨rfl, rfl, rfl⟩
      · obtain ⟨visits, happend, hvisits⟩ := ih h
        refine ⟨d.entryVisit each i file st :: visits, by rw [happend, hadded]; simp, ?_⟩
        refine List.forall_mem_cons.mpr ⟨hfirst, fun visit hvisit => ?_⟩
        exact (hvisits visit hvisit).imp fun _ hj => hj.imp_left (List.mem_cons_of_mem _)
      · exact ⟨[_], hadded, List.forall_mem_singleton.mpr hfirst⟩

theorem walkEntries_mem {each : Callback} {files : List Nat} {st st' : BlockState} {g : Bool}
    (h : d.walkEntries each files st = (.ok g, st')) :
    ∀ visit ∈ st'.log.visits, visit ∈ st.log.visits ∨
      ∃ i file st₁ g₁, d.archive.files[i]? = some file ∧
        visit = d.entryVisit each i file st₁ ∧ (d.visitEntry each i file st₁).1 = .ok g₁ := by
  obtain ⟨visits, happend, hvisits⟩ := d.walkEntries_appends h
  intro visit hvisit
  rw [happend] at hvisit
  refine (List.mem_append.mp hvisit).imp_right fun hnew => ?_
  obtain ⟨i, -, hstep⟩ := hvisits visit hnew
  exact ⟨i, hstep⟩

theorem visitEntry_answer {each : Callback} {i : Nat} {file : ArchiveEntry} {st : BlockState}
    {g : Bool} (h : (d.visitEntry each i file st).1 = .ok g) :
    (d.entryVisit each i file st).answer = some (.ok g) := by
  obtain ⟨visit, hvisits, -, hanswer⟩ := d.visitEntry_addsVisit each i file st
  rw [d.visitEntry_visits] at hvisits
  obtain ⟨-, hvisit⟩ := List.append_inj' hvisits rfl
  cases hvisit
  exact hanswer g h

theorem delivered_emptyRead {s s' : Unit} {records : List (ReadRecord IoError)}
    (h : Trace emptyRead s records s') : delivered records = [] := by
  induction h with
  | nil => rfl
  | cons hread _ ih =>
      cases hread
      exact ih

theorem callStream_trace {each : Callback} {i : Nat} {file : ArchiveEntry} {st : BlockState}
    {answer : Option (Except Error Bool)} {records : List (ReadRecord IoError)}
    {check : Option CrcState} {remain : Nat} {chain : FaultState (Option CrcState × List Nat)}
    (h : d.callStream each i file st = (answer, records, check, remain, chain)) :
    Trace d.entryRead (d.entryCheck file, file.size.toNat, st.chain) records
        (check, remain, chain) ∧
      d.streamVisit each i file st =
        { blockIndex := some d.blockIndex, fileIndex := i, records
          blockReads := chain.reads.drop st.chain.reads.length, answer } := by
  refine ⟨Script.run_trace h, ?_⟩
  rw [streamVisit, h]

theorem emptyVisit_verified_iff {each : Callback} {blockIndex : Option Nat} {i : Nat}
    {file : ArchiveEntry} {log : WalkLog} {crc32 : List UInt8 → UInt32} (hsize : file.size = 0) :
    file.Verified crc32 (delivered (emptyVisit each blockIndex i file log).records) ↔
      file.Whole crc32 (emptyVisit each blockIndex i file log).blockReads := by
  have hnone : delivered (emptyVisit each blockIndex i file log).records = [] :=
    delivered_emptyRead (Script.run_trace (rfl : (each log.visits i file).run emptyRead () = _))
  rw [ArchiveEntry.Verified, hnone, hsize]
  constructor
  · rintro ⟨-, hcrc⟩
    exact ⟨fun _ => hcrc, by rw [hsize]; decide, fun _ h => absurd h List.not_mem_nil⟩
  · exact fun hwhole => ⟨rfl, hwhole.empty hsize⟩

theorem entryVisit_verified_iff (hverify : d.verifyChecksums = true) (hfolding : d.folding = false)
    {each : Callback} {i : Nat} {file : ArchiveEntry} (hcrc : file.hasCrc = true)
    (hstream : file.hasStream = true) {st : BlockState}
    (hend : ReadToEnd (d.entryVisit each i file st).records)
    (hunrefused : Unrefused (d.entryVisit each i file st).records) :
    file.Verified d.codecs.crc32 (delivered (d.entryVisit each i file st).records) ↔
      file.Whole d.codecs.crc32 (d.entryVisit each i file st).blockReads := by
  by_cases hbytes : file.hasStream ∧ file.size > 0
  · rw [entryVisit, if_pos hbytes] at hend hunrefused ⊢
    rcases hcall : d.callStream each i file st with ⟨answer, records, check, remain, chain⟩
    obtain ⟨htrace, hvisit⟩ := d.callStream_trace hcall
    have hcheck : d.entryCheck file = some (CrcState.new file.size file.crc) := by
      rw [entryCheck, hcrc, hverify, hfolding]
      rfl
    rw [hvisit] at hend hunrefused ⊢
    rw [hcheck] at htrace
    obtain ⟨reads, happend, hiff⟩ :=
      verifying_trace (d.stack.read_honest d.codecs) htrace hend hunrefused
    dsimp only
    rwa [happend, List.drop_left]
  · rw [entryVisit, if_neg hbytes]
    have hsize : ¬ file.size > 0 := fun hpos => hbytes ⟨hstream, hpos⟩
    exact emptyVisit_verified_iff (UInt64.le_zero_iff.mp (UInt64.not_lt.mp hsize))

def Counted (st : BlockState) : Prop :=
  (delivered st.chain.reads).length = st.unpackedOffset.toNat

theorem finishEntry_eq_ok {i : Nat} {file : ArchiveEntry} {report : Option UInt32}
    {goOn g : Bool} {st st' : BlockState}
    (h : d.finishEntry i file report goOn st = (.ok g, st')) :
    st'.chain = st.chain ∧ st'.unpackedOffset = st.unpackedOffset + file.size ∧
      ∀ crc, d.foldedEntry file st = some crc → file.hasCrc = true → crc.toUInt64 = file.crc := by
  unfold finishEntry at h
  split at h
  · cases h
  · rename_i hmatch
    cases h
    refine ⟨rfl, rfl, fun crc hfolded hcrc => ?_⟩
    rw [hfolded, Option.any_some, hcrc, Bool.true_and] at hmatch
    simpa using hmatch

theorem visitStream_eq_ok {each : Callback} {i : Nat} {file : ArchiveEntry} {st st' : BlockState}
    {g : Bool} (h : d.visitStream each i file st = (.ok g, st')) :
    ∃ report, report = (d.callStream each i file st).2.2.1.bind CrcState.report ∧
      d.finishEntry i file report g (d.afterCall each i file st) = (.ok g, st') := by
  unfold visitStream at h
  dsimp only at h
  split at h
  · cases h
  · cases h
  · rename_i goOn _
    have hgoOn : g = goOn := d.finishEntry_answer (congrArg Prod.fst h)
    rw [← hgoOn] at h
    exact ⟨_, rfl, h⟩

/-- A step over an entry that is read whole keeps the count, and lets the entry through only
with its checksum. -/
theorem visitEntry_folded (hfolding : d.folding = true) {each : Callback} {i : Nat}
    {file : ArchiveEntry} {st st' : BlockState} {g : Bool}
    (hanswers : file.HasBytes → d.Answers st.unpackedOffset.toNat file.size.toNat)
    (h : d.visitEntry each i file st = (.ok g, st')) (hcounted : Counted st)
    (hroom : st.unpackedOffset.toNat + file.taken < 2 ^ 64)
    (hend : ReadToEnd (d.entryVisit each i file st).records)
    (hunbroken : Unbroken (d.entryVisit each i file st).blockReads) :
    Counted st' ∧ st'.unpackedOffset.toNat = st.unpackedOffset.toNat + file.taken ∧
      (file.hasStream = true → file.hasCrc = true →
        (file.size = 0 → (d.codecs.crc32 []).toUInt64 = file.crc) →
        file.Verified d.codecs.crc32 (delivered (d.entryVisit each i file st).records)) := by
  by_cases hbytes : file.HasBytes
  · rw [entryVisit, if_pos hbytes] at hend hunbroken ⊢
    rw [ArchiveEntry.taken, if_pos hbytes] at hroom ⊢
    rw [visitEntry, if_pos hbytes] at h
    rcases hcall : d.callStream each i file st with ⟨answer, records, check, remain, chain⟩
    obtain ⟨htrace, hvisit⟩ := d.callStream_trace hcall
    have hcheck : d.entryCheck file = none := by
      rw [entryCheck, hfolding, Bool.not_true, Bool.and_false]
      rfl
    rw [hvisit] at hend hunbroken ⊢
    rw [hcheck] at htrace
    obtain ⟨reads, happend, hdelivered, hcount, hiff⟩ := boundedRead_trace
      (d.stack.read_honest d.codecs) (trace_maybeCrcRead_none htrace).2 hend
    rw [happend, List.drop_left] at hunbroken
    have hlen : (delivered records).length = file.size.toNat := by
      have := hiff.mpr hunbroken
      omega
    obtain ⟨report, -, hfinish⟩ := d.visitStream_eq_ok h
    obtain ⟨hchain, hoffset, hmatch⟩ := d.finishEntry_eq_ok hfinish
    have hafter : (d.afterCall each i file st).chain = chain := by
      rw [afterCall, hcall]
    have hall : delivered chain.reads = delivered st.chain.reads ++ delivered records := by
      rw [happend, delivered_append, hdelivered]
    have hoffset' : st'.unpackedOffset.toNat = st.unpackedOffset.toNat + file.size.toNat := by
      rw [hoffset, UInt64.toNat_add]
      exact Nat.mod_eq_of_lt hroom
    refine ⟨?_, hoffset', fun _ hcrc _ => ⟨hlen, ?_⟩⟩
    · rw [Counted, hchain, hafter, hall, List.length_append, hcounted, hlen, hoffset']
    · refine hmatch _ ?_ hcrc
      rw [foldedEntry, if_pos hfolding, hafter]
      change d.folded chain.reads st.unpackedOffset.toNat file.size.toNat = _
      rw [hanswers hbytes _ (by rw [hall, List.length_append, hcounted, hlen]), hall, ← hcounted,
        List.drop_left, ← hlen, List.take_length]
  · rw [entryVisit, if_neg hbytes]
    rw [ArchiveEntry.taken, if_neg hbytes]
    rw [visitEntry, if_neg hbytes] at h
    obtain ⟨-, rfl⟩ := Prod.mk.inj h
    refine ⟨hcounted, rfl, fun hstream hcrc hempty => ?_⟩
    have hsize : file.size = 0 :=
      UInt64.le_zero_iff.mp (UInt64.not_lt.mp fun hpos => hbytes ⟨hstream, hpos⟩)
    refine (emptyVisit_verified_iff hsize).mpr ⟨hempty, by rw [hsize]; decide, ?_⟩
    exact fun _ hmem => absurd hmem List.not_mem_nil

/-- A whole walk over entries that are read whole lets each of them through only with its
checksum. -/
theorem walkEntries_folded (hfolding : d.folding = true) {each : Callback} {files : List Nat}
    {st st' : BlockState} {g : Bool} (hanswers : d.AnswersFrom st.unpackedOffset.toNat files)
    (h : d.walkEntries each files st = (.ok g, st')) (hcounted : Counted st)
    (hroom : st.unpackedOffset.toNat + d.archive.streamedBytes files < 2 ^ 64)
    (hvisits : ∀ visit ∈ st'.log.visits, visit.blockIndex = some d.blockIndex →
      ReadToEnd visit.records ∧ Unbroken visit.blockReads) :
    ∀ visit ∈ st'.log.visits, visit ∈ st.log.visits ∨
      ∀ file, d.archive.files[visit.fileIndex]? = some file → file.hasStream = true →
        file.hasCrc = true → (file.size = 0 → (d.codecs.crc32 []).toUInt64 = file.crc) →
          file.Verified d.codecs.crc32 (delivered visit.records) := by
  induction files generalizing st with
  | nil =>
      cases h
      exact fun visit hvisit => Or.inl hvisit
  | cons i files ih =>
      obtain ⟨file, g₁, st₁, hfile, hentry, hrest⟩ := d.walkEntries_cons h
      rw [streamedBytes_cons hfile] at hroom
      obtain ⟨hanswer, hanswers⟩ := hanswers file hfile
      have hadded := d.visitEntry_visits each i file st
      rw [hentry] at hadded
      -- whichever way the step leads on, its visit is among the last ones
      have hstep : st₁.log.visits ⊆ st'.log.visits → Counted st₁ ∧
            d.AnswersFrom st₁.unpackedOffset.toNat files ∧
            st₁.unpackedOffset.toNat + d.archive.streamedBytes files < 2 ^ 64 ∧
            ∀ visit ∈ st₁.log.visits, visit ∈ st.log.visits ∨
              ∀ file, d.archive.files[visit.fileIndex]? = some file → file.hasStream = true →
                file.hasCrc = true → (file.size = 0 → (d.codecs.crc32 []).toUInt64 = file.crc) →
                  file.Verified d.codecs.crc32 (delivered visit.records) := by
        intro hsubset
        have hmem := hsubset (hadded ▸ List.mem_append_right _ (List.mem_singleton.mpr rfl))
        obtain ⟨hend, hunbroken⟩ := hvisits _ hmem (d.entryVisit_blockIndex each i file st)
        obtain ⟨hcounted₁, hoffset, hverified⟩ := d.visitEntry_folded hfolding hanswer
          hentry hcounted (by omega) hend hunbroken
        refine ⟨hcounted₁, hoffset ▸ hanswers, by omega, fun visit hvisit => ?_⟩
        rw [hadded] at hvisit
        refine (List.mem_append.mp hvisit).imp_right fun hvisit file' hfile' => ?_
        obtain rfl := List.mem_singleton.mp hvisit
        rw [d.entryVisit_fileIndex, hfile] at hfile'
        cases hfile'
        exact hverified
      rcases hrest with ⟨rfl, h⟩ | ⟨rfl, rfl, rfl⟩
      · obtain ⟨visits, happend, -⟩ := d.walkEntries_addsVisits h
        obtain ⟨hcounted₁, hanswers₁, hroom₁, hverified⟩ :=
          hstep (happend ▸ List.subset_append_left _ _)
        intro visit hvisit
        rcases ih hanswers₁ h hcounted₁ hroom₁ visit hvisit with hbefore | hnew
        · exact hverified visit hbefore
        · exact Or.inr hnew
      · exact (hstep (List.Subset.refl _)).2.2.2

end OpenBlock

theorem walk_eq_ok {d : OpenBlock} {each : Callback} {log log' : WalkLog} {g : Bool}
    (h : d.walk each log = (.ok g, log')) :
    ∃ st' g₁, d.walkEntries each (List.range' d.start d.block.numUnpackSubStreams)
      (d.initial log) = (.ok g₁, st') ∧ st'.log = log' := by
  unfold OpenBlock.walk at h
  split at h
  · rename_i st hwalk
    exact ⟨st, true, hwalk, (Prod.mk.inj h).2⟩
  · rename_i answer st hne hwalk
    cases h
    exact ⟨st, g, hwalk, rfl⟩

theorem forEachEntries_eq_ok {d : BlockDecoder} {each : Callback} {log log' : WalkLog} {g : Bool}
    (h : d.forEachEntries each log = (.ok g, log')) :
    ∃ opened st' g₁, d.openBlock = .ok opened ∧ opened.toBlockDecoder = d ∧
      opened.walkEntries each (d.archive.blockRange d.blockIndex) (opened.initial log) =
        (.ok g₁, st') ∧ st'.log = log' := by
  unfold BlockDecoder.forEachEntries at h
  split at h
  · cases h
  · rename_i opened hopen
    obtain ⟨hsame, hblock, hstart, -, -⟩ := openBlock_eq_ok hopen
    obtain ⟨st', g₁, hwalk, hlog⟩ := walk_eq_ok h
    refine ⟨opened, st', g₁, hopen, hsame, ?_, hlog⟩
    rwa [Archive.blockRange, subStreamsOf_eq hblock, StreamMap.firstFile,
      List.getD_eq_getElem?_getD, hstart]

/-- Where the workers do not compute the checksums, each entry of a block is delivered right
exactly where what it was read from was whole. -/
theorem forEachEntries_verified_iff {d : BlockDecoder} (hverify : d.verifyChecksums = true)
    (hfolds : ¬ d.Folds) {each : Callback} {log log' : WalkLog} {g : Bool}
    (h : d.forEachEntries each log = (.ok g, log')) :
    ∀ visit ∈ log'.visits, visit ∈ log.visits ∨
      ∀ file, d.archive.files[visit.fileIndex]? = some file → file.hasStream = true →
        file.hasCrc = true → ReadToEnd visit.records → Unrefused visit.records →
          (file.Verified d.codecs.crc32 (delivered visit.records) ↔
            file.Whole d.codecs.crc32 visit.blockReads) := by
  obtain ⟨opened, st', g₁, hopen, rfl, hwalk, rfl⟩ := forEachEntries_eq_ok h
  have hfolding : opened.folding = false :=
    Bool.eq_false_iff.mpr fun htrue => hfolds ⟨opened, hopen, htrue⟩
  intro visit hvisit
  refine (opened.walkEntries_mem hwalk visit hvisit).imp_right ?_
  rintro ⟨i, file, st₁, g₂, hfile, rfl, -⟩ file' hfile' hstream hcrc hend hunrefused
  rw [opened.entryVisit_fileIndex, hfile] at hfile'
  cases hfile'
  exact opened.entryVisit_verified_iff hverify hfolding hcrc hstream hend hunrefused

theorem forEachEntries_folded {d : BlockDecoder} (hfold : d.codecs.FoldsPieces)
    (hfit : d.PiecesFit) (hfolds : d.Folds) {each : Callback} {log log' : WalkLog} {g : Bool}
    (h : d.forEachEntries each log = (.ok g, log'))
    (hvisits : ∀ visit ∈ log'.visits, visit.blockIndex = some d.blockIndex →
      ReadToEnd visit.records ∧ Unbroken visit.blockReads) :
    ∀ visit ∈ log'.visits, visit ∈ log.visits ∨
      ∀ file, d.archive.files[visit.fileIndex]? = some file → file.hasStream = true →
        file.hasCrc = true → (file.size = 0 → (d.codecs.crc32 []).toUInt64 = file.crc) →
          file.Verified d.codecs.crc32 (delivered visit.records) := by
  obtain ⟨opened, st', g₁, hopen, rfl, hwalk, rfl⟩ := forEachEntries_eq_ok h
  obtain ⟨opened', hopen', hfolding⟩ := hfolds
  cases hopen.symm.trans hopen'
  have hanswers : opened.AnswersFrom (opened.initial log).unpackedOffset.toNat
      (opened.archive.blockRange opened.blockIndex) :=
    answersFrom_of_piecesFit hfold hfit hopen hfolding
  refine opened.walkEntries_folded hfolding hanswers hwalk rfl ?_ hvisits
  change 0 + _ < 2 ^ 64
  rw [Nat.zero_add]
  exact (hfit opened hopen hfolding).1

namespace ArchiveReader

variable (r : ArchiveReader)

theorem walkBlocks_forall {P : Visit → Prop} {each : Callback} {blocks : List Nat}
    {log log' : WalkLog} (h : r.walkBlocks each blocks log = (.ok (), log'))
    (hblock : ∀ b ∈ blocks, ∀ log₁ log₂ g,
      (r.blockDecoder b).forEachEntries each log₁ = (.ok g, log₂) → log₂.visits ⊆ log'.visits →
        ∀ visit ∈ log₂.visits, visit ∈ log₁.visits ∨ P visit) :
    ∀ visit ∈ log'.visits, visit ∈ log.visits ∨ P visit := by
  induction blocks generalizing log with
  | nil =>
      cases h
      exact fun visit hvisit => Or.inl hvisit
  | cons b blocks ih =>
      unfold walkBlocks at h
      split at h
      · cases h
      · rename_i finished log₁ hwalk
        split at h
        · cases h
        · rename_i log₂ hcomplete
          have hsame := r.completeBlock_visits hcomplete
          obtain ⟨visits, hrest, -⟩ := r.walkBlocks_addsVisits h
          have hsubset : log₁.visits ⊆ log'.visits := by
            rw [hrest, hsame]
            exact List.subset_append_left _ _
          intro visit hvisit
          rcases ih h (fun b hb => hblock b (List.mem_cons_of_mem _ hb)) visit hvisit with
            hbefore | hnew
          · rw [hsame] at hbefore
            exact hblock b List.mem_cons_self _ _ _ hwalk hsubset visit hbefore
          · exact Or.inr hnew

theorem walkEmptyFiles_mem {each : Callback} {files : List Nat} {log log' : WalkLog}
    (h : r.walkEmptyFiles each files log = (.ok (), log')) :
    ∀ visit ∈ log'.visits, visit ∈ log.visits ∨
      r.archive.streamMap.fileBlockIndex[visit.fileIndex]? = some none := by
  induction files generalizing log with
  | nil =>
      cases h
      exact fun visit hvisit => Or.inl hvisit
  | cons i files ih =>
      unfold walkEmptyFiles at h
      split at h
      · rename_i file hblock hfile
        have hstep : ∀ visit ∈ (visitEmpty each none i file log).2.visits,
            visit ∈ log.visits ∨
              r.archive.streamMap.fileBlockIndex[visit.fileIndex]? = some none := by
          intro visit hvisit
          refine (List.mem_append.mp hvisit).imp_right fun hvisit => ?_
          rw [List.mem_singleton.mp hvisit]
          exact hblock
        split at h
        · rename_i log₁ hvisit
          rw [hvisit] at hstep
          intro visit hmem
          rcases ih h visit hmem with hbefore | hnone
          · exact hstep visit hbefore
          · exact Or.inr hnone
        · rename_i log₁ hvisit
          rw [hvisit] at hstep
          cases h
          exact hstep
        · cases h
      · exact ih h
      · cases h

/-- Every entry with a checksum was handed out, and each time the data had its size and its
checksum. -/
def Delivered (log : WalkLog) : Prop :=
  ∀ i file, r.archive.files[i]? = some file → file.hasCrc = true →
    (∃ visit ∈ log.visits, visit.fileIndex = i) ∧
      ∀ visit ∈ log.visits, visit.fileIndex = i →
        file.Verified r.codecs.crc32 (delivered visit.records)

/-- The visits of entries with a checksum were read from whole streams. -/
structure WalkedWhole (log : WalkLog) : Prop where
  visited : ∀ i file, r.archive.files[i]? = some file → file.hasCrc = true →
    i ∈ walkOrder r.archive
  whole : ∀ visit ∈ log.visits, ∀ file, r.archive.files[visit.fileIndex]? = some file →
    file.hasCrc = true → file.Whole r.codecs.crc32 visit.blockReads
  /-- The closure did not carry on after it was told of a checksum failure. -/
  heeded : ∀ visit ∈ log.visits, ∀ file, r.archive.files[visit.fileIndex]? = some file →
    file.hasCrc = true → Unrefused visit.records
  /-- Where the workers compute the checksums of a block, their pieces fit its entries, of which
  none is cut short. -/
  folded : ∀ b, (r.blockDecoder b).Folds → (r.blockDecoder b).PiecesFit ∧
    ∀ visit ∈ log.visits, visit.blockIndex = some b → Unbroken visit.blockReads

variable {r}

theorem hasStream_of_hasCrc (hdescribed : r.archive.Described) {i : Nat} {file : ArchiveEntry}
    (hfile : r.archive.files[i]? = some file) (hcrc : file.hasCrc = true) :
    file.hasStream = true :=
  hdescribed.entries file (List.mem_of_getElem? hfile) hcrc

theorem fileBlockIndex_ne_none (hdescribed : r.archive.Described) {i : Nat} {file : ArchiveEntry}
    (hfile : r.archive.files[i]? = some file) (hcrc : file.hasCrc = true) :
    r.archive.streamMap.fileBlockIndex[i]? ≠ some none := by
  intro hnone
  obtain ⟨hlt, rfl⟩ := List.getElem?_eq_some_iff.mp hfile
  obtain ⟨hlt', hnone⟩ := List.getElem?_eq_some_iff.mp hnone
  have hsome := hdescribed.mapped.streamed.get hlt hlt' (hasStream_of_hasCrc hdescribed hfile hcrc)
  change (r.archive.streamMap.fileBlockIndex[i]).isSome = true at hsome
  rw [hnone] at hsome
  cases hsome

theorem forEachEntries_visits {each : Callback} {log : WalkLog}
    (h : r.forEachEntries each = (.ok (), log)) (hdescribed : r.archive.Described)
    {P : Visit → Prop}
    (hblock : ∀ b log₁ log₂ g, (r.blockDecoder b).forEachEntries each log₁ = (.ok g, log₂) →
      log₂.visits ⊆ log.visits → ∀ visit ∈ log₂.visits, visit ∈ log₁.visits ∨ P visit)
    {visit : Visit} (hvisit : visit ∈ log.visits) {file : ArchiveEntry}
    (hfile : r.archive.files[visit.fileIndex]? = some file) (hcrc : file.hasCrc = true) :
    P visit := by
  unfold forEachEntries at h
  split at h
  · cases h
  · rename_i log₁ hblocks
    obtain ⟨visits, hrest, -⟩ := r.walkEmptyFiles_addsVisits h
    have hsubset : log₁.visits ⊆ log.visits := hrest ▸ List.subset_append_left _ _
    rcases r.walkEmptyFiles_mem h visit hvisit with hmem | hnone
    · rcases r.walkBlocks_forall hblocks (fun b _ log₂ log₃ g hwalk hsub =>
        hblock b log₂ log₃ g hwalk (List.Subset.trans hsub hsubset)) visit hmem with hnil | hP
      · cases hnil
      · exact hP
    · exact absurd hnone (fileBlockIndex_ne_none hdescribed hfile hcrc)

theorem delivered_of_walkedWhole (hdescribed : r.archive.Described)
    (hverify : r.verifyChecksums = true) (hfold : r.codecs.FoldsPieces) {each : Callback}
    {log : WalkLog} (hrun : r.forEachEntries each = (.ok (), log))
    (hall : ∀ visit ∈ log.visits, visit.Continues ∧ ReadToEnd visit.records)
    (hwhole : r.WalkedWhole log) : r.Delivered log := by
  have hverified : ∀ visit ∈ log.visits, ∀ file,
      r.archive.files[visit.fileIndex]? = some file → file.hasCrc = true →
        file.Verified r.codecs.crc32 (delivered visit.records) := by
    intro visit hvisit file hfile hcrc
    have hstream := hasStream_of_hasCrc hdescribed hfile hcrc
    have hfileWhole := hwhole.whole visit hvisit file hfile hcrc
    refine forEachEntries_visits hrun hdescribed (P := fun visit => visit ∈ log.visits → ∀ file,
      r.archive.files[visit.fileIndex]? = some file → file.hasCrc = true →
        file.Verified r.codecs.crc32 (delivered visit.records)) ?_ hvisit hfile hcrc hvisit file
      hfile hcrc
    intro b log₁ log₂ g hwalk hsubset visit hmem
    by_cases hfolds : (r.blockDecoder b).Folds
    · obtain ⟨hfit, hunbroken⟩ := hwhole.folded b hfolds
      refine (forEachEntries_folded hfold hfit hfolds hwalk (fun v hv hb =>
        ⟨(hall v (hsubset hv)).2, hunbroken v (hsubset hv) hb⟩) visit hmem).imp_right ?_
      intro hdone hvisit file hfile hcrc
      exact hdone file hfile (hasStream_of_hasCrc hdescribed hfile hcrc) hcrc
        (hwhole.whole visit hvisit file hfile hcrc).empty
    · refine (forEachEntries_verified_iff hverify hfolds hwalk visit hmem).imp_right ?_
      intro hiff hvisit file hfile hcrc
      exact (hiff file hfile (hasStream_of_hasCrc hdescribed hfile hcrc) hcrc (hall visit hvisit).2
        (hwhole.heeded visit hvisit file hfile hcrc)).mpr (hwhole.whole visit hvisit file hfile hcrc)
  intro i file hfile hcrc
  refine ⟨?_, fun visit hvisit hindex => hverified visit hvisit file (hindex ▸ hfile) hcrc⟩
  have hmem := hwhole.visited i file hfile hcrc
  rw [← r.forEachEntries_visitedFiles hrun fun visit hvisit => (hall visit hvisit).1] at hmem
  exact List.mem_map.mp hmem

theorem walkedWhole_of_delivered (hdescribed : r.archive.Described)
    (hverify : r.verifyChecksums = true) (hfolds : ∀ b, ¬ (r.blockDecoder b).Folds)
    {each : Callback} {log : WalkLog} (hrun : r.forEachEntries each = (.ok (), log))
    (hall : ∀ visit ∈ log.visits, visit.Continues ∧ ReadToEnd visit.records)
    (hheeded : ∀ visit ∈ log.visits, Unrefused visit.records) (hdelivered : r.Delivered log) :
    r.WalkedWhole log where
  visited i file hfile hcrc := by
    rw [← r.forEachEntries_visitedFiles hrun fun visit hvisit => (hall visit hvisit).1]
    exact List.mem_map.mpr (hdelivered i file hfile hcrc).1
  whole visit hvisit file hfile hcrc := by
    refine forEachEntries_visits hrun hdescribed (P := fun visit => visit ∈ log.visits → ∀ file,
      r.archive.files[visit.fileIndex]? = some file → file.hasCrc = true →
        file.Whole r.codecs.crc32 visit.blockReads) ?_ hvisit hfile hcrc hvisit file hfile hcrc
    intro b log₁ log₂ g hwalk hsubset visit hmem
    refine (forEachEntries_verified_iff hverify (hfolds b) hwalk visit hmem).imp_right ?_
    intro hiff hvisit file hfile hcrc
    exact (hiff file hfile (hasStream_of_hasCrc hdescribed hfile hcrc) hcrc (hall visit hvisit).2
      (hheeded visit hvisit)).mp ((hdelivered _ file hfile hcrc).2 visit hvisit rfl)
  heeded visit hvisit _ _ _ := hheeded visit hvisit
  folded b hb := absurd hb (hfolds b)

theorem retryInterrupted_unrefused {records : List (ReadRecord IoError)}
    (h : ∀ record ∈ records, ∀ e, record.result = .error e → retryInterrupted e = true) :
    Unrefused records := by
  intro record hrecord hresult
  have := h record hrecord _ hresult
  exact absurd this (by decide)

theorem readUntil_visits {b target : Nat} {log : WalkLog} {g : Bool}
    (h : (r.blockDecoder b).forEachEntries (r.readUntil target) {} = (.ok g, log)) :
    ∀ visit ∈ log.visits, ReadToEnd visit.records ∧ Unrefused visit.records := by
  obtain ⟨opened, st', g₁, -, -, hwalk, rfl⟩ := forEachEntries_eq_ok h
  intro visit hvisit
  rcases opened.walkEntries_mem hwalk visit hvisit with hnil | ⟨i, file, st₁, g₂, -, rfl, hok⟩
  · cases hnil
  · obtain ⟨τ, read, s, s', hrun⟩ := opened.entryVisit_run (r.readUntil target) i file st₁
    rw [opened.visitEntry_answer hok] at hrun
    rcases Script.readToEnd_run hrun with ⟨hend, -, herrors⟩ | ⟨e, herror⟩ | hnone
    · exact ⟨hend, retryInterrupted_unrefused herrors⟩
    · cases herror
    · cases hnone

def FileWhole (r : ArchiveReader) (target b : Nat) (file : ArchiveEntry) : Prop :=
  if r.archive.isSolid = true then
    let log := ((r.blockDecoder b).forEachEntries (r.readUntil target) {}).2
    (∀ visit ∈ log.visits, visit.fileIndex = target → file.Whole r.codecs.crc32 visit.blockReads) ∧
      ((r.blockDecoder b).Folds →
        (r.blockDecoder b).PiecesFit ∧ ∀ visit ∈ log.visits, Unbroken visit.blockReads)
  else file.Whole r.codecs.crc32 (r.aloneReads b file)

theorem readSolid_verified (hdescribed : r.archive.Described) (hverify : r.verifyChecksums = true)
    (hfold : r.codecs.FoldsPieces) {b target : Nat} {file : ArchiveEntry} {data : List UInt8}
    (h : r.readSolid b target = .ok data) (hfile : r.archive.files[target]? = some file)
    (hcrc : file.hasCrc = true) (hsolid : r.archive.isSolid = true)
    (hwhole : r.FileWhole target b file) : file.Verified r.codecs.crc32 data := by
  unfold readSolid at h
  rw [FileWhole, if_pos hsolid] at hwhole
  rcases hwalk : (r.blockDecoder b).forEachEntries (r.readUntil target) {} with ⟨answer, log⟩
  rw [hwalk] at h hwhole
  obtain ⟨g, hanswer, h⟩ := Result.bind_eq_ok.mp h
  rw [hanswer] at hwalk
  obtain ⟨hwhole, hunbroken⟩ := hwhole
  have hdata := Result.okOr_eq_ok.mp h
  obtain ⟨visit, hfind, rfl⟩ := Option.map_eq_some_iff.mp hdata
  have hvisit := List.mem_of_find?_eq_some hfind
  obtain rfl : visit.fileIndex = target := by simpa using List.find?_some hfind
  have hstream := hasStream_of_hasCrc hdescribed hfile hcrc
  have hvisits := readUntil_visits hwalk
  have hfileWhole := hwhole visit hvisit rfl
  by_cases hfolds : (r.blockDecoder b).Folds
  · obtain ⟨hfit, hunbroken⟩ := hunbroken hfolds
    rcases forEachEntries_folded hfold hfit hfolds hwalk
      (fun v hv _ => ⟨(hvisits v hv).1, hunbroken v hv⟩) visit hvisit with hnil | hdone
    · cases hnil
    · exact hdone file hfile hstream hcrc hfileWhole.empty
  · rcases forEachEntries_verified_iff hverify hfolds hwalk visit hvisit with hnil | hiff
    · cases hnil
    · exact (hiff file hfile hstream hcrc (hvisits visit hvisit).1 (hvisits visit hvisit).2).mpr
        hfileWhole

theorem readAlone_verified_iff {b : Nat} {file : ArchiveEntry} {data : List UInt8}
    (h : r.readAlone b file = .ok data) (hcrc : file.hasCrc = true) :
    file.Verified r.codecs.crc32 data ↔ file.Whole r.codecs.crc32 (r.aloneReads b file) := by
  obtain ⟨stack, hstack, h⟩ := Result.bind_eq_ok.mp h
  rcases hrun : r.runAlone stack file with ⟨result, records, check, remain, chain⟩
  have hreads : r.aloneReads b file = chain.reads := by
    rw [aloneReads, hstack]
    dsimp only
    rw [hrun]
  rw [hrun] at h
  cases h
  have hscript := hrun
  rw [runAlone, hcrc] at hscript
  rcases Script.readToEnd_run hscript with ⟨hend, hdata, herrors⟩ | ⟨e, herror⟩ | hnone
  · cases hdata
    obtain ⟨reads, happend, hiff⟩ := verifying_trace (stack.read_honest r.codecs)
      (Script.run_trace hscript) hend (retryInterrupted_unrefused herrors)
    rw [hreads, happend]
    exact hiff
  · cases herror
  · cases hnone

theorem findFile_eq_some {name : List Char} {target : Nat} {file : ArchiveEntry}
    (h : r.findFile name = some (target, file)) : r.archive.files[target]? = some file := by
  have hmem := List.mem_of_find?_eq_some h
  rw [List.mem_reverse, List.mem_map] at hmem
  obtain ⟨⟨file', i⟩, hmem, heq⟩ := hmem
  cases heq
  exact List.mem_zipIdx_iff_getElem?.mp hmem

theorem readFile_eq_ok {name : List Char} {data : List UInt8} {target : Nat}
    {file : ArchiveEntry} (h : r.readFile name = .ok data)
    (hfind : r.findFile name = some (target, file)) (hstream : file.hasStream = true) :
    ∃ b, r.archive.streamMap.fileBlockIndex[target]? = some (some b) ∧
      if r.archive.isSolid = true then r.readSolid b target = .ok data
      else r.readAlone b file = .ok data := by
  obtain ⟨found, hfound, h⟩ := Result.bind_eq_ok.mp h
  cases hfind.symm.trans (Result.okOr_eq_ok.mp hfound)
  dsimp only at h
  rw [if_neg (not_not.mpr hstream)] at h
  obtain ⟨blockIndex, hindex, h⟩ := Result.bind_eq_ok.mp h
  obtain ⟨b, hb, h⟩ := Result.bind_eq_ok.mp h
  rw [Result.okOr_eq_ok.mp hb] at hindex
  refine ⟨b, Result.index_eq_ok.mp hindex, ?_⟩
  split at h
  · rename_i hsolid
    rwa [if_pos hsolid]
  · rename_i halone
    rwa [if_neg halone]

end ArchiveReader

/-- With the checks on, a walk that read every entry to its end has delivered each entry with
a checksum as the archive describes it, and so has a read of one file, where the data came
from whole streams.  Where no workers compute the checksums it has done so only there. -/
theorem readers_verified {codecs : Codecs} {limits : ArchiveLimits} {passwordGiven : Bool}
    {bytes : List UInt8} {archive : Archive}
    (haccepted : readWithLimits codecs limits passwordGiven bytes = .ok archive)
    {r : ArchiveReader} (hr : r.archive = archive) (hverify : r.verifyChecksums = true)
    (hfold : r.codecs.FoldsPieces) :
    (∀ each log, r.forEachEntries each = (.ok (), log) →
      (∀ visit ∈ log.visits, visit.Continues ∧ ReadToEnd visit.records) →
        (r.WalkedWhole log → r.Delivered log) ∧
          ((∀ b, ¬ (r.blockDecoder b).Folds) → (∀ visit ∈ log.visits, Unrefused visit.records) →
            r.Delivered log → r.WalkedWhole log)) ∧
      ∀ name data target file b, r.readFile name = .ok data →
        r.findFile name = some (target, file) → file.hasCrc = true →
        r.archive.streamMap.fileBlockIndex[target]? = some (some b) →
          (r.FileWhole target b file → file.Verified r.codecs.crc32 data) ∧
            (r.archive.isSolid = false → file.Verified r.codecs.crc32 data →
              r.FileWhole target b file) := by
  subst hr
  have hdescribed := readWithLimits_described haccepted
  constructor
  · intro each log hrun hall
    exact ⟨ArchiveReader.delivered_of_walkedWhole hdescribed hverify hfold hrun hall,
      fun hfolds => ArchiveReader.walkedWhole_of_delivered hdescribed hverify hfolds hrun hall⟩
  · intro name data target file b hread hfind hcrc hblock
    have hfile := ArchiveReader.findFile_eq_some hfind
    obtain ⟨b', hblock', hread⟩ := ArchiveReader.readFile_eq_ok hread hfind
      (ArchiveReader.hasStream_of_hasCrc hdescribed hfile hcrc)
    cases hblock.symm.trans hblock'
    split at hread
    · rename_i hsolid
      refine ⟨ArchiveReader.readSolid_verified hdescribed hverify hfold hread hfile hcrc hsolid, ?_⟩
      intro halone
      rw [hsolid] at halone
      cases halone
    · rename_i halone
      have hiff := ArchiveReader.readAlone_verified_iff hread hcrc
      rw [ArchiveReader.FileWhole, if_neg halone]
      exact ⟨hiff.mpr, fun _ => hiff.mp⟩

/-- A copied block of two bytes that is said to be of `size` bytes, for one file with the
checksum of these two. -/
def checkedFile (size : UInt8) : List UInt8 :=
  archiveFile crc32 [0x41, 0x42]
    ([kHeader, kMainStreamsInfo,
      kPackInfo, 0, 1, kSize, 2, kEnd,
      kUnpackInfo, kFolder, 1, 0, 1, 1, 0, kCodersUnpackSize, size, kEnd,
      kSubStreamsInfo, kCrc, 1] ++ writeU32 (crc32 [0x41, 0x42]) ++
      [kEnd, kEnd, kFilesInfo, 1, kEnd, kEnd])

theorem not_folds_copying {d : BlockDecoder} {bytes : List UInt8}
    (h : d.codecs = .copying bytes) : ¬ d.Folds := by
  rintro ⟨opened, hopen, hfolding⟩
  have := openBlock_engaged hopen hfolding
  rw [h] at this
  cases this

open ArchiveReader in
structure RunsOver (bytes : List UInt8) (archive : Archive) (file : ArchiveEntry) (log : WalkLog)
    (data : List UInt8) : Prop where
  accepted : readWithLimits (.copying bytes) {} false bytes = .ok archive
  walk : (copyingReader bytes archive).forEachEntries readAllEntries = (.ok (), log)
  read : (copyingReader bytes archive).readFile [] = .ok data
  toEnd : ∀ visit ∈ log.visits, visit.Continues ∧ ReadToEnd visit.records ∧
    Unrefused visit.records
  found : (copyingReader bytes archive).findFile [] = some (0, file)
  files : archive.files = [file]
  mapped : archive.streamMap.fileBlockIndex[0]? = some (some 0)
  order : walkOrder archive = [0]
  crc : file.hasCrc = true
  alone : archive.isSolid = false

/-- The runs end well although the data is only there in part: what decides is whether a read
met the end of the stream. -/
theorem checkedFile_runs (size : UInt8) (hsize : size = 2 ∨ size = 5) :
    ∃ archive file log data, RunsOver (checkedFile size) archive file log data ∧
      data = [0x41, 0x42] ∧ file.size.toNat = size.toNat ∧
      (size = 2 → ∀ visit ∈ log.visits, Unbroken visit.blockReads) ∧
      (size = 2 → Unbroken ((copyingReader (checkedFile size) archive).aloneReads 0 file)) ∧
      log.visits.map (fun visit => delivered visit.records) = [[0x41, 0x42]] := by
  obtain ⟨archive, hread, hcheck⟩ := Result.exists_of_holds
    (show (readWithLimits (.copying (checkedFile size)) {} false (checkedFile size)).holds
      (fun archive =>
        let r := copyingReader (checkedFile size) archive
        let run := r.forEachEntries readAllEntries
        archive.files.head?.any fun file =>
          run.1.holds (fun _ => true) && (r.readFile []).holds (fun data =>
            decide ((∀ visit ∈ run.2.visits, visit.Continues ∧ ReadToEnd visit.records ∧
                Unrefused visit.records) ∧
              r.findFile [] = some (0, file) ∧ archive.files = [file] ∧
              archive.streamMap.fileBlockIndex[0]? = some (some 0) ∧
              ArchiveReader.walkOrder archive = [0] ∧ file.hasCrc = true ∧
              archive.isSolid = false ∧ data = [0x41, 0x42] ∧ file.size.toNat = size.toNat ∧
              (size = 2 → ∀ visit ∈ run.2.visits, Unbroken visit.blockReads) ∧
              (size = 2 → Unbroken (r.aloneReads 0 file)) ∧
              run.2.visits.map (fun visit => delivered visit.records) = [[0x41, 0x42]]))) = true by
      rcases hsize with rfl | rfl
      · decide +kernel
      · decide +kernel)
  obtain ⟨file, -, hcheck⟩ := (Option.any_eq_true _ _).mp hcheck
  obtain ⟨hrun, hcheck⟩ := Bool.and_eq_true_iff.mp hcheck
  obtain ⟨_, hok, -⟩ := Result.exists_of_holds hrun
  obtain ⟨data, hdata, hcheck⟩ := Result.exists_of_holds hcheck
  obtain ⟨htoEnd, hfound, hfiles, hmapped, horder, hcrc, halone, hrest⟩ := of_decide_eq_true hcheck
  exact ⟨archive, file, _, data, ⟨hread, Prod.ext hok rfl, hdata, htoEnd, hfound, hfiles, hmapped,
    horder, hcrc, halone⟩, hrest⟩

theorem checkedFile_verified : ∃ archive file log data,
    RunsOver (checkedFile 2) archive file log data ∧
      (copyingReader (checkedFile 2) archive).Delivered log ∧ file.Verified crc32 data := by
  obtain ⟨archive, file, log, data, hruns, -, hsize, hvisits, hreads, -⟩ :=
    checkedFile_runs 2 (Or.inl rfl)
  have hne : file.size ≠ 0 := fun hzero => by
    rw [hzero] at hsize
    exact absurd hsize (by decide)
  have hsized : file.size.toNat < 2 ^ 63 := by
    rw [hsize]
    decide
  have hfolds : ∀ b, ¬ ((copyingReader (checkedFile 2) archive).blockDecoder b).Folds :=
    fun b => not_folds_copying rfl
  have hverified := readers_verified hruns.accepted
    (r := copyingReader (checkedFile 2) archive) rfl rfl
    (Codecs.foldsPieces_of_not_engaged fun _ => rfl)
  refine ⟨archive, file, log, data, hruns, ?_, ?_⟩
  · refine (hverified.1 readAllEntries log hruns.walk
      fun visit hvisit => ⟨(hruns.toEnd visit hvisit).1, (hruns.toEnd visit hvisit).2.1⟩).1
      ⟨fun i f hf _ => ?_, fun visit hvisit f hf _ => ?_,
        fun visit hvisit _ _ _ => (hruns.toEnd visit hvisit).2.2, fun b hb => absurd hb (hfolds b)⟩
    · change archive.files[i]? = some f at hf
      have hlt := (List.getElem?_eq_some_iff.mp hf).1
      rw [hruns.files, List.length_singleton] at hlt
      change i ∈ ArchiveReader.walkOrder archive
      rw [hruns.order, List.mem_singleton]
      omega
    · have hmem : f ∈ archive.files := List.mem_of_getElem? hf
      rw [hruns.files] at hmem
      rw [List.mem_singleton.mp hmem]
      exact ⟨fun hzero => absurd hzero hne, hsized, hvisits rfl visit hvisit⟩
  · refine (hverified.2 [] data 0 file 0 hruns.read hruns.found hruns.crc hruns.mapped).1 ?_
    rw [ArchiveReader.FileWhole, if_neg (by rw [show (copyingReader (checkedFile 2)
      archive).archive = archive from rfl, hruns.alone]; exact Bool.false_ne_true)]
    exact ⟨fun hzero => absurd hzero hne, hsized, hreads rfl⟩

/-- Two bytes said to be five are taken for the whole file by both readers. -/
theorem checkedFile_cut_short : ∃ archive file log data,
    RunsOver (checkedFile 5) archive file log data ∧
      ¬ (copyingReader (checkedFile 5) archive).Delivered log ∧ ¬ file.Verified crc32 data := by
  obtain ⟨archive, file, log, data, hruns, hdata, hsize, -, -, hvisits⟩ :=
    checkedFile_runs 5 (Or.inr rfl)
  have hshort : ¬ file.Verified crc32 [0x41, 0x42] := by
    rintro ⟨hlen, -⟩
    rw [hsize] at hlen
    exact absurd hlen (by decide)
  refine ⟨archive, file, log, data, hruns, fun hdelivered => ?_, hdata ▸ hshort⟩
  have hfile : archive.files[0]? = some file := by rw [hruns.files]; rfl
  obtain ⟨⟨visit, hvisit, hindex⟩, hall⟩ := hdelivered 0 file hfile hruns.crc
  have hmem := List.mem_map_of_mem (f := fun visit => delivered visit.records) hvisit
  rw [hvisits, List.mem_singleton] at hmem
  have := hall visit hvisit hindex
  rw [hmem] at this
  exact hshort this

end Sevenz
