import Sevenz.Header.SubStreamOrder
import Sevenz.Header.SubStreamSizes
import Sevenz.Lib.Delivery
import Sevenz.Reader.SubStreamHook

/-!
# The slices of a block

`BlockDecoder::for_each_entries` hands each entry of a block a part of the block's stream.  The
sizes were dealt out by `read_files_info`, the blocks by `calculate_stream_map`, and the walk
goes by neither: it takes as many files as the block has sub-streams.
-/

namespace Sevenz

open Lib

structure Visit.Drained (visit : Visit) : Prop where
  readToEnd : ReadToEnd visit.records
  unrefused : Unrefused visit.records

instance (visit : Visit) : Decidable visit.Drained :=
  decidable_of_iff (ReadToEnd visit.records ∧ Unrefused visit.records)
    ⟨fun ⟨h₁, h₂⟩ => ⟨h₁, h₂⟩, fun ⟨h₁, h₂⟩ => ⟨h₁, h₂⟩⟩

def BlockDecoder.Spends (d : BlockDecoder) (file : ArchiveEntry) : Prop :=
  file.HasBytes ∧ file.hasCrc = true ∧ d.verifyChecksums = true ∧ ¬ d.Folds ∧
    ¬ file.size.toNat < 2 ^ 63

/-- The entry was handed what was read of the block's stream for it, and all of it exactly
where the stream did not end first and the reader could count that far. -/
structure BlockDecoder.Hands (d : BlockDecoder) (file : ArchiveEntry) (visit : Visit) : Prop where
  delivered : delivered visit.records = delivered visit.blockReads
  roomy : ∀ read ∈ visit.blockReads, 0 < read.buf
  le : (Lib.delivered visit.records).length ≤ file.taken
  whole : (Lib.delivered visit.records).length = file.taken ↔
    Unbroken visit.blockReads ∧ ¬ d.Spends file

namespace OpenBlock

variable (d : OpenBlock)

theorem folds_iff {d : BlockDecoder} {opened : OpenBlock} (h : d.openBlock = .ok opened) :
    d.Folds ↔ opened.folding = true := by
  constructor
  · rintro ⟨opened', hopen, hfolding⟩
    cases h.symm.trans hopen
    exact hfolding
  · exact fun hfolding => ⟨opened, h, hfolding⟩

theorem entryVisit_hands (hfolds : d.toBlockDecoder.Folds ↔ d.folding = true) {each : Callback}
    {i : Nat} {file : ArchiveEntry} {st : BlockState}
    (h : (d.entryVisit each i file st).Drained) :
    d.toBlockDecoder.Hands file (d.entryVisit each i file st) := by
  obtain ⟨hend, hunrefused⟩ := h
  by_cases hbytes : file.HasBytes
  · rw [entryVisit, if_pos hbytes] at hend hunrefused ⊢
    rcases hcall : d.callStream each i file st with ⟨answer, records, check, remain, chain⟩
    obtain ⟨htrace, hvisit⟩ := d.callStream_trace hcall
    rw [hvisit] at hend hunrefused ⊢
    have hhonest := d.stack.read_honest d.codecs
    have hcheck : ∀ st ∈ d.entryCheck file, st = CrcState.new file.size file.crc := by
      intro st hst
      unfold entryCheck at hst
      split at hst
      · exact (Option.some.inj hst).symm
      · cases hst
    obtain ⟨reads, happend, hdelivered, hcount, hroomy⟩ :=
      entryRead_delivered hhonest htrace hend hunrefused
    obtain ⟨reads', happend', hwhole⟩ := entryRead_whole hhonest
      (UInt64.lt_iff_toNat_lt.mp hbytes.2) hcheck htrace hend hunrefused
    obtain rfl := List.append_cancel_left (happend.symm.trans happend')
    have hspends : d.toBlockDecoder.Spends file ↔
        ¬ ((d.entryCheck file).isSome = true → file.size.toNat < 2 ^ 63) := by
      have hsome : (d.entryCheck file).isSome = true ↔
          file.hasCrc = true ∧ d.verifyChecksums = true ∧ ¬ d.toBlockDecoder.Folds := by
        rw [hfolds, entryCheck]
        split <;> simp_all
      rw [hsome, BlockDecoder.Spends, and_iff_right hbytes]
      tauto
    have htaken : file.taken = file.size.toNat := if_pos hbytes
    rw [hdelivered] at hcount
    constructor
    · dsimp only
      rw [happend, List.drop_left, hdelivered]
    · dsimp only
      rwa [happend, List.drop_left]
    · rw [htaken]
      dsimp only
      omega
    · rw [htaken, hspends, not_not]
      dsimp only
      rw [happend, List.drop_left, ← hwhole]
      omega
  · have hnone : delivered (emptyVisit each (some d.blockIndex) i file st.log).records = [] :=
      delivered_emptyRead (Script.run_trace
        (rfl : (each st.log.visits i file).run emptyRead () = _))
    have htaken : file.taken = 0 := if_neg hbytes
    rw [entryVisit, if_neg hbytes]
    constructor
    · exact hnone
    · exact List.forall_mem_nil _
    · rw [hnone]
      exact Nat.zero_le _
    · rw [hnone, htaken]
      exact iff_of_true rfl ⟨List.forall_mem_nil _, fun hspends => hbytes hspends.1⟩

theorem walkEntries_visits {each : Callback} {files : List Nat} {st st' : BlockState}
    {answer : Result Bool} (h : d.walkEntries each files st = (answer, st')) :
    ∃ visits seen, seen <+: files ∧ st'.log.visits = st.log.visits ++ visits ∧
      List.Forall₂ (fun i visit => ∃ file st₁, d.archive.files[i]? = some file ∧
        visit = d.entryVisit each i file st₁) seen visits ∧
      (∀ g, answer = .ok g → (∀ visit ∈ visits, visit.Continues) → seen = files) := by
  induction files generalizing st with
  | nil =>
      cases h
      exact ⟨[], [], List.prefix_rfl, (List.append_nil _).symm, .nil, fun _ _ _ => rfl⟩
  | cons i files ih =>
      unfold walkEntries at h
      split at h
      · cases h
        exact ⟨[], [], List.nil_prefix, (List.append_nil _).symm, .nil, fun _ h => nomatch h⟩
      · rename_i file hfile
        have hadded := d.visitEntry_visits each i file st
        have hvisit : ∃ file' st₁, d.archive.files[i]? = some file' ∧
            d.entryVisit each i file st = d.entryVisit each i file' st₁ := ⟨file, st, hfile, rfl⟩
        split at h
        · rename_i st₁ hstep
          rw [hstep] at hadded
          obtain ⟨visits, seen, hprefix, happend, hvisits, hall⟩ := ih h
          refine ⟨_ :: visits, i :: seen, (List.prefix_cons_inj i).mpr hprefix, ?_,
            .cons hvisit hvisits, fun g hg hcontinue => ?_⟩
          · rw [happend, hadded, List.append_assoc]
            rfl
          · rw [hall g hg (List.forall_mem_cons.mp hcontinue).2]
        · rename_i answer st₁ hne hstep
          cases h
          rw [hstep] at hadded
          refine ⟨[_], [i], (List.prefix_cons_inj i).mpr List.nil_prefix, hadded,
            .cons hvisit .nil, fun g hg hcontinue => ?_⟩
          have hanswer := d.visitEntry_answer (g := g) (by rw [hstep, hg])
          have htrue : (d.entryVisit each i file st).answer = some (.ok true) :=
            hcontinue _ List.mem_cons_self
          rw [hanswer] at htrue
          cases htrue
          exact absurd hg hne

end OpenBlock

namespace BlockDecoder

def Handed (d : BlockDecoder) (i : Nat) (visit : Visit) : Prop :=
  ∃ file, d.archive.files[i]? = some file ∧ visit.fileIndex = i ∧ d.Hands file visit

def HandedWhole (d : BlockDecoder) (i : Nat) (visit : Visit) : Prop :=
  ∃ file, d.archive.files[i]? = some file ∧ (delivered visit.records).length = file.taken

variable {d : BlockDecoder}

theorem forEachEntries_handed {each : Callback} {log log' : WalkLog} {answer : Result Bool}
    (h : d.forEachEntries each log = (answer, log')) {visits : List Visit}
    (hvisits : log'.visits = log.visits ++ visits) (hdrained : ∀ visit ∈ visits, visit.Drained) :
    ∃ seen, seen <+: d.archive.blockRange d.blockIndex ∧ List.Forall₂ d.Handed seen visits ∧
      (∀ g, answer = .ok g → (∀ visit ∈ visits, visit.Continues) →
        seen = d.archive.blockRange d.blockIndex) := by
  unfold forEachEntries at h
  split at h
  · cases h
    obtain rfl : visits = [] := List.append_right_eq_self.mp hvisits.symm
    exact ⟨[], List.nil_prefix, .nil, fun _ h => nomatch h⟩
  · rename_i opened hopen
    have hfolds := OpenBlock.folds_iff hopen
    obtain ⟨rfl, hblock, hstart, -, -⟩ := openBlock_eq_ok hopen
    have hrange : opened.archive.blockRange opened.blockIndex =
        List.range' opened.start opened.block.numUnpackSubStreams := by
      rw [Archive.blockRange, subStreamsOf_eq hblock, StreamMap.firstFile,
        List.getD_eq_getElem?_getD, hstart]
      rfl
    rcases hwalk : opened.walkEntries each
      (List.range' opened.start opened.block.numUnpackSubStreams) (opened.initial log)
      with ⟨answer₁, st⟩
    obtain ⟨hlog, hanswer⟩ : log' = st.log ∧ ∀ g, answer = .ok g → ∃ g₁, answer₁ = .ok g₁ := by
      unfold OpenBlock.walk at h
      rw [hwalk] at h
      split at h
      · rename_i heq
        cases heq
        exact ⟨(Prod.mk.inj h).2.symm, fun _ _ => ⟨true, rfl⟩⟩
      · rename_i heq
        cases heq
        cases h
        exact ⟨rfl, fun g hg => ⟨g, hg⟩⟩
    obtain ⟨visits', seen, hprefix, happend, hall, hwhole⟩ := opened.walkEntries_visits hwalk
    obtain rfl : visits = visits' := by
      rw [hlog, happend] at hvisits
      exact (List.append_cancel_left hvisits).symm
    rw [hrange]
    refine ⟨seen, hprefix, ?_, fun g hg => ?_⟩
    · refine List.forall₂_iff_get.mpr ⟨hall.length_eq, fun k hk hk' => ?_⟩
      obtain ⟨file, st₁, hfile, hvisit⟩ := hall.get hk hk'
      have hdrain := hdrained _ (List.get_mem visits ⟨k, hk'⟩)
      rw [hvisit] at hdrain ⊢
      exact ⟨file, hfile, opened.entryVisit_fileIndex _ _ _ _,
        opened.entryVisit_hands hfolds hdrain⟩
    · obtain ⟨g₁, hg₁⟩ := hanswer g hg
      exact hwhole g₁ hg₁

theorem streamedBytes_mono {archive : Archive} {seen files : List Nat} (h : seen <+: files) :
    archive.streamedBytes seen ≤ archive.streamedBytes files := by
  obtain ⟨rest, rfl⟩ := h
  rw [Archive.streamedBytes, Archive.streamedBytes, List.map_append, List.sum_append]
  exact Nat.le_add_right _ _

theorem flatten_delivered {files : List Nat} {visits : List Visit}
    (h : List.Forall₂ d.Handed files visits) :
    (visits.map fun visit => delivered visit.records).flatten =
      delivered (visits.flatMap Visit.blockReads) := by
  induction h with
  | nil => rfl
  | cons hfirst _ ih =>
      obtain ⟨_, -, -, hands⟩ := hfirst
      rw [List.map_cons, List.flatten_cons, List.flatMap_cons, delivered_append, ih,
        hands.delivered]

theorem handedWhole_of_fits {files : List Nat} {visits : List Visit}
    (h : List.Forall₂ d.Handed files visits) {content : List UInt8}
    (hcontent : Delivery (fun _ => True) content none (visits.flatMap Visit.blockReads))
    (hfits : d.archive.streamedBytes files ≤ content.length)
    (hspends : ∀ i ∈ files, ∀ file, d.archive.files[i]? = some file → ¬ d.Spends file) :
    List.Forall₂ d.HandedWhole files visits := by
  induction h generalizing content with
  | nil => exact .nil
  | @cons i visit files visits hfirst _ ih =>
      obtain ⟨file, hfile, -, hands⟩ := hfirst
      obtain ⟨hcounts, hspends⟩ := List.forall_mem_cons.mp hspends
      rw [OpenBlock.streamedBytes_cons hfile] at hfits
      rw [List.flatMap_cons] at hcontent
      obtain ⟨rest, rfl, hreads, hrest⟩ := hcontent.append
      rw [List.length_append] at hfits
      have hle := hands.le
      have hwhole : (delivered visit.records).length = file.taken := by
        by_contra hshort
        -- a stream that has told its end has nothing left for what the files still take
        have hended : ¬ Unbroken visit.blockReads := fun hunbroken =>
          hshort (hands.whole.mpr ⟨hunbroken, hcounts file hfile⟩)
        obtain ⟨read, hread, hempty⟩ :
            ∃ read ∈ visit.blockReads, read.result = .ok [] := by
          simpa [Unbroken] using hended
        have hall := hreads.delivered_eq_of_ended hread (hands.roomy read hread) hempty
        have hlength := congrArg List.length hall
        rw [List.length_append] at hlength
        rw [hands.delivered] at hshort hle
        omega
      rw [← hands.delivered, hwhole] at hfits
      exact .cons ⟨file, hfile, hwhole⟩ (ih hrest (by omega) hspends)

theorem streamedBytes_of_handedWhole {files : List Nat} {visits : List Visit}
    (h : List.Forall₂ d.HandedWhole files visits) :
    d.archive.streamedBytes files =
      (visits.map fun visit => delivered visit.records).flatten.length := by
  induction h with
  | nil => rfl
  | cons hfirst _ ih =>
      obtain ⟨file, hfile, hwhole⟩ := hfirst
      rw [OpenBlock.streamedBytes_cons hfile, ih, List.map_cons, List.flatten_cons, List.length_append,
        hwhole]

end BlockDecoder

namespace Archive

variable (archive : Archive)

def streamedVisits (visits : List Visit) : List Visit :=
  visits.filter fun visit => archive.isStreamed visit.fileIndex

/-- The visit is of the `k`th entry of the block, which has the size and the checksum of the
block's `k`th sub-stream, and it handed out the slice of that sub-stream. -/
structure HandsSlice (b : Nat) (content : List UInt8) (k : Nat) (visit : Visit) : Prop where
  entry : (archive.streamedEntries b)[k]? = some visit.fileIndex
  slice : ∃ info file, archive.subStreamsInfo = some info ∧
    archive.files[visit.fileIndex]? = some file ∧
    info.Gives (archive.streamMap.blockFirstSubStreamIndex.getD b 0 + k) file ∧
    (delivered visit.records).length = file.size.toNat ∧
    delivered visit.records =
      (content.drop (sumSizes ((archive.subStreamSizes info b).take k))).take file.size.toNat

def HandsOutSlices (b : Nat) (content : List UInt8) (visits : List Visit) : Prop :=
  ∀ k visit, (archive.streamedVisits visits)[k]? = some visit → archive.HandsSlice b content k visit

def HandsOutAll (b : Nat) (visits : List Visit) : Prop :=
  ∀ i ∈ archive.streamedEntries b, i ∈ visitedFiles visits

variable {archive}

theorem firstSubStream_eq (h : archive.Mapped) {b : Nat} {block : Block}
    (hblock : archive.blocks[b]? = some block) :
    archive.streamMap.blockFirstSubStreamIndex.getD b 0 =
      offset (Block.subStreamCounts archive.blocks) b := by
  obtain ⟨hlt, -⟩ := List.getElem?_eq_some_iff.mp hblock
  rw [h.firstSubStream, List.getD_eq_getElem?_getD,
    starts_getElem? (by rwa [Block.subStreamCounts, List.length_map]), Nat.zero_add]
  rfl

end Archive

theorem ArchiveEntry.taken_of_hasStream {file : ArchiveEntry} (h : file.hasStream = true) :
    file.taken = file.size.toNat := by
  unfold taken
  split
  · rfl
  · rename_i hbytes
    have hsize : ¬ file.size > 0 := fun hpos => hbytes ⟨h, hpos⟩
    rw [UInt64.le_zero_iff.mp (UInt64.not_lt.mp hsize)]
    rfl

theorem ArchiveEntry.taken_of_not_hasStream {file : ArchiveEntry} (h : ¬ file.hasStream = true) :
    file.taken = 0 :=
  if_neg fun hbytes => h hbytes.1

namespace BlockDecoder

variable {d : BlockDecoder}

/-- When the walk of a block hands out its entries as the archive describes them: the files it
walks over have the block's streams and no others, the block's stream has all they take, and
none of them is too long for a verifying reader of its own. -/
structure InPlace (d : BlockDecoder) (content : List UInt8) : Prop where
  own : ∀ i, d.archive.isStreamed i = true →
    (i ∈ d.archive.blockRange d.blockIndex ↔ d.archive.blockOf i = some d.blockIndex)
  fits : d.archive.streamedBytes (d.archive.blockRange d.blockIndex) ≤ content.length
  counted : ∀ i ∈ d.archive.blockRange d.blockIndex, ∀ file, d.archive.files[i]? = some file →
    ¬ d.Spends file

theorem InPlace.filter_blockRange {content : List UInt8} (h : d.InPlace content) :
    (d.archive.blockRange d.blockIndex).filter d.archive.isStreamed =
      d.archive.streamedEntries d.blockIndex := by
  refine List.Pairwise.eq_of_mem_iff (r := (· < ·)) ?_ (d.archive.streamedEntries_pairwise _)
    fun i => ?_
  · exact List.Pairwise.filter _ (List.pairwise_lt_range' 1 Nat.one_pos)
  · rw [List.mem_filter, Archive.mem_streamedEntries, and_comm]
    exact and_congr_right fun hstream => h.own i hstream

theorem visitedFiles_of_handed {files : List Nat} {visits : List Visit}
    (h : List.Forall₂ d.Handed files visits) : visitedFiles visits = files := by
  induction h with
  | nil => rfl
  | cons hfirst _ ih =>
      obtain ⟨_, -, rfl, -⟩ := hfirst
      rw [visitedFiles, List.map_cons]
      exact congrArg _ ih

theorem streamedVisits_fileIndex {files : List Nat} {visits : List Visit}
    (h : List.Forall₂ d.Handed files visits) :
    (d.archive.streamedVisits visits).map Visit.fileIndex =
      files.filter d.archive.isStreamed := by
  rw [← visitedFiles_of_handed h, visitedFiles, List.filter_map]
  rfl

theorem flatten_streamedVisits {files : List Nat} {visits : List Visit}
    (h : List.Forall₂ d.Handed files visits) :
    ((d.archive.streamedVisits visits).map fun visit => delivered visit.records).flatten =
      (visits.map fun visit => delivered visit.records).flatten := by
  induction h with
  | nil => rfl
  | @cons i visit files visits hfirst _ ih =>
      obtain ⟨file, hfile, rfl, hands⟩ := hfirst
      rw [Archive.streamedVisits, List.filter_cons]
      split
      · rw [List.map_cons, List.map_cons, List.flatten_cons, List.flatten_cons, ← ih]
        rfl
      · rename_i hstream
        rw [Archive.isStreamed_eq hfile] at hstream
        have hle := hands.le
        rw [ArchiveEntry.taken_of_not_hasStream hstream] at hle
        rw [List.map_cons, List.flatten_cons, List.eq_nil_of_length_eq_zero (Nat.le_zero.mp hle),
          List.nil_append, ← ih]
        rfl

theorem handedWhole_of_mem {files : List Nat} {visits : List Visit}
    (h : List.Forall₂ d.Handed files visits) (hwhole : List.Forall₂ d.HandedWhole files visits)
    {visit : Visit} (hvisit : visit ∈ visits) :
    ∃ file, d.archive.files[visit.fileIndex]? = some file ∧
      (delivered visit.records).length = file.taken := by
  induction h with
  | nil => cases hvisit
  | cons hfirst _ ih =>
      cases hwhole with
      | cons hwhole hrest =>
          rcases List.mem_cons.mp hvisit with rfl | hvisit
          · obtain ⟨_, -, rfl, -⟩ := hfirst
            exact hwhole
          · exact ih hrest hvisit

section Walked

variable {content : List UInt8} {seen : List Nat} {visits : List Visit}

theorem InPlace.streamedVisit (h : d.InPlace content) (hmapped : d.archive.Mapped)
    (hcounts : d.archive.CountsAlike) (hseen : seen <+: d.archive.blockRange d.blockIndex)
    (hhanded : List.Forall₂ d.Handed seen visits)
    (hwhole : List.Forall₂ d.HandedWhole seen visits) {k : Nat} {visit : Visit}
    (hvisit : (d.archive.streamedVisits visits)[k]? = some visit) :
    (d.archive.streamedEntries d.blockIndex)[k]? = some visit.fileIndex ∧
      ∃ info file, d.archive.subStreamsInfo = some info ∧
        d.archive.files[visit.fileIndex]? = some file ∧
        info.Gives (d.archive.streamMap.blockFirstSubStreamIndex.getD d.blockIndex 0 + k) file ∧
        (d.archive.subStreamSizes info d.blockIndex)[k]? = some file.size ∧
        (delivered visit.records).length = file.size.toNat := by
  have hentry : (d.archive.streamedEntries d.blockIndex)[k]? = some visit.fileIndex := by
    have hprefix := hseen.filter d.archive.isStreamed
    rw [h.filter_blockRange, ← streamedVisits_fileIndex hhanded] at hprefix
    obtain ⟨hlt, hget⟩ := List.getElem?_eq_some_iff.mp hvisit
    rw [List.prefix_iff_getElem?.mp hprefix k (by rwa [List.length_map]), List.getElem_map, hget]
  refine ⟨hentry, ?_⟩
  obtain ⟨block, hblock⟩ := hmapped.block_of_mem_streamedEntries (List.mem_of_getElem? hentry)
  obtain ⟨hk, info, file, hinfo, hfile, hstream, hgives⟩ :=
    hcounts.streamedEntries_gives hblock hentry
  rw [← Archive.firstSubStream_eq hmapped hblock] at hgives
  obtain ⟨file', hfile', hlength⟩ := handedWhole_of_mem hhanded hwhole
    (List.mem_of_mem_filter (List.mem_of_getElem? hvisit))
  cases hfile.symm.trans hfile'
  rw [ArchiveEntry.taken_of_hasStream hstream] at hlength
  refine ⟨info, file, hinfo, hfile, hgives, ?_, hlength⟩
  rw [Archive.subStreamSizes, List.getElem?_take_of_lt (by rwa [subStreamsOf_eq hblock]),
    List.getElem?_drop]
  exact hgives.size

theorem InPlace.handsOutSlices (h : d.InPlace content) (hmapped : d.archive.Mapped)
    (hcounts : d.archive.CountsAlike) (hseen : seen <+: d.archive.blockRange d.blockIndex)
    (hhanded : List.Forall₂ d.Handed seen visits)
    (hcontent : Delivery (fun _ => True) content none (visits.flatMap Visit.blockReads)) :
    d.archive.HandsOutSlices d.blockIndex content visits := by
  have hfits : d.archive.streamedBytes seen ≤ content.length :=
    Nat.le_trans (streamedBytes_mono hseen) h.fits
  have hwhole := handedWhole_of_fits hhanded hcontent hfits fun i hi =>
    h.counted i (hseen.subset hi)
  intro k visit hvisit
  obtain ⟨hentry, info, file, hinfo, hfile, hgives, -, hlength⟩ :=
    h.streamedVisit hmapped hcounts hseen hhanded hwhole hvisit
  refine ⟨hentry, info, file, hinfo, hfile, hgives, hlength, ?_⟩
  -- the pieces handed out lie end to end in the stream, and each is as long as its sub-stream
  obtain ⟨rest, hrest⟩ := hcontent.delivered_prefix
  rw [← flatten_delivered hhanded, ← flatten_streamedVisits hhanded] at hrest
  have hpiece : ((d.archive.streamedVisits visits).map fun visit => delivered visit.records)[k]? =
      some (delivered visit.records) := by
    rw [List.getElem?_map, hvisit]
    rfl
  have hstart : offset (((d.archive.streamedVisits visits).map fun visit =>
      delivered visit.records).map List.length) k =
        sumSizes ((d.archive.subStreamSizes info d.blockIndex).take k) := by
    rw [offset, sumSizes, List.map_map]
    congr 1
    refine List.ext_getElem? fun j => ?_
    rw [List.map_take, List.getElem?_take, List.getElem?_take]
    split
    · rename_i hj
      have hlt : j < (d.archive.streamedVisits visits).length :=
        Nat.lt_trans hj (List.getElem?_eq_some_iff.mp hvisit).1
      obtain ⟨-, info', file', hinfo', -, -, hsize, hlength'⟩ :=
        h.streamedVisit hmapped hcounts hseen hhanded hwhole (List.getElem?_eq_getElem hlt)
      cases hinfo.symm.trans hinfo'
      rw [List.getElem?_map, List.getElem?_map, hsize, List.getElem?_eq_getElem hlt]
      exact congrArg some hlength'
    · rfl
  have hslice := slice_flatten hpiece rest
  rw [hstart, hrest, hlength] at hslice
  exact hslice.symm

theorem InPlace.handsOutAll (h : d.InPlace content)
    (hhanded : List.Forall₂ d.Handed (d.archive.blockRange d.blockIndex) visits) :
    d.archive.HandsOutAll d.blockIndex visits := by
  intro i hi
  obtain ⟨hstream, hblock⟩ := Archive.mem_streamedEntries.mp hi
  rw [visitedFiles_of_handed hhanded]
  exact (h.own i hstream).mpr hblock

theorem handedWhole_of_forall {files : List Nat} (h : List.Forall₂ d.Handed files visits)
    (hlength : ∀ visit ∈ visits, ∀ file, d.archive.files[visit.fileIndex]? = some file →
      (delivered visit.records).length = file.taken) :
    List.Forall₂ d.HandedWhole files visits := by
  induction h with
  | nil => exact .nil
  | cons hfirst _ ih =>
      obtain ⟨hwhole, hlength⟩ := List.forall_mem_cons.mp hlength
      obtain ⟨file, hfile, rfl, -⟩ := hfirst
      exact .cons ⟨file, hfile, hwhole file hfile⟩ (ih hlength)

theorem mem_streamedVisits {visit : Visit} (hvisit : visit ∈ visits)
    (hstream : d.archive.isStreamed visit.fileIndex = true) :
    ∃ k : Nat, (d.archive.streamedVisits visits)[k]? = some visit :=
  List.mem_iff_getElem?.mp (List.mem_filter.mpr ⟨hvisit, hstream⟩)

theorem inPlace_of_handsOut
    (hhanded : List.Forall₂ d.Handed (d.archive.blockRange d.blockIndex) visits)
    (hcontent : Delivery (fun _ => True) content none (visits.flatMap Visit.blockReads))
    (hslices : d.archive.HandsOutSlices d.blockIndex content visits)
    (hall : d.archive.HandsOutAll d.blockIndex visits) : d.InPlace content := by
  have hvisited := visitedFiles_of_handed hhanded
  have hwhole : List.Forall₂ d.HandedWhole (d.archive.blockRange d.blockIndex) visits := by
    refine handedWhole_of_forall hhanded fun visit hvisit file hfile => ?_
    by_cases hstream : file.hasStream = true
    · obtain ⟨k, hk⟩ := mem_streamedVisits hvisit ((Archive.isStreamed_eq hfile).trans hstream)
      obtain ⟨-, file', -, hfile', -, hlength, -⟩ := (hslices k visit hk).slice
      cases hfile.symm.trans hfile'
      rw [hlength, ArchiveEntry.taken_of_hasStream hstream]
    · obtain ⟨i, -, file', hfile', rfl, hands⟩ :=
        (ArchiveReader.exists_of_mem_forall₂ hhanded).2 visit hvisit
      cases hfile.symm.trans hfile'
      have hle := hands.le
      rw [ArchiveEntry.taken_of_not_hasStream hstream] at hle ⊢
      exact Nat.le_zero.mp hle
  constructor
  · intro i hstream
    constructor
    · intro hi
      rw [← hvisited, visitedFiles, List.mem_map] at hi
      obtain ⟨visit, hvisit, rfl⟩ := hi
      obtain ⟨k, hk⟩ := mem_streamedVisits hvisit hstream
      exact (Archive.mem_streamedEntries.mp
        (List.mem_of_getElem? (hslices k visit hk).entry)).2
    · intro hblock
      have hi := hall i (Archive.mem_streamedEntries.mpr ⟨hstream, hblock⟩)
      rwa [hvisited] at hi
  · rw [streamedBytes_of_handedWhole hwhole, flatten_delivered hhanded]
    exact hcontent.delivered_prefix.length_le
  · intro i hi file hfile
    obtain ⟨visit, hvisit, file', hfile', rfl, hands⟩ :=
      (ArchiveReader.exists_of_mem_forall₂ hhanded).1 i hi
    cases hfile.symm.trans hfile'
    obtain ⟨file'', hfile'', hlength⟩ := handedWhole_of_mem hhanded hwhole hvisit
    cases hfile.symm.trans hfile''
    exact (hands.whole.mp hlength).2

end Walked

end BlockDecoder

/-- However a walk over a block of an accepted archive ends, with every entry it visited
drained, it handed out the block's entries in order, each with the slice of its sub-stream,
where the walk was in place.  A walk that ran to its end did so for all of them exactly there. -/
theorem forEachEntries_slices {codecs : Codecs} {limits : ArchiveLimits} {passwordGiven : Bool}
    {bytes : List UInt8} {d : BlockDecoder}
    (haccepted : readWithLimits codecs limits passwordGiven bytes = .ok d.archive)
    {each : Callback} {log log' : WalkLog} {answer : Result Bool}
    (hrun : d.forEachEntries each log = (answer, log')) {visits : List Visit}
    (hvisits : log'.visits = log.visits ++ visits) (hdrained : ∀ visit ∈ visits, visit.Drained)
    {content : List UInt8}
    (hcontent : Delivery (fun _ => True) content none (visits.flatMap Visit.blockReads)) :
    (d.InPlace content → d.archive.HandsOutSlices d.blockIndex content visits) ∧
      ∀ g, answer = .ok g → (∀ visit ∈ visits, visit.Continues) →
        (d.archive.HandsOutSlices d.blockIndex content visits ∧
          d.archive.HandsOutAll d.blockIndex visits ↔ d.InPlace content) := by
  have hmapped := (readWithLimits_described haccepted).mapped
  have hcounts := readWithLimits_countsAlike haccepted
  obtain ⟨seen, hseen, hhanded, hfinished⟩ :=
    BlockDecoder.forEachEntries_handed hrun hvisits hdrained
  refine ⟨fun h => h.handsOutSlices hmapped hcounts hseen hhanded hcontent,
    fun g hg hcontinues => ?_⟩
  obtain rfl := hfinished g hg hcontinues
  constructor
  · exact fun ⟨hslices, hall⟩ =>
      BlockDecoder.inPlace_of_handsOut hhanded hcontent hslices hall
  · exact fun h =>
      ⟨h.handsOutSlices hmapped hcounts hseen hhanded hcontent, h.handsOutAll hhanded⟩

/-- One block of two bytes, for two of three files: the one without a stream is told by `empty`. -/
def listedFile (empty : UInt8) : List UInt8 :=
  archiveFile crc32 [0x41, 0x42]
    [kHeader, kMainStreamsInfo,
      kPackInfo, 0, 1, kSize, 2, kEnd,
      kUnpackInfo, kFolder, 1, 0, 1, 1, 0, kCodersUnpackSize, 2, kEnd,
      kSubStreamsInfo, kNumUnpackStream, 2, kSize, 1, kEnd, kEnd,
      kFilesInfo, 3, kEmptyStream, 1, empty, kEnd, kEnd]

def listedDecoder (empty : UInt8) (archive : Archive) : BlockDecoder :=
  (copyingReader (listedFile empty) archive).blockDecoder 0

def Visit.blockAnswers (visit : Visit) : List (Nat × ReadResult IoError) :=
  visit.blockReads.map fun read => (read.buf, read.result)

theorem flatMap_blockReads {visits : List Visit} {answers : List (Nat × ReadResult IoError)}
    (h : visits.flatMap Visit.blockAnswers = answers) :
    visits.flatMap Visit.blockReads = answers.map fun answer => ⟨answer.1, answer.2⟩ := by
  rw [← h, List.map_flatMap]
  refine List.flatMap_congr fun visit _ => ?_
  rw [Visit.blockAnswers, List.map_map]
  exact (List.map_id _).symm

structure DrainedRun (empty : UInt8) (answers : List (Nat × ReadResult IoError))
    (archive : Archive) (log : WalkLog) : Prop where
  accepted :
    readWithLimits (.copying (listedFile empty)) {} false (listedFile empty) = .ok archive
  run : (listedDecoder empty archive).forEachEntries readAllEntries {} = (.ok true, log)
  drained : ∀ visit ∈ log.visits, visit.Drained
  continues : ∀ visit ∈ log.visits, visit.Continues
  answers : log.visits.flatMap Visit.blockAnswers = answers

theorem DrainedRun.of_holds {empty : UInt8} {answers : List (Nat × ReadResult IoError)}
    {P : Archive → WalkLog → Prop} [∀ archive log, Decidable (P archive log)]
    (h : (readWithLimits (.copying (listedFile empty)) {} false (listedFile empty)).holds
      (fun archive =>
        let run := (listedDecoder empty archive).forEachEntries readAllEntries {}
        decide (run.1 = .ok true ∧ (∀ visit ∈ run.2.visits, visit.Drained) ∧
          (∀ visit ∈ run.2.visits, visit.Continues) ∧
          run.2.visits.flatMap Visit.blockAnswers = answers ∧ P archive run.2)) = true) :
    ∃ archive log, DrainedRun empty answers archive log ∧ P archive log := by
  obtain ⟨archive, haccepted, hcheck⟩ := Result.exists_of_holds h
  obtain ⟨hok, hdrained, hcontinues, hanswers, hP⟩ := of_decide_eq_true hcheck
  exact ⟨archive, _, ⟨haccepted, Prod.ext hok rfl, hdrained, hcontinues, hanswers⟩, hP⟩

theorem directoryLast_slices : ∃ archive log,
    DrainedRun 0x20 [(1, .ok [0x41]), (1, .ok [0x42])] archive log ∧
      archive.HandsOutSlices 0 [0x41, 0x42] log.visits ∧ archive.HandsOutAll 0 log.visits := by
  obtain ⟨archive, log, hrun, hown, hfits, hsizes⟩ : ∃ archive log,
      DrainedRun 0x20 [(1, .ok [0x41]), (1, .ok [0x42])] archive log ∧
        (∀ i ∈ List.range archive.files.length, archive.isStreamed i = true →
          (i ∈ archive.blockRange 0 ↔ archive.blockOf i = some 0)) ∧
        archive.streamedBytes (archive.blockRange 0) ≤ 2 ∧
        ∀ file ∈ archive.files, file.size.toNat < 2 ^ 63 :=
    DrainedRun.of_holds (by decide +kernel)
  have hplace : (listedDecoder 0x20 archive).InPlace [0x41, 0x42] := by
    refine ⟨fun i hstream => ?_, hfits, fun i _ file hfile hspends => ?_⟩
    · exact hown i (List.mem_range.mpr (Archive.lt_of_isStreamed hstream)) hstream
    · exact hspends.2.2.2.2 (hsizes file (List.mem_of_getElem? hfile))
  have hcontent : Delivery (fun _ => True) [0x41, 0x42] none
      (log.visits.flatMap Visit.blockReads) := by
    rw [flatMap_blockReads hrun.answers]
    exact .cons (@Answers.piece _ _ _ [0x41] [0x42] _ (by simp) (by simp))
      (.cons (@Answers.piece _ _ _ [0x42] [] _ (by simp) (by simp)) .nil)
  exact ⟨archive, log, hrun, ((forEachEntries_slices (d := listedDecoder 0x20 archive)
    hrun.accepted hrun.run rfl hrun.drained hcontent).2 true rfl hrun.continues).mpr hplace⟩

/-- Listed between the files, the directory takes the place of the second one, which is an
entry of the block and is never handed out. -/
theorem directoryBetween_skips : ∃ archive log,
    DrainedRun 0x40 [(1, .ok [0x41])] archive log ∧
      Delivery (fun _ => True) [0x41, 0x42] none (log.visits.flatMap Visit.blockReads) ∧
      (archive.streamedEntries 0)[1]? = some 2 ∧ ¬ archive.HandsOutAll 0 log.visits := by
  obtain ⟨archive, log, hrun, hentry, hvisited⟩ : ∃ archive log,
      DrainedRun 0x40 [(1, .ok [0x41])] archive log ∧
        (archive.streamedEntries 0)[1]? = some 2 ∧ 2 ∉ visitedFiles log.visits :=
    DrainedRun.of_holds (by decide +kernel)
  refine ⟨archive, log, hrun, ?_, hentry, fun hall => ?_⟩
  · rw [flatMap_blockReads hrun.answers]
    exact .cons (@Answers.piece _ _ _ [0x41] [0x42] _ (by simp) (by simp)) .nil
  · exact hvisited (hall 2 (List.mem_of_getElem? hentry))

end Sevenz
