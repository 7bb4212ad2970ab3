import Sevenz.Reader.SubStreamHook

/-!
# The block hook

`set_block_complete_hook` is told of every block that the closure let run to the end.
Whether the block has been decoded by then, and checked, is up to the closure and to what
the block's header records.
-/

namespace Sevenz

open Lib

/-- The visit read its entry to the end without a failure, of a stream that had all of it. -/
structure Visit.ReadsThrough (visit : Visit) : Prop where
  readToEnd : ReadToEnd visit.records
  succeeds : ∀ record ∈ visit.records, ∀ e, record.result ≠ .error e
  unbroken : Unbroken visit.blockReads

theorem Visit.ReadsThrough.unrefused {visit : Visit} (h : visit.ReadsThrough) :
    Unrefused visit.records :=
  fun record hrecord => h.succeeds record hrecord _

def Visit.Decodes (visit : Visit) (file : ArchiveEntry) : Prop :=
  (delivered visit.blockReads).length = file.size.toNat ∧
    ∀ read ∈ visit.blockReads, ∀ e, read.result ≠ .error e

def BlockState.BlockCompared (st : BlockState) : Prop :=
  ∃ crc, st.chain.inner.1.bind CrcState.report = some crc

namespace OpenBlock

variable (d : OpenBlock)

def Counts (file : ArchiveEntry) : Prop :=
  d.entryCheck file ≠ none → file.size.toNat < 2 ^ 63

def ChainRead (st : BlockState) : Prop :=
  Trace (d.stack.read d.codecs) d.stack.start st.chain.reads st.chain.inner

theorem streamVisit_decodes {each : Callback} {i : Nat} {file : ArchiveEntry} {st : BlockState}
    (hbytes : file.HasBytes) (hcounts : d.Counts file)
    (hreads : (d.streamVisit each i file st).ReadsThrough) :
    (d.streamVisit each i file st).Decodes file ∧
      (d.afterCall each i file st).chain.reads =
        st.chain.reads ++ (d.streamVisit each i file st).blockReads := by
  have hunrefused := hreads.unrefused
  obtain ⟨hend, hsucceeds, hunbroken⟩ := hreads
  rcases hcall : d.callStream each i file st with ⟨answer, records, check, remain, chain⟩
  obtain ⟨htrace, hvisit⟩ := d.callStream_trace hcall
  have hafter : (d.afterCall each i file st).chain = chain := by
    rw [afterCall, hcall]
  rw [hvisit] at hend hsucceeds hunbroken hunrefused ⊢
  obtain ⟨reads, happend, -, hcount, herrors⟩ :=
    trace_entryRead (d.stack.read_honest d.codecs) htrace
  have hnew : chain.reads.drop st.chain.reads.length = reads := by
    rw [happend, List.drop_left]
  dsimp only at hend hsucceeds hunbroken hunrefused ⊢
  rw [hnew] at hunbroken
  have hdone : remain = 0 := by
    cases hcheck : d.entryCheck file with
    | none =>
        rw [hcheck] at htrace
        obtain ⟨reads', happend', -, -, hiff⟩ := boundedRead_trace (d.stack.read_honest d.codecs)
          (trace_maybeCrcRead_none htrace).2 hend
        obtain rfl := List.append_cancel_left (happend.symm.trans happend')
        exact hiff.mpr hunbroken
    | some st₀ =>
        have hsized := hcounts (by simp [hcheck])
        have hnewState : st₀ = CrcState.new file.size file.crc := by
          unfold entryCheck at hcheck
          split at hcheck
          · cases hcheck
            rfl
          · cases hcheck
        rw [hcheck, hnewState] at htrace
        obtain ⟨st', -, hcrc⟩ := trace_maybeCrcRead_some htrace
        obtain ⟨-, reads', happend', hiff⟩ := crcRead_trace (d.stack.read_honest d.codecs) hcrc
          (crcProgress_new (UInt64.lt_iff_toNat_lt.mp hbytes.2) hsized) hend hunrefused
        obtain rfl := List.append_cancel_left (happend.symm.trans happend')
        exact hiff.mpr hunbroken
  refine ⟨⟨?_, fun read hread e he => ?_⟩, ?_⟩
  · dsimp only
    rw [hnew]
    omega
  · dsimp only at hread
    rw [hnew] at hread
    obtain ⟨record, hrecord, heq⟩ := herrors read hread e he
    exact hsucceeds record hrecord e heq
  · rw [hafter, hnew, happend]

theorem visitEntry_chainRead {each : Callback} {i : Nat} {file : ArchiveEntry}
    {st st' : BlockState} {g : Bool} (h : d.visitEntry each i file st = (.ok g, st'))
    (hchain : d.ChainRead st) : d.ChainRead st' := by
  by_cases hbytes : file.HasBytes
  · rw [visitEntry, if_pos hbytes] at h
    obtain ⟨report, -, hfinish⟩ := d.visitStream_eq_ok h
    rcases hcall : d.callStream each i file st with ⟨answer, records, check, remain, chain⟩
    obtain ⟨reads, happend, htrace, -⟩ :=
      trace_entryRead (d.stack.read_honest d.codecs) (d.callStream_trace hcall).1
    have hafter : (d.afterCall each i file st).chain = chain := by
      rw [afterCall, hcall]
    rw [ChainRead, (d.finishEntry_eq_ok hfinish).1, hafter, happend]
    exact hchain.append htrace
  · rw [visitEntry, if_neg hbytes] at h
    obtain ⟨-, rfl⟩ := Prod.mk.inj h
    exact hchain

theorem walkEntries_continues {each : Callback} {files : List Nat} {st st' : BlockState}
    {visits : List Visit} (h : d.walkEntries each files st = (.ok true, st'))
    (happend : st'.log.visits = st.log.visits ++ visits) : ∀ visit ∈ visits, visit.Continues := by
  induction files generalizing st visits with
  | nil =>
      cases h
      rw [List.self_eq_append_right.mp happend]
      simp
  | cons i files ih =>
      obtain ⟨file, g₁, st₁, hfile, hstep, ⟨rfl, h⟩ | ⟨rfl, hfalse, -⟩⟩ := d.walkEntries_cons h
      · have hadded := d.visitEntry_visits each i file st
        rw [hstep] at hadded
        obtain ⟨more, hmore, -⟩ := d.walkEntries_addsVisits h
        obtain rfl : visits = d.entryVisit each i file st :: more := by
          rw [hmore, hadded, List.append_assoc] at happend
          exact (List.append_cancel_left happend).symm
        refine List.forall_mem_cons.mpr ⟨?_, ih h hmore⟩
        exact d.visitEntry_answer (by rw [hstep])
      · cases hfalse

/-- The block's stream has been read, never with a failure, as far as the walk has come. -/
structure ReadUpTo (bytes : Nat) (st : BlockState) : Prop where
  chain : d.ChainRead st
  succeeds : ∀ read ∈ st.chain.reads, ∀ e, read.result ≠ .error e
  delivered : (delivered st.chain.reads).length = bytes

theorem visitEntry_readUpTo {each : Callback} {i bytes : Nat} {file : ArchiveEntry}
    {st st' : BlockState} {g : Bool} (h : d.visitEntry each i file st = (.ok g, st'))
    (hcounts : d.Counts file) (hreads : (d.entryVisit each i file st).ReadsThrough)
    (hst : d.ReadUpTo bytes st) :
    d.ReadUpTo (bytes + if file.HasBytes then file.size.toNat else 0) st' ∧
      (file.HasBytes → (d.entryVisit each i file st).Decodes file) := by
  have hchain := d.visitEntry_chainRead h hst.chain
  by_cases hbytes : file.HasBytes
  · rw [entryVisit, if_pos hbytes] at hreads
    simp only [entryVisit, if_pos hbytes]
    rw [visitEntry, if_pos hbytes] at h
    obtain ⟨report, -, hfinish⟩ := d.visitStream_eq_ok h
    obtain ⟨⟨hlength, hsucceeds⟩, hafter⟩ := d.streamVisit_decodes hbytes hcounts hreads
    rw [← (d.finishEntry_eq_ok hfinish).1] at hafter
    refine ⟨⟨hchain, ?_, ?_⟩, fun _ => ⟨hlength, hsucceeds⟩⟩
    · rw [hafter]
      exact List.forall_mem_append.mpr ⟨hst.succeeds, hsucceeds⟩
    · rw [hafter, delivered_append, List.length_append, hst.delivered, hlength]
  · rw [visitEntry, if_neg hbytes] at h
    obtain ⟨-, rfl⟩ := Prod.mk.inj h
    rw [if_neg hbytes]
    exact ⟨⟨hchain, hst.succeeds, hst.delivered⟩, fun hbytes' => absurd hbytes' hbytes⟩

theorem walkEntries_readUpTo {each : Callback} {files : List Nat} {bytes : Nat}
    {st st' : BlockState} {visits : List Visit}
    (h : d.walkEntries each files st = (.ok true, st'))
    (happend : st'.log.visits = st.log.visits ++ visits)
    (hvisits : ∀ visit ∈ visits, visit.ReadsThrough)
    (hcounts : ∀ i ∈ files, ∀ file, d.archive.files[i]? = some file → d.Counts file)
    (hst : d.ReadUpTo bytes st) :
    d.ReadUpTo (bytes + d.archive.streamedBytes files) st' ∧
      ∀ i ∈ files, ∀ file, d.archive.files[i]? = some file → file.HasBytes →
        ∃ visit ∈ visits, visit.blockIndex = some d.blockIndex ∧ visit.fileIndex = i ∧
          visit.Decodes file := by
  induction files generalizing st bytes visits with
  | nil =>
      cases h
      exact ⟨hst, by simp⟩
  | cons i files ih =>
      obtain ⟨file, g₁, st₁, hfile, hstep, ⟨rfl, h⟩ | ⟨rfl, hfalse, -⟩⟩ := d.walkEntries_cons h
      · have hadded := d.visitEntry_visits each i file st
        rw [hstep] at hadded
        obtain ⟨more, hmore, -⟩ := d.walkEntries_addsVisits h
        obtain rfl : visits = d.entryVisit each i file st :: more := by
          rw [hmore, hadded, List.append_assoc] at happend
          exact (List.append_cancel_left happend).symm
        obtain ⟨hreads, hvisits⟩ := List.forall_mem_cons.mp hvisits
        obtain ⟨hcount, hcounts⟩ := List.forall_mem_cons.mp hcounts
        obtain ⟨hst₁, hdecodes⟩ := d.visitEntry_readUpTo hstep (hcount file hfile) hreads hst
        obtain ⟨hst', hrest⟩ := ih h hmore hvisits hcounts hst₁
        rw [streamedBytes_cons hfile, ← Nat.add_assoc]
        refine ⟨hst', List.forall_mem_cons.mpr ⟨fun file' hfile' hbytes => ?_, ?_⟩⟩
        · cases hfile.symm.trans hfile'
          exact ⟨_, List.mem_cons_self, d.entryVisit_blockIndex each i file st,
            d.entryVisit_fileIndex each i file st, hdecodes hbytes⟩
        · intro j hj file' hfile' hbytes
          obtain ⟨visit, hvisit, hsame⟩ := hrest j hj file' hfile' hbytes
          exact ⟨visit, List.mem_cons_of_mem _ hvisit, hsame⟩
      · cases hfalse

def ChecksBlock (files : List Nat) : Prop :=
  ∃ size crc, d.stack.check = some (size, crc) ∧ 0 < size.toNat ∧ size.toNat < 2 ^ 63 ∧
    size.toNat ≤ d.archive.streamedBytes files

theorem blockCompared_of_readUpTo {files : List Nat} {st : BlockState}
    (hchecks : d.ChecksBlock files) (hst : d.ReadUpTo (d.archive.streamedBytes files) st) :
    st.BlockCompared := by
  obtain ⟨size, crc, hcheck, hpos, hsized, hle⟩ := hchecks
  have htrace := hst.chain
  rw [ChainRead, DecodeStack.start, hcheck] at htrace
  obtain ⟨st', hsome, hcrc⟩ := trace_maybeCrcRead_some htrace
  have hunrefused : Unrefused st.chain.reads := fun read hread => hst.succeeds read hread _
  have hremaining : (CrcState.new size crc).remaining = size.toNat := if_pos hsized
  have hnew : (CrcState.new size crc).Settled crc :=
    ⟨rfl, fun _ => rfl, fun hdone => by rw [hremaining] at hdone; omega⟩
  have hcount := crcRead_remaining hcrc hunrefused
  rw [hst.delivered, hremaining] at hcount
  obtain ⟨crc', hreport, -⟩ := (hnew.trace hcrc hunrefused).reported (by omega)
  exact ⟨crc', by rw [hsome]; exact hreport⟩

def FoldedCompared (st : BlockState) : Prop :=
  d.folding = true ∧ d.block.hasCrc = true ∧ ∃ size crc, d.block.getUnpackSize = .ok size ∧
    d.folded st.chain.reads 0 size.toNat = some crc

theorem visitEntry_blocks (each : Callback) (i : Nat) (file : ArchiveEntry) (st : BlockState) :
    (d.visitEntry each i file st).2.log.blocks = st.log.blocks := by
  unfold visitEntry
  split
  · unfold visitStream
    dsimp only
    split
    · rfl
    · rfl
    · unfold finishEntry
      split <;> rfl
  · rfl

/-- Whether it fails or not, a walk over entries only adds visits, and calls no block hook. -/
theorem walkEntries_extends (each : Callback) (files : List Nat) (st : BlockState) :
    st.log.visits <+: (d.walkEntries each files st).2.log.visits ∧
      (d.walkEntries each files st).2.log.blocks = st.log.blocks := by
  induction files generalizing st with
  | nil => exact ⟨List.prefix_refl _, rfl⟩
  | cons i files ih =>
      unfold walkEntries
      split
      · exact ⟨List.prefix_refl _, rfl⟩
      · rename_i file hfile
        have hvisits := d.visitEntry_visits each i file st
        have hblocks := d.visitEntry_blocks each i file st
        split
        · rename_i st₁ hstep
          rw [hstep] at hvisits hblocks
          obtain ⟨hinitial, hsame⟩ := ih st₁
          exact ⟨(hvisits ▸ List.prefix_append _ _).trans hinitial, hsame.trans hblocks⟩
        · rename_i answer st₁ _ hstep
          rw [hstep] at hvisits hblocks
          exact ⟨hvisits ▸ List.prefix_append _ _, hblocks⟩

end OpenBlock

theorem forEachEntries_extends (d : BlockDecoder) (each : Callback) (log : WalkLog) :
    log.visits <+: (d.forEachEntries each log).2.visits ∧
      (d.forEachEntries each log).2.blocks = log.blocks := by
  unfold BlockDecoder.forEachEntries
  split
  · exact ⟨List.prefix_refl _, rfl⟩
  · rename_i opened _
    have := opened.walkEntries_extends each
      (List.range' opened.start opened.block.numUnpackSubStreams) (opened.initial log)
    unfold OpenBlock.walk
    split
    · rename_i st hwalk
      rwa [hwalk] at this
    · rename_i answer st _ hwalk
      rwa [hwalk] at this

theorem forEachEntries_eq_ok_true {d : BlockDecoder} {each : Callback} {log log' : WalkLog}
    (h : d.forEachEntries each log = (.ok true, log')) :
    ∃ opened st', d.openBlock = .ok opened ∧ opened.toBlockDecoder = d ∧
      opened.walkEntries each (d.archive.blockRange d.blockIndex) (opened.initial log) =
        (.ok true, st') ∧ st'.log = log' := by
  obtain ⟨opened, st', g, hopen, hsame, hwalk, hlog⟩ := forEachEntries_eq_ok h
  refine ⟨opened, st', hopen, hsame, ?_, hlog⟩
  cases g with
  | true => exact hwalk
  | false =>
      exfalso
      obtain ⟨-, hblock, hstart, -, -⟩ := openBlock_eq_ok hopen
      rw [Archive.blockRange, subStreamsOf_eq hblock, StreamMap.firstFile,
        List.getD_eq_getElem?_getD, hstart] at hwalk
      rw [BlockDecoder.forEachEntries, hopen] at h
      dsimp only at h
      unfold OpenBlock.walk at h
      dsimp only [Option.getD_some] at hwalk
      rw [hwalk] at h
      cases h

theorem eq_range_of_range_eq_append {n b : Nat} {before after : List Nat}
    (h : List.range n = before ++ b :: after) : before = List.range b := by
  have hlength : before.length < n := by
    have := congrArg List.length h
    rw [List.length_range, List.length_append, List.length_cons] at this
    omega
  have hb : b = before.length := by
    have hget := congrArg (fun xs => xs[before.length]?) h
    simpa [hlength] using hget.symm
  have htake := congrArg (List.take before.length) h
  rw [List.take_range, List.take_left, Nat.min_eq_left hlength.le] at htake
  rw [← htake, hb]

namespace ArchiveReader

variable (r : ArchiveReader)

def Owns (b i : Nat) (file : ArchiveEntry) : Prop :=
  r.archive.files[i]? = some file ∧ r.archive.streamMap.fileBlockIndex[i]? = some (some b) ∧
    file.HasBytes

def DecodedInFull (b : Nat) (visits : List Visit) : Prop :=
  ∀ i file, r.Owns b i file →
    ∃ visit ∈ visits, visit.blockIndex = some b ∧ visit.fileIndex = i ∧ visit.Decodes file

/-- In the walk of the block that led from one log to another, a checksum of the block's
bytes was compared: its own, or one for each of its entries. -/
def CrcCompared (each : Callback) (b : Nat) (log log' : WalkLog) : Prop :=
  (∃ opened st, (r.blockDecoder b).openBlock = .ok opened ∧
    opened.walkEntries each (r.archive.blockRange b) (opened.initial log) = (.ok true, st) ∧
    st.log = log' ∧ (st.BlockCompared ∨ opened.FoldedCompared st)) ∨
  ((∃ i file, r.Owns b i file) ∧ ∃ completions, log'.subStreams = log.subStreams ++ completions ∧
    ∀ i file, r.Owns b i file → file.hasCrc = true ∧
      ∃ completion ∈ completions, completion.blockIndex = b ∧ completion.fileIndex = i)

/-- The run that left `log` came to the block with `log₀`, its walk of the block ran to the end and
left `log₁`, and the next call of the block hook was this one. -/
structure Finishes (each : Callback) (log : WalkLog) (completion : BlockCompletion)
    (log₀ log₁ : WalkLog) : Prop where
  before : r.walkBlocks each (List.range completion.blockIndex) {} = (.ok (), log₀)
  walk : (r.blockDecoder completion.blockIndex).forEachEntries each log₀ = (.ok true, log₁)
  visits : log₁.visits <+: log.visits
  next : log₁.blocks ++ [completion] <+: log.blocks

/-- By the time of the call the run had decoded all of the block in its walk of it, and what the
hook was told of the checksum is so. -/
def Truthful (each : Callback) (log : WalkLog) (completion : BlockCompletion) : Prop :=
  ∃ log₀ log₁, r.Finishes each log completion log₀ log₁ ∧
    (∃ visits, log₁.visits = log₀.visits ++ visits ∧
      r.DecodedInFull completion.blockIndex visits) ∧
    (completion.crcVerified = true → r.CrcCompared each completion.blockIndex log₀ log₁)

def RecordsCrcs (b : Nat) : Prop :=
  (∃ block, r.archive.blocks[b]? = some block ∧ block.hasCrc = true) ∨
    (r.archive.blockSubStreamCrcs b ≠ [] ∧ ∀ crc ∈ r.archive.blockSubStreamCrcs b, crc ≠ none)

/-- A walk of the block that reads its entries through compares a checksum of its bytes. -/
def ChecksCrcs (b : Nat) : Prop :=
  (∃ opened, (r.blockDecoder b).openBlock = .ok opened ∧
    opened.ChecksBlock (r.archive.blockRange b)) ∨
  (r.verifyChecksums = true ∧ (∃ i file, r.Owns b i file) ∧
    ∀ i file, r.Owns b i file → file.hasCrc = true ∧ r.Reports b file)

/-- What makes the block hook truthful, the closure apart: a block's entries are among those
its walk visits, their sizes are ones the verifying readers can count, the workers' pieces fit
them, and where checksums are recorded some are compared. -/
structure CompletesTruly : Prop where
  placed : ∀ b i file, r.Owns b i file → i ∈ r.archive.blockRange b
  counted : ∀ b opened, (r.blockDecoder b).openBlock = .ok opened →
    ∀ i ∈ r.archive.blockRange b, ∀ file, r.archive.files[i]? = some file → opened.Counts file
  folded : ∀ b, (r.blockDecoder b).PiecesFit
  checked : ∀ b, r.RecordsCrcs b → r.ChecksCrcs b

theorem completeBlock_eq_ok {b : Nat} {finished : Bool} {log log' : WalkLog}
    (h : r.completeBlock b finished log = .ok log') :
    log'.visits = log.visits ∧
      (log'.blocks = log.blocks ∨ ∃ completion, finished = true ∧
        log'.blocks = log.blocks ++ [completion] ∧ completion.blockIndex = b ∧
        (completion.crcVerified = true → r.RecordsCrcs b)) := by
  refine ⟨r.completeBlock_visits h, ?_⟩
  unfold completeBlock at h
  split at h
  · rename_i hfinished
    obtain ⟨block, hblock, h⟩ := Result.bind_eq_ok.mp h
    obtain ⟨size, -, h⟩ := Result.bind_eq_ok.mp h
    cases Result.pure_eq_ok.mp h
    refine Or.inr ⟨_, hfinished, rfl, rfl, fun hverified => ?_⟩
    rcases Bool.or_eq_true_iff.mp hverified with hcrc | hcrcs
    · exact Or.inl ⟨block, Result.index_eq_ok.mp hblock, hcrc⟩
    · obtain ⟨hsome, hall⟩ := Bool.and_eq_true_iff.mp hcrcs
      refine Or.inr ⟨by simpa using hsome, fun crc hcrc hnone => ?_⟩
      have := List.all_eq_true.mp hall crc hcrc
      rw [hnone] at this
      cases this
  · cases Result.pure_eq_ok.mp h
    exact Or.inl rfl

theorem walkBlocks_completed (each : Callback) (blocks : List Nat) (log : WalkLog) :
    log.visits <+: (r.walkBlocks each blocks log).2.visits ∧
      log.blocks <+: (r.walkBlocks each blocks log).2.blocks ∧
      ∀ completion ∈ (r.walkBlocks each blocks log).2.blocks, completion ∈ log.blocks ∨
        ∃ before after log₀ log₁, blocks = before ++ completion.blockIndex :: after ∧
          r.walkBlocks each before log = (.ok (), log₀) ∧
          (r.blockDecoder completion.blockIndex).forEachEntries each log₀ = (.ok true, log₁) ∧
          log₁.visits <+: (r.walkBlocks each blocks log).2.visits ∧
          log₁.blocks ++ [completion] <+: (r.walkBlocks each blocks log).2.blocks ∧
          (completion.crcVerified = true → r.RecordsCrcs completion.blockIndex) := by
  induction blocks generalizing log with
  | nil => exact ⟨List.prefix_refl _, List.prefix_refl _, fun completion h => Or.inl h⟩
  | cons b blocks ih =>
      obtain ⟨hinitial, hblocks⟩ := forEachEntries_extends (r.blockDecoder b) each log
      rw [walkBlocks]
      split
      · rename_i e log₁ hwalk
        rw [hwalk] at hinitial hblocks
        exact ⟨hinitial, hblocks ▸ List.prefix_refl _, fun completion h => Or.inl (hblocks ▸ h)⟩
      · rename_i finished log₁ hwalk
        rw [hwalk] at hinitial hblocks
        split
        · exact ⟨hinitial, hblocks ▸ List.prefix_refl _, fun completion h => Or.inl (hblocks ▸ h)⟩
        · rename_i log₂ hcomplete
          obtain ⟨hsame, hadded⟩ := r.completeBlock_eq_ok hcomplete
          obtain ⟨hinitial', hbefore, hcompleted⟩ := ih log₂
          rw [hsame] at hinitial'
          have hkept : log₁.blocks <+: log₂.blocks := by
            rcases hadded with hnone | ⟨completion, -, hnew, -⟩
            · rw [hnone]
            · rw [hnew]
              exact List.prefix_append _ _
          refine ⟨hinitial.trans hinitial', hblocks ▸ hkept.trans hbefore, fun completion h => ?_⟩
          rcases hcompleted completion h with hold | ⟨before, after, log₀, log', rfl, hrun, hlater⟩
          · rcases hadded with hnone | ⟨completion', rfl, hnew, hindex, hrecords⟩
            · exact Or.inl (hblocks ▸ hnone ▸ hold)
            · rw [hnew, hblocks] at hold
              refine (List.mem_append.mp hold).imp_right fun hlast => ?_
              obtain rfl := List.mem_singleton.mp hlast
              rw [hindex]
              exact ⟨[], blocks, log, log₁, rfl, rfl, hwalk, hinitial', hnew ▸ hbefore, hrecords⟩
          · refine Or.inr ⟨b :: before, after, log₀, log', rfl, ?_, hlater⟩
            rw [walkBlocks, hwalk]
            dsimp only
            rw [hcomplete]
            exact hrun

theorem walkEmptyFiles_extends (each : Callback) (files : List Nat) (log : WalkLog) :
    log.visits <+: (r.walkEmptyFiles each files log).2.visits ∧
      (r.walkEmptyFiles each files log).2.blocks = log.blocks := by
  induction files generalizing log with
  | nil => exact ⟨List.prefix_refl _, rfl⟩
  | cons i files ih =>
      unfold walkEmptyFiles
      split
      · rename_i file hblock hfile
        have hvisits : log.visits <+: (visitEmpty each none i file log).2.visits :=
          List.prefix_append _ _
        have hblocks : (visitEmpty each none i file log).2.blocks = log.blocks := rfl
        split
        · rename_i log₁ hstep
          rw [hstep] at hvisits hblocks
          obtain ⟨hinitial, hsame⟩ := ih log₁
          exact ⟨hvisits.trans hinitial, hsame.trans hblocks⟩
        · rename_i log₁ hstep
          rw [hstep] at hvisits hblocks
          exact ⟨hvisits, hblocks⟩
        · rename_i e log₁ hstep
          rw [hstep] at hvisits hblocks
          exact ⟨hvisits, hblocks⟩
      · exact ih log
      · exact ⟨List.prefix_refl _, rfl⟩

/-- Whether a walk fails or not, the block hook was only called right after walks of blocks that
ran to their end. -/
theorem forEachEntries_completed (each : Callback) :
    ∀ completion ∈ (r.forEachEntries each).2.blocks, ∃ log₀ log₁,
      r.Finishes each (r.forEachEntries each).2 completion log₀ log₁ ∧
        (completion.crcVerified = true → r.RecordsCrcs completion.blockIndex) := by
  obtain ⟨-, -, hcompleted⟩ :=
    r.walkBlocks_completed each (List.range r.archive.blocks.length) {}
  have hfinishes : ∀ completion ∈
      (r.walkBlocks each (List.range r.archive.blocks.length) {}).2.blocks, ∃ log₀ log₁,
        r.Finishes each (r.walkBlocks each (List.range r.archive.blocks.length) {}).2 completion
            log₀ log₁ ∧
          (completion.crcVerified = true → r.RecordsCrcs completion.blockIndex) := by
    intro completion h
    obtain ⟨before, after, log₀, log₁, hsplit, hrun, hwalk, hvisits, hnext, hrecords⟩ :=
      (hcompleted completion h).resolve_left List.not_mem_nil
    exact ⟨log₀, log₁, ⟨eq_range_of_range_eq_append hsplit ▸ hrun, hwalk, hvisits, hnext⟩, hrecords⟩
  unfold forEachEntries
  split
  · rename_i e log hblocks
    rwa [hblocks] at hfinishes
  · rename_i log hblocks
    rw [hblocks] at hfinishes
    obtain ⟨hinitial, hsame⟩ :=
      r.walkEmptyFiles_extends each (List.range r.archive.files.length) log
    intro completion h
    rw [hsame] at h
    obtain ⟨log₀, log₁, ⟨hrun, hwalk, hvisits, hnext⟩, hrecords⟩ := hfinishes completion h
    exact ⟨log₀, log₁, ⟨hrun, hwalk, hvisits.trans hinitial, hsame ▸ hnext⟩, hrecords⟩

variable {r}

/-- A walk of a block that ran to its end and read each entry through has decoded the whole
block, and compared its checksum where it is to. -/
theorem completed_truthful (hfold : r.codecs.FoldsPieces) (htruly : r.CompletesTruly)
    {each : Callback} {b : Nat} {log log' : WalkLog}
    (h : (r.blockDecoder b).forEachEntries each log = (.ok true, log'))
    (hsteps : ∀ visit ∈ log'.visits, visit.Continues → visit.ReadsThrough) :
    (∃ visits, log'.visits = log.visits ++ visits ∧ r.DecodedInFull b visits) ∧
      (r.RecordsCrcs b → r.CrcCompared each b log log') := by
  obtain ⟨opened, st', hopen, hsame, hwalk, hlog⟩ := forEachEntries_eq_ok_true h
  obtain ⟨visits, happend, -⟩ := opened.walkEntries_appends hwalk
  have hcontinues := opened.walkEntries_continues hwalk happend
  have hnew : visits ⊆ log'.visits := by
    rw [← hlog, happend]
    exact List.subset_append_right _ _
  have hreads : ∀ visit ∈ visits, visit.ReadsThrough := fun visit hvisit =>
    hsteps visit (hnew hvisit) (hcontinues visit hvisit)
  have harchive : opened.archive = r.archive := congrArg BlockDecoder.archive hsame
  have hindex : opened.blockIndex = b := congrArg BlockDecoder.blockIndex hsame
  have hstart : opened.ReadUpTo 0 (opened.initial log) := ⟨.nil, by simp [OpenBlock.initial], rfl⟩
  obtain ⟨hupTo, hdecoded⟩ := opened.walkEntries_readUpTo hwalk happend hreads
    (fun i hi file hfile => htruly.counted b opened hopen i hi file (harchive ▸ hfile)) hstart
  rw [Nat.zero_add] at hupTo
  constructor
  · refine ⟨visits, hlog ▸ happend, ?_⟩
    rintro i file ⟨hfile, hblock, hbytes⟩
    obtain ⟨visit, hvisit, hb, hi, hdecodes⟩ := hdecoded i
      (htruly.placed b i file ⟨hfile, hblock, hbytes⟩) file (harchive.symm ▸ hfile) hbytes
    exact ⟨visit, hvisit, hindex ▸ hb, hi, hdecodes⟩
  · intro hrecords
    rcases htruly.checked b hrecords with ⟨opened', hopen', hchecks⟩ | ⟨hverify, hsome, hall⟩
    · cases hopen.symm.trans hopen'
      exact Or.inl ⟨opened, st', hopen, hwalk, hlog,
        Or.inl (opened.blockCompared_of_readUpTo hchecks hupTo)⟩
    · have hfit := htruly.folded b
      obtain ⟨completions, hcompletions, hcompletes⟩ := r.forEachEntries_completes hverify
        (r.folderAnswers_of_piecesFit hfold hfit)
        (fun hfolds => by
          obtain ⟨opened', hopen', hfolding⟩ := hfolds
          exact (hfit opened' hopen' hfolding).1)
        h (hlog ▸ happend) fun visit hvisit =>
          ⟨⟨hcontinues visit hvisit, (hreads visit hvisit).readToEnd,
            (hreads visit hvisit).unrefused⟩, (hreads visit hvisit).unbroken⟩
      refine Or.inr ⟨hsome, completions, hcompletions, fun i file howns => ?_⟩
      obtain ⟨hcrc, hreports⟩ := hall i file howns
      obtain ⟨completion, hmem, file', crc, -, rfl, -⟩ := (exists_of_mem_forall₂ hcompletes).1 i
        (mem_reportedFiles.mpr ⟨file, howns.1, htruly.placed b i file howns, hreports⟩)
      exact ⟨hcrc, _, hmem, rfl, rfl⟩

end ArchiveReader

/-- In a run in which the closure goes on only after it has read an entry through, of a stream
that had all of it, every call of the block hook is truthful where the archive and the settings
make it so. -/
theorem blockCompletions_truthful {r : ArchiveReader} (hfold : r.codecs.FoldsPieces)
    (htruly : r.CompletesTruly) {each : Callback} {answer : Result Unit} {log : WalkLog}
    (hrun : r.forEachEntries each = (answer, log))
    (hsteps : ∀ visit ∈ log.visits, visit.Continues → visit.ReadsThrough) :
    ∀ completion ∈ log.blocks, r.Truthful each log completion := by
  intro completion hmem
  have hcompleted := r.forEachEntries_completed each
  rw [hrun] at hcompleted
  obtain ⟨log₀, log₁, hfinishes, hrecords⟩ := hcompleted completion hmem
  obtain ⟨hdecoded, hcompared⟩ := ArchiveReader.completed_truthful hfold htruly hfinishes.walk
    fun visit hvisit => hsteps visit (hfinishes.visits.subset hvisit)
  exact ⟨log₀, log₁, hfinishes, hdecoded, fun hverified => hcompared (hrecords hverified)⟩

def skipEntries : Callback := fun _ _ _ => .finish (some (.ok true))

structure OneChecked (archive : Archive) (file : ArchiveEntry) : Prop where
  files : archive.files = [file]
  fileBlock : archive.streamMap.fileBlockIndex = [some 0]
  range : archive.blockRange 0 = [0]
  blocks : archive.blocks.length = 1
  bytes : file.HasBytes
  crc : file.hasCrc = true
  sized : file.size.toNat < 2 ^ 63

theorem OneChecked.owns {archive : Archive} {file : ArchiveEntry} (h : OneChecked archive file)
    {r : ArchiveReader} (hr : r.archive = archive) {b i : Nat} {file' : ArchiveEntry}
    (howns : r.Owns b i file') : b = 0 ∧ i = 0 ∧ file' = file := by
  obtain ⟨hfile, hblock, -⟩ := howns
  rw [hr, h.files] at hfile
  rw [hr, h.fileBlock] at hblock
  cases i with
  | zero =>
      cases hfile
      cases hblock
      exact ⟨rfl, rfl, rfl⟩
  | succ i => cases hfile

theorem OneChecked.completesTruly {archive : Archive} {file : ArchiveEntry}
    (h : OneChecked archive file) {r : ArchiveReader} (hr : r.archive = archive)
    (hverify : r.verifyChecksums = true) (hfolds : ∀ b, ¬ (r.blockDecoder b).Folds) :
    r.CompletesTruly where
  placed b i file' howns := by
    obtain ⟨rfl, rfl, -⟩ := h.owns hr howns
    rw [hr, h.range]
    exact List.mem_singleton.mpr rfl
  counted b opened _ i _ file' hfile _ := by
    rw [hr, h.files] at hfile
    obtain rfl := List.mem_singleton.mp (List.mem_of_getElem? hfile)
    exact h.sized
  folded b opened hopen hfolding := absurd ⟨opened, hopen, hfolding⟩ (hfolds b)
  checked b hrecords := by
    have hb : b < r.archive.blocks.length := by
      by_contra hge
      have hnone := List.getElem?_eq_none (Nat.le_of_not_lt hge)
      rcases hrecords with ⟨block, hblock, -⟩ | ⟨hsome, -⟩
      · rw [hnone] at hblock
        cases hblock
      · rw [Archive.blockSubStreamCrcs, hnone] at hsome
        exact hsome rfl
    rw [hr, h.blocks, Nat.lt_one_iff] at hb
    refine Or.inr ⟨hverify, ⟨0, file, ?_⟩, fun i file' howns => ?_⟩
    · rw [ArchiveReader.Owns, hr, h.files, h.fileBlock, hb]
      exact ⟨rfl, rfl, h.bytes⟩
    · obtain ⟨-, -, rfl⟩ := h.owns hr howns
      exact ⟨h.crc, h.bytes, Or.inr ⟨h.crc, h.sized⟩⟩

theorem checkedFile_walks : ∃ archive file,
    readWithLimits (.copying (checkedFile 2)) {} false (checkedFile 2) = .ok archive ∧
      OneChecked archive file ∧
      (∃ log, (copyingReader (checkedFile 2) archive).forEachEntries readAllEntries =
          (.ok (), log) ∧ log.blocks = [⟨0, 2, true⟩] ∧
        ∀ visit ∈ log.visits, ReadToEnd visit.records ∧ Unbroken visit.blockReads ∧
          visit.records.all fun record => record.result.isOk) ∧
      ∃ log, (copyingReader (checkedFile 2) archive).forEachEntries skipEntries =
          (.ok (), log) ∧ log.blocks = [⟨0, 2, true⟩] ∧
        ∀ visit ∈ log.visits, visit.blockReads.length = 0 := by
  obtain ⟨archive, hread, hcheck⟩ := Result.exists_of_holds
    (show (readWithLimits (.copying (checkedFile 2)) {} false (checkedFile 2)).holds
      (fun archive =>
        let r := copyingReader (checkedFile 2) archive
        let run := r.forEachEntries readAllEntries
        let skip := r.forEachEntries skipEntries
        archive.files.head?.any fun file =>
          run.1.holds (fun _ => true) && skip.1.holds (fun _ => true) &&
            decide ((archive.files = [file] ∧ archive.streamMap.fileBlockIndex = [some 0] ∧
              archive.blockRange 0 = [0] ∧ archive.blocks.length = 1 ∧ file.HasBytes ∧
              file.hasCrc = true ∧ file.size.toNat < 2 ^ 63) ∧
              (run.2.blocks = [⟨0, 2, true⟩] ∧ ∀ visit ∈ run.2.visits, ReadToEnd visit.records ∧
                Unbroken visit.blockReads ∧ visit.records.all fun record => record.result.isOk) ∧
              skip.2.blocks = [⟨0, 2, true⟩] ∧
                ∀ visit ∈ skip.2.visits, visit.blockReads.length = 0)) = true by
      decide +kernel)
  obtain ⟨file, -, hcheck⟩ := (Option.any_eq_true _ _).mp hcheck
  obtain ⟨hok, hrest⟩ := Bool.and_eq_true_iff.mp hcheck
  obtain ⟨hrun, hskip⟩ := Bool.and_eq_true_iff.mp hok
  obtain ⟨_, hrun, -⟩ := Result.exists_of_holds hrun
  obtain ⟨_, hskip, -⟩ := Result.exists_of_holds hskip
  obtain ⟨⟨h₁, h₂, h₃, h₄, h₅, h₆, h₇⟩, hreads, hskips⟩ := of_decide_eq_true hrest
  exact ⟨archive, file, hread, ⟨h₁, h₂, h₃, h₄, h₅, h₆, h₇⟩, ⟨_, Prod.ext hrun rfl, hreads⟩,
    _, Prod.ext hskip rfl, hskips⟩

theorem checkedFile_truthful : ∃ archive log,
    readWithLimits (.copying (checkedFile 2)) {} false (checkedFile 2) = .ok archive ∧
      (copyingReader (checkedFile 2) archive).forEachEntries readAllEntries = (.ok (), log) ∧
      log.blocks = [⟨0, 2, true⟩] ∧ ∀ completion ∈ log.blocks,
        (copyingReader (checkedFile 2) archive).Truthful readAllEntries log completion := by
  obtain ⟨archive, file, hread, hone, ⟨log, hrun, hblocks, hvisits⟩, -⟩ := checkedFile_walks
  have hfolds : ∀ b, ¬ ((copyingReader (checkedFile 2) archive).blockDecoder b).Folds :=
    fun b => not_folds_copying rfl
  refine ⟨archive, log, hread, hrun, hblocks, ?_⟩
  refine blockCompletions_truthful (r := copyingReader (checkedFile 2) archive)
    (Codecs.foldsPieces_of_not_engaged fun _ => rfl) (hone.completesTruly rfl rfl hfolds) hrun
    fun visit hvisit _ => ?_
  obtain ⟨hend, hunbroken, hok⟩ := hvisits visit hvisit
  refine ⟨hend, fun record hrecord e he => ?_, hunbroken⟩
  have := List.all_eq_true.mp hok record hrecord
  rw [he] at this
  cases this

/-- The hook is told that the block was decoded and its checksum compared although nothing of
it was read. -/
theorem checkedFile_untruthful : ∃ archive log,
    readWithLimits (.copying (checkedFile 2)) {} false (checkedFile 2) = .ok archive ∧
      (copyingReader (checkedFile 2) archive).forEachEntries skipEntries = (.ok (), log) ∧
      ∃ completion ∈ log.blocks, completion.crcVerified = true ∧
        ¬ (copyingReader (checkedFile 2) archive).Truthful skipEntries log completion := by
  obtain ⟨archive, file, hread, hone, -, log, hrun, hblocks, hvisits⟩ := checkedFile_walks
  refine ⟨archive, log, hread, hrun, ⟨0, 2, true⟩, by simp [hblocks], rfl, ?_⟩
  rintro ⟨log₀, log₁, hfinishes, ⟨new, hnew, hdecoded⟩, -⟩
  have howns : (copyingReader (checkedFile 2) archive).Owns 0 0 file := by
    refine ⟨?_, ?_, hone.bytes⟩
    · change archive.files[0]? = _
      rw [hone.files]
      rfl
    · change archive.streamMap.fileBlockIndex[0]? = _
      rw [hone.fileBlock]
      rfl
  obtain ⟨visit, hvisit, -, -, hlength, -⟩ := hdecoded 0 file howns
  have hmem : visit ∈ log.visits :=
    hfinishes.visits.subset (hnew ▸ List.mem_append_right _ hvisit)
  rw [List.length_eq_zero_iff.mp (hvisits visit hmem)] at hlength
  exact (UInt64.lt_iff_toNat_lt.mp hone.bytes.2).ne hlength

end Sevenz
