import Sevenz.Reader.Unchecked

/-!
# What a failing walk is put down to

An `io::Error` does not say whether it comes from the source, a codec or a checksum.  What went
wrong is kept here beside the walk, and what the walk reports is compared with it.
-/

namespace Sevenz

open Lib Result

def Error.IsLimit : Error → Prop
  | .limitExceeded _ _ _ | .maxMemLimited _ _ | .memoryLimited _ _ | .endHeaderTooLarge _ _ => True
  | _ => False

def Error.Located (error : Error) : Prop :=
  ∃ b offset kind source, error = .blockDecode b offset kind source

/-- Which failures are those of the source: that of the last of these reads of a stack, and that
of building the stack of a block. -/
structure SourceFaults where
  ofRead : Decoder → List Nat → Bool
  ofOpening : Nat → Bool

inductive Failure where
  | opening (b offset : Nat) (error : Error) (ofSource : Bool)
  | read (b offset : Nat) (ofSource : Bool)
  | checksum (b offset : Nat) (folded : Bool)
  | closure (error : Error) (onStream : Bool)
  deriving DecidableEq

namespace Failure

/-- The error is put down to what went wrong. -/
def Attributed (passwordGiven : Bool) (e : Error) : Failure → Prop
  | opening b offset error ofSource =>
      (error.IsLimit → e = error) ∧ (¬ error.IsLimit →
        ∃ kind source, e = .blockDecode b offset kind source ∧ kind ≠ .checksumMismatch ∧
          (kind = .io → ofSource = true))
  | read b offset ofSource =>
      ∃ kind source, e = .blockDecode b offset kind source ∧ kind ≠ .checksumMismatch ∧
        (kind = .io → ofSource = true) ∧
        (ofSource = false → kind = .corrupted ∨ kind = .password ∧ passwordGiven = true)
  | checksum b offset _ => ∃ source, e = .blockDecode b offset .checksumMismatch source
  | closure error _ => e = error

/-- The failures that the error is enough to tell. -/
def Told (passwordGiven : Bool) : Failure → Prop
  | opening _ _ error ofSource =>
      (error.IsLimit → ∃ what limit requested, error = .limitExceeded what limit requested) ∧
        error.blockKind ≠ .checksumMismatch ∧ (error.blockKind = .io → ofSource = true)
  | read _ _ ofSource => ofSource = true ∨ passwordGiven = true
  | checksum _ _ folded => folded = true
  | closure error onStream =>
      ¬ (onStream = true ∧ passwordGiven = true ∧ ∃ cause, error = .io cause "")

end Failure

def emptyFailure (each : Callback) (blockIndex : Option Nat) (fileIndex : Nat)
    (file : ArchiveEntry) (log : WalkLog) : Option Failure :=
  match (emptyVisit each blockIndex fileIndex file log).answer with
  | some (.error e) => some (.closure e false)
  | _ => none

namespace OpenBlock

variable (d : OpenBlock) (faults : SourceFaults) (each : Callback)

/-- What went wrong in a call on an entry with bytes.  Where the closure returned no error it is
the folded checksum. -/
def callFailure (answer : Option (Except Error Bool)) (records : List (ReadRecord IoError))
    (chain : FaultState (Option CrcState × List Nat)) : Failure :=
  match answer with
  | some (.error e) =>
      if ¬ Unrefused records then .checksum d.blockIndex d.packedOffset false
      else if chain.reads.all fun read => read.result.isOk then .closure e true
      else
        .read d.blockIndex d.packedOffset
          (faults.ofRead d.stack.decoder (chain.reads.map ReadRecord.buf))
  | _ => .checksum d.blockIndex d.packedOffset true

def streamFailure (fileIndex : Nat) (file : ArchiveEntry) (st : BlockState) : Failure :=
  let (answer, records, _, _, chain) := d.callStream each fileIndex file st
  d.callFailure faults answer records chain

def entryFailure (fileIndex : Nat) (file : ArchiveEntry) (st : BlockState) : Option Failure :=
  if file.hasStream ∧ file.size > 0 then some (d.streamFailure faults each fileIndex file st)
  else emptyFailure each (some d.blockIndex) fileIndex file st.log

/-- After the last entry there is only the folded checksum of the block. -/
def failure : List Nat → BlockState → Option Failure
  | [], _ => some (.checksum d.blockIndex d.packedOffset true)
  | fileIndex :: rest, st =>
      match d.archive.files[fileIndex]? with
      | none => none
      | some file =>
          match d.visitEntry each fileIndex file st with
          | (.ok true, st) => failure rest st
          | _ => d.entryFailure faults each fileIndex file st

end OpenBlock

def BlockDecoder.failure (d : BlockDecoder) (faults : SourceFaults) (each : Callback)
    (log : WalkLog) : Option Failure :=
  match d.openBlock with
  | .ok opened =>
      opened.failure faults each (List.range' opened.start opened.block.numUnpackSubStreams)
        (opened.initial log)
  | .error _ =>
      match buildDecodeStack d.codecs d.limits d.archive d.blockIndex with
      | .error (.error e) =>
          some (.opening d.blockIndex
            (((blockPackStreams d.archive d.blockIndex).head?.map (·.offset)).getD 0) e
            (faults.ofOpening d.blockIndex))
      | _ => none

namespace ArchiveReader

variable (r : ArchiveReader) (faults : SourceFaults) (each : Callback)

def blocksFailure : List Nat → WalkLog → Option Failure
  | [], _ => none
  | blockIndex :: rest, log =>
      match (r.blockDecoder blockIndex).forEachEntries each log with
      | (.error _, _) => (r.blockDecoder blockIndex).failure faults each log
      | (.ok finished, log) =>
          match r.completeBlock blockIndex finished log with
          | .error _ => none
          | .ok log => blocksFailure rest log

def emptyFilesFailure : List Nat → WalkLog → Option Failure
  | [], _ => none
  | fileIndex :: rest, log =>
      match r.archive.streamMap.fileBlockIndex[fileIndex]?, r.archive.files[fileIndex]? with
      | some none, some file =>
          match visitEmpty each none fileIndex file log with
          | (.ok true, log) => emptyFilesFailure rest log
          | _ => emptyFailure each none fileIndex file log
      | some (some _), some _ => emptyFilesFailure rest log
      | _, _ => none

/-- What went wrong in a walk that fails. -/
def failure : Option Failure :=
  match r.walkBlocks each (List.range r.archive.blocks.length) {} with
  | (.error _, _) => r.blocksFailure faults each (List.range r.archive.blocks.length) {}
  | (.ok (), log) => r.emptyFilesFailure each (List.range r.archive.files.length) log

end ArchiveReader

/-- The closure passes on the first error of a read, as the `?` operator does.  A read that was
interrupted it may do again. -/
def Callback.PassesOn (each : Callback) : Prop :=
  ∀ visits i file, (each visits i file).PassesOn retryInterrupted fun e => some (.error (.ofIo e))

/-- No error from outside is one that the walk makes itself, and no read is interrupted. -/
structure Codecs.Plain (codecs : Codecs) : Prop extends codecs.Foreign where
  located : ∀ input stage e, codecs.refuses input stage = some e → ¬ e.Located
  uninterrupted : ∀ decoder history buf,
    (codecs.decode decoder).answer history buf ≠ .error .interrupted

/-- An error of the walk comes of a failure, and is put down to it exactly where the failure can be
told. -/
def Explained (passwordGiven : Bool) {α : Type} (result : Result α) (failure : Option Failure) :
    Prop :=
  ∀ e, result = .error (.error e) → ∃ what, failure = some what ∧
    (what.Attributed passwordGiven e ↔ what.Told passwordGiven)

section

variable {τ : Type} {inner : ReadFn IoError τ}

def FaultState.Agrees (fs : FaultState τ) : Prop :=
  fs.faulted = !fs.reads.all fun read => read.result.isOk

/-- No read of the block's stream has failed. -/
def FaultState.Sound (fs : FaultState τ) : Prop := fs.faulted = false ∧ fs.Agrees

theorem FaultState.Sound.allOk {fs : FaultState τ} (h : fs.Sound) :
    (fs.reads.all fun read => read.result.isOk) = true := by
  have hagrees := h.2
  rw [Agrees, h.1] at hagrees
  simpa using hagrees

/-- How a read of an entry and the fault recorded below it hang together. -/
structure FaultStep (inner : ReadFn IoError τ) (fs fs' : FaultState τ)
    (answer : ReadResult IoError) : Prop where
  agrees : fs.Agrees → fs'.Agrees
  keeps : fs.faulted = true → fs'.faulted = true
  told : fs'.faulted = true → fs.faulted = true ∨ ∃ e, answer = .error e
  recorded : ∀ e, answer = .error e → e = .checksumVerificationFailed ∨
    fs'.faulted = true ∧ ∃ buf s, (inner buf s).1 = .error e

theorem FaultStep.refl (inner : ReadFn IoError τ) (fs : FaultState τ) (bytes : List UInt8) :
    FaultStep inner fs fs (.ok bytes) :=
  ⟨id, id, .inl, fun _ h => by cases h⟩

theorem faultRead_step {buf : Nat} {fs fs' : FaultState τ} {answer : ReadResult IoError}
    (h : faultRead inner buf fs = (answer, fs')) : FaultStep inner fs fs' answer := by
  cases h
  refine ⟨fun hagrees => ?_, fun hbefore => ?_, fun hafter => ?_, fun e he => .inr ⟨?_, buf, _, he⟩⟩
  · simp only [FaultState.Agrees, List.all_append, List.all_cons, List.all_nil,
      Bool.and_true, Bool.not_and, show fs.faulted = _ from hagrees]
  · simp only [hbefore, Bool.true_or]
  · simp only [Bool.or_eq_true, Bool.not_eq_true'] at hafter
    refine hafter.imp_right fun hfailed => ?_
    cases hanswer : (inner buf fs.inner).1 with
    | ok bytes =>
        rw [hanswer] at hfailed
        cases hfailed
    | error e => exact ⟨e, rfl⟩
  · simp only [show (inner buf fs.inner).1 = .error e from he]
    exact Bool.or_true _

theorem boundedRead_step (hinner : Honest inner) {buf remain remain' : Nat} {fs fs' : FaultState τ}
    {answer : ReadResult IoError}
    (h : boundedRead (faultRead inner) buf (remain, fs) = (answer, remain', fs')) :
    FaultStep inner fs fs' answer := by
  rcases boundedRead_eq (faultRead_honest hinner) h with ⟨-, rfl, hsame⟩ | ⟨-, hread, -⟩
  · cases hsame
    exact .refl _ _ _
  · exact faultRead_step hread

theorem entryRead_step {crc32 : List UInt8 → UInt32} (hinner : Honest inner) {buf : Nat}
    {check check' : Option CrcState} {remain remain' : Nat} {fs fs' : FaultState τ}
    {answer : ReadResult IoError}
    (h : maybeCrcRead crc32 (boundedRead (faultRead inner)) buf (check, remain, fs) =
      (answer, check', remain', fs')) : FaultStep inner fs fs' answer := by
  rcases maybeCrcRead_eq h with ⟨rfl, hstay⟩ | ⟨below, hbelow, hanswer⟩
  · cases hstay
    exact .refl _ _ _
  · have hstep := boundedRead_step hinner hbelow
    rcases hanswer with rfl | ⟨rfl, bytes, rfl⟩
    · exact hstep
    · refine ⟨hstep.agrees, hstep.keeps, fun _ => .inr ⟨_, rfl⟩, fun e he => .inl ?_⟩
      cases he
      rfl

theorem entryRead_faults {crc32 : List UInt8 → UInt32} (hinner : Honest inner)
    {check check' : Option CrcState} {remain remain' : Nat} {fs fs' : FaultState τ}
    {records : List (ReadRecord IoError)}
    (h : Trace (maybeCrcRead crc32 (boundedRead (faultRead inner))) (check, remain, fs) records
      (check', remain', fs')) :
    (fs.Agrees → fs'.Agrees) ∧ (fs.faulted = true → fs'.faulted = true) ∧
      (fs'.faulted = true → fs.faulted = true ∨ ∃ record ∈ records, ∃ e, record.result = .error e) ∧
      ∀ record ∈ records, ∀ e, record.result = .error e → e = .checksumVerificationFailed ∨
        fs'.faulted = true ∧ ∃ buf s, (inner buf s).1 = .error e := by
  generalize ht : (check, remain, fs) = t at h
  generalize ht' : (check', remain', fs') = t' at h
  induction h generalizing check remain fs with
  | nil =>
      cases ht
      cases ht'
      exact ⟨id, id, .inl, List.forall_mem_nil _⟩
  | @cons t t₁ t' buf answer records hread _ ih =>
      subst ht
      obtain ⟨check₁, remain₁, fs₁⟩ := t₁
      have hstep := entryRead_step hinner hread
      obtain ⟨hagrees, hkeeps, htold, hrecorded⟩ := ih rfl ht'
      refine ⟨fun h => hagrees (hstep.agrees h), fun hbefore => hkeeps (hstep.keeps hbefore),
        fun hafter => ?_, List.forall_mem_cons.mpr ⟨fun e he => ?_, hrecorded⟩⟩
      · rcases htold hafter with hmiddle | ⟨record, hmem, hfailed⟩
        · rcases hstep.told hmiddle with hbefore | ⟨e, he⟩
          · exact .inl hbefore
          · exact .inr ⟨_, List.mem_cons_self, e, he⟩
        · exact .inr ⟨record, List.mem_cons_of_mem _ hmem, hfailed⟩
      · rcases hstep.recorded e he with hchecksum | ⟨hmiddle, hinner'⟩
        · exact .inl hchecksum
        · exact .inr ⟨hkeeps hmiddle, hinner'⟩

end

theorem Codecs.Plain.read_ne_interrupted {codecs : Codecs} (h : codecs.Plain) (stack : DecodeStack)
    (buf : Nat) (s : Option CrcState × List Nat) :
    (stack.read codecs buf s).1 ≠ .error .interrupted := by
  obtain ⟨check, history⟩ := s
  rcases hread : stack.read codecs buf (check, history) with ⟨answer, check', history'⟩
  rcases maybeCrcRead_eq hread with ⟨rfl, -⟩ | ⟨below, hbelow, rfl | ⟨rfl, -⟩⟩
  · simp
  · have hnot := h.uninterrupted stack.decoder history buf
    rintro rfl
    have hmapped := congrArg Prod.fst hbelow
    cases hanswer : (codecs.decode stack.decoder).answer history buf with
    | error e =>
        rw [Stream.read, hanswer] at hmapped
        cases hmapped
        exact hnot hanswer
    | ok bytes =>
        rw [Stream.read, hanswer] at hmapped
        cases hmapped
  · simp

theorem visitEmpty_explained (passwordGiven : Bool) (each : Callback) (blockIndex : Option Nat)
    (i : Nat) (file : ArchiveEntry) (log : WalkLog) :
    Explained passwordGiven (visitEmpty each blockIndex i file log).1
      (emptyFailure each blockIndex i file log) := by
  intro e he
  change answerResult (emptyVisit each blockIndex i file log).answer = _ at he
  unfold emptyFailure
  rcases hanswer : (emptyVisit each blockIndex i file log).answer with _ | e' | goOn
  · rw [hanswer] at he
    cases he
  · rw [hanswer] at he
    cases he
    exact ⟨_, rfl, iff_of_true rfl (by simp [Failure.Told])⟩
  · rw [hanswer] at he
    cases he

theorem Error.maybeBadPasswordIf_eq_self_iff {e : Error} {given : Bool} :
    e.maybeBadPasswordIf given = e ↔ ¬ (given = true ∧ ∃ cause, e = .io cause "") := by
  unfold maybeBadPasswordIf
  split
  · simp
  · rename_i hne
    refine iff_of_true rfl ?_
    rintro ⟨rfl, cause, rfl⟩
    exact hne cause rfl rfl

namespace OpenBlock

variable (d : OpenBlock) (faults : SourceFaults)

theorem attributed_checksum_iff (faulted : Bool) :
    (Failure.checksum d.blockIndex d.packedOffset false).Attributed d.passwordGiven
        (d.locate faulted (.ofIo .checksumVerificationFailed)) ↔
      (Failure.checksum d.blockIndex d.packedOffset false).Told d.passwordGiven := by
  refine iff_of_false ?_ (by simp [Failure.Told])
  rintro ⟨source, h⟩
  revert h
  cases hgiven : d.passwordGiven <;> cases faulted <;>
    simp [locate, hgiven, Error.ofIo, Error.maybeBadPasswordIf, Error.inBlock, Error.blockKind]

theorem attributed_read_iff (ofSource : Bool) (e : IoError) :
    (Failure.read d.blockIndex d.packedOffset ofSource).Attributed d.passwordGiven
        (d.locate true (.ofIo e)) ↔
      (Failure.read d.blockIndex d.packedOffset ofSource).Told d.passwordGiven := by
  cases hgiven : d.passwordGiven <;> cases ofSource <;>
    simp [Failure.Attributed, Failure.Told, locate, hgiven, Error.ofIo, Error.maybeBadPasswordIf,
      Error.inBlock, Error.blockKind]

theorem attributed_closure_iff (e : Error) :
    (Failure.closure e true).Attributed d.passwordGiven (d.locate false e) ↔
      (Failure.closure e true).Told d.passwordGiven := by
  change e.maybeBadPasswordIf d.passwordGiven = e ↔ _
  rw [Error.maybeBadPasswordIf_eq_self_iff]
  simp [Failure.Told]

variable {d} {each : Callback} (hplain : d.codecs.Plain) (hpasses : each.PassesOn)
include hplain hpasses

/-- A call after which nothing has failed, or one that passes on the only read that has. -/
theorem callStream_passes {i : Nat} {file : ArchiveEntry} {st : BlockState}
    {answer : Option (Except Error Bool)} {records : List (ReadRecord IoError)}
    {check : Option CrcState} {remain : Nat} {chain : FaultState (Option CrcState × List Nat)}
    (hcall : d.callStream each i file st = (answer, records, check, remain, chain))
    (hsound : st.chain.Sound) :
    (Unrefused records ∧ chain.Sound) ∨
      ∃ e, answer = some (.error (.ofIo e)) ∧
        (e = .checksumVerificationFailed ∧ ¬ Unrefused records ∨
          Unrefused records ∧ chain.faulted = true ∧ chain.Agrees) := by
  obtain ⟨hagrees, -, htold, hrecorded⟩ :=
    entryRead_faults (d.stack.read_honest d.codecs) (d.callStream_trace hcall).1
  have hretried : ∀ record ∈ records, ∀ e, record.result = .error e →
      retryInterrupted e = false := by
    intro record hmem e he
    rcases hrecorded record hmem e he with rfl | ⟨-, buf, s, hread⟩
    · rfl
    · refine beq_eq_false_iff_ne.mpr ?_
      rintro rfl
      exact hplain.read_ne_interrupted d.stack buf s hread
  rcases (hpasses st.log.visits i file).run hcall hretried with
    hclean | ⟨before, buf, e, rfl, hclean, hanswer⟩
  · refine .inl ⟨fun record hmem => hclean record hmem _,
      Bool.eq_false_iff.mpr fun hafter => ?_, hagrees hsound.2⟩
    rcases htold hafter with hbefore | ⟨record, hmem, e, he⟩
    · exact absurd (hsound.1.symm.trans hbefore) (by decide)
    · exact hclean record hmem e he
  · refine .inr ⟨e, hanswer, ?_⟩
    have hlast : (⟨buf, .error e⟩ : ReadRecord IoError) ∈ before ++ [⟨buf, .error e⟩] :=
      List.mem_append_right _ List.mem_cons_self
    by_cases hchecksum : e = .checksumVerificationFailed
    · subst hchecksum
      exact .inl ⟨rfl, fun hunrefused => hunrefused _ hlast rfl⟩
    · refine .inr ⟨fun record hmem => ?_, ?_⟩
      · rcases List.mem_append.mp hmem with hbefore | hnew
        · exact hclean record hbefore _
        · rw [List.mem_singleton.mp hnew]
          exact fun hsame => hchecksum (Except.error.inj hsame)
      · exact ⟨((hrecorded _ hlast e rfl).resolve_left hchecksum).1, hagrees hsound.2⟩

theorem visitStream_explained {i : Nat} {file : ArchiveEntry} {st : BlockState}
    (hsound : st.chain.Sound) :
    Explained d.passwordGiven (d.visitStream each i file st).1
        (some (d.streamFailure faults each i file st)) ∧
      ((d.visitStream each i file st).1 = .ok true →
        (d.visitStream each i file st).2.chain.Sound) := by
  rcases hcall : d.callStream each i file st with ⟨answer, records, check, remain, chain⟩
  have hafter : (d.afterCall each i file st).chain = chain := by
    rw [afterCall, hcall]
  rw [visitStream, streamFailure, hcall]
  dsimp only
  rcases callStream_passes hplain hpasses hcall hsound with ⟨hclean, hstill⟩ | ⟨e, rfl, hcause⟩
  · rcases answer with _ | e | goOn
    · exact ⟨fun e he => (by cases he), fun h => (by cases h)⟩
    · refine ⟨fun e' he => ?_, fun h => (by cases h)⟩
      cases he
      rw [callFailure, if_neg (not_not.mpr hclean), if_pos hstill.allOk, hstill.1]
      exact ⟨_, rfl, d.attributed_closure_iff e⟩
    · constructor
      · intro e he
        refine ⟨_, rfl, ?_⟩
        dsimp only at he
        unfold finishEntry at he
        split at he
        · cases he
          exact iff_of_true ⟨_, rfl⟩ rfl
        · cases he
      · intro hok
        rw [(d.finishEntry_eq_ok (Prod.ext hok rfl)).1, hafter]
        exact hstill
  · refine ⟨fun e' he => ⟨_, rfl, ?_⟩, fun h => (by cases h)⟩
    cases he
    rcases hcause with ⟨rfl, hrefused⟩ | ⟨hclean, hfaulted, hagrees⟩
    · rw [callFailure, if_pos hrefused]
      exact d.attributed_checksum_iff chain.faulted
    · have hfailed : ¬ (chain.reads.all fun read => read.result.isOk) = true := by
        rw [FaultState.Agrees, hfaulted] at hagrees
        simpa using hagrees
      rw [callFailure, if_neg (not_not.mpr hclean), if_neg hfailed, hfaulted]
      exact d.attributed_read_iff _ e

theorem visitEntry_explained {i : Nat} {file : ArchiveEntry} {st : BlockState}
    (hsound : st.chain.Sound) :
    Explained d.passwordGiven (d.visitEntry each i file st).1
        (d.entryFailure faults each i file st) ∧
      ((d.visitEntry each i file st).1 = .ok true →
        (d.visitEntry each i file st).2.chain.Sound) := by
  unfold visitEntry entryFailure
  split
  · exact visitStream_explained faults hplain hpasses hsound
  · exact ⟨visitEmpty_explained _ _ _ _ _ _, fun _ => hsound⟩

theorem walkEntries_explained {files : List Nat} {st : BlockState}
    (hsound : st.chain.Sound) :
    Explained d.passwordGiven (d.walkEntries each files st).1 (d.failure faults each files st) := by
  induction files generalizing st with
  | nil => exact fun e he => by cases he
  | cons i files ih =>
      unfold walkEntries failure
      cases hfile : d.archive.files[i]? with
      | none => exact fun e he => by cases he
      | some file =>
          obtain ⟨hentry, hstays⟩ := visitEntry_explained faults hplain hpasses hsound
          rcases hvisit : d.visitEntry each i file st with ⟨answer, st₁⟩
          rw [hvisit] at hentry hstays
          simp only [hvisit]
          rcases answer with fault | _ | _
          · exact hentry
          · exact hentry
          · exact ih (hstays rfl)

omit hplain hpasses in
theorem failure_of_ok {files : List Nat} {st st' : BlockState}
    (h : d.walkEntries each files st = (.ok true, st')) :
    d.failure faults each files st = some (.checksum d.blockIndex d.packedOffset true) := by
  induction files generalizing st with
  | nil => rfl
  | cons i files ih =>
      obtain ⟨file, goOn, st₁, hfile, hvisit, ⟨rfl, hrest⟩ | ⟨-, hfalse, -⟩⟩ := d.walkEntries_cons h
      · simp only [failure, hfile, hvisit]
        exact ih hrest
      · cases hfalse

omit hplain hpasses in
theorem checkFolded_raises (reads : List (ReadRecord IoError)) :
    Raises (· = Error.checksumVerificationFailed.inBlock d.blockIndex d.packedOffset)
      (d.checkFolded reads) := by
  unfold checkFolded
  split
  · refine (raises_getUnpackSize d.block).bind fun size _ => ?_
    exact Raises.bind (raises_rejectIf rfl) fun _ _ => raises_pure _
  · exact raises_pure _

theorem walk_explained (log : WalkLog) :
    Explained d.passwordGiven (d.walk each log).1
      (d.failure faults each (List.range' d.start d.block.numUnpackSubStreams)
        (d.initial log)) := by
  have hwalk : Explained d.passwordGiven
      (d.walkEntries each (List.range' d.start d.block.numUnpackSubStreams) (d.initial log)).1 _ :=
    walkEntries_explained faults hplain hpasses ⟨rfl, rfl⟩
  unfold walk
  split
  · rename_i st hrun
    intro e he
    refine ⟨_, failure_of_ok faults hrun, iff_of_true ?_ rfl⟩
    exact ⟨_, d.checkFolded_raises _ e he⟩
  · rename_i answer st _ hrun
    rw [hrun] at hwalk
    exact hwalk

end OpenBlock

theorem attributed_opening_iff {error : Error} (h : ¬ error.Located) (passwordGiven : Bool)
    (b offset : Nat) (ofSource : Bool) :
    (Failure.opening b offset error ofSource).Attributed passwordGiven (error.inBlock b offset) ↔
      (Failure.opening b offset error ofSource).Told passwordGiven := by
  cases error <;> simp_all [Failure.Attributed, Failure.Told, Error.inBlock, Error.blockKind,
    Error.IsLimit, Error.Located]

theorem Codecs.Plain.refuses {codecs : Codecs} (h : codecs.Plain) :
    codecs.Refuses fun e => ¬ e.Located where
  seek _ _ _ := by simp [Error.Located, Error.ofIo]
  decoder := h.located
  other _ := by simp [Error.Located]
  unsupported _ := by simp [Error.Located]
  cycles _ _ := by simp [Error.Located]

theorem BlockDecoder.forEachEntries_explained {d : BlockDecoder} (hplain : d.codecs.Plain)
    {each : Callback} (hpasses : each.PassesOn) (faults : SourceFaults) (log : WalkLog) :
    Explained d.passwordGiven (d.forEachEntries each log).1 (d.failure faults each log) := by
  unfold forEachEntries failure
  cases hopen : d.openBlock with
  | ok opened =>
      obtain ⟨rfl, -⟩ := openBlock_eq_ok hopen
      exact OpenBlock.walk_explained faults hplain hpasses log
  | error fault =>
      intro e he
      cases he
      obtain ⟨error, hbuild, rfl⟩ := raises_openBlock d e hopen
      have hlocated := raises_buildDecodeStack hplain.refuses d.limits d.archive d.blockIndex
      rw [hbuild]
      exact ⟨_, rfl, attributed_opening_iff (hlocated error hbuild) _ _ _ _⟩

namespace ArchiveReader

variable {r : ArchiveReader} {each : Callback} (faults : SourceFaults)

theorem walkBlocks_explained (hplain : r.codecs.Plain) (hpasses : each.PassesOn) (blocks : List Nat)
    (log : WalkLog) :
    Explained r.passwordGiven (r.walkBlocks each blocks log).1
      (r.blocksFailure faults each blocks log) := by
  induction blocks generalizing log with
  | nil => exact fun e he => by cases he
  | cons b blocks ih =>
      have hblock : Explained r.passwordGiven _ _ :=
        (r.blockDecoder b).forEachEntries_explained hplain hpasses faults log
      rcases hwalk : (r.blockDecoder b).forEachEntries each log with ⟨answer, log₁⟩
      rw [hwalk] at hblock
      unfold walkBlocks blocksFailure
      cases answer with
      | error fault =>
          simp only [hwalk]
          intro e he
          cases he
          exact hblock e rfl
      | ok finished =>
          cases hcomplete : r.completeBlock b finished log₁ with
          | error fault =>
              simp only [hwalk, hcomplete]
              intro e he
              cases he
              have hnone := r.raises_completeBlock (p := fun _ => False) b finished log₁
              exact (hnone e hcomplete).elim
          | ok log₂ =>
              simp only [hwalk, hcomplete]
              exact ih log₂

theorem walkEmptyFiles_explained (files : List Nat) (log : WalkLog) :
    Explained r.passwordGiven (r.walkEmptyFiles each files log).1
      (r.emptyFilesFailure each files log) := by
  induction files generalizing log with
  | nil => exact fun e he => by cases he
  | cons i files ih =>
      unfold walkEmptyFiles emptyFilesFailure
      cases hfile : r.archive.files[i]? with
      | none =>
          rcases r.archive.streamMap.fileBlockIndex[i]? with _ | _ | b <;>
            exact fun e he => by cases he
      | some file =>
          rcases r.archive.streamMap.fileBlockIndex[i]? with _ | _ | b
          · exact fun e he => by cases he
          · have hempty := visitEmpty_explained r.passwordGiven each none i file log
            rcases hvisit : visitEmpty each none i file log with ⟨answer, log₁⟩
            rw [hvisit] at hempty
            simp only [hvisit]
            rcases answer with fault | _ | _
            · intro e he
              cases he
              exact hempty e rfl
            · exact fun e he => by cases he
            · exact ih log₁
          · exact ih log

end ArchiveReader

/-- An error of a walk whose closure passes on what its reads fail with is put down to what went
wrong exactly where the failure can be told from it. -/
theorem forEachEntries_attributed_iff {r : ArchiveReader} (hplain : r.codecs.Plain)
    {each : Callback} (hpasses : each.PassesOn) (faults : SourceFaults) {e : Error} {log : WalkLog}
    (hrun : r.forEachEntries each = (.error (.error e), log)) :
    ∃ what, r.failure faults each = some what ∧
      (what.Attributed r.passwordGiven e ↔ what.Told r.passwordGiven) := by
  have hblocks := r.walkBlocks_explained faults hplain hpasses
    (List.range r.archive.blocks.length) {}
  rcases hwalk : r.walkBlocks each (List.range r.archive.blocks.length) {} with ⟨answer, log₁⟩
  rw [hwalk] at hblocks
  rw [ArchiveReader.forEachEntries, hwalk] at hrun
  rw [ArchiveReader.failure, hwalk]
  cases answer with
  | error fault =>
      cases hrun
      exact hblocks e rfl
  | ok done => exact r.walkEmptyFiles_explained _ _ e (congrArg Prod.fst hrun)

/-- The codecs over a source that cannot be read. -/
def Codecs.unreadable (file : List UInt8) : Codecs :=
  { Codecs.copying file with decode := fun _ => ⟨fun _ _ => .error (.other "unreadable")⟩ }

theorem unreadable_plain (file : List UInt8) : (Codecs.unreadable file).Plain where
  toForeign := { copying_foreign file with decode := fun _ _ _ => by simp [Codecs.unreadable] }
  located input stage e he := by
    change (if stage.coder.encoderMethodId = idCopy then none else some _) = some e at he
    split at he
    · cases he
    · cases he
      simp [Error.Located]
  uninterrupted _ _ _ := by simp [Codecs.unreadable]

theorem readAllEntries_passesOn : readAllEntries.PassesOn :=
  fun _ _ _ => Script.readToEnd_passesOn _ _

theorem unreadable_attributed_iff : ∃ archive e log,
    readWithLimits (.unreadable miscountedFile) {} false miscountedFile = .ok archive ∧
      (let r : ArchiveReader := { codecs := .unreadable miscountedFile, limits := {}
                                  verifyChecksums := true, passwordGiven := false, archive }
       let faults : SourceFaults := ⟨fun _ _ => true, fun _ => false⟩
       r.forEachEntries readAllEntries = (.error (.error e), log) ∧
        ∃ what, r.failure faults readAllEntries = some what ∧
          (what.Attributed false e ↔ what.Told false) ∧ what.Told false) := by
  obtain ⟨archive, hread, hcheck⟩ := Result.exists_of_holds
    (show (readWithLimits (.unreadable miscountedFile) {} false miscountedFile).holds
      (fun archive =>
        let r : ArchiveReader := { codecs := .unreadable miscountedFile, limits := {}
                                   verifyChecksums := true, passwordGiven := false, archive }
        decide ((r.forEachEntries readAllEntries).1 = .error (.error
            (.blockDecode 0 32 .io (.io (.other "unreadable") ""))) ∧
          r.failure ⟨fun _ _ => true, fun _ => false⟩ readAllEntries =
            some (.read 0 32 true))) = true by
      decide +kernel)
  obtain ⟨hwalk, hfailure⟩ := of_decide_eq_true hcheck
  obtain ⟨what, hwhat, hiff⟩ := forEachEntries_attributed_iff (unreadable_plain miscountedFile)
    readAllEntries_passesOn ⟨fun _ _ => true, fun _ => false⟩ (Prod.ext hwalk rfl)
  cases hwhat.symm.trans hfailure
  exact ⟨archive, _, _, hread, Prod.ext hwalk rfl, _, hfailure, hiff, .inl rfl⟩

/-- A wrong checksum of a block is put down to the source, one of an entry to nothing. -/
theorem miscounted_misattributed : (∃ archive log,
    readWithLimits (.copying miscountedFile) {} false miscountedFile = .ok archive ∧
      (let r := copyingReader miscountedFile archive
       let e : Error := .blockDecode 0 32 .io (.io .checksumVerificationFailed "")
       r.forEachEntries readAllEntries = (.error (.error e), log) ∧
        r.failure ⟨fun _ _ => false, fun _ => false⟩ readAllEntries =
          some (.checksum 0 32 false) ∧
        ¬ (Failure.checksum 0 32 false).Attributed false e)) ∧
    ∃ archive log,
      readWithLimits (.copying miscountedPair) {} false miscountedPair = .ok archive ∧
        (let r := copyingReader miscountedPair archive
         let e : Error := .io .checksumVerificationFailed ""
         r.forEachEntries readAllEntries = (.error (.error e), log) ∧
          r.failure ⟨fun _ _ => false, fun _ => false⟩ readAllEntries =
            some (.checksum 0 32 false) ∧
          ¬ (Failure.checksum 0 32 false).Attributed false e) := by
  have hruns : ∀ (file : List UInt8) (e : Error),
      (readWithLimits (.copying file) {} false file).holds (fun archive =>
        let r := copyingReader file archive
        decide ((r.forEachEntries readAllEntries).1 = .error (.error e) ∧
          r.failure ⟨fun _ _ => false, fun _ => false⟩ readAllEntries =
            some (.checksum 0 32 false))) = true →
      ∃ archive log, readWithLimits (.copying file) {} false file = .ok archive ∧
        (copyingReader file archive).forEachEntries readAllEntries = (.error (.error e), log) ∧
          (copyingReader file archive).failure ⟨fun _ _ => false, fun _ => false⟩ readAllEntries =
            some (.checksum 0 32 false) := by
    intro file e h
    obtain ⟨archive, hread, hcheck⟩ := Result.exists_of_holds h
    obtain ⟨hwalk, hfailure⟩ := of_decide_eq_true hcheck
    exact ⟨archive, _, hread, Prod.ext hwalk rfl, hfailure⟩
  constructor
  · obtain ⟨archive, log, hread, hwalk, hfailure⟩ := hruns miscountedFile
      (.blockDecode 0 32 .io (.io .checksumVerificationFailed "")) (by decide +kernel)
    refine ⟨archive, log, hread, hwalk, hfailure, ?_⟩
    rintro ⟨source, h⟩
    cases h
  · obtain ⟨archive, log, hread, hwalk, hfailure⟩ := hruns miscountedPair
      (.io .checksumVerificationFailed "") (by decide +kernel)
    refine ⟨archive, log, hread, hwalk, hfailure, ?_⟩
    rintro ⟨source, h⟩
    cases h

end Sevenz
