import Sevenz.Writer.LzmaTurboWriter

/-!
# The LZMA encoder without a thread

Where a thread cannot be started, `codec/lzma_turbo/writer.rs` holds the whole input and
encodes it in `finish`.  What `lzma-turbo` computes is left open: each of its encoders is some
function of its settings and its input.
-/

namespace Sevenz.LzmaTurbo

open Lib

inductive Coder where
  | lzma
  | lzma2 (blockSize : UInt64) (threads : Nat)

inductive Encoder (Props : Type) where
  | lzma (props : Props)
  | lzma2 (props : Props) (blockSize : UInt64) (threads : Nat)

/-- The process reads its input, of which it meets the end before it succeeds, and comes to
the result a function has for it. -/
structure Computes {σ : Type} (process : Process UInt8 σ Outcome)
    (encode : List UInt8 → Except LzmaError (List UInt8)) : Prop where
  halts : ∀ input, process.Halts input process.start
  outcome : ∀ {total input ended output t outcome}, process.Ran input ended output t →
    input <+: total → (ended → input = total) → process.next t = .done outcome →
    outcome = .returned ((encode total).map fun _ => ()) ∧
      ∀ out, encode total = .ok out → ended ∧ output = out

/-- `lzma-turbo`: what its encoders are set up with, and the function of their settings and
their input that they are. -/
structure Crate (Props σ : Type) where
  withEndMark : Props → Bool → Props
  newLzma : Props → Option LzmaError
  newLzma2 : Props → Option LzmaError
  process : Encoder Props → Process UInt8 σ Outcome
  encode : Encoder Props → List UInt8 → Except LzmaError (List UInt8)
  computes : ∀ encoder, Computes (process encoder) (encode encoder)

variable {Props σ : Type}

def Crate.new (crate : Crate Props σ) (props : Props) :
    Coder → Except LzmaError (Encoder Props)
  | .lzma =>
      match crate.newLzma (crate.withEndMark props false) with
      | some error => .error error
      | none => .ok (.lzma (crate.withEndMark props false))
  | .lzma2 blockSize threads =>
      match crate.newLzma2 props with
      | some error => .error error
      | none => .ok (.lzma2 props blockSize threads)

/-- The settings `Encoder::run` runs with.  `solid` is `BLOCK_SIZE_SOLID`. -/
def Encoder.effective (solid : UInt64) (threaded : Bool) : Encoder Props → Encoder Props
  | .lzma props => .lzma props
  | .lzma2 props blockSize threads =>
      if threaded then .lzma2 props blockSize threads else .lzma2 props solid 1

structure Buffered (Props : Type) where
  encoder : Encoder Props
  buf : List UInt8 := []

namespace Buffered

def call (s : Buffered Props) : Call → Buffered Props
  | .write buf => { s with buf := s.buf ++ buf }
  | .flush => s

def finish (crate : Crate Props σ) (solid : UInt64) (s : Buffered Props) :
    Except WriteError (List UInt8) :=
  (crate.encode (s.encoder.effective solid false) s.buf).mapError ioError

theorem foldl_call (encoder : Encoder Props) (buf : List UInt8) (calls : List Call) :
    calls.foldl call ⟨encoder, buf⟩ = ⟨encoder, buf ++ writtenBytes calls⟩ := by
  induction calls generalizing buf with
  | nil => simp [writtenBytes]
  | cons first calls ih =>
      cases first <;> simp [call, ih]

end Buffered

def Streaming.Finishes (encoder : Process UInt8 σ Outcome) (calls : List Call)
    (result : Except WriteError (List UInt8)) : Prop :=
  ∃ threads s returned,
    run (Streaming.step encoder) (Streaming.new encoder calls) threads = some s ∧
      s.caller = .finished returned ∧ result = returned.map fun _ => s.inner

/-- Both states give the same result for the calls, whatever the encoders of the crate
compute: in no interleaving does `finish` return another one, and in some it returns. -/
def SameOutput (solid : UInt64) (props : Props) (coder : Coder) (calls : List Call) : Prop :=
  ∀ (σ : Type) (crate : Crate Props σ) (encoder : Encoder Props),
    crate.new props coder = .ok encoder →
      let streamed := Streaming.Finishes (crate.process (encoder.effective solid true)) calls
      let buffered := (calls.foldl Buffered.call ⟨encoder, []⟩).finish crate solid
      (∀ result, streamed result → buffered = result) ∧
        (∀ out, buffered = .ok out → streamed (.ok out))

namespace Streaming

variable {process : Process UInt8 σ Outcome} {calls : List Call} {s s' : Streaming σ}
  {encode : List UInt8 → Except LzmaError (List UInt8)}

theorem Finishes.eq_encode (hcomputes : Computes process encode)
    {result : Except WriteError (List UInt8)} (h : Finishes process calls result) :
    result = (encode (writtenBytes calls)).mapError ioError := by
  obtain ⟨threads, s, returned, hrun, hcaller, rfl⟩ := h
  obtain ⟨hs, input, ended, output, t, hcarries⟩ := sound_run hrun
  obtain ⟨houtput, outcome, hworker, rfl⟩ := hs.finished _ hcaller
  have hat := hcarries.worker
  rw [hworker] at hat
  have hinner := hcarries.output_eq
  rw [houtput, List.flatten_nil, List.append_nil] at hinner
  obtain ⟨houtcome, hout⟩ := hcomputes.outcome hcarries.ran hcarries.input_prefix
    (fun h => (hcarries.input_ended h).2) hat
  cases hencode : encode (writtenBytes calls) with
  | error e =>
      rw [houtcome, hencode]
      rfl
  | ok out =>
      rw [houtcome, hencode, hinner, (hout out hencode).2]
      rfl

def Unfailed (s : Streaming σ) : Prop :=
  match s.caller with
  | .workerError _ | .panicked => False
  | .finished _ => True
  | _ => s.workerHeld = true

theorem unfailed_drain {after : Caller} (hs : s.Unfailed)
    (hafter : Unfailed { s with caller := after }) : (s.drain after).Unfailed := by
  cases houtput : s.output with
  | nil =>
      simp only [drain, houtput]
      exact hafter
  | cons chunk output =>
      simp only [drain, houtput]
      exact hs

theorem Unfailed.callerStep (hs : s.Unfailed)
    (hsource : s.caller.inFinish = false → s.worker.holdsSource = true)
    (h : s.callerStep = some s') : s'.Unfailed := by
  have hheld := hs
  unfold Unfailed at hheld
  cases hcaller : s.caller with
  | calls rest =>
      rw [hcaller] at hheld
      match rest with
      | [] | .write _ :: _ | .flush :: _ =>
          simp only [Streaming.callerStep, hcaller] at h
          cases h
          exact hheld
  | send chunks length rest =>
      rw [hcaller] at hheld
      cases chunks with
      | nil =>
          simp only [Streaming.callerStep, hcaller] at h
          cases h
          exact hheld
      | cons chunk chunks =>
          simp only [Streaming.callerStep, hcaller] at h
          rw [if_pos (hsource (by rw [hcaller]; rfl))] at h
          split at h
          · cases h
            exact hheld
          · cases h
  | drain chunks length rest =>
      rw [hcaller] at hheld
      simp only [Streaming.callerStep, hcaller] at h
      cases h
      exact unfailed_drain hs hheld
  | flush rest =>
      rw [hcaller] at hheld
      simp only [Streaming.callerStep, hcaller] at h
      cases h
      exact unfailed_drain hs hheld
  | workerError rest =>
      rw [hcaller] at hheld
      exact hheld.elim
  | collect =>
      rw [hcaller] at hheld
      simp only [Streaming.callerStep, hcaller] at h
      split at h
      · cases h
        exact hheld
      · split at h
        · cases h
        · cases h
          exact hheld
  | join =>
      rw [hcaller] at hheld
      simp only [Streaming.callerStep, hcaller] at h
      rw [if_pos hheld] at h
      split at h
      · cases h
        trivial
      · cases h
  | finished result => simp [Streaming.callerStep, hcaller] at h
  | panicked => simp [Streaming.callerStep, hcaller] at h

theorem holdsSource_of_computes (hcomputes : Computes process encode) {out : List UInt8}
    (hencode : encode (writtenBytes calls) = .ok out) (hs : s.Sound process calls)
    (hcaller : s.caller.inFinish = false) : s.worker.holdsSource = true := by
  obtain ⟨-, input, ended, output, t, hcarries⟩ := hs
  have hat := hcarries.worker
  have hfinish {outcome : Outcome} (hnext : process.next t = .done outcome) : False := by
    have hended := ((hcomputes.outcome hcarries.ran hcarries.input_prefix
      (fun h => (hcarries.input_ended h).2) hnext).2 out hencode).1
    have := (hcarries.input_ended hended).1
    rw [hcaller] at this
    cases this
  cases hworker : s.worker with
  | running | stopped | sinkDropped => rfl
  | sourceDropped outcome =>
      rw [hworker] at hat
      exact (hfinish hat).elim
  | exited outcome =>
      rw [hworker] at hat
      exact (hfinish hat).elim

theorem Unfailed.workerStep (hs : s.Unfailed) (h : s.workerStep process = some s') :
    s'.Unfailed := by
  have hframe := workerStep_frame h
  unfold Unfailed
  rw [hframe.1, hframe.2]
  exact hs

theorem finishes_of_encode (hcomputes : Computes process encode) {out : List UInt8}
    (hencode : encode (writtenBytes calls) = .ok out) : Finishes process calls (.ok out) := by
  obtain ⟨threads, s, hrun, hdone⟩ := exists_run_done (hcomputes.halts (writtenBytes calls))
    (run_nil (s := new process calls))
  have hunfailed : s.Sound process calls ∧ s.Unfailed := by
    apply run_invariant (I := fun s => s.Sound process calls ∧ s.Unfailed) ?_ ?_ hrun
    · intro s thread s' hstep hs
      refine ⟨Sound.step hs.1 thread hstep, ?_⟩
      cases thread with
      | caller => exact hs.2.callerStep (holdsSource_of_computes hcomputes hencode hs.1) hstep
      | worker => exact hs.2.workerStep hstep
    · exact ⟨sound_new process calls, rfl⟩
  have hs := hunfailed.2
  cases hcaller : s.caller with
  | finished returned =>
      have hfinishes : Finishes process calls (returned.map fun _ => s.inner) :=
        ⟨threads, s, returned, hrun, hcaller, rfl⟩
      have hresult := hfinishes.eq_encode hcomputes
      rw [hencode] at hresult
      rw [hresult] at hfinishes
      exact hfinishes
  | panicked =>
      rw [Unfailed, hcaller] at hs
      exact hs.elim
  | _ =>
      rw [hcaller] at hdone
      cases hdone

end Streaming

theorem sameOutput_of_effective {solid : UInt64} {props : Props} {coder : Coder}
    (calls : List Call)
    (h : ∀ (σ : Type) (crate : Crate Props σ) encoder, crate.new props coder = .ok encoder →
      encoder.effective solid false = encoder.effective solid true) :
    SameOutput solid props coder calls := by
  intro σ crate encoder hnew
  have hsame := h σ crate encoder hnew
  have hcomputes := crate.computes (encoder.effective solid true)
  have hfinish : (calls.foldl Buffered.call ⟨encoder, []⟩).finish crate solid =
      (crate.encode (encoder.effective solid true) (writtenBytes calls)).mapError ioError := by
    rw [Buffered.foldl_call, Buffered.finish, hsame, List.nil_append]
  rw [hfinish]
  refine ⟨fun result h => (h.eq_encode hcomputes).symm, fun out hout => ?_⟩
  apply Streaming.finishes_of_encode hcomputes
  cases hencode : crate.encode (encoder.effective solid true) (writtenBytes calls) with
  | error e => simp [hencode, Except.mapError] at hout
  | ok encoded =>
      rw [hencode] at hout
      cases hout
      rfl

inductive Marking where
  | reading
  | writing
  | done

def marking (mark : UInt8) : Process UInt8 Marking Outcome where
  start := .reading
  next
    | .reading => .read 1 fun piece => if piece = [] then .writing else .reading
    | .writing => .write [mark] .done
    | .done => .done (.returned (.ok ()))

theorem marking_halts (mark : UInt8) (left : List UInt8) : (marking mark).Halts left .reading := by
  induction left with
  | nil => exact .readEnd rfl Nat.one_pos (.write rfl (.done rfl))
  | cons byte left ih =>
      refine .read rfl Nat.one_pos (List.cons_ne_nil _ _) ?_
      intro piece rest happend hpiece hlength
      obtain ⟨first, rfl⟩ : ∃ first, piece = [first] := by
        apply List.length_eq_one_iff.mp
        have := List.length_pos_iff.mpr hpiece
        omega
      cases happend
      exact ih

def Marking.Seen (mark : UInt8) (ended : Bool) (output : List UInt8) : Marking → Prop
  | .reading => ended = false ∧ output = []
  | .writing => ended = true ∧ output = []
  | .done => ended = true ∧ output = [mark]

theorem marking_ran {mark : UInt8} {input output : List UInt8} {ended : Bool} {t : Marking}
    (h : (marking mark).Ran input ended output t) : t.Seen mark ended output := by
  induction h with
  | start => exact ⟨rfl, rfl⟩
  | @readNone _ _ _ s _ _ hnext ih => cases s <;> simp [marking] at hnext
  | @read _ _ piece s _ _ _ hnext hpiece _ ih =>
      cases s with
      | reading =>
          simp [marking] at hnext
          simpa [← hnext.2, hpiece] using ih
      | writing => simp [marking] at hnext
      | done => simp [marking] at hnext
  | @readEnd _ _ _ s _ _ _ hnext _ ih =>
      cases s with
      | reading =>
          simp [marking] at hnext
          rw [← hnext.2]
          exact ⟨rfl, ih.2⟩
      | writing => simp [marking] at hnext
      | done => simp [marking] at hnext
  | @write _ _ _ _ s _ _ hnext ih =>
      cases s with
      | reading => simp [marking] at hnext
      | writing =>
          simp [marking] at hnext
          rw [← hnext.1, ← hnext.2, ih.2]
          exact ⟨ih.1, rfl⟩
      | done => simp [marking] at hnext

theorem marking_computes (mark : UInt8) : Computes (marking mark) fun _ => .ok [mark] where
  halts input := marking_halts mark input
  outcome := by
    intro total input ended output t outcome hran _ _ hnext
    have hmarked := marking_ran hran
    cases t with
    | reading => cases hnext
    | writing => cases hnext
    | done =>
        cases hnext
        refine ⟨rfl, fun out hout => ?_⟩
        cases hout
        exact hmarked

/-- The encoders put out whether their settings are those of the state without a thread. -/
def markingCrate (Props : Type) (solid : UInt64) : Crate Props Marking where
  withEndMark props _ := props
  newLzma _ := none
  newLzma2 _ := none
  process := fun
    | .lzma _ => marking 0
    | .lzma2 _ blockSize threads => marking (if blockSize = solid ∧ threads = 1 then 0 else 1)
  encode := fun
    | .lzma _ => fun _ => .ok [0]
    | .lzma2 _ blockSize threads => fun _ =>
        .ok [if blockSize = solid ∧ threads = 1 then 0 else 1]
  computes := fun
    | .lzma _ => marking_computes 0
    | .lzma2 _ _ _ => marking_computes _

theorem not_sameOutput (props : Props) {solid blockSize : UInt64} {threads : Nat}
    (h : ¬ (blockSize = solid ∧ threads = 1)) (calls : List Call) :
    ¬ SameOutput solid props (.lzma2 blockSize threads) calls := by
  intro hsame
  have hstreaming := (hsame Marking (markingCrate Props solid) (.lzma2 props blockSize threads)
    rfl).2 [0] ?_
  · have hmark := hstreaming.eq_encode ((markingCrate Props solid).computes _)
    simp [markingCrate, Encoder.effective, h, Except.mapError] at hmark
  · simp [markingCrate, Encoder.effective, Buffered.foldl_call, Buffered.finish, Except.mapError]

/-- The two states give the same result exactly for LZMA, and for LZMA2 as one solid block on
one thread: without a thread that is how LZMA2 is encoded, whatever was asked for. -/
theorem sameOutput_iff (solid : UInt64) (props : Props) (coder : Coder) (calls : List Call) :
    SameOutput solid props coder calls ↔ coder = .lzma ∨ coder = .lzma2 solid 1 := by
  constructor
  · intro h
    cases coder with
    | lzma => exact .inl rfl
    | lzma2 blockSize threads =>
        by_contra hne
        apply not_sameOutput props ?_ calls h
        rintro ⟨rfl, rfl⟩
        exact hne (.inr rfl)
  · intro h
    apply sameOutput_of_effective calls
    intro σ crate encoder hnew
    cases h with
    | inl hcoder =>
        rw [hcoder, Crate.new] at hnew
        split at hnew
        · cases hnew
        · cases hnew
          rfl
    | inr hcoder =>
        rw [hcoder, Crate.new] at hnew
        split at hnew
        · cases hnew
        · cases hnew
          rfl

/-- Three blocks of 1 MiB against one. -/
theorem blockThreads_not_sameOutput :
    ¬ SameOutput 0xFFFFFFFFFFFFFFFF () (.lzma2 0x100000 3) [.write (.replicate 3000000 7)] :=
  not_sameOutput () (by simp) _

end Sevenz.LzmaTurbo
