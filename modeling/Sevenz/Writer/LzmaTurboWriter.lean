import Sevenz.Lib.Chunks
import Sevenz.Lib.Process
import Sevenz.Lib.Runs

/-!
# The LZMA encoder on its thread

`codec/lzma_turbo/writer.rs`: a writer whose encoder pulls its input on a thread of its own.  A
bounded channel takes the chunks there and another channel brings the output back.  The steps
of the two threads interleave in any order; each is atomic in the channels.  The encoder is a
process of another crate, and the sink takes all it is given.
-/

namespace Sevenz.LzmaTurbo

open Lib

def chunkSize : Nat := 2 ^ 20

/-- Messages the input channel holds before a write blocks. -/
def inputDepth : Nat := 2

inductive LzmaError where
  | param
  | alloc
  | write
  | other (code : Nat)
  deriving DecidableEq, Repr

inductive ErrorKind where
  | invalidInput
  | outOfMemory
  | other
  deriving DecidableEq, Repr

inductive WriteError where
  | lzma (kind : ErrorKind) (error : LzmaError)
  | other (message : String)
  deriving DecidableEq, Repr

def ioError (error : LzmaError) : WriteError :=
  match error with
  | .param => .lzma .invalidInput error
  | .alloc => .lzma .outOfMemory error
  | _ => .lzma .other error

inductive Outcome where
  | returned (result : Except LzmaError Unit)
  | panicked

def Outcome.finish : Outcome → Except WriteError Unit
  | .returned (.ok ()) => .ok ()
  | .returned (.error error) => .error (ioError error)
  | .panicked => .error (.other "the LZMA encoder thread panicked")

theorem Outcome.finish_eq_ok {outcome : Outcome} (h : outcome.finish = .ok ()) :
    outcome = .returned (.ok ()) := by
  match outcome with
  | .returned (.ok ()) => rfl
  | .returned (.error error) => simp [Outcome.finish] at h
  | .panicked => simp [Outcome.finish] at h

def workerError : Option Outcome → WriteError
  | some (.returned (.error error)) => ioError error
  | some .panicked => .other "the LZMA encoder thread panicked"
  | some (.returned (.ok ())) | none => .other "the LZMA encoder stopped early"

inductive Call where
  | write (buf : List UInt8)
  | flush

def writtenBytes (calls : List Call) : List UInt8 :=
  calls.flatMap fun
    | .write buf => buf
    | .flush => []

inductive Caller where
  /-- between two calls; `finish` comes after the last -/
  | calls (rest : List Call)
  /-- in `write`, with these chunks to send -/
  | send (chunks : List (List UInt8)) (length : Nat) (rest : List Call)
  /-- in `write`, in the `drain` after a send -/
  | drain (chunks : List (List UInt8)) (length : Nat) (rest : List Call)
  /-- in `flush`, in its `drain` -/
  | flush (rest : List Call)
  /-- in `worker_error`, for a send that failed -/
  | workerError (rest : List Call)
  /-- in `finish`, with the input closed, taking the output until that is closed too -/
  | collect
  /-- in `finish`, joining the encoder's thread -/
  | join
  | finished (result : Except WriteError Unit)
  | panicked

/-- Where the encoder's thread is.  What its closure owns is dropped in turn once the encoder
has returned, or has panicked. -/
inductive Worker (σ : Type) where
  | running (s : σ)
  | stopped (outcome : Outcome)
  | sinkDropped (outcome : Outcome)
  | sourceDropped (outcome : Outcome)
  | exited (outcome : Outcome)

namespace Worker

variable {σ : Type}

def holdsSink : Worker σ → Bool
  | .running _ | .stopped _ => true
  | _ => false

def holdsSource : Worker σ → Bool
  | .running _ | .stopped _ | .sinkDropped _ => true
  | _ => false

end Worker

/-- A streaming `LzmaTurboWriter` and the thread of its encoder.  `queue` and `output` are
what is in the two channels; `pending` and `pos` belong to the `ChannelSource`, and the sink
`inner` takes all it is given. -/
structure Streaming (σ : Type) where
  inputOpen : Bool := true
  workerHeld : Bool := true
  queue : List (List UInt8) := []
  output : List (List UInt8) := []
  pending : List UInt8 := []
  pos : Nat := 0
  worker : Worker σ
  inner : List UInt8 := []
  results : List (Except WriteError Nat) := []
  caller : Caller

inductive Thread where
  | caller
  | worker
  deriving DecidableEq

namespace Streaming

variable {σ : Type}

/-- `LzmaTurboWriter::new`, where the thread could be started, and the calls to be made. -/
def new (encoder : Process UInt8 σ Outcome) (calls : List Call) : Streaming σ :=
  { worker := .running encoder.start, caller := .calls calls }

def drain (s : Streaming σ) (after : Caller) : Streaming σ :=
  match s.output with
  | chunk :: output => { s with output, inner := s.inner ++ chunk }
  | [] => { s with caller := after }

def callerStep (s : Streaming σ) : Option (Streaming σ) :=
  match s.caller with
  | .calls [] => some { s with inputOpen := false, caller := .collect }
  | .calls (.write buf :: rest) =>
      some { s with caller := .send (buf.toChunks chunkSize) buf.length rest }
  | .calls (.flush :: rest) => some { s with caller := .flush rest }
  | .send [] length rest =>
      some { s with results := s.results ++ [.ok length], caller := .calls rest }
  | .send (chunk :: chunks) length rest =>
      if s.worker.holdsSource then
        -- a full channel blocks
        if s.queue.length < inputDepth then
          some { s with queue := s.queue ++ [chunk], caller := .drain chunks length rest }
        else none
      else some { s with caller := .workerError rest }
  | .drain chunks length rest => some (s.drain (.send chunks length rest))
  | .flush rest => some (s.drain (.calls rest))
  | .workerError rest =>
      if s.workerHeld then
        match s.worker with
        | .exited outcome =>
            some { s with
              workerHeld := false, results := s.results ++ [.error (workerError (some outcome))]
              caller := .calls rest }
        | _ => none
      else
        some { s with
          results := s.results ++ [.error (workerError none)], caller := .calls rest }
  | .collect =>
      match s.output with
      | chunk :: output => some { s with output, inner := s.inner ++ chunk }
      | [] => if s.worker.holdsSink then none else some { s with caller := .join }
  | .join =>
      if s.workerHeld then
        match s.worker with
        | .exited outcome => some { s with workerHeld := false, caller := .finished outcome.finish }
        | _ => none
      else
        -- `expect("joined once")`
        some { s with caller := .panicked }
  | .finished _ | .panicked => none

def sourceRead (s : Streaming σ) (n : Nat) (resume : List UInt8 → σ) : Option (Streaming σ) :=
  if n = 0 then some { s with worker := .running (resume []) }
  else
    let left := s.pending.drop s.pos
    if left ≠ [] then
      let n := min n left.length
      some { s with pos := s.pos + n, worker := .running (resume (left.take n)) }
    else
      match s.queue with
      | chunk :: queue => some { s with queue, pending := chunk, pos := 0 }
      | [] =>
          -- an empty channel blocks while it is open
          if s.inputOpen then none else some { s with worker := .running (resume []) }

/-- A step of the encoder's thread.  The output channel takes every send: its receiver lives
in the writer until `finish` has joined the thread. -/
def workerStep (encoder : Process UInt8 σ Outcome) (s : Streaming σ) : Option (Streaming σ) :=
  match s.worker with
  | .running t =>
      match encoder.next t with
      | .read n resume => s.sourceRead n resume
      | .write data next => some { s with output := s.output ++ [data], worker := .running next }
      | .done outcome => some { s with worker := .stopped outcome }
  | .stopped outcome => some { s with worker := .sinkDropped outcome }
  | .sinkDropped outcome => some { s with queue := [], worker := .sourceDropped outcome }
  | .sourceDropped outcome => some { s with worker := .exited outcome }
  | .exited _ => none

def step (encoder : Process UInt8 σ Outcome) (s : Streaming σ) : Thread → Option (Streaming σ)
  | .caller => s.callerStep
  | .worker => s.workerStep encoder

end Streaming

variable {σ : Type} {encoder : Process UInt8 σ Outcome} {calls : List Call}

def Caller.unsent : Caller → List UInt8
  | .calls rest | .flush rest => writtenBytes rest
  | .send chunks _ rest | .drain chunks _ rest => chunks.flatten ++ writtenBytes rest
  | .workerError _ | .collect | .join | .finished _ | .panicked => []

def Caller.inFinish : Caller → Bool
  | .collect | .join | .finished _ | .panicked => true
  | _ => false

def Caller.isDone : Caller → Bool
  | .finished _ | .panicked => true
  | _ => false

theorem Caller.unsent_of_inFinish {caller : Caller} (h : caller.inFinish = true) :
    caller.unsent = [] := by
  cases caller <;> simp_all [Caller.inFinish, Caller.unsent]

def Worker.At (encoder : Process UInt8 σ Outcome) (t : σ) : Worker σ → Prop
  | .running s => s = t
  | .stopped outcome | .sinkDropped outcome | .sourceDropped outcome | .exited outcome =>
      encoder.next t = .done outcome

def Call.load : Call → Nat
  | .write buf => 2 * (buf.toChunks chunkSize).length + 2
  | .flush => 2

def Caller.load : Caller → Nat
  | .calls rest => (rest.map Call.load).sum + 3
  | .send chunks _ rest => 2 * chunks.length + 1 + ((rest.map Call.load).sum + 3)
  | .drain chunks _ rest => 2 * chunks.length + 2 + ((rest.map Call.load).sum + 3)
  | .flush rest | .workerError rest => 1 + ((rest.map Call.load).sum + 3)
  | .collect => 2
  | .join => 1
  | .finished _ | .panicked => 0

def Worker.load : Worker σ → Nat
  | .running _ => 4
  | .stopped _ => 3
  | .sinkDropped _ => 2
  | .sourceDropped _ => 1
  | .exited _ => 0

namespace Streaming

variable {s s' : Streaming σ}

/-- What the two threads know of each other: the end of the input comes with `finish`, and a
closed channel means that the thread at its other end is over. -/
structure Controlled (s : Streaming σ) : Prop where
  inputOpen : s.inputOpen = !s.caller.inFinish
  workerError : ∀ rest, s.caller = .workerError rest → s.worker.holdsSource = false
  join : s.caller = .join → s.worker.holdsSink = false ∧ s.output = []
  finished : ∀ result, s.caller = .finished result →
    s.output = [] ∧ ∃ outcome, s.worker = .exited outcome ∧ result = outcome.finish

/-- The bytes on their way: what the encoder has read, run on a source of its own, is where
the bytes written begin, and what it has put out is what the sink has and the channel. -/
structure Carries (encoder : Process UInt8 σ Outcome) (calls : List Call)
    (input : List UInt8) (ended : Bool) (output : List UInt8) (t : σ) (s : Streaming σ) :
    Prop where
  ran : encoder.Ran input ended output t
  worker : s.worker.At encoder t
  input_prefix : input <+: writtenBytes calls
  input_rest : s.worker.holdsSource →
    input ++ (s.pending.drop s.pos ++ (s.queue.flatten ++ s.caller.unsent)) = writtenBytes calls
  output_eq : s.inner ++ s.output.flatten = output
  input_ended : ended → s.caller.inFinish ∧ input = writtenBytes calls

@[simp] theorem writtenBytes_cons_write (buf : List UInt8) (rest : List Call) :
    writtenBytes (.write buf :: rest) = buf ++ writtenBytes rest := rfl

@[simp] theorem writtenBytes_cons_flush (rest : List Call) :
    writtenBytes (.flush :: rest) = writtenBytes rest := rfl

/-- A step of the writing thread leaves the encoder alone.  What it takes from the output
channel goes to the sink, and what it sends is what it had to send. -/
structure CallerKeeps (s s' : Streaming σ) : Prop where
  worker : s'.worker = s.worker
  pending : s'.pending = s.pending
  pos : s'.pos = s.pos
  output : s'.inner ++ s'.output.flatten = s.inner ++ s.output.flatten
  inFinish : s.caller.inFinish → s'.caller.inFinish
  unsent : s.worker.holdsSource →
    s'.queue.flatten ++ s'.caller.unsent = s.queue.flatten ++ s.caller.unsent

theorem drain_keeps {after : Caller} (hafter : after.unsent = s.caller.unsent)
    (hcaller : s.caller.inFinish = false) : s.CallerKeeps (s.drain after) := by
  cases houtput : s.output with
  | nil =>
      simp only [drain, houtput]
      refine ⟨rfl, rfl, rfl, by rw [houtput], by simp [hcaller], fun _ => ?_⟩
      rw [hafter]
  | cons chunk output =>
      simp only [drain, houtput]
      exact ⟨rfl, rfl, rfl, by simp [houtput], id, fun _ => rfl⟩

theorem callerStep_keeps (hs : s.Controlled) (h : s.callerStep = some s') : s.CallerKeeps s' := by
  cases hcaller : s.caller with
  | calls rest =>
      match rest with
      | [] =>
          simp only [callerStep, hcaller] at h
          cases h
          exact ⟨rfl, rfl, rfl, rfl, fun _ => rfl, fun _ => by rw [hcaller]; rfl⟩
      | .write buf :: rest =>
          simp only [callerStep, hcaller] at h
          cases h
          refine ⟨rfl, rfl, rfl, rfl, by simp [hcaller, Caller.inFinish], fun _ => ?_⟩
          simp [hcaller, Caller.unsent, flatten_toChunks]
      | .flush :: rest =>
          simp only [callerStep, hcaller] at h
          cases h
          refine ⟨rfl, rfl, rfl, rfl, by simp [hcaller, Caller.inFinish], fun _ => ?_⟩
          simp [hcaller, Caller.unsent]
  | send chunks length rest =>
      cases chunks with
      | nil =>
          simp only [callerStep, hcaller] at h
          cases h
          refine ⟨rfl, rfl, rfl, rfl, by simp [hcaller, Caller.inFinish], fun _ => ?_⟩
          simp [hcaller, Caller.unsent]
      | cons chunk chunks =>
          simp only [callerStep, hcaller] at h
          split at h
          · split at h
            · cases h
              refine ⟨rfl, rfl, rfl, rfl, by simp [hcaller, Caller.inFinish], fun _ => ?_⟩
              simp [hcaller, Caller.unsent]
            · cases h
          · rename_i hsource
            cases h
            refine ⟨rfl, rfl, rfl, rfl, by simp [hcaller, Caller.inFinish], ?_⟩
            exact fun holds => absurd holds hsource
  | drain chunks length rest =>
      simp only [callerStep, hcaller] at h
      cases h
      exact drain_keeps (by rw [hcaller]; rfl) (by rw [hcaller]; rfl)
  | flush rest =>
      simp only [callerStep, hcaller] at h
      cases h
      exact drain_keeps (by rw [hcaller]; rfl) (by rw [hcaller]; rfl)
  | workerError rest =>
      have hsource := hs.workerError rest hcaller
      simp only [callerStep, hcaller] at h
      split at h
      · split at h
        · cases h
          refine ⟨rfl, rfl, rfl, rfl, by simp [hcaller, Caller.inFinish], ?_⟩
          simp [hsource]
        · cases h
      · cases h
        refine ⟨rfl, rfl, rfl, rfl, by simp [hcaller, Caller.inFinish], ?_⟩
        simp [hsource]
  | collect =>
      simp only [callerStep, hcaller] at h
      split at h
      · rename_i chunk output houtput
        cases h
        exact ⟨rfl, rfl, rfl, by simp [houtput], by simp [hcaller], fun _ => by simp [hcaller]⟩
      · rename_i houtput
        split at h
        · cases h
        · cases h
          refine ⟨rfl, rfl, rfl, rfl, fun _ => rfl, fun _ => ?_⟩
          simp [hcaller, Caller.unsent]
  | join =>
      simp only [callerStep, hcaller] at h
      split at h
      · split at h
        · cases h
          refine ⟨rfl, rfl, rfl, rfl, fun _ => rfl, fun _ => ?_⟩
          simp [hcaller, Caller.unsent]
        · cases h
      · cases h
        refine ⟨rfl, rfl, rfl, rfl, fun _ => rfl, fun _ => ?_⟩
        simp [hcaller, Caller.unsent]
  | finished result => simp [callerStep, hcaller] at h
  | panicked => simp [callerStep, hcaller] at h

theorem Carries.callerStep {input output : List UInt8} {ended : Bool} {t : σ}
    (hcarries : s.Carries encoder calls input ended output t) (hs : s.Controlled)
    (h : s.callerStep = some s') : s'.Carries encoder calls input ended output t := by
  have hkeeps := callerStep_keeps hs h
  constructor
  · exact hcarries.ran
  · rw [hkeeps.worker]
    exact hcarries.worker
  · exact hcarries.input_prefix
  · intro hsource
    rw [hkeeps.worker] at hsource
    rw [hkeeps.pending, hkeeps.pos, hkeeps.unsent hsource]
    exact hcarries.input_rest hsource
  · rw [hkeeps.output]
    exact hcarries.output_eq
  · intro hended
    have hinput := hcarries.input_ended hended
    exact ⟨hkeeps.inFinish hinput.1, hinput.2⟩

/-- Before `finish` only a failed send says anything of the encoder. -/
theorem Controlled.of_caller {s : Streaming σ} (hopen : s.inputOpen = true)
    (hcaller : s.caller.inFinish = false) (herror : ∀ rest, s.caller = .workerError rest →
      s.worker.holdsSource = false) : s.Controlled := by
  refine ⟨by rw [hopen, hcaller]; rfl, herror, ?_, ?_⟩
  · intro h
    simp [h, Caller.inFinish] at hcaller
  · intro result h
    simp [h, Caller.inFinish] at hcaller

theorem Controlled.drain (hs : s.Controlled) {after : Caller}
    (hcaller : s.caller.inFinish = false) (hafter : after.inFinish = false)
    (herror : ∀ rest, after ≠ .workerError rest) : (s.drain after).Controlled := by
  have hopen : s.inputOpen = true := by rw [hs.inputOpen, hcaller]; rfl
  cases houtput : s.output with
  | nil =>
      simp only [Streaming.drain, houtput]
      exact .of_caller hopen hafter fun rest h => absurd h (herror rest)
  | cons chunk output =>
      simp only [Streaming.drain, houtput]
      exact .of_caller hopen hcaller hs.workerError

theorem Controlled.callerStep (hs : s.Controlled) (h : s.callerStep = some s') :
    s'.Controlled := by
  have hopen := hs.inputOpen
  cases hcaller : s.caller with
  | calls rest =>
      rw [hcaller] at hopen
      match rest with
      | [] =>
          simp only [Streaming.callerStep, hcaller] at h
          cases h
          exact ⟨rfl, by simp, by simp, by simp⟩
      | .write buf :: rest =>
          simp only [Streaming.callerStep, hcaller] at h
          cases h
          exact .of_caller hopen rfl (by simp)
      | .flush :: rest =>
          simp only [Streaming.callerStep, hcaller] at h
          cases h
          exact .of_caller hopen rfl (by simp)
  | send chunks length rest =>
      rw [hcaller] at hopen
      cases chunks with
      | nil =>
          simp only [Streaming.callerStep, hcaller] at h
          cases h
          exact .of_caller hopen rfl (by simp)
      | cons chunk chunks =>
          simp only [Streaming.callerStep, hcaller] at h
          split at h
          · split at h
            · cases h
              exact .of_caller hopen rfl (by simp)
            · cases h
          · rename_i hsource
            cases h
            exact .of_caller hopen rfl fun _ _ => Bool.eq_false_iff.mpr hsource
  | drain chunks length rest =>
      simp only [Streaming.callerStep, hcaller] at h
      cases h
      exact hs.drain (by rw [hcaller]; rfl) rfl (by simp)
  | flush rest =>
      simp only [Streaming.callerStep, hcaller] at h
      cases h
      exact hs.drain (by rw [hcaller]; rfl) rfl (by simp)
  | workerError rest =>
      rw [hcaller] at hopen
      simp only [Streaming.callerStep, hcaller] at h
      split at h
      · split at h
        · cases h
          exact .of_caller hopen rfl (by simp)
        · cases h
      · cases h
        exact .of_caller hopen rfl (by simp)
  | collect =>
      rw [hcaller] at hopen
      simp only [Streaming.callerStep, hcaller] at h
      split at h
      · cases h
        exact ⟨by simp [hopen], by simp, by simp, by simp⟩
      · rename_i houtput
        split at h
        · cases h
        · rename_i hsink
          cases h
          exact ⟨hopen, by simp, fun _ => ⟨Bool.eq_false_iff.mpr hsink, houtput⟩, by simp⟩
  | join =>
      have hjoin := hs.join hcaller
      rw [hcaller] at hopen
      simp only [Streaming.callerStep, hcaller] at h
      split at h
      · split at h
        · rename_i outcome hworker
          cases h
          refine ⟨hopen, by simp, by simp, ?_⟩
          intro result hresult
          cases hresult
          exact ⟨hjoin.2, outcome, hworker, rfl⟩
        · cases h
      · cases h
        exact ⟨hopen, by simp, by simp, by simp⟩
  | finished result => simp [Streaming.callerStep, hcaller] at h
  | panicked => simp [Streaming.callerStep, hcaller] at h

theorem sourceRead_cases {n : Nat} {resume : List UInt8 → σ}
    (h : s.sourceRead n resume = some s') :
    (n = 0 ∧ s' = { s with worker := .running (resume []) }) ∨
    (∃ piece, piece ≠ [] ∧ piece.length ≤ n ∧
      s.pending.drop s.pos = piece ++ s.pending.drop (s.pos + piece.length) ∧
      s' = { s with pos := s.pos + piece.length, worker := .running (resume piece) }) ∨
    (∃ chunk queue, 0 < n ∧ s.pending.drop s.pos = [] ∧ s.queue = chunk :: queue ∧
      s' = { s with queue, pending := chunk, pos := 0 }) ∨
    (0 < n ∧ s.pending.drop s.pos = [] ∧ s.queue = [] ∧ s.inputOpen = false ∧
      s' = { s with worker := .running (resume []) }) := by
  unfold sourceRead at h
  by_cases hn : n = 0
  · rw [if_pos hn] at h
    cases h
    exact .inl ⟨hn, rfl⟩
  · rw [if_neg hn] at h
    by_cases hleft : s.pending.drop s.pos = []
    · rw [if_neg (not_not.mpr hleft)] at h
      cases hqueue : s.queue with
      | cons chunk queue =>
          simp only [hqueue] at h
          cases h
          exact .inr (.inr (.inl ⟨chunk, queue, Nat.pos_of_ne_zero hn, hleft, rfl, rfl⟩))
      | nil =>
          simp only [hqueue] at h
          by_cases hopen : s.inputOpen = true
          · simp [hopen] at h
          · rw [if_neg hopen] at h
            cases h
            exact .inr (.inr (.inr ⟨Nat.pos_of_ne_zero hn, hleft, rfl,
              Bool.eq_false_iff.mpr hopen, rfl⟩))
    · rw [if_pos hleft] at h
      have hlength := List.length_pos_iff.mpr hleft
      have htaken : ((s.pending.drop s.pos).take (min n (s.pending.drop s.pos).length)).length =
          min n (s.pending.drop s.pos).length := by
        simp
      cases h
      refine .inr (.inl ⟨(s.pending.drop s.pos).take (min n (s.pending.drop s.pos).length),
        ?_, ?_, ?_, ?_⟩)
      · apply List.ne_nil_of_length_pos
        omega
      · omega
      · rw [htaken, ← List.drop_drop, List.take_append_drop]
      · rw [htaken]

theorem Controlled.of_running (hs : s.Controlled) {t : σ} (hworker : s.worker = .running t)
    (hcaller : s'.caller = s.caller) (hopen : s'.inputOpen = s.inputOpen) :
    s'.Controlled := by
  refine ⟨by rw [hopen, hcaller, hs.inputOpen], ?_, ?_, ?_⟩
  · intro rest h
    have hsource := hs.workerError rest (hcaller ▸ h)
    rw [hworker] at hsource
    cases hsource
  · intro h
    have hsink := (hs.join (hcaller ▸ h)).1
    rw [hworker] at hsink
    cases hsink
  · intro result h
    obtain ⟨-, outcome, hexited, -⟩ := hs.finished result (hcaller ▸ h)
    rw [hworker] at hexited
    cases hexited

theorem Controlled.of_stopped (hs : s.Controlled) {queue : List (List UInt8)}
    {worker : Worker σ} (hexited : ∀ outcome, s.worker ≠ .exited outcome)
    (hsource : s.worker.holdsSource = false → worker.holdsSource = false)
    (hsink : s.worker.holdsSink = false → worker.holdsSink = false) :
    Controlled { s with queue, worker } := by
  refine ⟨hs.inputOpen, fun rest h => hsource (hs.workerError rest h), ?_, ?_⟩
  · intro h
    have hjoin := hs.join h
    exact ⟨hsink hjoin.1, hjoin.2⟩
  · intro result h
    obtain ⟨-, outcome, h, -⟩ := hs.finished result h
    exact absurd h (hexited outcome)

theorem Controlled.workerStep (hs : s.Controlled) (h : s.workerStep encoder = some s') :
    s'.Controlled := by
  cases hworker : s.worker with
  | running t =>
      simp only [Streaming.workerStep, hworker] at h
      cases hnext : encoder.next t with
      | read n resume =>
          rw [hnext] at h
          obtain ⟨-, rfl⟩ | ⟨piece, -, -, -, rfl⟩ | ⟨chunk, queue, -, -, -, rfl⟩ |
            ⟨-, -, -, -, rfl⟩ := sourceRead_cases h
          all_goals exact hs.of_running hworker rfl rfl
      | write data next =>
          rw [hnext] at h
          cases h
          exact hs.of_running hworker rfl rfl
      | done outcome =>
          rw [hnext] at h
          cases h
          exact hs.of_running hworker rfl rfl
  | stopped outcome =>
      simp only [Streaming.workerStep, hworker] at h
      cases h
      exact hs.of_stopped (by simp [hworker]) (by simp [hworker, Worker.holdsSource])
        (by simp [Worker.holdsSink])
  | sinkDropped outcome =>
      simp only [Streaming.workerStep, hworker] at h
      cases h
      exact hs.of_stopped (by simp [hworker]) (by simp [Worker.holdsSource])
        (by simp [Worker.holdsSink])
  | sourceDropped outcome =>
      simp only [Streaming.workerStep, hworker] at h
      cases h
      exact hs.of_stopped (by simp [hworker]) (by simp [Worker.holdsSource])
        (by simp [Worker.holdsSink])
  | exited outcome => simp [Streaming.workerStep, hworker] at h

theorem workerStep_frame (h : s.workerStep encoder = some s') :
    s'.caller = s.caller ∧ s'.workerHeld = s.workerHeld := by
  cases hworker : s.worker with
  | running t =>
      simp only [workerStep, hworker] at h
      cases hnext : encoder.next t with
      | read n resume =>
          rw [hnext] at h
          obtain ⟨-, rfl⟩ | ⟨piece, -, -, -, rfl⟩ | ⟨chunk, queue, -, -, -, rfl⟩ |
            ⟨-, -, -, -, rfl⟩ := sourceRead_cases h
          all_goals exact ⟨rfl, rfl⟩
      | write data next =>
          rw [hnext] at h
          cases h
          exact ⟨rfl, rfl⟩
      | done outcome =>
          rw [hnext] at h
          cases h
          exact ⟨rfl, rfl⟩
  | stopped outcome | sinkDropped outcome | sourceDropped outcome =>
      simp only [workerStep, hworker] at h
      cases h
      exact ⟨rfl, rfl⟩
  | exited outcome => simp [workerStep, hworker] at h

section Carries

variable {input output : List UInt8} {ended : Bool} {t : σ}

/-- The end of the input is met once: nothing is left to be read then. -/
theorem Carries.pending_eq_nil (hcarries : s.Carries encoder calls input ended output t)
    (hended : ended = true) (hsource : s.worker.holdsSource) :
    s.pending.drop s.pos = [] := by
  have hrest := hcarries.input_rest hsource
  rw [(hcarries.input_ended hended).2, List.append_right_eq_self] at hrest
  exact (List.append_eq_nil_iff.mp hrest).1

theorem Carries.sourceRead {n : Nat} {resume : List UInt8 → σ}
    (hcarries : s.Carries encoder calls input ended output t) (hs : s.Controlled)
    (hworker : s.worker = .running t) (hnext : encoder.next t = .read n resume)
    (h : s.sourceRead n resume = some s') :
    ∃ input ended t, s'.Carries encoder calls input ended output t := by
  have hsource : s.worker.holdsSource := by rw [hworker]; rfl
  have hrest := hcarries.input_rest hsource
  rcases sourceRead_cases h with ⟨rfl, rfl⟩ | ⟨piece, hpiece, hlength, hdrop, rfl⟩ |
    ⟨chunk, queue, -, hdrop, hqueue, rfl⟩ | ⟨hn, hdrop, hqueue, hopen, rfl⟩
  · exact ⟨input, ended, resume [], .readNone hcarries.ran hnext, rfl, hcarries.input_prefix,
      fun _ => hrest, hcarries.output_eq, hcarries.input_ended⟩
  · have hended : ended = false := by
      by_contra hended
      have hnil := hcarries.pending_eq_nil (eq_true_of_ne_false hended) hsource
      rw [hnil] at hdrop
      exact hpiece (List.append_eq_nil_iff.mp hdrop.symm).1
    subst hended
    rw [hdrop, List.append_assoc, ← List.append_assoc input] at hrest
    refine ⟨input ++ piece, false, resume piece, .read hcarries.ran hnext hpiece hlength, rfl,
      ⟨_, hrest⟩, fun _ => hrest, hcarries.output_eq, nofun⟩
  · rw [hdrop, hqueue] at hrest
    exact ⟨input, ended, t, hcarries.ran, hcarries.worker, hcarries.input_prefix,
      fun _ => by simpa using hrest, hcarries.output_eq, hcarries.input_ended⟩
  · have hfinish : s.caller.inFinish = true := by
      have := hs.inputOpen
      rw [hopen] at this
      simpa using this
    have hinput : input = writtenBytes calls := by
      rw [hdrop, hqueue, Caller.unsent_of_inFinish hfinish] at hrest
      simpa using hrest
    exact ⟨input, true, resume [], .readEnd hcarries.ran hnext hn, rfl, hcarries.input_prefix,
      fun _ => hrest, hcarries.output_eq, fun _ => ⟨hfinish, hinput⟩⟩

theorem Carries.workerStep (hcarries : s.Carries encoder calls input ended output t)
    (hs : s.Controlled) (h : s.workerStep encoder = some s') :
    ∃ input ended output t, s'.Carries encoder calls input ended output t := by
  have hat := hcarries.worker
  cases hworker : s.worker with
  | running t' =>
      rw [hworker] at hat
      obtain rfl : t' = t := hat
      have hrest := hcarries.input_rest (by rw [hworker]; rfl)
      simp only [Streaming.workerStep, hworker] at h
      cases hnext : encoder.next t' with
      | read n resume =>
          rw [hnext] at h
          obtain ⟨input, ended, t, hcarries⟩ := hcarries.sourceRead hs hworker hnext h
          exact ⟨input, ended, output, t, hcarries⟩
      | write data next =>
          rw [hnext] at h
          cases h
          refine ⟨input, ended, output ++ data, next, .write hcarries.ran hnext, rfl,
            hcarries.input_prefix, fun _ => hrest, ?_, hcarries.input_ended⟩
          simp [← hcarries.output_eq]
      | done outcome =>
          rw [hnext] at h
          cases h
          exact ⟨input, ended, output, t', hcarries.ran, hnext, hcarries.input_prefix,
            fun _ => hrest, hcarries.output_eq, hcarries.input_ended⟩
  | stopped outcome =>
      rw [hworker] at hat
      have hrest := hcarries.input_rest (by rw [hworker]; rfl)
      simp only [Streaming.workerStep, hworker] at h
      cases h
      exact ⟨input, ended, output, t, hcarries.ran, hat, hcarries.input_prefix,
        fun _ => hrest, hcarries.output_eq, hcarries.input_ended⟩
  | sinkDropped outcome =>
      rw [hworker] at hat
      simp only [Streaming.workerStep, hworker] at h
      cases h
      exact ⟨input, ended, output, t, hcarries.ran, hat, hcarries.input_prefix,
        nofun, hcarries.output_eq, hcarries.input_ended⟩
  | sourceDropped outcome =>
      rw [hworker] at hat
      simp only [Streaming.workerStep, hworker] at h
      cases h
      exact ⟨input, ended, output, t, hcarries.ran, hat, hcarries.input_prefix,
        nofun, hcarries.output_eq, hcarries.input_ended⟩
  | exited outcome => simp [Streaming.workerStep, hworker] at h

end Carries

def Sound (encoder : Process UInt8 σ Outcome) (calls : List Call) (s : Streaming σ) : Prop :=
  s.Controlled ∧ ∃ input ended output t, s.Carries encoder calls input ended output t

theorem sound_new (encoder : Process UInt8 σ Outcome) (calls : List Call) :
    (new encoder calls).Sound encoder calls := by
  have hcontrolled : (new encoder calls).Controlled :=
    ⟨rfl, by simp [new], by simp [new], by simp [new]⟩
  refine ⟨hcontrolled, [], false, [], encoder.start, ?_⟩
  exact ⟨.start, rfl, List.nil_prefix, fun _ => rfl, rfl, nofun⟩

theorem Sound.step (hs : s.Sound encoder calls) (thread : Thread)
    (h : s.step encoder thread = some s') : s'.Sound encoder calls := by
  obtain ⟨hcontrolled, input, ended, output, t, hcarries⟩ := hs
  cases thread with
  | caller =>
      exact ⟨hcontrolled.callerStep h, input, ended, output, t,
        hcarries.callerStep hcontrolled h⟩
  | worker => exact ⟨hcontrolled.workerStep h, hcarries.workerStep hcontrolled h⟩

theorem sound_run {threads : List Thread}
    (hrun : run (Streaming.step encoder) (new encoder calls) threads = some s) :
    s.Sound encoder calls :=
  run_invariant (fun _ thread _ hstep hs => Sound.step hs thread hstep)
    (sound_new encoder calls) hrun

def Caller.isDone : Caller → Bool
  | .finished _ | .panicked => true
  | _ => false

theorem sourceRead_isSome {n : Nat} {resume : List UInt8 → σ}
    (h : s.queue ≠ [] ∨ s.inputOpen = false) : (s.sourceRead n resume).isSome := by
  unfold sourceRead
  by_cases hn : n = 0
  · simp [hn]
  · by_cases hleft : s.pending.drop s.pos = []
    · cases hqueue : s.queue with
      | cons chunk queue => simp [hn, hleft]
      | nil =>
          have hopen := h.resolve_left (not_not.mpr hqueue)
          simp [hn, hleft, hopen]
    · simp [hn, hleft]

theorem workerStep_isSome (hexited : ∀ outcome, s.worker ≠ .exited outcome)
    (h : s.queue ≠ [] ∨ s.inputOpen = false ∨ s.worker.holdsSource = false) :
    (s.workerStep encoder).isSome := by
  unfold workerStep
  cases hworker : s.worker with
  | running t =>
      cases hnext : encoder.next t with
      | read n resume =>
          simp only [hnext]
          apply sourceRead_isSome
          simpa [hworker, Worker.holdsSource] using h
      | write data next => simp [hnext]
      | done outcome => simp [hnext]
  | exited outcome => exact absurd hworker (hexited outcome)
  | _ => rfl

theorem callerStep_eq_none (hs : s.Controlled) (hdone : s.caller.isDone = false)
    (h : s.callerStep = none) : (∀ outcome, s.worker ≠ .exited outcome) ∧
      (s.queue ≠ [] ∨ s.inputOpen = false ∨ s.worker.holdsSource = false) := by
  have hopen := hs.inputOpen
  cases hcaller : s.caller with
  | calls rest =>
      match rest with
      | [] => simp [callerStep, hcaller] at h
      | .write buf :: rest => simp [callerStep, hcaller] at h
      | .flush :: rest => simp [callerStep, hcaller] at h
  | send chunks length rest =>
      cases chunks with
      | nil => simp [callerStep, hcaller] at h
      | cons chunk chunks =>
          simp only [callerStep, hcaller] at h
          split at h
          · rename_i hsource
            split at h
            · cases h
            · rename_i hfull
              refine ⟨?_, .inl ?_⟩
              · intro outcome hexited
                rw [hexited] at hsource
                cases hsource
              · intro hempty
                simp [hempty, inputDepth] at hfull
          · cases h
  | drain chunks length rest => simp [callerStep, hcaller] at h
  | flush rest => simp [callerStep, hcaller] at h
  | workerError rest =>
      refine ⟨?_, .inr (.inr (hs.workerError rest hcaller))⟩
      intro outcome hexited
      simp only [callerStep, hcaller, hexited] at h
      split at h <;> cases h
  | collect =>
      rw [hcaller] at hopen
      refine ⟨?_, .inr (.inl hopen)⟩
      intro outcome hexited
      simp only [callerStep, hcaller, hexited] at h
      split at h <;> simp [Worker.holdsSink] at h
  | join =>
      rw [hcaller] at hopen
      refine ⟨?_, .inr (.inl hopen)⟩
      intro outcome hexited
      simp only [callerStep, hcaller, hexited] at h
      split at h <;> cases h
  | finished result =>
      rw [hcaller] at hdone
      cases hdone
  | panicked =>
      rw [hcaller] at hdone
      cases hdone

theorem exists_step (encoder : Process UInt8 σ Outcome) (hs : s.Controlled)
    (hdone : s.caller.isDone = false) : ∃ thread, (s.step encoder thread).isSome := by
  cases h : s.callerStep with
  | some s' => exact ⟨.caller, by simp [step, h]⟩
  | none =>
      have hblocked := callerStep_eq_none hs hdone h
      exact ⟨.worker, workerStep_isSome hblocked.1 hblocked.2⟩

def load (s : Streaming σ) : Nat :=
  2 * s.caller.load + s.queue.length + s.output.length + s.worker.load

theorem drain_load {after : Caller} (hafter : after.load < s.caller.load) :
    (s.drain after).load < s.load := by
  cases houtput : s.output with
  | nil =>
      simp only [drain, houtput, load]
      omega
  | cons chunk output =>
      simp only [drain, houtput, load, List.length_cons]
      omega

theorem callerStep_load (h : s.callerStep = some s') : s'.load < s.load := by
  cases hcaller : s.caller with
  | calls rest =>
      match rest with
      | [] =>
          simp only [callerStep, hcaller] at h
          cases h
          simp [load, hcaller, Caller.load]
      | .write buf :: rest =>
          simp only [callerStep, hcaller] at h
          cases h
          simp only [load, hcaller, Caller.load, Call.load, List.map_cons, List.sum_cons]
          omega
      | .flush :: rest =>
          simp only [callerStep, hcaller] at h
          cases h
          simp only [load, hcaller, Caller.load, Call.load, List.map_cons, List.sum_cons]
          omega
  | send chunks length rest =>
      cases chunks with
      | nil =>
          simp only [callerStep, hcaller] at h
          cases h
          simp [load, hcaller, Caller.load]
      | cons chunk chunks =>
          simp only [callerStep, hcaller] at h
          split at h
          · split at h
            · cases h
              simp only [load, hcaller, Caller.load, List.length_append, List.length_cons,
                List.length_nil]
              omega
            · cases h
          · cases h
            simp [load, hcaller, Caller.load]
  | drain chunks length rest =>
      simp only [callerStep, hcaller] at h
      cases h
      apply drain_load
      simp [hcaller, Caller.load]
  | flush rest =>
      simp only [callerStep, hcaller] at h
      cases h
      apply drain_load
      simp [hcaller, Caller.load]
  | workerError rest =>
      simp only [callerStep, hcaller] at h
      split at h
      · split at h
        · cases h
          simp [load, hcaller, Caller.load]
        · cases h
      · cases h
        simp [load, hcaller, Caller.load]
  | collect =>
      simp only [callerStep, hcaller] at h
      split at h
      · rename_i houtput
        cases h
        simp [load, hcaller, houtput]
      · rename_i houtput
        split at h
        · cases h
        · cases h
          simp [load, hcaller, Caller.load]
  | join =>
      simp only [callerStep, hcaller] at h
      split at h
      · split at h
        · cases h
          simp [load, hcaller, Caller.load]
        · cases h
      · cases h
        simp [load, hcaller, Caller.load]
  | finished result => simp [callerStep, hcaller] at h
  | panicked => simp [callerStep, hcaller] at h

def Next (encoder : Process UInt8 σ Outcome) (s' s : Streaming σ) : Prop :=
  ∃ thread, s.step encoder thread = some s'

theorem workerStep_of_stopped (hstopped : ∀ t, s.worker ≠ .running t)
    (h : s.workerStep encoder = some s') :
    s'.load < s.load ∧ ∀ t, s'.worker ≠ .running t := by
  cases hworker : s.worker with
  | running t => exact absurd hworker (hstopped t)
  | stopped outcome =>
      simp only [workerStep, hworker] at h
      cases h
      simp [load, hworker, Worker.load]
  | sinkDropped outcome =>
      simp only [workerStep, hworker] at h
      cases h
      refine ⟨?_, by simp⟩
      simp only [load, hworker, Worker.load, List.length_nil]
      omega
  | sourceDropped outcome =>
      simp only [workerStep, hworker] at h
      cases h
      simp [load, hworker, Worker.load]
  | exited outcome => simp [workerStep, hworker] at h

theorem acc_of_stopped (hs : s.Controlled) (hstopped : ∀ t, s.worker ≠ .running t) :
    Acc (Next encoder) s := by
  induction hload : s.load using Nat.strongRecOn generalizing s with
  | ind load ih =>
      refine Acc.intro s fun s' hnext => ?_
      obtain ⟨thread, hstep⟩ := hnext
      cases thread with
      | caller =>
          have hworker := (callerStep_keeps hs hstep).worker
          apply ih s'.load (hload ▸ callerStep_load hstep) (hs.callerStep hstep) _ rfl
          rw [hworker]
          exact hstopped
      | worker =>
          have hnext := workerStep_of_stopped hstopped hstep
          exact ih s'.load (hload ▸ hnext.1) (hs.workerStep hstep) hnext.2 rfl

def left (s : Streaming σ) : List UInt8 :=
  s.pending.drop s.pos ++ (s.queue.flatten ++ s.caller.unsent)

structure Runs (t : σ) (left : List UInt8) (s : Streaming σ) : Prop where
  controlled : s.Controlled
  worker : s.worker = .running t
  left_eq : s.left = left

theorem Runs.callerStep {t : σ} {left : List UInt8} (hs : s.Runs t left)
    (h : s.callerStep = some s') : s'.Runs t left := by
  have hkeeps := callerStep_keeps hs.controlled h
  refine ⟨hs.controlled.callerStep h, hkeeps.worker.trans hs.worker, ?_⟩
  rw [← hs.left_eq, Streaming.left, hkeeps.pending, hkeeps.pos,
    hkeeps.unsent (by rw [hs.worker]; rfl), Streaming.left]

/-- Runs are finite if they are from where the encoder moves to: it can only take so many
chunks, and the writing thread only so many steps, before that. -/
theorem acc_of_moves {t : σ} {left : List UInt8}
    (hmoves : ∀ s s', Runs t left s → s.workerStep encoder = some s' →
      Acc (Next encoder) s' ∨ s'.load < s.load ∧ s'.worker = .running t ∧ s'.left = left)
    (hs : s.Runs t left) : Acc (Next encoder) s := by
  induction hload : s.load using Nat.strongRecOn generalizing s with
  | ind load ih =>
      refine Acc.intro s fun s' hnext => ?_
      obtain ⟨thread, hstep⟩ := hnext
      cases thread with
      | caller => exact ih s'.load (hload ▸ callerStep_load hstep) (hs.callerStep hstep) rfl
      | worker =>
          cases hmoves s s' hs hstep with
          | inl hacc => exact hacc
          | inr hmove =>
              exact ih s'.load (hload ▸ hmove.1)
                ⟨hs.controlled.workerStep hstep, hmove.2.1, hmove.2.2⟩ rfl

theorem Runs.workerStep_eq {t : σ} {left : List UInt8} (hs : s.Runs t left) :
    s.workerStep encoder = match encoder.next t with
      | .read n resume => s.sourceRead n resume
      | .write data next => some { s with output := s.output ++ [data], worker := .running next }
      | .done outcome => some { s with worker := .stopped outcome } := by
  simp only [workerStep, hs.worker]

/-- A read of some bytes takes a piece of what is left, fetches the next chunk, or meets the
end where nothing is left. -/
theorem Runs.sourceRead {t : σ} {left : List UInt8} {n : Nat} {resume : List UInt8 → σ}
    (hs : s.Runs t left) (hn : 0 < n) (hcontrolled : s'.Controlled)
    (h : s.sourceRead n resume = some s') :
    (∃ piece rest, piece ++ rest = left ∧ piece ≠ [] ∧ piece.length ≤ n ∧
      s'.Runs (resume piece) rest) ∨
    (left = [] ∧ s'.Runs (resume []) []) ∨
    (s'.load < s.load ∧ s'.worker = .running t ∧ s'.left = left) := by
  have hleft := hs.left_eq
  rcases sourceRead_cases h with ⟨rfl, -⟩ | ⟨piece, hpiece, hlength, hdrop, rfl⟩ |
    ⟨chunk, queue, -, hdrop, hqueue, rfl⟩ | ⟨-, hdrop, hqueue, hopen, rfl⟩
  · exact absurd hn (Nat.lt_irrefl 0)
  · rw [Streaming.left, hdrop, List.append_assoc] at hleft
    exact .inl ⟨piece, _, hleft, hpiece, hlength, hcontrolled, rfl, rfl⟩
  · refine .inr (.inr ⟨?_, hs.worker, ?_⟩)
    · simp [load, hqueue]
    · rw [Streaming.left, hdrop, hqueue] at hleft
      simpa [Streaming.left] using hleft
  · have hfinish : s.caller.inFinish = true := by
      have := hs.controlled.inputOpen
      rw [hopen] at this
      simpa using this
    rw [Streaming.left, hdrop, hqueue, Caller.unsent_of_inFinish hfinish] at hleft
    refine .inr (.inl ⟨hleft.symm, hcontrolled, rfl, ?_⟩)
    simp [Streaming.left, hdrop, hqueue, Caller.unsent_of_inFinish hfinish]

theorem acc_of_halts {t : σ} {left : List UInt8} (hhalts : encoder.Halts left t)
    (hs : s.Runs t left) : Acc (Next encoder) s := by
  induction hhalts generalizing s with
  | done hnext =>
      refine acc_of_moves (fun s s' hs hstep => .inl ?_) hs
      have hcontrolled := hs.controlled.workerStep hstep
      rw [hs.workerStep_eq, hnext] at hstep
      cases hstep
      exact acc_of_stopped hcontrolled (by simp)
  | write hnext hrest ih =>
      refine acc_of_moves (fun s s' hs hstep => .inl ?_) hs
      have hcontrolled := hs.controlled.workerStep hstep
      rw [hs.workerStep_eq, hnext] at hstep
      cases hstep
      exact ih ⟨hcontrolled, rfl, hs.left_eq⟩
  | readNone hnext hrest ih =>
      refine acc_of_moves (fun s s' hs hstep => .inl ?_) hs
      have hcontrolled := hs.controlled.workerStep hstep
      rw [hs.workerStep_eq, hnext] at hstep
      cases hstep
      exact ih ⟨hcontrolled, rfl, hs.left_eq⟩
  | readEnd hnext hn hrest ih =>
      refine acc_of_moves (fun s s' hs hstep => ?_) hs
      have hcontrolled := hs.controlled.workerStep hstep
      rw [hs.workerStep_eq, hnext] at hstep
      rcases hs.sourceRead hn hcontrolled hstep with
        ⟨piece, rest, happend, hpiece, -⟩ | ⟨-, hruns⟩ | hmove
      · exact absurd (List.append_eq_nil_iff.mp happend).1 hpiece
      · exact .inl (ih hruns)
      · exact .inr hmove
  | read hnext hn hleft hrest ih =>
      refine acc_of_moves (fun s s' hs hstep => ?_) hs
      have hcontrolled := hs.controlled.workerStep hstep
      rw [hs.workerStep_eq, hnext] at hstep
      rcases hs.sourceRead hn hcontrolled hstep with
        ⟨piece, rest, happend, hpiece, hlength, hruns⟩ | ⟨hempty, -⟩ | hmove
      · exact .inl (ih piece rest happend hpiece hlength hruns)
      · exact absurd hempty hleft
      · exact .inr hmove

theorem acc_new {encoder : Process UInt8 σ Outcome} {calls : List Call}
    (hhalts : encoder.Halts (writtenBytes calls) encoder.start) :
    Acc (Next encoder) (new encoder calls) :=
  acc_of_halts hhalts ⟨(sound_new encoder calls).1, rfl, rfl⟩

/-- With an encoder that halts, every run can be gone on with, and only until `finish` is
over. -/
theorem exists_run_done (hhalts : encoder.Halts (writtenBytes calls) encoder.start)
    {threads : List Thread}
    (hrun : run (Streaming.step encoder) (new encoder calls) threads = some s) :
    ∃ more t, run (Streaming.step encoder) s more = some t ∧ t.caller.isDone := by
  have hacc : Acc (Next encoder) s := by
    apply run_invariant (I := Acc (Next encoder)) ?_ (acc_new hhalts) hrun
    exact fun _ thread _ hstep hacc => hacc.inv ⟨thread, hstep⟩
  apply exists_run_of_acc (I := Controlled) ?_ ?_ (sound_run hrun).1 hacc
  · intro s thread s' hstep hs
    cases thread with
    | caller => exact hs.callerStep hstep
    | worker => exact hs.workerStep hstep
  · exact fun s hs hdone => exists_step encoder hs (eq_false_of_ne_true hdone)

/-- What the writer does at every moment: it carries the bytes as far as they have come, it
succeeds only with the encoder, all of whose output the sink then has, and its threads do not
block each other. -/
structure Relays (encoder : Process UInt8 σ Outcome) (calls : List Call) (s : Streaming σ) :
    Prop where
  carries : ∃ input ended output t, s.Carries encoder calls input ended output t ∧
    s.inner <+: output ∧
    (s.caller = .finished (.ok ()) →
      encoder.next t = .done (.returned (.ok ())) ∧ s.inner = output)
  live : s.caller.isDone = false → ∃ thread, (s.step encoder thread).isSome

theorem relays_of_run (encoder : Process UInt8 σ Outcome) (calls : List Call)
    (threads : List Thread) (s : Streaming σ)
    (hrun : run (Streaming.step encoder) (new encoder calls) threads = some s) :
    s.Relays encoder calls := by
  obtain ⟨hs, input, ended, output, t, hcarries⟩ := sound_run hrun
  refine ⟨⟨input, ended, output, t, hcarries, ⟨_, hcarries.output_eq⟩, ?_⟩,
    exists_step encoder hs⟩
  intro hcaller
  obtain ⟨houtput, outcome, hworker, hresult⟩ := hs.finished _ hcaller
  have hat := hcarries.worker
  have hinner := hcarries.output_eq
  rw [hworker, Outcome.finish_eq_ok hresult.symm] at hat
  rw [houtput, List.flatten_nil, List.append_nil] at hinner
  exact ⟨hat, hinner⟩

def echo : Process UInt8 (Option (List UInt8)) Outcome where
  start := none
  next
    | none => .read 65536 some
    | some [] => .done (.returned (.ok ()))
    | some data => .write data none

def echoThreads : List Thread :=
  List.replicate 3 .caller ++ List.replicate 3 .worker ++ List.replicate 7 .caller ++
    List.replicate 8 .worker ++ List.replicate 3 .caller

theorem echo_relays : ∃ s,
    run (Streaming.step echo) (new echo [.write [1, 2], .write [3]]) echoThreads = some s ∧
      s.caller = .finished (.ok ()) ∧ s.inner = [1, 2, 3] ∧
        s.Relays echo [.write [1, 2], .write [3]] := by
  refine ⟨_, rfl, ?_⟩
  exact ⟨rfl, rfl, relays_of_run echo _ echoThreads _ rfl⟩

end Streaming

end Sevenz.LzmaTurbo
