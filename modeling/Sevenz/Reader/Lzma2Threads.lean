import Sevenz.Lib.Runs
import Sevenz.Archive

/-!
# The thread ceiling of the LZMA2 coders

`codec/lzma_turbo.rs`: the control block that an `ArchiveReader` shares with its
`Lzma2Handle`s and with the LZMA2 coders of the block it decodes.  A handle may be used from
another thread at any moment, so the steps of the reader, of its coders and of the handles
interleave in any order; each is atomic in the one cell they share.
-/

namespace Sevenz

open Lib

abbrev ThreadCount := { threads : Nat // 1 ≤ threads ∧ threads ≤ 256 }

def clampThreads (threads : Nat) : ThreadCount :=
  ⟨max 1 (min threads 256), by omega⟩

structure Lzma2Control where
  threads : Nat
  engaged : Bool
  blockIndex : Nat
  pendingRuns : Nat
  runsClaimed : Nat
  inFlightBytes : Nat
  spawnedThreads : Nat
  deriving DecidableEq

structure Lzma2Published where
  pendingRuns : Nat
  runsClaimed : Nat
  inFlightBytes : Nat
  spawnedThreads : Nat

namespace Lzma2Control

def new (threads : Nat) : Lzma2Control :=
  { threads := max threads 1, engaged := false, blockIndex := 0, pendingRuns := 0
    runsClaimed := 0, inFlightBytes := 0, spawnedThreads := 0 }

variable (control : Lzma2Control)

def setThreads (threads : Nat) : Lzma2Control := { control with threads := max threads 1 }

def engage : Lzma2Control := { control with engaged := true }

def finish : Lzma2Control := { control with pendingRuns := 0, inFlightBytes := 0 }

def setBlockIndex (blockIndex : Nat) : Lzma2Control :=
  { control with
    blockIndex, engaged := false, pendingRuns := 0, runsClaimed := 0, inFlightBytes := 0
    spawnedThreads := 0 }

def publish (published : Lzma2Published) : Lzma2Control :=
  { control with
    pendingRuns := published.pendingRuns, runsClaimed := published.runsClaimed
    inFlightBytes := published.inFlightBytes, spawnedThreads := published.spawnedThreads }

@[simp] theorem setThreads_threads (threads : ThreadCount) :
    (control.setThreads threads).threads = threads := by
  have := threads.property
  simp only [setThreads]
  omega

@[simp] theorem engage_threads : control.engage.threads = control.threads := rfl

@[simp] theorem finish_threads : control.finish.threads = control.threads := rfl

@[simp] theorem setBlockIndex_threads (blockIndex : Nat) :
    (control.setBlockIndex blockIndex).threads = control.threads := rfl

@[simp] theorem publish_threads (published : Lzma2Published) :
    (control.publish published).threads = control.threads := rfl

end Lzma2Control

/-- The parallel coder, as far as its thread count: the one it last applied is the one its
decoder runs with. -/
structure Lzma2MtReader where
  appliedThreads : Nat
  decoderThreads : Nat
  applied : decoderThreads = appliedThreads
  deriving DecidableEq

namespace Lzma2MtReader

/-- The new coder engages the control block and stores its own thread count there. -/
def new (threads : Nat) (control : Lzma2Control) : Lzma2MtReader × Lzma2Control :=
  (⟨threads, threads, rfl⟩, control.engage.setThreads threads)

def syncThreads (reader : Lzma2MtReader) (control : Lzma2Control) : Lzma2MtReader :=
  let want := control.threads
  if want ≠ reader.appliedThreads then ⟨want, want, rfl⟩ else reader

@[simp] theorem syncThreads_decoderThreads (reader : Lzma2MtReader) (control : Lzma2Control) :
    (reader.syncThreads control).decoderThreads = control.threads := by
  simp only [syncThreads]
  split
  · rfl
  · rename_i h
    rw [reader.applied]
    exact (not_not.mp h).symm

end Lzma2MtReader

inductive Lzma2Plan where
  | singleThreaded
  | adaptive (threads memoryLimit : Nat)
  deriving DecidableEq

namespace Lzma2Plan

def mtMinBudgetBytes : Nat := 32 * 1024 * 1024

def mtBudgetPerThreadBytes : Nat := 512 * 1024 * 1024

def mtMinFeedBytes : Nat := 1024 * 1024 * 1024

def mtMinBudgetFloorBytes : Nat := 2 * mtMinFeedBytes

def lzStateBytes : Nat := 0x100000

def mtBudget (threads : Nat) (memoryLimitBytes : UInt64) (dictSize : Nat) : Option Nat :=
  let budget :=
    if memoryLimitBytes = 0xFFFFFFFFFFFFFFFF then
      max (min (threads * mtBudgetPerThreadBytes) (2 ^ 64 - 1)) mtMinBudgetFloorBytes
    else memoryLimitBytes.toNat - min (dictSize + lzStateBytes) (2 ^ 64 - 1)
  if mtMinBudgetBytes ≤ budget then some budget else none

def forBlock (threads : Nat) (adaptive : Bool) (memoryLimitBytes : UInt64) (dictSize : Nat) :
    Lzma2Plan :=
  if threads ≤ 1 && !adaptive then singleThreaded
  else
    match mtBudget threads memoryLimitBytes dictSize with
    | none => singleThreaded
    | some memoryLimit => .adaptive threads memoryLimit

theorem forBlock_adaptive {threads : Nat} {adaptive : Bool} {memoryLimitBytes : UInt64}
    {dictSize planned memoryLimit : Nat}
    (h : forBlock threads adaptive memoryLimitBytes dictSize = .adaptive planned memoryLimit) :
    planned = threads := by
  unfold forBlock at h
  split at h
  · simp at h
  · split at h
    · simp at h
    · simp at h
      exact h.1.symm

end Lzma2Plan

inductive Lzma2Coder where
  | singleThreaded
  | adaptive (reader : Lzma2MtReader)
  deriving DecidableEq

def lzma2Decoder (plan : Lzma2Plan) (control : Lzma2Control) : Lzma2Coder × Lzma2Control :=
  match plan with
  | .singleThreaded => (.singleThreaded, control)
  | .adaptive threads _ =>
      let (reader, control) := Lzma2MtReader.new threads control
      (.adaptive reader, control)

/-- An `ArchiveReader`, as far as its thread count, with the LZMA2 coders of the block it is
decoding. -/
structure Lzma2Decoding where
  threadCount : ThreadCount
  adaptiveLzma2 : Bool
  memoryLimitBytes : UInt64
  lzma2 : Lzma2Control
  block : Option (List Lzma2Coder)
  deriving DecidableEq

/-- What a handle, the reader and the coders of its blocks do. -/
inductive Lzma2Op where
  | handleSetThreads (threads : Nat)
  | setThreads (threads : Nat)
  | setAdaptiveLzma2 (adaptive : Bool)
  | startBlock (blockIndex : Nat)
  | buildCoder (dictSize : Nat) (accepted : Bool)
  | read (coder : Nat) (published : Option Lzma2Published) (finished : Bool)
  | endBlock

namespace Lzma2Decoding

def withLimits (limits : ArchiveLimits) : Lzma2Decoding :=
  { threadCount := clampThreads 1, adaptiveLzma2 := false
    memoryLimitBytes := limits.memoryLimitBytes, lzma2 := .new 1, block := none }

def plan (s : Lzma2Decoding) (dictSize : Nat) : Lzma2Plan :=
  .forBlock s.threadCount s.adaptiveLzma2 s.memoryLimitBytes dictSize

/-- One step.  A decode borrows the reader, so its own setters wait for the block to end; the
handle's do not. -/
def step (s : Lzma2Decoding) : Lzma2Op → Option Lzma2Decoding
  | .handleSetThreads threads =>
      some { s with lzma2 := s.lzma2.setThreads (clampThreads threads) }
  | .setThreads threads =>
      match s.block with
      | some _ => none
      | none =>
          let threadCount := clampThreads threads
          some { s with threadCount, lzma2 := s.lzma2.setThreads threadCount }
  | .setAdaptiveLzma2 adaptive =>
      match s.block with
      | some _ => none
      | none => some { s with adaptiveLzma2 := adaptive }
  | .startBlock blockIndex =>
      match s.block with
      | some _ => none
      | none => some { s with lzma2 := s.lzma2.setBlockIndex blockIndex, block := some [] }
  | .buildCoder dictSize accepted =>
      match s.block with
      | none => none
      | some coders =>
          if accepted then
            let (coder, lzma2) := lzma2Decoder (s.plan dictSize) s.lzma2
            some { s with lzma2, block := some (coders ++ [coder]) }
          else some s
  | .read coder published finished =>
      match s.block with
      | none => none
      | some coders =>
          match coders[coder]? with
          | some (.adaptive reader) =>
              let reader := reader.syncThreads s.lzma2
              -- a failed drain publishes nothing
              let lzma2 := (published.map s.lzma2.publish).getD s.lzma2
              let lzma2 := if finished then lzma2.finish else lzma2
              some { s with lzma2, block := some (coders.set coder (.adaptive reader)) }
          | _ => none
  | .endBlock =>
      match s.block with
      | none => none
      | some _ => some { s with block := none }

def Engages (s : Lzma2Decoding) : Lzma2Op → Prop
  | .buildCoder dictSize accepted => accepted = true ∧ s.plan dictSize ≠ .singleThreaded
  | _ => False

def Looks (s s' : Lzma2Decoding) (reader : Lzma2MtReader) : Lzma2Op → Prop
  | .buildCoder _ _ =>
      ∃ coders, s.block = some coders ∧ s'.block = some (coders ++ [.adaptive reader])
  | .read coder _ _ => ∃ coders, s'.block = some coders ∧ coders[coder]? = some (.adaptive reader)
  | _ => False

end Lzma2Decoding

def Lzma2Op.sets : Lzma2Op → Option Nat
  | .handleSetThreads threads => some (clampThreads threads)
  | .setThreads threads => some (clampThreads threads)
  | _ => none

def lastSet (ops : List Lzma2Op) : Nat :=
  ops.foldl (fun last op => op.sets.getD last) 1

theorem lastSet_concat (ops : List Lzma2Op) (op : Lzma2Op) :
    lastSet (ops ++ [op]) = op.sets.getD (lastSet ops) := by
  simp [lastSet]

namespace Lzma2Decoding

/-- The ceiling in force after a step is the last value set, and so is the one a coder takes
in it. -/
def Obeys (before : List Lzma2Op) (op : Lzma2Op) (s s' : Lzma2Decoding) : Prop :=
  s'.lzma2.threads = lastSet (before ++ [op]) ∧
    ∀ reader, Looks s s' reader op → reader.decoderThreads = lastSet (before ++ [op])

/-- A parallel coder is built only while the ceiling in force is the reader's own count. -/
def StartsInForce (op : Lzma2Op) (s : Lzma2Decoding) : Prop :=
  s.Engages op → s.lzma2.threads = s.threadCount

theorem step_threads {s s' : Lzma2Decoding} {op : Lzma2Op} (h : s.step op = some s')
    (hengages : ¬ s.Engages op) : s'.lzma2.threads = op.sets.getD s.lzma2.threads := by
  cases op with
  | handleSetThreads threads =>
      cases h
      simp [Lzma2Op.sets]
  | setThreads threads =>
      simp only [step] at h
      split at h
      · simp at h
      · cases h
        simp [Lzma2Op.sets]
  | setAdaptiveLzma2 adaptive =>
      simp only [step] at h
      split at h
      · simp at h
      · cases h
        simp [Lzma2Op.sets]
  | startBlock blockIndex =>
      simp only [step] at h
      split at h
      · simp at h
      · cases h
        simp [Lzma2Op.sets]
  | buildCoder dictSize accepted =>
      simp only [step] at h
      split at h
      · simp at h
      · split at h
        · rename_i haccepted
          simp only [Engages, haccepted, true_and, not_not] at hengages
          rw [hengages] at h
          cases h
          simp [Lzma2Op.sets, lzma2Decoder]
        · cases h
          simp [Lzma2Op.sets]
  | read coder published finished =>
      simp only [step] at h
      split at h
      · simp at h
      · split at h
        · cases h
          cases published <;> cases finished <;> simp [Lzma2Op.sets]
        · simp at h
  | endBlock =>
      simp only [step] at h
      split at h
      · simp at h
      · cases h
        simp [Lzma2Op.sets]

theorem step_engages {s s' : Lzma2Decoding} {op : Lzma2Op} (h : s.step op = some s')
    (hengages : s.Engages op) :
    op.sets = none ∧ s'.lzma2.threads = s.threadCount ∧
      ∀ reader, Looks s s' reader op → reader.decoderThreads = s.threadCount := by
  cases op with
  | buildCoder dictSize accepted =>
      obtain ⟨rfl, hplan⟩ := hengages
      simp only [step] at h
      split at h
      · simp at h
      · rename_i coders hblock
        cases hplanned : s.plan dictSize with
        | singleThreaded => exact absurd hplanned hplan
        | adaptive threads memoryLimit =>
            have hthreads := Lzma2Plan.forBlock_adaptive hplanned
            rw [hplanned, hthreads] at h
            cases h
            refine ⟨rfl, by simp [lzma2Decoder, Lzma2MtReader.new], ?_⟩
            intro reader hlooks
            obtain ⟨_, hcoders, hreader⟩ := hlooks
            rw [hblock] at hcoders
            cases hcoders
            simp [lzma2Decoder, Lzma2MtReader.new] at hreader
            rw [← hreader]
  | _ => exact hengages.elim

theorem step_looks {s s' : Lzma2Decoding} {op : Lzma2Op} (h : s.step op = some s')
    (hengages : ¬ s.Engages op) {reader : Lzma2MtReader} (hlooks : Looks s s' reader op) :
    op.sets = none ∧ reader.decoderThreads = s.lzma2.threads := by
  cases op with
  | buildCoder dictSize accepted =>
      obtain ⟨coders, hblock, hbuilt⟩ := hlooks
      simp only [step, hblock] at h
      split at h
      · rename_i haccepted
        simp only [Engages, haccepted, true_and, not_not] at hengages
        rw [hengages] at h
        cases h
        simp [lzma2Decoder] at hbuilt
      · cases h
        rw [hblock] at hbuilt
        simp at hbuilt
  | read coder published finished =>
      obtain ⟨coders', hblock', hreader⟩ := hlooks
      simp only [step] at h
      split at h
      · simp at h
      · split at h
        · rename_i coders hblock running hrunning
          cases h
          cases hblock'
          have hcoder := (List.getElem?_eq_some_iff.mp hrunning).choose
          rw [List.getElem?_set_self hcoder] at hreader
          cases hreader
          simp [Lzma2Op.sets]
        · simp at h
  | _ => exact hlooks.elim

/-- In every interleaving, the ceiling the coders obey is always the last one set, exactly if
no block starts a parallel coder while the ceiling in force is not the reader's own count. -/
theorem threads_lastSet_iff (limits : ArchiveLimits) (ops : List Lzma2Op) :
    EveryStep step (withLimits limits) ops Obeys ↔
      EveryStep step (withLimits limits) ops fun _ op s _ => s.StartsInForce op := by
  have hopen : (withLimits limits).lzma2.threads = lastSet [] := rfl
  constructor
  · intro h before op after hops s s' hbefore hstep hengages
    have hforce : s.lzma2.threads = lastSet before := by
      apply EveryStep.invariant (I := fun before s => s.lzma2.threads = lastSet before)
        hopen ?_ hops hbefore
      exact h.mono fun _ _ _ _ _ _ hobeys _ => hobeys.1
    have hstored := step_engages hstep hengages
    have hobeyed := (h before op after hops s s' hbefore hstep).1
    rw [lastSet_concat, hstored.1, hstored.2.1] at hobeyed
    rw [hforce]
    exact hobeyed.symm
  · intro h
    have hforce : EveryStep step (withLimits limits) ops fun before op s s' =>
        s.lzma2.threads = lastSet before → Obeys before op s s' := by
      refine h.mono ?_
      intro before op s s' hbefore hstep hstarts hforce
      simp only [Obeys, lastSet_concat]
      by_cases hengages : s.Engages op
      · have hstored := step_engages hstep hengages
        have hcount := hstarts hengages
        rw [hstored.1, hstored.2.1, Option.getD_none, ← hforce, hcount]
        exact ⟨rfl, hstored.2.2⟩
      · refine ⟨by rw [step_threads hstep hengages, hforce], ?_⟩
        intro reader hlooks
        have hlooked := step_looks hstep hengages hlooks
        rw [hlooked.1, hlooked.2, hforce, Option.getD_none]
    intro before op after hops s s' hbefore hstep
    apply hforce before op after hops s s' hbefore hstep
    apply EveryStep.invariant (I := fun before s => s.lzma2.threads = lastSet before)
      hopen ?_ hops hbefore
    exact hforce.mono fun _ _ _ _ _ _ hobeys hbefore => (hobeys hbefore).1

/-- A handle widens the ceiling of a reader that may widen, and the block that starts next
stores the reader's single thread over it. -/
theorem handle_overwritten :
    ¬ EveryStep step (withLimits {})
      [.setAdaptiveLzma2 true, .handleSetThreads 8, .startBlock 0, .buildCoder 0x1000 true]
      Obeys := by
  intro h
  have hobeys := h [.setAdaptiveLzma2 true, .handleSetThreads 8, .startBlock 0]
    (.buildCoder 0x1000 true) [] rfl _ _ rfl rfl
  exact absurd hobeys.1 (by decide)

end Lzma2Decoding

end Sevenz
