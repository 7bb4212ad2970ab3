import Sevenz.Lib.Delivery
import Sevenz.Reader.Lzma2Threads

/-!
# The window and the output of `Lzma2MtReader`

`codec/lzma_turbo.rs`: the loop that turns the feed/drain decoder of another crate back into a
reader.  The packed stream is read ahead into a window, the decoder is offered what the window
holds, and what it decodes goes into the caller's buffer, the rest into pieces for the next call.
Inner reads may come back short and may fail, and the caller may go on after an error.
-/

namespace Sevenz

open Lib

def mtInputChunk : Nat := 2 ^ 20

def mtOutputChunk : Nat := 2 ^ 20

def mtFeedPerThreadBytes : Nat := 128 * 1024 * 1024

def mtBacklogRunsPerThread : Nat := 2

def mtNoWorkerGiveUpBytes : Nat := 256 * 1024 * 1024

def mtInputHoldBytes : Nat := 192 * 1024 * 1024

inductive DrainStatus where
  | finished
  | progress
  | needsMoreInput
  deriving DecidableEq

/-- What the reader stands on: the coder below (`input`), `Lzma2AdaptiveDecoder` and
`Lzma2RunScanner`, which are another crate's, and the shared thread ceiling at each look at it.
`drainUpto` gives the calls of its sink, whether it fails in the end or not. -/
structure Lzma2Parts (σ δ κ : Type) where
  input : ReadFn IoError σ
  input_le : ∀ room s bytes, (input room s).1 = .ok bytes → bytes.length ≤ room
  feed : List UInt8 → δ → Except IoError Nat × δ
  feed_le : ∀ offered decoder taken, (feed offered decoder).1 = .ok taken → taken ≤ offered.length
  drainUpto : Nat → δ → List (List UInt8) × Except IoError DrainStatus × δ
  endOfInput : δ → δ
  setThreads : Nat → δ → δ
  inFlightBytes : δ → Nat
  memoryLimit : δ → Nat
  pendingRuns : δ → Nat
  /-- `None` where the chunk headers cannot be walked. -/
  scan : List UInt8 → κ → Option Nat × κ
  /-- How many times `next_run` answers with a run. -/
  nextRuns : κ → Nat × κ
  scanFinished : κ → Bool
  openRunOffset : κ → Option Nat
  inPosition : κ → Nat
  threads : Nat → Nat

inductive Lzma2Event where
  | delivered (bytes : List UInt8)
  | readFailed
  | fed (offered : List UInt8) (taken : Nat)
  | feedFailed (offered : List UInt8)
  | drained (pieces : List (List UInt8))
  | drainFailed (pieces : List (List UInt8))
  deriving DecidableEq

/-- `Lzma2MtReader`, its traces and its share in the checksums apart.  `looks` counts the looks at
the thread ceiling, and `log` is what happened so far. -/
structure Lzma2MtStream (σ δ κ : Type) where
  decoder : δ
  input : σ
  appliedThreads : Nat
  inbuf : List UInt8 := []
  inPos : Nat := 0
  base : Nat := 0
  scanPos : Nat := 0
  scanner : κ
  runsSeen : Nat := 0
  chasing : Bool := false
  scanBroken : Bool := false
  inputDone : Bool := false
  out : List (List UInt8) := []
  outPos : Nat := 0
  finished : Bool := false
  looks : Nat := 0
  log : List Lzma2Event := []

def feedTarget (threads memoryLimit : Nat) : Nat :=
  min (max (max threads 1 * mtFeedPerThreadBytes) Lzma2Plan.mtMinFeedBytes) (memoryLimit / 2)

inductive PumpMove where
  | stop
  | refill
  | offer (chasing : Bool) (upTo : Nat)

/-- The pieces of the spill path, for at most `rounds` pieces: the last one is filled up before a
new one is begun. -/
def spill : Nat → List (List UInt8) → List UInt8 → List (List UInt8)
  | 0, out, _ => out
  | rounds + 1, out, rest =>
      if rest.isEmpty then out
      else
        match out.getLast? with
        | some piece =>
            if piece.length = mtOutputChunk then
              spill rounds (out ++ [rest.take mtOutputChunk]) (rest.drop mtOutputChunk)
            else
              let room := mtOutputChunk - piece.length
              spill rounds (out.dropLast ++ [piece ++ rest.take room]) (rest.drop room)
        | none => spill rounds [rest.take mtOutputChunk] (rest.drop mtOutputChunk)

/-- The sink of `drain_upto`: the bytes in the caller's buffer and the pieces. -/
def drainInto (size : Nat) : List (List UInt8) → List UInt8 × List (List UInt8) →
    List UInt8 × List (List UInt8)
  | [], state => state
  | bytes :: pieces, (direct, out) =>
      let room := size - direct.length
      let rest := bytes.drop room
      drainInto size pieces (direct ++ bytes.take room, spill (rest.length + 1) out rest)

namespace Lzma2MtStream

variable {σ δ κ : Type} (parts : Lzma2Parts σ δ κ) (stream : Lzma2MtStream σ δ κ)

def new (decoder : δ) (input : σ) (scanner : κ) (threads : Nat) : Lzma2MtStream σ δ κ :=
  { decoder, input, scanner, appliedThreads := threads }

def syncThreads : Lzma2MtStream σ δ κ :=
  let want := parts.threads stream.looks
  let stream := { stream with looks := stream.looks + 1 }
  if want ≠ stream.appliedThreads then
    { stream with decoder := parts.setThreads want stream.decoder, appliedThreads := want }
  else stream

def backlogWanted : Nat :=
  max stream.appliedThreads 1 * mtBacklogRunsPerThread - parts.pendingRuns stream.decoder

def safeLimit : Nat :=
  if stream.inputDone || stream.scanBroken then stream.base + stream.inbuf.length
  else (parts.openRunOffset stream.scanner).getD (parts.inPosition stream.scanner)

/-- The window without the bytes the decoder has taken, where they are many. -/
def compact : Result (Lzma2MtStream σ δ κ) :=
  if stream.inPos < mtInputChunk then .ok stream
  else if stream.scanPos < stream.inPos then .error (.panic .attemptToSubtractWithOverflow)
  else
    .ok { stream with
      inbuf := stream.inbuf.drop stream.inPos
      base := stream.base + stream.inPos
      scanPos := stream.scanPos - stream.inPos
      inPos := 0 }

/-- The reads of `refill` into the room behind the window, for at most `rounds` reads: what came,
and the error of the last read. -/
def fill : Nat → Nat → List UInt8 → σ → List Lzma2Event →
    Option IoError × List UInt8 × σ × List Lzma2Event
  | 0, _, got, s, log => (none, got, s, log)
  | rounds + 1, room, got, s, log =>
      if room = 0 then (none, got, s, log)
      else
        match parts.input room s with
        | (.error e, s) => (some e, got, s, log ++ [.readFailed])
        | (.ok [], s) => (none, got, s, log ++ [.delivered []])
        | (.ok (b :: bytes), s) =>
            fill rounds (room - (bytes.length + 1)) (got ++ b :: bytes) s
              (log ++ [.delivered (b :: bytes)])

def scanAhead : Result (Lzma2MtStream σ δ κ) :=
  if stream.scanBroken || parts.scanFinished stream.scanner then
    .ok { stream with scanPos := stream.inbuf.length }
  else if stream.inbuf.length < stream.scanPos then .error (.panic .indexOutOfBounds)
  else
    match parts.scan (stream.inbuf.drop stream.scanPos) stream.scanner with
    | (none, scanner) =>
        .ok { stream with scanner, scanBroken := true, scanPos := stream.inbuf.length }
    | (some n, scanner) =>
        let (runs, scanner) := parts.nextRuns scanner
        .ok { stream with
          scanner
          runsSeen := stream.runsSeen + runs
          scanPos :=
            if parts.scanFinished scanner then stream.inbuf.length else stream.scanPos + n }

/-- `refill`.  The window is extended with zeros before the reads, and cut to what came after
them. -/
def refill : Result Unit × Lzma2MtStream σ δ κ :=
  match stream.compact with
  | .error fault => (.error fault, stream)
  | .ok stream =>
      let (failed, got, input, log) :=
        fill parts mtInputChunk mtInputChunk [] stream.input stream.log
      let filled := { stream with inbuf := stream.inbuf ++ got, input, log }
      match failed with
      | some e =>
          (.error (.error (.ofIo e)),
            { filled with
              inbuf := filled.inbuf ++ List.replicate (mtInputChunk - got.length) 0 })
      | none =>
          if got.isEmpty then
            (.ok (),
              { filled with inputDone := true, decoder := parts.endOfInput filled.decoder })
          else
            match filled.scanAhead parts with
            | .error fault => (.error fault, filled)
            | .ok stream => (.ok (), stream)

def oneRun : Bool :=
  stream.runsSeen = 0 && mtNoWorkerGiveUpBytes < parts.inPosition stream.scanner &&
    !stream.inputDone

def pumpTarget : Nat :=
  if stream.oneRun parts then mtInputChunk
  else feedTarget stream.appliedThreads (parts.memoryLimit stream.decoder)

def pumpHold : Nat := if stream.oneRun parts then 2 * mtInputChunk else mtInputHoldBytes

def pumpMove (wantRuns runsAtStart : Nat) (fed : Bool) : PumpMove :=
  let upTo := min stream.inbuf.length (stream.safeLimit parts - stream.base)
  if fed && wantRuns ≤ stream.runsSeen - runsAtStart then .stop
  else if stream.pumpTarget parts ≤ parts.inFlightBytes stream.decoder then .stop
  else if stream.inPos < upTo then .offer false upTo
  else if stream.inputDone = false ∧
      stream.inbuf.length - stream.inPos < stream.pumpHold parts then .refill
  else if (stream.chasing ∨ parts.inFlightBytes stream.decoder = 0) ∧
      stream.inPos < stream.inbuf.length then
    .offer true (min stream.inbuf.length (stream.inPos + mtInputChunk))
  else .stop

def offer (upTo : Nat) : Result Nat × Lzma2MtStream σ δ κ :=
  let offered := (stream.inbuf.take upTo).drop stream.inPos
  match parts.feed offered stream.decoder with
  | (.error e, decoder) =>
      (.error (.error (.ofIo e)),
        { stream with decoder, log := stream.log ++ [.feedFailed offered] })
  | (.ok taken, decoder) =>
      (.ok taken,
        { stream with
          decoder, inPos := stream.inPos + taken, log := stream.log ++ [.fed offered taken] })

def pumpLoop (wantRuns runsAtStart : Nat) :
    Nat → Bool → Lzma2MtStream σ δ κ → Result Bool × Lzma2MtStream σ δ κ
  | 0, _, stream => (.error .outOfFuel, stream)
  | rounds + 1, fed, stream =>
      match stream.pumpMove parts wantRuns runsAtStart fed with
      | .stop => (.ok fed, stream)
      | .refill =>
          match stream.refill parts with
          | (.error fault, stream) => (.error fault, stream)
          | (.ok (), stream) => pumpLoop wantRuns runsAtStart rounds fed stream
      | .offer chasing upTo =>
          match { stream with chasing }.offer parts upTo with
          | (.error fault, stream) => (.error fault, stream)
          | (.ok taken, next) =>
              let fed := fed || 0 < taken
              if taken < upTo - stream.inPos then (.ok fed, next)
              else pumpLoop wantRuns runsAtStart rounds fed next

def pumpInput (fuel wantRuns : Nat) : Result Bool × Lzma2MtStream σ δ κ :=
  pumpLoop parts wantRuns stream.runsSeen fuel false stream

def keepBacklog (fuel : Nat) : Result Bool × Lzma2MtStream σ δ κ :=
  let want := stream.backlogWanted parts
  if stream.inputDone = false ∧ 0 < want then stream.pumpInput parts fuel want
  else (.ok false, stream)

def drain (size : Nat) : Result (List UInt8 × DrainStatus) × Lzma2MtStream σ δ κ :=
  let (pieces, status, decoder) := parts.drainUpto size stream.decoder
  let (direct, out) := drainInto size pieces ([], stream.out)
  match status with
  | .error e =>
      (.error (.error (.ofIo e)),
        { stream with decoder, out, log := stream.log ++ [.drainFailed pieces] })
  | .ok status =>
      (.ok (direct, status), { stream with decoder, out, log := stream.log ++ [.drained pieces] })

def endedWithoutMarker : IoError := .unexpectedEof

def afterDrain (fuel : Nat) (status : DrainStatus) (toldTheEnd : Bool) (direct : List UInt8) :
    Result Bool × Lzma2MtStream σ δ κ :=
  match status with
  | .finished => (.ok false, { stream with finished := true })
  | .progress => (.ok false, stream)
  | .needsMoreInput =>
      match stream.pumpInput parts fuel (max (stream.backlogWanted parts) 1) with
      | (.error fault, stream) => (.error fault, stream)
      | (.ok pumped, stream) =>
          (.ok (!pumped && toldTheEnd && direct.isEmpty && stream.out.isEmpty), stream)

def drainOnce (fuel size : Nat) : Result (List UInt8 × Bool) × Lzma2MtStream σ δ κ :=
  match stream.drain parts size with
  | (.error fault, stream) => (.error fault, stream)
  | (.ok (direct, status), drained) =>
      match drained.afterDrain parts fuel status stream.inputDone direct with
      | (.error fault, stream) => (.error fault, stream)
      | (.ok ended, stream) => (.ok (direct, ended), stream)

def readLoop (fuel size : Nat) :
    Nat → Lzma2MtStream σ δ κ → Result (List UInt8) × Lzma2MtStream σ δ κ
  | 0, stream => (.error .outOfFuel, stream)
  | rounds + 1, stream =>
      match stream.out with
      | front :: rest =>
          if stream.outPos < front.length then
            let n := min (front.length - stream.outPos) size
            (.ok ((front.drop stream.outPos).take n), { stream with outPos := stream.outPos + n })
          else readLoop fuel size rounds { stream with out := rest, outPos := 0 }
      | [] =>
          if stream.finished || size = 0 then (.ok [], stream)
          else
            match (stream.syncThreads parts).keepBacklog parts fuel with
            | (.error fault, stream) => (.error fault, stream)
            | (.ok _, stream) =>
                match stream.drainOnce parts fuel size with
                | (.error fault, stream) => (.error fault, stream)
                | (.ok (_, true), stream) => (.error (.error (.ofIo endedWithoutMarker)), stream)
                | (.ok (direct, false), stream) =>
                    if direct.isEmpty then readLoop fuel size rounds stream
                    else (.ok direct, stream)

/-- `Lzma2MtReader::read`.  Its loops are left out of fuel where they do not end in `fuel`
rounds. -/
def read (fuel : Nat) : ReadFn Fault (Lzma2MtStream σ δ κ) := fun size stream =>
  stream.readLoop parts fuel size fuel

end Lzma2MtStream

end Sevenz
