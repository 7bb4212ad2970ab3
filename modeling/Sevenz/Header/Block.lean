import Sevenz.Header.Number
import Sevenz.Lib.Offsets
import Sevenz.Lib.DepthFirst

/-!
# Blocks

`Archive::read_block` and the check it ends with, `validate_coder_graph`.
-/

namespace Sevenz

open Lib Lib.Parser Lib.DepthFirst

/-- The stream counts of a coder: one of each unless the flags say otherwise. -/
def readStreamCounts (isSimple : Bool) : HeaderReader (Nat × Nat) :=
  if isSimple then pure (1, 1)
  else do
    let numInStreams ← readNumber
    let numOutStreams ← readNumber
    pure (numInStreams, numOutStreams)

def readProperties (bounds : HeaderBounds) (hasAttributes : Bool) : HeaderReader (List UInt8) :=
  if hasAttributes then do
    let size ← readNumber
    let propertiesSize ← bounds.size size
    readExact propertiesSize
  else pure []

structure StreamTotals where
  totalIn : Nat
  totalOut : Nat

def readCoder (bounds : HeaderBounds) (totals : StreamTotals) :
    HeaderReader (Coder × StreamTotals) := do
  let bits ← readU8
  let encoderMethodId ← readExact (bits &&& 0xF).toNat
  let (numInStreams, numOutStreams) ← readStreamCounts (bits &&& 0x10 == 0)
  let totalIn ← Result.okOr (.other "coder stream counts exceed available input")
    (checkedAdd totals.totalIn numInStreams)
  let totalOut ← Result.okOr (.other "coder stream counts exceed available input")
    (checkedAdd totals.totalOut numOutStreams)
  let cap := bounds.limits.maxStreamsPerCoder.toNat
  Result.rejectIf (numInStreams > cap ∨ numOutStreams > cap)
    (.limitExceeded .streamsPerCoder cap (max numInStreams numOutStreams))
  let _ ← bounds.count totalIn .entries
  let _ ← bounds.count totalOut .entries
  let properties ← readProperties bounds (bits &&& 0x20 != 0)
  Result.rejectIf (bits &&& 0x80 ≠ 0)
    (.other ("Alternative methods are unsupported, please report. " ++
      "The reference implementation doesn't support them either."))
  pure ({ encoderMethodId, numInStreams, numOutStreams, properties }, { totalIn, totalOut })

def readCoders (bounds : HeaderBounds) :
    Nat → StreamTotals → HeaderReader (List Coder × StreamTotals)
  | 0, totals => pure ([], totals)
  | n + 1, totals => do
      let (coder, totals) ← readCoder bounds totals
      let (coders, totals) ← readCoders bounds n totals
      pure (coder :: coders, totals)

def readBindPair (totals : StreamTotals) : HeaderReader BindPair := do
  let inIndex ← readNumber
  let outIndex ← readNumber
  Result.rejectIf (inIndex ≥ totals.totalIn ∨ outIndex ≥ totals.totalOut)
    (.other "bind pair references an out-of-range stream")
  pure { inIndex, outIndex }

/-- A single packed stream is not stored: it is the one in-stream that is not bound. -/
def readPackedStreams (block : Block) (totalIn numPackedStreams : Nat) :
    HeaderReader (List Nat) :=
  if numPackedStreams = 1 then do
    let index ← Result.okOr (.other "Couldn't find stream's bind pair index")
      ((List.range totalIn).find? fun i => (block.findBindPairForInStream i).isNone)
    pure [index]
  else many numPackedStreams readNumber

def markBound : List BindPair → List Bool → List Bool → Result (List Bool × List Bool)
  | [], inBound, outBound => pure (inBound, outBound)
  | bp :: bindPairs, inBound, outBound => do
      let i ← Result.index inBound bp.inIndex
      let o ← Result.index outBound bp.outIndex
      Result.rejectIf (i = true ∨ o = true) (.other "bind pairs bind a stream twice")
      let inBound ← Result.setIndex inBound bp.inIndex true
      let outBound ← Result.setIndex outBound bp.outIndex true
      markBound bindPairs inBound outBound

def markPacked (totalIn : Nat) : List Nat → List Bool → Result (List Bool)
  | [], inBound => pure inBound
  | ps :: packedStreams, inBound => do
      Result.rejectIf (ps ≥ totalIn) (.other "packed stream references an out-of-range stream")
      let i ← Result.index inBound ps
      Result.rejectIf (i = true) (.other "packed stream is also bound by a bind pair")
      let inBound ← Result.setIndex inBound ps true
      markPacked totalIn packedStreams inBound

namespace Block

def coderOfIn (block : Block) : List Nat := owners (block.coders.map Coder.numInStreams)

def coderOfOut (block : Block) : List Nat := owners (block.coders.map Coder.numOutStreams)

def firstIn (block : Block) (coderIndex : Nat) : Nat :=
  offset (block.coders.map Coder.numInStreams) coderIndex

def producerOf (block : Block) (inStream : Nat) : Result (Option Nat) :=
  match block.findBindPairForInStream inStream with
  | none => pure none
  | some bp => do
      let producer ← Result.index block.coderOfOut bp.outIndex
      pure (some producer)

end Block

/-- `if step == 0 { match state[coder_index] ... }`: the marks with the coder on the path, or
`none` where the loop goes on with the rest of the stack. -/
def enterCoder (state : List Mark) (coderIndex step : Nat) : Result (Option (List Mark)) :=
  if step = 0 then do
    match ← Result.index state coderIndex with
    | .onPath => Result.fail (.other "block's coders form a cycle")
    | .done => pure none
    | .unseen =>
        let state ← Result.setIndex state coderIndex .onPath
        pure (some state)
  else pure (some state)

def walkCoders (block : Block) : Nat → List Mark → List Frame → Result (List Mark)
  | _, state, [] => pure state
  | 0, _, _ :: _ => .error .outOfFuel
  | fuel + 1, state, (coderIndex, step) :: stack => do
      match ← enterCoder state coderIndex step with
      | none => walkCoders block fuel state stack
      | some state => do
          let coder ← Result.index block.coders coderIndex
          if step < coder.numInStreams then do
            match ← block.producerOf (block.firstIn coderIndex + step) with
            | some producer =>
                walkCoders block fuel state ((producer, 0) :: (coderIndex, step + 1) :: stack)
            | none => walkCoders block fuel state ((coderIndex, step + 1) :: stack)
          else do
            let state ← Result.setIndex state coderIndex .done
            walkCoders block fuel state stack

/-- Twice round every in-stream and once round every coder, and once for the root. -/
def walkFuel (block : Block) : Nat := 2 * block.totalInputStreams + block.coders.length + 1

def validateCoderGraph (block : Block) : Result Unit := do
  let totalIn := block.totalInputStreams
  let totalOut := block.totalOutputStreams
  let (inBound, outBound) ←
    markBound block.bindPairs (List.replicate totalIn false) (List.replicate totalOut false)
  let inBound ← markPacked totalIn block.packedStreams inBound
  Result.rejectIf (inBound.any not) (.other "block leaves an input stream unaccounted for")
  Result.rejectIf (outBound.countP not ≠ 1)
    (.other "block must have exactly one unbound output stream")
  let finalOut ← Result.expect (outBound.findIdx? not)
  let root ← Result.index block.coderOfOut finalOut
  let _ ← walkCoders block (walkFuel block) (List.replicate block.coders.length .unseen)
    [(root, 0)]
  pure ()

def readBlock (bounds : HeaderBounds) : HeaderReader Block := do
  let num ← readNumber
  let numCoders ← bounds.count num .codersPerBlock
  let (coders, totals) ← readCoders bounds numCoders { totalIn := 0, totalOut := 0 }
  Result.rejectIf (totals.totalOut = 0) (.other "Total output streams can't be 0")
  let numBindPairs := totals.totalOut - 1
  let bindPairs ← many numBindPairs (readBindPair totals)
  let block : Block :=
    { coders, bindPairs
      totalInputStreams := totals.totalIn
      totalOutputStreams := totals.totalOut }
  Result.rejectIf (totals.totalIn < numBindPairs)
    (.other "Total input streams can't be less than the number of bind pairs")
  let packedStreams ← readPackedStreams block totals.totalIn (totals.totalIn - numBindPairs)
  let block := { block with packedStreams }
  validateCoderGraph block
  pure block

end Sevenz
