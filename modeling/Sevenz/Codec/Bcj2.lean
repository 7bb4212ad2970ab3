import Sevenz.Error
import Sevenz.Lib.Stream
import Sevenz.Lib.Window
import Mathlib.Logic.Function.Basic

/-!
# The BCJ2 reader

`codec/filter/bcj2.rs` and `codec/filter/bcj2/decode.rs`.  The four inputs are staged in one
buffer, a quarter for each.  `decode` runs until the caller's buffer is full or one of the
quarters is used up, and `read` fills that one again.
-/

namespace Sevenz

open Lib

inductive Bcj2Stream where
  | main
  | call
  | jump
  | rc
  deriving DecidableEq, Repr

namespace Bcj2

def bufSize : Nat := 2 ^ 18

def topValue : UInt32 := 0x1000000

theorem last_lt : 3 < 4 := by decide

def invalidData (message : String) : Fault := .error (.ofIo (.other message))

end Bcj2

namespace Bcj2Stream

def number : Bcj2Stream → Nat
  | main => 0
  | call => 1
  | jump => 2
  | rc => 3

def base (s : Bcj2Stream) : Nat := s.number * Bcj2.bufSize

def is32bit : Bcj2Stream → Bool
  | call | jump => true
  | main | rc => false

end Bcj2Stream

inductive Bcj2State where
  | stream (s : Bcj2Stream)
  | orig03 (k : Fin 4)
  | orig
  | ok
  deriving DecidableEq, Repr

def Bcj2State.afterOrig (k : Fin 4) : Bcj2State :=
  if h : k.val + 1 < 4 then .orig03 ⟨k.val + 1, h⟩ else .orig

/-- A probability in units of `1 / BIT_MODEL_TOTAL`, in the bounds that its updates keep. -/
structure Bcj2Prob where
  val : Nat
  low : 31 ≤ val
  high : val ≤ 2017
  deriving DecidableEq, Repr

namespace Bcj2Prob

def half : Bcj2Prob := ⟨1024, by decide, by decide⟩

def update0 (ttt : Bcj2Prob) : Bcj2Prob where
  val := ttt.val + (2048 - ttt.val) / 32
  low := Nat.le_add_right_of_le ttt.low
  high := by
    have := ttt.high
    omega

def update1 (ttt : Bcj2Prob) : Bcj2Prob where
  val := ttt.val - ttt.val / 32
  low := by
    have := ttt.low
    omega
  high := Nat.le_trans (Nat.sub_le _ _) ttt.high

end Bcj2Prob

/-- `Bcj2Decoder`.  `dest` is what stands in front of `self.dest` in the caller's buffer. -/
structure Bcj2Decoder where
  bufs : Bcj2Stream → Nat
  lims : Bcj2Stream → Nat
  dest : List UInt8 := []
  state : Bcj2State := .ok
  ip : UInt32 := 0
  temp : Vector UInt8 4 := .replicate 4 0
  range : UInt32 := 0
  code : UInt32 := 0
  probs : Vector Bcj2Prob 258 := .replicate 258 .half

namespace Bcj2

/-- How a part of `decode` goes on: with the loop, with what stands after it, or by
returning. -/
inductive Next where
  | goOn
  | leave
  | ret (result : Bool)

def putByte (destLim : Nat) (dest : List UInt8) (b : UInt8) : Result (List UInt8) :=
  if dest.length < destLim then .ok (dest ++ [b]) else .error (.panic .indexOutOfBounds)

def checkedSub (a b : Nat) : Result Nat :=
  if b ≤ a then .ok (a - b) else .error (.panic .attemptToSubtractWithOverflow)

/-- `self.ip += n as u32`, in a build with or without checks. -/
def addIp (checks : Bool) (ip : UInt32) (n : Nat) : Result UInt32 :=
  if checks = true ∧ 2 ^ 32 ≤ ip.toNat + n then .error (.panic .attemptToAddWithOverflow)
  else .ok (ip + UInt32.ofNat n)

def leBytes32 (val : UInt32) : Vector UInt8 4 :=
  #v[val.toUInt8, (val >>> 8).toUInt8, (val >>> 16).toUInt8, (val >>> 24).toUInt8]

def beValue32 (b₀ b₁ b₂ b₃ : UInt8) : UInt32 :=
  b₀.toUInt32 <<< 24 ||| b₁.toUInt32 <<< 16 ||| b₂.toUInt32 <<< 8 ||| b₃.toUInt32

def addressStream (b : UInt8) : Bcj2Stream := if b = 0xE8 then .call else .jump

def probIndex (b prev : UInt8) : Fin 258 :=
  if b = 0xE8 then ⟨2 + prev.toNat, by
    have := prev.toNat_lt
    omega⟩
  else if b = 0xE9 then 1
  else 0

/-- The loop over the bytes of the main stream.  Returns where it stops, at a marker, which it
has written, or at `src_lim`. -/
def scan (src : List UInt8) (srcLim destLim : Nat) :
    Nat → Nat → List UInt8 → Result (Nat × List UInt8)
  | 0, _, _ => .error .outOfFuel
  | rounds + 1, pos, dest => do
      let b ← Result.index src pos
      let dest ← putByte destLim dest b
      if b ≠ 0x0F then
        if b &&& 0xFE = 0xE8 then pure (pos, dest)
        else if pos + 1 ≠ srcLim then scan src srcLim destLim rounds (pos + 1) dest
        else pure (pos + 1, dest)
      else if pos + 1 = srcLim then pure (pos + 1, dest)
      else do
        let b ← Result.index src (pos + 1)
        if b &&& 0xF0 ≠ 0x80 then scan src srcLim destLim rounds (pos + 1) dest
        else do
          let dest ← putByte destLim dest b
          pure (pos + 1, dest)

end Bcj2

namespace Bcj2Decoder

open Bcj2

def takeRc (src : List UInt8) (d : Bcj2Decoder) : Result Bcj2Decoder := do
  let b ← Result.index src (d.bufs .rc)
  pure { d with
    code := d.code <<< 8 ||| b.toUInt32
    bufs := Function.update d.bufs .rc (d.bufs .rc + 1) }

def startLoop (src : List UInt8) : Nat → Bcj2Decoder → Result (Next × Bcj2Decoder)
  | 0, _ => .error .outOfFuel
  | rounds + 1, d =>
      if d.range = 5 then .ok (.goOn, d)
      else if d.range = 1 ∧ d.code ≠ 0 then .ok (.ret false, d)
      else if d.bufs .rc = d.lims .rc then .ok (.ret true, { d with state := .stream .rc })
      else do
        let d ← d.takeRc src
        startLoop src rounds { d with range := d.range + 1 }

def start (src : List UInt8) (d : Bcj2Decoder) : Result (Next × Bcj2Decoder) := do
  let (next, d) ← startLoop src 6 { d with state := .ok }
  match next with
  | .goOn =>
      if d.code = 0xFFFFFFFF then pure (.ret false, d)
      else pure (.goOn, { d with range := 0xFFFFFFFF })
  | _ => pure (next, d)

def origLoop (destLim : Nat) : Nat → Bcj2Decoder → Result (Next × Bcj2Decoder)
  | 0, _ => .error .outOfFuel
  | rounds + 1, d =>
      match d.state with
      | .orig03 k =>
          if d.dest.length = destLim then .ok (.ret true, d)
          else do
            let dest ← putByte destLim d.dest d.temp[k]
            origLoop destLim rounds { d with dest, state := .afterOrig k }
      | _ => .ok (.goOn, d)

def normalize (src : List UInt8) (d : Bcj2Decoder) : Result (Option Bcj2Decoder) :=
  if d.range < topValue then
    if d.bufs .rc = d.lims .rc then .ok none
    else do
      let d ← d.takeRc src
      pure (some { d with range := d.range <<< 8 })
  else .ok (some d)

def decodeBit (b prev : UInt8) (d : Bcj2Decoder) : Bool × Bcj2Decoder :=
  let i := probIndex b prev
  let ttt := d.probs[i]
  -- The product fits, and is at most `range`: a probability is below `BIT_MODEL_TOTAL`.
  let bound := (d.range >>> 11) * UInt32.ofNat ttt.val
  if d.code < bound then
    (false, { d with range := bound, probs := d.probs.set i ttt.update0 })
  else
    (true, { d with
      range := d.range - bound
      code := d.code - bound
      probs := d.probs.set i ttt.update1 })

def readAddress (checks : Bool) (src : List UInt8) (destLim : Nat) (d : Bcj2Decoder) :
    Result (Next × Bcj2Decoder) :=
  let cj := addressStream (getElem d.temp 3 last_lt)
  let cur := d.bufs cj
  if cur = d.lims cj then .ok (.leave, { d with state := .stream cj })
  else do
    Result.sliceCheck cur src
    match src.drop cur with
    | b₀ :: b₁ :: b₂ :: b₃ :: _ => do
        let ip ← addIp checks d.ip 4
        let bytes := leBytes32 (beValue32 b₀ b₁ b₂ b₃ - ip)
        let rem ← checkedSub destLim d.dest.length
        let d := { d with bufs := Function.update d.bufs cj (cur + 4), ip }
        if h : rem < 4 then
          pure (.leave, { d with
            temp := bytes
            dest := d.dest ++ bytes.toList.take rem
            state := .orig03 ⟨rem, h⟩ })
        else
          pure (.goOn, { d with
            dest := d.dest ++ bytes.toList
            temp := d.temp.set 3 (getElem bytes 3 last_lt) last_lt })
    | _ => pure (.ret false, d)

/-- The first byte is looked at before the loop: what is behind `0F` may be a marker. -/
def scanFrom (src : List UInt8) (num destLim : Nat) (d : Bcj2Decoder) :
    Result (Nat × List UInt8) := do
  let start := d.bufs .main
  let first ← Result.index src start
  if (getElem d.temp 3 last_lt) = 0x0F ∧ first &&& 0xF0 = 0x80 then do
    let dest ← putByte destLim d.dest first
    pure (start, dest)
  else scan src (start + num) destLim num start d.dest

def prevByte (src : List UInt8) (pos : Nat) (d : Bcj2Decoder) : Result UInt8 :=
  if pos = d.bufs .main then .ok (getElem d.temp 3 last_lt) else Result.index src (pos - 1)

def copyMain (checks : Bool) (src : List UInt8) (destLim : Nat) (d : Bcj2Decoder) :
    Result (Next × Bcj2Decoder) := do
  let start := d.bufs .main
  let num ← checkedSub (d.lims .main) start
  if num = 0 then pure (.ret true, { d with state := .stream .main })
  else do
    let room ← checkedSub destLim d.dest.length
    let num := min num room
    if num = 0 then pure (.ret true, { d with state := .orig })
    else do
      let (pos, dest) ← d.scanFrom src num destLim
      if pos = start + num then do
        let last ← Result.index src (pos - 1)
        let ip ← addIp checks d.ip (pos - start)
        pure (.ret true, { d with
          temp := d.temp.set 3 last last_lt
          bufs := Function.update d.bufs .main pos
          ip
          dest
          state := if pos = d.lims .main then .stream .main else .orig })
      else do
        let b ← Result.index src pos
        let prev ← d.prevByte src pos
        let ip ← addIp checks d.ip (pos - start + 1)
        let (bit, d) := decodeBit b prev { d with
          temp := d.temp.set 3 b last_lt
          bufs := Function.update d.bufs .main (pos + 1)
          ip
          dest }
        if bit then d.readAddress checks src destLim else pure (.goOn, d)

def round (checks : Bool) (src : List UInt8) (destLim : Nat) (d : Bcj2Decoder) :
    Result (Next × Bcj2Decoder) :=
  if d.state = .stream .call ∨ d.state = .stream .jump then
    { d with state := .ok : Bcj2Decoder }.readAddress checks src destLim
  else do
    match ← d.normalize src with
    | none => pure (.ret true, { d with state := .stream .rc })
    | some d => d.copyMain checks src destLim

/-- The loop and what stands after it.  Each round that goes on writes a byte. -/
def loop (checks : Bool) (src : List UInt8) (destLim : Nat) :
    Nat → Bcj2Decoder → Result (Bool × Bcj2Decoder)
  | 0, _ => .error .outOfFuel
  | rounds + 1, d => do
      let (next, d) ← d.round checks src destLim
      match next with
      | .goOn => loop checks src destLim rounds d
      | .ret result => pure (result, d)
      | .leave => do
          let normalized ← d.normalize src
          pure (true, normalized.getD d)

def resume (src : List UInt8) (destLim : Nat) (d : Bcj2Decoder) :
    Result (Next × Bcj2Decoder) :=
  if d.range ≤ 5 then d.start src else d.origLoop destLim 5

def decode (checks : Bool) (src : List UInt8) (destLim : Nat) (d : Bcj2Decoder) :
    Result (Bool × Bcj2Decoder) := do
  let (next, d) ← d.resume src destLim
  match next with
  | .ret result => pure (result, d)
  | _ => d.loop checks src destLim (destLim - d.dest.length + 1)

end Bcj2Decoder

structure Bcj2Reader (σ : Type) where
  bufs : List UInt8
  inputs : Bcj2Stream → σ
  decoder : Bcj2Decoder
  extraReadSizes : Bcj2Stream → Nat
  readRes : Bcj2Stream → Bool
  uncompressedSize : Nat

namespace Bcj2

/-- How a quarter of the buffer is filled again: with something to decode, not at all, or with
less than an address. -/
inductive Refill where
  | filled
  | ended
  | short

def moveDown (start base : Nat) : Nat → Nat → List UInt8 → Result (List UInt8)
  | 0, _, bufs => .ok bufs
  | count + 1, i, bufs => do
      let b ← Result.index bufs (start + i)
      let bufs ← Result.setIndex bufs (base + i) b
      moveDown start base count (i + 1) bufs

end Bcj2

namespace Bcj2Reader

open Bcj2

variable {σ : Type} (checks : Bool) (read : ReadFn Fault σ)

def new (inputs : Bcj2Stream → σ) (uncompressedSize : Nat) : Bcj2Reader σ where
  bufs := List.replicate (4 * bufSize) 0
  inputs
  decoder := { bufs := Bcj2Stream.base, lims := Bcj2Stream.base }
  extraReadSizes _ := 0
  readRes _ := true
  uncompressedSize

/-- The loop that reads from an input, up to an address at least where it is one of
addresses.  Each read but the last adds a byte. -/
def fill (s : Bcj2Stream) : Nat → Nat → Bcj2Reader σ → Except Fault Nat × Bcj2Reader σ
  | 0, _, r => (.error .outOfFuel, r)
  | rounds + 1, total, r =>
      match read (bufSize - total) (r.inputs s) with
      | (.error fault, input) =>
          (.error fault, { r with inputs := Function.update r.inputs s input })
      | (.ok bytes, input) =>
          let r := { r with
            inputs := Function.update r.inputs s input
            bufs := overwrite r.bufs (s.base + total) bytes }
          if bytes = [] then (.ok total, r)
          else if total + bytes.length < 4 ∧ s.is32bit then
            fill s rounds (total + bytes.length) r
          else (.ok (total + bytes.length), r)

def refill (s : Bcj2Stream) (r : Bcj2Reader σ) : Except Fault Refill × Bcj2Reader σ :=
  let total := r.extraReadSizes s
  match moveDown (r.decoder.bufs s) s.base total 0 r.bufs with
  | .error fault => (.error fault, r)
  | .ok bufs =>
      let r := { r with
        bufs
        decoder := { r.decoder with
          lims := Function.update r.decoder.lims s s.base
          bufs := Function.update r.decoder.bufs s s.base } }
      if r.readRes s = false then (.error (invalidData "bcj2 decode error:2"), r)
      else
        match r.fill read s 4 total with
        | (.error fault, r) => (.error fault, r)
        | (.ok total, r) =>
            if total = 0 then (.ok .ended, r)
            else
              let extra := if s.is32bit then total % 4 else 0
              let r := if s.is32bit then
                  { r with extraReadSizes := Function.update r.extraReadSizes s extra }
                else r
              if s.is32bit ∧ total < 4 then (.ok .short, r)
              else
                (.ok .filled, { r with
                  decoder := { r.decoder with
                    lims := Function.update r.decoder.lims s (total - extra + s.base) } })

/-- The loop of `read`, which has told of `offset` bytes so far.  It returns whether the end is
to be checked. -/
def readLoop (destLim : Nat) :
    Nat → Nat → Bcj2Reader σ → Except Fault Bool × Bcj2Reader σ
  | 0, _, r => (.error .outOfFuel, r)
  | rounds + 1, offset, r =>
      match r.decoder.decode checks r.bufs destLim with
      | .error fault => (.error fault, r)
      | .ok (false, decoder) =>
          (.error (invalidData "bcj2 decode error"), { r with decoder })
      | .ok (true, decoder) =>
          let r := { r with decoder }
          match checkedSub r.decoder.dest.length offset >>= checkedSub r.uncompressedSize with
          | .error fault => (.error fault, r)
          | .ok uncompressedSize =>
              let r := { r with uncompressedSize }
              match r.decoder.state with
              | .stream s =>
                  match r.refill read s with
                  | (.error fault, r) => (.error fault, r)
                  | (.ok .filled, r) => readLoop destLim rounds r.decoder.dest.length r
                  | (.ok .ended, r) => (.ok true, r)
                  | (.ok .short, r) =>
                      if r.decoder.dest ≠ [] then (.ok false, r)
                      else (.error (invalidData "bcj2 decode error:3"), r)
              | _ => (.ok true, r)

def endFault (r : Bcj2Reader σ) : Option Fault :=
  if r.uncompressedSize ≠ 0 then none
  else if r.decoder.code ≠ 0 then some (invalidData "bcj2 decode error:4")
  else if r.decoder.state ≠ .stream .main ∧ r.decoder.state ≠ .orig then
    some (invalidData "bcj2 decode error:5")
  else none

/-- `read`.  The loop fills a quarter again at most twice for each byte that it writes. -/
def readInto : ReadFn Fault (Bcj2Reader σ) := fun buf r =>
  let destLim := min buf r.uncompressedSize
  if destLim = 0 then (.ok [], r)
  else
    match readLoop checks read destLim (2 * destLim + 8) 0
        { r with decoder := { r.decoder with dest := [] } } with
    | (.error fault, r) => (.error fault, r)
    | (.ok false, r) => (.ok r.decoder.dest, r)
    | (.ok true, r) =>
        match r.endFault with
        | some fault => (.error fault, r)
        | none => (.ok r.decoder.dest, r)

end Bcj2Reader

end Sevenz
