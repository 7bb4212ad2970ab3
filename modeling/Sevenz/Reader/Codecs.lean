import Sevenz.Archive
import Sevenz.Lib.Crc32
import Sevenz.Lib.Stream

/-!
# Decoders and the readers around them

What the model takes from outside the crate is gathered in `Codecs`.  A decoder is kept as
the tree it was built as, so that what it decodes can be compared with what the header says.
-/

namespace Sevenz

open Lib

def idCopy : List UInt8 := [0x00]

/-- What `add_decoder` is told of a coder: which one it is, and the unpack size it is given
together with the number of the size it was taken from. -/
structure Stage where
  coderIndex : Nat
  coder : Coder
  sizeIndex : Nat
  uncompressedLen : UInt64
  deriving DecidableEq, Repr

inductive Decoder where
  | pack (index start size : Nat)
  | coder (stage : Stage) (input : Decoder)
  | bcj2 (stage : Stage) (main call jump range : Decoder)
  deriving DecidableEq, Repr

/-- The parts the crate gets from elsewhere, each as far as this model needs it. -/
structure Codecs where
  crc32 : List UInt8 → UInt32
  /-- Why the source cannot seek to an offset, where it cannot. -/
  seekError : Nat → Option IoError
  /-- Why a decoder cannot be put on an input, where it cannot. -/
  refuses : Decoder → Stage → Option Error
  /-- What reading a stack of decoders answers. -/
  decode : Decoder → Stream IoError
  /-- Whether the LZMA2 coder of a stack took the parallel path. -/
  engaged : Decoder → Bool
  /-- Where the workers of such a coder cut their output into the pieces they checksum, given the
  split points. -/
  cuts : Decoder → List UInt64 → List Nat
  /-- `Lzma2Control::folded` of a range of the block's stream, given the split points and the
  reads so far. -/
  folded : Decoder → List UInt64 → List (ReadRecord IoError) → Nat → Nat → Option UInt32
  /-- Buffer lengths and a bound on the reads of `read_to_end`. -/
  bufferLength : Nat → Nat
  rounds : Nat

namespace Codecs

def seek (codecs : Codecs) (offset : Nat) : Result Unit :=
  match codecs.seekError offset with
  | some e => Result.fail (.ofIo e)
  | none => pure ()

def addDecoder (codecs : Codecs) (input : Decoder) (stage : Stage) : Result Decoder :=
  match codecs.refuses input stage with
  | some e => Result.fail e
  | none => pure (.coder stage input)

def copied (file : List UInt8) : Decoder → List UInt8
  | .pack _ start size => (file.drop start).take size
  | .coder _ input => copied file input
  | .bcj2 _ _ _ _ _ => []

/-- The codecs as they are for blocks of `COPY` coders read on one thread. -/
def copying (file : List UInt8) : Codecs where
  crc32 := Lib.crc32
  seekError _ := none
  refuses _ stage :=
    if stage.coder.encoderMethodId = idCopy then none
    else some (.unsupportedCompressionMethod s!"{stage.coder.encoderMethodId}")
  decode decoder := Stream.ofContent (copied file decoder)
  engaged _ := false
  cuts _ _ := []
  folded _ _ _ _ _ := none
  bufferLength _ := 8192
  rounds := file.length + 1

end Codecs

structure DecodeOptions where
  limits : ArchiveLimits
  verifyChecksums : Bool
  checksumSplits : List UInt64

namespace DecodeOptions

def header (limits : ArchiveLimits) : DecodeOptions :=
  { limits, verifyChecksums := true, checksumSplits := [] }

def foldingChecksums (opts : DecodeOptions) (codecs : Codecs) (decoder : Decoder) : Bool :=
  !opts.checksumSplits.isEmpty && codecs.engaged decoder

end DecodeOptions

def asI64 (n : UInt64) : Int := if n.toNat < 2 ^ 63 then n.toNat else (n.toNat : Int) - 2 ^ 64

structure CrcState where
  digest : List UInt8
  expectedValue : UInt64
  remaining : Int
  report : Option UInt32
  deriving DecidableEq

def CrcState.new (remaining expectedValue : UInt64) : CrcState :=
  { digest := [], expectedValue, remaining := asI64 remaining, report := none }

variable {σ : Type}

def CrcState.update (crc32 : List UInt8 → UInt32) (st : CrcState) (bytes : List UInt8) :
    ReadResult IoError × CrcState :=
  let digest := st.digest ++ bytes
  let remaining := st.remaining - bytes.length
  if remaining ≤ 0 then
    let d := crc32 digest
    if d.toUInt64 ≠ st.expectedValue then
      (.error .checksumVerificationFailed, { st with digest := [], remaining })
    else (.ok bytes, { st with digest := [], remaining, report := some d })
  else (.ok bytes, { st with digest, remaining })

def crcRead (crc32 : List UInt8 → UInt32) (inner : ReadFn IoError σ) :
    ReadFn IoError (CrcState × σ) := fun buf (st, s) =>
  if st.remaining ≤ 0 then (.ok [], (st, s))
  else
    match inner buf s with
    | (.error e, s) => (.error e, (st, s))
    | (.ok bytes, s) =>
        let (answer, st) := st.update crc32 bytes
        (answer, (st, s))

def maybeCrcRead (crc32 : List UInt8 → UInt32) (inner : ReadFn IoError σ) :
    ReadFn IoError (Option CrcState × σ) := fun buf (st, s) =>
  match st with
  | none =>
      let (answer, s) := inner buf s
      (answer, (none, s))
  | some st =>
      let (answer, st, s) := crcRead crc32 inner buf (st, s)
      (answer, (some st, s))

structure FaultState (σ : Type) where
  faulted : Bool
  reads : List (ReadRecord IoError)
  inner : σ

def faultRead (inner : ReadFn IoError σ) : ReadFn IoError (FaultState σ) := fun buf st =>
  let (answer, s) := inner buf st.inner
  (answer,
    { faulted := st.faulted || !answer.isOk
      reads := st.reads ++ [⟨buf, answer⟩]
      inner := s })

def emptyRead : ReadFn IoError Unit := fun _ s => (.ok [], s)

def retryInterrupted (e : IoError) : Bool := e == .interrupted

end Sevenz
