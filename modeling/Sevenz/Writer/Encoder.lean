import Sevenz.Lib.Bytes
import Sevenz.Lib.Writer
import Sevenz.Writer.Methods

/-!
# The encoder chain

`encoder.rs` and `ArchiveWriter::create_writer`.  An encoder writes into the one below it, and
an empty write is the end of the stream: each encoder finishes itself on it and is to pass it
on.  What other crates' encoders emit is left open, but for what `Write` promises.
-/

namespace Sevenz

open Lib

inductive EncoderCall where
  | write (buf : List UInt8)
  | flush
  deriving DecidableEq

/-- An encoder of another crate: the calls it makes on its inner writer in answer to a call,
and how many bytes it takes, given the calls before. -/
structure Compressor where
  write : List EncoderCall → List UInt8 → List WriterCall × Nat
  flush : List EncoderCall → List WriterCall
  finish : List EncoderCall → List WriterCall
  write_le : ∀ calls buf, (write calls buf).2 ≤ buf.length
  write_pos : ∀ calls buf, buf ≠ [] → 0 < (write calls buf).2

/-- A branch converter of another crate: the converted buffer and how many of its leading
bytes are done, given the buffers before. -/
structure BcjFilter where
  encode : List (List UInt8) → List UInt8 → List UInt8 × Nat
  length_encode : ∀ coded buf, (encode coded buf).1.length = buf.length
  encode_le : ∀ coded buf, (encode coded buf).2 ≤ buf.length

structure BlockCipher where
  encrypt : List (List UInt8) → List UInt8 → List UInt8
  length_encrypt : ∀ blocks block, (encrypt blocks block).length = block.length

structure Encoders where
  /-- Why an encoder cannot be built, where it cannot. -/
  refuses : EncoderConfiguration → Option Error
  compressor : EncoderConfiguration → Compressor
  bcj : EncoderMethod → BcjFilter
  cipher : AesEncoderOptions → BlockCipher

structure BcjWriter where
  coded : List (List UInt8) := []
  buffer : List UInt8 := []
  deriving DecidableEq

/-- `Aes256Sha256Encoder`, its output apart.  The buffer never holds a block, and `write_size` wraps
as in a build without overflow checks. -/
structure AesState where
  blocks : List (List UInt8) := []
  buffer : List UInt8 := []
  finished : Bool := false
  writeSize : UInt32 := 0
  short : buffer.length < 16 := by decide
  deriving DecidableEq

theorem AesState.short_nil : ([] : List UInt8).length < 16 := by decide

theorem AesState.short_append {buf : List UInt8} {state : AesState}
    (h : buf.length + state.buffer.length < 16) : (state.buffer ++ buf).length < 16 := by
  rw [List.length_append, Nat.add_comm]
  exact h

/-- The frame a `BrotliEncoder` is filling: the compressor over a vector and the vector. -/
structure BrotliFrame where
  frameSize : Nat
  calls : List EncoderCall := []
  data : List UInt8 := []
  uncompressedBytesInFrame : Nat := 0
  short : uncompressedBytesInFrame < frameSize
  deriving DecidableEq

/-- `Encoder`.  Where the source holds an option, `finished` says that it was taken. -/
inductive Encoder where
  | copy
  | bcj (method : EncoderMethod) (writer : BcjWriter) (finished : Bool)
  | delta (distance : Nat) (seen : List UInt8)
  | compressor (config : EncoderConfiguration) (calls : List EncoderCall) (finished : Bool)
  | brotli (config : EncoderConfiguration) (calls : List EncoderCall)
  | brotliFramed (config : EncoderConfiguration) (frame : BrotliFrame)
  | aes (options : AesEncoderOptions) (state : AesState)

def writeZero : Fault := .error (.ofIo (.other "failed to write whole buffer"))

def deltaEncode (distance : Nat) : List UInt8 → List UInt8 → List UInt8
  | _, [] => []
  | seen, b :: buf =>
      (b - if seen.length < distance then 0 else seen.getD (seen.length - distance) 0) ::
        deltaEncode distance (seen ++ [b]) buf

@[simp] theorem deltaEncode_length (distance : Nat) (seen buf : List UInt8) :
    (deltaEncode distance seen buf).length = buf.length := by
  induction buf generalizing seen with
  | nil => rfl
  | cons b buf ih => simp [deltaEncode, ih]

section

variable {σ : Type} (env : Encoders) (w : ByteSink Fault σ)

def writeEndIgnoring (s : σ) : Result σ :=
  match w.write [] s with
  | .ok (_, s) => .ok s
  | .error (.error _) => .ok s
  | .error fault => .error fault

def AesState.writeBlock (cipher : BlockCipher) (block : List UInt8) (state : AesState) (s : σ) :
    Result (AesState × σ) :=
  match w.writeAll writeZero (cipher.encrypt state.blocks block) s with
  | .error fault => .error fault
  | .ok s =>
      .ok ({ state with blocks := state.blocks ++ [block], writeSize := state.writeSize + 16 }, s)

def AesState.writeChunks (cipher : BlockCipher) :
    Nat → List UInt8 → AesState → σ → Result (AesState × σ)
  | 0, _, state, s => .ok (state, s)
  | rounds + 1, buf, state, s =>
      if h : buf.length < 16 then .ok ({ state with buffer := buf, short := h }, s)
      else do
        let (state, s) ← state.writeBlock w cipher (buf.take 16) s
        writeChunks cipher rounds (buf.drop 16) state s

/-- `Aes256Sha256Encoder::flush`: the padded last block, once the stream has ended. -/
def AesState.flush (cipher : BlockCipher) (state : AesState) (s : σ) : Result (AesState × σ) :=
  if state.buffer.isEmpty || !state.finished then .ok (state, s)
  else do
    let block := state.buffer ++ List.replicate (16 - state.buffer.length) 0
    let (state, s) ← state.writeBlock w cipher block s
    pure ({ state with buffer := [], short := by decide }, s)

def AesState.write (cipher : BlockCipher) (buf : List UInt8) (state : AesState) (s : σ) :
    Result (Nat × AesState × σ) :=
  if state.finished && !buf.isEmpty then .ok (0, state, s)
  else if buf.isEmpty then do
    let (state, s) ← { state with finished := true : AesState }.flush w cipher s
    let (taken, s) ← w.write [] s
    pure (taken, state, s)
  else if state.buffer.isEmpty then do
    let (state, s) ← state.writeChunks w cipher (buf.length + 1) buf s
    pure (buf.length, state, s)
  else if h : buf.length + state.buffer.length < 16 then
    .ok (buf.length,
      { state with
        buffer := state.buffer ++ buf
        short := by rw [List.length_append, Nat.add_comm]; exact h }, s)
  else do
    let end_ := 16 - state.buffer.length
    let (state, s) ← state.writeBlock w cipher (state.buffer ++ buf.take end_) s
    let (state, s) ←
      { state with buffer := [], short := by decide : AesState }.writeChunks w cipher
        (buf.length + 1) (buf.drop end_) s
    pure (buf.length, state, s)

def brotliHintUnitSize : Nat := 65536

def brotliFrameCalls (compressedData : List UInt8) (uncompressedBytes : Nat) : List WriterCall :=
  if compressedData.isEmpty then []
  else
    let hint := min ((uncompressedBytes + brotliHintUnitSize - 1) / brotliHintUnitSize) 65535
    [.writeAll (leBytes 4 0x184D2A50), .writeAll (leBytes 4 8),
      .writeAll (leBytes 4 compressedData.length), .writeAll (leBytes 2 0x5242),
      .writeAll (leBytes 2 hint), .writeAll compressedData]

def BrotliFrame.close (compressor : Compressor) (frame : BrotliFrame) : List UInt8 :=
  frame.data ++ callBytes (compressor.flush frame.calls) ++
    callBytes (compressor.finish (frame.calls ++ [.flush]))

def BrotliFrame.writeLoop (compressor : Compressor) :
    Nat → List UInt8 → BrotliFrame → σ → Result (BrotliFrame × σ)
  | _, [], frame, s => .ok (frame, s)
  | 0, _ :: _, _, _ => .error .outOfFuel
  | rounds + 1, b :: buf, frame, s => do
      let room := frame.frameSize - frame.uncompressedBytesInFrame
      let chunk := (b :: buf).take room
      let (calls, written) := compressor.write frame.calls chunk
      if written = 0 then .error (.error (.ofIo (.other "failed to write any bytes")))
      else
        let filled := frame.uncompressedBytesInFrame + written
        let data := frame.data ++ callBytes calls
        let calls := frame.calls ++ [.write chunk]
        if h : filled < frame.frameSize then
          writeLoop compressor rounds ((b :: buf).drop written)
            { frame with calls, data, uncompressedBytesInFrame := filled, short := h } s
        else do
          let closed := { frame with calls, data : BrotliFrame }.close compressor
          let s ← w.perform writeZero (brotliFrameCalls closed filled) s
          writeLoop compressor rounds ((b :: buf).drop written)
            { frame with
              calls := [], data := [], uncompressedBytesInFrame := 0
              short := Nat.zero_lt_of_lt frame.short } s

def BrotliFrame.flush (compressor : Compressor) (frame : BrotliFrame) (s : σ) :
    Result (BrotliFrame × σ) := do
  let data := frame.close compressor
  let s ← w.perform writeZero (brotliFrameCalls data frame.uncompressedBytesInFrame) s
  let s ← w.flush s
  if data.isEmpty then pure ({ frame with calls := [], data := [] }, s)
  else
    pure ({ frame with
      calls := [], data := [], uncompressedBytesInFrame := 0
      short := Nat.zero_lt_of_lt frame.short }, s)

def Encoder.write (buf : List UInt8) : Encoder → σ → Result (Nat × Encoder × σ)
  | .copy, s => do
      let (taken, s) ← w.write buf s
      pure (taken, .copy, s)
  | .delta distance seen, s => do
      let (taken, s) ← w.write (deltaEncode distance seen buf) s
      pure (taken, .delta distance (seen ++ buf), s)
  | .bcj _ _ true, _ => .error (.panic .expectOnNone)
  | .bcj method writer false, s =>
      if buf.isEmpty then do
        let s ← w.writeAll writeZero writer.buffer s
        let s ← w.flush s
        let (_, s) ← w.write [] s
        pure (0, .bcj method { writer with buffer := [] } true, s)
      else do
        let buffer := writer.buffer ++ buf
        let (converted, filtered) := (env.bcj method).encode writer.coded buffer
        let s ← w.writeAll writeZero (converted.take filtered) s
        let writer :=
          { coded := writer.coded ++ [buffer], buffer := converted.drop filtered : BcjWriter }
        pure (buf.length, .bcj method writer false, s)
  | .compressor _ _ true, _ => .error (.panic .expectOnNone)
  | .compressor config calls false, s =>
      if buf.isEmpty then do
        let s ← w.perform writeZero ((env.compressor config).finish calls) s
        let s ← writeEndIgnoring w s
        pure (0, .compressor config calls true, s)
      else do
        let (inner, taken) := (env.compressor config).write calls buf
        let s ← w.perform writeZero inner s
        pure (taken, .compressor config (calls ++ [.write buf]) false, s)
  | .brotli config calls, s => do
      let (inner, taken) := (env.compressor config).write calls buf
      let s ← w.perform writeZero inner s
      pure (taken, .brotli config (calls ++ [.write buf]), s)
  | .brotliFramed config frame, s => do
      let (frame, s) ← frame.writeLoop w (env.compressor config) buf.length buf s
      pure (buf.length, .brotliFramed config frame, s)
  | .aes options state, s => do
      let (taken, state, s) ← state.write w (env.cipher options) buf s
      pure (taken, .aes options state, s)

def Encoder.flush : Encoder → σ → Result (Encoder × σ)
  | .copy, s => do
      let s ← w.flush s
      pure (.copy, s)
  | .delta distance seen, s => do
      let s ← w.flush s
      pure (.delta distance seen, s)
  | .bcj _ _ true, _ => .error (.panic .expectOnNone)
  | .bcj method writer false, s => do
      let s ← w.flush s
      pure (.bcj method writer false, s)
  | .compressor _ _ true, _ => .error (.panic .expectOnNone)
  | .compressor config calls false, s => do
      let s ← w.perform writeZero ((env.compressor config).flush calls) s
      pure (.compressor config (calls ++ [.flush]) false, s)
  | .brotli config calls, s => do
      let s ← w.perform writeZero ((env.compressor config).flush calls) s
      pure (.brotli config (calls ++ [.flush]), s)
  | .brotliFramed config frame, s => do
      let (frame, s) ← frame.flush w (env.compressor config) s
      pure (.brotliFramed config frame, s)
  | .aes options state, s => do
      let (state, s) ← state.flush w (env.cipher options) s
      pure (.aes options state, s)

end

/-- A sink under encoders, outermost first.  `counted` is the count of the `CountingWriter`
under an encoder; `received` lists the pieces each writer took. -/
inductive Chain where
  | sink (received : List (List UInt8))
  | layer (encoder : Encoder) (received : List (List UInt8)) (counted : Nat) (inner : Chain)

namespace Chain

def depth : Chain → Nat
  | sink _ => 0
  | layer _ _ _ inner => inner.depth + 1

def encoders : Chain → List Encoder
  | sink _ => []
  | layer encoder _ _ inner => encoder :: inner.encoders

def received : Chain → List (List UInt8)
  | sink received => received
  | layer _ received _ _ => received

def sinkWriter : ByteSink Fault Chain where
  write buf chain :=
    match chain with
    | sink received => .ok (buf.length, sink (received ++ [buf]))
    | layer _ _ _ _ => .error .outOfFuel
  flush chain := .ok chain

def writer (env : Encoders) : Nat → ByteSink Fault Chain
  | 0 => sinkWriter
  | depth + 1 =>
      { write := fun buf chain =>
          match chain with
          | sink received => sinkWriter.write buf (sink received)
          | layer encoder received counted inner => do
              let (taken, encoder, counted, inner) ←
                encoder.write env (writer env depth).counting buf (counted, inner)
              pure (taken, layer encoder (received ++ [buf.take taken]) counted inner)
        flush := fun chain =>
          match chain with
          | sink received => .ok (sink received)
          | layer encoder received counted inner => do
              let (encoder, counted, inner) ←
                encoder.flush env (writer env depth).counting (counted, inner)
              pure (layer encoder received counted inner) }

def write (env : Encoders) (buf : List UInt8) (chain : Chain) : Result (Nat × Chain) :=
  (writer env chain.depth).write buf chain

def flush (env : Encoders) (chain : Chain) : Result Chain :=
  (writer env chain.depth).flush chain

end Chain

def maxLzmaDictSize : Nat := 0x40000000 - 1

def validateLzmaDictionarySize (dictSize : UInt32) : Result Unit :=
  Result.rejectIf (dictSize.toNat < 4096 ∨ maxLzmaDictSize < dictSize.toNat)
    (.ofIo (.other ("unsupported LZMA dictionary size: " ++ toString dictSize ++ " (maximum " ++
      toString maxLzmaDictSize ++ ")")))

def Encoders.build (env : Encoders) (config : EncoderConfiguration) (encoder : Encoder) :
    Result Encoder :=
  match env.refuses config with
  | some error => Result.fail error
  | none => .ok encoder

def addEncoder (env : Encoders) (config : EncoderConfiguration) : Result Encoder :=
  match config.method with
  | .copy => .ok .copy
  | .deltaFilter =>
      let distance := match config.options with
        | some (.delta distance) => distance.toNat
        | _ => 1
      .ok (.delta (max 1 (min distance 256)) [])
  | .bcjX86Filter | .bcjArmFilter | .bcjArmThumbFilter | .bcjArm64Filter | .bcjIa64Filter
  | .bcjSparcFilter | .bcjPpcFilter | .bcjRiscvFilter => .ok (.bcj config.method {} false)
  | .lzma => do
      let settings := match config.options with
        | some (.lzma settings) => settings
        | _ => .fromLevel 6
      validateLzmaDictionarySize settings.dictionary
      env.build config (.compressor config [] false)
  | .lzma2 => do
      let settings := match config.options with
        | some (.lzma2 settings) => settings
        | _ => .fromLevel 6
      validateLzmaDictionarySize settings.dictionary
      env.build config (.compressor config [] false)
  | .ppmd | .bzip2 | .deflate | .lz4 | .zstd => env.build config (.compressor config [] false)
  | .brotli =>
      let frameSize := match config.options with
        | some (.brotli _ _ skippableFrameSize) => skippableFrameSize.toNat
        | _ => 128 * 1024
      if h : frameSize = 0 then .ok (.brotli config [])
      else .ok (.brotliFramed config { frameSize, short := Nat.pos_of_ne_zero h })
  | .aes256Sha256 =>
      match config.options with
      | some (.aes options) => env.build config (.aes options {})
      | _ => Result.fail .passwordRequired
  | _ => Result.fail (.unsupportedCompressionMethod config.method.name)

/-- The loop of `create_writer`: the first method is put on the output, and each one on the
method before it. -/
def addEncoders (env : Encoders) : List EncoderConfiguration → Chain → Result Chain
  | [], chain => .ok chain
  | config :: methods, chain => do
      let encoder ← addEncoder env config
      addEncoders env methods (.layer encoder [] 0 chain)

def createWriter (env : Encoders) (methods : List EncoderConfiguration) : Result Chain :=
  addEncoders env methods (.sink [])

theorem addEncoders_encoders {env : Encoders} {methods : List EncoderConfiguration}
    {chain chain' : Chain} (h : addEncoders env methods chain = .ok chain') :
    ∃ encoders, List.Forall₂ (fun mc encoder => addEncoder env mc = .ok encoder) methods encoders ∧
      chain'.encoders = encoders.reverse ++ chain.encoders := by
  induction methods generalizing chain with
  | nil =>
      cases h
      exact ⟨[], .nil, rfl⟩
  | cons mc methods ih =>
      obtain ⟨encoder, hadd, h⟩ := Result.bind_eq_ok.mp h
      obtain ⟨encoders, hencoders, hchain⟩ := ih h
      refine ⟨encoder :: encoders, .cons hadd hencoders, ?_⟩
      simp [hchain, Chain.encoders]

/-- The counts `create_writer` keeps of what goes into each encoder but the outermost. -/
def Chain.moreSizes : Chain → List Nat
  | .sink _ => []
  | .layer _ _ _ (.sink _) => []
  | .layer _ _ counted inner@(.layer _ _ _ _) => inner.moreSizes ++ [counted]

end Sevenz
