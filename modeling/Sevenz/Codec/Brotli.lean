import Sevenz.Codec.FrameCut
import Sevenz.Codec.FrameRoundTrip
import Sevenz.Writer.EndOfStream

/-!
# Brotli frames

`BrotliEncoder` (`codec/brotli.rs`).  In its framed form it compresses into a vector, and writes
the frame when it is full or flushed, with or without content.  The end-of-stream write does
nothing, and what is not flushed by then is lost.
-/

namespace Sevenz

open Lib

def vectorSink : ByteSink Fault (List UInt8) where
  write buf s := .ok (buf.length, s ++ buf)
  flush s := .ok s

def Compressor.stream (compressor : Compressor) (calls : List EncoderCall) : List UInt8 :=
  compressor.output calls ++ callBytes (compressor.finish calls)

/-- The Brotli compressor and decompressor of another crate: a stream is not empty, and it
gives back what the compressor took. -/
structure BrotliCodec (σ : Type) where
  compressor : Compressor
  decompressor : Decompressor IoError σ
  stream_ne : ∀ calls, compressor.stream calls ≠ []
  decodes : ∀ calls,
    decompressor.Decodes (compressor.stream calls) (compressor.taken calls).flatten

/-- The calls on the compressor of a frame with this content: writes of chunks, and then a
flush. -/
def FrameCalls (compressor : Compressor) (content : List UInt8) (calls : List EncoderCall) :
    Prop :=
  ∃ chunks : List (List UInt8), [] ∉ chunks ∧ calls = chunks.map EncoderCall.write ++ [.flush] ∧
    (compressor.taken calls).flatten = content

def FramingCall.toEncoderCall : FramingCall → EncoderCall
  | .write buf => .write buf
  | .flush => .flush

namespace BrotliFrame

def new (frameSize : Nat) (h : 0 < frameSize) : BrotliFrame := { frameSize, short := h }

variable (compressor : Compressor)

def call (state : BrotliFrame × List UInt8) : FramingCall → Result (BrotliFrame × List UInt8)
  | .write buf => state.1.writeLoop vectorSink compressor buf.length buf state.2
  | .flush => state.1.flush vectorSink compressor state.2

end BrotliFrame

def brotliNative (compressor : Compressor) (calls : List FramingCall) : List UInt8 :=
  compressor.stream (calls.map FramingCall.toEncoderCall ++ [.write []])

/-- All that a `BrotliEncoder` gives its writer for the calls, the end-of-stream write and its
drop, which ends a native stream. -/
def brotliEncode (compressor : Compressor) (frameSize : Nat) (calls : List FramingCall) :
    Result (List UInt8) :=
  if h : 0 < frameSize then do
    let state ← calls.foldlM (BrotliFrame.call compressor) (BrotliFrame.new frameSize h, [])
    let (_, bytes) ← BrotliFrame.call compressor state (.write [])
    pure bytes
  else pure (brotliNative compressor calls)

def brotliWritten (compressor : Compressor) (frameSize : Nat) (calls : List FramingCall) :
    List UInt8 :=
  if 0 < frameSize then FramingCall.written calls
  else (compressor.taken (calls.map FramingCall.toEncoderCall ++ [.write []])).flatten

theorem vectorSink_writeAll (writeZero : Fault) (buf s : List UInt8) :
    vectorSink.writeAll writeZero buf s = .ok (s ++ buf) := by
  cases buf with
  | nil => simp [ByteSink.writeAll, ByteSink.writeAllLoop]
  | cons b buf => simp [ByteSink.writeAll, ByteSink.writeAllLoop, vectorSink]

theorem vectorSink_flush (s : List UInt8) : vectorSink.flush s = .ok s := rfl

theorem vectorSink_perform (writeZero : Fault) (calls : List WriterCall) (s : List UInt8) :
    vectorSink.perform writeZero calls s = .ok (s ++ callBytes calls) := by
  induction calls generalizing s with
  | nil => simp [ByteSink.perform]
  | cons call calls ih =>
      cases call with
      | writeAll bytes => simp [ByteSink.perform, vectorSink_writeAll, ih]
      | flush => simp [ByteSink.perform, vectorSink_flush, ih]

theorem callBytes_brotliFrameCalls {packed : List UInt8} (hpacked : packed ≠ []) (size : Nat) :
    callBytes (brotliFrameCalls packed size) = brotliFormat.frame
      (min ((size + brotliHintUnitSize - 1) / brotliHintUnitSize) 65535) packed := by
  have hempty : packed.isEmpty = false := by simpa using hpacked
  simp [brotliFrameCalls, hempty, FrameFormat.frame, FrameFormat.header, FrameFormat.codecFields,
    brotliFormat, skippableFrameMagic]

namespace BrotliFrame

variable {σ : Type} {codec : BrotliCodec σ}

structure Packs (codec : BrotliCodec σ) (frame : CodecFrame) : Prop where
  hint : frame.hint < 2 ^ 16
  packed : ∃ calls, FrameCalls codec.compressor frame.content calls ∧
    frame.packed = codec.compressor.stream calls

structure Refines (codec : BrotliCodec σ) {frameSize : Nat} (cut : FrameCut frameSize)
    (frame : BrotliFrame) (bytes : List UInt8) : Prop where
  frames : ∃ frames, bytes = CodecFrame.bytes brotliFormat frames ∧
    frames.map CodecFrame.content = cut.frames ∧ ∀ frame ∈ frames, Packs codec frame
  frameSize : frame.frameSize = frameSize
  calls : ∃ chunks : List (List UInt8), [] ∉ chunks ∧ frame.calls = chunks.map EncoderCall.write
  data : frame.data = codec.compressor.output frame.calls
  taken : (codec.compressor.taken frame.calls).flatten = cut.pending
  count : frame.uncompressedBytesInFrame = cut.pending.length

theorem close_eq (frame : BrotliFrame)
    (h : frame.data = codec.compressor.output frame.calls) :
    frame.close codec.compressor = codec.compressor.stream (frame.calls ++ [.flush]) := by
  simp [close, Compressor.stream, h]

theorem Refines.closed {frameSize : Nat} {cut : FrameCut frameSize} {frame : BrotliFrame}
    {bytes : List UInt8} (h : Refines codec cut frame bytes)
    {calls : List EncoderCall} {content : List UInt8}
    (hcalls : FrameCalls codec.compressor content calls) (size : Nat) :
    ∃ frames, bytes ++ callBytes (brotliFrameCalls (codec.compressor.stream calls) size) =
        CodecFrame.bytes brotliFormat frames ∧
      frames.map CodecFrame.content = cut.frames ++ [content] ∧
      ∀ frame ∈ frames, Packs codec frame := by
  obtain ⟨frames, hbytes, hcontents, hpacks⟩ := h.frames
  let hint := min ((size + brotliHintUnitSize - 1) / brotliHintUnitSize) 65535
  refine ⟨frames ++ [⟨hint, codec.compressor.stream calls, content⟩], ?_, by simp [hcontents], ?_⟩
  · rw [hbytes, callBytes_brotliFrameCalls (codec.stream_ne calls), CodecFrame.bytes_append]
    simp [CodecFrame.bytes, hint]
  · intro frame hframe
    cases List.mem_append.mp hframe with
    | inl hmem => exact hpacks frame hmem
    | inr hmem =>
        obtain rfl := List.mem_singleton.mp hmem
        refine ⟨?_, calls, hcalls, rfl⟩
        simp only [hint]
        omega

theorem Refines.flush {frameSize : Nat} {cut : FrameCut frameSize} {frame : BrotliFrame}
    {bytes : List UInt8} (h : Refines codec cut frame bytes) :
    ∃ frame' bytes', frame.flush vectorSink codec.compressor bytes = .ok (frame', bytes') ∧
      Refines codec cut.flush frame' bytes' := by
  have hclose := close_eq frame h.data
  obtain ⟨chunks, hchunks, hcalls⟩ := h.calls
  have htaken : FrameCalls codec.compressor cut.pending (frame.calls ++ [.flush]) := by
    refine ⟨chunks, hchunks, by rw [hcalls], ?_⟩
    simp [h.taken]
  have hempty : (codec.compressor.stream (frame.calls ++ [.flush])).isEmpty = false := by
    simpa using codec.stream_ne (frame.calls ++ [.flush])
  have hflush : frame.flush vectorSink codec.compressor bytes = .ok (
      { frame with
        calls := [], data := [], uncompressedBytesInFrame := 0
        short := Nat.zero_lt_of_lt frame.short },
      bytes ++ callBytes (brotliFrameCalls
        (codec.compressor.stream (frame.calls ++ [.flush])) frame.uncompressedBytesInFrame)) := by
    simp only [BrotliFrame.flush, bind, Except.bind, hclose, vectorSink_perform,
      vectorSink_flush, hempty]
    rfl
  exact ⟨_, _, hflush, h.closed htaken _, h.frameSize, ⟨[], List.not_mem_nil, rfl⟩, rfl, rfl,
    rfl⟩

theorem Refines.writeLoop {frameSize : Nat} {cut : FrameCut frameSize} {rounds : Nat}
    {buf : List UInt8} (hrounds : buf.length ≤ rounds) {frame : BrotliFrame} {bytes : List UInt8}
    (h : Refines codec cut frame bytes) :
    ∃ frame' bytes', frame.writeLoop vectorSink codec.compressor rounds buf bytes =
        .ok (frame', bytes') ∧
      Refines codec (cut.write buf) frame' bytes' := by
  induction rounds generalizing buf cut frame bytes with
  | zero =>
      obtain rfl := List.eq_nil_of_length_eq_zero (Nat.le_zero.mp hrounds)
      exact ⟨frame, bytes, rfl, h⟩
  | succ rounds ih =>
      cases buf with
      | nil => exact ⟨frame, bytes, rfl, h⟩
      | cons b buf =>
          have hshort := cut.short
          obtain ⟨chunk, hchunk⟩ : ∃ chunk, chunk =
            (b :: buf).take (frame.frameSize - frame.uncompressedBytesInFrame) := ⟨_, rfl⟩
          have hsize := h.frameSize
          have hcount := h.count
          have hne : chunk ≠ [] := by
            rw [hchunk, ne_eq, List.take_eq_nil_iff]
            simp
            omega
          have hpos := codec.compressor.write_pos frame.calls chunk hne
          have hle := codec.compressor.write_le frame.calls chunk
          obtain ⟨written, hwritten⟩ : ∃ written,
            written = (codec.compressor.write frame.calls chunk).2 := ⟨_, rfl⟩
          rw [← hwritten] at hpos hle
          have hlength : chunk.length ≤ frameSize - cut.pending.length := by
            rw [hchunk, hsize, hcount]
            exact List.length_take_le _ _
          have htake : chunk.take written = (b :: buf).take written := by
            rw [hchunk, List.take_take, Nat.min_eq_left]
            rw [hsize, hcount]
            omega
          have hrest : ((b :: buf).drop written).length ≤ rounds := by
            rw [List.length_drop]
            omega
          have hwrite : cut.write (b :: buf) =
              (cut.write ((b :: buf).take written)).write ((b :: buf).drop written) := by
            rw [← FrameCut.write_append, List.take_append_drop]
          have htaken : (codec.compressor.taken (frame.calls ++ [.write chunk])).flatten =
              cut.pending ++ (b :: buf).take written := by
            simp [h.taken, ← hwritten, htake]
          have hcalls : ∃ chunks : List (List UInt8), [] ∉ chunks ∧
              frame.calls ++ [.write chunk] = chunks.map EncoderCall.write := by
            obtain ⟨chunks, hchunks, hcalls⟩ := h.calls
            refine ⟨chunks ++ [chunk], ?_, by simp [hcalls]⟩
            simp [hchunks, Ne.symm hne]
          have hdata : frame.data ++ callBytes (codec.compressor.write frame.calls chunk).1 =
              codec.compressor.output (frame.calls ++ [.write chunk]) := by
            simp [h.data]
          have hfilled : (cut.pending ++ (b :: buf).take written).length =
              frame.uncompressedBytesInFrame + written := by
            rw [← htake, List.length_append, List.length_take, hcount]
            omega
          rw [BrotliFrame.writeLoop]
          dsimp only
          rw [← hchunk, ← hwritten, if_neg (Nat.ne_of_gt hpos), hwrite]
          by_cases hroom : frame.uncompressedBytesInFrame + written < frame.frameSize
          · have hlt : (cut.pending ++ (b :: buf).take written).length < frameSize := by omega
            rw [dif_pos hroom, FrameCut.write_of_lt cut _ hlt]
            apply ih hrest
            exact ⟨h.frames, h.frameSize, hcalls, hdata, htaken, hfilled.symm⟩
          · have heq : (cut.pending ++ (b :: buf).take written).length = frameSize := by omega
            rw [dif_neg hroom, FrameCut.write_of_eq cut _ heq, close_eq _ hdata]
            simp only [vectorSink_perform, bind, Except.bind]
            apply ih hrest
            obtain ⟨chunks, hchunks, hall⟩ := hcalls
            refine ⟨h.closed ⟨chunks, hchunks, by rw [hall], ?_⟩ _, h.frameSize,
              ⟨[], List.not_mem_nil, rfl⟩, rfl, rfl, rfl⟩
            rw [Compressor.taken_flush, htaken]

theorem Refines.call {frameSize : Nat} {cut : FrameCut frameSize} {frame : BrotliFrame}
    {bytes : List UInt8} (h : Refines codec cut frame bytes) (call : FramingCall) :
    ∃ frame' bytes', BrotliFrame.call codec.compressor (frame, bytes) call =
        .ok (frame', bytes') ∧
      Refines codec (cut.call call) frame' bytes' := by
  cases call with
  | write buf => exact h.writeLoop (Nat.le_refl _)
  | flush => exact h.flush

theorem Refines.calls_ok {frameSize : Nat} (calls : List FramingCall) {cut : FrameCut frameSize}
    {frame : BrotliFrame} {bytes : List UInt8} (h : Refines codec cut frame bytes) :
    ∃ frame' bytes', calls.foldlM (BrotliFrame.call codec.compressor) (frame, bytes) =
        .ok (frame', bytes') ∧
      Refines codec (calls.foldl FrameCut.call cut) frame' bytes' := by
  induction calls generalizing cut frame bytes with
  | nil => exact ⟨frame, bytes, rfl, h⟩
  | cons first calls ih =>
      obtain ⟨frame₁, bytes₁, hfirst, h₁⟩ := h.call first
      obtain ⟨frame', bytes', hcalls, h'⟩ := ih h₁
      refine ⟨frame', bytes', ?_, h'⟩
      rw [List.foldlM_cons, hfirst]
      exact hcalls

theorem encode_eq (codec : BrotliCodec σ) {frameSize : Nat} (h : 0 < frameSize)
    (calls : List FramingCall) :
    ∃ frames, brotliEncode codec.compressor frameSize calls =
        .ok (CodecFrame.bytes brotliFormat frames) ∧
      frames.map CodecFrame.content = (FrameCut.ofCalls h calls).frames ∧
      ∀ frame ∈ frames, Packs codec frame := by
  have hnew : Refines codec (FrameCut.new h) (BrotliFrame.new frameSize h) [] :=
    ⟨⟨[], rfl, rfl, by simp⟩, rfl, ⟨[], List.not_mem_nil, rfl⟩, rfl, rfl, rfl⟩
  obtain ⟨frame, bytes, hcalls, hframe⟩ := hnew.calls_ok calls
  obtain ⟨frames, rfl, hcontents, hpacks⟩ := hframe.frames
  refine ⟨frames, ?_, hcontents, hpacks⟩
  rw [brotliEncode, dif_pos h, hcalls]
  rfl

end BrotliFrame

/-- An encoder's stream can be told from what the decoder takes it for: each length fits its
field, and a native stream does not begin with the header of a frame. -/
def BrotliFits (compressor : Compressor) (frameSize : Nat) (calls : List FramingCall) : Prop :=
  if h : 0 < frameSize then
    ∀ content ∈ (FrameCut.ofCalls h calls).frames, ∀ frameCalls,
      FrameCalls compressor content frameCalls → (compressor.stream frameCalls).length < 2 ^ 32
  else ¬ FramedDecoder.BeginsFrame brotliFormat (brotliNative compressor calls)

/-- All that is written was flushed or fills a frame, some frame is written, and no frame but
the first is without content and before one with content; a native stream is long enough and
does not look framed. -/
def BrotliKept (compressor : Compressor) (frameSize : Nat) (calls : List FramingCall) : Prop :=
  if h : 0 < frameSize then
    let cut := FrameCut.ofCalls h calls
    cut.pending = [] ∧ cut.frames ≠ [] ∧
      cut.frames.tail.Pairwise fun earlier later => earlier = [] → later = []
  else
    let stream := brotliNative compressor calls
    4 ≤ stream.length ∧ ¬ FramedDecoder.LooksFramed brotliFormat stream

section

variable {σ : Type} (codec : BrotliCodec σ)

theorem BrotliFrame.Packs.sound {codec : BrotliCodec σ} {frame : CodecFrame}
    (hpacks : BrotliFrame.Packs codec frame)
    (hfits : ∀ calls, FrameCalls codec.compressor frame.content calls →
      (codec.compressor.stream calls).length < 2 ^ 32) : frame.Sound codec.decompressor := by
  obtain ⟨calls, hcalls, hpacked⟩ := hpacks.packed
  have htaken := hcalls.choose_spec.2.2
  exact {
    hint := hpacks.hint
    packed := hpacked ▸ codec.stream_ne calls
    fits := hpacked ▸ hfits calls hcalls
    decodes := by
      rw [hpacked, ← htaken]
      exact codec.decodes calls }

theorem brotliFramed_decodesTo {frameSize : Nat} (h : 0 < frameSize) (calls : List FramingCall)
    (hfits : BrotliFits codec.compressor frameSize calls) :
    ∃ bytes, brotliEncode codec.compressor frameSize calls = .ok bytes ∧
      (DecodesTo brotliFormat codec.decompressor bytes (FramingCall.written calls) ↔
        BrotliKept codec.compressor frameSize calls) := by
  rw [BrotliFits, dif_pos h] at hfits
  obtain ⟨frames, hencode, hcontents, hpacks⟩ := BrotliFrame.encode_eq codec h calls
  have hsound : ∀ frame ∈ frames, frame.Sound codec.decompressor := by
    intro frame hframe
    apply (hpacks frame hframe).sound
    apply hfits
    rw [← hcontents]
    exact List.mem_map_of_mem hframe
  have hiff := decodesTo_frames_iff brotliFormat hsound (FrameCut.ofCalls h calls).pending
  rw [hcontents] at hiff
  refine ⟨_, hencode, ?_⟩
  rw [BrotliKept, dif_pos h, ← FrameCut.content_ofCalls h calls]
  exact hiff

theorem brotliNative_decodesTo {calls : List FramingCall}
    (hfits : ¬ FramedDecoder.BeginsFrame brotliFormat (brotliNative codec.compressor calls)) :
    DecodesTo brotliFormat codec.decompressor (brotliNative codec.compressor calls)
        (codec.compressor.taken (calls.map FramingCall.toEncoderCall ++ [.write []])).flatten ↔
      4 ≤ (brotliNative codec.compressor calls).length ∧
        ¬ FramedDecoder.LooksFramed brotliFormat (brotliNative codec.compressor calls) := by
  have hdecodes := codec.decodes (calls.map FramingCall.toEncoderCall ++ [.write []])
  constructor
  · rintro ⟨decoder, hdecoder, -⟩
    refine ⟨?_, ?_⟩
    · apply Nat.le_of_not_lt
      intro hshort
      rw [FramedDecoder.new_short hshort] at hdecoder
      cases hdecoder
    · intro hlooks
      obtain ⟨e, he⟩ := FramedDecoder.new_refused codec.decompressor hlooks hfits
      rw [he] at hdecoder
      cases hdecoder
  · rintro ⟨hlength, hlooks⟩
    obtain ⟨decoder, hnew, hleft⟩ := FramedDecoder.new_plain hlength hlooks hdecodes
    refine ⟨decoder, hnew, fun patience => ?_⟩
    exact ((FramedDecoder.gives_plain serves_slice patience).yields.readsBack_iff _ hleft _).mpr rfl

/-- A Brotli stream is written for all calls.  Where it can be told what it is, it is read back
exactly if all of it is in frames and none of these ends the reading early; or, native, if it
is not taken for frames. -/
theorem brotli_decodesTo_iff (frameSize : Nat) (calls : List FramingCall)
    (hfits : BrotliFits codec.compressor frameSize calls) :
    ∃ bytes, brotliEncode codec.compressor frameSize calls = .ok bytes ∧
      (DecodesTo brotliFormat codec.decompressor bytes
          (brotliWritten codec.compressor frameSize calls) ↔
        BrotliKept codec.compressor frameSize calls) := by
  by_cases h : 0 < frameSize
  · rw [brotliWritten, if_pos h]
    exact brotliFramed_decodesTo codec h calls hfits
  · rw [BrotliFits, dif_neg h] at hfits
    rw [BrotliKept, dif_neg h, brotliWritten, if_neg h, brotliEncode, dif_neg h]
    exact ⟨_, rfl, brotliNative_decodesTo codec hfits⟩

end

/-- Brotli streams of uncompressed blocks of one byte, after an empty metadata block, and with
two more before the end. -/
def storedBrotli : Stored where
  header := [0x0C]
  mark := [0, 0, 8]
  stop := [6, 6, 3]
  length_eq := rfl
  stop_ne := by decide

namespace StoredCompressor

variable (format : Stored)

def opening (calls : List EncoderCall) : List UInt8 := if calls.isEmpty then format.header else []

def blocks (content : List UInt8) : List UInt8 :=
  content.flatMap fun byte => format.mark ++ [byte]

def compressor : Compressor where
  write calls buf := ([.writeAll (opening format calls ++ blocks format buf)], buf.length)
  flush calls := [.writeAll (opening format calls)]
  finish calls := [.writeAll (opening format calls ++ format.stop)]
  write_le _ _ := Nat.le_refl _
  write_pos _ _ hbuf := List.length_pos_iff.mpr hbuf

theorem outputFrom_compressor (calls : List EncoderCall) {before : List EncoderCall}
    (hbefore : before ≠ []) :
    (compressor format).outputFrom before calls =
      blocks format ((compressor format).takenFrom before calls).flatten := by
  induction calls generalizing before with
  | nil => rfl
  | cons call calls ih =>
      have hrest := @ih (before ++ [call]) (by simp)
      cases call <;>
        simp [Compressor.outputFrom, Compressor.takenFrom, hrest] <;>
        simp [compressor, opening, blocks, hbefore]

theorem stream_compressor (calls : List EncoderCall) :
    (compressor format).stream calls =
      format.pack ((compressor format).taken calls).flatten := by
  cases calls with
  | nil => simp [Compressor.stream, compressor, opening, Stored.pack, Stored.body]
  | cons call calls =>
      have hrest := outputFrom_compressor format calls (List.cons_ne_nil call [])
      cases call <;>
        simp [Compressor.stream, Compressor.output, Compressor.taken, Compressor.outputFrom,
          Compressor.takenFrom, hrest] <;>
        simp [compressor, opening, Stored.pack, Stored.body, blocks]

end StoredCompressor

def storedBrotliCodec : BrotliCodec Stored.State where
  compressor := StoredCompressor.compressor storedBrotli
  decompressor := storedBrotli.decompressor .unexpectedEof
  stream_ne calls := by
    rw [StoredCompressor.stream_compressor]
    exact List.cons_ne_nil _ _
  decodes calls := by
    rw [StoredCompressor.stream_compressor]
    exact storedBrotli.decodes_pack IoError.unexpectedEof _

theorem crossingWrite_decodesTo :
    ∃ bytes, brotliEncode storedBrotliCodec.compressor 2
        [.flush, .write [7], .write [8, 9], .flush] = .ok bytes ∧
      DecodesTo brotliFormat storedBrotliCodec.decompressor bytes [7, 8, 9] := by
  have hframes : (FrameCut.ofCalls (show 0 < 2 by decide)
      [.flush, .write [7], .write [8, 9], .flush]).frames = [[], [7, 8], [9]] := by decide
  have hfits : BrotliFits storedBrotliCodec.compressor 2
      [.flush, .write [7], .write [8, 9], .flush] := by
    rw [BrotliFits, dif_pos (by decide), hframes]
    intro content hcontent calls hcalls
    have hstream : storedBrotliCodec.compressor.stream calls = storedBrotli.pack content := by
      rw [← hcalls.choose_spec.2.2]
      exact StoredCompressor.stream_compressor storedBrotli calls
    rw [hstream]
    simp only [List.mem_cons, List.not_mem_nil, or_false] at hcontent
    rcases hcontent with rfl | rfl | rfl <;> decide
  obtain ⟨bytes, hbytes, hiff⟩ := brotli_decodesTo_iff storedBrotliCodec 2 _ hfits
  refine ⟨bytes, hbytes, hiff.mpr ?_⟩
  rw [BrotliKept, dif_pos (by decide)]
  decide

/-- A second flush without data between: the decoder takes the empty frame for the end, and the
frame after it is lost. -/
theorem secondFlush_not_decodesTo :
    ∃ bytes, brotliEncode storedBrotliCodec.compressor 65536
        [.write [1], .flush, .flush, .write [2], .flush] = .ok bytes ∧
      ¬ DecodesTo brotliFormat storedBrotliCodec.decompressor bytes
        (brotliWritten storedBrotliCodec.compressor 65536
          [.write [1], .flush, .flush, .write [2], .flush]) := by
  refine ⟨brotliFormat.frame 1 (storedBrotli.pack [1]) ++
    brotliFormat.frame 0 (storedBrotli.pack []) ++ brotliFormat.frame 1 (storedBrotli.pack [2]),
    by decide +kernel, ?_⟩
  rintro ⟨decoder, hnew, hback⟩
  have hread := hback 0 (fun _ => 0) 3 (by decide)
  cases hnew
  revert hread
  decide +kernel

end Sevenz
