import Sevenz.Codec.FrameCut
import Sevenz.Codec.FrameRoundTrip

/-!
# LZ4 frames

`Lz4Encoder` (`codec/lz4.rs`) with a frame size: it compresses a frame at a time, and writes
none without content.
-/

namespace Sevenz

open Lib

/-- The LZ4 frame compressor and decompressor of another crate: a frame is not empty, and it
gives its content back. -/
structure Lz4Codec (σ : Type) where
  compress : List UInt8 → List UInt8
  decompressor : Decompressor IoError σ
  compress_ne : ∀ data, data ≠ [] → compress data ≠ []
  decodes : ∀ data, data ≠ [] → decompressor.Decodes (compress data) data

/-- `Lz4Encoder` with a frame size, over bytes in memory.  The buffer is kept up to
`uncompressed_data_size`, which stays below the frame size. -/
structure Lz4Encoder where
  writer : List UInt8
  frameSize : Nat
  uncompressedData : List UInt8
  short : uncompressedData.length < frameSize

namespace Lz4Encoder

variable (compress : List UInt8 → List UInt8)

def new (frameSize : Nat) (h : 0 < frameSize) : Lz4Encoder := ⟨[], frameSize, [], h⟩

def writeFrame (writer uncompressedData : List UInt8) : List UInt8 :=
  if uncompressedData.isEmpty then writer
  else
    let compressedData := compress uncompressedData
    if compressedData.isEmpty then writer
    else
      writer ++ leBytes 4 skippableFrameMagic ++ leBytes 4 4 ++ leBytes 4 compressedData.length ++
        compressedData

def writeLoop : Nat → List UInt8 → Lz4Encoder → Lz4Encoder
  | 0, _, s => s
  | rounds + 1, buf, s =>
      if buf.isEmpty then s
      else
        let availableSpace := s.frameSize - s.uncompressedData.length
        let bytesToCopy := min buf.length availableSpace
        let data := s.uncompressedData ++ buf.take bytesToCopy
        if h : data.length < s.frameSize then
          writeLoop rounds (buf.drop bytesToCopy) { s with uncompressedData := data, short := h }
        else
          writeLoop rounds (buf.drop bytesToCopy)
            { s with
              writer := writeFrame compress s.writer data, uncompressedData := []
              short := Nat.zero_lt_of_lt s.short }

/-- Each round takes a byte, so there are no more rounds than bytes. -/
def write (buf : List UInt8) (s : Lz4Encoder) : Lz4Encoder := writeLoop compress buf.length buf s

def flush (s : Lz4Encoder) : Lz4Encoder :=
  { s with
    writer := writeFrame compress s.writer s.uncompressedData, uncompressedData := []
    short := Nat.zero_lt_of_lt s.short }

def finish (s : Lz4Encoder) : List UInt8 := writeFrame compress s.writer s.uncompressedData

def call (s : Lz4Encoder) : FramingCall → Lz4Encoder
  | .write buf => s.write compress buf
  | .flush => s.flush compress

def encode (frameSize : Nat) (h : 0 < frameSize) (calls : List FramingCall) : List UInt8 :=
  (calls.foldl (call compress) (new frameSize h)).finish compress

variable {compress}

def frameOf (compress : List UInt8 → List UInt8) (data : List UInt8) : CodecFrame :=
  ⟨0, compress data, data⟩

def framesOf (compress : List UInt8 → List UInt8) (contents : List (List UInt8)) :
    List CodecFrame :=
  (contents.filter fun data => !data.isEmpty).map (frameOf compress)

theorem writeFrame_eq (hne : ∀ data, data ≠ [] → compress data ≠ []) (writer data : List UInt8) :
    writeFrame compress writer data =
      writer ++ CodecFrame.bytes lz4Format (framesOf compress [data]) := by
  by_cases hdata : data = []
  · simp [writeFrame, framesOf, hdata]
  · have hcompressed := hne data hdata
    simp [writeFrame, framesOf, hdata, hcompressed, CodecFrame.bytes, frameOf, FrameFormat.frame,
      FrameFormat.header, FrameFormat.codecFields, lz4Format]

theorem framesOf_append (xs ys : List (List UInt8)) :
    framesOf compress (xs ++ ys) = framesOf compress xs ++ framesOf compress ys := by
  simp [framesOf]

structure Refines (compress : List UInt8 → List UInt8) {frameSize : Nat}
    (cut : FrameCut frameSize) (s : Lz4Encoder) : Prop where
  writer : s.writer = CodecFrame.bytes lz4Format (framesOf compress cut.frames)
  frameSize : s.frameSize = frameSize
  uncompressedData : s.uncompressedData = cut.pending

theorem Refines.flush {frameSize : Nat} {cut : FrameCut frameSize} {s : Lz4Encoder}
    (hne : ∀ data, data ≠ [] → compress data ≠ []) (h : s.Refines compress cut) :
    (s.flush compress).Refines compress cut.flush := by
  refine ⟨?_, h.frameSize, rfl⟩
  simp only [Lz4Encoder.flush, FrameCut.flush]
  rw [writeFrame_eq hne, h.writer, h.uncompressedData, framesOf_append, CodecFrame.bytes_append]

theorem Refines.writeLoop {frameSize : Nat} {cut : FrameCut frameSize} {s : Lz4Encoder}
    (hne : ∀ data, data ≠ [] → compress data ≠ []) (h : s.Refines compress cut) {rounds : Nat}
    {buf : List UInt8} (hrounds : buf.length ≤ rounds) :
    (s.writeLoop compress rounds buf).Refines compress (cut.write buf) := by
  induction rounds generalizing buf cut s with
  | zero =>
      obtain rfl := List.eq_nil_of_length_eq_zero (Nat.le_zero.mp hrounds)
      exact h
  | succ rounds ih =>
      by_cases hbuf : buf = []
      · subst hbuf
        exact h
      · have hpos := List.length_pos_iff.mpr hbuf
        have hshort := cut.short
        simp only [Lz4Encoder.writeLoop, h.frameSize, h.uncompressedData]
        rw [if_neg (by simpa using hbuf)]
        obtain ⟨k, hk⟩ : ∃ k, k = min buf.length (frameSize - cut.pending.length) := ⟨_, rfl⟩
        simp only [← hk]
        have hrest : (buf.drop k).length ≤ rounds := by
          rw [List.length_drop]
          omega
        have hwrite : cut.write buf = (cut.write (buf.take k)).write (buf.drop k) := by
          rw [← FrameCut.write_append, List.take_append_drop]
        have hlength : (cut.pending ++ buf.take k).length = cut.pending.length + k := by
          rw [List.length_append, List.length_take]
          omega
        rw [hwrite]
        by_cases hdata : (cut.pending ++ buf.take k).length < frameSize
        · rw [dif_pos hdata, FrameCut.write_of_lt cut (buf.take k) hdata]
          apply ih _ hrest
          exact ⟨h.writer, rfl, rfl⟩
        · have hfull : (cut.pending ++ buf.take k).length = frameSize := by omega
          rw [dif_neg hdata, FrameCut.write_of_eq cut (buf.take k) hfull]
          apply ih _ hrest
          refine ⟨?_, rfl, rfl⟩
          simp only [writeFrame_eq hne, h.writer, framesOf_append, CodecFrame.bytes_append]

theorem Refines.call {frameSize : Nat} {cut : FrameCut frameSize} {s : Lz4Encoder}
    (hne : ∀ data, data ≠ [] → compress data ≠ []) (h : s.Refines compress cut)
    (call : FramingCall) : (s.call compress call).Refines compress (cut.call call) := by
  cases call with
  | write buf => exact h.writeLoop hne (Nat.le_refl _)
  | flush => exact h.flush hne

theorem refines_calls {frameSize : Nat} (hne : ∀ data, data ≠ [] → compress data ≠ [])
    (calls : List FramingCall) {cut : FrameCut frameSize} {s : Lz4Encoder}
    (h : s.Refines compress cut) :
    (calls.foldl (Lz4Encoder.call compress) s).Refines compress
      (calls.foldl FrameCut.call cut) := by
  induction calls generalizing cut s with
  | nil => exact h
  | cons first calls ih => exact ih (h.call hne first)

theorem encode_eq (hne : ∀ data, data ≠ [] → compress data ≠ []) {frameSize : Nat}
    (h : 0 < frameSize) (calls : List FramingCall) :
    encode compress frameSize h calls =
      CodecFrame.bytes lz4Format (framesOf compress (FrameCut.ofCalls h calls).flush.frames) := by
  have hnew : (new frameSize h).Refines compress (FrameCut.new h) := ⟨rfl, rfl, rfl⟩
  have hcalls := refines_calls hne calls hnew
  rw [encode, finish, writeFrame_eq hne, hcalls.writer, hcalls.uncompressedData, FrameCut.flush,
    framesOf_append, CodecFrame.bytes_append]
  rfl

theorem exists_of_mem_framesOf {contents : List (List UInt8)} {frame : CodecFrame}
    (h : frame ∈ framesOf compress contents) :
    ∃ data ∈ contents, data ≠ [] ∧ frame = frameOf compress data := by
  simp only [framesOf, List.mem_map, List.mem_filter] at h
  obtain ⟨data, ⟨hmem, hne⟩, rfl⟩ := h
  exact ⟨data, hmem, by simpa using hne, rfl⟩

theorem content_framesOf (contents : List (List UInt8)) :
    (framesOf compress contents).map CodecFrame.content =
      contents.filter fun data => !data.isEmpty := by
  simp [framesOf, frameOf, Function.comp_def]

end Lz4Encoder

/-- Where every frame is shorter than the length field can say, an LZ4 stream is read back
exactly if there is anything in it: with nothing written there is no frame, and the decoder
wants four bytes at least. -/
theorem lz4_decodesTo_iff {σ : Type} (codec : Lz4Codec σ) {frameSize : Nat} (h : 0 < frameSize)
    (calls : List FramingCall)
    (hfits : ∀ data ∈ (FrameCut.ofCalls h calls).flush.frames,
      (codec.compress data).length < 2 ^ 32) :
    DecodesTo lz4Format codec.decompressor
      (Lz4Encoder.encode codec.compress frameSize h calls) (FramingCall.written calls) ↔
        FramingCall.written calls ≠ [] := by
  have hwritten : (FrameCut.ofCalls h calls).flush.frames.flatten = FramingCall.written calls := by
    rw [← FrameCut.content_ofCalls h calls, ← FrameCut.content_flush, FrameCut.content]
    exact (List.append_nil _).symm
  have hsound : ∀ frame ∈ Lz4Encoder.framesOf codec.compress
      (FrameCut.ofCalls h calls).flush.frames, frame.Sound codec.decompressor := by
    intro frame hframe
    obtain ⟨data, hmem, hdata, rfl⟩ := Lz4Encoder.exists_of_mem_framesOf hframe
    exact ⟨Nat.two_pow_pos 16, codec.compress_ne data hdata, hfits data hmem,
      codec.decodes data hdata⟩
  have hiff := decodesTo_frames_iff lz4Format hsound []
  rw [Lz4Encoder.content_framesOf, List.flatten_filter_not_isEmpty, List.append_nil, hwritten,
    ← Lz4Encoder.encode_eq codec.compress_ne h calls] at hiff
  rw [hiff, ← hwritten, ne_eq, ne_eq, List.flatten_eq_nil_iff, List.filter_eq_nil_iff]
  constructor
  · rintro ⟨-, hsome, -⟩ hnil
    exact hsome fun data hdata => by simp [hnil data hdata]
  · intro hsome
    refine ⟨rfl, fun hnil => hsome fun data hdata => by simpa using hnil data hdata, ?_⟩
    -- no frame is empty
    apply List.Pairwise.tail
    apply List.pairwise_of_forall_mem_list
    intro earlier hearlier later _ hnil
    simp [hnil] at hearlier

/-- LZ4 frames of stored blocks of one byte; the header is that of one byte of content. -/
def storedLz4 : Stored where
  header := [0x04, 0x22, 0x4D, 0x18, 0x68, 0x40, 1, 0, 0, 0, 0, 0, 0, 0, 0x2C]
  mark := [1, 0, 0, 0x80]
  stop := [0, 0, 0, 0]
  length_eq := rfl
  stop_ne := by decide

def storedLz4Codec : Lz4Codec Stored.State where
  compress := storedLz4.pack
  decompressor := storedLz4.decompressor .unexpectedEof
  compress_ne _ _ := List.cons_ne_nil _ _
  decodes data _ := storedLz4.decodes_pack IoError.unexpectedEof data

theorem fillingWrite_decodesTo : DecodesTo lz4Format storedLz4Codec.decompressor
    (Lz4Encoder.encode storedLz4Codec.compress 1 (by decide) [.flush, .write [7, 8], .flush])
    [7, 8] := by
  have hiff := lz4_decodesTo_iff storedLz4Codec (show 0 < 1 by decide)
    [.flush, .write [7, 8], .flush] (by decide)
  exact hiff.mpr (by decide)

/-- Nothing written: the decoder refuses the empty stream. -/
theorem nothingWritten_not_decodesTo : ¬ DecodesTo lz4Format storedLz4Codec.decompressor
    (Lz4Encoder.encode storedLz4Codec.compress 65536 (by decide) []) [] := by
  rintro ⟨decoder, hnew, -⟩
  have hempty : Lz4Encoder.encode storedLz4Codec.compress 65536 (by decide) [] = [] := rfl
  rw [hempty, FramedDecoder.new_short (by decide)] at hnew
  cases hnew

end Sevenz
