import Sevenz.Header.Read
import Sevenz.Reader.Composition
import Sevenz.Writer.CoderChain
import Sevenz.Writer.EndOfStream

/-!
# What the coders of a decode stack see

`build_decode_stack` and the header decode put each decoder straight on the one below, so a
coder reads all that the coder below delivers, whatever unpack size is recorded for it.  The
AES decoder delivers whole blocks, with the zeros the encoder padded the last one with.
-/

namespace Sevenz

open Lib Lib.Parser

def idLzma : List UInt8 := [0x03, 0x01, 0x01]

/-- What a decoder makes of a whole input when it is told the given unpack size.  Only the LZMA
decoder and the BCJ2 decoder stop at that size. -/
structure StreamDecoders where
  decode : Coder → UInt64 → List UInt8 → List UInt8
  bcj2 : UInt64 → List UInt8 → List UInt8 → List UInt8 → List UInt8 → List UInt8
  length_lzma_le : ∀ coder size input, coder.encoderMethodId = idLzma →
    (decode coder size input).length ≤ size.toNat
  length_bcj2_le : ∀ size main call jump range,
    (bcj2 size main call jump range).length ≤ size.toNat

namespace Decoder

variable (decoders : StreamDecoders) (file : List UInt8)

/-- The bytes a stack delivers.  A pack stream is bounded by its size, a decoder reads the one
below to its end. -/
def delivers : Decoder → List UInt8
  | .pack _ start size => (file.drop start).take size
  | .coder stage input => decoders.decode stage.coder stage.uncompressedLen (delivers input)
  | .bcj2 stage main call jump range =>
      decoders.bcj2 stage.uncompressedLen (delivers main) (delivers call) (delivers jump)
        (delivers range)

/-- The unpack size recorded for a decoder; a pack stream has its own bound. -/
def recordedSize : Decoder → Option UInt64
  | .pack _ _ _ => none
  | .coder stage _ => some stage.uncompressedLen
  | .bcj2 stage _ _ _ _ => some stage.uncompressedLen

def recorded (decoder : Decoder) : List UInt8 :=
  match decoder.recordedSize with
  | none => decoder.delivers decoders file
  | some size => (decoder.delivers decoders file).take size.toNat

def packed : Decoder → List UInt8
  | .pack _ start size => (file.drop start).take size
  | .coder _ input => packed input
  | .bcj2 _ main call jump range => packed main ++ packed call ++ packed jump ++ packed range

def Fits : Decoder → Prop
  | .pack _ _ _ => True
  | .coder stage input =>
      stage.coder.encoderMethodId ≠ idLzma →
        (decoders.decode stage.coder stage.uncompressedLen (input.delivers decoders file)).length ≤
          stage.uncompressedLen.toNat
  | .bcj2 _ _ _ _ _ => True

def SeesRecorded : Decoder → Prop
  | .pack _ _ _ => True
  | .coder _ input =>
      input.delivers decoders file = input.recorded decoders file ∧ SeesRecorded input
  | .bcj2 _ main call jump range =>
      (main.delivers decoders file = main.recorded decoders file ∧ SeesRecorded main) ∧
        (call.delivers decoders file = call.recorded decoders file ∧ SeesRecorded call) ∧
        (jump.delivers decoders file = jump.recorded decoders file ∧ SeesRecorded jump) ∧
        (range.delivers decoders file = range.recorded decoders file ∧ SeesRecorded range)

def KeepsSizes : Decoder → Prop
  | .pack _ _ _ => True
  | .coder _ input => input.Fits decoders file ∧ KeepsSizes input
  | .bcj2 _ main call jump range =>
      (main.Fits decoders file ∧ KeepsSizes main) ∧ (call.Fits decoders file ∧ KeepsSizes call) ∧
        (jump.Fits decoders file ∧ KeepsSizes jump) ∧ (range.Fits decoders file ∧ KeepsSizes range)

variable {decoders file}

theorem delivers_eq_recorded_iff {decoder : Decoder} :
    decoder.delivers decoders file = decoder.recorded decoders file ↔
      decoder.Fits decoders file := by
  rw [eq_comm]
  cases decoder with
  | pack index start size => exact iff_of_true rfl trivial
  | coder stage input =>
      change List.take _ _ = _ ↔ _
      rw [List.take_eq_self_iff, delivers, Fits]
      constructor
      · exact fun hle _ => hle
      · intro hfits
        by_cases hlzma : stage.coder.encoderMethodId = idLzma
        · exact decoders.length_lzma_le _ _ _ hlzma
        · exact hfits hlzma
  | bcj2 stage main call jump range =>
      change List.take _ _ = _ ↔ _
      rw [List.take_eq_self_iff, delivers]
      exact iff_of_true (decoders.length_bcj2_le _ _ _ _ _) trivial

theorem seesRecorded_iff {decoder : Decoder} :
    decoder.SeesRecorded decoders file ↔ decoder.KeepsSizes decoders file := by
  induction decoder with
  | pack index start size => rfl
  | coder stage input ih => rw [SeesRecorded, KeepsSizes, delivers_eq_recorded_iff, ih]
  | bcj2 stage main call jump range hmain hcall hjump hrange =>
      rw [SeesRecorded, KeepsSizes, delivers_eq_recorded_iff, delivers_eq_recorded_iff,
        delivers_eq_recorded_iff, delivers_eq_recorded_iff, hmain, hcall, hjump, hrange]

end Decoder

def stackOf : List Stage → Decoder → Decoder
  | [], source => source
  | stage :: stages, source => .coder stage (stackOf stages source)

theorem stackOf_append (stages stages' : List Stage) (source : Decoder) :
    stackOf (stages ++ stages') source = stackOf stages (stackOf stages' source) := by
  induction stages with
  | nil => rfl
  | cons stage stages ih => rw [List.cons_append, stackOf, ih, stackOf]

def Block.stage (block : Block) (entry : Nat × Coder) : Stage :=
  { coderIndex := entry.1, coder := entry.2, sizeIndex := entry.1
    uncompressedLen := block.getUnpackSizeAtIndex entry.1 }

theorem addChain_eq_stackOf {codecs : Codecs} {block : Block} {unsupported : Error}
    {entries : List (Nat × Coder)} {source decoder : Decoder}
    (h : addChain codecs block unsupported entries source = .ok decoder) :
    decoder = stackOf (entries.map block.stage).reverse source := by
  induction entries generalizing source with
  | nil => exact Result.pure_eq_ok.mp h
  | cons entry entries ih =>
      obtain ⟨i, coder⟩ := entry
      rw [ih (addChain_cons_eq_ok h).2, List.map_cons, List.reverse_cons, stackOf_append]
      rfl

/-- The stack is what one of the two readers builds for the block, over the pack stream. -/
inductive BuiltFor (codecs : Codecs) (block : Block) : DecodeStack → Prop where
  | block {limits : ArchiveLimits} {archive : Archive} {b : Nat} {stack : DecodeStack}
      (hblock : archive.blocks[b]? = some block)
      (hbuild : buildDecodeStack codecs limits archive b = .ok stack) : BuiltFor codecs block stack
  | header {opts : DecodeOptions} {bounds : HeaderBounds} {archive : Archive}
      {header rest rest' : List UInt8} {stack : DecodeStack} {unpackSize : Nat}
      (hinfo : readStreamsInfo bounds {} header = .ok (archive, rest))
      (hblock : archive.blocks.head? = some block)
      (hbuild : readEncodedHeader codecs opts bounds header = .ok ((stack, unpackSize), rest')) :
      BuiltFor codecs block stack

theorem BuiltFor.decoder_eq {codecs : Codecs} {block : Block} {stack : DecodeStack}
    (h : BuiltFor codecs block stack)
    (hsimple : block.totalInputStreams ≤ block.totalOutputStreams) :
    ∃ start size, stack.decoder =
      stackOf (block.orderedCoderIter.map block.stage).reverse (.pack 0 start size) := by
  cases h with
  | @block limits archive b _ hblock h =>
      obtain ⟨block', hindex, h⟩ := Result.bind_eq_ok.mp h
      cases hblock.symm.trans (Result.index_eq_ok.mp hindex)
      obtain ⟨_, -, h⟩ := Result.bind_eq_ok.mp h
      rw [if_neg (Nat.not_lt.mpr hsimple)] at h
      obtain ⟨first, -, h⟩ := Result.bind_eq_ok.mp h
      obtain ⟨offset, -, h⟩ := Result.bind_eq_ok.mp h
      obtain ⟨crc, -, h⟩ := Result.bind_eq_ok.mp h
      obtain ⟨_, -, h⟩ := Result.bind_eq_ok.mp h
      obtain ⟨packSize, -, h⟩ := Result.bind_eq_ok.mp h
      obtain ⟨decoder, hchain, h⟩ := Result.bind_eq_ok.mp h
      obtain ⟨check, -, h⟩ := Result.bind_eq_ok.mp h
      cases Result.pure_eq_ok.mp h
      exact ⟨offset, packSize.toNat, addChain_eq_stackOf hchain⟩
  | @header opts bounds archive header rest rest' _ unpackSize hinfo hblock h =>
      obtain ⟨archive', s₁, hinfo', h⟩ := bind_eq_ok.mp h
      cases hinfo.symm.trans hinfo'
      obtain ⟨_, -, h⟩ := lift_bind_eq_ok.mp h
      obtain ⟨block', hblock', h⟩ := lift_bind_eq_ok.mp h
      cases hblock.symm.trans (Result.okOr_eq_ok.mp hblock')
      obtain ⟨offset, -, h⟩ := lift_bind_eq_ok.mp h
      obtain ⟨_, -, h⟩ := lift_bind_eq_ok.mp h
      obtain ⟨declared, -, h⟩ := lift_bind_eq_ok.mp h
      obtain ⟨_, -, h⟩ := lift_bind_eq_ok.mp h
      obtain ⟨packSize, -, h⟩ := lift_bind_eq_ok.mp h
      obtain ⟨decoder, hchain, h⟩ := lift_bind_eq_ok.mp h
      cases pure_eq_ok.mp h
      exact ⟨offset, packSize.toNat, addChain_eq_stackOf hchain⟩

namespace Chain

def output : Chain → List UInt8
  | sink received => received.flatten
  | layer _ _ _ inner => inner.output

def sizes : Chain → List Nat
  | sink _ => []
  | layer _ received _ inner => received.flatten.length :: inner.sizes

/-- The unpack sizes a writer records: the counts in the chain and the size of the data. -/
def recordedSizes (chain : Chain) : List UInt64 :=
  (chain.moreSizes ++ [chain.received.flatten.length]).map UInt64.ofNat

theorem Finished.recordedSizes_eq {env : Encoders} {encoder : Encoder}
    {received : List (List UInt8)} {counted : Nat} {inner : Chain}
    (h : (layer encoder received counted inner).Finished env) :
    (layer encoder received counted inner).recordedSizes =
      ((layer encoder received counted inner).sizes.map UInt64.ofNat).reverse := by
  have hmore : ∀ {chain : Chain} {encoder : Encoder} {received : List (List UInt8)} {counted : Nat},
      (layer encoder received counted chain).Finished env →
        (layer encoder received counted chain).moreSizes = chain.sizes.reverse := by
    intro chain
    induction chain with
    | sink received =>
        intro _ _ _ _
        simp [moreSizes, sizes]
    | layer encoder received counted inner ih =>
        intro _ _ _ h
        rw [moreSizes, ih h.2.2.2, sizes, List.reverse_cons, h.2.2.1]
        rfl
  rw [recordedSizes, hmore h, sizes, ← List.map_reverse, List.reverse_cons]
  rfl

end Chain

/-- The bytes a layer encoded: what it received, and for AES the zeros it padded that with. -/
def Encoder.encoded (received : List UInt8) : Encoder → List UInt8
  | .aes _ state => state.blocks.flatten
  | _ => received

def Encoder.Aligned (received : List UInt8) (encoder : Encoder) : Prop :=
  encoder.kind = .aes → 16 ∣ received.length

theorem dvd_length_flatten {k : Nat} {pieces : List (List UInt8)}
    (h : ∀ piece ∈ pieces, piece.length = k) : k ∣ pieces.flatten.length := by
  induction pieces with
  | nil => simp
  | cons piece pieces ih =>
      rw [List.flatten_cons, List.length_append, h piece (by simp)]
      exact Nat.dvd_add_self_left.mpr (ih fun p hp => h p (List.mem_cons_of_mem _ hp))

theorem Encoder.Complete.encoded_eq {env : Encoders} {received below : List (List UInt8)}
    {encoder : Encoder} (h : encoder.Complete env received below) :
    ∃ n, encoder.encoded received.flatten = received.flatten ++ List.replicate n 0 ∧
      (n = 0 ↔ encoder.Aligned received.flatten) := by
  cases encoder with
  | aes options state =>
      obtain ⟨n, hn, hdata⟩ := h.data
      have hfull := dvd_length_flatten h.full
      rw [hdata, List.length_append, List.length_replicate] at hfull
      refine ⟨n, hdata, fun hzero _ => ?_, fun haligned => ?_⟩
      · rwa [hzero] at hfull
      · have := haligned rfl
        omega
  | copy | delta | bcj | compressor | brotli | brotliFramed =>
      exact ⟨0, by simp [encoded], iff_of_true rfl fun hkind => by cases hkind⟩

namespace Chain

/-- The coders over a finished chain's encoders give back what these encoded; `methods` lists
the outermost first. -/
def Lossless (versions : CodecVersions) (decoders : StreamDecoders) :
    Chain → List EncoderConfiguration → Prop
  | sink _, _ => True
  | layer _ _ _ _, [] => False
  | layer encoder received _ inner, mc :: methods =>
      decoders.decode (mc.coder versions) (UInt64.ofNat received.flatten.length)
          inner.received.flatten = encoder.encoded received.flatten ∧
        inner.Lossless versions decoders methods

/-- Every AES layer received whole blocks. -/
def Aligned : Chain → Prop
  | sink _ => True
  | layer encoder received _ inner => encoder.Aligned received.flatten ∧ inner.Aligned

/-- Every AES layer but an outermost one received whole blocks. -/
def AlignedBelow : Chain → Prop
  | sink _ => True
  | layer _ _ _ inner => inner.Aligned

def AlignedTop : Chain → Prop
  | sink _ => True
  | layer encoder received _ _ => encoder.Aligned received.flatten

theorem aligned_iff {chain : Chain} :
    chain.Aligned ↔ chain.AlignedTop ∧ chain.AlignedBelow := by
  cases chain with
  | sink received => exact (and_self_iff).symm
  | layer encoder received counted inner => rfl

def StagesOf (versions : CodecVersions) (chain : Chain) (methods : List EncoderConfiguration)
    (stages : List Stage) : Prop :=
  stages.map (fun stage => (stage.coder, stage.uncompressedLen)) =
    (methods.zip chain.sizes).map fun entry => (entry.1.coder versions, UInt64.ofNat entry.2)

/-- The decoders of a finished chain restore what its outermost layer received, up to the zeros
of that layer, exactly as long as no layer below it had to pad. -/
theorem Finished.stackOf_spec {env : Encoders} {versions : CodecVersions}
    {decoders : StreamDecoders} {file : List UInt8} {start size : Nat} {chain : Chain}
    {methods : List EncoderConfiguration} {stages : List Stage} (h : chain.Finished env)
    (hlossless : chain.Lossless versions decoders methods)
    (hwidth : ∀ n ∈ chain.sizes, n < 2 ^ 64)
    (hstages : chain.StagesOf versions methods stages)
    (hlength : methods.length = chain.sizes.length)
    (hsource : (file.drop start).take size = chain.output) :
    ((stackOf stages (.pack 0 start size)).SeesRecorded decoders file ↔ chain.AlignedBelow) ∧
      (chain.AlignedBelow → ∃ n, (stackOf stages (.pack 0 start size)).delivers decoders file =
          chain.received.flatten ++ List.replicate n 0 ∧ (n = 0 ↔ chain.AlignedTop)) := by
  induction chain generalizing methods stages with
  | sink received =>
      obtain rfl := List.eq_nil_of_length_eq_zero hlength
      obtain rfl := List.map_eq_nil_iff.mp hstages
      refine ⟨Iff.rfl, fun _ => ⟨0, ?_, iff_of_true rfl trivial⟩⟩
      rw [List.replicate_zero, List.append_nil]
      exact hsource
  | layer encoder received counted inner ih =>
      cases methods with
      | nil => cases hlossless
      | cons mc methods =>
          cases stages with
          | nil => cases hstages
          | cons stage stages =>
              obtain ⟨hhead, htail⟩ := List.cons.inj hstages
              obtain ⟨hcoder, hlen⟩ := Prod.mk.inj hhead
              obtain ⟨hdecode, hbelow⟩ := hlossless
              obtain ⟨hsees, hdelivers⟩ := ih h.2.2.2 hbelow
                (fun n hn => hwidth n (List.mem_cons_of_mem _ hn)) htail (Nat.succ.inj hlength)
                hsource
              -- The decoder below fits its size exactly if no zeros come after the data.
              have hfits : inner.AlignedBelow →
                  ((stackOf stages (.pack 0 start size)).delivers decoders file =
                      (stackOf stages (.pack 0 start size)).recorded decoders file ↔
                    inner.AlignedTop) := by
                intro halignedBelow
                obtain ⟨n, hbytes, hzero⟩ := hdelivers halignedBelow
                cases inner with
                | sink pieces =>
                    obtain rfl := List.map_eq_nil_iff.mp (show List.map _ stages = [] from
                      htail.trans (by simp [sizes]))
                    exact iff_of_true rfl trivial
                | layer encoder' received' counted' inner' =>
                    cases methods with
                    | nil => cases hlength
                    | cons mc' methods =>
                        cases stages with
                        | nil => cases htail
                        | cons stage' stages =>
                            obtain ⟨hhead', -⟩ := List.cons.inj htail
                            obtain ⟨-, hlen'⟩ := Prod.mk.inj hhead'
                            have hlt := hwidth received'.flatten.length (by simp [sizes])
                            change _ = List.take stage'.uncompressedLen.toNat _ ↔ _
                            rw [← hzero, eq_comm, List.take_eq_self_iff, hbytes, hlen',
                              UInt64.toNat_ofNat_of_lt' hlt, List.length_append,
                              List.length_replicate]
                            simp only [Chain.received]
                            omega
              refine ⟨?_, fun haligned => ?_⟩
              · rw [stackOf, Decoder.SeesRecorded, hsees, AlignedBelow, aligned_iff]
                exact ⟨fun hboth => ⟨(hfits hboth.2).mp hboth.1, hboth.2⟩,
                  fun hboth => ⟨(hfits hboth.2).mpr hboth.1, hboth.2⟩⟩
              · obtain ⟨htop, hrest⟩ := aligned_iff.mp haligned
                obtain ⟨n, hbytes, hzero⟩ := hdelivers hrest
                obtain ⟨m, hencoded, hpadded⟩ := h.2.1.encoded_eq
                refine ⟨m, ?_, hpadded⟩
                rw [stackOf, Decoder.delivers, hbytes, hzero.mpr htop, List.replicate_zero,
                  List.append_nil, hcoder, hlen]
                exact hdecode.trans hencoded

end Chain

theorem packed_stackOf {file : List UInt8} (stages : List Stage) (source : Decoder) :
    (stackOf stages source).packed file = source.packed file := by
  induction stages with
  | nil => rfl
  | cons stage stages ih => exact ih

/-- The chain a caller is left with who writes data through the chain of `create_writer` and
then ends it with the empty write. -/
def Written (env : Encoders) (methods : List EncoderConfiguration) (ended : Chain) : Prop :=
  ∃ chain made written taken, createWriter env methods = .ok chain ∧
    (∀ buf, EncoderCall.write buf ∈ made → buf ≠ []) ∧ chain.calls env made = .ok written ∧
    written.write env [] = .ok (taken, ended)

theorem Written.finished {env : Encoders} {methods : List EncoderConfiguration} {ended : Chain}
    (h : Written env methods ended) (hbrotli : ∀ mc ∈ methods, mc.method ≠ .brotli) :
    ended.Finished env ∧ ended.kinds = methods.reverse.map fun mc => mc.method.kind := by
  obtain ⟨chain, made, written, taken, hchain, hdata, hcalls, hwrite⟩ := h
  obtain ⟨hopen, hkinds⟩ := addEncoders_open hchain (List.forall_mem_nil _) rfl
  have hat : Chain.OpenAt env chain.depth chain.kinds chain := ⟨rfl, hopen, rfl⟩
  obtain ⟨written', hcalls', hwritten⟩ := Chain.calls_open hdata hat
  cases hcalls.symm.trans hcalls'
  obtain ⟨ended', hend, hfinished, hkinds', -⟩ := Chain.writer_end env hwritten
  rw [Chain.write, hwritten.depth, hend] at hwrite
  cases hwrite
  have hreversed : ended.kinds = methods.reverse.map fun mc => mc.method.kind := by
    rw [hkinds', hkinds, List.map_reverse]
    exact List.append_nil _
  refine ⟨hfinished.mpr ?_, hreversed⟩
  rw [← hkinds', hreversed]
  simpa [EncoderMethod.kind_eq_brotli] using hbrotli

/-- The size recorded for an AES coder that has another above it is a multiple of 16. -/
def AesAligned (methods : List EncoderConfiguration) (sizes : List UInt64) : Prop :=
  ∀ entry ∈ (methods.zip sizes).dropLast,
    entry.1.method = .aes256Sha256 → 16 ∣ entry.2.toNat

namespace Chain

theorem sizes_length (chain : Chain) : chain.sizes.length = chain.kinds.length := by
  induction chain with
  | sink received => rfl
  | layer encoder received counted inner ih => simp [sizes, kinds_layer, ih]

theorem aligned_iff_zip {chain : Chain} {methods : List EncoderConfiguration}
    (hkinds : chain.kinds = methods.map fun mc => mc.method.kind)
    (hwidth : ∀ n ∈ chain.sizes, n < 2 ^ 64) :
    chain.Aligned ↔ ∀ entry ∈ methods.zip (chain.sizes.map UInt64.ofNat),
      entry.1.method = .aes256Sha256 → 16 ∣ entry.2.toNat := by
  induction chain generalizing methods with
  | sink received => simp [Aligned, sizes]
  | layer encoder received counted inner ih =>
      cases methods with
      | nil => cases hkinds
      | cons mc methods =>
          obtain ⟨hhead, htail⟩ := List.cons.inj hkinds
          have hlt := hwidth received.flatten.length (by simp [sizes])
          rw [Aligned, ih htail fun n hn => hwidth n (List.mem_cons_of_mem _ hn), sizes,
            List.map_cons, List.zip_cons_cons, List.forall_mem_cons, Encoder.Aligned, hhead,
            EncoderMethod.kind_eq_aes, UInt64.toNat_ofNat_of_lt' hlt]

theorem Finished.alignedBelow_iff {env : Encoders} {chain : Chain}
    {methods : List EncoderConfiguration} (h : chain.Finished env)
    (hkinds : chain.kinds = methods.reverse.map fun mc => mc.method.kind)
    (hwidth : ∀ n ∈ chain.sizes, n < 2 ^ 64) :
    chain.AlignedBelow ↔ AesAligned methods chain.recordedSizes := by
  cases chain with
  | sink received =>
      obtain rfl : methods = [] := by simpa [kinds, encoders] using hkinds
      simp [AlignedBelow, AesAligned]
  | layer encoder received counted inner =>
      cases hreverse : methods.reverse with
      | nil =>
          rw [hreverse] at hkinds
          cases hkinds
      | cons mc above =>
          rw [hreverse] at hkinds
          have htail := (List.cons.inj hkinds).2
          have hlength : inner.sizes.length = above.length := by
            simpa [kinds] using (sizes_length inner).trans (congrArg List.length htail)
          -- The record lists the innermost first, the chain the outermost.
          have hzip : methods.zip (layer encoder received counted inner).recordedSizes =
              (List.zip (mc :: above)
                ((received.flatten.length :: inner.sizes).map UInt64.ofNat)).reverse := by
            rw [h.recordedSizes_eq, List.reverse_eq_iff.mp hreverse]
            exact (List.reverse_zipWith (by simp [sizes, hlength])).symm
          rw [AlignedBelow, aligned_iff_zip htail fun n hn => hwidth n (List.mem_cons_of_mem _ hn),
            AesAligned, hzip, List.dropLast_reverse, List.map_cons, List.zip_cons_cons,
            List.tail_cons]
          simp only [List.mem_reverse]

end Chain

/-- The block is the chain of these coders, whatever its checksum and its sub-streams. -/
structure Block.Records (versions : CodecVersions) (methods : List EncoderConfiguration)
    (sizes : List UInt64) (block : Block) : Prop where
  coders : block.coders = methods.map (EncoderConfiguration.coder versions)
  bindPairs : block.bindPairs = (Block.chain block.coders sizes).bindPairs
  packedStreams : block.packedStreams = [0]
  totalInputStreams : block.totalInputStreams = methods.length
  totalOutputStreams : block.totalOutputStreams = methods.length
  unpackSizes : block.unpackSizes = sizes

theorem orderedCoders_congr {block block' : Block} (hcoders : block'.coders = block.coders)
    (hpairs : block'.bindPairs = block.bindPairs) (remaining : Nat) (i : Option Nat) :
    orderedCoders block' remaining i = orderedCoders block remaining i := by
  induction remaining generalizing i with
  | zero => cases i <;> rfl
  | succ remaining ih =>
      cases i with
      | none => rfl
      | some i => simp only [orderedCoders, Block.findBindPairForOutStream, hcoders, hpairs, ih]

theorem Block.Records.stages {versions : CodecVersions} {methods : List EncoderConfiguration}
    {sizes : List UInt64} {block : Block} (h : block.Records versions methods sizes)
    (hlength : methods.length = sizes.length) :
    (block.orderedCoderIter.map block.stage).map
        (fun stage => (stage.coder, stage.uncompressedLen)) =
      (methods.map (EncoderConfiguration.coder versions)).zip sizes := by
  have hchain : block.orderedCoderIter = (Block.chain block.coders sizes).orderedCoderIter := by
    rw [Block.orderedCoderIter, h.packedStreams]
    exact @orderedCoders_congr (Block.chain block.coders sizes) block rfl h.bindPairs _ _
  rw [hchain, Block.orderedCoderIter_chain, h.coders]
  apply List.ext_getElem
  · simp [hlength]
  · intro i hi hi'
    have hlt : i < sizes.length := by
      simp at hi'
      omega
    simp [Block.stage, Block.getUnpackSizeAtIndex, h.unpackSizes, List.getD_eq_getElem?_getD, hlt]

/-- The coders above one another see what is recorded, and the block gives back the content. -/
def Restores (decoders : StreamDecoders) (file content : List UInt8) (decoder : Decoder) : Prop :=
  decoder.SeesRecorded decoders file ∧ decoder.recorded decoders file = content

theorem Chain.Finished.restores_iff_aesAligned {env : Encoders} {versions : CodecVersions}
    {decoders : StreamDecoders} {file : List UInt8} {chain : Chain}
    {methods : List EncoderConfiguration} {block : Block} {start size : Nat}
    (h : chain.Finished env)
    (hkinds : chain.kinds = methods.reverse.map fun mc => mc.method.kind)
    (hlossless : chain.Lossless versions decoders methods.reverse)
    (hwidth : ∀ n ∈ chain.sizes, n < 2 ^ 64)
    (hblock : block.Records versions methods chain.recordedSizes)
    (hsource : (file.drop start).take size = chain.output) :
    Restores decoders file chain.received.flatten
        (stackOf (block.orderedCoderIter.map block.stage).reverse (.pack 0 start size)) ↔
      AesAligned methods chain.recordedSizes := by
  rw [← h.alignedBelow_iff hkinds hwidth]
  cases chain with
  | sink received =>
      obtain rfl : methods = [] := by simpa [kinds, encoders] using hkinds
      have hnone : block.orderedCoderIter = [] := by
        simp [Block.orderedCoderIter, hblock.coders, orderedCoders]
      rw [hnone]
      exact iff_of_true ⟨trivial, hsource⟩ trivial
  | layer encoder received counted inner =>
      have hlength : methods.length = (layer encoder received counted inner).sizes.length := by
        simpa using ((sizes_length (layer encoder received counted inner)).trans
          (congrArg List.length hkinds)).symm
      have hstages := hblock.stages (by simpa [h.recordedSizes_eq] using hlength)
      have hof : (layer encoder received counted inner).StagesOf versions methods.reverse
          (block.orderedCoderIter.map block.stage).reverse := by
        rw [StagesOf, List.map_reverse, hstages, h.recordedSizes_eq, List.zip,
          List.reverse_zipWith (by simpa using hlength), ← List.map_reverse,
          List.reverse_reverse, ← List.zip, List.zip_map]
        rfl
      obtain ⟨hsees, hdelivers⟩ :=
        h.stackOf_spec hlossless hwidth hof (by simpa using hlength) hsource
      rw [Restores, hsees, and_iff_left_iff_imp]
      intro haligned
      obtain ⟨n, hbytes, -⟩ := hdelivers haligned
      generalize (block.orderedCoderIter.map block.stage).reverse = stages at hof hbytes
      cases hreverse : methods.reverse with
      | nil =>
          rw [hreverse] at hkinds
          cases hkinds
      | cons mc above =>
          rw [hreverse] at hof
          cases stages with
          | nil => cases hof
          | cons stage stages =>
              have hlen := (Prod.mk.inj (List.cons.inj hof).1).2
              change List.take stage.uncompressedLen.toNat _ = _
              rw [hbytes, hlen, UInt64.toNat_ofNat_of_lt' (hwidth _ (by simp [sizes]))]
              exact List.take_left

/-- Every coder sees what is recorded of the one below exactly if every decoder with a coder
above it fits its unpack size; on a block that holds a chain of the writer, run to its end, that is
so and the content comes back exactly if no AES layer below another had to pad. -/
theorem BuiltFor.restores_iff {codecs : Codecs} {block : Block} {stack : DecodeStack}
    (h : BuiltFor codecs block stack) (decoders : StreamDecoders) (file : List UInt8) :
    (stack.decoder.SeesRecorded decoders file ↔ stack.decoder.KeepsSizes decoders file) ∧
      ∀ (env : Encoders) (versions : CodecVersions) (methods : List EncoderConfiguration)
        (ended : Chain), Written env methods ended → (∀ mc ∈ methods, mc.method ≠ .brotli) →
        ended.Lossless versions decoders methods.reverse → (∀ n ∈ ended.sizes, n < 2 ^ 64) →
        block.Records versions methods ended.recordedSizes →
        stack.decoder.packed file = ended.output →
        (Restores decoders file ended.received.flatten stack.decoder ↔
          AesAligned methods ended.recordedSizes) := by
  refine ⟨Decoder.seesRecorded_iff, ?_⟩
  intro env versions methods ended hwritten hbrotli hlossless hwidth hblock hsource
  obtain ⟨hfinished, hkinds⟩ := hwritten.finished hbrotli
  obtain ⟨start, size, hdecoder⟩ :=
    h.decoder_eq (by rw [hblock.totalInputStreams, hblock.totalOutputStreams])
  rw [hdecoder, packed_stackOf] at hsource
  rw [hdecoder]
  exact hfinished.restores_iff_aesAligned hkinds hlossless hwidth hblock hsource

def paddedMethods : List EncoderConfiguration :=
  [aesMethod, { method := .copy }]

def paddedPlain : List UInt8 := [1, 2, 3, 0, 0, 0, 0, 0, 0, 0, 0, 0, 0, 0, 0, 0]

def paddedCipher : List UInt8 :=
  [120, 28, 36, 45, 41, 30, 223, 154, 251, 217, 196, 129, 98, 22, 243, 170]

def paddedEncoders : Encoders :=
  { storingEncoders with
    cipher := fun _ =>
      { encrypt := fun _ block => if block = paddedPlain then paddedCipher else block
        length_encrypt := by
          intro _ block
          split
          · rename_i h
            rw [h]
            rfl
          · rfl } }

def paddedDecoders : StreamDecoders where
  decode coder _ input :=
    if coder.encoderMethodId = idLzma then []
    else if coder.encoderMethodId = idAes256Sha256 ∧ input = paddedCipher then paddedPlain
    else input
  bcj2 _ _ _ _ _ := []
  length_lzma_le _ _ _ h := by simp [h]
  length_bcj2_le := by simp

def paddedChain : Chain :=
  .layer .copy [[1, 2, 3], []] 3
    (.layer (.aes letterAesOptions
        { blocks := [paddedPlain], finished := true, writeSize := 16, short := AesState.short_nil })
      [[1, 2, 3], []] 16 (.sink [paddedCipher, []]))

def paddedBlock : Block :=
  Block.chain (paddedMethods.map (EncoderConfiguration.coder ⟨0, 0, 0⟩)) [3, 3]

def paddedArchive : Archive :=
  { packSizes := [16], blocks := [paddedBlock]
    streamMap := { blockFirstPackStreamIndex := [0], packStreamOffsets := [0]
                   blockFirstFileIndex := [0] } }

def paddedFile : List UInt8 := List.replicate 32 0 ++ paddedCipher

def paddedStack : DecodeStack :=
  { decoder := stackOf (paddedBlock.orderedCoderIter.map paddedBlock.stage).reverse (.pack 0 32 16)
    check := none, packSize := 16 }

theorem paddedStack_built :
    buildDecodeStack { Codecs.copying paddedFile with refuses := fun _ _ => none } {}
      paddedArchive 0 = .ok paddedStack := by
  decide +kernel

theorem paddedChain_written : Written paddedEncoders paddedMethods paddedChain :=
  ⟨.layer .copy [] 0 (.layer (.aes letterAesOptions {}) [] 0 (.sink [])), [.write [1, 2, 3]],
    .layer .copy [[1, 2, 3]] 3 (.layer (.aes letterAesOptions { buffer := [1, 2, 3] })
      [[1, 2, 3]] 0 (.sink [])), 0, rfl, by simp, rfl, rfl⟩

theorem paddedChain_recordedSizes : paddedChain.recordedSizes = [3, 3] := by
  simp [paddedChain, Chain.recordedSizes, Chain.moreSizes, Chain.received]

theorem paddedStack_restores_iff :
    Restores paddedDecoders paddedFile paddedChain.received.flatten paddedStack.decoder ↔
      AesAligned paddedMethods paddedChain.recordedSizes :=
  (BuiltFor.restores_iff (.block rfl paddedStack_built) paddedDecoders paddedFile).2 paddedEncoders
    ⟨0, 0, 0⟩ paddedMethods paddedChain paddedChain_written (by decide)
    ⟨rfl, rfl, trivial⟩ (by decide) ⟨rfl, rfl, rfl, rfl, rfl, paddedChain_recordedSizes.symm⟩ rfl

/-- `COPY` over AES reads the zeros that fill the block up after three bytes. -/
theorem paddedStack_seesZeros :
    ∃ stack, buildDecodeStack { Codecs.copying paddedFile with refuses := fun _ _ => none } {}
        paddedArchive 0 = .ok stack ∧ Written paddedEncoders paddedMethods paddedChain ∧
      paddedChain.received.flatten = [1, 2, 3] ∧
      ¬ stack.decoder.SeesRecorded paddedDecoders paddedFile := by
  refine ⟨paddedStack, paddedStack_built, paddedChain_written, rfl, ?_⟩
  rw [Decoder.seesRecorded_iff]
  intro h
  exact absurd (h.1 (by decide)) (by decide +kernel)

end Sevenz
