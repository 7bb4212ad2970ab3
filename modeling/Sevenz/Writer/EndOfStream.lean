import Sevenz.Writer.Encoder

/-!
# The end of the stream

The empty write that ends a stream goes down a chain: each encoder finishes itself on it and
passes it on.  While a chain is open every layer has passed on what it does not hold back; at
the end it has passed on everything, and then the empty write.  A Brotli encoder takes the
empty write for one of no data.
-/

namespace Sevenz

open Lib

namespace Compressor

/-- The bytes written in answer to `calls`, after the calls `before`. -/
def outputFrom (compressor : Compressor) :
    List EncoderCall → List EncoderCall → List UInt8
  | _, [] => []
  | before, .write buf :: calls =>
      callBytes (compressor.write before buf).1 ++
        outputFrom compressor (before ++ [.write buf]) calls
  | before, .flush :: calls =>
      callBytes (compressor.flush before) ++ outputFrom compressor (before ++ [.flush]) calls

def takenFrom (compressor : Compressor) :
    List EncoderCall → List EncoderCall → List (List UInt8)
  | _, [] => []
  | before, .write buf :: calls =>
      buf.take (compressor.write before buf).2 ::
        takenFrom compressor (before ++ [.write buf]) calls
  | before, .flush :: calls => takenFrom compressor (before ++ [.flush]) calls

def output (compressor : Compressor) (calls : List EncoderCall) : List UInt8 :=
  compressor.outputFrom [] calls

def taken (compressor : Compressor) (calls : List EncoderCall) : List (List UInt8) :=
  compressor.takenFrom [] calls

variable (compressor : Compressor)

theorem outputFrom_append (before calls calls' : List EncoderCall) :
    compressor.outputFrom before (calls ++ calls') =
      compressor.outputFrom before calls ++ compressor.outputFrom (before ++ calls) calls' := by
  induction calls generalizing before with
  | nil => simp [outputFrom]
  | cons call calls ih =>
      cases call with
      | write buf => simp [outputFrom, ih]
      | flush => simp [outputFrom, ih]

theorem takenFrom_append (before calls calls' : List EncoderCall) :
    compressor.takenFrom before (calls ++ calls') =
      compressor.takenFrom before calls ++ compressor.takenFrom (before ++ calls) calls' := by
  induction calls generalizing before with
  | nil => simp [takenFrom]
  | cons call calls ih =>
      cases call with
      | write buf => simp [takenFrom, ih]
      | flush => simp [takenFrom, ih]

@[simp] theorem output_nil : compressor.output [] = [] := rfl

@[simp] theorem taken_nil : compressor.taken [] = [] := rfl

@[simp] theorem output_write (calls : List EncoderCall) (buf : List UInt8) :
    compressor.output (calls ++ [.write buf]) =
      compressor.output calls ++ callBytes (compressor.write calls buf).1 := by
  simp [output, outputFrom_append, outputFrom]

@[simp] theorem taken_write (calls : List EncoderCall) (buf : List UInt8) :
    compressor.taken (calls ++ [.write buf]) =
      compressor.taken calls ++ [buf.take (compressor.write calls buf).2] := by
  simp [taken, takenFrom_append, takenFrom]

@[simp] theorem output_flush (calls : List EncoderCall) :
    compressor.output (calls ++ [.flush]) =
      compressor.output calls ++ callBytes (compressor.flush calls) := by
  simp [output, outputFrom_append, outputFrom]

@[simp] theorem taken_flush (calls : List EncoderCall) :
    compressor.taken (calls ++ [.flush]) = compressor.taken calls := by
  simp [taken, takenFrom_append, takenFrom]

end Compressor

def BlockCipher.encryptFrom (cipher : BlockCipher) :
    List (List UInt8) → List (List UInt8) → List UInt8
  | _, [] => []
  | before, block :: blocks =>
      cipher.encrypt before block ++ encryptFrom cipher (before ++ [block]) blocks

def BlockCipher.encryptAll (cipher : BlockCipher) (blocks : List (List UInt8)) : List UInt8 :=
  cipher.encryptFrom [] blocks

theorem BlockCipher.encryptFrom_append (cipher : BlockCipher)
    (before blocks blocks' : List (List UInt8)) :
    cipher.encryptFrom before (blocks ++ blocks') =
      cipher.encryptFrom before blocks ++ cipher.encryptFrom (before ++ blocks) blocks' := by
  induction blocks generalizing before with
  | nil => simp [encryptFrom]
  | cons block blocks ih => simp [encryptFrom, ih]

@[simp] theorem BlockCipher.encryptAll_concat (cipher : BlockCipher)
    (blocks : List (List UInt8)) (block : List UInt8) :
    cipher.encryptAll (blocks ++ [block]) =
      cipher.encryptAll blocks ++ cipher.encrypt blocks block := by
  simp [encryptAll, encryptFrom_append, encryptFrom]

/-- The AES layer has encrypted the full blocks of `data` into `below` and holds the rest. -/
structure AesState.Holds (cipher : BlockCipher) (state : AesState) (data below : List UInt8) :
    Prop where
  data : data = state.blocks.flatten ++ state.buffer
  below : below = cipher.encryptAll state.blocks
  full : ∀ block ∈ state.blocks, block.length = 16

/-- What a layer that received `received` has passed on to the writer below, whose pieces are
`below`. -/
def Encoder.Running (env : Encoders) (received below : List (List UInt8)) : Encoder → Prop
  | .copy => below.flatten = received.flatten
  | .delta _ _ => below.flatten.length = received.flatten.length
  | .bcj _ writer finished =>
      finished = false ∧ below.flatten.length + writer.buffer.length = received.flatten.length
  | .compressor config calls finished =>
      finished = false ∧ received = (env.compressor config).taken calls ∧
        below.flatten = (env.compressor config).output calls
  | .brotli config calls =>
      received = (env.compressor config).taken calls ∧
        below.flatten = (env.compressor config).output calls
  | .brotliFramed _ _ => True
  | .aes options state =>
      state.finished = false ∧ state.Holds (env.cipher options) received.flatten below.flatten

/-- The encoders that end a stream in a way of their own, and the others. -/
inductive EncoderKind where
  | brotli | aes | other
  deriving DecidableEq

def Encoder.kind : Encoder → EncoderKind
  | .brotli _ _ | .brotliFramed _ _ => .brotli
  | .aes _ _ => .aes
  | _ => .other

def EncoderMethod.kind : EncoderMethod → EncoderKind
  | .brotli => .brotli
  | .aes256Sha256 => .aes
  | _ => .other

theorem EncoderMethod.kind_eq_brotli {method : EncoderMethod} :
    method.kind = .brotli ↔ method = .brotli := by
  cases method <;> simp [kind]

theorem EncoderMethod.kind_eq_aes {method : EncoderMethod} :
    method.kind = .aes ↔ method = .aes256Sha256 := by
  cases method <;> simp [kind]

namespace Chain

def Open (env : Encoders) : Chain → Prop
  | sink received => ∀ piece ∈ received, piece ≠ []
  | layer encoder received counted inner =>
      (∀ piece ∈ received, piece ≠ []) ∧ encoder.Running env received inner.received ∧
        counted = inner.received.flatten.length ∧ inner.Open env

def kinds (chain : Chain) : List EncoderKind := chain.encoders.map Encoder.kind

end Chain

section

variable {σ : Type} {env : Encoders} {w : ByteSink Fault σ} {isOpen : σ → Prop}
  {below : σ → List (List UInt8)}

theorem AesState.writeBlock_holds (hw : w.Delivers isOpen below) {cipher : BlockCipher}
    {block : List UInt8} (hfull : block.length = 16) {state : AesState} {s : σ}
    {data : List UInt8} (hopen : isOpen s)
    (hblocks : ∀ block ∈ state.blocks, block.length = 16)
    (hdata : data = state.blocks.flatten ++ block)
    (hbelow : (below s).flatten = cipher.encryptAll state.blocks) :
    ∃ state' s', state.writeBlock w cipher block s = .ok (state', s') ∧ isOpen s' ∧
      state'.finished = state.finished ∧ state'.buffer = state.buffer ∧
      state'.blocks.flatten = data ∧ (∀ block ∈ state'.blocks, block.length = 16) ∧
      (below s').flatten = cipher.encryptAll state'.blocks := by
  obtain ⟨s', hwrite, hopen', hadds⟩ := hw.writeAll writeZero (cipher.encrypt state.blocks block)
    hopen
  refine ⟨{ state with blocks := state.blocks ++ [block], writeSize := state.writeSize + 16 }, s',
    by simp only [writeBlock, hwrite], hopen', rfl, rfl, ?_, ?_, ?_⟩
  · simp [hdata]
  · intro other hother
    cases List.mem_append.mp hother with
    | inl h => exact hblocks other h
    | inr h => rw [List.mem_singleton.mp h, hfull]
  · rw [hadds.flatten_eq, hbelow, BlockCipher.encryptAll_concat]

theorem AesState.writeChunks_holds (hw : w.Delivers isOpen below) {cipher : BlockCipher}
    {rounds : Nat} {buf : List UInt8} (hrounds : buf.length < rounds) {state : AesState} {s : σ}
    {data : List UInt8} (hopen : isOpen s) (hempty : state.buffer = [])
    (h : state.Holds cipher data (below s).flatten) :
    ∃ state' s', state.writeChunks w cipher rounds buf s = .ok (state', s') ∧ isOpen s' ∧
      state'.finished = state.finished ∧
      state'.Holds cipher (data ++ buf) (below s').flatten := by
  induction rounds generalizing buf state s data with
  | zero => exact absurd hrounds (Nat.not_lt_zero _)
  | succ rounds ih =>
      have hblocks : data = state.blocks.flatten := by rw [h.data, hempty, List.append_nil]
      by_cases hshort : buf.length < 16
      · refine ⟨{ state with buffer := buf, short := hshort }, s,
          by rw [writeChunks, dif_pos hshort], hopen, rfl, ?_, h.below, h.full⟩
        rw [hblocks]
      · have hfull : (buf.take 16).length = 16 := by
          rw [List.length_take]
          omega
        obtain ⟨state₁, s₁, hwrite, hopen₁, hfinished₁, hbuffer₁, hdata₁, hfull₁, hbelow₁⟩ :=
          state.writeBlock_holds hw hfull hopen h.full rfl h.below
        have hholds₁ : state₁.Holds cipher (data ++ buf.take 16) (below s₁).flatten :=
          ⟨by rw [hbuffer₁, hempty, List.append_nil, hdata₁, hblocks], hbelow₁, hfull₁⟩
        have hdrop : (buf.drop 16).length < rounds := by
          rw [List.length_drop]
          omega
        obtain ⟨state', s', hloop, hopen', hfinished', hholds'⟩ :=
          ih hdrop hopen₁ (hbuffer₁.trans hempty) hholds₁
        refine ⟨state', s', ?_, hopen', hfinished'.trans hfinished₁, ?_⟩
        · rw [writeChunks, dif_neg hshort, hwrite]
          exact hloop
        · rwa [List.append_assoc, List.take_append_drop] at hholds'

theorem AesState.write_holds (hw : w.Delivers isOpen below) {cipher : BlockCipher}
    {buf : List UInt8} (hne : buf ≠ []) {state : AesState} {s : σ} {data : List UInt8}
    (hopen : isOpen s) (hfinished : state.finished = false)
    (h : state.Holds cipher data (below s).flatten) :
    ∃ state' s', state.write w cipher buf s = .ok (buf.length, state', s') ∧ isOpen s' ∧
      state'.finished = false ∧ state'.Holds cipher (data ++ buf) (below s').flatten := by
  have hrunning : ¬ (state.finished && !buf.isEmpty) = true := by simp [hfinished]
  have hnonempty : ¬ buf.isEmpty = true := by simpa using hne
  unfold write
  rw [if_neg hrunning, if_neg hnonempty]
  by_cases hbuffer : state.buffer.isEmpty = true
  · rw [if_pos hbuffer]
    obtain ⟨state', s', hloop, hopen', hfinished', hholds'⟩ := state.writeChunks_holds hw
      (Nat.lt_succ_self buf.length) hopen (List.isEmpty_iff.mp hbuffer) h
    exact ⟨state', s', by rw [hloop]; rfl, hopen', hfinished'.trans hfinished, hholds'⟩
  · rw [if_neg hbuffer]
    by_cases hshort : buf.length + state.buffer.length < 16
    · have hshort' : (state.buffer ++ buf).length < 16 := by
        rw [List.length_append]
        omega
      refine ⟨{ state with buffer := state.buffer ++ buf, short := hshort' }, s,
        by rw [dif_pos hshort], hopen, hfinished, ?_, h.below, h.full⟩
      rw [h.data, List.append_assoc]
    · rw [dif_neg hshort]
      dsimp only
      have hroom := state.short
      have hfull : (state.buffer ++ buf.take (16 - state.buffer.length)).length = 16 := by
        rw [List.length_append, List.length_take]
        omega
      obtain ⟨state₁, s₁, hwrite, hopen₁, hfinished₁, -, hdata₁, hfull₁, hbelow₁⟩ :=
        state.writeBlock_holds hw hfull hopen h.full rfl h.below
      have hholds₁ : AesState.Holds cipher { state₁ with buffer := [], short := by decide }
          (data ++ buf.take (16 - state.buffer.length)) (below s₁).flatten :=
        ⟨by simp [hdata₁, h.data], hbelow₁, hfull₁⟩
      have hdrop : (buf.drop (16 - state.buffer.length)).length < buf.length + 1 := by
        rw [List.length_drop]
        omega
      obtain ⟨state', s', hloop, hopen', hfinished', hholds'⟩ :=
        AesState.writeChunks_holds hw hdrop hopen₁ rfl hholds₁
      refine ⟨state', s', ?_, hopen', hfinished'.trans (hfinished₁.trans hfinished), ?_⟩
      · rw [hwrite]
        simp only [bind, Except.bind, hloop, pure, Except.pure]
      · rwa [List.append_assoc, List.take_append_drop] at hholds'

theorem AesState.flush_running {cipher : BlockCipher} {state : AesState}
    (hfinished : state.finished = false) (s : σ) : state.flush w cipher s = .ok (state, s) := by
  rw [flush, if_pos (by simp [hfinished])]

structure AesState.Complete (cipher : BlockCipher) (state : AesState) (data below : List UInt8) :
    Prop where
  finished : state.finished = true
  buffer : state.buffer = []
  data : ∃ n < 16, state.blocks.flatten = data ++ List.replicate n 0
  below : below = cipher.encryptAll state.blocks
  full : ∀ block ∈ state.blocks, block.length = 16

theorem AesState.flush_complete (hw : w.Delivers isOpen below) {cipher : BlockCipher}
    {state : AesState} {s : σ} {data : List UInt8} (hopen : isOpen s)
    (hfinished : state.finished = true) (h : state.Holds cipher data (below s).flatten) :
    ∃ state' s', state.flush w cipher s = .ok (state', s') ∧ isOpen s' ∧
      state'.Complete cipher data (below s').flatten := by
  unfold flush
  by_cases hbuffer : state.buffer = []
  · refine ⟨state, s, by rw [if_pos (by simp [hbuffer])], hopen, hfinished, hbuffer,
      ⟨0, by decide, ?_⟩, h.below, h.full⟩
    simp [h.data, hbuffer]
  · rw [if_neg (by simp [hbuffer, hfinished])]
    dsimp only
    have hroom := state.short
    have hpos := List.length_pos_of_ne_nil hbuffer
    have hfull : (state.buffer ++ List.replicate (16 - state.buffer.length) (0 : UInt8)).length =
        16 := by
      rw [List.length_append, List.length_replicate]
      omega
    obtain ⟨state₁, s₁, hwrite, hopen₁, hfinished₁, -, hdata₁, hfull₁, hbelow₁⟩ :=
      state.writeBlock_holds hw hfull hopen h.full rfl h.below
    refine ⟨{ state₁ with buffer := [], short := by decide }, s₁, ?_, hopen₁,
      hfinished₁.trans hfinished, rfl, ⟨16 - state.buffer.length, by omega, ?_⟩, hbelow₁, hfull₁⟩
    · rw [hwrite]
      rfl
    · rw [hdata₁, h.data, List.append_assoc]

end

section

variable {σ : Type} {env : Encoders} {w : ByteSink Fault σ} {isOpen : σ → Prop}
  {below : σ → List (List UInt8)}

theorem BrotliFrame.writeLoop_isOk (hw : w.Delivers isOpen below) {compressor : Compressor}
    {rounds : Nat} {buf : List UInt8} (hrounds : buf.length ≤ rounds) {frame : BrotliFrame} {s : σ}
    (hopen : isOpen s) :
    ∃ frame' s', frame.writeLoop w compressor rounds buf s = .ok (frame', s') ∧ isOpen s' := by
  induction rounds generalizing buf frame s with
  | zero =>
      obtain rfl := List.eq_nil_of_length_eq_zero (Nat.le_zero.mp hrounds)
      exact ⟨frame, s, rfl, hopen⟩
  | succ rounds ih =>
      cases buf with
      | nil => exact ⟨frame, s, rfl, hopen⟩
      | cons b buf =>
          have hroom := frame.short
          let chunk := (b :: buf).take (frame.frameSize - frame.uncompressedBytesInFrame)
          have hchunk : chunk ≠ [] := by
            rw [ne_eq, List.take_eq_nil_iff]
            simp
            omega
          have hpos := compressor.write_pos frame.calls chunk hchunk
          have hshort : ((b :: buf).drop (compressor.write frame.calls chunk).2).length ≤
              rounds := by
            rw [List.length_drop]
            omega
          rw [writeLoop]
          dsimp only
          rw [if_neg (Nat.ne_of_gt hpos)]
          split
          · exact ih hshort hopen
          · obtain ⟨s₁, hperform, hopen₁, -⟩ := hw.perform writeZero _ hopen
            rw [hperform]
            exact ih hshort hopen₁

theorem BrotliFrame.flush_isOk (hw : w.Delivers isOpen below) (compressor : Compressor)
    (frame : BrotliFrame) {s : σ} (hopen : isOpen s) :
    ∃ frame' s', frame.flush w compressor s = .ok (frame', s') ∧ isOpen s' := by
  obtain ⟨s₁, hperform, hopen₁, -⟩ := hw.perform writeZero
    (brotliFrameCalls (frame.close compressor) frame.uncompressedBytesInFrame) hopen
  obtain ⟨s₂, hflush, hopen₂, -⟩ := hw.flush s₁ hopen₁
  unfold flush
  simp only [bind, Except.bind, hperform, hflush]
  split
  · exact ⟨_, s₂, rfl, hopen₂⟩
  · exact ⟨_, s₂, rfl, hopen₂⟩

theorem Encoder.write_running (hw : w.Delivers isOpen below) {buf : List UInt8} (hne : buf ≠ [])
    {encoder : Encoder} {received : List (List UInt8)} {s : σ} (hopen : isOpen s)
    (h : encoder.Running env received (below s)) :
    ∃ taken encoder' s', encoder.write env w buf s = .ok (taken, encoder', s') ∧
      0 < taken ∧ taken ≤ buf.length ∧ isOpen s' ∧
      encoder'.Running env (received ++ [buf.take taken]) (below s') ∧
      encoder'.kind = encoder.kind := by
  have hnonempty : ¬ buf.isEmpty = true := by simpa using hne
  have hlength : 0 < buf.length := List.length_pos_of_ne_nil hne
  cases encoder with
  | copy =>
      obtain ⟨taken, s', hwrite, hpos, hle, hopen', hbelow⟩ := hw.write s buf hopen hne
      refine ⟨taken, .copy, s', by rw [write, hwrite]; rfl, hpos, hle, hopen', ?_, rfl⟩
      change (below s').flatten = _
      simp [hbelow, show (below s).flatten = received.flatten from h]
  | delta distance seen =>
      have hencoded : deltaEncode distance seen buf ≠ [] := by
        rw [← List.length_pos_iff_ne_nil, deltaEncode_length]
        exact hlength
      obtain ⟨taken, s', hwrite, hpos, hle, hopen', hbelow⟩ := hw.write s _ hopen hencoded
      rw [deltaEncode_length] at hle
      refine ⟨taken, .delta distance (seen ++ buf), s', by rw [write, hwrite]; rfl, hpos, hle,
        hopen', ?_, rfl⟩
      have hrunning : (below s).flatten.length = received.flatten.length := h
      change (below s').flatten.length = _
      simp only [hbelow, List.flatten_append, List.length_append, hrunning, List.flatten_singleton,
        List.length_take, deltaEncode_length]
  | bcj method writer finished =>
      obtain ⟨rfl, hheld⟩ := h
      let coded := (env.bcj method).encode writer.coded (writer.buffer ++ buf)
      have hcoded : coded.1.length = (writer.buffer ++ buf).length :=
        (env.bcj method).length_encode _ _
      have hdone : coded.2 ≤ (writer.buffer ++ buf).length := (env.bcj method).encode_le _ _
      obtain ⟨s', hwrite, hopen', hadds⟩ := hw.writeAll writeZero (coded.1.take coded.2) hopen
      refine ⟨buf.length, .bcj method ⟨writer.coded ++ [writer.buffer ++ buf], coded.1.drop coded.2⟩
        false, s', ?_, hlength, Nat.le_refl _, hopen', ⟨rfl, ?_⟩, rfl⟩
      · rw [write, if_neg hnonempty]
        dsimp only
        rw [hwrite]
        rfl
      · rw [hadds.flatten_eq]
        simp only [List.length_append, List.length_take, List.length_drop, List.flatten_append,
          List.flatten_singleton, Nat.min_self]
        rw [List.length_append] at hcoded hdone
        omega
  | compressor config calls finished =>
      obtain ⟨rfl, hreceived, hbelow⟩ := h
      obtain ⟨s', hperform, hopen', hadds⟩ := hw.perform writeZero
        ((env.compressor config).write calls buf).1 hopen
      refine ⟨((env.compressor config).write calls buf).2,
        .compressor config (calls ++ [.write buf]) false, s', ?_,
        (env.compressor config).write_pos calls buf hne, (env.compressor config).write_le calls buf,
        hopen', ⟨rfl, ?_, ?_⟩, rfl⟩
      · rw [write, if_neg hnonempty]
        dsimp only
        rw [hperform]
        rfl
      · rw [Compressor.taken_write, hreceived]
      · rw [hadds.flatten_eq, hbelow, Compressor.output_write]
  | brotli config calls =>
      obtain ⟨hreceived, hbelow⟩ := h
      obtain ⟨s', hperform, hopen', hadds⟩ := hw.perform writeZero
        ((env.compressor config).write calls buf).1 hopen
      refine ⟨((env.compressor config).write calls buf).2, .brotli config (calls ++ [.write buf]),
        s', ?_, (env.compressor config).write_pos calls buf hne,
        (env.compressor config).write_le calls buf, hopen', ⟨?_, ?_⟩, rfl⟩
      · rw [write]
        dsimp only
        rw [hperform]
        rfl
      · rw [Compressor.taken_write, hreceived]
      · rw [hadds.flatten_eq, hbelow, Compressor.output_write]
  | brotliFramed config frame =>
      obtain ⟨frame', s', hloop, hopen'⟩ := frame.writeLoop_isOk hw (Nat.le_refl buf.length)
        hopen
      exact ⟨buf.length, .brotliFramed config frame', s', by rw [write, hloop]; rfl, hlength,
        Nat.le_refl _, hopen', trivial, rfl⟩
  | aes options state =>
      obtain ⟨hfinished, hholds⟩ := h
      obtain ⟨state', s', hwrite, hopen', hfinished', hholds'⟩ :=
        state.write_holds hw hne hopen hfinished hholds
      refine ⟨buf.length, .aes options state', s', by rw [write, hwrite]; rfl, hlength,
        Nat.le_refl _, hopen', ⟨hfinished', ?_⟩, rfl⟩
      simpa using hholds'

end

section

variable {σ : Type} {env : Encoders} {w : ByteSink Fault σ} {isOpen : σ → Prop}
  {below : σ → List (List UInt8)}

theorem Encoder.flush_running (hw : w.Delivers isOpen below) {encoder : Encoder}
    {received : List (List UInt8)} {s : σ} (hopen : isOpen s)
    (h : encoder.Running env received (below s)) :
    ∃ encoder' s', encoder.flush env w s = .ok (encoder', s') ∧ isOpen s' ∧
      encoder'.Running env received (below s') ∧ encoder'.kind = encoder.kind := by
  cases encoder with
  | copy =>
      obtain ⟨s', hflush, hopen', hbelow⟩ := hw.flush s hopen
      exact ⟨.copy, s', by rw [flush, hflush]; rfl, hopen', by rwa [hbelow], rfl⟩
  | delta distance seen =>
      obtain ⟨s', hflush, hopen', hbelow⟩ := hw.flush s hopen
      exact ⟨.delta distance seen, s', by rw [flush, hflush]; rfl, hopen', by rwa [hbelow], rfl⟩
  | bcj method writer finished =>
      obtain ⟨rfl, hheld⟩ := h
      obtain ⟨s', hflush, hopen', hbelow⟩ := hw.flush s hopen
      exact ⟨.bcj method writer false, s', by rw [flush, hflush]; rfl, hopen',
        ⟨rfl, by rwa [hbelow]⟩, rfl⟩
  | compressor config calls finished =>
      obtain ⟨rfl, hreceived, hbelow⟩ := h
      obtain ⟨s', hperform, hopen', hadds⟩ := hw.perform writeZero
        ((env.compressor config).flush calls) hopen
      refine ⟨.compressor config (calls ++ [.flush]) false, s', by rw [flush, hperform]; rfl, hopen',
        ⟨rfl, ?_, ?_⟩, rfl⟩
      · rw [Compressor.taken_flush, hreceived]
      · rw [hadds.flatten_eq, hbelow, Compressor.output_flush]
  | brotli config calls =>
      obtain ⟨hreceived, hbelow⟩ := h
      obtain ⟨s', hperform, hopen', hadds⟩ := hw.perform writeZero
        ((env.compressor config).flush calls) hopen
      refine ⟨.brotli config (calls ++ [.flush]), s', by rw [flush, hperform]; rfl, hopen',
        ⟨?_, ?_⟩, rfl⟩
      · rw [Compressor.taken_flush, hreceived]
      · rw [hadds.flatten_eq, hbelow, Compressor.output_flush]
  | brotliFramed config frame =>
      obtain ⟨frame', s', hflush, hopen'⟩ := frame.flush_isOk hw (env.compressor config) hopen
      exact ⟨.brotliFramed config frame', s', by rw [flush, hflush]; rfl, hopen', trivial, rfl⟩
  | aes options state =>
      obtain ⟨hfinished, hholds⟩ := h
      exact ⟨.aes options state, s,
        by rw [flush, state.flush_running hfinished]; rfl, hopen, ⟨hfinished, hholds⟩, rfl⟩

/-- What a layer has passed on when it has finished, the empty writes among the pieces. -/
def Encoder.Complete (env : Encoders) (received below : List (List UInt8)) : Encoder → Prop
  | .copy => below.flatten = received.flatten
  | .delta _ _ => below.flatten.length = received.flatten.length
  | .bcj _ _ finished => finished = true ∧ below.flatten.length = received.flatten.length
  | .compressor config calls finished =>
      finished = true ∧ received = (env.compressor config).taken calls ++ [[]] ∧
        below.flatten =
          (env.compressor config).output calls ++ callBytes ((env.compressor config).finish calls)
  | .brotli config calls =>
      below.flatten =
        (env.compressor config).output calls ++ callBytes ((env.compressor config).finish calls)
  | .brotliFramed _ frame => frame.uncompressedBytesInFrame = 0
  | .aes options state => state.Complete (env.cipher options) received.flatten below.flatten

def PassesEnd (w : ByteSink Fault σ) (isOpen ended : σ → Prop) (below : σ → List (List UInt8)) :
    Prop :=
  ∀ s, isOpen s → ∃ s', w.write [] s = .ok (0, s') ∧ ended s' ∧ below s' = below s ++ [[]]

theorem Encoder.write_end {ended : σ → Prop} (hw : w.Delivers isOpen below)
    (hend : PassesEnd w isOpen ended below) {encoder : Encoder} {received : List (List UInt8)}
    {s : σ} (hopen : isOpen s) (h : encoder.Running env received (below s))
    (hbrotli : encoder.kind ≠ .brotli) :
    ∃ encoder' s', encoder.write env w [] s = .ok (0, encoder', s') ∧ ended s' ∧
      encoder'.Complete env (received ++ [[]]) (below s') ∧ encoder'.kind = encoder.kind := by
  have hflat : ∀ pieces : List (List UInt8), (pieces ++ [[]]).flatten = pieces.flatten := by simp
  cases encoder with
  | copy =>
      obtain ⟨s', hwrite, hended, hbelow⟩ := hend s hopen
      refine ⟨.copy, s', by rw [write, hwrite]; rfl, hended, ?_, rfl⟩
      change (below s').flatten = _
      rw [hbelow, hflat, hflat]
      exact h
  | delta distance seen =>
      obtain ⟨s', hwrite, hended, hbelow⟩ := hend s hopen
      refine ⟨.delta distance (seen ++ []), s', by rw [write, deltaEncode, hwrite]; rfl, hended, ?_,
        rfl⟩
      change (below s').flatten.length = _
      rw [hbelow, hflat, hflat]
      exact h
  | bcj method writer finished =>
      obtain ⟨rfl, hheld⟩ := h
      obtain ⟨s₁, hwrite, hopen₁, hadds⟩ := hw.writeAll writeZero writer.buffer hopen
      obtain ⟨s₂, hflush, hopen₂, hbelow₂⟩ := hw.flush s₁ hopen₁
      obtain ⟨s', hwrite', hended, hbelow⟩ := hend s₂ hopen₂
      refine ⟨.bcj method { writer with buffer := [] } true, s', ?_, hended, ⟨rfl, ?_⟩, rfl⟩
      · rw [write, if_pos List.isEmpty_nil]
        simp only [bind, Except.bind, hwrite, hflush, hwrite', pure, Except.pure]
      · rw [hbelow, hflat, hflat, hbelow₂, hadds.flatten_eq, List.length_append]
        exact hheld
  | compressor config calls finished =>
      obtain ⟨rfl, hreceived, houtput⟩ := h
      obtain ⟨s₁, hperform, hopen₁, hadds⟩ := hw.perform writeZero
        ((env.compressor config).finish calls) hopen
      obtain ⟨s', hwrite', hended, hbelow⟩ := hend s₁ hopen₁
      refine ⟨.compressor config calls true, s', ?_, hended, ⟨rfl, ?_, ?_⟩, rfl⟩
      · rw [write, if_pos List.isEmpty_nil]
        simp only [bind, Except.bind, hperform, writeEndIgnoring, hwrite', pure, Except.pure]
      · rw [hreceived]
      · rw [hbelow, hflat, hadds.flatten_eq, houtput]
  | brotli config calls => exact absurd rfl hbrotli
  | brotliFramed config frame => exact absurd rfl hbrotli
  | aes options state =>
      obtain ⟨hfinished, hholds⟩ := h
      have hholds' : AesState.Holds (env.cipher options) { state with finished := true }
          received.flatten (below s).flatten := ⟨hholds.data, hholds.below, hholds.full⟩
      obtain ⟨state₁, s₁, hflush, hopen₁, hcomplete⟩ :=
        AesState.flush_complete hw hopen rfl hholds'
      obtain ⟨s', hwrite', hended, hbelow⟩ := hend s₁ hopen₁
      refine ⟨.aes options state₁, s', ?_, hended, ?_, rfl⟩
      · rw [write, AesState.write, if_neg (by simp), if_pos List.isEmpty_nil]
        simp only [bind, Except.bind, hflush, hwrite', pure, Except.pure]
      · change state₁.Complete _ _ _
        rwa [hbelow, hflat, hflat]

theorem Encoder.write_end_brotli (hw : w.Delivers isOpen below) {encoder : Encoder} {s : σ}
    (hopen : isOpen s) (hbrotli : encoder.kind = .brotli) :
    ∃ encoder' s', encoder.write env w [] s = .ok (0, encoder', s') ∧ isOpen s' ∧
      encoder'.kind = .brotli := by
  cases encoder with
  | brotli config calls =>
      obtain ⟨s', hperform, hopen', -⟩ := hw.perform writeZero
        ((env.compressor config).write calls []).1 hopen
      have htaken : ((env.compressor config).write calls []).2 = 0 :=
        Nat.le_zero.mp ((env.compressor config).write_le calls [])
      refine ⟨.brotli config (calls ++ [.write []]), s', ?_, hopen', rfl⟩
      rw [write]
      dsimp only
      rw [hperform, htaken]
      rfl
  | brotliFramed config frame =>
      exact ⟨.brotliFramed config frame, s, by rw [write, BrotliFrame.writeLoop]; rfl, hopen, rfl⟩
  | copy => cases hbrotli
  | delta distance seen => cases hbrotli
  | bcj method writer finished => cases hbrotli
  | compressor config calls finished => cases hbrotli
  | aes options state => cases hbrotli

end

/-- A writer has received the empty write once, after everything else. -/
def EndsOnce (received : List (List UInt8)) : Prop :=
  ∃ pieces, received = pieces ++ [[]] ∧ ∀ piece ∈ pieces, piece ≠ []

namespace Chain

/-- Every layer of the chain has received the end of the stream once, after the whole output
of the layer around it, and has passed on all of its own. -/
def Finished (env : Encoders) : Chain → Prop
  | sink received => EndsOnce received
  | layer encoder received counted inner =>
      EndsOnce received ∧ encoder.Complete env received inner.received ∧
        counted = inner.received.flatten.length ∧ inner.Finished env

variable {env : Encoders}

theorem Open.received_ne {chain : Chain} (h : chain.Open env) :
    ∀ piece ∈ chain.received, piece ≠ [] := by
  cases chain with
  | sink received => exact h
  | layer encoder received counted inner => exact h.1

theorem Finished.endsOnce {chain : Chain} (h : chain.Finished env) :
    EndsOnce chain.received := by
  cases chain with
  | sink received => exact h
  | layer encoder received counted inner => exact h.1

theorem Open.not_finished {chain : Chain} (h : chain.Open env) : ¬ chain.Finished env := by
  intro hfinished
  obtain ⟨pieces, hreceived, -⟩ := hfinished.endsOnce
  exact h.received_ne [] (by simp [hreceived]) rfl

@[simp] theorem kinds_layer (encoder : Encoder) (received : List (List UInt8)) (counted : Nat)
    (inner : Chain) :
    (layer encoder received counted inner).kinds = encoder.kind :: inner.kinds := rfl

structure OpenAt (env : Encoders) (depth : Nat) (kinds : List EncoderKind) (chain : Chain) :
    Prop where
  depth : chain.depth = depth
  isOpen : chain.Open env
  kinds : chain.kinds = kinds

theorem forall_mem_concat_ne {pieces : List (List UInt8)} {piece : List UInt8}
    (h : ∀ piece ∈ pieces, piece ≠ []) (hne : piece ≠ []) :
    ∀ other ∈ pieces ++ [piece], other ≠ [] := by
  intro other hother
  cases List.mem_append.mp hother with
  | inl h' => exact h other h'
  | inr h' => rwa [List.mem_singleton.mp h']

/-- An open chain takes every offer of data at least in part and stays open. -/
theorem writer_delivers (env : Encoders) (depth : Nat) (kinds : List EncoderKind) :
    (writer env depth).Delivers (OpenAt env depth kinds) received := by
  induction depth generalizing kinds with
  | zero =>
      constructor
      · intro chain buf hopen hne
        cases chain with
        | layer encoder received counted inner => cases hopen.depth
        | sink received =>
            refine ⟨buf.length, sink (received ++ [buf]), rfl, List.length_pos_of_ne_nil hne,
              Nat.le_refl _, ⟨rfl, forall_mem_concat_ne hopen.isOpen hne, hopen.kinds⟩, ?_⟩
            simp [Chain.received]
      · intro chain hopen
        exact ⟨chain, rfl, hopen, rfl⟩
  | succ depth ih =>
      constructor
      · intro chain buf hopen hne
        cases chain with
        | sink received => cases hopen.depth
        | layer encoder pieces counted inner =>
            obtain ⟨hpieces, hrunning, hcounted, hinner⟩ := hopen.isOpen
            obtain ⟨taken, encoder', s', hwrite, hpos, hle, hopen', hrunning', hsame⟩ :=
              encoder.write_running (s := (counted, inner)) (ih inner.kinds).counting hne
                ⟨⟨Nat.succ.inj hopen.depth, hinner, rfl⟩, hcounted⟩ hrunning
            have hpiece : buf.take taken ≠ [] := by
              rw [ne_eq, List.take_eq_nil_iff]
              have := List.length_pos_of_ne_nil hne
              simp [hne]
              omega
            refine ⟨taken, layer encoder' (pieces ++ [buf.take taken]) s'.1 s'.2, ?_, hpos, hle,
              ⟨congrArg (· + 1) hopen'.1.depth, ?_, ?_⟩, rfl⟩
            · change (encoder.write env (writer env depth).counting buf (counted, inner) >>=
                fun r => pure (r.1, layer r.2.1 (pieces ++ [buf.take r.1]) r.2.2.1 r.2.2.2)) = _
              rw [hwrite]
              rfl
            · exact ⟨forall_mem_concat_ne hpieces hpiece, hrunning', hopen'.2, hopen'.1.isOpen⟩
            · rw [kinds_layer, hsame, hopen'.1.kinds]
              exact hopen.kinds
      · intro chain hopen
        cases chain with
        | sink received => cases hopen.depth
        | layer encoder pieces counted inner =>
            obtain ⟨hpieces, hrunning, hcounted, hinner⟩ := hopen.isOpen
            obtain ⟨encoder', s', hflush, hopen', hrunning', hsame⟩ :=
              encoder.flush_running (s := (counted, inner)) (ih inner.kinds).counting
                ⟨⟨Nat.succ.inj hopen.depth, hinner, rfl⟩, hcounted⟩ hrunning
            refine ⟨layer encoder' pieces s'.1 s'.2, ?_,
              ⟨congrArg (· + 1) hopen'.1.depth, ?_, ?_⟩, rfl⟩
            · change (encoder.flush env (writer env depth).counting (counted, inner) >>=
                fun r => pure (layer r.1 pieces r.2.1 r.2.2)) = _
              rw [hflush]
              rfl
            · exact ⟨hpieces, hrunning', hopen'.2, hopen'.1.isOpen⟩
            · rw [kinds_layer, hsame, hopen'.1.kinds]
              exact hopen.kinds

end Chain

namespace Chain

variable {env : Encoders}

theorem writer_end (env : Encoders) {depth : Nat} {kinds : List EncoderKind} {chain : Chain}
    (h : OpenAt env depth kinds chain) :
    ∃ chain', (writer env depth).write [] chain = .ok (0, chain') ∧
      (chain'.Finished env ↔ .brotli ∉ kinds) ∧ chain'.kinds = kinds ∧
      chain'.received = chain.received ++ [[]] := by
  induction depth generalizing kinds chain with
  | zero =>
      cases chain with
      | layer encoder received counted inner => cases h.depth
      | sink received =>
          cases h.kinds
          exact ⟨sink (received ++ [[]]), rfl,
            iff_of_true ⟨received, rfl, h.isOpen⟩ List.not_mem_nil, rfl, rfl⟩
  | succ depth ih =>
      cases chain with
      | sink received => cases h.depth
      | layer encoder pieces counted inner =>
          obtain ⟨hpieces, hrunning, hcounted, hinner⟩ := h.isOpen
          have hdelivers := (writer_delivers env depth inner.kinds).counting
          have hopen : OpenAt env depth inner.kinds inner :=
            ⟨Nat.succ.inj h.depth, hinner, rfl⟩
          have hwritten : ∀ {encoder' : Encoder} {s' : Nat × Chain},
              encoder.write env (writer env depth).counting [] (counted, inner) =
                .ok (0, encoder', s') →
              (writer env (depth + 1)).write [] (layer encoder pieces counted inner) =
                .ok (0, layer encoder' (pieces ++ [[]]) s'.1 s'.2) := by
            intro encoder' s' hwrite
            change (encoder.write env (writer env depth).counting [] (counted, inner) >>=
              fun r => pure (r.1, layer r.2.1 (pieces ++ [[].take r.1]) r.2.2.1 r.2.2.2)) = _
            rw [hwrite]
            rfl
          rw [← h.kinds, kinds_layer]
          by_cases hbrotli : encoder.kind = .brotli
          · obtain ⟨encoder', s', hwrite, hopen', hkind'⟩ :=
              @Encoder.write_end_brotli _ env _ _ _ hdelivers encoder (counted, inner)
                ⟨hopen, hcounted⟩ hbrotli
            refine ⟨_, hwritten hwrite, iff_of_false ?_ ?_, ?_, rfl⟩
            · exact fun hfinished => hopen'.1.isOpen.not_finished hfinished.2.2.2
            · simp [hbrotli]
            · rw [kinds_layer, hkind', hbrotli, hopen'.1.kinds]
          · have hend : PassesEnd (writer env depth).counting
                (fun s => OpenAt env depth inner.kinds s.2 ∧ s.1 = s.2.received.flatten.length)
                (fun s => ((s.2.Finished env ↔ .brotli ∉ inner.kinds) ∧ s.2.kinds = inner.kinds) ∧
                  s.1 = s.2.received.flatten.length)
                (fun s => s.2.received) := by
              intro s hs
              obtain ⟨inner', hwrite, hfinished, hkinds, hreceived⟩ := ih hs.1
              refine ⟨(s.1 + 0, inner'), ?_, ⟨⟨hfinished, hkinds⟩, ?_⟩, hreceived⟩
              · simp only [ByteSink.counting, hwrite]
              · simp [hreceived, hs.2]
            obtain ⟨encoder', s', hwrite, hended, hcomplete, hkind'⟩ :=
              Encoder.write_end hdelivers hend (s := (counted, inner)) ⟨hopen, hcounted⟩
                hrunning hbrotli
            refine ⟨_, hwritten hwrite, ?_, ?_, rfl⟩
            · have hlayer : (layer encoder' (pieces ++ [[]]) s'.1 s'.2).Finished env ↔
                  s'.2.Finished env :=
                ⟨fun hfinished => hfinished.2.2.2,
                  fun hfinished => ⟨⟨pieces, rfl, hpieces⟩, hcomplete, hended.2, hfinished⟩⟩
              rw [hlayer, hended.1.1, List.mem_cons, not_or]
              exact (and_iff_right (Ne.symm hbrotli)).symm
            · rw [kinds_layer, hkind', hended.1.2]

def calls (env : Encoders) : List EncoderCall → Chain → Result Chain
  | [], chain => .ok chain
  | .write buf :: rest, chain => do
      let (_, chain) ← chain.write env buf
      calls env rest chain
  | .flush :: rest, chain => do
      let chain ← chain.flush env
      calls env rest chain

theorem calls_open {depth : Nat} {kinds : List EncoderKind} {made : List EncoderCall} {chain : Chain}
    (hdata : ∀ buf, EncoderCall.write buf ∈ made → buf ≠ [])
    (h : OpenAt env depth kinds chain) :
    ∃ chain', chain.calls env made = .ok chain' ∧ OpenAt env depth kinds chain' := by
  induction made generalizing chain with
  | nil => exact ⟨chain, rfl, h⟩
  | cons call made ih =>
      have hrest : ∀ buf, EncoderCall.write buf ∈ made → buf ≠ [] :=
        fun buf hbuf => hdata buf (List.mem_cons_of_mem call hbuf)
      cases call with
      | write buf =>
          obtain ⟨taken, chain₁, hwrite, -, -, hopen₁, -⟩ :=
            (writer_delivers env depth kinds).write chain buf h (hdata buf List.mem_cons_self)
          obtain ⟨chain', hcalls, hopen'⟩ := ih hrest hopen₁
          refine ⟨chain', ?_, hopen'⟩
          rw [calls, write, h.depth, hwrite]
          exact hcalls
      | flush =>
          obtain ⟨chain₁, hflush, hopen₁, -⟩ :=
            (writer_delivers env depth kinds).flush chain h
          obtain ⟨chain', hcalls, hopen'⟩ := ih hrest hopen₁
          refine ⟨chain', ?_, hopen'⟩
          rw [calls, flush, h.depth, hflush]
          exact hcalls

end Chain

theorem Encoders.build_eq_ok {env : Encoders} {config : EncoderConfiguration}
    {encoder encoder' : Encoder} (h : env.build config encoder = .ok encoder') :
    encoder' = encoder := by
  unfold build at h
  cases hrefuses : env.refuses config with
  | some error =>
      rw [hrefuses] at h
      cases h
  | none =>
      rw [hrefuses] at h
      exact (Except.ok.inj h).symm

theorem addEncoder_running {env : Encoders} {config : EncoderConfiguration} {encoder : Encoder}
    (h : addEncoder env config = .ok encoder) :
    encoder.Running env [] [] ∧ encoder.kind = config.method.kind := by
  unfold addEncoder at h
  cases hmethod : config.method with
  | copy | deltaFilter =>
      rw [hmethod] at h
      cases h
      exact ⟨rfl, rfl⟩
  | bcjX86Filter | bcjArmFilter | bcjArmThumbFilter | bcjArm64Filter | bcjIa64Filter
  | bcjSparcFilter | bcjPpcFilter | bcjRiscvFilter =>
      rw [hmethod] at h
      cases h
      exact ⟨⟨rfl, rfl⟩, rfl⟩
  | lzma | lzma2 =>
      rw [hmethod] at h
      obtain ⟨_, -, h⟩ := Result.bind_eq_ok.mp h
      rw [Encoders.build_eq_ok h]
      exact ⟨⟨rfl, rfl, rfl⟩, rfl⟩
  | ppmd | bzip2 | deflate | lz4 | zstd =>
      rw [hmethod] at h
      rw [Encoders.build_eq_ok h]
      exact ⟨⟨rfl, rfl, rfl⟩, rfl⟩
  | brotli =>
      rw [hmethod] at h
      dsimp only at h
      split at h
      all_goals
        split at h
        · cases h
          exact ⟨⟨rfl, rfl⟩, rfl⟩
        · cases h
          exact ⟨trivial, rfl⟩
  | aes256Sha256 =>
      rw [hmethod] at h
      dsimp only at h
      split at h
      · rw [Encoders.build_eq_ok h]
        exact ⟨⟨rfl, rfl, rfl, by simp⟩, rfl⟩
      · cases h
  | default | lzs | lizard | deflate64 | bcj2Filter =>
      rw [hmethod] at h
      cases h

theorem addEncoders_open {env : Encoders} {methods : List EncoderConfiguration}
    {chain chain' : Chain} (h : addEncoders env methods chain = .ok chain')
    (hopen : chain.Open env) (hnew : chain.received = []) :
    chain'.Open env ∧
      chain'.kinds = (methods.map fun mc => mc.method.kind).reverse ++ chain.kinds := by
  induction methods generalizing chain with
  | nil =>
      cases h
      exact ⟨hopen, rfl⟩
  | cons mc methods ih =>
      obtain ⟨encoder, hadd, h⟩ := Result.bind_eq_ok.mp h
      obtain ⟨hrunning, hkind⟩ := addEncoder_running hadd
      have hlayer : (Chain.layer encoder [] 0 chain).Open env :=
        ⟨by simp, by rwa [hnew], by rw [hnew]; rfl, hopen⟩
      obtain ⟨hopen', hkinds⟩ := ih h hlayer rfl
      refine ⟨hopen', ?_⟩
      simp [hkinds, hkind]

def Chain.FinishesAfter (env : Encoders) (made : List EncoderCall) (chain : Chain) : Prop :=
  ∃ written taken ended, chain.calls env made = .ok written ∧
    written.write env [] = .ok (taken, ended) ∧ ended.Finished env

theorem Chain.OpenAt.finishesAfter_iff {env : Encoders} {depth : Nat} {kinds : List EncoderKind}
    {chain : Chain} (h : Chain.OpenAt env depth kinds chain) {made : List EncoderCall}
    (hdata : ∀ buf, EncoderCall.write buf ∈ made → buf ≠ []) :
    chain.FinishesAfter env made ↔ .brotli ∉ kinds := by
  obtain ⟨written, hcalls, hwritten⟩ := Chain.calls_open hdata h
  obtain ⟨ended, hend, hfinished, -, -⟩ := Chain.writer_end env hwritten
  have hwrite : written.write env [] = .ok (0, ended) := by
    rw [Chain.write, hwritten.depth, hend]
  rw [← hfinished]
  constructor
  · intro h
    obtain ⟨written', taken, ended', hcalls', hwrite', hfinished'⟩ := h
    cases hcalls.symm.trans hcalls'
    cases hwrite.symm.trans hwrite'
    exact hfinished'
  · intro h
    exact ⟨written, 0, ended, hcalls, hwrite, h⟩

/-- After any data, the empty write finishes every encoder of a chain and sends the whole output
of each into the writer below exactly if the method list has no Brotli in it. -/
theorem createWriter_finishesAfter_iff {env : Encoders} {methods : List EncoderConfiguration}
    {chain : Chain} (hchain : createWriter env methods = .ok chain) {made : List EncoderCall}
    (hdata : ∀ buf, EncoderCall.write buf ∈ made → buf ≠ []) :
    chain.FinishesAfter env made ↔ ∀ mc ∈ methods, mc.method ≠ .brotli := by
  obtain ⟨hopen, hkinds⟩ := addEncoders_open hchain (List.forall_mem_nil _) rfl
  have hat : Chain.OpenAt env chain.depth chain.kinds chain := ⟨rfl, hopen, rfl⟩
  rw [hat.finishesAfter_iff hdata, hkinds]
  simp [Chain.kinds, Chain.encoders, EncoderMethod.kind_eq_brotli]

def storingCompressor : Compressor where
  write _ buf := ([], buf.length)
  flush _ := []
  finish calls := [.writeAll (calls.flatMap fun call =>
    match call with
    | .write buf => buf
    | .flush => [])]
  write_le _ _ := Nat.le_refl _
  write_pos _ _ hne := List.length_pos_of_ne_nil hne

def EncoderConfiguration.lacksPassword (config : EncoderConfiguration) : Bool :=
  match config.options with
  | some (.aes options) => options.password.isEmpty
  | _ => false

def storingEncoders : Encoders where
  refuses config := if config.lacksPassword then some .passwordRequired else none
  compressor _ := storingCompressor
  bcj _ :=
    { encode := fun _ buf => (buf, buf.length), length_encode := by simp, encode_le := by simp }
  cipher _ := { encrypt := fun _ block => block, length_encrypt := by simp }

def letterAesOptions : AesEncoderOptions :=
  { password := [0x61, 0x00], iv := Vector.replicate 16 0, salt := Vector.replicate 16 0
    numCyclesPower := 8 }

def aesMethod : EncoderConfiguration :=
  { method := .aes256Sha256, options := some (.aes letterAesOptions) }

def aesLayer : Chain :=
  .layer (.aes letterAesOptions { short := AesState.short_nil }) [] 0 (.sink [])

theorem copyOverAes_finishesAfter_iff :
    (Chain.layer .copy [] 0 aesLayer).FinishesAfter storingEncoders [.write [1, 2, 3], .flush] ↔
      ∀ mc ∈ [aesMethod, { method := .copy }], mc.method ≠ .brotli :=
  createWriter_finishesAfter_iff rfl (by simp)

def brotliOverAes : Chain :=
  .layer (.brotliFramed { method := .brotli } { frameSize := 128 * 1024, short := by decide }) [] 0
    aesLayer

/-- The AES layer below never gets to pad its last block. -/
theorem brotliOverAes_unfinished :
    createWriter storingEncoders [aesMethod, { method := .brotli }] = .ok brotliOverAes ∧
      ¬ brotliOverAes.FinishesAfter storingEncoders [.write [1, 2, 3], .flush] := by
  refine ⟨rfl, fun h => ?_⟩
  have hlayer : aesLayer.Open storingEncoders :=
    ⟨by simp, ⟨rfl, rfl, rfl, by simp⟩, rfl, List.forall_mem_nil _⟩
  have hopen : brotliOverAes.OpenAt storingEncoders 2 [.brotli, .aes] :=
    ⟨rfl, ⟨List.forall_mem_nil _, trivial, rfl, hlayer⟩, rfl⟩
  exact absurd List.mem_cons_self ((hopen.finishesAfter_iff (by simp)).mp h)

end Sevenz
