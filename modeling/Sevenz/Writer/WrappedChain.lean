import Sevenz.Lib.Alike
import Sevenz.Writer.EndOfStream

/-!
# A chain over a sink that takes part of an offer

`create_writer` over `CompressWrapWriter`, on any output that takes some of each offer.  An
encoder that hands on its bytes with `write_all` does not see how they are taken; `Copy` and
`Delta` hand on one offer and report what was taken of it.
-/

namespace Sevenz

open Lib

/-- The counters of a `CompressWrapWriter`; `crc` is what its running checksum has taken in. -/
structure WrapTally where
  crc : List UInt8 := []
  bytesWritten : Nat := 0
  deriving DecidableEq

def WrapTally.add (tally : WrapTally) (bytes : List UInt8) : WrapTally where
  crc := tally.crc ++ bytes
  bytesWritten := tally.bytesWritten + bytes.length

section

variable {σ : Type} (w : ByteSink Fault σ)

def compressWrap : ByteSink Fault (WrapTally × σ) where
  write buf := fun (tally, s) => do
    let (len, s) ← w.write buf s
    pure (len, { crc := tally.crc ++ buf.take len, bytesWritten := tally.bytesWritten + len }, s)
  flush := fun (tally, s) => do
    let s ← w.flush s
    pure (tally, s)

abbrev Layer := Encoder × Nat

def stacked (env : Encoders) : Nat → ByteSink Fault (List Layer × σ)
  | 0 =>
      { write := fun buf (layers, s) => do
          let (taken, s) ← w.write buf s
          pure (taken, layers, s)
        flush := fun (layers, s) => do
          let s ← w.flush s
          pure (layers, s) }
  | depth + 1 =>
      { write := fun buf (layers, s) =>
          match layers with
          | [] => .error .outOfFuel
          | (encoder, counted) :: below => do
              let (taken, encoder, counted, below, s) ←
                encoder.write env (stacked env depth).counting buf (counted, below, s)
              pure (taken, (encoder, counted) :: below, s)
        flush := fun (layers, s) =>
          match layers with
          | [] => .error .outOfFuel
          | (encoder, counted) :: below => do
              let (encoder, counted, below, s) ←
                encoder.flush env (stacked env depth).counting (counted, below, s)
              pure ((encoder, counted) :: below, s) }

def wrappedChain (env : Encoders) (depth : Nat) :
    ByteSink Fault (WrapTally × List Layer × WrapTally × σ) :=
  compressWrap (stacked (compressWrap w) env depth)

def writeEach : List (List UInt8) → σ → Result σ
  | [], s => .ok s
  | chunk :: chunks, s => do
      let s ← w.writeAll writeZero chunk s
      writeEach chunks s

/-- What `push_archive_entry` and `push_archive_entries` do with the content. -/
def drive (chunks : List (List UInt8)) (s : σ) : Result σ := do
  let s ← writeEach w chunks s
  let s ← w.flush s
  let (_, s) ← w.write [] s
  pure s

def encodeInto (env : Encoders) (chain : Chain) (chunks : List (List UInt8)) (s : σ) :
    Result (WrapTally × List Layer × WrapTally × σ) :=
  drive (wrappedChain w env chain.encoders.length) chunks
    ({}, chain.encoders.map fun encoder => (encoder, 0), {}, s)

end

/-- What the content leaves behind: the bytes in the output, what the lower wrapper counted of
them, the counts between the encoders, and what the upper wrapper counted. -/
structure LeftBehind where
  bytes : List UInt8
  compressed : WrapTally
  counts : List Nat
  content : WrapTally
  deriving DecidableEq

def LeftBehind.of {σ : Type} (received : σ → List (List UInt8))
    (state : WrapTally × List Layer × WrapTally × σ) : LeftBehind :=
  let (content, layers, compressed, s) := state
  { bytes := (received s).flatten, compressed, counts := layers.map Prod.snd, content }

structure TakesParts {σ : Type} (w : ByteSink Fault σ) (isOpen : σ → Prop)
    (received : σ → List (List UInt8)) : Prop where
  delivers : w.Delivers isOpen received
  bounded : w.Bounded
  empty : ∀ s, isOpen s → ∃ s', w.write [] s = .ok (0, s') ∧ isOpen s' ∧
    (received s').flatten = (received s).flatten

def takingAll : ByteSink Fault (List (List UInt8)) where
  write buf received := .ok (buf.length, received ++ [buf])
  flush received := .ok received

/-- Over every sink that takes some of each offer, the chain leaves behind what it leaves behind
over one that takes everything. -/
def SinkIndependent (env : Encoders) (methods : List EncoderConfiguration) : Prop :=
  ∀ chain, createWriter env methods = .ok chain →
    ∀ {σ : Type} {w : ByteSink Fault σ} {isOpen : σ → Prop} {received : σ → List (List UInt8)},
      TakesParts w isOpen received → ∀ (s : σ) (chunks : List (List UInt8)),
        isOpen s → received s = [] →
          (encodeInto w env chain chunks s).map (LeftBehind.of received) =
            (encodeInto takingAll env chain chunks []).map (LeftBehind.of id)

section

variable {σ τ : Type} {w : ByteSink Fault σ} {v : ByteSink Fault τ} {R : σ → τ → Prop}

theorem compressWrap_accounts (h : w.Bounded) :
    Accounts w (compressWrap w) WrapTally.add where
  write := by
    intro buf tally s
    unfold compressWrap
    cases hwrite : w.write buf s with
    | error fault => simp only [hwrite, bind, Except.bind, Except.map]
    | ok p =>
        obtain ⟨taken, s'⟩ := p
        have hle : (buf.take taken).length = taken := by
          rw [List.length_take, Nat.min_eq_left (h hwrite)]
        simp only [hwrite, bind, Except.bind, pure, Except.pure, Except.map, WrapTally.add, hle]
  flush := by
    intro tally s
    unfold compressWrap
    cases hflush : w.flush s with
    | error fault => simp only [hflush, bind, Except.bind, Except.map]
    | ok s' => simp only [hflush, bind, Except.bind, pure, Except.pure, Except.map]
  nil tally := by
    rw [WrapTally.add, List.append_nil, List.length_nil, Nat.add_zero]
  append tally xs ys := by
    simp only [WrapTally.add, List.append_assoc, List.length_append, Nat.add_assoc]

theorem compressWrap_bounded (h : w.Bounded) : (compressWrap w).Bounded := by
  intro buf s taken s' hwrite
  obtain ⟨p, hp, hwrite⟩ := Result.bind_eq_ok.mp hwrite
  cases Result.pure_eq_ok.mp hwrite
  exact h hp

def SameReceived (isOpen : σ → Prop) (received : σ → List (List UInt8)) (isOpen' : τ → Prop)
    (received' : τ → List (List UInt8)) (s : σ) (t : τ) : Prop :=
  isOpen s ∧ isOpen' t ∧ (received s).flatten = (received' t).flatten

theorem TakesParts.alike {isOpen : σ → Prop} {received : σ → List (List UInt8)}
    {isOpen' : τ → Prop} {received' : τ → List (List UInt8)} (hw : TakesParts w isOpen received)
    (hv : TakesParts v isOpen' received') :
    WriteAllAlike writeZero w v (SameReceived isOpen received isOpen' received') where
  writeAll := by
    rintro s t buf ⟨hs, ht, hsame⟩
    obtain ⟨s', hwrite, hs', hadds⟩ := hw.delivers.writeAll writeZero buf hs
    obtain ⟨t', hwrite', ht', hadds'⟩ := hv.delivers.writeAll writeZero buf ht
    rw [hwrite, hwrite']
    exact .ok ⟨hs', ht', by rw [hadds.flatten_eq, hadds'.flatten_eq, hsame]⟩
  finish := by
    rintro s t ⟨hs, ht, hsame⟩
    obtain ⟨s', hwrite, hs', hreceived⟩ := hw.empty s hs
    obtain ⟨t', hwrite', ht', hreceived'⟩ := hv.empty t ht
    rw [hwrite, hwrite']
    exact .ok ⟨rfl, hs', ht', by rw [hreceived, hreceived', hsame]⟩
  flush := by
    rintro s t ⟨hs, ht, hsame⟩
    obtain ⟨s', hflush, hs', hreceived⟩ := hw.delivers.flush s hs
    obtain ⟨t', hflush', ht', hreceived'⟩ := hv.delivers.flush t ht
    rw [hflush, hflush']
    exact .ok ⟨hs', ht', by rw [hreceived, hreceived', hsame]⟩

end

theorem takingAll_takesParts : TakesParts takingAll (fun _ => True) id where
  delivers := {
    write := by
      intro received buf _ hne
      refine ⟨buf.length, _, rfl, List.length_pos_of_ne_nil hne, Nat.le_refl _, trivial, ?_⟩
      rw [List.take_length]
      rfl
    flush := fun received _ => ⟨received, rfl, trivial, rfl⟩ }
  bounded := by
    rintro buf s taken s' ⟨⟩
    exact Nat.le_refl _
  empty received _ :=
    ⟨received ++ [[]], rfl, trivial, List.flatten_concat.trans (List.append_nil received.flatten)⟩

/-- How an encoder hands on its bytes: by one offer, changed or not, or with `write_all`. -/
inductive HandsOn where
  | offer
  | deltaOffer
  | whole
  deriving DecidableEq

def Encoder.handsOn : Encoder → HandsOn
  | .copy => .offer
  | .delta _ _ => .deltaOffer
  | _ => .whole

def SameEncoder {σ τ : Type} (way : HandsOn) (R : σ → τ → Prop) (p : Encoder × σ)
    (q : Encoder × τ) : Prop :=
  p.1 = q.1 ∧ p.1.handsOn = way ∧ R p.2 q.2

section

variable {env : Encoders} {σ τ : Type} {w : ByteSink Fault σ} {v : ByteSink Fault τ}
  {R : σ → τ → Prop}

theorem writeEndIgnoring_alike (h : WriteAllAlike writeZero w v R) {s : σ} {t : τ} (hst : R s t) :
    Alike R (writeEndIgnoring w s) (writeEndIgnoring v t) := by
  have hfinish := h.finish hst
  unfold writeEndIgnoring
  generalize w.write [] s = x at hfinish ⊢
  generalize v.write [] t = y at hfinish ⊢
  cases hfinish with
  | ok hpq => exact .ok hpq.2
  | @error fault =>
      cases fault with
      | error _ => exact .ok hst
      | panic _ => exact .error
      | outOfFuel => exact .error

def SameState {ρ : Type} (R : σ → τ → Prop) (p : ρ × σ) (q : ρ × τ) : Prop :=
  p.1 = q.1 ∧ R p.2 q.2

theorem AesState.writeBlock_alike (h : WriteAllAlike writeZero w v R) (cipher : BlockCipher)
    (block : List UInt8) (state : AesState) {s : σ} {t : τ} (hst : R s t) :
    Alike (SameState R) (state.writeBlock w cipher block s)
      (state.writeBlock v cipher block t) := by
  have hwrite := h.writeAll (cipher.encrypt state.blocks block) hst
  unfold writeBlock
  generalize w.writeAll writeZero (cipher.encrypt state.blocks block) s = x at hwrite ⊢
  generalize v.writeAll writeZero (cipher.encrypt state.blocks block) t = y at hwrite ⊢
  cases hwrite with
  | ok hst' => exact .ok ⟨rfl, hst'⟩
  | error => exact .error

theorem AesState.writeChunks_alike (h : WriteAllAlike writeZero w v R) (cipher : BlockCipher)
    (rounds : Nat) (buf : List UInt8) (state : AesState) {s : σ} {t : τ} (hst : R s t) :
    Alike (SameState R) (state.writeChunks w cipher rounds buf s)
      (state.writeChunks v cipher rounds buf t) := by
  induction rounds generalizing buf state s t with
  | zero => exact .ok ⟨rfl, hst⟩
  | succ rounds ih =>
      unfold writeChunks
      split
      · exact .ok ⟨rfl, hst⟩
      · apply (state.writeBlock_alike h cipher (buf.take 16) hst).bind
        rintro ⟨state₁, s₁⟩ ⟨_, t₁⟩ ⟨rfl, hst₁⟩
        exact ih (buf.drop 16) state₁ hst₁

theorem AesState.flush_alike (h : WriteAllAlike writeZero w v R) (cipher : BlockCipher)
    (state : AesState) {s : σ} {t : τ} (hst : R s t) :
    Alike (SameState R) (state.flush w cipher s) (state.flush v cipher t) := by
  unfold flush
  split
  · exact .ok ⟨rfl, hst⟩
  · apply (state.writeBlock_alike h cipher _ hst).bind
    rintro ⟨state₁, s₁⟩ ⟨_, t₁⟩ ⟨rfl, hst₁⟩
    exact .ok ⟨rfl, hst₁⟩

theorem AesState.write_alike (h : WriteAllAlike writeZero w v R) (cipher : BlockCipher)
    (buf : List UInt8) (state : AesState) {s : σ} {t : τ} (hst : R s t) :
    Alike (SameCount (SameState R)) (state.write w cipher buf s) (state.write v cipher buf t) := by
  unfold write
  split_ifs
  · exact .ok ⟨rfl, rfl, hst⟩
  · apply (AesState.flush_alike h cipher _ hst).bind
    rintro ⟨state₁, s₁⟩ ⟨_, t₁⟩ ⟨rfl, hst₁⟩
    apply (h.finish hst₁).bind
    rintro ⟨taken, s'⟩ ⟨_, t'⟩ ⟨rfl, hst'⟩
    exact .ok ⟨rfl, rfl, hst'⟩
  · apply (state.writeChunks_alike h cipher _ buf hst).bind
    rintro ⟨state₁, s₁⟩ ⟨_, t₁⟩ ⟨rfl, hst₁⟩
    exact .ok ⟨rfl, rfl, hst₁⟩
  · exact .ok ⟨rfl, rfl, hst⟩
  · apply (state.writeBlock_alike h cipher _ hst).bind
    rintro ⟨state₁, s₁⟩ ⟨_, t₁⟩ ⟨rfl, hst₁⟩
    apply (AesState.writeChunks_alike h cipher _ _ _ hst₁).bind
    rintro ⟨state₂, s₂⟩ ⟨_, t₂⟩ ⟨rfl, hst₂⟩
    exact .ok ⟨rfl, rfl, hst₂⟩

theorem AesState.write_le {cipher : BlockCipher} (h : w.Bounded) {buf : List UInt8}
    {state : AesState} {s : σ} {p : Nat × AesState × σ}
    (hwrite : state.write w cipher buf s = .ok p) : p.1 ≤ buf.length := by
  unfold write at hwrite
  split_ifs at hwrite
  · cases hwrite
    exact Nat.zero_le _
  · obtain ⟨_, -, hwrite⟩ := Result.bind_eq_ok.mp hwrite
    obtain ⟨q, hq, hwrite⟩ := Result.bind_eq_ok.mp hwrite
    cases Result.pure_eq_ok.mp hwrite
    exact (h hq).trans (Nat.zero_le _)
  · obtain ⟨_, -, hwrite⟩ := Result.bind_eq_ok.mp hwrite
    cases Result.pure_eq_ok.mp hwrite
    exact Nat.le_refl _
  · cases hwrite
    exact Nat.le_refl _
  · obtain ⟨_, -, hwrite⟩ := Result.bind_eq_ok.mp hwrite
    obtain ⟨_, -, hwrite⟩ := Result.bind_eq_ok.mp hwrite
    cases Result.pure_eq_ok.mp hwrite
    exact Nat.le_refl _

theorem BrotliFrame.writeLoop_alike (h : WriteAllAlike writeZero w v R) (compressor : Compressor)
    (rounds : Nat) (buf : List UInt8) (frame : BrotliFrame) {s : σ} {t : τ} (hst : R s t) :
    Alike (SameState R) (frame.writeLoop w compressor rounds buf s)
      (frame.writeLoop v compressor rounds buf t) := by
  induction rounds generalizing buf frame s t with
  | zero =>
      cases buf with
      | nil => exact .ok ⟨rfl, hst⟩
      | cons _ _ => exact .error
  | succ rounds ih =>
      cases buf with
      | nil => exact .ok ⟨rfl, hst⟩
      | cons b buf =>
          unfold writeLoop
          dsimp only
          split_ifs
          · exact .error
          · exact ih _ _ hst
          · apply (h.perform _ hst).bind
            intro s₁ t₁ hst₁
            exact ih _ _ hst₁

theorem BrotliFrame.flush_alike (h : WriteAllAlike writeZero w v R) (compressor : Compressor)
    (frame : BrotliFrame) {s : σ} {t : τ} (hst : R s t) :
    Alike (SameState R) (frame.flush w compressor s) (frame.flush v compressor t) := by
  unfold flush
  apply (h.perform _ hst).bind
  intro s₁ t₁ hst₁
  apply (h.flush hst₁).bind
  intro s₂ t₂ hst₂
  split
  · exact .ok ⟨rfl, hst₂⟩
  · exact .ok ⟨rfl, hst₂⟩

theorem Encoder.write_alike_of_whole (h : WriteAllAlike writeZero w v R) {encoder : Encoder}
    (hwhole : encoder.handsOn = .whole) (buf : List UInt8) {s : σ} {t : τ} (hst : R s t) :
    Alike (SameCount (SameEncoder .whole R)) (encoder.write env w buf s)
      (encoder.write env v buf t) := by
  cases encoder with
  | copy => cases hwhole
  | delta _ _ => cases hwhole
  | bcj method writer finished =>
      cases finished with
      | true => exact .error
      | false =>
          change Alike _ (if buf.isEmpty = true then _ else _) (if buf.isEmpty = true then _ else _)
          split
          · apply (h.writeAll writer.buffer hst).bind
            intro s₁ t₁ hst₁
            apply (h.flush hst₁).bind
            intro s₂ t₂ hst₂
            apply (h.finish hst₂).bind
            rintro ⟨taken, s₃⟩ ⟨_, t₃⟩ ⟨rfl, hst₃⟩
            exact .ok ⟨rfl, rfl, rfl, hst₃⟩
          · apply (h.writeAll _ hst).bind
            intro s₁ t₁ hst₁
            exact .ok ⟨rfl, rfl, rfl, hst₁⟩
  | compressor config calls finished =>
      cases finished with
      | true => exact .error
      | false =>
          change Alike _ (if buf.isEmpty = true then _ else _) (if buf.isEmpty = true then _ else _)
          split
          · apply (h.perform _ hst).bind
            intro s₁ t₁ hst₁
            apply (writeEndIgnoring_alike h hst₁).bind
            intro s₂ t₂ hst₂
            exact .ok ⟨rfl, rfl, rfl, hst₂⟩
          · apply (h.perform _ hst).bind
            intro s₁ t₁ hst₁
            exact .ok ⟨rfl, rfl, rfl, hst₁⟩
  | brotli config calls =>
      apply (h.perform _ hst).bind
      intro s₁ t₁ hst₁
      exact .ok ⟨rfl, rfl, rfl, hst₁⟩
  | brotliFramed config frame =>
      apply (BrotliFrame.writeLoop_alike h (env.compressor config) buf.length buf frame hst).bind
      rintro ⟨frame₁, s₁⟩ ⟨_, t₁⟩ ⟨rfl, hst₁⟩
      exact .ok ⟨rfl, rfl, rfl, hst₁⟩
  | aes options state =>
      apply (state.write_alike h (env.cipher options) buf hst).bind
      rintro ⟨taken, state₁, s₁⟩ ⟨_, _, t₁⟩ ⟨rfl, rfl, hst₁⟩
      exact .ok ⟨rfl, rfl, rfl, hst₁⟩

theorem Encoder.write_alike (h : WriteAlike w v R) (encoder : Encoder) (buf : List UInt8) {s : σ}
    {t : τ} (hst : R s t) :
    Alike (SameCount (SameEncoder encoder.handsOn R)) (encoder.write env w buf s)
      (encoder.write env v buf t) := by
  have hwhole (hway : encoder.handsOn = .whole) :=
    (show Alike _ (encoder.write env w buf s) (encoder.write env v buf t) from
      Encoder.write_alike_of_whole h.all hway buf hst)
  cases encoder with
  | copy =>
      apply (h.write buf hst).bind
      rintro ⟨taken, s₁⟩ ⟨_, t₁⟩ ⟨rfl, hst₁⟩
      exact .ok ⟨rfl, rfl, rfl, hst₁⟩
  | delta distance seen =>
      apply (h.write (deltaEncode distance seen buf) hst).bind
      rintro ⟨taken, s₁⟩ ⟨_, t₁⟩ ⟨rfl, hst₁⟩
      exact .ok ⟨rfl, rfl, rfl, hst₁⟩
  | bcj _ _ _ => exact hwhole rfl
  | compressor _ _ _ => exact hwhole rfl
  | brotli _ _ => exact hwhole rfl
  | brotliFramed _ _ => exact hwhole rfl
  | aes _ _ => exact hwhole rfl

theorem Encoder.flush_alike (h : WriteAllAlike writeZero w v R) (encoder : Encoder) {s : σ}
    {t : τ} (hst : R s t) :
    Alike (SameEncoder encoder.handsOn R) (encoder.flush env w s) (encoder.flush env v t) := by
  cases encoder with
  | copy => exact (h.flush hst).bind fun _ _ hst' => .ok ⟨rfl, rfl, hst'⟩
  | delta distance seen => exact (h.flush hst).bind fun _ _ hst' => .ok ⟨rfl, rfl, hst'⟩
  | bcj method writer finished =>
      cases finished with
      | true => exact .error
      | false => exact (h.flush hst).bind fun _ _ hst' => .ok ⟨rfl, rfl, hst'⟩
  | compressor config calls finished =>
      cases finished with
      | true => exact .error
      | false => exact (h.perform _ hst).bind fun _ _ hst' => .ok ⟨rfl, rfl, hst'⟩
  | brotli config calls => exact (h.perform _ hst).bind fun _ _ hst' => .ok ⟨rfl, rfl, hst'⟩
  | brotliFramed config frame =>
      apply (frame.flush_alike h (env.compressor config) hst).bind
      rintro ⟨frame₁, s₁⟩ ⟨_, t₁⟩ ⟨rfl, hst₁⟩
      exact .ok ⟨rfl, rfl, hst₁⟩
  | aes options state =>
      apply (state.flush_alike h (env.cipher options) hst).bind
      rintro ⟨state₁, s₁⟩ ⟨_, t₁⟩ ⟨rfl, hst₁⟩
      exact .ok ⟨rfl, rfl, hst₁⟩

end

theorem Encoder.write_le {env : Encoders} {σ : Type} {w : ByteSink Fault σ} (h : w.Bounded)
    {encoder encoder' : Encoder} {buf : List UInt8} {s s' : σ} {taken : Nat}
    (hwrite : encoder.write env w buf s = .ok (taken, encoder', s')) : taken ≤ buf.length := by
  cases encoder with
  | copy =>
      obtain ⟨p, hp, hwrite⟩ := Result.bind_eq_ok.mp hwrite
      cases Result.pure_eq_ok.mp hwrite
      exact h hp
  | delta distance seen =>
      obtain ⟨p, hp, hwrite⟩ := Result.bind_eq_ok.mp hwrite
      cases Result.pure_eq_ok.mp hwrite
      exact (h hp).trans_eq (deltaEncode_length distance seen buf)
  | bcj method writer finished =>
      cases finished with
      | true => cases hwrite
      | false =>
          change (if buf.isEmpty = true then _ else _) = _ at hwrite
          split at hwrite
          · obtain ⟨_, -, hwrite⟩ := Result.bind_eq_ok.mp hwrite
            obtain ⟨_, -, hwrite⟩ := Result.bind_eq_ok.mp hwrite
            obtain ⟨_, -, hwrite⟩ := Result.bind_eq_ok.mp hwrite
            cases Result.pure_eq_ok.mp hwrite
            exact Nat.zero_le _
          · obtain ⟨_, -, hwrite⟩ := Result.bind_eq_ok.mp hwrite
            cases Result.pure_eq_ok.mp hwrite
            exact Nat.le_refl _
  | compressor config calls finished =>
      cases finished with
      | true => cases hwrite
      | false =>
          change (if buf.isEmpty = true then _ else _) = _ at hwrite
          split at hwrite
          · obtain ⟨_, -, hwrite⟩ := Result.bind_eq_ok.mp hwrite
            obtain ⟨_, -, hwrite⟩ := Result.bind_eq_ok.mp hwrite
            cases Result.pure_eq_ok.mp hwrite
            exact Nat.zero_le _
          · obtain ⟨_, -, hwrite⟩ := Result.bind_eq_ok.mp hwrite
            cases Result.pure_eq_ok.mp hwrite
            exact (env.compressor config).write_le calls buf
  | brotli config calls =>
      obtain ⟨_, -, hwrite⟩ := Result.bind_eq_ok.mp hwrite
      cases Result.pure_eq_ok.mp hwrite
      exact (env.compressor config).write_le calls buf
  | brotliFramed config frame =>
      obtain ⟨_, -, hwrite⟩ := Result.bind_eq_ok.mp hwrite
      cases Result.pure_eq_ok.mp hwrite
      exact Nat.le_refl _
  | aes options state =>
      obtain ⟨p, hp, hwrite⟩ := Result.bind_eq_ok.mp hwrite
      cases Result.pure_eq_ok.mp hwrite
      exact AesState.write_le h hp

section

variable {env : Encoders} {σ τ : Type} {w : ByteSink Fault σ} {v : ByteSink Fault τ}
  {R : σ → τ → Prop}

theorem counting_bounded (h : w.Bounded) : w.counting.Bounded := by
  rintro buf ⟨count, s⟩ taken s' hwrite
  cases hinner : w.write buf s with
  | error fault => simp only [ByteSink.counting, hinner, reduceCtorEq] at hwrite
  | ok p =>
      obtain ⟨taken', t⟩ := p
      simp only [ByteSink.counting, hinner, Except.ok.injEq, Prod.mk.injEq] at hwrite
      rw [← hwrite.1]
      exact h hinner

theorem stacked_bounded (h : w.Bounded) (depth : Nat) : (stacked w env depth).Bounded := by
  induction depth with
  | zero =>
      rintro buf ⟨layers, s⟩ taken s' hwrite
      obtain ⟨p, hp, hwrite⟩ := Result.bind_eq_ok.mp hwrite
      cases Result.pure_eq_ok.mp hwrite
      exact h hp
  | succ depth ih =>
      rintro buf ⟨layers, s⟩ taken s' hwrite
      cases layers with
      | nil => cases hwrite
      | cons layer below =>
          obtain ⟨p, hp, hwrite⟩ := Result.bind_eq_ok.mp hwrite
          cases Result.pure_eq_ok.mp hwrite
          exact Encoder.write_le (counting_bounded ih) hp

def SameLayers (ways : List HandsOn) (R : σ → τ → Prop) (p : List Layer × σ)
    (q : List Layer × τ) : Prop :=
  p.1 = q.1 ∧ p.1.map (fun layer => layer.1.handsOn) = ways ∧ R p.2 q.2

def underCopy (p : Nat × List Layer × σ) : List Layer × σ := ((.copy, p.1) :: p.2.1, p.2.2)

theorem stacked_copy (w : ByteSink Fault σ) (env : Encoders) (depth : Nat) :
    Behind (stacked w env depth).counting (stacked w env (depth + 1)) underCopy where
  write := by
    rintro buf ⟨counted, below, s⟩
    change (Encoder.copy.write env _ buf (counted, below, s) >>= _) = _
    rw [Encoder.write]
    cases (stacked w env depth).counting.write buf (counted, below, s) <;> rfl
  flush := by
    rintro ⟨counted, below, s⟩
    change (Encoder.copy.flush env _ (counted, below, s) >>= _) = _
    rw [Encoder.flush]
    cases (stacked w env depth).counting.flush (counted, below, s) <;> rfl

theorem placed_underCopy_iff {ways : List HandsOn} (p : List Layer × σ) (q : List Layer × τ) :
    Placed underCopy underCopy (Accounts.Same (SameLayers ways R)) p q ↔
      SameLayers (.offer :: ways) R p q := by
  constructor
  · rintro ⟨⟨counted, below, s⟩, ⟨_, _, t⟩, rfl, rfl, rfl, rfl, hways, hst⟩
    exact ⟨rfl, congrArg (HandsOn.offer :: ·) hways, hst⟩
  · obtain ⟨layers, s⟩ := p
    obtain ⟨_, t⟩ := q
    rintro ⟨rfl, hways, hst⟩
    cases layers with
    | nil => cases hways
    | cons layer below =>
        obtain ⟨encoder, counted⟩ := layer
        obtain ⟨hway, hbelow⟩ := List.cons.inj hways
        cases encoder with
        | copy => exact ⟨⟨counted, below, s⟩, ⟨counted, below, t⟩, rfl, rfl, rfl, rfl, hbelow, hst⟩
        | delta _ _ => cases hway
        | bcj _ _ _ => cases hway
        | compressor _ _ _ => cases hway
        | brotli _ _ => cases hway
        | brotliFramed _ _ => cases hway
        | aes _ _ => cases hway

theorem SameLayers.layer {way : HandsOn} {ways : List HandsOn} {p : Encoder × Nat × List Layer × σ}
    {q : Encoder × Nat × List Layer × τ}
    (h : SameEncoder way (Accounts.Same (SameLayers ways R)) p q) :
    SameLayers (way :: ways) R ((p.1, p.2.1) :: p.2.2.1, p.2.2.2)
      ((q.1, q.2.1) :: q.2.2.1, q.2.2.2) := by
  obtain ⟨encoder, counted, below, s⟩ := p
  obtain ⟨encoder', counted', below', t⟩ := q
  obtain ⟨rfl, rfl, rfl, rfl, rfl, hst⟩ := h
  exact ⟨rfl, rfl, hst⟩

theorem stacked_flush_alike {ways : List HandsOn} {way : HandsOn} {depth : Nat}
    (h : WriteAllAlike writeZero (stacked w env depth).counting (stacked v env depth).counting
      (Accounts.Same (SameLayers ways R)))
    {p : List Layer × σ} {q : List Layer × τ} (hpq : SameLayers (way :: ways) R p q) :
    Alike (SameLayers (way :: ways) R) ((stacked w env (depth + 1)).flush p)
      ((stacked v env (depth + 1)).flush q) := by
  obtain ⟨layers, s⟩ := p
  obtain ⟨_, t⟩ := q
  obtain ⟨rfl, hways, hst⟩ := hpq
  cases layers with
  | nil => cases hways
  | cons layer below =>
      obtain ⟨encoder, counted⟩ := layer
      obtain ⟨rfl, rfl⟩ := List.cons.inj hways
      have hbelow : Accounts.Same (SameLayers (below.map fun layer => layer.1.handsOn) R)
          (counted, below, s) (counted, below, t) := ⟨rfl, rfl, rfl, hst⟩
      exact (encoder.flush_alike h hbelow).bind fun _ _ hpq => .ok (SameLayers.layer hpq)

theorem stacked_whole {ways : List HandsOn} {depth : Nat}
    (h : WriteAllAlike writeZero (stacked w env depth).counting (stacked v env depth).counting
      (Accounts.Same (SameLayers ways R))) :
    WriteAlike (stacked w env (depth + 1)) (stacked v env (depth + 1))
      (SameLayers (.whole :: ways) R) where
  write := by
    rintro ⟨layers, s⟩ ⟨_, t⟩ buf ⟨rfl, hways, hst⟩
    cases layers with
    | nil => cases hways
    | cons layer below =>
        obtain ⟨encoder, counted⟩ := layer
        obtain ⟨hway, rfl⟩ := List.cons.inj hways
        have hbelow : Accounts.Same (SameLayers (below.map fun layer => layer.1.handsOn) R)
            (counted, below, s) (counted, below, t) := ⟨rfl, rfl, rfl, hst⟩
        apply (Encoder.write_alike_of_whole h hway buf hbelow).bind
        rintro ⟨taken, p⟩ ⟨_, q⟩ ⟨rfl, hpq⟩
        exact .ok ⟨rfl, SameLayers.layer hpq⟩
  flush hpq := stacked_flush_alike h hpq

theorem stacked_any {way : HandsOn} {ways : List HandsOn} {depth : Nat}
    (h : WriteAlike (stacked w env depth).counting (stacked v env depth).counting
      (Accounts.Same (SameLayers ways R))) :
    WriteAlike (stacked w env (depth + 1)) (stacked v env (depth + 1))
      (SameLayers (way :: ways) R) where
  write := by
    rintro ⟨layers, s⟩ ⟨_, t⟩ buf ⟨rfl, hways, hst⟩
    cases layers with
    | nil => cases hways
    | cons layer below =>
        obtain ⟨encoder, counted⟩ := layer
        obtain ⟨rfl, rfl⟩ := List.cons.inj hways
        have hbelow : Accounts.Same (SameLayers (below.map fun layer => layer.1.handsOn) R)
            (counted, below, s) (counted, below, t) := ⟨rfl, rfl, rfl, hst⟩
        apply (encoder.write_alike h buf hbelow).bind
        rintro ⟨taken, p⟩ ⟨_, q⟩ ⟨rfl, hpq⟩
        exact .ok ⟨rfl, SameLayers.layer hpq⟩
  flush hpq := stacked_flush_alike h.all hpq

theorem stacked_offers (h : WriteAllAlike writeZero w v R) (hw : w.Bounded) (hv : v.Bounded)
    {ways : List HandsOn} (hways : ∀ way ∈ ways, way = .offer) :
    WriteAllAlike writeZero (stacked w env ways.length) (stacked v env ways.length)
      (SameLayers ways R) := by
  induction ways with
  | nil =>
      have hbehind {ρ : Type} (u : ByteSink Fault ρ) :
          Behind u (stacked u env 0) (Prod.mk ([] : List Layer)) := {
        write := fun buf s => by
          change (u.write buf s >>= _) = _
          cases u.write buf s <;> rfl
        flush := fun s => by
          change (u.flush s >>= _) = _
          cases u.flush s <;> rfl }
      apply (h.behind (hbehind w) (hbehind v)).mono
      rintro ⟨layers, s⟩ ⟨layers', t⟩
      constructor
      · rintro ⟨s, t, ⟨⟩, ⟨⟩, hst⟩
        exact ⟨rfl, rfl, hst⟩
      · rintro ⟨rfl, hnil, hst⟩
        obtain rfl := List.map_eq_nil_iff.mp hnil
        exact ⟨s, t, rfl, rfl, hst⟩
  | cons way ways ih =>
      obtain ⟨rfl, hrest⟩ := List.forall_mem_cons.mp hways
      have hbelow := Accounts.writeAllAlike (ih hrest) (stacked_bounded hw ways.length).accounts
        (stacked_bounded hv ways.length).accounts
      exact (hbelow.behind (stacked_copy w env ways.length) (stacked_copy v env ways.length)).mono
        placed_underCopy_iff

theorem stacked_above_whole (h : WriteAllAlike writeZero w v R) (hw : w.Bounded)
    (hv : v.Bounded) {ways : List HandsOn}
    (hways : ways.reverse.find? (· ≠ .offer) = some .whole) :
    WriteAlike (stacked w env ways.length) (stacked v env ways.length) (SameLayers ways R) := by
  induction ways with
  | nil => cases hways
  | cons way ways ih =>
      rw [List.reverse_cons, List.find?_append] at hways
      cases hbelow : ways.reverse.find? (· ≠ .offer) with
      | some lowest =>
          rw [hbelow] at hways
          cases hways
          exact stacked_any (Accounts.writeAlike (ih hbelow) (stacked_bounded hw _).accounts
            (stacked_bounded hv _).accounts)
      | none =>
          rw [hbelow] at hways
          obtain rfl : way = .whole := by
            have := List.mem_of_find?_eq_some hways
            exact (List.mem_singleton.mp this).symm
          have hoffers : ∀ way ∈ ways, way = .offer := by
            intro way hway
            simpa using List.find?_eq_none.mp hbelow way (List.mem_reverse.mpr hway)
          exact stacked_whole (Accounts.writeAllAlike (stacked_offers h hw hv hoffers)
            (stacked_bounded hw _).accounts (stacked_bounded hv _).accounts)

end

def EncoderMethod.handsOn : EncoderMethod → HandsOn
  | .copy => .offer
  | .deltaFilter => .deltaOffer
  | _ => .whole

theorem addEncoder_handsOn {env : Encoders} {config : EncoderConfiguration} {encoder : Encoder}
    (h : addEncoder env config = .ok encoder) : encoder.handsOn = config.method.handsOn := by
  unfold addEncoder at h
  cases hmethod : config.method with
  | copy | deltaFilter | bcjX86Filter | bcjArmFilter | bcjArmThumbFilter | bcjArm64Filter
  | bcjIa64Filter | bcjSparcFilter | bcjPpcFilter | bcjRiscvFilter =>
      rw [hmethod] at h
      cases h
      rfl
  | lzma | lzma2 =>
      rw [hmethod] at h
      obtain ⟨_, -, h⟩ := Result.bind_eq_ok.mp h
      rw [Encoders.build_eq_ok h]
      rfl
  | ppmd | bzip2 | deflate | lz4 | zstd =>
      rw [hmethod] at h
      rw [Encoders.build_eq_ok h]
      rfl
  | brotli =>
      rw [hmethod] at h
      dsimp only at h
      split at h
      all_goals
        split at h
        · cases h
          rfl
        · cases h
          rfl
  | aes256Sha256 =>
      rw [hmethod] at h
      dsimp only at h
      split at h
      · rw [Encoders.build_eq_ok h]
        rfl
      · cases h
  | default | lzs | lizard | deflate64 | bcj2Filter =>
      rw [hmethod] at h
      cases h

theorem createWriter_handsOn {env : Encoders} {methods : List EncoderConfiguration} {chain : Chain}
    (h : createWriter env methods = .ok chain) :
    (chain.encoders.map Encoder.handsOn).reverse = methods.map fun mc => mc.method.handsOn := by
  obtain ⟨encoders, hencoders, hchain⟩ := addEncoders_encoders h
  rw [hchain, Chain.encoders, List.append_nil, List.map_reverse, List.reverse_reverse]
  clear hchain h
  induction hencoders with
  | nil => rfl
  | cons hadd _ ih => rw [List.map_cons, List.map_cons, addEncoder_handsOn hadd, ih]

section

variable {env : Encoders} {σ τ : Type} {w : ByteSink Fault σ} {v : ByteSink Fault τ}

theorem writeEach_alike {R : σ → τ → Prop} (h : WriteAllAlike writeZero w v R)
    (chunks : List (List UInt8)) {s : σ} {t : τ} (hst : R s t) :
    Alike R (writeEach w chunks s) (writeEach v chunks t) := by
  induction chunks generalizing s t with
  | nil => exact .ok hst
  | cons chunk chunks ih => exact (h.writeAll chunk hst).bind fun _ _ hst' => ih hst'

theorem drive_alike {R : σ → τ → Prop} (h : WriteAllAlike writeZero w v R)
    (chunks : List (List UInt8)) {s : σ} {t : τ} (hst : R s t) :
    Alike R (drive w chunks s) (drive v chunks t) := by
  unfold drive
  apply (writeEach_alike h chunks hst).bind
  intro s₁ t₁ h₁
  apply (h.flush h₁).bind
  intro s₂ t₂ h₂
  apply (h.finish h₂).bind
  rintro ⟨taken, s₃⟩ ⟨_, t₃⟩ ⟨rfl, h₃⟩
  exact .ok h₃

variable (env) in
/-- The chain between its wrappers, where the encoder next to the output is none that counts on
the whole of an offer being taken. -/
theorem wrappedChain_alike {R : σ → τ → Prop} (h : WriteAllAlike writeZero w v R) (hw : w.Bounded)
    (hv : v.Bounded) {ways : List HandsOn}
    (hways : ways.reverse.find? (· ≠ .offer) ≠ some .deltaOffer) :
    WriteAllAlike writeZero (wrappedChain w env ways.length) (wrappedChain v env ways.length)
      (Accounts.Same (SameLayers ways (Accounts.Same R))) := by
  have hbase := Accounts.writeAllAlike h (compressWrap_accounts hw) (compressWrap_accounts hv)
  have hstack : WriteAllAlike writeZero (stacked (compressWrap w) env ways.length)
      (stacked (compressWrap v) env ways.length) (SameLayers ways (Accounts.Same R)) := by
    cases hlowest : ways.reverse.find? (· ≠ .offer) with
    | none =>
        apply stacked_offers hbase (compressWrap_bounded hw) (compressWrap_bounded hv)
        intro way hway
        simpa using List.find?_eq_none.mp hlowest way (List.mem_reverse.mpr hway)
    | some lowest =>
        have hlowest' : lowest = .whole := by
          have hne := List.find?_some hlowest
          cases lowest with
          | offer => simp at hne
          | deltaOffer => exact absurd hlowest hways
          | whole => rfl
        rw [hlowest'] at hlowest
        exact (stacked_above_whole hbase (compressWrap_bounded hw) (compressWrap_bounded hv)
          hlowest).all
  exact Accounts.writeAllAlike hstack
    (compressWrap_accounts (stacked_bounded (compressWrap_bounded hw) _))
    (compressWrap_accounts (stacked_bounded (compressWrap_bounded hv) _))

end

theorem EncoderMethod.handsOn_eq_offer {method : EncoderMethod} :
    method.handsOn = .offer ↔ method = .copy := by
  cases method <;> simp [handsOn]

theorem EncoderMethod.handsOn_eq_deltaOffer {method : EncoderMethod} :
    method.handsOn = .deltaOffer ↔ method = .deltaFilter := by
  cases method <;> simp [handsOn]

theorem wrappedChain_alike_of_first {env : Encoders} {methods : List EncoderConfiguration}
    {chain : Chain} (hchain : createWriter env methods = .ok chain)
    (h : ∀ mc, methods.find? (·.method ≠ .copy) = some mc → mc.method ≠ .deltaFilter)
    {σ τ : Type} {w : ByteSink Fault σ} {v : ByteSink Fault τ} {isOpen : σ → Prop}
    {isOpen' : τ → Prop} {received : σ → List (List UInt8)} {received' : τ → List (List UInt8)}
    (hw : TakesParts w isOpen received) (hv : TakesParts v isOpen' received') :
    WriteAllAlike writeZero (wrappedChain w env chain.encoders.length)
      (wrappedChain v env chain.encoders.length)
      (Accounts.Same (SameLayers (chain.encoders.map Encoder.handsOn)
        (Accounts.Same (SameReceived isOpen received isOpen' received')))) := by
  have hfirst : (chain.encoders.map Encoder.handsOn).reverse.find? (· ≠ .offer) ≠
      some .deltaOffer := by
    rw [createWriter_handsOn hchain, List.find?_map]
    intro hdelta
    obtain ⟨mc, hmc, hhandsOn⟩ := Option.map_eq_some_iff.mp hdelta
    refine h mc ?_ (EncoderMethod.handsOn_eq_deltaOffer.mp hhandsOn)
    rw [← hmc]
    congr 1
    funext mc
    simp [EncoderMethod.handsOn_eq_offer]
  have hchained := wrappedChain_alike env (hw.alike hv) hw.bounded hv.bounded hfirst
  rwa [List.length_map] at hchained

theorem sinkIndependent_of_first {env : Encoders} {methods : List EncoderConfiguration}
    (h : ∀ mc, methods.find? (·.method ≠ .copy) = some mc → mc.method ≠ .deltaFilter) :
    SinkIndependent env methods := by
  intro chain hchain σ w isOpen received hw s chunks hopen hreceived
  have hchained := wrappedChain_alike_of_first hchain h hw takingAll_takesParts
  apply Alike.eq
  apply (drive_alike hchained chunks ⟨rfl, rfl, ?_, rfl, hopen, trivial, ?_⟩).map
  · rintro ⟨content, layers, compressed, s'⟩ ⟨_, _, _, t'⟩ ⟨rfl, ⟨rfl, -, rfl, -, -, hsame⟩⟩
    simp only [LeftBehind.of, hsame]
  · rw [List.map_map]
    rfl
  · exact congrArg List.flatten hreceived

end Sevenz
