import Sevenz.Writer.Pushes
import Sevenz.Writer.ShortWrites

/-!
# Blocks prepared away from the writer

`push_archive_entries` encodes into the output of the archive and `prepare_block` into a vector.
The second keeps the books of the first, so the two leave the same writer as long as the chain of
encoders does not see how its output takes what it is offered.
-/

namespace Sevenz

open Lib

section

variable {ρ : Type} (writer : ρ → ByteSink Fault ρ) (received : ρ → List UInt8)

/-- What the output received in a call is what the call put out; nothing is said of one that
fails. -/
def emitted (s : ρ) (call : Result ρ) : Emits Fault ρ where
  bytes := match call with
    | .ok s' => (received s').drop (received s).length
    | .error _ => []
  result := call

def writerEncoder (start : List EncoderConfiguration → Result ρ) (moreSizes : ρ → List UInt64) :
    ContentEncoder where
  State := ρ
  create methods := { bytes := [], result := start methods }
  writeAll buf s := emitted received s ((writer s).writeAll writeZero buf s)
  flush s := emitted received s ((writer s).flush s)
  writeEnd s := emitted received s (((writer s).write [] s).map Prod.snd)
  moreSizes

end

section

variable {σ : Type} (w : ByteSink Fault σ) (received : σ → List (List UInt8)) (env : Encoders)

/-- What `create_writer` builds over an output in the given state, with both
`CompressWrapWriter`s. -/
def chainEncoder (s : σ) : ContentEncoder :=
  writerEncoder (fun state : WrapTally × List Layer × WrapTally × σ =>
      wrappedChain w env state.2.1.length)
    (fun state => (received state.2.2.2).flatten)
    (fun methods => do
      let chain ← createWriter env methods
      pure ({}, chain.encoders.map fun encoder => (encoder, 0), {}, s))
    (fun state => (state.2.1.map fun layer => UInt64.ofNat layer.2).reverse.tail)

def deltaEncoder (distance : Nat) (s : σ) : ContentEncoder :=
  writerEncoder (fun _ : List UInt8 × σ => deltaWriter w distance)
    (fun state => (received state.2).flatten) (fun _ => .ok ([], s)) (fun _ => [])

end

namespace ContentEncoder

structure CallsAlike (encoder encoder' : ContentEncoder) (methods : List EncoderConfiguration)
    (R : encoder.State → encoder'.State → Prop) : Prop where
  create : EmitsAlike R (encoder.create methods) (encoder'.create methods)
  writeAll : ∀ {s t} buf, R s t → EmitsAlike R (encoder.writeAll buf s) (encoder'.writeAll buf t)
  flush : ∀ {s t}, R s t → EmitsAlike R (encoder.flush s) (encoder'.flush t)
  writeEnd : ∀ {s t}, R s t → EmitsAlike R (encoder.writeEnd s) (encoder'.writeEnd t)

variable {encoder encoder' : ContentEncoder} {methods : List EncoderConfiguration}
  {R : encoder.State → encoder'.State → Prop} {crc32 : List UInt8 → UInt32}
  {context : EncodeContext}

def SameFeed {α : Type} (R : encoder.State → encoder'.State → Prop) (p : α × encoder.Feed)
    (q : α × encoder'.Feed) : Prop :=
  p.1 = q.1 ∧ p.2.written = q.2.written ∧ R p.2.state q.2.state

/-- The same is known of both blocks but for what the states say of the lower coders. -/
def SameBlock (R : encoder.State → encoder'.State → Prop) (a b : Encoded) : Prop :=
  a.tallies = b.tallies ∧ a.written = b.written ∧
    ∃ s t, R s t ∧ a.moreSizes = encoder.moreSizes s ∧ b.moreSizes = encoder'.moreSizes t

theorem CallsAlike.feedSource (h : encoder.CallsAlike encoder' methods R) (reads : Source)
    (tally : SourceTally) {feed : encoder.Feed} {feed' : encoder'.Feed}
    (hwritten : feed.written = feed'.written) (hstate : R feed.state feed'.state) :
    EmitsAlike (SameFeed R) (encoder.feedSource crc32 context reads tally feed)
      (encoder'.feedSource crc32 context reads tally feed') := by
  induction reads generalizing tally feed feed' with
  | nil => exact .pure ⟨rfl, hwritten, hstate⟩
  | cons read reads ih =>
      cases read with
      | error error => exact ⟨rfl, .error⟩
      | ok buf =>
          rw [ContentEncoder.feedSource, ContentEncoder.feedSource]
          split
          · exact .pure ⟨rfl, hwritten, hstate⟩
          · apply ((h.writeAll buf hstate).mapError _).bind
            intro s t hst
            apply ih
            · exact congrArg (· ++ buf) hwritten
            · exact hst

theorem CallsAlike.feedSources (h : encoder.CallsAlike encoder' methods R)
    (sources : List SourceReader) {feed : encoder.Feed} {feed' : encoder'.Feed}
    (hwritten : feed.written = feed'.written) (hstate : R feed.state feed'.state) :
    EmitsAlike (SameFeed R) (encoder.feedSources crc32 context sources feed)
      (encoder'.feedSources crc32 context sources feed') := by
  induction sources generalizing feed feed' with
  | nil => exact .pure ⟨rfl, hwritten, hstate⟩
  | cons source sources ih =>
      rw [ContentEncoder.feedSources, ContentEncoder.feedSources]
      apply (h.feedSource source.reader source.tally hwritten hstate).bind
      rintro ⟨tally, feed₁⟩ ⟨_, feed₁'⟩ ⟨rfl, hwritten₁, hstate₁⟩
      apply (ih hwritten₁ hstate₁).bind
      rintro ⟨tallies, feed₂⟩ ⟨_, feed₂'⟩ ⟨rfl, hwritten₂, hstate₂⟩
      exact .pure ⟨rfl, hwritten₂, hstate₂⟩

theorem CallsAlike.encodeContent (h : encoder.CallsAlike encoder' methods R)
    (crc32 : List UInt8 → UInt32) (context : EncodeContext) (sources : List SourceReader) :
    EmitsAlike (SameBlock R) (encoder.encodeContent crc32 context methods sources)
      (encoder'.encodeContent crc32 context methods sources) := by
  unfold ContentEncoder.encodeContent
  apply h.create.bind
  intro s t hst
  apply (h.feedSources sources rfl hst).bind
  rintro ⟨tallies, feed⟩ ⟨_, feed'⟩ ⟨rfl, hwritten, hstate⟩
  apply ((h.flush hstate).mapError _).bind
  intro s₁ t₁ h₁
  apply ((h.writeEnd h₁).mapError _).bind
  intro s₂ t₂ h₂
  exact .pure ⟨rfl, hwritten, s₂, t₂, h₂, rfl, rfl⟩

theorem CallsAlike.encodeContent_eq (h : encoder.CallsAlike encoder' methods R)
    (hsizes : ∀ s t, R s t → encoder.moreSizes s = encoder'.moreSizes t)
    (sources : List SourceReader) :
    encoder.encodeContent crc32 context methods sources =
      encoder'.encodeContent crc32 context methods sources := by
  obtain ⟨hbytes, hresult⟩ := h.encodeContent crc32 context sources
  have hsame : (encoder.encodeContent crc32 context methods sources).result =
      (encoder'.encodeContent crc32 context methods sources).result := by
    apply (hresult.mono _).eq
    rintro ⟨tallies, written, moreSizes⟩ ⟨_, _, moreSizes'⟩ ⟨rfl, rfl, s, t, hst, hmore, hmore'⟩
    dsimp only at hmore hmore'
    rw [hmore, hmore', hsizes s t hst]
  generalize encoder.encodeContent crc32 context methods sources = x at hbytes hsame ⊢
  generalize encoder'.encodeContent crc32 context methods sources = y at hbytes hsame ⊢
  cases x
  cases y
  cases hbytes
  cases hsame
  rfl

end ContentEncoder

section

variable {ρ ρ' : Type} {writer : ρ → ByteSink Fault ρ} {received : ρ → List UInt8}
  {writer' : ρ' → ByteSink Fault ρ'} {received' : ρ' → List UInt8} {R : ρ → ρ' → Prop}

theorem emitted_alike (hreceived : ∀ s t, R s t → received s = received' t) {s : ρ} {t : ρ'}
    (hst : R s t) {call : Result ρ} {call' : Result ρ'} (hcall : Alike R call call') :
    EmitsAlike R (emitted received s call) (emitted received' t call') := by
  cases hcall with
  | error => exact ⟨rfl, .error⟩
  | ok hst' =>
      refine ⟨?_, .ok hst'⟩
      unfold emitted
      dsimp only
      rw [hreceived _ _ hst, hreceived _ _ hst']

theorem writerEncoder_callsAlike
    (h : ∀ s t, R s t → WriteAllAlike writeZero (writer s) (writer' t) R)
    (hreceived : ∀ s t, R s t → received s = received' t) {methods : List EncoderConfiguration}
    {start : List EncoderConfiguration → Result ρ} {start' : List EncoderConfiguration → Result ρ'}
    (hstart : Alike R (start methods) (start' methods)) (moreSizes : ρ → List UInt64)
    (moreSizes' : ρ' → List UInt64) :
    (writerEncoder writer received start moreSizes).CallsAlike
      (writerEncoder writer' received' start' moreSizes') methods R where
  create := ⟨rfl, hstart⟩
  writeAll buf hst := emitted_alike hreceived hst ((h _ _ hst).writeAll buf hst)
  flush hst := emitted_alike hreceived hst ((h _ _ hst).flush hst)
  writeEnd hst :=
    emitted_alike hreceived hst (((h _ _ hst).finish hst).map fun _ _ hpq => hpq.2)

end

section

variable {ρ : Type} {writer : ρ → ByteSink Fault ρ} {received : ρ → List UInt8}

theorem writerEncoder_encodeContent {start : List EncoderConfiguration → Result ρ}
    {moreSizes : ρ → List UInt64} {methods : List EncoderConfiguration} {buf : List UInt8}
    {s₀ s₁ s₂ s₃ : ρ} {taken : Nat} (hne : buf ≠ []) (hstart : start methods = .ok s₀)
    (hwrite : (writer s₀).writeAll writeZero buf s₀ = .ok s₁)
    (hflush : (writer s₁).flush s₁ = .ok s₂) (hend : (writer s₂).write [] s₂ = .ok (taken, s₃))
    (crc32 : List UInt8 → UInt32) (context : EncodeContext) :
    ∃ encoded, (writerEncoder writer received start moreSizes).encodeContent crc32 context methods
        [.new [.ok buf]] =
      { bytes := (received s₁).drop (received s₀).length ++
          ((received s₂).drop (received s₁).length ++ (received s₃).drop (received s₂).length)
        result := .ok encoded } := by
  obtain ⟨b, bytes, rfl⟩ := List.exists_cons_of_ne_nil hne
  let tally := (({} : SourceTally).read crc32 (b :: bytes)).read crc32 []
  refine ⟨{ tallies := [tally], written := b :: bytes, moreSizes := moreSizes s₃ }, ?_⟩
  simp [ContentEncoder.encodeContent, ContentEncoder.feedSources, ContentEncoder.feedSource,
    SourceReader.new, writerEncoder, emitted, hstart, hwrite, hflush, hend, bind, Emits.mapError,
    Except.map, Except.mapError, tally]

end

theorem prepareBlock_of_ok {crc32 : List UInt8 → UInt32} {encoder : ContentEncoder}
    {methods : List EncoderConfiguration} {entries : List ArchiveEntry}
    {sources : List SourceReader} {bytes : List UInt8} {encoded : Encoded}
    (hmethods : methods ≠ []) (hlen : sources.length = entries.length)
    (h : encoder.encodeContent crc32 (.prepare entries) methods sources =
      { bytes, result := .ok encoded }) :
    ∃ block, prepareBlock crc32 encoder methods entries sources = .ok block ∧
      block.compressed = bytes := by
  unfold prepareBlock
  rw [Result.bind_of_ok (Result.rejectIf_eq_ok (u := ()) |>.mpr (by simpa using hmethods)),
    Result.bind_of_ok (Result.rejectIf_eq_ok (u := ()) |>.mpr (not_not_intro hlen)), h]
  exact ⟨_, rfl, rfl⟩

@[simp] theorem ArchiveWriter.after_output (writer : ArchiveWriter)
    (call : Emits Fault ArchiveWriter) :
    (writer.after call).output = writer.output ++ call.bytes := by
  unfold after
  split <;> rfl

@[simp] theorem ArchiveWriter.setContentMethods_output (methods : List EncoderConfiguration)
    (writer : ArchiveWriter) : (writer.setContentMethods methods).output = writer.output := by
  unfold setContentMethods
  split <;> rfl

theorem ArchiveWriter.setContentMethods_contentMethods {methods : List EncoderConfiguration}
    (hmethods : methods ≠ []) (writer : ArchiveWriter) :
    (writer.setContentMethods methods).contentMethods = methods := by
  rw [setContentMethods, dif_neg hmethods]

theorem ArchiveWriter.pushArchiveEntries_bytes {crc32 : List UInt8 → UInt32}
    {encoder : ContentEncoder} {entries : List ArchiveEntry} {sources : List SourceReader}
    (hlen : sources.length = entries.length) (writer : ArchiveWriter) :
    (writer.pushArchiveEntries crc32 encoder entries sources).bytes =
      (encoder.encodeContent crc32 (.entries entries) writer.contentMethods sources).bytes := by
  rw [pushArchiveEntries_eq hlen]

theorem ArchiveWriter.pushPreparedBlock_bytes {block : PreparedBlock}
    (h : block.entries.isEmpty = false) (writer : ArchiveWriter) :
    (writer.pushPreparedBlock block none).bytes = block.compressed := by
  rw [pushPreparedBlock, h]
  rfl

/-- A block that was prepared leaves the writer that encoding it in place leaves, on a writer with
its methods, where the encoder over the output encodes the sources as the one over a vector. -/
theorem ArchiveWriter.after_pushPreparedBlock {crc32 : List UInt8 → UInt32}
    {encoder inPlace : ContentEncoder} {methods : List EncoderConfiguration}
    {entries : List ArchiveEntry} {sources : List SourceReader} {block : PreparedBlock}
    (writer : ArchiveWriter) (hne : entries ≠ [])
    (h : prepareBlock crc32 encoder methods entries sources = .ok block)
    (hsame : inPlace.encodeContent crc32 (.entries entries) methods sources =
      encoder.encodeContent crc32 (.entries entries) methods sources) :
    let prepared := writer.pushPreparedBlock block none
    let solid := (writer.setContentMethods methods).pushArchiveEntries crc32 inPlace entries sources
    prepared.result.isOk = true ∧ solid.result.isOk = true ∧
      (writer.after prepared).setContentMethods methods =
        (writer.setContentMethods methods).after solid := by
  have hentries := block_entries_ne hne h
  obtain ⟨hmethods, hlen, encoded, hencode, rfl⟩ := prepareBlock_eq_ok h
  have hsolid := hsame.trans (ContentEncoder.encodeContent_congr (.entries entries) hencode)
  have hset : ∀ writer : ArchiveWriter, writer.setContentMethods methods =
      { writer with contentMethods := methods, contentMethods_ne := hmethods } := by
    intro writer
    rw [setContentMethods, dif_neg hmethods]
  rw [ArchiveWriter.pushArchiveEntries_eq hlen, pushPreparedBlock, hentries]
  simp only [hset, hsolid, hencode]
  exact ⟨rfl, rfl, rfl⟩

/-- On every output that takes some of each offer, and so all of a prepared block in the end, a
block that could be prepared with the methods is pushed, encoding its entries in place succeeds,
and both leave the same writer. -/
def PreparedAgrees (env : Encoders) (methods : List EncoderConfiguration) : Prop :=
  ∀ (crc32 : List UInt8 → UInt32) (writer : ArchiveWriter) (entries : List ArchiveEntry)
    (sources : List SourceReader) (block : PreparedBlock), entries ≠ [] →
    prepareBlock crc32 (chainEncoder takingAll id env []) methods entries sources = .ok block →
    ∀ {σ : Type} {w : ByteSink Fault σ} {isOpen : σ → Prop} {received : σ → List (List UInt8)},
      TakesParts w isOpen received → ∀ s : σ, isOpen s → received s = [] →
        let prepared := writer.pushPreparedBlock block none
        let solid := (writer.setContentMethods methods).pushArchiveEntries crc32
          (chainEncoder w received env s) entries sources
        prepared.result.isOk = true ∧ solid.result.isOk = true ∧
          (writer.after prepared).setContentMethods methods =
            (writer.setContentMethods methods).after solid

section

variable {env : Encoders} {methods : List EncoderConfiguration}

theorem preparedAgrees_of_first
    (h : ∀ mc, methods.find? (·.method ≠ .copy) = some mc → mc.method ≠ .deltaFilter) :
    PreparedAgrees env methods := by
  intro crc32 writer entries sources block hne hblock σ w isOpen received hw s hopen hreceived
  apply writer.after_pushPreparedBlock hne hblock
  obtain ⟨-, -, encoded, hencode, -⟩ := prepareBlock_eq_ok hblock
  obtain ⟨start, hstart, -⟩ := Emits.bind_result_eq_ok.mp hencode
  obtain ⟨chain, hchain, -⟩ := Result.bind_eq_ok.mp hstart
  have hchained := wrappedChain_alike_of_first hchain h hw takingAll_takesParts
  refine ContentEncoder.CallsAlike.encodeContent_eq (writerEncoder_callsAlike
    (R := Accounts.Same (SameLayers (chain.encoders.map Encoder.handsOn)
        (Accounts.Same (SameReceived isOpen received (fun _ => True) id)))) ?_ ?_ ?_ _ _) ?_ sources
  · rintro ⟨content, layers, compressed, s'⟩ ⟨_, _, _, t'⟩ ⟨rfl, rfl, hways, -⟩
    have hlength := congrArg List.length hways
    rw [List.length_map, List.length_map] at hlength
    dsimp only
    rw [hlength]
    exact hchained
  · rintro ⟨content, layers, compressed, s'⟩ ⟨_, _, _, t'⟩ ⟨rfl, rfl, -, rfl, -, -, hsame⟩
    exact hsame
  · rw [hchain]
    refine .ok ⟨rfl, rfl, ?_, rfl, hopen, trivial, congrArg List.flatten hreceived⟩
    rw [List.map_map]
    rfl
  · rintro ⟨content, layers, compressed, s'⟩ ⟨_, _, _, t'⟩ ⟨rfl, rfl, -⟩
    rfl

theorem chainEncoder_callsAlike_delta {n copies : Nat} {chain : Chain}
    (hchain : createWriter env methods = .ok chain)
    (hencoders : chain.encoders = .delta (n + 1) [] :: List.replicate copies .copy) {σ : Type}
    (w : ByteSink Fault σ) (received : σ → List (List UInt8)) (s : σ) :
    (chainEncoder w received env s).CallsAlike (deltaEncoder w received (n + 1) s) methods
      fun p q => DeltaOver (n + 1) copies (fun p s => p.2 = s) p.2 q := by
  apply writerEncoder_callsAlike
  · rintro ⟨content, layers, compressed, s'⟩ ⟨seen, t'⟩ ⟨hlayers, rfl⟩
    have hlength := congrArg List.length hlayers
    rw [List.length_map, List.length_cons, List.length_replicate] at hlength
    dsimp only at hlength ⊢
    rw [hlength]
    exact (wrappedChain_delta w env (n + 1) copies).all
  · rintro ⟨content, layers, compressed, s'⟩ ⟨seen, t'⟩ ⟨hlayers, rfl⟩
    rfl
  · rw [hchain]
    refine .ok ⟨?_, rfl⟩
    dsimp only
    rw [List.map_map, ← hencoders]
    exact List.map_id _

theorem deltaEncoder_encodeContent {w : ByteSink Fault (List (List UInt8))} {distance : Nat}
    {buf seen seen' : List UInt8} {received : List (List UInt8)} {taken : Nat} (hne : buf ≠ [])
    (hwrite : (deltaWriter w distance).writeAll writeZero buf ([], []) = .ok (seen, received))
    (hflush : w.flush received = .ok received)
    (hend : (deltaWriter w distance).write [] (seen, received) =
      .ok (taken, seen', received ++ [[]]))
    (methods : List EncoderConfiguration) (crc32 : List UInt8 → UInt32)
    (context : EncodeContext) :
    ∃ encoded, (deltaEncoder w id distance []).encodeContent crc32 context methods
        [.new [.ok buf]] = { bytes := received.flatten, result := .ok encoded } := by
  have hflush' : (deltaWriter w distance).flush (seen, received) = .ok (seen, received) :=
    Result.bind_of_ok hflush
  obtain ⟨encoded, hencode⟩ := @writerEncoder_encodeContent _ (fun _ => deltaWriter w distance)
    (fun state => state.2.flatten) (fun _ => .ok ([], [])) (fun _ => []) methods _ _ _ _ _ _ hne
    rfl hwrite hflush' hend crc32 context
  refine ⟨encoded, hencode.trans ?_⟩
  simp

theorem chainEncoder_encodeContent_delta {n copies : Nat} {chain : Chain}
    (hchain : createWriter env methods = .ok chain)
    (hencoders : chain.encoders = .delta (n + 1) [] :: List.replicate copies .copy)
    {w : ByteSink Fault (List (List UInt8))} {crc32 : List UInt8 → UInt32}
    {context : EncodeContext} {sources : List SourceReader} {bytes : List UInt8}
    {encoded : Encoded}
    (h : (deltaEncoder w id (n + 1) []).encodeContent crc32 context methods sources =
      { bytes, result := .ok encoded }) :
    ∃ encoded, (chainEncoder w id env []).encodeContent crc32 context methods sources =
      { bytes, result := .ok encoded } := by
  obtain ⟨hbytes, hresult⟩ := (chainEncoder_callsAlike_delta hchain hencoders w id
    []).encodeContent crc32 context sources
  rw [h] at hbytes hresult
  obtain ⟨a, ha, -⟩ := hresult.exists_of_ok
  refine ⟨a, ?_⟩
  generalize (chainEncoder w id env []).encodeContent crc32 context methods sources = x
    at hbytes ha ⊢
  cases x
  cases hbytes
  cases ha
  rfl

theorem not_preparedAgrees_delta (env : Encoders) {copies : List EncoderConfiguration}
    (hcopies : ∀ mc ∈ copies, mc.method = .copy) {config : EncoderConfiguration}
    (hdelta : config.method = .deltaFilter) : ¬ PreparedAgrees env (copies ++ [config]) := by
  intro hagrees
  have hmethods : copies ++ [config] ≠ [] := List.append_ne_nil_of_right_ne_nil _ (by simp)
  obtain ⟨chain, n, hchain, hencoders⟩ := createWriter_delta env hcopies hdelta
  let xs : List UInt8 := 0 :: List.replicate n 1
  have hlength : xs.length = n + 1 := by rw [List.length_cons, List.length_replicate]
  have hne : xs ++ [1] ≠ [] := List.cons_ne_nil _ _
  let entries := [ArchiveEntry.newFile ['a']]
  let sources := [SourceReader.new [.ok (xs ++ [1])]]
  obtain ⟨_, hall⟩ := deltaEncoder_encodeContent hne
    (deltaWriter_takingAll_writeAll (n + 1) xs 1) rfl rfl (copies ++ [config]) crc32
    (.prepare entries)
  obtain ⟨_, hparts⟩ := deltaEncoder_encodeContent hne
    (deltaWriter_takingUpTo_writeAll hlength 1) rfl rfl (copies ++ [config]) crc32
    (.entries entries)
  obtain ⟨_, hprepare⟩ := chainEncoder_encodeContent_delta hchain hencoders hall
  obtain ⟨_, hsolid⟩ := chainEncoder_encodeContent_delta hchain hencoders hparts
  have hlen : sources.length = entries.length := rfl
  obtain ⟨block, hblock, hcompressed⟩ := prepareBlock_of_ok hmethods hlen hprepare
  have hentries : entries ≠ [] := List.cons_ne_nil _ _
  obtain ⟨-, -, hsame⟩ := hagrees crc32 .new entries sources block hentries hblock
    (takingUpTo_takesParts (Nat.succ_pos n)) [] trivial rfl
  have houtput := congrArg ArchiveWriter.output hsame
  rw [ArchiveWriter.setContentMethods_output, ArchiveWriter.after_output,
    ArchiveWriter.after_output, ArchiveWriter.setContentMethods_output,
    ArchiveWriter.pushArchiveEntries_bytes hlen,
    ArchiveWriter.setContentMethods_contentMethods hmethods,
    ArchiveWriter.pushPreparedBlock_bytes (block_entries_ne hentries hblock)] at houtput
  have hbytes := (List.append_cancel_left houtput).symm.trans hcompressed
  rw [hsolid] at hbytes
  have hlast : deltaEncode (n + 1) (xs ++ [1]) [1] = deltaEncode (n + 1) xs [1] := by
    simpa using hbytes
  exact deltaEncode_ones_ne n hlast

/-- With the first methods, however many, both ways agree if and only if `Delta` is not the first
method after `Copy` methods. -/
theorem preparedAgrees_iff (env : Encoders) (methods : List EncoderConfiguration) :
    (∀ part, part <+: methods → PreparedAgrees env part) ↔
      ∀ mc, methods.find? (·.method ≠ .copy) = some mc → mc.method ≠ .deltaFilter := by
  constructor
  · intro hagrees mc hmc hdelta
    obtain ⟨-, copies, rest, rfl, hcopies⟩ := List.find?_eq_some_iff_append.mp hmc
    refine not_preparedAgrees_delta env (fun mc hmem => ?_) hdelta
      (hagrees (copies ++ [mc]) ⟨rest, by simp⟩)
    simpa using hcopies mc hmem
  · rintro h part ⟨rest, rfl⟩
    apply preparedAgrees_of_first
    intro mc hmc
    exact h mc (by rw [List.find?_append, hmc]; rfl)

end

/-- The second byte is 1 more than the first.  The block holds that, and the output that takes one
byte at a time is told that it is the same. -/
theorem deltaBlock_shortWrites : ∃ block,
    prepareBlock crc32 (chainEncoder takingAll id storingEncoders []) [deltaMethod]
        [.newFile ['a']] [.new [.ok [0, 1]]] = .ok block ∧
      block.compressed = [0, 1] ∧ TakesParts (takingUpTo 1) (fun _ => True) id ∧
      let prepared := ArchiveWriter.new.pushPreparedBlock block none
      let solid := (ArchiveWriter.new.setContentMethods [deltaMethod]).pushArchiveEntries crc32
        (chainEncoder (takingUpTo 1) id storingEncoders []) [.newFile ['a']]
        [.new [.ok [0, 1]]]
      prepared.result.isOk = true ∧ prepared.bytes = [0, 1] ∧
        solid.result.isOk = true ∧ solid.bytes = [0, 0] ∧
        (ArchiveWriter.new.after prepared).setContentMethods [deltaMethod] ≠
          (ArchiveWriter.new.setContentMethods [deltaMethod]).after solid ∧
        ¬ PreparedAgrees storingEncoders [deltaMethod] := by
  refine ⟨_, rfl, rfl, takingUpTo_takesParts Nat.one_pos, rfl, rfl, rfl, rfl, ?_, ?_⟩
  · intro hsame
    have houtput := congrArg ArchiveWriter.output hsame
    rw [ArchiveWriter.setContentMethods_output, ArchiveWriter.after_output,
      ArchiveWriter.after_output, ArchiveWriter.setContentMethods_output] at houtput
    exact absurd (List.append_cancel_left houtput) (by decide +kernel)
  · exact @not_preparedAgrees_delta storingEncoders [] (List.forall_mem_nil _) _ rfl

end Sevenz
