import Sevenz.Lib.Runs
import Sevenz.Writer.ArchiveWriter

/-!
# Runs of pushes

A session is a writer on which calls are made one after the other, some of which may fail.
The pack offsets a reader works with are sums of the recorded sizes, so a pack range holds
the bytes of its push as long as the recorded sizes account for all of the output.
-/

namespace Sevenz

open Lib

/-- A call on an archive writer.  A block is prepared by one call of `prepare_block` and
pushed once; that it was prepared earlier makes no difference to the writer. -/
inductive Push where
  | archiveEntry (encoder : ContentEncoder) (entry : ArchiveEntry) (reader : Option Source)
  | archiveEntries (encoder : ContentEncoder) (entries : List ArchiveEntry)
      (sources : List SourceReader)
  | preparedBlock (encoder : ContentEncoder) (methods : List EncoderConfiguration)
      (entries : List ArchiveEntry) (sources : List SourceReader)
      (outputError : Option (Nat × IoError))
  | contentMethods (methods : List EncoderConfiguration)
  | encryptHeader (enabled : Bool)

def Source.content : Source → List UInt8
  | .ok (b :: bytes) :: reads => (b :: bytes) ++ Source.content reads
  | _ => []

namespace Push

variable (crc32 : List UInt8 → UInt32)

def perform (push : Push) (writer : ArchiveWriter) : Emits Fault ArchiveWriter :=
  match push with
  | archiveEntry encoder entry reader => writer.pushArchiveEntry crc32 encoder entry reader
  | archiveEntries encoder entries sources =>
      writer.pushArchiveEntries crc32 encoder entries sources
  | preparedBlock encoder methods entries sources outputError =>
      match prepareBlock crc32 encoder methods entries sources with
      | .error fault => .fail fault
      | .ok block => writer.pushPreparedBlock block outputError
  | contentMethods methods => pure (writer.setContentMethods methods)
  | encryptHeader enabled => pure (writer.setEncryptHeader enabled)

def contents : Push → Option (List (List UInt8))
  | archiveEntry _ entry (some source) => if entry.isDirectory then none else some [source.content]
  | archiveEntry _ _ none => none
  | archiveEntries _ _ sources => some (sources.map fun source => source.reader.content)
  | preparedBlock _ _ entries sources _ =>
      if entries.isEmpty then none else some (sources.map fun source => source.reader.content)
  | contentMethods _ => none
  | encryptHeader _ => none

end Push

/-- The writer after a call: what was put out stays, and an error changes nothing else. -/
def ArchiveWriter.after (writer : ArchiveWriter) (call : Emits Fault ArchiveWriter) :
    ArchiveWriter :=
  match call.result with
  | .ok writer' => { writer' with output := writer.output ++ call.bytes }
  | .error _ => { writer with output := writer.output ++ call.bytes }

/-- What a successful push of data put out, and the contents it was given. -/
structure StoredBlock where
  compressed : List UInt8
  contents : List (List UInt8)
  deriving DecidableEq

structure Session where
  writer : ArchiveWriter := .new
  stored : List StoredBlock := []

namespace Session

variable (crc32 : List UInt8 → UInt32)

/-- A call on the writer; the successful pushes of data are listed. -/
def step (session : Session) (push : Push) : Option Session :=
  let call := push.perform crc32 session.writer
  let stored :=
    match call.result, push.contents with
    | .ok _, some contents => [{ compressed := call.bytes, contents }]
    | _, _ => []
  some { writer := session.writer.after call, stored := session.stored ++ stored }

end Session

namespace ContentEncoder

variable {encoder : ContentEncoder} {crc32 : List UInt8 → UInt32} {context : EncodeContext}

theorem feedSource_congr (context' : EncodeContext) {reads : Source} {tally : SourceTally}
    {feed : encoder.Feed}
    {r : SourceTally × encoder.Feed}
    (h : (encoder.feedSource crc32 context reads tally feed).result = .ok r) :
    encoder.feedSource crc32 context' reads tally feed =
      encoder.feedSource crc32 context reads tally feed := by
  induction reads generalizing tally feed with
  | nil => rfl
  | cons read reads ih =>
      cases read with
      | error error => cases h
      | ok buf =>
          rw [feedSource] at h ⊢
          rw [feedSource]
          split at h
          · rename_i hempty
            rw [if_pos hempty, if_pos hempty]
          · rename_i hempty
            obtain ⟨state, hwrite, h⟩ := Emits.bind_result_eq_ok.mp h
            have hwrite := Emits.mapError_result_eq_ok.mp hwrite
            rw [if_neg hempty, if_neg hempty, Emits.mapError_of_ok hwrite,
              Emits.mapError_of_ok hwrite, Emits.bind_of_ok hwrite, Emits.bind_of_ok hwrite, ih h]

theorem feedSources_congr (context' : EncodeContext) {sources : List SourceReader}
    {feed : encoder.Feed}
    {r : List SourceTally × encoder.Feed}
    (h : (encoder.feedSources crc32 context sources feed).result = .ok r) :
    encoder.feedSources crc32 context' sources feed =
      encoder.feedSources crc32 context sources feed := by
  induction sources generalizing feed r with
  | nil => rfl
  | cons source sources ih =>
      rw [feedSources] at h ⊢
      rw [feedSources]
      obtain ⟨⟨tally, fed⟩, hsource, h⟩ := Emits.bind_result_eq_ok.mp h
      obtain ⟨⟨tallies, last⟩, hsources, -⟩ := Emits.bind_result_eq_ok.mp h
      rw [feedSource_congr context' hsource, Emits.bind_of_ok hsource,
        Emits.bind_of_ok hsource]
      dsimp only
      rw [ih hsources]

theorem encodeContent_congr (context' : EncodeContext) {methods : List EncoderConfiguration}
    {sources : List SourceReader} {encoded : Encoded}
    (h : (encoder.encodeContent crc32 context methods sources).result = .ok encoded) :
    encoder.encodeContent crc32 context' methods sources =
      encoder.encodeContent crc32 context methods sources := by
  rw [encodeContent] at h ⊢
  rw [encodeContent]
  obtain ⟨state, hcreate, h⟩ := Emits.bind_result_eq_ok.mp h
  obtain ⟨⟨tallies, feed⟩, hfeed, h⟩ := Emits.bind_result_eq_ok.mp h
  obtain ⟨flushed, hflush, h⟩ := Emits.bind_result_eq_ok.mp h
  obtain ⟨ended, hend, -⟩ := Emits.bind_result_eq_ok.mp h
  have hflush := Emits.mapError_result_eq_ok.mp hflush
  have hend := Emits.mapError_result_eq_ok.mp hend
  simp only [Emits.bind_of_ok hcreate, feedSources_congr context' hfeed,
    Emits.bind_of_ok hfeed, Emits.mapError_of_ok hflush, Emits.bind_of_ok hflush,
    Emits.mapError_of_ok hend]

/-- What a fresh source counts: the length of its content and the content's checksum. -/
def tallyOf (crc32 : List UInt8 → UInt32) (content : List UInt8) : SourceTally where
  size := content.length
  crcValue := crc32 content

theorem feedSource_spec {reads : Source} {tally tally' : SourceTally} {feed feed' : encoder.Feed}
    (h : (encoder.feedSource crc32 context reads tally feed).result = .ok (tally', feed')) :
    feed'.written = feed.written ++ reads.content ∧
      (tally.crcValue = 0 →
        tally' = { size := tally.size + reads.content.length, crc := []
                   crcValue := crc32 (tally.crc ++ reads.content) }) := by
  have hend : ∀ tally : SourceTally, tally.crcValue = 0 →
      tally.read crc32 [] = { tally with crc := [], crcValue := crc32 tally.crc } := by
    intro tally hzero
    simp [SourceTally.read, hzero]
  induction reads generalizing tally feed with
  | nil =>
      cases h
      simp only [Source.content, List.append_nil, List.length_nil, Nat.add_zero, true_and]
      exact hend tally
  | cons read reads ih =>
      match read with
      | .error error => cases h
      | .ok [] =>
          cases h
          simp only [Source.content, List.append_nil, List.length_nil, Nat.add_zero, true_and]
          exact hend tally
      | .ok (b :: bytes) =>
          obtain ⟨state, -, h⟩ := Emits.bind_result_eq_ok.mp h
          obtain ⟨hwritten, htally⟩ := ih h
          refine ⟨by rw [hwritten, Source.content, List.append_assoc], fun hzero => ?_⟩
          have hread : tally.read crc32 (b :: bytes) =
              { tally with
                size := tally.size + (b :: bytes).length, crc := tally.crc ++ b :: bytes } := by
            simp [SourceTally.read, hzero]
          rw [hread] at htally
          rw [htally hzero, Source.content, List.length_append, Nat.add_assoc, List.append_assoc]

theorem feedSources_spec {sources : List SourceReader} {tallies : List SourceTally}
    {feed feed' : encoder.Feed}
    (h : (encoder.feedSources crc32 context sources feed).result = .ok (tallies, feed')) :
    tallies.length = sources.length ∧
      feed'.written = feed.written ++ sources.flatMap (fun source => source.reader.content) ∧
      ((∀ source ∈ sources, source.tally = {}) →
        tallies = sources.map fun source => tallyOf crc32 source.reader.content) := by
  induction sources generalizing feed tallies with
  | nil =>
      cases h
      simp
  | cons source sources ih =>
      obtain ⟨⟨tally, fed⟩, hsource, h⟩ := Emits.bind_result_eq_ok.mp h
      obtain ⟨⟨rest, last⟩, hsources, h⟩ := Emits.bind_result_eq_ok.mp h
      cases h
      obtain ⟨hlength, hwritten, hrest⟩ := ih hsources
      obtain ⟨hfed, htally⟩ := feedSource_spec hsource
      refine ⟨by simp [hlength], by simp [hwritten, hfed], fun hfresh => ?_⟩
      have hzero := hfresh source List.mem_cons_self
      rw [hzero] at htally
      rw [htally rfl, hrest fun source hmem => hfresh source (List.mem_cons_of_mem _ hmem)]
      simp [tallyOf]

theorem encodeContent_spec {methods : List EncoderConfiguration} {sources : List SourceReader}
    {encoded : Encoded}
    (h : (encoder.encodeContent crc32 context methods sources).result = .ok encoded) :
    encoded.tallies.length = sources.length ∧
      encoded.written = sources.flatMap (fun source => source.reader.content) ∧
      ((∀ source ∈ sources, source.tally = {}) →
        encoded.tallies = sources.map fun source => tallyOf crc32 source.reader.content) := by
  obtain ⟨state, -, h⟩ := Emits.bind_result_eq_ok.mp h
  obtain ⟨⟨tallies, feed⟩, hfeed, h⟩ := Emits.bind_result_eq_ok.mp h
  obtain ⟨flushed, -, h⟩ := Emits.bind_result_eq_ok.mp h
  obtain ⟨ended, -, h⟩ := Emits.bind_result_eq_ok.mp h
  cases h
  exact feedSources_spec hfeed

end ContentEncoder

section

variable {crc32 : List UInt8 → UInt32} {encoder : ContentEncoder} {writer writer' : ArchiveWriter}

theorem ArchiveWriter.pushArchiveEntry_eq (crc32 : List UInt8 → UInt32)
    (encoder : ContentEncoder) (writer : ArchiveWriter) (entry : ArchiveEntry)
    (reader : Option Source) :
    writer.pushArchiveEntry crc32 encoder entry reader =
        pure { writer with files := writer.files ++ [entry.empty] } ∧
          (Push.archiveEntry encoder entry reader).contents = none ∨
      ∃ source, (Push.archiveEntry encoder entry reader).contents = some [source.content] ∧
        writer.pushArchiveEntry crc32 encoder entry reader =
          let encode := encoder.encodeContent crc32 (.entry entry.name) writer.contentMethods
            [.new source]
          { bytes := encode.bytes
            result := encode.result.map fun encoded =>
              { writer with
                packInfo := writer.packInfo.addStream (UInt64.ofNat encode.bytes.length)
                  (crc32 encode.bytes)
                unpackInfo := writer.unpackInfo.add writer.contentMethods encoded.sizes
                  (crc32 encoded.written)
                files := writer.files ++
                  [entry.encoded crc32 encoded.written encode.bytes] } } := by
  cases reader with
  | none => cases hdir : entry.isDirectory <;> simp [pushArchiveEntry, Push.contents, hdir]
  | some source =>
      cases hdir : entry.isDirectory with
      | true => simp [pushArchiveEntry, Push.contents, hdir]
      | false =>
          refine Or.inr ⟨source, by simp [Push.contents, hdir], ?_⟩
          rw [pushArchiveEntry]
          · exact Emits.listen_bind_pure _ _
          · exact hdir

theorem ArchiveWriter.pushArchiveEntries_eq {entries : List ArchiveEntry}
    {sources : List SourceReader} (hlen : sources.length = entries.length) :
    writer.pushArchiveEntries crc32 encoder entries sources =
      let encode := encoder.encodeContent crc32 (.entries entries) writer.contentMethods sources
      { bytes := encode.bytes
        result := encode.result.map fun encoded =>
          let entries := List.zipWith ArchiveEntry.tallied entries encoded.tallies
          { writer with
            packInfo := writer.packInfo.addStream (UInt64.ofNat encode.bytes.length)
              (crc32 encode.bytes)
            unpackInfo := writer.unpackInfo.addMultiple writer.contentMethods encoded.sizes
              (crc32 encoded.written) (UInt64.ofNat entries.length)
              (entries.map ArchiveEntry.size) (entries.map fun entry => entry.crc.toUInt32)
            files := writer.files ++ entries } } := by
  rw [pushArchiveEntries, if_neg (not_not_intro hlen)]
  exact Emits.listen_bind_pure _ _

theorem ArchiveWriter.length_of_pushArchiveEntries {entries : List ArchiveEntry}
    {sources : List SourceReader}
    (h : (writer.pushArchiveEntries crc32 encoder entries sources).result = .ok writer') :
    sources.length = entries.length := by
  by_contra hlen
  rw [pushArchiveEntries, if_pos hlen] at h
  cases h

theorem prepareBlock_eq_ok {methods : List EncoderConfiguration} {entries : List ArchiveEntry}
    {sources : List SourceReader} {block : PreparedBlock}
    (h : prepareBlock crc32 encoder methods entries sources = .ok block) :
    methods ≠ [] ∧ sources.length = entries.length ∧ ∃ encoded,
      let encode := encoder.encodeContent crc32 (.prepare entries) methods sources
      let entries := List.zipWith ArchiveEntry.tallied entries encoded.tallies
      encode.result = .ok encoded ∧
        block =
          { compressed := encode.bytes, compressedCrc := crc32 encode.bytes, entries, methods
            sizes := encoded.sizes, crc := crc32 encoded.written
            subStreamSizes := entries.map ArchiveEntry.size
            subStreamCrcs := entries.map fun entry => entry.crc.toUInt32 } := by
  obtain ⟨_, hmethods, h⟩ := Result.bind_eq_ok.mp h
  obtain ⟨_, hlen, h⟩ := Result.bind_eq_ok.mp h
  obtain ⟨encoded, hencode, h⟩ := Result.bind_eq_ok.mp h
  refine ⟨?_, ?_, encoded, hencode, Result.pure_eq_ok.mp h⟩
  · simpa using Result.rejectIf_eq_ok.mp hmethods
  · simpa using Result.rejectIf_eq_ok.mp hlen

theorem block_entries_ne {methods : List EncoderConfiguration} {entries : List ArchiveEntry}
    {sources : List SourceReader} {block : PreparedBlock} (hne : entries ≠ [])
    (h : prepareBlock crc32 encoder methods entries sources = .ok block) :
    block.entries.isEmpty = false := by
  obtain ⟨-, hlen, encoded, hencode, rfl⟩ := prepareBlock_eq_ok h
  have htallies := (ContentEncoder.encodeContent_spec hencode).1
  have hpos := List.length_pos_of_ne_nil hne
  rw [← Bool.not_eq_true, List.isEmpty_iff_length_eq_zero, List.length_zipWith]
  omega

end

def copyEncoder : ContentEncoder where
  State := Unit
  create _ := pure ()
  writeAll buf _ := Emits.put buf
  flush _ := pure ()
  writeEnd _ := pure ()
  moreSizes _ := []

section

variable {crc32 : List UInt8 → UInt32} {push : Push} {writer writer' : ArchiveWriter}

/-- A call that stores no data puts nothing out and records no pack stream. -/
theorem Push.perform_of_contents_none (h : (push.perform crc32 writer).result = .ok writer')
    (hnone : push.contents = none) :
    (push.perform crc32 writer).bytes = [] ∧ writer'.packInfo = writer.packInfo := by
  cases push with
  | archiveEntry encoder entry reader =>
      rcases writer.pushArchiveEntry_eq crc32 encoder entry reader with
        ⟨hplain, -⟩ | ⟨source, hsome, -⟩
      · rw [perform, hplain] at h ⊢
        cases h
        exact ⟨rfl, rfl⟩
      · rw [hnone] at hsome
        cases hsome
  | archiveEntries encoder entries sources => cases hnone
  | preparedBlock encoder methods entries sources outputError =>
      have hentries : entries = [] := by
        simpa [contents] using hnone
      rw [perform] at h ⊢
      cases hprepare : prepareBlock crc32 encoder methods entries sources with
      | error fault =>
          rw [hprepare] at h
          cases h
      | ok block =>
          obtain ⟨-, -, encoded, -, rfl⟩ := prepareBlock_eq_ok hprepare
          rw [hprepare] at h
          subst hentries
          cases h
          exact ⟨rfl, rfl⟩
  | contentMethods methods =>
      cases h
      refine ⟨rfl, ?_⟩
      unfold ArchiveWriter.setContentMethods
      split <;> rfl
  | encryptHeader enabled =>
      cases h
      exact ⟨rfl, rfl⟩

theorem Push.perform_of_contents_some {contents : List (List UInt8)}
    (h : (push.perform crc32 writer).result = .ok writer')
    (hsome : push.contents = some contents) :
    writer'.packInfo = writer.packInfo.addStream
      (UInt64.ofNat (push.perform crc32 writer).bytes.length)
      (crc32 (push.perform crc32 writer).bytes) := by
  cases push with
  | archiveEntry encoder entry reader =>
      rcases writer.pushArchiveEntry_eq crc32 encoder entry reader with
        ⟨-, hnone⟩ | ⟨source, -, hencode⟩
      · rw [hnone] at hsome
        cases hsome
      · rw [perform, hencode] at h ⊢
        obtain ⟨encoded, -, rfl⟩ := Emits.exceptMap_eq_ok.mp h
        rfl
  | archiveEntries encoder entries sources =>
      rw [perform] at h ⊢
      have hlen := ArchiveWriter.length_of_pushArchiveEntries h
      rw [ArchiveWriter.pushArchiveEntries_eq hlen] at h ⊢
      obtain ⟨encoded, -, rfl⟩ := Emits.exceptMap_eq_ok.mp h
      rfl
  | preparedBlock encoder methods entries sources outputError =>
      have hne : entries ≠ [] := by
        rintro rfl
        cases hsome
      rw [perform] at h ⊢
      cases hprepare : prepareBlock crc32 encoder methods entries sources with
      | error fault =>
          rw [hprepare] at h
          cases h
      | ok block =>
          have hblock := block_entries_ne hne hprepare
          have hcrc : block.compressedCrc = crc32 block.compressed := by
            obtain ⟨-, -, encoded, -, rfl⟩ := prepareBlock_eq_ok hprepare
            rfl
          rw [hprepare] at h
          cases outputError with
          | some failure =>
              simp [ArchiveWriter.pushPreparedBlock, hblock, Result.fail] at h
          | none =>
              simp only [ArchiveWriter.pushPreparedBlock, hblock] at h ⊢
              cases h
              exact congrArg (writer.packInfo.addStream _) hcrc
  | contentMethods methods => cases hsome
  | encryptHeader enabled => cases hsome

/-- Every byte after the start header belongs to a recorded pack stream. -/
def ArchiveWriter.Accounted (writer : ArchiveWriter) : Prop :=
  writer.output.length =
    signatureHeaderSize + (writer.packInfo.sizes.map UInt64.toNat).sum

def Push.Stores (crc32 : List UInt8 → UInt32) (push : Push) (writer : ArchiveWriter) : Prop :=
  push.contents.isSome = true ∧ (push.perform crc32 writer).result.isOk = true

/-- The recorded sizes are those of the stored blocks, which are in the output in order with
the bytes of failed calls after them. -/
structure Session.Packed (session : Session) : Prop where
  output : ∃ strays, session.writer.output = List.replicate signatureHeaderSize 0 ++
    ((session.stored.map StoredBlock.compressed).flatten ++ strays)
  sizes : session.writer.packInfo.sizes =
    session.stored.map fun block => UInt64.ofNat block.compressed.length
  pos : session.writer.packInfo.pos = 0

theorem sum_toNat_ofNat_le (blocks : List (List UInt8)) :
    (blocks.map fun block => (UInt64.ofNat block.length).toNat).sum ≤ blocks.flatten.length := by
  rw [List.length_flatten]
  apply List.sum_le_sum
  intro block _
  rw [UInt64.toNat_ofNat']
  exact Nat.mod_le _ _

theorem Session.step_cases {session session' : Session}
    (h : session.step crc32 push = some session') :
    let call := push.perform crc32 session.writer
    (∃ fault, call.result = .error fault ∧
        session' = { session with
          writer := { session.writer with output := session.writer.output ++ call.bytes } }) ∨
      ∃ writer', call.result = .ok writer' ∧
        ((push.contents = none ∧ session' = { session with
            writer := { writer' with output := session.writer.output ++ call.bytes } }) ∨
          ∃ contents, push.contents = some contents ∧ session' =
            { writer := { writer' with output := session.writer.output ++ call.bytes }
              stored := session.stored ++ [{ compressed := call.bytes, contents }] }) := by
  cases h
  intro call
  cases hcall : call.result with
  | error fault => simp [call, ArchiveWriter.after, hcall]
  | ok writer' =>
      cases hcontents : push.contents with
      | none => simp [call, ArchiveWriter.after, hcall]
      | some contents => simp [call, ArchiveWriter.after, hcall]

theorem Session.Packed.step {session session' : Session} (h : session.Packed)
    (hstep : session.step crc32 push = some session')
    (hclean : push.Stores crc32 session.writer → session.writer.Accounted) : session'.Packed := by
  obtain ⟨strays, houtput⟩ := h.output
  obtain ⟨fault, -, rfl⟩ | ⟨writer', hcall, ⟨hnone, rfl⟩ | ⟨contents, hsome, rfl⟩⟩ :=
    session.step_cases hstep
  · exact ⟨⟨strays ++ (push.perform crc32 session.writer).bytes, by simp [houtput]⟩, h.sizes, h.pos⟩
  · obtain ⟨hbytes, hinfo⟩ := push.perform_of_contents_none hcall hnone
    exact ⟨⟨strays, by simp [houtput, hbytes]⟩, by simp [hinfo, h.sizes], by simp [hinfo, h.pos]⟩
  · have hinfo := push.perform_of_contents_some hcall hsome
    have haccounted := hclean ⟨by simp [hsome], by rw [hcall]; rfl⟩
    have hstrays : strays = [] := by
      have hle := sum_toNat_ofNat_le (session.stored.map StoredBlock.compressed)
      rw [ArchiveWriter.Accounted, houtput, h.sizes] at haccounted
      simp only [List.length_append, List.length_replicate, List.map_map] at haccounted hle
      apply List.eq_nil_of_length_eq_zero
      change _ = _ + (session.stored.map fun block =>
        (UInt64.ofNat block.compressed.length).toNat).sum at haccounted
      change (session.stored.map fun block =>
        (UInt64.ofNat block.compressed.length).toNat).sum ≤ _ at hle
      omega
    refine ⟨⟨[], ?_⟩, ?_, ?_⟩
    · simp [houtput, hstrays]
    · simp [hinfo, PackInfo.addStream, h.sizes]
    · simp [hinfo, PackInfo.addStream, h.pos]

/-- The bytes of the `k`th block of a file, as the recorded sizes place them. -/
def packRange (info : PackInfo) (file : List UInt8) (k : Nat) : List UInt8 :=
  (file.drop (signatureHeaderSize + info.pos.toNat +
    offset (info.sizes.map UInt64.toNat) k)).take (info.sizes.getD k 0).toNat

/-- In a run whose pushes of data all start with the output accounted for, the pack ranges hold
what the pushes put out, so a decoder that restores a block from that restores it from the file. -/
theorem finish_packRange {pushes : List Push} {session : Session} {versions : CodecVersions}
    {encoder : ContentEncoder} {file : List UInt8}
    (hrun : run (Session.step crc32) {} pushes = some session)
    (hclean : EveryStep (Session.step crc32) {} pushes fun _ push before _ =>
      push.Stores crc32 before.writer → before.writer.Accounted)
    (hfinish : session.writer.finish versions crc32 encoder = .ok file)
    (hlen : file.length < 2 ^ 64) :
    session.writer.packInfo.len = session.stored.length ∧
      ∀ k block, session.stored[k]? = some block →
        packRange session.writer.packInfo file k = block.compressed ∧
          ∀ decode : List UInt8 → List (List UInt8), decode block.compressed = block.contents →
            decode (packRange session.writer.packInfo file k) = block.contents := by
  have hpacked : session.Packed := by
    apply EveryStep.invariant (I := fun _ session => session.Packed) _ _ (List.append_nil _).symm hrun
    · exact ⟨⟨[], rfl⟩, rfl, rfl⟩
    · exact hclean.mono fun _ _ _ _ _ hstep hclean h => h.step hstep hclean
  obtain ⟨header, hheader, hfile⟩ := Result.bind_eq_ok.mp hfinish
  obtain ⟨strays, houtput⟩ := hpacked.output
  have hsizes := hpacked.sizes
  refine ⟨by rw [PackInfo.len, hsizes, List.length_map], fun k block hblock => ?_⟩
  have hdrop := drop_archiveFile crc32 (session.writer.output.drop signatureHeaderSize ++
    (session.writer.writeEncodedHeader versions crc32 encoder).bytes) header
  rw [← Result.pure_eq_ok.mp hfile, houtput, List.drop_left' (List.length_replicate ..),
    List.append_assoc, List.append_assoc] at hdrop
  have hexact : ∀ block ∈ session.stored,
      (UInt64.ofNat block.compressed.length).toNat = block.compressed.length := by
    intro block hmem
    apply UInt64.toNat_ofNat_of_lt'
    apply Nat.lt_of_le_of_lt _ hlen
    calc block.compressed.length
        ≤ (session.stored.map StoredBlock.compressed).flatten.length :=
          (List.sublist_flatten_of_mem (List.mem_map_of_mem hmem)).length_le
      _ ≤ (file.drop signatureHeaderSize).length := by
          rw [hdrop, List.length_append]
          exact Nat.le_add_right _ _
      _ ≤ file.length := by
          rw [List.length_drop]
          exact Nat.sub_le _ _
  have hpiece : (session.stored.map StoredBlock.compressed)[k]? = some block.compressed := by
    rw [List.getElem?_map, hblock]
    rfl
  have hrange : packRange session.writer.packInfo file k = block.compressed := by
    have hsize : (session.writer.packInfo.sizes.getD k 0).toNat = block.compressed.length := by
      rw [hsizes, List.getD_eq_getElem?_getD, List.getElem?_map, hblock]
      exact hexact block (List.mem_of_getElem? hblock)
    have hcounts : session.writer.packInfo.sizes.map UInt64.toNat =
        (session.stored.map StoredBlock.compressed).map List.length := by
      rw [hsizes, List.map_map, List.map_map]
      exact List.map_congr_left hexact
    rw [packRange, hpacked.pos, hsize, hcounts, UInt64.toNat_zero, Nat.add_zero, ← List.drop_drop,
      hdrop]
    exact slice_flatten hpiece _
  exact ⟨hrange, fun decode hdecode => by rw [hrange, hdecode]⟩

end

def onePush (name : Char) (reads : Source) : Push :=
  .archiveEntry copyEncoder (.newFile [name]) (some reads)

def anyVersions : CodecVersions := { brotli := 1, zstdMajor := 1, zstdMinor := 5 }

def sessionAfter (pushes : List Push) : Session := (run (Session.step crc32) {} pushes).getD {}

def tornLast : List Push :=
  [onePush 'a' [.ok [7]], onePush 'b' [.ok [8], .error .unexpectedEof]]

theorem finish_packRange_tornLast : ∃ file,
    (sessionAfter tornLast).writer.finish anyVersions crc32 copyEncoder = .ok file ∧
      (sessionAfter tornLast).writer.packInfo.len = (sessionAfter tornLast).stored.length ∧
      ∀ k block, (sessionAfter tornLast).stored[k]? = some block →
        packRange (sessionAfter tornLast).writer.packInfo file k = block.compressed ∧
          ∀ decode : List UInt8 → List (List UInt8), decode block.compressed = block.contents →
            decode (packRange (sessionAfter tornLast).writer.packInfo file k) = block.contents := by
  have hfile : ((sessionAfter tornLast).writer.finish anyVersions crc32 copyEncoder).holds
      (fun file => decide (file.length < 2 ^ 64)) = true := by
    decide +kernel
  obtain ⟨file, hfinish, hlen⟩ := Result.exists_of_holds hfile
  have hrun : run (Session.step crc32) {} tornLast = some (sessionAfter tornLast) := rfl
  refine ⟨file, hfinish, finish_packRange hrun ?_ hfinish (of_decide_eq_true hlen)⟩
  have hfirst : Session.step crc32 {} (onePush 'a' [.ok [7]]) =
      some (sessionAfter [onePush 'a' [.ok [7]]]) := rfl
  have hsecond : Session.step crc32 (sessionAfter [onePush 'a' [.ok [7]]])
      (onePush 'b' [.ok [8], .error .unexpectedEof]) = some (sessionAfter tornLast) := rfl
  refine EveryStep.cons hfirst ?_ (EveryStep.cons hsecond ?_ EveryStep.nil)
  · intro _
    change _ = _
    decide +kernel
  · intro h
    exact absurd h.2 (by decide +kernel)

def tornFirst : List Push :=
  [onePush 'a' [.ok [7], .error .unexpectedEof], onePush 'b' [.ok [9]]]

theorem tornFirst_shifts_packRange : ∃ file,
    run (Session.step crc32) {} tornFirst = some (sessionAfter tornFirst) ∧
      (sessionAfter tornFirst).writer.finish anyVersions crc32 copyEncoder = .ok file ∧
      (sessionAfter tornFirst).stored = [{ compressed := [9], contents := [[9]] }] ∧
      packRange (sessionAfter tornFirst).writer.packInfo file 0 = [7] := by
  have hfile : ((sessionAfter tornFirst).writer.finish anyVersions crc32 copyEncoder).holds
      (fun file => decide (packRange (sessionAfter tornFirst).writer.packInfo file 0 = [7])) =
        true := by
    decide +kernel
  obtain ⟨file, hfinish, hrange⟩ := Result.exists_of_holds hfile
  exact ⟨file, rfl, hfinish, by decide +kernel, of_decide_eq_true hrange⟩

end Sevenz
