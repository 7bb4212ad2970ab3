import Mathlib.Data.List.ReduceOption
import Sevenz.Writer.Pushes
import Sevenz.Writer.SubStreams

/-!
# What a run of pushes records

Four lists grow side by side in a writer: the files, the pack streams, the blocks and the
sub-streams the blocks are made of.  Nothing but the order ties them together, and for the files
the flag that says which of them have a stream.
-/

namespace Sevenz

open Lib

def subStreamOf (crc32 : List UInt8 → UInt32) (content : List UInt8) : SubStream :=
  (UInt64.ofNat content.length, crc32 content)

def StoredBlock.subStreams (crc32 : List UInt8 → UInt32) (block : StoredBlock) : List SubStream :=
  block.contents.map (subStreamOf crc32)

def ArchiveEntry.subStream (file : ArchiveEntry) : SubStream := (file.size, file.crc.toUInt32)

/-- The entry says what was pushed for it: nothing, or a content with this sub-stream. -/
def ArchiveEntry.Owns (crc32 : List UInt8 → UInt32) (file : ArchiveEntry) :
    Option (List UInt8) → Prop
  | none => file.hasStream = false
  | some content => file.hasStream = true ∧ file.size = UInt64.ofNat content.length ∧
      file.crc = (crc32 content).toUInt64

namespace Push

def owned (push : Push) : List (Option (List UInt8)) :=
  match push.contents, push with
  | some contents, _ => contents.map some
  | none, archiveEntry _ _ _ => [none]
  | none, _ => []

def names : Push → List (List Char)
  | archiveEntry _ entry _ => [entry.name]
  | archiveEntries _ entries _ => entries.map ArchiveEntry.name
  | preparedBlock _ _ entries _ _ => entries.map ArchiveEntry.name
  | contentMethods _ => []
  | encryptHeader _ => []

/-- Which of these files have a stream.  Only the push of a single entry decides on it. -/
def marks : Push → List Bool
  | archiveEntry _ entry reader => [!entry.isDirectory && reader.isSome]
  | archiveEntries _ entries _ => entries.map ArchiveEntry.hasStream
  | preparedBlock _ _ entries _ _ => entries.map ArchiveEntry.hasStream
  | contentMethods _ => []
  | encryptHeader _ => []

def solidEntries : Push → List ArchiveEntry
  | archiveEntries _ entries _ => entries
  | preparedBlock _ _ entries _ _ => entries
  | _ => []

def solidSources : Push → List SourceReader
  | archiveEntries _ _ sources => sources
  | preparedBlock _ _ _ sources _ => sources
  | _ => []

def encoding (writer : ArchiveWriter) : Push → Option (ContentEncoder × List EncoderConfiguration)
  | archiveEntry encoder entry (some _) =>
      if entry.isDirectory then none else some (encoder, writer.contentMethods)
  | archiveEntry _ _ none => none
  | archiveEntries encoder _ _ => some (encoder, writer.contentMethods)
  | preparedBlock encoder methods entries _ _ =>
      if entries.isEmpty then none else some (encoder, methods)
  | contentMethods _ => none
  | encryptHeader _ => none

/-- The entries stored together are marked as having a stream, their readers were not read from
before, and a verifying reader can count what is stored.  A vector has a `usize` of entries. -/
structure Flagged (push : Push) : Prop where
  hasStream : ∀ entry ∈ push.solidEntries, entry.hasStream = true
  unread : ∀ source ∈ push.solidSources, source.tally = {}
  counted : ∀ contents, push.contents = some contents → contents.flatten.length < 2 ^ 63
  machine : push.solidEntries.length < 2 ^ 64

def Succeeds (crc32 : List UInt8 → UInt32) (push : Push) (writer : ArchiveWriter) : Prop :=
  (push.perform crc32 writer).result.isOk = true

end Push

/-- The block is an encoding of these contents, by an encoder that `uses` tells. -/
def BlockInfo.Made (crc32 : List UInt8 → UInt32)
    (uses : ContentEncoder → List EncoderConfiguration → Prop) (info : BlockInfo)
    (block : StoredBlock) : Prop :=
  info.methods ≠ [] ∧ ∃ encoder context sources encoded, uses encoder info.methods ∧
    (encoder.encodeContent crc32 context info.methods sources).result = .ok encoded ∧
    block.compressed = (encoder.encodeContent crc32 context info.methods sources).bytes ∧
    block.contents.flatten = encoded.written ∧ info.sizes = encoded.sizes

section

variable {crc32 : List UInt8 → UInt32}

theorem BlockInfo.Made.mono {uses uses' : ContentEncoder → List EncoderConfiguration → Prop}
    {info : BlockInfo} {block : StoredBlock} (h : info.Made crc32 uses block)
    (huses : ∀ encoder methods, uses encoder methods → uses' encoder methods) :
    info.Made crc32 uses' block := by
  obtain ⟨hne, encoder, context, sources, encoded, hencoder, hmade⟩ := h
  exact ⟨hne, encoder, context, sources, encoded, huses _ _ hencoder, hmade⟩

theorem ArchiveEntry.Owns.subStream {file : ArchiveEntry} {content : List UInt8}
    (h : file.Owns crc32 (some content)) : file.subStream = subStreamOf crc32 content := by
  obtain ⟨-, hsize, hcrc⟩ := h
  rw [ArchiveEntry.subStream, hsize, hcrc, UInt32.toUInt32_toUInt64]
  rfl

theorem tallied_owns {entries : List ArchiveEntry} {contents : List (List UInt8)}
    (hlength : contents.length = entries.length)
    (hstream : ∀ entry ∈ entries, entry.hasStream = true) :
    List.Forall₂ (ArchiveEntry.Owns crc32)
      (List.zipWith ArchiveEntry.tallied entries
        (contents.map (ContentEncoder.tallyOf crc32))) (contents.map some) := by
  induction contents generalizing entries with
  | nil =>
      rw [List.map_nil, List.zipWith_nil_right]
      exact .nil
  | cons content contents ih =>
      cases entries with
      | nil => cases hlength
      | cons entry entries =>
          obtain ⟨hfirst, hrest⟩ := List.forall_mem_cons.mp hstream
          exact .cons ⟨hfirst, rfl, rfl⟩ (ih (Nat.succ.inj hlength) hrest)

theorem subStreams_of_owns {files : List ArchiveEntry} {contents : List (List UInt8)}
    (h : List.Forall₂ (ArchiveEntry.Owns crc32) files (contents.map some)) :
    files.map ArchiveEntry.subStream = contents.map (subStreamOf crc32) := by
  rw [List.forall₂_map_right_iff] at h
  induction h with
  | nil => rfl
  | cons hfirst _ ih => rw [List.map_cons, List.map_cons, ih, hfirst.subStream]

theorem sumSizes_subStreamOf {contents : List (List UInt8)}
    (h : contents.flatten.length < 2 ^ 64) :
    sumSizes ((contents.map (subStreamOf crc32)).map Prod.fst) = contents.flatten.length := by
  induction contents with
  | nil => rfl
  | cons content contents ih =>
      rw [List.flatten_cons, List.length_append] at h
      have hfirst : (UInt64.ofNat content.length).toNat = content.length :=
        UInt64.toNat_ofNat_of_lt' (show content.length < 2 ^ 64 by omega)
      have hrest := ih (by omega)
      rw [sumSizes] at hrest
      rw [sumSizes, List.map_cons, List.map_cons, List.map_cons, List.sum_cons, hrest,
        List.flatten_cons, List.length_append]
      exact congrArg (· + _) hfirst

theorem added_of_owns {methods : List EncoderConfiguration} {encoded : Encoded} {crc : UInt32}
    {files : List ArchiveEntry} {contents : List (List UInt8)}
    (hfiles : List.Forall₂ (ArchiveEntry.Owns crc32) files (contents.map some))
    (hwritten : encoded.written = contents.flatten) (hcounted : contents.flatten.length < 2 ^ 63)
    (hcount : files.length < 2 ^ 64) :
    BlockInfo.Added
      { methods, sizes := encoded.sizes, crc, numSubUnpackStreams := UInt64.ofNat files.length
        subStreamSizes := files.map ArchiveEntry.size
        subStreamCrcs := files.map fun file => file.crc.toUInt32 }
      (contents.map (subStreamOf crc32)) := by
  have hstreams := subStreams_of_owns hfiles
  have hlength : files.length = contents.length := by
    rw [hfiles.length_eq, List.length_map]
  have hsizes : files.map ArchiveEntry.size = (contents.map (subStreamOf crc32)).map Prod.fst := by
    rw [← hstreams, List.map_map]
    rfl
  have hcrcs : (files.map fun file => file.crc.toUInt32) =
      (contents.map (subStreamOf crc32)).map Prod.snd := by
    rw [← hstreams, List.map_map]
    rfl
  rw [hsizes, hcrcs]
  refine @BlockInfo.Added.addMultiple _ _ _ (UInt64.ofNat encoded.written.length) _ _ ?_ ?_ ?_
  · exact List.getLast?_concat
  · rw [List.length_map, ← hlength]
    exact UInt64.toNat_ofNat_of_lt' hcount
  · rw [sumSizes_subStreamOf (by omega), hwritten]
    exact (UInt64.toNat_ofNat_of_lt' (show contents.flatten.length < 2 ^ 64 by omega)).symm

/-- What a push of data leaves behind: its block, and its files with it. -/
structure Push.Adds (crc32 : List UInt8 → UInt32) (push : Push) (writer writer' : ArchiveWriter)
    (contents : List (List UInt8)) (info : BlockInfo) (files : List ArchiveEntry) : Prop where
  blocks : writer'.unpackInfo.blocks = writer.unpackInfo.blocks ++ [info]
  entries : writer'.files = writer.files ++ files
  made : info.Made crc32 (fun encoder methods => push.encoding writer = some (encoder, methods))
    { compressed := (push.perform crc32 writer).bytes, contents }
  added : push.Flagged → info.Added (contents.map (subStreamOf crc32))
  owns : push.Flagged → List.Forall₂ (ArchiveEntry.Owns crc32) files (contents.map some)

variable {push : Push} {writer writer' : ArchiveWriter} {contents : List (List UInt8)}

theorem Push.adds_archiveEntry {encoder : ContentEncoder} {entry : ArchiveEntry}
    {reader : Option Source}
    (h : ((Push.archiveEntry encoder entry reader).perform crc32 writer).result = .ok writer')
    (hsome : (Push.archiveEntry encoder entry reader).contents = some contents) :
    ∃ info files, (Push.archiveEntry encoder entry reader).Adds crc32 writer writer' contents
      info files := by
  rcases writer.pushArchiveEntry_eq crc32 encoder entry reader with
    ⟨-, hnone⟩ | ⟨source, hsource, hencode⟩
  · rw [hnone] at hsome
    cases hsome
  · obtain rfl := Option.some.inj (hsource.symm.trans hsome)
    have hbytes : ((Push.archiveEntry encoder entry reader).perform crc32 writer).bytes =
        (encoder.encodeContent crc32 (.entry entry.name) writer.contentMethods
          [.new source]).bytes := by
      rw [perform, hencode]
    have hencoding : (Push.archiveEntry encoder entry reader).encoding writer =
        some (encoder, writer.contentMethods) := by
      cases reader with
      | none => cases hsource
      | some _ =>
          rw [Push.contents] at hsource
          rw [encoding]
          split at hsource
          · cases hsource
          · rename_i hdirectory
            rw [if_neg hdirectory]
    rw [perform, hencode] at h
    obtain ⟨encoded, hencoded, rfl⟩ := Emits.exceptMap_eq_ok.mp h
    obtain ⟨-, hwritten, -⟩ := ContentEncoder.encodeContent_spec hencoded
    rw [List.flatMap_singleton] at hwritten
    have hcontent : (SourceReader.new source).reader.content = source.content := rfl
    rw [hcontent] at hwritten
    have hflatten : [source.content].flatten = source.content := List.flatten_singleton
    refine ⟨_, _, rfl, rfl, ⟨writer.contentMethods_ne, encoder, _, _, encoded, hencoding,
      hencoded, hbytes, hflatten.trans hwritten.symm, rfl⟩, fun _ => ?_, fun _ => ?_⟩
    · rw [hwritten]
      exact .add (hwritten ▸ List.getLast?_concat)
    · rw [hwritten]
      exact .cons ⟨rfl, rfl, rfl⟩ .nil

theorem Push.adds_solid {encoder : ContentEncoder} {context : EncodeContext}
    {methods : List EncoderConfiguration} {entries : List ArchiveEntry}
    {sources : List SourceReader} {encoded : Encoded}
    (hencoded : (encoder.encodeContent crc32 context methods sources).result = .ok encoded)
    (hlength : sources.length = entries.length) (hmethods : methods ≠ [])
    (hbytes : (push.perform crc32 writer).bytes =
      (encoder.encodeContent crc32 context methods sources).bytes)
    (hencoding : push.encoding writer = some (encoder, methods))
    (hentries : push.solidEntries = entries) (hsources : push.solidSources = sources)
    (hcontents : push.contents = some (sources.map fun source => source.reader.content))
    (hblocks : writer'.unpackInfo.blocks = writer.unpackInfo.blocks ++
      [{ methods, sizes := encoded.sizes, crc := crc32 encoded.written
         numSubUnpackStreams :=
           UInt64.ofNat (List.zipWith ArchiveEntry.tallied entries encoded.tallies).length
         subStreamSizes :=
           (List.zipWith ArchiveEntry.tallied entries encoded.tallies).map ArchiveEntry.size
         subStreamCrcs := (List.zipWith ArchiveEntry.tallied entries encoded.tallies).map
           fun file => file.crc.toUInt32 }])
    (hfiles : writer'.files = writer.files ++
      List.zipWith ArchiveEntry.tallied entries encoded.tallies) :
    ∃ info files, push.Adds crc32 writer writer'
      (sources.map fun source => source.reader.content) info files := by
  obtain ⟨htallies, hwritten, hfresh⟩ := ContentEncoder.encodeContent_spec hencoded
  rw [List.flatMap_def] at hwritten
  have howns : push.Flagged → List.Forall₂ (ArchiveEntry.Owns crc32)
      (List.zipWith ArchiveEntry.tallied entries encoded.tallies)
      ((sources.map fun source => source.reader.content).map some) := by
    intro hflagged
    rw [hfresh (hsources ▸ hflagged.unread)]
    have howned := @tallied_owns crc32 entries (sources.map fun source => source.reader.content)
      (by rwa [List.length_map]) (hentries ▸ hflagged.hasStream)
    rwa [List.map_map] at howned
  refine ⟨_, _, hblocks, hfiles, ⟨hmethods, encoder, context, sources, encoded, hencoding,
    hencoded, hbytes, hwritten.symm, rfl⟩, fun hflagged => ?_, howns⟩
  have hcount : (List.zipWith ArchiveEntry.tallied entries encoded.tallies).length =
      entries.length := by
    rw [List.length_zipWith, htallies, hlength, Nat.min_self]
  exact added_of_owns (howns hflagged) hwritten (hflagged.counted _ hcontents)
    (hcount ▸ hentries ▸ hflagged.machine)

theorem Push.adds (h : (push.perform crc32 writer).result = .ok writer')
    (hsome : push.contents = some contents) :
    ∃ info files, push.Adds crc32 writer writer' contents info files := by
  cases push with
  | archiveEntry encoder entry reader => exact Push.adds_archiveEntry h hsome
  | archiveEntries encoder entries sources =>
      obtain rfl := Option.some.inj hsome
      have hlength := ArchiveWriter.length_of_pushArchiveEntries h
      have hperform :=
        @ArchiveWriter.pushArchiveEntries_eq crc32 encoder writer entries sources hlength
      have hbytes : ((Push.archiveEntries encoder entries sources).perform crc32 writer).bytes =
          (encoder.encodeContent crc32 (.entries entries) writer.contentMethods sources).bytes := by
        rw [perform, hperform]
      rw [perform, hperform] at h
      obtain ⟨encoded, hencoded, rfl⟩ := Emits.exceptMap_eq_ok.mp h
      exact Push.adds_solid hencoded hlength writer.contentMethods_ne hbytes rfl rfl rfl rfl rfl rfl
  | preparedBlock encoder methods entries sources outputError =>
      have hne : entries.isEmpty = false := by
        rw [Push.contents] at hsome
        split at hsome
        · cases hsome
        · rename_i hentries
          exact Bool.eq_false_iff.mpr hentries
      have hcontents : (Push.preparedBlock encoder methods entries sources outputError).contents =
          some (sources.map fun source => source.reader.content) := by
        rw [Push.contents, hne]
        rfl
      obtain rfl := Option.some.inj (hcontents.symm.trans hsome)
      rw [perform] at h
      cases hprepare : prepareBlock crc32 encoder methods entries sources with
      | error fault =>
          rw [hprepare] at h
          cases h
      | ok block =>
          have hblock := block_entries_ne (List.isEmpty_eq_false_iff.mp hne) hprepare
          obtain ⟨hmethods, hlength, encoded, hencoded, rfl⟩ := prepareBlock_eq_ok hprepare
          rw [hprepare] at h
          have hencoding :
              (Push.preparedBlock encoder methods entries sources outputError).encoding writer =
                some (encoder, methods) := by
            rw [encoding, hne]
            rfl
          cases outputError with
          | some failure =>
              simp [ArchiveWriter.pushPreparedBlock, hblock, Result.fail] at h
          | none =>
              have hbytes : ((Push.preparedBlock encoder methods entries sources none).perform
                  crc32 writer).bytes =
                    (encoder.encodeContent crc32 (.prepare entries) methods sources).bytes := by
                rw [perform, hprepare]
                simp only [ArchiveWriter.pushPreparedBlock, hblock]
                rfl
              simp only [ArchiveWriter.pushPreparedBlock, hblock] at h
              cases h
              exact Push.adds_solid hencoded hlength hmethods hbytes hencoding rfl rfl hcontents
                rfl rfl
  | contentMethods methods => cases hsome
  | encryptHeader enabled => cases hsome

theorem map_tallied {β : Type} {f : ArchiveEntry → β}
    (hf : ∀ entry tally, f (ArchiveEntry.tallied entry tally) = f entry)
    {entries : List ArchiveEntry} {tallies : List SourceTally}
    (h : tallies.length = entries.length) :
    (List.zipWith ArchiveEntry.tallied entries tallies).map f = entries.map f := by
  induction entries generalizing tallies with
  | nil => rfl
  | cons entry entries ih =>
      cases tallies with
      | nil => cases h
      | cons tally tallies =>
          rw [List.zipWith_cons_cons, List.map_cons, List.map_cons, ih (Nat.succ.inj h), hf]

theorem Push.files_eq (h : (push.perform crc32 writer).result = .ok writer') :
    ∃ files, writer'.files = writer.files ++ files ∧ files.map ArchiveEntry.name = push.names ∧
      files.map ArchiveEntry.hasStream = push.marks := by
  cases push with
  | archiveEntry encoder entry reader =>
      rw [perform] at h
      rcases writer.pushArchiveEntry_eq crc32 encoder entry reader with
        ⟨hplain, hnone⟩ | ⟨source, hsome, hencode⟩
      · rw [hplain] at h
        cases h
        refine ⟨_, rfl, rfl, ?_⟩
        rw [marks]
        cases reader with
        | none => simp [ArchiveEntry.empty]
        | some source =>
            have hdirectory : entry.isDirectory = true := by
              simpa [contents] using hnone
            simp [hdirectory, ArchiveEntry.empty]
      · rw [hencode] at h
        obtain ⟨encoded, -, rfl⟩ := Emits.exceptMap_eq_ok.mp h
        refine ⟨_, rfl, rfl, ?_⟩
        rw [marks]
        cases reader with
        | none => cases hsome
        | some source =>
            have hdirectory : entry.isDirectory = false := by
              rw [contents] at hsome
              split at hsome
              · cases hsome
              · rename_i hnot
                exact Bool.eq_false_iff.mpr hnot
            simp [hdirectory, ArchiveEntry.encoded]
  | archiveEntries encoder entries sources =>
      rw [perform] at h
      have hlength := ArchiveWriter.length_of_pushArchiveEntries h
      rw [ArchiveWriter.pushArchiveEntries_eq hlength] at h
      obtain ⟨encoded, hencoded, rfl⟩ := Emits.exceptMap_eq_ok.mp h
      obtain ⟨htallies, -, -⟩ := ContentEncoder.encodeContent_spec hencoded
      exact ⟨_, rfl, map_tallied (fun _ _ => rfl) (htallies.trans hlength),
        map_tallied (fun _ _ => rfl) (htallies.trans hlength)⟩
  | preparedBlock encoder methods entries sources outputError =>
      rw [perform] at h
      cases hprepare : prepareBlock crc32 encoder methods entries sources with
      | error fault =>
          rw [hprepare] at h
          cases h
      | ok block =>
          obtain ⟨-, hlength, encoded, hencoded, rfl⟩ := prepareBlock_eq_ok hprepare
          obtain ⟨htallies, -, -⟩ := ContentEncoder.encodeContent_spec hencoded
          have hsame {β : Type} {f : ArchiveEntry → β}
              (hf : ∀ entry tally, f (ArchiveEntry.tallied entry tally) = f entry) :
              (List.zipWith ArchiveEntry.tallied entries encoded.tallies).map f = entries.map f :=
            map_tallied hf (htallies.trans hlength)
          rw [hprepare] at h
          simp only [ArchiveWriter.pushPreparedBlock] at h
          split at h
          · rename_i hempty
            cases h
            have hnil : entries = [] := by
              have hname := hsame (f := ArchiveEntry.name) fun _ _ => rfl
              rw [List.isEmpty_iff.mp hempty, List.map_nil] at hname
              exact List.map_eq_nil_iff.mp hname.symm
            subst hnil
            exact ⟨[], (List.append_nil _).symm, rfl, rfl⟩
          · cases outputError with
            | some failure => simp [Result.fail] at h
            | none =>
                cases h
                exact ⟨_, rfl, hsame fun _ _ => rfl, hsame fun _ _ => rfl⟩
  | contentMethods methods =>
      cases h
      refine ⟨[], ?_, rfl, rfl⟩
      rw [List.append_nil]
      unfold ArchiveWriter.setContentMethods
      split <;> rfl
  | encryptHeader enabled =>
      cases h
      exact ⟨[], (List.append_nil _).symm, rfl, rfl⟩

theorem Push.adds_none (h : (push.perform crc32 writer).result = .ok writer')
    (hnone : push.contents = none) :
    writer'.unpackInfo = writer.unpackInfo ∧ ∃ files, writer'.files = writer.files ++ files ∧
      List.Forall₂ (ArchiveEntry.Owns crc32) files push.owned := by
  cases push with
  | archiveEntry encoder entry reader =>
      rcases writer.pushArchiveEntry_eq crc32 encoder entry reader with
        ⟨hplain, -⟩ | ⟨source, hsome, -⟩
      · rw [perform, hplain] at h
        cases h
        refine ⟨rfl, _, rfl, ?_⟩
        simp only [owned, hnone]
        exact .cons rfl .nil
      · rw [hnone] at hsome
        cases hsome
  | archiveEntries encoder entries sources => cases hnone
  | preparedBlock encoder methods entries sources outputError =>
      have hentries : entries = [] := by
        simpa [contents] using hnone
      have howned : (Push.preparedBlock encoder methods entries sources outputError).owned = [] := by
        simp only [owned, hnone]
      rw [perform] at h
      cases hprepare : prepareBlock crc32 encoder methods entries sources with
      | error fault =>
          rw [hprepare] at h
          cases h
      | ok block =>
          obtain ⟨-, -, encoded, -, rfl⟩ := prepareBlock_eq_ok hprepare
          rw [hprepare] at h
          subst hentries
          cases h
          exact ⟨rfl, [], (List.append_nil _).symm, howned ▸ .nil⟩
  | contentMethods methods =>
      cases h
      refine ⟨?_, [], ?_, .nil⟩
      · unfold ArchiveWriter.setContentMethods
        split <;> rfl
      · rw [List.append_nil]
        unfold ArchiveWriter.setContentMethods
        split <;> rfl
  | encryptHeader enabled =>
      cases h
      exact ⟨rfl, [], (List.append_nil _).symm, .nil⟩

end

/-- The lists of a writer go together: each stored block has a pack stream and a block record in
its place, its contents are the sub-streams of that record, and these belong, in order, to the
entries with a stream.  Beside each entry stands what was pushed for it. -/
structure Session.InOrder (crc32 : List UInt8 → UInt32) (session : Session)
    (owned : List (Option (List UInt8))) : Prop where
  packSizes : session.writer.packInfo.sizes =
    session.stored.map fun block => UInt64.ofNat block.compressed.length
  packCrcs : session.writer.packInfo.crcs = session.stored.map fun block => crc32 block.compressed
  blocks : List.Forall₂ (fun info block => info.Added (block.subStreams crc32))
    session.writer.unpackInfo.blocks session.stored
  streams : (session.writer.files.filter ArchiveEntry.hasStream).map ArchiveEntry.subStream =
    session.stored.flatMap (StoredBlock.subStreams crc32)
  owners : List.Forall₂ (ArchiveEntry.Owns crc32) session.writer.files owned
  contents : owned.reduceOption = session.stored.flatMap StoredBlock.contents

def BetweenRanges {α : Type} (owned : List (Option α)) (counts : List Nat) : Prop :=
  ∀ j, owned[j]? = some none →
    ∃ m ≤ counts.length, (owned.take j).reduceOption.length = offset counts m

/-- How the writer of a run whose steps all keep its lists in order has come about. -/
structure Session.Filed (crc32 : List UInt8 → UInt32)
    (uses : ContentEncoder → List EncoderConfiguration → Prop) (session : Session)
    (owned : List (Option (List UInt8))) : Prop extends session.InOrder crc32 owned where
  made : List.Forall₂ (BlockInfo.Made crc32 uses) session.writer.unpackInfo.blocks session.stored
  output : session.writer.output =
    List.replicate signatureHeaderSize 0 ++ (session.stored.map StoredBlock.compressed).flatten
  pos : session.writer.packInfo.pos = 0
  counted : ∀ block ∈ session.stored, block.contents.flatten.length < 2 ^ 63
  between : BetweenRanges owned (session.stored.map fun block => block.contents.length)

section

variable {crc32 : List UInt8 → UInt32} {push : Push} {session session' : Session}
  {uses : ContentEncoder → List EncoderConfiguration → Prop} {owned : List (Option (List UInt8))}

theorem reduceOption_map_some {α : Type} (xs : List α) : (xs.map some).reduceOption = xs := by
  rw [List.reduceOption, List.filterMap_map, Function.id_comp, List.filterMap_some]

theorem streamed_of_owns {files : List ArchiveEntry}
    (h : List.Forall₂ (ArchiveEntry.Owns crc32) files owned) :
    (files.filter ArchiveEntry.hasStream).map ArchiveEntry.subStream =
      owned.reduceOption.map (subStreamOf crc32) := by
  induction h with
  | nil => rfl
  | @cons file content files owned hfirst _ ih =>
      cases content with
      | none =>
          have hstream : ¬ file.hasStream = true := Bool.not_eq_true _ ▸ hfirst
          rw [List.filter_cons_of_neg hstream, List.reduceOption_cons_of_none, ih]
      | some content =>
          rw [List.filter_cons_of_pos hfirst.1, List.reduceOption_cons_of_some, List.map_cons,
            List.map_cons, ih, ArchiveEntry.Owns.subStream hfirst]

theorem Push.owned_of_contents {contents : List (List UInt8)}
    (h : push.contents = some contents) : push.owned = contents.map some := by
  simp only [owned, h]

theorem Push.reduceOption_owned_of_none (h : push.contents = none) :
    push.owned.reduceOption = [] := by
  simp only [owned, h]
  split
  · contradiction
  · rfl
  · rfl

theorem Session.Filed.streams_of_owns {files : List ArchiveEntry}
    {owned : List (Option (List UInt8))} {stored : List StoredBlock}
    (howners : List.Forall₂ (ArchiveEntry.Owns crc32) files owned)
    (hcontents : owned.reduceOption = stored.flatMap StoredBlock.contents) :
    (files.filter ArchiveEntry.hasStream).map ArchiveEntry.subStream =
      stored.flatMap (StoredBlock.subStreams crc32) := by
  rw [streamed_of_owns howners, hcontents, List.map_flatMap]
  rfl

theorem BetweenRanges.append_none {α : Type} {owned more : List (Option α)} {counts : List Nat}
    (h : BetweenRanges owned counts) (htotal : owned.reduceOption.length = counts.sum)
    (hmore : more.reduceOption = []) : BetweenRanges (owned ++ more) counts := by
  intro j hj
  rcases Nat.lt_or_ge j owned.length with hlt | hge
  · rw [List.getElem?_append_left hlt] at hj
    rw [List.take_append_of_le_length (Nat.le_of_lt hlt)]
    exact h j hj
  · have htail : (more.take (j - owned.length)).reduceOption = [] := by
      apply List.eq_nil_of_sublist_nil
      rw [← hmore]
      exact (List.take_sublist _ _).filterMap id
    refine ⟨counts.length, Nat.le_refl _, ?_⟩
    rw [List.take_append, List.take_of_length_le hge, List.reduceOption_append, htail,
      List.append_nil, htotal, offset_length]

theorem BetweenRanges.append_range {α : Type} {owned : List (Option α)} {counts : List Nat}
    (h : BetweenRanges owned counts) (contents : List α) (n : Nat) :
    BetweenRanges (owned ++ contents.map some) (counts ++ [n]) := by
  intro j hj
  rcases Nat.lt_or_ge j owned.length with hlt | hge
  · rw [List.getElem?_append_left hlt] at hj
    rw [List.take_append_of_le_length (Nat.le_of_lt hlt)]
    obtain ⟨m, hm, hcount⟩ := h j hj
    refine ⟨m, ?_, ?_⟩
    · rw [List.length_append]
      exact Nat.le_add_right_of_le hm
    · rw [hcount, offset, offset, List.take_append_of_le_length hm]
  · rw [List.getElem?_append_right hge, List.getElem?_map] at hj
    obtain ⟨content, -, hsome⟩ := Option.map_eq_some_iff.mp hj
    cases hsome

theorem Session.Filed.init : ({} : Session).Filed crc32 uses [] where
  packSizes := rfl
  packCrcs := rfl
  blocks := .nil
  streams := rfl
  owners := .nil
  contents := rfl
  made := .nil
  output := rfl
  pos := rfl
  counted := List.forall_mem_nil _
  between := fun _ h => nomatch h

theorem Session.InOrder.total (h : session.InOrder crc32 owned) :
    owned.reduceOption.length = (session.stored.map fun block => block.contents.length).sum := by
  rw [h.contents, List.length_flatMap]

theorem Session.Filed.step (h : session.Filed crc32 uses owned)
    (hstep : session.step crc32 push = some session')
    (hsucceeds : push.Succeeds crc32 session.writer) (hflagged : push.Flagged)
    (huses : ∀ encoder methods, push.encoding session.writer = some (encoder, methods) →
      uses encoder methods) : session'.Filed crc32 uses (owned ++ push.owned) := by
  obtain ⟨fault, hfault, -⟩ | ⟨writer', hcall, ⟨hnone, rfl⟩ | ⟨contents, hsome, rfl⟩⟩ :=
    session.step_cases hstep
  · rw [Push.Succeeds, hfault] at hsucceeds
    cases hsucceeds
  · obtain ⟨hbytes, hinfo⟩ := push.perform_of_contents_none hcall hnone
    obtain ⟨hunpack, files, hfiles, howns⟩ := Push.adds_none hcall hnone
    have hmore := Push.reduceOption_owned_of_none hnone
    have howners : List.Forall₂ (ArchiveEntry.Owns crc32) writer'.files (owned ++ push.owned) :=
      hfiles ▸ List.rel_append h.owners howns
    have hcontents : (owned ++ push.owned).reduceOption =
        session.stored.flatMap StoredBlock.contents := by
      rw [List.reduceOption_append, hmore, List.append_nil, h.contents]
    exact {
      packSizes := (congrArg PackInfo.sizes hinfo).trans h.packSizes
      packCrcs := (congrArg PackInfo.crcs hinfo).trans h.packCrcs
      blocks := hunpack ▸ h.blocks
      streams := Session.Filed.streams_of_owns howners hcontents
      owners := howners
      contents := hcontents
      made := hunpack ▸ h.made
      output := by rw [hbytes, List.append_nil, h.output]
      pos := (congrArg PackInfo.pos hinfo).trans h.pos
      counted := h.counted
      between := h.between.append_none h.total hmore }
  · have hinfo := push.perform_of_contents_some hcall hsome
    have hsizes : writer'.packInfo.sizes = session.writer.packInfo.sizes ++
        [UInt64.ofNat (push.perform crc32 session.writer).bytes.length] :=
      congrArg PackInfo.sizes hinfo
    have hcrcs : writer'.packInfo.crcs = session.writer.packInfo.crcs ++
        [crc32 (push.perform crc32 session.writer).bytes] := congrArg PackInfo.crcs hinfo
    obtain ⟨info, files, hadds⟩ := Push.adds hcall hsome
    have howned := Push.owned_of_contents hsome
    have howners : List.Forall₂ (ArchiveEntry.Owns crc32) writer'.files
        (owned ++ contents.map some) :=
      hadds.entries ▸ List.rel_append h.owners (hadds.owns hflagged)
    have hcontents : (owned ++ contents.map some).reduceOption =
        (session.stored ++ [StoredBlock.mk (push.perform crc32 session.writer).bytes
          contents]).flatMap StoredBlock.contents := by
      rw [List.reduceOption_append, reduceOption_map_some, List.flatMap_append,
        List.flatMap_singleton, h.contents]
    have hmade := hadds.made.mono huses
    rw [howned]
    exact {
      packSizes := by
        rw [List.map_append, ← h.packSizes]
        exact hsizes
      packCrcs := by
        rw [List.map_append, ← h.packCrcs]
        exact hcrcs
      blocks := hadds.blocks ▸ List.rel_append h.blocks (.cons (hadds.added hflagged) .nil)
      streams := Session.Filed.streams_of_owns howners hcontents
      owners := howners
      contents := hcontents
      made := hadds.blocks ▸ List.rel_append h.made (.cons hmade .nil)
      output := by
        rw [h.output, List.map_append, List.flatten_append, List.append_assoc]
        simp
      pos := (congrArg PackInfo.pos hinfo).trans h.pos
      counted := by
        intro block hblock
        rcases List.mem_append.mp hblock with hblock | hblock
        · exact h.counted block hblock
        · rw [List.mem_singleton.mp hblock]
          exact hflagged.counted contents hsome
      between := by
        rw [List.map_append]
        exact h.between.append_range contents _ }

theorem Session.filed_of_run {pushes : List Push}
    (hrun : run (Session.step crc32) {} pushes = some session)
    (hsteps : EveryStep (Session.step crc32) {} pushes fun _ push before _ =>
      push.Succeeds crc32 before.writer ∧ push.Flagged ∧
        ∀ encoder methods, push.encoding before.writer = some (encoder, methods) →
          uses encoder methods) : session.Filed crc32 uses (pushes.flatMap Push.owned) := by
  apply EveryStep.invariant (I := fun before session =>
    session.Filed crc32 uses (before.flatMap Push.owned)) _ _ (List.append_nil _).symm hrun
  · exact .init
  · refine hsteps.mono fun before push _ _ _ hstep hclean h => ?_
    rw [List.flatMap_append, List.flatMap_singleton]
    exact h.step hstep hclean.1 hclean.2.1 hclean.2.2

theorem Session.files_of_run {pushes : List Push}
    (hrun : run (Session.step crc32) {} pushes = some session)
    (hsteps : EveryStep (Session.step crc32) {} pushes fun _ push before _ =>
      push.Succeeds crc32 before.writer) :
    session.writer.files.map ArchiveEntry.name = pushes.flatMap Push.names ∧
      session.writer.files.map ArchiveEntry.hasStream = pushes.flatMap Push.marks := by
  apply EveryStep.invariant (I := fun before session =>
    session.writer.files.map ArchiveEntry.name = before.flatMap Push.names ∧
      session.writer.files.map ArchiveEntry.hasStream = before.flatMap Push.marks) _ _
      (List.append_nil _).symm hrun
  · exact ⟨rfl, rfl⟩
  · refine hsteps.mono fun before push _ session _ hstep hsucceeds h => ?_
    rw [List.flatMap_append, List.flatMap_append, List.flatMap_singleton, List.flatMap_singleton,
      ← h.1, ← h.2]
    obtain ⟨fault, hfault, -⟩ | ⟨writer', hcall, ⟨-, rfl⟩ | ⟨contents, -, rfl⟩⟩ :=
      Session.step_cases hstep
    · rw [Push.Succeeds, hfault] at hsucceeds
      cases hsucceeds
    all_goals
      obtain ⟨files, hfiles, hnames, hmarks⟩ := Push.files_eq hcall
      rw [← hnames, ← hmarks, ← List.map_append, ← List.map_append, ← hfiles]
      exact ⟨rfl, rfl⟩

end

/-- In a run whose calls succeed and mark what they store, pack streams, blocks, sub-streams and
files stay in order, and each file has what was pushed for it. -/
theorem Session.inOrder_of_run {crc32 : List UInt8 → UInt32} {pushes : List Push}
    {session : Session} (hrun : run (Session.step crc32) {} pushes = some session)
    (hsteps : EveryStep (Session.step crc32) {} pushes fun _ push before _ =>
      push.Succeeds crc32 before.writer ∧ push.Flagged) :
    session.InOrder crc32 (pushes.flatMap Push.owned) := by
  have hfiled : session.Filed crc32 (fun _ _ => True) (pushes.flatMap Push.owned) :=
    Session.filed_of_run hrun (hsteps.mono fun _ _ _ _ _ _ hclean =>
      ⟨hclean.1, hclean.2, fun _ _ _ => trivial⟩)
  exact hfiled.toInOrder

def mixedPushes : List Push :=
  [.contentMethods [{ method := .copy }],
    .archiveEntry copyEncoder (.newFile ['a']) (some [.ok [7]]),
    .archiveEntry copyEncoder (.newDirectory ['d']) none,
    .archiveEntries copyEncoder [.newFile ['b'], .newFile ['c']]
      [.new [.ok [1, 2], .ok [3]], .new [.ok [4]]]]

theorem mixedPushes_steps : EveryStep (Session.step crc32) {} mixedPushes fun _ push before _ =>
    push.Succeeds crc32 before.writer ∧ push.Flagged ∧
      ∀ encoder methods, push.encoding before.writer = some (encoder, methods) →
        encoder = copyEncoder ∧ ∃ mc, methods = [mc] := by
  have hfirst : Session.step crc32 {} (.contentMethods [{ method := .copy }]) =
      some (sessionAfter (mixedPushes.take 1)) := rfl
  have hsecond : Session.step crc32 (sessionAfter (mixedPushes.take 1))
      (.archiveEntry copyEncoder (.newFile ['a']) (some [.ok [7]])) =
        some (sessionAfter (mixedPushes.take 2)) := rfl
  have hthird : Session.step crc32 (sessionAfter (mixedPushes.take 2))
      (.archiveEntry copyEncoder (.newDirectory ['d']) none) =
        some (sessionAfter (mixedPushes.take 3)) := rfl
  have hfourth : Session.step crc32 (sessionAfter (mixedPushes.take 3))
      (.archiveEntries copyEncoder [.newFile ['b'], .newFile ['c']]
        [.new [.ok [1, 2], .ok [3]], .new [.ok [4]]]) = some (sessionAfter mixedPushes) := rfl
  refine .cons hfirst ⟨rfl, ⟨by decide, by simp [Push.solidSources], ?_, by decide⟩, ?_⟩
    (.cons hsecond ⟨rfl, ⟨by decide, by simp [Push.solidSources], ?_, by decide⟩, ?_⟩
    (.cons hthird ⟨rfl, ⟨by decide, by simp [Push.solidSources], ?_, by decide⟩, ?_⟩
    (.cons hfourth ⟨rfl, ⟨by decide, by simp [Push.solidSources, SourceReader.new], ?_,
      by decide⟩, ?_⟩ .nil)))
  · rintro _ ⟨⟩
  · rintro _ _ ⟨⟩
  · rintro _ ⟨⟩
    decide
  · rintro _ _ ⟨⟩
    exact ⟨rfl, _, rfl⟩
  · rintro _ ⟨⟩
  · rintro _ _ ⟨⟩
  · rintro _ ⟨⟩
    decide
  · rintro _ _ ⟨⟩
    exact ⟨rfl, _, rfl⟩

theorem inOrder_of_run_mixed : (sessionAfter mixedPushes).InOrder crc32
    [some [7], none, some [1, 2, 3], some [4]] :=
  Session.inOrder_of_run rfl
    (mixedPushes_steps.mono fun _ _ _ _ _ _ hclean => ⟨hclean.1, hclean.2.1⟩)

end Sevenz
