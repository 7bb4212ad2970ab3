import Sevenz.Reader.SubStreamHook
import Sevenz.Writer.ReadBack

/-!
# Blocks that are stored

An encoder that stores what it is given in LZMA2 chunks, and the decoders that undo it: they meet
what a run of pushes asks of its encoder to be read back.
-/

namespace Sevenz

open Lib

def storedByte (byte : UInt8) : List UInt8 := [1, 0, 0, byte]

/-- An encoder that stores what it is given with LZMA2, and copies with any other method. -/
def storingEncoder : ContentEncoder where
  State := Bool
  create methods := pure (methods.any fun mc => mc.method.id == idLzma2)
  writeAll buf stores :=
    { bytes := if stores then buf.flatMap storedByte else buf, result := .ok stores }
  flush stores := pure stores
  writeEnd stores := { bytes := if stores then [0] else [], result := .ok stores }
  moreSizes _ := []

/-- What a stack of such coders decodes to, where the packed streams lie in a file. -/
def unstored (file : List UInt8) : Decoder → List UInt8
  | .pack _ start size => (file.drop start).take size
  | .coder stage input =>
      if stage.coder.encoderMethodId = idLzma2 then storedChunks file.length (unstored file input)
      else unstored file input
  | .bcj2 _ _ _ _ _ => []

def unstoring (file : List UInt8) : Codecs :=
  { copyingAll file with decode := fun decoder => Stream.ofContent (unstored file decoder) }

theorem storedChunks_flatMap {n : Nat} {content : List UInt8} (h : content.length ≤ n) :
    storedChunks n (content.flatMap storedByte ++ [0]) = content := by
  induction content generalizing n with
  | nil => cases n <;> rfl
  | cons byte content ih =>
      cases n with
      | zero => cases h
      | succ n =>
          have hrest := ih (Nat.le_of_succ_le_succ h)
          exact congrArg (byte :: ·) hrest

theorem length_flatMap_storedByte (content : List UInt8) :
    (content.flatMap storedByte).length = 4 * content.length := by
  induction content with
  | nil => rfl
  | cons byte content ih =>
      rw [List.flatMap_cons, List.length_append, ih, List.length_cons]
      change 4 + _ = _
      omega

section

variable {crc32 : List UInt8 → UInt32} {context : EncodeContext}

theorem feedSource_storing {reads : Source} {tally : SourceTally} {written : List UInt8}
    {r : SourceTally × storingEncoder.Feed}
    (h : (storingEncoder.feedSource crc32 context reads tally ⟨true, written⟩).result = .ok r) :
    (storingEncoder.feedSource crc32 context reads tally ⟨true, written⟩).bytes =
      reads.content.flatMap storedByte ∧ r.2.state = true := by
  induction reads generalizing tally written with
  | nil =>
      cases h
      exact ⟨rfl, rfl⟩
  | cons read reads ih =>
      rcases read with error | _ | ⟨b, bytes⟩
      · cases h
      · cases h
        exact ⟨rfl, rfl⟩
      · obtain ⟨hbytes, hstate⟩ := ih h
        refine ⟨?_, hstate⟩
        rw [Source.content, List.flatMap_append, ← hbytes]
        rfl

theorem feedSources_storing {sources : List SourceReader} {feed : storingEncoder.Feed}
    {r : List SourceTally × storingEncoder.Feed} (hstores : feed.state = true)
    (h : (storingEncoder.feedSources crc32 context sources feed).result = .ok r) :
    (storingEncoder.feedSources crc32 context sources feed).bytes =
        (sources.flatMap fun source => source.reader.content).flatMap storedByte ∧
      r.2.state = true := by
  induction sources generalizing feed r with
  | nil =>
      cases h
      exact ⟨rfl, hstores⟩
  | cons source sources ih =>
      obtain ⟨⟨tally, fed⟩, hsource, h⟩ := Emits.bind_result_eq_ok.mp h
      obtain ⟨⟨tallies, last⟩, hsources, hr⟩ := Emits.bind_result_eq_ok.mp h
      cases hr
      cases feed with
      | mk state written =>
          cases hstores
          obtain ⟨hbytes, hfed⟩ := feedSource_storing hsource
          obtain ⟨hrest, hlast⟩ := ih hfed hsources
          refine ⟨?_, hlast⟩
          rw [ContentEncoder.feedSources, Emits.bind_of_ok hsource]
          dsimp only
          rw [Emits.bind_of_ok hsources, hbytes, hrest, Emits.pure_bytes, List.append_nil,
            List.flatMap_cons, List.flatMap_append]

theorem encodeContent_storing {sources : List SourceReader} {encoded : Encoded}
    (h : (storingEncoder.encodeContent crc32 context [{ method := .lzma2 }] sources).result =
      .ok encoded) :
    (storingEncoder.encodeContent crc32 context [{ method := .lzma2 }] sources).bytes =
        encoded.written.flatMap storedByte ++ [0] ∧
      encoded.sizes = [UInt64.ofNat encoded.written.length] := by
  obtain ⟨-, hwritten, -⟩ := ContentEncoder.encodeContent_spec h
  obtain ⟨state, hcreate, h⟩ := Emits.bind_result_eq_ok.mp h
  obtain rfl : true = state := Except.ok.inj hcreate
  obtain ⟨⟨tallies, feed⟩, hfeed, h⟩ := Emits.bind_result_eq_ok.mp h
  obtain ⟨hbytes, hstores⟩ := feedSources_storing rfl hfeed
  cases h
  refine ⟨?_, rfl⟩
  rw [ContentEncoder.encodeContent]
  refine (congrArg Emits.bytes (Emits.bind_of_ok hfeed _)).trans ?_
  dsimp only at hbytes hstores hwritten ⊢
  rw [hbytes, hwritten, hstores]
  rfl

end

theorem eq_singleton_of_stages {versions : CodecVersions} {mc : EncoderConfiguration}
    {size : UInt64} {stages : List Stage}
    (h : stages.map (fun stage => (stage.coder, stage.uncompressedLen)) =
      ([mc].map (EncoderConfiguration.coder versions)).zip [size]) :
    ∃ stage, stages = [stage] ∧ stage.coder = mc.coder versions := by
  obtain ⟨stage, rest, rfl, hfirst, hrest⟩ := List.map_eq_cons_iff.mp h
  obtain rfl := List.map_eq_nil_iff.mp hrest
  exact ⟨stage, rfl, congrArg Prod.fst hfirst⟩

theorem unstoring_undoContent (file : List UInt8) (versions : CodecVersions) :
    (unstoring file).UndoContent file versions storingEncoder [{ method := .lzma2 }] := by
  constructor
  · intro _ _ _ _ _
    rfl
  · intro context sources encoded h
    rw [(encodeContent_storing h).2]
    rfl
  · intro context sources encoded start stages h hlies hstages
    obtain ⟨hbytes, hsizes⟩ := encodeContent_storing h
    rw [hsizes] at hstages
    obtain ⟨stage, rfl, hstage⟩ := eq_singleton_of_stages hstages
    have hlzma2 : stage.coder.encoderMethodId = idLzma2 := by
      rw [hstage]
      rfl
    rw [hbytes] at hlies ⊢
    have hlength : encoded.written.length ≤ file.length := by
      have htaken := congrArg List.length hlies
      rw [List.length_take, List.length_append, length_flatMap_storedByte, List.length_drop]
        at htaken
      simp only [List.length_singleton] at htaken
      omega
    have hunstored : unstored file (stackOf [stage].reverse (.pack 0 start
        (encoded.written.flatMap storedByte ++ [0]).length)) = encoded.written := by
      rw [List.reverse_singleton, stackOf, stackOf, unstored, if_pos hlzma2, unstored, hlies,
        storedChunks_flatMap hlength]
    change (Stream.ofContent (unstored file _)).Delivers encoded.written
    rw [hunstored]
    exact Stream.ofContent_delivers encoded.written

theorem unstoring_undo (file : List UInt8) (versions : CodecVersions) :
    (unstoring file).Undo file versions storingEncoder [{ method := .lzma }] := by
  constructor
  · intro _ _ _ _ _
    rfl
  · intro data moreSizes hmore
    cases hmore
    rfl
  · intro data moreSizes start stages hmore hlies hstages
    cases hmore
    obtain ⟨stage, rfl, hstage⟩ := eq_singleton_of_stages hstages
    have hlzma : stage.coder.encoderMethodId ≠ idLzma2 := by
      rw [hstage]
      change EncoderMethod.lzma.id ≠ idLzma2
      decide
    have hunstored : unstored file (stackOf [stage].reverse (.pack 0 start
        (storingEncoder.encodeHeader [{ method := .lzma }] data).bytes.length)) = data := by
      rw [List.reverse_singleton, stackOf, stackOf, unstored, if_neg hlzma]
      exact hlies.trans (List.append_nil data)
    change (Stream.ofContent (unstored file _)).Delivers data
    rw [hunstored]
    exact Stream.ofContent_delivers data

theorem ArchiveWriter.writeEncodedHeader_storing {writer : ArchiveWriter}
    (versions : CodecVersions) (crc32 : List UInt8 → UInt32) (h : writer.headerEncryption = none) :
    writer.writeEncodedHeader versions crc32 storingEncoder =
      writer.writeEncodedHeader versions crc32 copyEncoder := by
  have hencode : storingEncoder.encodeHeader writer.headerMethods (writer.writeHeader versions) =
      copyEncoder.encodeHeader writer.headerMethods (writer.writeHeader versions) := by
    rw [headerMethods, h]
    rfl
  rw [writeEncodedHeader, writeEncodedHeader, hencode]

end Sevenz
