import Sevenz.Header.ResourceBounds
import Sevenz.Header.Reservations

/-!
# Reservations within the bounds

Nothing is reserved while a header is read for a count that is not within its bounds yet, and
what a header that was parsed keeps to.
-/

namespace Sevenz

open Lib Lib.Parser

def HeaderBounds.Admits (bounds : HeaderBounds) : Reservation → Prop
  | .counted what n => bounds.Allows what n
  | .bytes n => n ≤ bounds.bytes

section Reserved

open Tracked

variable {bounds : HeaderBounds} {archive : Archive} {n : Nat}

theorem only_trackAllOrBits (h : bounds.Allows .entries n) :
    Only bounds.Admits (trackAllOrBits n) :=
  .note_bind h (.read _)

theorem only_trackPackSizes (h : bounds.Allows .entries n) (nid : UInt8) :
    Only bounds.Admits (trackPackSizes n archive nid) :=
  .ite _ (fun _ => .note_bind h (.read _)) fun _ => .read _

theorem only_trackPackCrcs (h : bounds.Allows .entries n) (nid : UInt8) :
    Only bounds.Admits (trackPackCrcs n archive nid) := by
  refine .ite _ (fun _ => ?_) fun _ => .pure _
  refine .bind (only_trackAllOrBits h) fun _ defined _ _ => .note_bind h ?_
  exact .read_bind fun _ crcs _ _ => .read_bind fun _ nid _ _ => .pure _

theorem only_trackPackInfo : Only bounds.Admits (trackPackInfo bounds archive) := by
  refine .read_bind fun _ packPos _ _ => .read_bind fun _ num _ _ => ?_
  refine .lift_bind fun numPackStreams hcount => .read_bind fun _ nid _ _ => ?_
  have h := HeaderBounds.allows_of_count hcount
  refine .bind (only_trackPackSizes h nid) fun _ sized _ _ => ?_
  refine .bind (only_trackPackCrcs h sized.2) fun _ digested _ _ => ?_
  exact .lift_bind fun _ _ => .pure _

theorem only_trackProperties (hasAttributes : Bool) :
    Only bounds.Admits (trackProperties bounds hasAttributes) := by
  refine .ite _ (fun _ => ?_) fun _ => .pure _
  refine .read_bind fun _ size _ _ => .lift_bind fun propertiesSize hsize => ?_
  have hle : propertiesSize ≤ bounds.bytes := by
    obtain ⟨rfl, hle⟩ := HeaderBounds.size_eq_ok.mp hsize
    exact hle
  exact .note_bind hle (.read _)

theorem only_trackCoder (totals : StreamTotals) :
    Only bounds.Admits (trackCoder bounds totals) := by
  refine .read_bind fun _ bits _ _ => .read_bind fun _ id _ _ => .read_bind fun _ nums _ _ => ?_
  refine .lift_bind fun totalIn _ => .lift_bind fun totalOut _ => .lift_bind fun _ _ => ?_
  refine .lift_bind fun _ _ => .lift_bind fun _ _ => ?_
  refine .bind (only_trackProperties _) fun _ properties _ _ => ?_
  exact .lift_bind fun _ _ => .pure _

theorem only_trackCoders (n : Nat) (totals : StreamTotals) :
    Only bounds.Admits (trackCoders bounds n totals) := by
  induction n generalizing totals with
  | zero => exact .pure _
  | succ n ih =>
      refine .bind (only_trackCoder totals) fun _ coder _ _ => ?_
      exact .bind (ih coder.2) fun _ coders _ _ => .pure _

theorem only_reserveGraph {block : Block} (h : block.Within bounds) :
    Only bounds.Admits (reserveGraph block) :=
  .note_bind h.totalIn (.note_bind h.totalOut (.note_bind h.totalIn (.note_bind h.totalOut
    (.note h.coders))))

theorem only_trackBlock : Only bounds.Admits (trackBlock bounds) := by
  refine .read_bind fun _ num _ _ => .lift_bind fun numCoders hcount => ?_
  have hcoders := HeaderBounds.allows_of_count hcount
  refine .note_bind hcoders (.bind (only_trackCoders _ _) fun _ coders _ hread => ?_)
  rw [erase_trackCoders] at hread
  obtain ⟨hlength, -, hstreams, hin, hout⟩ :=
    readCoders_within hread HeaderBounds.allows_zero HeaderBounds.allows_zero
  refine .lift_bind fun _ _ => .note_bind (hout.mono (Nat.sub_le _ 1)) ?_
  refine .read_bind fun _ bindPairs _ _ => .lift_bind fun _ _ => ?_
  refine .note_bind (hin.mono (Nat.sub_le _ _)) (.read_bind fun _ packedStreams _ _ => ?_)
  have hwithin : Block.Within bounds
      { coders := coders.1, bindPairs, packedStreams, totalInputStreams := coders.2.totalIn,
        totalOutputStreams := coders.2.totalOut } :=
    ⟨hlength ▸ hcoders, hstreams, hin, hout⟩
  refine .bind (only_reserveGraph hwithin) fun _ _ _ _ => ?_
  exact .lift_bind fun _ _ => .pure _

theorem only_trackBlocks (n totalCoders : Nat) :
    Only bounds.Admits (trackBlocks bounds n totalCoders) := by
  induction n generalizing totalCoders with
  | zero => exact .pure _
  | succ n ih =>
      refine .bind only_trackBlock fun _ block _ _ => .lift_bind fun _ _ => ?_
      exact .bind (ih _) fun _ blocks _ _ => .pure _

theorem only_trackUnpackSizes {blocks : List Block} (h : ∀ block ∈ blocks, block.Within bounds) :
    Only bounds.Admits (trackUnpackSizes bounds blocks) := by
  induction blocks with
  | nil => exact .pure _
  | cons block blocks ih =>
      have hblock := h block List.mem_cons_self
      refine .note_bind (hblock.totalOut.mono (Nat.min_le_left _ _)) ?_
      refine .read_bind fun _ sizes _ _ => ?_
      exact .bind (ih fun b hb => h b (List.mem_cons_of_mem block hb)) fun _ _ _ _ => .pure _

theorem only_trackBlockCrcs (h : bounds.Allows .entries n) (blocks : List Block) (nid : UInt8) :
    Only bounds.Admits (trackBlockCrcs n blocks nid) := by
  refine .ite _ (fun _ => ?_) fun _ => .pure _
  refine .bind (only_trackAllOrBits h) fun _ defined _ _ => ?_
  exact .read_bind fun _ digested _ _ => .read_bind fun _ nid _ _ => .pure _

theorem only_trackUnpackInfo (hblocks : archive.blocks = []) :
    Only bounds.Admits (trackUnpackInfo bounds archive) := by
  refine .read_bind fun _ nid _ _ => .lift_bind fun _ _ => .read_bind fun _ num _ _ => ?_
  refine .lift_bind fun numBlocks hcount => ?_
  have h := HeaderBounds.allows_of_count hcount
  refine .note_bind (h.mono (Nat.min_le_left _ _)) (.read_bind fun _ external _ _ => ?_)
  refine .lift_bind fun _ _ => .bind (only_trackBlocks _ _) fun _ blocks _ hread => ?_
  rw [erase_trackBlocks] at hread
  refine .read_bind fun _ nid _ _ => .lift_bind fun _ _ => ?_
  have hwithin : ∀ block ∈ archive.blocks ++ blocks, block.Within bounds := by
    rw [hblocks, List.nil_append]
    exact fun block hblock => ((readBlocks_within hread).2 block hblock).1
  refine .bind (only_trackUnpackSizes hwithin) fun _ sized _ _ => .read_bind fun _ nid _ _ => ?_
  refine .bind (only_trackBlockCrcs h sized nid) fun _ digested _ _ => ?_
  exact .lift_bind fun _ _ => .pure _

theorem countDigests_le {total numDigests result : Nat} {blocks : List Block}
    (h : countDigests total blocks numDigests = .ok result) (hle : numDigests ≤ total) :
    result ≤ total := by
  induction blocks generalizing numDigests with
  | nil =>
      cases Result.pure_eq_ok.mp h
      exact hle
  | cons block blocks ih =>
      unfold countDigests at h
      split at h
      · exact ih h hle
      · obtain ⟨next, hnext, h⟩ := Result.bind_eq_ok.mp h
        obtain ⟨-, hfits⟩ := Option.filter_eq_some_iff.mp (Result.okOr_eq_ok.mp hnext)
        exact ih h (of_decide_eq_true hfits)

theorem only_trackSubStreamsInfo (h : bounds.Allows .entries archive.blocks.length) :
    Only bounds.Admits (trackSubStreamsInfo bounds archive) := by
  refine .read_bind fun _ counts _ hcounts => ?_
  have htotal := (readSubStreamCounts_allows hcounts h).1
  refine .note_bind htotal (.note_bind htotal (.note_bind htotal ?_))
  refine .read_bind fun _ sizes _ _ => .read_bind fun _ nid _ _ => ?_
  refine .lift_bind fun numDigests hnum => ?_
  have hdigests := htotal.mono (countDigests_le hnum (Nat.zero_le _))
  refine .bind (.ite _ (fun _ => ?_) fun _ => .pure _) fun _ info _ _ =>
    .lift_bind fun _ _ => .pure _
  refine .bind (only_trackAllOrBits hdigests) fun _ missing _ _ => .note_bind hdigests ?_
  refine .read_bind fun _ crcs _ _ => .lift_bind fun fill _ => ?_
  exact .read_bind fun _ nid _ _ => .pure _

theorem only_trackSection {track : Archive → TrackedReader Archive} {absent : Archive → Archive}
    {expected nid : UInt8} (h : Only bounds.Admits (track archive)) :
    Only bounds.Admits (trackSection expected nid archive track absent) :=
  .ite _ (fun _ => .bind h fun _ _ _ _ => .read_bind fun _ _ _ _ => .pure _) fun _ => .pure _

theorem only_trackStreamsInfo : Only bounds.Admits (trackStreamsInfo bounds {}) := by
  refine .read_bind fun _ nid _ _ => ?_
  refine .bind (only_trackSection only_trackPackInfo) fun s₁ packed s₂ hpack => ?_
  rw [erase_trackSection _ (erase_trackPackInfo bounds)] at hpack
  have hnone : packed.1.blocks = [] := by
    cases optionalSection_eq_ok hpack with
    | inl hread =>
        obtain ⟨-, t, hread, -⟩ := hread
        exact (readPackInfo_keeps hread).1
    | inr hskip => rw [hskip.2.1]; rfl
  refine .bind (only_trackSection (only_trackUnpackInfo hnone)) fun s₃ unpacked s₄ hunpack => ?_
  rw [erase_trackSection _ (erase_trackUnpackInfo bounds)] at hunpack
  have hblocks : bounds.Allows .entries unpacked.1.blocks.length := by
    cases optionalSection_eq_ok hunpack with
    | inl hread =>
        obtain ⟨-, t, hread, -⟩ := hread
        exact (readUnpackInfo_blocksRead hread hnone).1.within.count
    | inr hskip =>
        rw [hskip.2.1]
        exact HeaderBounds.allows_zero
  refine .bind (only_trackSection (only_trackSubStreamsInfo hblocks)) fun _ subs _ _ => ?_
  exact .lift_bind fun _ _ => .pure _

theorem only_trackDefined {files : List ArchiveEntry}
    (h : bounds.Allows .entries files.length) (property : String)
    (update : Bool → ArchiveEntry → HeaderReader ArchiveEntry) :
    Only bounds.Admits (trackDefined property update files) :=
  .note_bind h (.read _)

theorem only_trackEmptyBits {props : FileProperties} (h : bounds.Allows .entries n)
    (hheld : props.Held bounds n) :
    Only bounds.Admits (trackEmptyBits props.isEmptyStream) :=
  .lift_bind fun bits hbits =>
    .note_bind (h.mono (hheld.emptyStreams bits (Result.okOr_eq_ok.mp hbits))) (.read _)

theorem only_trackFileProperty {props : FileProperties} (h : bounds.Allows .entries n)
    (hheld : props.Held bounds n) (propType : UInt8) (size : Nat) :
    Only bounds.Admits (trackFileProperty bounds propType size props) := by
  have hfiles : bounds.Allows .entries props.files.length := hheld.count ▸ h
  refine .ite _ (fun _ => .note_bind hfiles (.read_bind fun _ _ _ _ => .pure _)) fun _ => ?_
  refine .ite _ (fun _ => .bind (only_trackEmptyBits h hheld) fun _ _ _ _ => .pure _) fun _ => ?_
  refine .ite _ (fun _ => .bind (only_trackEmptyBits h hheld) fun _ _ _ _ => .pure _) fun _ => ?_
  refine .ite _ (fun _ => .read_bind fun _ _ _ _ => .pure _) fun _ => ?_
  refine .ite _ (fun _ => .bind (only_trackDefined hfiles _ _) fun _ _ _ _ => .pure _) fun _ => ?_
  refine .ite _ (fun _ => .bind (only_trackDefined hfiles _ _) fun _ _ _ _ => .pure _) fun _ => ?_
  refine .ite _ (fun _ => .bind (only_trackDefined hfiles _ _) fun _ _ _ _ => .pure _) fun _ => ?_
  refine .ite _ (fun _ => .bind (only_trackDefined hfiles _ _) fun _ _ _ _ => .pure _) fun _ => ?_
  refine .ite _ (fun _ => .read _) fun _ => ?_
  exact .lift_bind fun _ _ => .read_bind fun _ _ _ _ => .pure _

theorem only_trackPropertyLoop {props : FileProperties} (h : bounds.Allows .entries n)
    (hheld : props.Held bounds n) (fuel : Nat) :
    Only bounds.Admits (trackPropertyLoop bounds fuel props) := by
  induction fuel generalizing props with
  | zero => exact .read _
  | succ fuel ih =>
      refine .read_bind fun _ propType _ _ => .ite _ (fun _ => .pure _) fun _ => ?_
      refine .read_bind fun _ size _ _ => ?_
      refine .bind (only_trackFileProperty h hheld propType size) fun _ props₁ _ hread => ?_
      rw [erase_trackFileProperty] at hread
      exact ih (readFileProperty_held hread hheld)

theorem only_trackStreamMap (hblocks : bounds.Allows .entries archive.blocks.length)
    (hsizes : bounds.Allows .entries archive.packSizes.length)
    (hfiles : bounds.Allows .entries archive.files.length) :
    Only bounds.Admits (trackStreamMap archive) :=
  .note_bind hblocks (.note_bind hblocks (.note_bind hsizes (.note_bind hblocks
    (.note_bind hfiles (.lift _)))))

theorem only_trackFilesInfo (hblocks : bounds.Allows .entries archive.blocks.length)
    (hsizes : bounds.Allows .entries archive.packSizes.length) :
    Only bounds.Admits (trackFilesInfo bounds archive) := by
  refine .read_bind fun _ num _ _ => .lift_bind fun numFiles hcount => ?_
  have h := HeaderBounds.allows_of_count hcount
  have hloop : Only bounds.Admits (trackFileProperties bounds numFiles) := fun s =>
    only_trackPropertyLoop h (held_new bounds numFiles) (s.length + 1) s
  refine .note_bind h (.bind hloop fun _ props _ hread => .lift_bind fun files hfiles => ?_)
  rw [erase_trackFileProperties] at hread
  have hlength := (assignEntries_names hfiles).length_eq
  rw [(readFileProperties_held hread).count] at hlength
  exact only_trackStreamMap hblocks hsizes (hlength ▸ h)

/-- Nothing is reserved while a header is read, whether or not that succeeds, for a count that
has not been found to be within the bounds. -/
theorem only_trackHeader : Only bounds.Admits (trackHeader bounds {}) := by
  refine .read_bind fun _ nid _ _ => .read_bind fun _ nid _ _ => .lift_bind fun _ _ => ?_
  refine .bind (only_trackSection only_trackStreamsInfo) fun s₁ streams s₂ hstreams => ?_
  rw [erase_trackSection _ (erase_trackStreamsInfo bounds)] at hstreams
  have hwithin : streams.1.StreamsWithin bounds ∧ streams.1.files = [] := by
    cases optionalSection_eq_ok hstreams with
    | inl hread =>
        obtain ⟨-, t, hread, -⟩ := hread
        exact ⟨(readStreamsInfo_within hread).1, (readStreamsInfo_parsed hread).2⟩
    | inr hskip =>
        rw [hskip.2.1]
        exact ⟨streamsWithin_empty bounds, rfl⟩
  obtain ⟨⟨hsizes, -, hblocks, -⟩, hnone⟩ := hwithin
  have hfiles : bounds.Allows .entries streams.1.files.length := by
    rw [hnone]
    exact HeaderBounds.allows_zero
  refine .bind (.ite _ (fun _ => ?_) fun _ => ?_) fun _ _ _ _ => .lift_bind fun _ _ => .pure _
  · refine .bind (only_trackFilesInfo hblocks.count hsizes) fun _ mapped _ _ => ?_
    exact .read_bind fun _ _ _ _ => .pure _
  · exact .bind (only_trackStreamMap hblocks.count hsizes hfiles) fun _ _ _ _ => .pure _

end Reserved

theorem parseHeader_bounded_iff {limits : ArchiveLimits} {nid : UInt8} {header : List UInt8}
    {archive : Archive} (hlen : header.length < 2 ^ 64)
    (h : parseHeader limits nid header = .ok archive) :
    archive.Bounded { bytes := header.length, limits } ↔ limits.maxNameBytes.toNat % 2 = 0 ∨
      ∀ file ∈ archive.files, file.nameBytes ≠ limits.maxNameBytes.toNat + 1 := by
  obtain ⟨-, s', hread⟩ := parseHeader_eq_ok h
  obtain ⟨hstreams, hfiles, htotal⟩ := readHeader_within hread
  constructor
  · intro hbounded
    refine .inr fun file hfile => ?_
    exact Nat.ne_of_lt (Nat.lt_succ_of_le (hbounded.names file hfile))
  · intro hcond
    refine
      { files := hfiles.count
        blocks := hstreams.blocks.count
        packStreams := ⟨hstreams.packSizes, hstreams.packCrcs⟩
        subStreams := hstreams.subStreams
        codersPerBlock := fun block hblock => (hstreams.blocks.each block hblock).coders
        streamsPerCoder := fun block hblock => (hstreams.blocks.each block hblock).streams
        totalCoders := htotal hlen
        names := fun file hfile => ?_ }
    have hname : file.nameBytes ≤ limits.maxNameBytes.toNat + 1 := hfiles.names file hfile
    cases hcond with
    | inl heven =>
        -- a name takes whole units, so an even limit is met exactly
        unfold ArchiveEntry.nameBytes at hname ⊢
        change _ ≤ limits.maxNameBytes.toNat
        omega
    | inr hne => exact Nat.le_of_lt_succ (Nat.lt_of_le_of_ne hname (hne file hfile))

/-- A header that is parsed reserves nothing for a count before it is bounded, and the archive
keeps to every bound exactly where the limit on names is even or no name is stored that takes one
byte more than the limit. -/
theorem header_bounded_iff (limits : ArchiveLimits) (header : List UInt8)
    (hlen : header.length < 2 ^ 64) :
    (Tracked.erase (trackHeader { bytes := header.length, limits } {}) =
        readHeader { bytes := header.length, limits } {} ∧
      ∀ e ∈ ((trackHeader { bytes := header.length, limits } {}).run header).1,
        HeaderBounds.Admits { bytes := header.length, limits } e) ∧
    (Tracked.erase (trackStreamsInfo { bytes := header.length, limits } {}) =
        readStreamsInfo { bytes := header.length, limits } {} ∧
      ∀ e ∈ ((trackStreamsInfo { bytes := header.length, limits } {}).run header).1,
        HeaderBounds.Admits { bytes := header.length, limits } e) ∧
    ∀ nid archive, parseHeader limits nid header = .ok archive →
      (archive.Bounded { bytes := header.length, limits } ↔
        limits.maxNameBytes.toNat % 2 = 0 ∨
          ∀ file ∈ archive.files, file.nameBytes ≠ limits.maxNameBytes.toNat + 1) := by
  refine ⟨⟨erase_trackHeader _ {}, only_trackHeader header⟩,
    ⟨erase_trackStreamsInfo _ {}, only_trackStreamsInfo header⟩, ?_⟩
  intro nid archive hparse
  exact parseHeader_bounded_iff hlen hparse

def oneUnitName : List UInt8 :=
  [kFilesInfo, 1, kEmptyStream, 1, 0x80, kName, 5, 0, 0x61, 0, 0, 0, kEnd, kEnd]

theorem oneUnitName_parsed : ∃ archive,
    parseHeader { maxNameBytes := 1 } kHeader oneUnitName = .ok archive ∧
      archive.files.map ArchiveEntry.nameBytes = [2] := by
  obtain ⟨archive, hparse, hcheck⟩ := Result.exists_of_holds
    (show (parseHeader { maxNameBytes := 1 } kHeader oneUnitName).holds
      (fun archive => archive.files.map ArchiveEntry.nameBytes = [2]) = true by decide +kernel)
  exact ⟨archive, hparse, of_decide_eq_true hcheck⟩

theorem oneUnitName_bounded_iff : ∃ archive,
    parseHeader { maxNameBytes := 1 } kHeader oneUnitName = .ok archive ∧
      (archive.Bounded { bytes := oneUnitName.length, limits := { maxNameBytes := 1 } } ↔
        (1 : UInt64).toNat % 2 = 0 ∨
          ∀ file ∈ archive.files, file.nameBytes ≠ (1 : UInt64).toNat + 1) := by
  obtain ⟨archive, hparse, -⟩ := oneUnitName_parsed
  have hall := header_bounded_iff { maxNameBytes := 1 } oneUnitName (by decide)
  exact ⟨archive, hparse, hall.2.2 kHeader archive hparse⟩

/-- The name of two bytes passes a limit of one. -/
theorem oneUnitName_not_bounded : ∃ archive,
    parseHeader { maxNameBytes := 1 } kHeader oneUnitName = .ok archive ∧
      ¬ archive.Bounded { bytes := oneUnitName.length, limits := { maxNameBytes := 1 } } := by
  obtain ⟨archive, hparse, hnames⟩ := oneUnitName_parsed
  refine ⟨archive, hparse, fun hbounded => ?_⟩
  have htwo : 2 ∈ archive.files.map ArchiveEntry.nameBytes := by
    rw [hnames]
    exact List.mem_singleton_self 2
  obtain ⟨file, hfile, heq⟩ := List.mem_map.mp htwo
  have hle := hbounded.names file hfile
  rw [heq] at hle
  exact absurd hle (by decide)

end Sevenz
