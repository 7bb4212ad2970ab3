import Sevenz.Header.Read
import Sevenz.Header.WellFormed
import Sevenz.Header.FileSpans

/-!
# What an accepted archive is like

Whatever bytes `read_with_limits` accepts, the archive it returns was parsed from one end
header and meets the conditions of its sections and of its stream map.
-/

namespace Sevenz

open Lib Lib.Parser

theorem assignEntry_hasStream {info : Option SubStreamsInfo} {props : FileProperties} {i : Nat}
    {file file' : ArchiveEntry} {counters counters' : EntryCounters}
    (h : assignEntry info props i file counters = .ok (file', counters')) :
    file'.hasCrc = true → file'.hasStream = true := by
  unfold assignEntry at h
  dsimp only at h
  split at h
  · obtain ⟨info', -, h⟩ := Result.bind_eq_ok.mp h
    obtain ⟨crc, -, h⟩ := Result.bind_eq_ok.mp h
    obtain ⟨size, -, h⟩ := Result.bind_eq_ok.mp h
    cases Result.pure_eq_ok.mp h
    exact fun _ => rfl
  · cases Result.pure_eq_ok.mp h
    exact fun hcrc => Bool.noConfusion hcrc

theorem assignEntries_hasStream {info : Option SubStreamsInfo} {props : FileProperties} {i : Nat}
    {files files' : List ArchiveEntry} {counters : EntryCounters}
    (h : assignEntries info props i files counters = .ok files') :
    ∀ file ∈ files', file.hasCrc = true → file.hasStream = true := by
  induction files generalizing i files' counters with
  | nil =>
      cases Result.pure_eq_ok.mp h
      simp
  | cons file files ih =>
      obtain ⟨⟨file₁, counters₁⟩, hentry, h⟩ := Result.bind_eq_ok.mp h
      obtain ⟨files₁, hentries, h⟩ := Result.bind_eq_ok.mp h
      cases Result.pure_eq_ok.mp h
      intro f hf
      rcases List.mem_cons.mp hf with rfl | hf
      · exact assignEntry_hasStream hentry
      · exact ih hentries f hf

structure Archive.Described (archive : Archive) : Prop where
  parsed : archive.Parsed
  mapped : archive.Mapped
  entries : ∀ file ∈ archive.files, file.hasCrc = true → file.hasStream = true

theorem parsed_empty : Archive.Parsed {} where
  blocks := by simp
  info info h := by cases h

theorem calculateStreamMap_described {archive archive' : Archive}
    (h : calculateStreamMap archive = .ok archive') (hparsed : archive.Parsed)
    (hentries : ∀ file ∈ archive.files, file.hasCrc = true → file.hasStream = true) :
    archive'.Described := by
  obtain ⟨hmapped, hsame, harchive⟩ := calculateStreamMap_eq_ok h
  refine ⟨⟨?_, ?_⟩, hmapped, fun file' hfile' => ?_⟩
  · rw [harchive]
    exact hparsed.blocks
  · rw [harchive]
    exact hparsed.info
  · obtain ⟨i, hi, rfl⟩ := List.getElem_of_mem hfile'
    have hi' : i < archive.files.length := hsame.length_eq ▸ hi
    have heq : archive'.files[i] = { archive.files[i] with
        compressedSize := archive'.files[i].compressedSize } := hsame.get hi' hi
    rw [heq]
    exact hentries archive.files[i] (List.getElem_mem hi')

theorem readFilesInfo_described {bounds : HeaderBounds} {archive archive' : Archive}
    {s s' : List UInt8} (h : readFilesInfo bounds archive s = .ok (archive', s'))
    (hparsed : archive.Parsed) : archive'.Described := by
  obtain ⟨num, s₁, -, h⟩ := bind_eq_ok.mp h
  obtain ⟨numFiles, -, h⟩ := lift_bind_eq_ok.mp h
  obtain ⟨props, s₂, -, h⟩ := bind_eq_ok.mp h
  obtain ⟨files, hfiles, h⟩ := lift_bind_eq_ok.mp h
  obtain ⟨archive₁, hmap, h⟩ := monadLift_eq_ok.mp h
  cases h
  exact calculateStreamMap_described hmap ⟨hparsed.blocks, hparsed.info⟩
    (assignEntries_hasStream hfiles)

theorem readFilesOrMap_described {bounds : HeaderBounds} {nid nid' : UInt8}
    {archive archive' : Archive} {s s' : List UInt8}
    (h : readFilesOrMap bounds nid archive s = .ok ((archive', nid'), s'))
    (hparsed : archive.Parsed) (hfiles : archive.files = []) : archive'.Described := by
  unfold readFilesOrMap at h
  split at h
  · obtain ⟨archive₁, s₁, hread, h⟩ := bind_eq_ok.mp h
    obtain ⟨nid₁, s₂, -, h⟩ := bind_eq_ok.mp h
    cases pure_eq_ok.mp h
    exact readFilesInfo_described hread hparsed
  · obtain ⟨archive₁, hmap, h⟩ := lift_bind_eq_ok.mp h
    cases pure_eq_ok.mp h
    refine calculateStreamMap_described hmap hparsed ?_
    rw [hfiles]
    simp

theorem readFilesOrMap_eq {bounds : HeaderBounds} {nid nid' : UInt8}
    {archive archive' : Archive} {s s' : List UInt8}
    (h : readFilesOrMap bounds nid archive s = .ok ((archive', nid'), s')) :
    archive' = { archive with files := archive'.files, streamMap := archive'.streamMap } := by
  unfold readFilesOrMap at h
  split at h
  · obtain ⟨archive₁, s₁, hread, h⟩ := bind_eq_ok.mp h
    obtain ⟨nid₁, s₂, -, h⟩ := bind_eq_ok.mp h
    cases pure_eq_ok.mp h
    obtain ⟨num, t₁, -, hread⟩ := bind_eq_ok.mp hread
    obtain ⟨numFiles, -, hread⟩ := lift_bind_eq_ok.mp hread
    obtain ⟨props, t₂, -, hread⟩ := bind_eq_ok.mp hread
    obtain ⟨files, -, hread⟩ := lift_bind_eq_ok.mp hread
    obtain ⟨archive₂, hmap, hread⟩ := monadLift_eq_ok.mp hread
    cases hread
    exact (calculateStreamMap_eq_ok hmap).2.2
  · obtain ⟨archive₁, hmap, h⟩ := lift_bind_eq_ok.mp h
    cases pure_eq_ok.mp h
    exact (calculateStreamMap_eq_ok hmap).2.2

theorem readHeader_described {bounds : HeaderBounds} {archive : Archive} {s s' : List UInt8}
    (h : readHeader bounds {} s = .ok (archive, s')) : archive.Described := by
  obtain ⟨nid, s₁, -, h⟩ := bind_eq_ok.mp h
  obtain ⟨nid₁, s₂, -, h⟩ := bind_eq_ok.mp h
  obtain ⟨_, -, h⟩ := lift_bind_eq_ok.mp h
  obtain ⟨⟨streams, nid₂⟩, s₃, hstreams, h⟩ := bind_eq_ok.mp h
  obtain ⟨⟨mapped, nid₃⟩, s₄, hmapped, h⟩ := bind_eq_ok.mp h
  obtain ⟨_, -, h⟩ := lift_bind_eq_ok.mp h
  cases pure_eq_ok.mp h
  have hparsed : streams.Parsed ∧ streams.files = [] := by
    rcases optionalSection_eq_ok hstreams with ⟨-, t, hread, -⟩ | ⟨-, rfl, -, -⟩
    · exact readStreamsInfo_parsed hread
    · exact ⟨parsed_empty, rfl⟩
  exact readFilesOrMap_described hmapped hparsed.1 hparsed.2

/-- The files before they are mapped: none, or those the sub-streams were dealt out to. -/
def Archive.Dealt (archive : Archive) : Prop :=
  archive.files = [] ∨
    ∃ props, assignEntries archive.subStreamsInfo props 0 props.files {} = .ok archive.files

theorem readHeader_dealt {bounds : HeaderBounds} {archive : Archive} {s s' : List UInt8}
    (h : readHeader bounds {} s = .ok (archive, s')) :
    ∃ described : Archive, described.Dealt ∧ calculateStreamMap described = .ok archive := by
  obtain ⟨nid, s₁, -, h⟩ := bind_eq_ok.mp h
  obtain ⟨nid₁, s₂, -, h⟩ := bind_eq_ok.mp h
  obtain ⟨_, -, h⟩ := lift_bind_eq_ok.mp h
  obtain ⟨⟨streams, nid₂⟩, s₃, hstreams, h⟩ := bind_eq_ok.mp h
  obtain ⟨⟨mapped, nid₃⟩, s₄, hmapped, h⟩ := bind_eq_ok.mp h
  obtain ⟨_, -, h⟩ := lift_bind_eq_ok.mp h
  cases pure_eq_ok.mp h
  have hempty : streams.files = [] := by
    rcases optionalSection_eq_ok hstreams with ⟨-, t, hread, -⟩ | ⟨-, rfl, -, -⟩
    · exact (readStreamsInfo_parsed hread).2
    · rfl
  unfold readFilesOrMap at hmapped
  split at hmapped
  · obtain ⟨archive₁, t₁, hread, hmapped⟩ := bind_eq_ok.mp hmapped
    obtain ⟨nid₄, t₂, -, hmapped⟩ := bind_eq_ok.mp hmapped
    cases pure_eq_ok.mp hmapped
    obtain ⟨num, t₃, -, hread⟩ := bind_eq_ok.mp hread
    obtain ⟨numFiles, -, hread⟩ := lift_bind_eq_ok.mp hread
    obtain ⟨props, t₄, -, hread⟩ := bind_eq_ok.mp hread
    obtain ⟨files, hfiles, hread⟩ := lift_bind_eq_ok.mp hread
    obtain ⟨archive₂, hmap, hread⟩ := monadLift_eq_ok.mp hread
    cases hread
    exact ⟨_, Or.inr ⟨props, hfiles⟩, hmap⟩
  · obtain ⟨archive₁, hmap, hmapped⟩ := lift_bind_eq_ok.mp hmapped
    cases pure_eq_ok.mp hmapped
    exact ⟨_, Or.inl hempty, hmap⟩

theorem readHeader_mapped {bounds : HeaderBounds} {archive : Archive} {s s' : List UInt8}
    (h : readHeader bounds {} s = .ok (archive, s')) :
    ∃ described, calculateStreamMap described = .ok archive :=
  (readHeader_dealt h).imp fun _ => And.right

theorem parseHeader_eq_ok {limits : ArchiveLimits} {nid : UInt8} {header : List UInt8}
    {archive : Archive} (h : parseHeader limits nid header = .ok archive) :
    nid = kHeader ∧
      ∃ s', readHeader { bytes := header.length, limits } {} header = .ok (archive, s') := by
  obtain ⟨_, -, h⟩ := Result.bind_eq_ok.mp h
  obtain ⟨_, hnid, h⟩ := Result.bind_eq_ok.mp h
  obtain ⟨⟨archive', s'⟩, hread, h⟩ := Result.bind_eq_ok.mp h
  cases Result.pure_eq_ok.mp h
  exact ⟨not_not.mp (Result.rejectIf_eq_ok.mp hnid), s', hread⟩

theorem sumPackSizes_eq_ok {sizes : List UInt64} {total total' : Nat}
    (h : sumPackSizes sizes total = .ok total') :
    total' = total + (sizes.map UInt64.toNat).sum := by
  induction sizes generalizing total with
  | nil =>
      cases Result.pure_eq_ok.mp h
      rfl
  | cons size sizes ih =>
      obtain ⟨total₁, hadd, h⟩ := Result.bind_eq_ok.mp h
      obtain ⟨-, rfl⟩ := checkedAdd_eq_some.mp (Result.okOr_eq_ok.mp hadd)
      rw [ih h, List.map_cons, List.sum_cons, Nat.add_assoc]

/-- Every packed byte lies inside a file of the given length, and no position overflows. -/
structure Archive.PackedWithin (archive : Archive) (fileLen : Nat) : Prop where
  packStart : packStart archive = some (signatureHeaderSize + archive.packPos.toNat)
  packEnd : signatureHeaderSize + archive.packPos.toNat +
    (archive.packSizes.map UInt64.toNat).sum ≤ fileLen

theorem checkArchive_eq_ok {limits : ArchiveLimits} {fileLen : Nat} {archive archive' : Archive}
    (h : checkArchive limits fileLen archive = .ok archive') :
    archive.PackedWithin fileLen ∧
      checkAesCoders limits (archive.blocks.flatMap Block.coders) = .ok () ∧
      archive' = { archive with
        isSolid := archive.blocks.any fun block => block.numUnpackSubStreams > 1 } := by
  obtain ⟨packedTotal, hrange, h⟩ := Result.bind_eq_ok.mp h
  obtain ⟨_, -, h⟩ := Result.bind_eq_ok.mp h
  obtain ⟨_, -, h⟩ := Result.bind_eq_ok.mp h
  obtain ⟨_, haes, h⟩ := Result.bind_eq_ok.mp h
  cases Result.pure_eq_ok.mp h
  refine ⟨?_, haes, rfl⟩
  obtain ⟨total, hsum, hrange⟩ := Result.bind_eq_ok.mp hrange
  obtain ⟨packedEnd, hend, hrange⟩ := Result.bind_eq_ok.mp hrange
  obtain ⟨_, hle, hrange⟩ := Result.bind_eq_ok.mp hrange
  obtain ⟨start, hstart, hadd⟩ := Option.bind_eq_some_iff.mp (Result.okOr_eq_ok.mp hend)
  obtain ⟨-, rfl⟩ := checkedAdd_eq_some.mp hstart
  obtain ⟨-, rfl⟩ := checkedAdd_eq_some.mp hadd
  have hle := Nat.le_of_not_lt (Result.rejectIf_eq_ok.mp hle)
  rw [sumPackSizes_eq_ok hsum, Nat.zero_add] at hle
  exact ⟨hstart, hle⟩

def ReadFrom (codecs : Codecs) (limits : ArchiveLimits) (passwordGiven : Bool)
    (file header : List UInt8) (archive : Archive) : Prop :=
  ∃ startHeader verifyCrc buf parsed,
    loadEndHeader codecs limits file startHeader verifyCrc = .ok buf ∧
    openHeader codecs limits passwordGiven buf = .ok (kHeader, header) ∧
    parseHeader limits kHeader header = .ok parsed ∧
    checkArchive limits file.length parsed = .ok archive

section Accepted

variable {codecs : Codecs} {limits : ArchiveLimits} {passwordGiven : Bool}
  {file header : List UInt8} {archive : Archive}

theorem initArchive_eq_ok {startHeader : StartHeader} {verifyCrc : Bool}
    (h : initArchive codecs limits passwordGiven file startHeader verifyCrc = .ok archive) :
    ∃ header, ReadFrom codecs limits passwordGiven file header archive := by
  obtain ⟨buf, hbuf, h⟩ := Result.bind_eq_ok.mp h
  obtain ⟨⟨nid, header⟩, hopen, h⟩ := Result.bind_eq_ok.mp h
  obtain ⟨parsed, hparse, hcheck⟩ := Result.bind_eq_ok.mp h
  obtain ⟨rfl, -⟩ := parseHeader_eq_ok hparse
  exact ⟨header, startHeader, verifyCrc, buf, parsed, hbuf, hopen, hparse, hcheck⟩

theorem scanEndHeader_eq_ok {attempt : StartHeader → Result Archive} {minPos pos : Nat}
    (h : scanEndHeader attempt file minPos pos = .ok archive) :
    ∃ startHeader, attempt startHeader = .ok archive := by
  induction pos with
  | zero => cases h
  | succ pos ih =>
      unfold scanEndHeader at h
      split at h
      · cases h
      · obtain ⟨nid, -, h⟩ := Result.bind_eq_ok.mp h
        split at h
        · obtain ⟨result, hresult, h⟩ := Result.bind_eq_ok.mp h
          split at h
          · exact ih h
          · cases Result.pure_eq_ok.mp h
            exact ⟨_, hresult⟩
        · exact ih h

theorem readWithLimits_readFrom
    (h : readWithLimits codecs limits passwordGiven file = .ok archive) :
    ∃ header, ReadFrom codecs limits passwordGiven file header archive := by
  obtain ⟨⟨crc, rest⟩, -, h⟩ := Result.bind_eq_ok.mp h
  obtain ⟨⟨valid, rest'⟩, -, h⟩ := Result.bind_eq_ok.mp h
  dsimp only at h
  split at h
  · obtain ⟨⟨startHeader, rest''⟩, -, h⟩ := Result.bind_eq_ok.mp h
    exact initArchive_eq_ok h
  · obtain ⟨startHeader, h⟩ := scanEndHeader_eq_ok h
    exact initArchive_eq_ok h

theorem ReadFrom.described (h : ReadFrom codecs limits passwordGiven file header archive) :
    archive.Described := by
  obtain ⟨startHeader, verifyCrc, buf, parsed, -, -, hparse, hcheck⟩ := h
  obtain ⟨-, s', hread⟩ := parseHeader_eq_ok hparse
  obtain ⟨hparsed, hmapped, hentries⟩ := readHeader_described hread
  obtain ⟨-, -, rfl⟩ := checkArchive_eq_ok hcheck
  exact ⟨⟨hparsed.blocks, hparsed.info⟩,
    ⟨hmapped.firstPack, hmapped.packed, hmapped.packOffsets, hmapped.firstSubStream,
      hmapped.firstFile, hmapped.fileBlock, hmapped.fits, hmapped.spans, hmapped.filled,
      hmapped.begun, hmapped.streamed⟩, hentries⟩

theorem readWithLimits_described
    (h : readWithLimits codecs limits passwordGiven file = .ok archive) : archive.Described := by
  obtain ⟨header, hfrom⟩ := readWithLimits_readFrom h
  exact hfrom.described

theorem readWithLimits_inFileOrder
    (h : readWithLimits codecs limits passwordGiven file = .ok archive) : archive.InFileOrder := by
  obtain ⟨header, startHeader, verifyCrc, buf, parsed, -, -, hparse, hcheck⟩ :=
    readWithLimits_readFrom h
  obtain ⟨-, s', hread⟩ := parseHeader_eq_ok hparse
  obtain ⟨described, hmap⟩ := readHeader_mapped hread
  obtain ⟨-, -, rfl⟩ := checkArchive_eq_ok hcheck
  exact (calculateStreamMap_inFileOrder hmap : parsed.InFileOrder)

theorem readWithLimits_packedWithin
    (h : readWithLimits codecs limits passwordGiven file = .ok archive) :
    archive.PackedWithin file.length := by
  obtain ⟨header, startHeader, verifyCrc, buf, parsed, -, -, -, hcheck⟩ := readWithLimits_readFrom h
  obtain ⟨hwithin, -, rfl⟩ := checkArchive_eq_ok hcheck
  exact ⟨hwithin.packStart, hwithin.packEnd⟩

end Accepted

end Sevenz
