import Sevenz.Header.SubStreamSizes

/-!
# Sub-stream digests

Which sub-streams `read_sub_streams_info` gives a CRC, and which CRC that is.
-/

namespace Sevenz

open Lib Lib.Parser

def SubStreamsInfo.Carries (info : SubStreamsInfo) (k : Nat) (c : UInt32) : Prop :=
  info.hasCrc.contains k = true ∧ ∃ crc, info.crcs[k]? = some crc ∧ crc.toUInt32 = c

namespace Archive

structure SubStream where
  index : Nat
  size : UInt64
  crc : Option UInt32
deriving DecidableEq, Repr

def subStream (archive : Archive) (index : Nat) : Option SubStream := do
  let info ← archive.subStreamsInfo
  let size ← info.unpackSizes[index]?
  pure
    { index
      size
      crc := if info.hasCrc.contains index then info.crcs[index]?.map UInt64.toUInt32 else none }

def Carries (archive : Archive) (k : Nat) (c : UInt32) : Prop :=
  (archive.subStream k).bind SubStream.crc = some c

theorem carries_iff {archive : Archive} {info : SubStreamsInfo} (h : archive.Parsed)
    (hinfo : archive.subStreamsInfo = some info) (k : Nat) (c : UInt32) :
    archive.Carries k c ↔ info.Carries k c := by
  obtain ⟨hsizes, -, hhas⟩ := h.info info hinfo
  unfold Carries subStream SubStreamsInfo.Carries
  rw [hinfo]
  simp only [Option.bind_eq_bind, Option.bind_some, Option.pure_def]
  cases hcontains : info.hasCrc.contains k with
  | false => cases info.unpackSizes[k]? <;> simp
  | true =>
      have hk := hhas k hcontains
      rw [← hsizes] at hk
      rw [List.getElem?_eq_getElem hk]
      simp [Option.map_eq_some_iff]

end Archive

def subStreamBlocks (blocks : List Block) : List Block :=
  blocks.flatMap fun block => List.replicate block.numUnpackSubStreams block

/-- How many of the first `k` sub-streams have their place in the digest list. -/
def listedBefore (blocks : List Block) (k : Nat) : Nat :=
  ((subStreamBlocks blocks).take k).countP fun block => !block.ownsDigest

@[simp] theorem subStreamBlocks_length (blocks : List Block) :
    (subStreamBlocks blocks).length = countSubStreams blocks := by
  simp [subStreamBlocks, countSubStreams, List.length_flatMap]

theorem listedBefore_succ {blocks : List Block} {k : Nat} {block : Block}
    (h : (subStreamBlocks blocks)[k]? = some block) :
    listedBefore blocks (k + 1) =
      listedBefore blocks k + if block.ownsDigest then 0 else 1 := by
  rw [listedBefore, List.take_add_one, h, List.countP_append, listedBefore]
  cases hown : block.ownsDigest <;> simp [hown]

/-- The blocks a sub-streams section describes and its digest list, when it has one. -/
structure DigestListing where
  blocks : List Block
  listed : Option (List (Option UInt32))

/-- The `k`th sub-stream is declared to have the CRC `c`: as the CRC of the block whose only
sub-stream it is, or at its place in the digest list. -/
def DigestListing.Declares (listing : DigestListing) (k : Nat) (c : UInt32) : Prop :=
  ∃ block, (subStreamBlocks listing.blocks)[k]? = some block ∧
    (block.ownsDigest = true ∧ block.crc.toUInt32 = c ∨
      block.ownsDigest = false ∧
        (listing.listed.getD [])[listedBefore listing.blocks k]? = some (some c))

def listDigests (defined : BitSet) (crcs : List UInt64) : List (Option UInt32) :=
  crcs.zipIdx.map fun crc => if defined.contains crc.2 then some crc.1.toUInt32 else none

theorem listDigests_getElem? (defined : BitSet) (crcs : List UInt64) (i : Nat) (c : UInt32) :
    (listDigests defined crcs)[i]? = some (some c) ↔
      defined.contains i = true ∧ ∃ crc, crcs[i]? = some crc ∧ crc.toUInt32 = c := by
  rw [listDigests, List.getElem?_map, List.getElem?_zipIdx]
  cases crcs[i]? with
  | none => simp
  | some crc => cases hi : defined.contains i <;> simp [hi]

def readDigestList (blocks : List Block) (numDigests : Nat) (nid : UInt8) :
    HeaderReader DigestListing :=
  if nid = kCrc then do
    let defined ← readAllOrBits numDigests
    let crcs ← readDigests numDigests defined
    pure { blocks, listed := some (listDigests defined crcs) }
  else pure { blocks, listed := none }

def readListedDigests (counts : SubStreamCounts) : HeaderReader DigestListing := do
  let _sizes ← readSubStreamSizes counts.nid counts.blocks
    (List.replicate counts.totalUnpackStreams 0) 0
  let nid ← skipSizeId counts.nid
  let numDigests ← countDigests counts.totalUnpackStreams counts.blocks 0
  readDigestList counts.blocks numDigests nid

def headerDigests (bounds : HeaderBounds) : HeaderReader DigestListing := do
  let counts ← headerCounts bounds
  readListedDigests counts

inductive DigestSlot (blocks : List Block) (missing : BitSet) (missingCrcs : List UInt64)
    (k : Nat) (block : Block) : Bool → UInt64 → Prop
  | own (h : block.ownsDigest = true) :
      DigestSlot blocks missing missingCrcs k block true block.crc
  | listed (h : block.ownsDigest = false) {crc : UInt64}
      (hcrc : missingCrcs[listedBefore blocks k]? = some crc) :
      DigestSlot blocks missing missingCrcs k block
        (missing.contains (listedBefore blocks k)) crc

/-- The digests of the sub-streams before the cursor are stored, none after it is, and the
cursor in the digest list has passed the sub-streams that have their place in it. -/
structure DigestFill.UpToCursor (blocks : List Block) (missing : BitSet) (missingCrcs : List UInt64)
    (fill : DigestFill) : Prop where
  nextMissing : fill.nextMissingCrc = listedBefore blocks fill.nextCrc
  stored : ∀ k < fill.nextCrc, ∃ block crc, (subStreamBlocks blocks)[k]? = some block ∧
    fill.crcs[k]? = some crc ∧
    DigestSlot blocks missing missingCrcs k block (fill.hasCrc.contains k) crc
  free : ∀ k ≥ fill.nextCrc, fill.hasCrc.contains k = false

section Fill

variable {all : List Block} {missing : BitSet} {missingCrcs : List UInt64}

theorem DigestFill.UpToCursor.store {fill : DigestFill} {block : Block} {hasCrc : BitSet} {has : Bool}
    {crc : UInt64} {crcs : List UInt64} (h : fill.UpToCursor all missing missingCrcs)
    (hblock : (subStreamBlocks all)[fill.nextCrc]? = some block)
    (hslot : DigestSlot all missing missingCrcs fill.nextCrc block has crc)
    (hset : Result.setIndex fill.crcs fill.nextCrc crc = .ok crcs)
    (hhas : ∀ k, hasCrc.contains k = if k = fill.nextCrc then has else fill.hasCrc.contains k) :
    DigestFill.UpToCursor all missing missingCrcs
      { hasCrc, crcs, nextCrc := fill.nextCrc + 1,
        nextMissingCrc := fill.nextMissingCrc + if block.ownsDigest then 0 else 1 } := by
  obtain ⟨hlt, rfl⟩ := Result.setIndex_eq_ok.mp hset
  constructor
  · rw [listedBefore_succ hblock, h.nextMissing]
  · intro k hk
    by_cases hcursor : k = fill.nextCrc
    · subst hcursor
      refine ⟨block, crc, hblock, List.getElem?_set_self hlt, ?_⟩
      rw [hhas, if_pos rfl]
      exact hslot
    · have hbefore : k < fill.nextCrc := by
        have : k < fill.nextCrc + 1 := hk
        omega
      obtain ⟨block', crc', hblock', hcrc', hslot'⟩ := h.stored k hbefore
      refine ⟨block', crc', hblock', ?_, ?_⟩
      · rw [List.getElem?_set_ne (Ne.symm hcursor)]
        exact hcrc'
      · rw [hhas, if_neg hcursor]
        exact hslot'
  · intro k hk
    have hk : fill.nextCrc + 1 ≤ k := hk
    rw [hhas, if_neg (by omega)]
    exact h.free k (by omega)

theorem fillMissing_upToCursor {block : Block} {n : Nat} {fill fill' : DigestFill}
    (h : fillMissing missing missingCrcs n fill = .ok fill')
    (hown : block.ownsDigest = false)
    (hblocks : ∀ j < n, (subStreamBlocks all)[fill.nextCrc + j]? = some block)
    (hfill : fill.UpToCursor all missing missingCrcs) :
    fill'.UpToCursor all missing missingCrcs ∧ fill'.nextCrc = fill.nextCrc + n := by
  induction n generalizing fill with
  | zero =>
      cases Result.pure_eq_ok.mp h
      exact ⟨hfill, rfl⟩
  | succ n ih =>
      obtain ⟨crc, hcrc, h⟩ := Result.bind_eq_ok.mp h
      obtain ⟨crcs, hset, h⟩ := Result.bind_eq_ok.mp h
      have hblock := hblocks 0 (Nat.succ_pos n)
      rw [hfill.nextMissing] at hcrc
      have hslot : DigestSlot all missing missingCrcs fill.nextCrc block
          (missing.contains (listedBefore all fill.nextCrc)) crc :=
        .listed hown (Result.index_eq_ok.mp hcrc)
      have hhas : ∀ k, (if missing.contains fill.nextMissingCrc then fill.hasCrc.insert fill.nextCrc
          else fill.hasCrc.remove fill.nextCrc).contains k =
            if k = fill.nextCrc then missing.contains (listedBefore all fill.nextCrc)
            else fill.hasCrc.contains k := by
        intro k
        rw [hfill.nextMissing]
        by_cases hk : k = fill.nextCrc <;>
          cases hhas : missing.contains (listedBefore all fill.nextCrc) <;> simp [hk]
      have hstep := hfill.store hblock hslot hset hhas
      rw [hown] at hstep
      have hrest : ∀ j < n, (subStreamBlocks all)[fill.nextCrc + 1 + j]? = some block := by
        intro j hj
        rw [Nat.add_assoc, Nat.add_comm 1 j]
        exact hblocks (j + 1) (Nat.succ_lt_succ hj)
      obtain ⟨hfilled, hnext⟩ := ih h hrest hstep
      refine ⟨hfilled, hnext.trans ?_⟩
      rw [Nat.add_assoc, Nat.add_comm 1 n]

theorem fillDigests_upToCursor {blocks before : List Block} {fill fill' : DigestFill}
    (h : fillDigests missing missingCrcs blocks fill = .ok fill')
    (hall : subStreamBlocks all = before ++ subStreamBlocks blocks)
    (hbefore : before.length = fill.nextCrc) (hfill : fill.UpToCursor all missing missingCrcs) :
    fill'.UpToCursor all missing missingCrcs ∧ fill'.nextCrc = countSubStreams all := by
  induction blocks generalizing before fill with
  | nil =>
      cases Result.pure_eq_ok.mp h
      refine ⟨hfill, ?_⟩
      rw [← subStreamBlocks_length, hall, ← hbefore]
      simp [subStreamBlocks]
  | cons block blocks ih =>
      have hcons : subStreamBlocks all =
          (before ++ List.replicate block.numUnpackSubStreams block) ++ subStreamBlocks blocks := by
        rw [hall, List.append_assoc]
        rfl
      have hblocks : ∀ j < block.numUnpackSubStreams,
          (subStreamBlocks all)[fill.nextCrc + j]? = some block := by
        intro j hj
        rw [hall, ← hbefore, List.getElem?_append_right (Nat.le_add_right _ _),
          Nat.add_sub_cancel_left, subStreamBlocks, List.flatMap_cons,
          List.getElem?_append_left (by rwa [List.length_replicate]),
          List.getElem?_replicate, if_pos hj]
      unfold fillDigests at h
      split at h
      · rename_i hown
        obtain ⟨crcs, hset, h⟩ := Result.bind_eq_ok.mp h
        have hone : block.numUnpackSubStreams = 1 := by
          rw [Block.ownsDigest, Bool.and_eq_true] at hown
          exact eq_of_beq hown.1
        have hhas : ∀ k, (fill.hasCrc.insert fill.nextCrc).contains k =
            if k = fill.nextCrc then true else fill.hasCrc.contains k := by
          intro k
          by_cases hk : k = fill.nextCrc <;> simp [hk]
        have hstep := hfill.store (hblocks 0 (by omega)) (.own hown) hset hhas
        rw [hown] at hstep
        exact ih h hcons (by simp [hbefore, hone]) hstep
      · rename_i hown
        obtain ⟨fill₁, hmissing, h⟩ := Result.bind_eq_ok.mp h
        obtain ⟨hfilled, hnext⟩ :=
          fillMissing_upToCursor hmissing (Bool.eq_false_of_not_eq_true hown) hblocks hfill
        exact ih h hcons (by simp [hbefore, hnext]) hfilled

end Fill

theorem carries_iff_declares {blocks : List Block} {missing : BitSet} {missingCrcs : List UInt64}
    {fill : DigestFill} {info : SubStreamsInfo}
    (h : fill.UpToCursor blocks missing missingCrcs) (hnext : fill.nextCrc = countSubStreams blocks)
    (hhas : info.hasCrc = fill.hasCrc) (hcrcs : info.crcs = fill.crcs) (k : Nat) (c : UInt32) :
    info.Carries k c ↔
      DigestListing.Declares { blocks, listed := some (listDigests missing missingCrcs) } k c := by
  rw [SubStreamsInfo.Carries, hhas, hcrcs]
  by_cases hk : k < fill.nextCrc
  · obtain ⟨block, crc, hblock, hcrc, hslot⟩ := h.stored k hk
    rw [DigestListing.Declares, hblock, hcrc, Option.getD_some, listDigests_getElem?]
    generalize fill.hasCrc.contains k = has at hslot ⊢
    cases hslot with
    | own hown => simp [hown]
    | listed hown hlisted => simp [hown, hlisted]
  · rw [h.free k (Nat.le_of_not_lt hk)]
    constructor
    · intro hcarries
      exact absurd hcarries.1 Bool.false_ne_true
    · rintro ⟨block, hblock, -⟩
      have hlt := (List.getElem?_eq_some_iff.mp hblock).1
      rw [subStreamBlocks_length, ← hnext] at hlt
      exact absurd hlt hk

structure DigestListing.StoredIn (listing : DigestListing) (info : SubStreamsInfo) : Prop where
  listed : listing.listed ≠ none → ∀ k c, info.Carries k c ↔ listing.Declares k c
  bare : listing.listed = none → ∀ k c, ¬ info.Carries k c

theorem readSubStreamDigests_stored {blocks : List Block} {numDigests : Nat}
    {info info' : SubStreamsInfo} {nid nid' : UInt8} {s s' : List UInt8}
    (h : readSubStreamDigests blocks numDigests info nid s = .ok ((info', nid'), s'))
    (hfresh : ∀ k, info.hasCrc.contains k = false) :
    ∃ listing t, readDigestList blocks numDigests nid s = .ok (listing, t) ∧
      listing.blocks = blocks ∧ listing.StoredIn info' := by
  unfold readSubStreamDigests at h
  unfold readDigestList
  by_cases hnid : nid = kCrc
  · rw [if_pos hnid] at h ⊢
    obtain ⟨missing, t₁, hmissing, h⟩ := bind_eq_ok.mp h
    obtain ⟨crcs, t₂, hcrcs, h⟩ := bind_eq_ok.mp h
    obtain ⟨fill, hfill, h⟩ := lift_bind_eq_ok.mp h
    obtain ⟨nid₁, t₃, -, h⟩ := bind_eq_ok.mp h
    cases pure_eq_ok.mp h
    obtain ⟨hfilled, hnext⟩ := fillDigests_upToCursor hfill (List.nil_append _).symm rfl
      ⟨rfl, fun k hk => absurd hk (Nat.not_lt_zero k), fun k _ => hfresh k⟩
    exact ⟨{ blocks, listed := some (listDigests missing crcs) }, t₂,
      (bind_apply_ok hmissing).trans (bind_apply_ok hcrcs), rfl,
      fun _ => carries_iff_declares hfilled hnext rfl rfl, nofun⟩
  · rw [if_neg hnid] at h ⊢
    cases pure_eq_ok.mp h
    refine ⟨{ blocks, listed := none }, s, rfl, rfl, fun hsome => absurd rfl hsome, ?_⟩
    intro _ k c hcarries
    have hcontains := hcarries.1
    rw [hfresh k] at hcontains
    exact Bool.false_ne_true hcontains

theorem readSubStreamsInfo_digests {bounds : HeaderBounds} {archive archive' : Archive}
    {s s' : List UInt8} (h : readSubStreamsInfo bounds archive s = .ok (archive', s')) :
    ∃ counts t listing t' info, readSubStreamCounts bounds archive.blocks s = .ok (counts, t) ∧
      readListedDigests counts t = .ok (listing, t') ∧ listing.blocks = archive'.blocks ∧
      archive'.subStreamsInfo = some info ∧ listing.StoredIn info := by
  obtain ⟨counts, s₁, hcounts, h⟩ := bind_eq_ok.mp h
  obtain ⟨sizes, s₂, hsizes, h⟩ := bind_eq_ok.mp h
  obtain ⟨nid, s₃, hskip, h⟩ := bind_eq_ok.mp h
  obtain ⟨numDigests, hnum, h⟩ := lift_bind_eq_ok.mp h
  obtain ⟨⟨info, nid'⟩, s₄, hdigests, h⟩ := bind_eq_ok.mp h
  obtain ⟨_, -, h⟩ := lift_bind_eq_ok.mp h
  cases pure_eq_ok.mp h
  obtain ⟨listing, t, hlist, hblocks, hstored⟩ :=
    readSubStreamDigests_stored hdigests fun k => by simp [BitSet.reserveLenExact]
  have hread : readListedDigests counts s₁ = .ok (listing, t) :=
    (bind_apply_ok hsizes).trans ((bind_apply_ok hskip).trans
      (lift_bind_eq_ok.mpr ⟨numDigests, hnum, hlist⟩))
  exact ⟨counts, s₁, listing, t, info, hcounts, hread, hblocks, rfl, hstored⟩

theorem exists_declares_of_ownsDigest {listing : DigestListing} {block : Block}
    (hmem : block ∈ listing.blocks) (hown : block.ownsDigest = true) :
    ∃ k, listing.Declares k block.crc.toUInt32 := by
  have hone : block.numUnpackSubStreams ≠ 0 := by
    rw [Block.ownsDigest, Bool.and_eq_true] at hown
    rw [eq_of_beq hown.1]
    exact Nat.one_ne_zero
  have hin : block ∈ subStreamBlocks listing.blocks :=
    List.mem_flatMap.mpr ⟨block, hmem, List.mem_replicate.mpr ⟨hone, rfl⟩⟩
  obtain ⟨k, hk⟩ := List.mem_iff_getElem?.mp hin
  exact ⟨k, block, hk, .inl ⟨hown, rfl⟩⟩

theorem not_declares_of_bare {listing : DigestListing} (hbare : listing.listed = none)
    (hown : ∀ block ∈ listing.blocks, block.ownsDigest = false) (k : Nat) (c : UInt32) :
    ¬ listing.Declares k c := by
  rintro ⟨block, hblock, ⟨howns, -⟩ | ⟨-, hlisted⟩⟩
  · obtain ⟨owner, hmem, hblock⟩ := List.mem_flatMap.mp (List.mem_of_getElem? hblock)
    obtain ⟨-, rfl⟩ := List.mem_replicate.mp hblock
    rw [hown block hmem] at howns
    exact Bool.false_ne_true howns
  · rw [hbare] at hlisted
    cases hlisted

namespace DigestListing.StoredIn

variable {listing : DigestListing} {info : SubStreamsInfo} (h : listing.StoredIn info)
include h

theorem declares {k : Nat} {c : UInt32} (hcarries : info.Carries k c) : listing.Declares k c := by
  by_cases hbare : listing.listed = none
  · exact absurd hcarries (h.bare hbare k c)
  · exact (h.listed hbare k c).mp hcarries

theorem carries_iff_declares_iff :
    (∀ k c, info.Carries k c ↔ listing.Declares k c) ↔
      listing.listed ≠ none ∨ ∀ block ∈ listing.blocks, block.ownsDigest = false := by
  by_cases hbare : listing.listed = none
  · rw [or_iff_right (not_not.mpr hbare)]
    constructor
    · intro hiff block hmem
      by_contra hown
      obtain ⟨k, hk⟩ := exists_declares_of_ownsDigest hmem (Bool.eq_true_of_not_eq_false hown)
      exact h.bare hbare k _ ((hiff k _).mpr hk)
    · intro hown k c
      exact iff_of_false (h.bare hbare k c) (not_declares_of_bare hbare hown k c)
  · exact iff_of_true (h.listed hbare) (.inl hbare)

end DigestListing.StoredIn

theorem readHeader_digests {bounds : HeaderBounds} {archive : Archive} {info : SubStreamsInfo}
    {s s' : List UInt8} (h : readHeader bounds {} s = .ok (archive, s'))
    (hinfo : archive.subStreamsInfo = some info) :
    ∃ listing t, headerDigests bounds s = .ok (listing, t) ∧ listing.blocks = archive.blocks ∧
      listing.StoredIn info := by
  obtain ⟨unpacked, streams, t, t', hread, heq, hblocks, hsome⟩ := readHeader_subStreams h hinfo
  obtain ⟨counts, u, listing, u', info', hcounts, hlist, hsame, hsome', hstored⟩ :=
    readSubStreamsInfo_digests hread
  cases hsome'.symm.trans hsome
  exact ⟨listing, u', (bind_apply_ok (heq.trans hcounts)).trans hlist, hsame.trans hblocks,
    hstored⟩

theorem ReadFrom.digests {codecs : Codecs} {limits : ArchiveLimits} {passwordGiven : Bool}
    {file header : List UInt8} {archive : Archive} {info : SubStreamsInfo}
    (h : ReadFrom codecs limits passwordGiven file header archive)
    (hinfo : archive.subStreamsInfo = some info) :
    ∃ listing t, headerDigests { bytes := header.length, limits } header = .ok (listing, t) ∧
      listing.blocks = archive.blocks ∧ listing.StoredIn info := by
  obtain ⟨startHeader, verifyCrc, buf, parsed, -, -, hparse, hcheck⟩ := h
  obtain ⟨-, s', hread⟩ := parseHeader_eq_ok hparse
  obtain ⟨-, -, rfl⟩ := checkArchive_eq_ok hcheck
  have hparsed : parsed.subStreamsInfo = some info := hinfo
  have hdigests := readHeader_digests hread hparsed
  exact hdigests

/-- The sub-streams of an accepted archive carry no CRC but the one declared for them.  They
carry each one declared exactly where the section has a digest list, or no block's own CRC is
the CRC of its only sub-stream. -/
theorem readWithLimits_carries_iff {codecs : Codecs} {limits : ArchiveLimits}
    {passwordGiven : Bool} {file : List UInt8} {archive : Archive} {info : SubStreamsInfo}
    (h : readWithLimits codecs limits passwordGiven file = .ok archive)
    (hinfo : archive.subStreamsInfo = some info) :
    (∃ header, ReadFrom codecs limits passwordGiven file header archive) ∧
      ∀ header, ReadFrom codecs limits passwordGiven file header archive →
        ∃ listing t, headerDigests { bytes := header.length, limits } header = .ok (listing, t) ∧
          listing.blocks = archive.blocks ∧
          (∀ k c, archive.Carries k c → listing.Declares k c) ∧
          ((∀ k c, archive.Carries k c ↔ listing.Declares k c) ↔
            listing.listed ≠ none ∨ ∀ block ∈ listing.blocks, block.ownsDigest = false) := by
  refine ⟨readWithLimits_readFrom h, fun header hfrom => ?_⟩
  obtain ⟨listing, t, hlist, hblocks, hstored⟩ := hfrom.digests hinfo
  have hcarries := Archive.carries_iff hfrom.described.parsed hinfo
  refine ⟨listing, t, hlist, hblocks, ?_, ?_⟩
  · intro k c hk
    exact hstored.declares ((hcarries k c).mp hk)
  · simp only [hcarries]
    exact hstored.carries_iff_declares_iff

/-- One block of one byte, whose CRC is known, and a sub-streams section without digests. -/
def bareDigestsFile : List UInt8 :=
  archiveFile crc32 [0x41]
    [kHeader, kMainStreamsInfo,
      kPackInfo, 0, 1, kSize, 1, kEnd,
      kUnpackInfo, kFolder, 1, 0, 1, 1, 0, kCodersUnpackSize, 1, kCrc, 1, 0x8B, 0x9E, 0xD9, 0xD3,
        kEnd,
      kSubStreamsInfo, kEnd, kEnd,
      kFilesInfo, 1, kEnd, kEnd]

theorem bareDigestsFile_accepted : ∃ archive info block,
    readWithLimits (.copying bareDigestsFile) {} false bareDigestsFile = .ok archive ∧
      archive.subStreamsInfo = some info ∧ archive.blocks[0]? = some block ∧
      block.numUnpackSubStreams = 1 ∧ block.ownsDigest = true ∧
      archive.subStream 0 = some { index := 0, size := 1, crc := none } := by
  obtain ⟨archive, hread, hcheck⟩ := Result.exists_of_holds
    (show (readWithLimits (.copying bareDigestsFile) {} false bareDigestsFile).holds
      (fun archive => archive.subStreamsInfo.isSome && archive.blocks[0]?.any fun block =>
        block.numUnpackSubStreams = 1 ∧ block.ownsDigest = true ∧
          archive.subStream 0 = some { index := 0, size := 1, crc := none }) = true by
      decide +kernel)
  obtain ⟨hinfo, hcheck⟩ := Bool.and_eq_true_iff.mp hcheck
  obtain ⟨info, hinfo⟩ := Option.isSome_iff_exists.mp hinfo
  obtain ⟨block, hblock, hcheck⟩ := (Option.any_eq_true _ _).mp hcheck
  exact ⟨archive, info, block, hread, hinfo, hblock, of_decide_eq_true hcheck⟩

theorem bareDigestsFile_carries_iff : ∃ archive info,
    readWithLimits (.copying bareDigestsFile) {} false bareDigestsFile = .ok archive ∧
      archive.subStreamsInfo = some info ∧
      ∃ header, ReadFrom (.copying bareDigestsFile) {} false bareDigestsFile header archive ∧
        ∃ listing t, headerDigests { bytes := header.length, limits := {} } header =
            .ok (listing, t) ∧
          ((∀ k c, archive.Carries k c ↔ listing.Declares k c) ↔
            listing.listed ≠ none ∨ ∀ block ∈ listing.blocks, block.ownsDigest = false) := by
  obtain ⟨archive, info, block, hread, hinfo, -⟩ := bareDigestsFile_accepted
  obtain ⟨⟨header, hfrom⟩, hdigests⟩ := readWithLimits_carries_iff hread hinfo
  obtain ⟨listing, t, hlist, -, -, hiff⟩ := hdigests header hfrom
  exact ⟨archive, info, hread, hinfo, header, hfrom, listing, t, hlist, hiff⟩

/-- The only sub-stream of a block with a CRC goes without one. -/
theorem bareDigestsFile_uncarried : ∃ archive header listing t c,
    readWithLimits (.copying bareDigestsFile) {} false bareDigestsFile = .ok archive ∧
      ReadFrom (.copying bareDigestsFile) {} false bareDigestsFile header archive ∧
      headerDigests { bytes := header.length, limits := {} } header = .ok (listing, t) ∧
      listing.Declares 0 c ∧ ¬ archive.Carries 0 c := by
  obtain ⟨archive, info, block, hread, hinfo, hblock, hone, hown, hbare⟩ :=
    bareDigestsFile_accepted
  obtain ⟨header, hfrom⟩ := readWithLimits_readFrom hread
  obtain ⟨listing, t, hlist, hblocks, -⟩ := hfrom.digests hinfo
  refine ⟨archive, header, listing, t, block.crc.toUInt32, hread, hfrom, hlist, ?_, ?_⟩
  · refine ⟨block, ?_, .inl ⟨hown, rfl⟩⟩
    rw [hblocks]
    obtain ⟨rest, hrest⟩ : ∃ rest, archive.blocks = block :: rest := by
      cases hall : archive.blocks with
      | nil => simp [hall] at hblock
      | cons first rest =>
          rw [hall, List.getElem?_cons_zero, Option.some.injEq] at hblock
          exact ⟨rest, by rw [hblock]⟩
    rw [hrest, subStreamBlocks, List.flatMap_cons, hone]
    rfl
  · rw [Archive.Carries, hbare]
    exact nofun

end Sevenz
