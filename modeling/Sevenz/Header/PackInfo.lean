import Sevenz.Header.Number
import Mathlib.Algebra.Order.BigOperators.Group.List
import Mathlib.Algebra.Order.Group.Nat

/-!
# The pack info section

`writer/pack_info.rs` against `Archive::read_pack_info`.  The writer's digest block has two
shapes, and the reader expects the defined digests after the bit vector of the second.
-/

namespace Sevenz

open Lib Lib.Parser

/-- The pack streams written so far.  A size and a digest are recorded together, so the two
lists have one length. -/
structure PackInfo where
  crcs : List UInt32 := []
  sizes : List UInt64 := []
  pos : UInt64 := 0
  length_crcs : crcs.length = sizes.length := by rfl
  deriving DecidableEq

namespace PackInfo

theorem crcs_nil : ([] : List UInt32).length = ([] : List UInt64).length := rfl

def addStream (info : PackInfo) (size : UInt64) (crc : UInt32) : PackInfo where
  crcs := info.crcs ++ [crc]
  sizes := info.sizes ++ [size]
  pos := info.pos
  length_crcs := by rw [List.length_append, List.length_append, info.length_crcs]; rfl

def len (info : PackInfo) : Nat := info.sizes.length

theorem len_eq_length_crcs (info : PackInfo) : info.len = info.crcs.length :=
  info.length_crcs.symm

def addStreams (info : PackInfo) (streams : List (UInt64 × UInt32)) : PackInfo :=
  streams.foldl (fun info stream => info.addStream stream.1 stream.2) info

@[simp] theorem addStreams_cons (info : PackInfo) (stream : UInt64 × UInt32)
    (streams : List (UInt64 × UInt32)) :
    info.addStreams (stream :: streams) =
      (info.addStream stream.1 stream.2).addStreams streams := rfl

@[simp] theorem pos_addStreams (info : PackInfo) (streams : List (UInt64 × UInt32)) :
    (info.addStreams streams).pos = info.pos := by
  induction streams generalizing info with
  | nil => rfl
  | cons stream streams ih => rw [addStreams_cons, ih]; rfl

theorem sizes_addStreams (info : PackInfo) (streams : List (UInt64 × UInt32)) :
    (info.addStreams streams).sizes = info.sizes ++ streams.map Prod.fst := by
  induction streams generalizing info with
  | nil => simp [addStreams]
  | cons stream streams ih =>
      rw [addStreams_cons, ih, List.map_cons]
      exact List.append_assoc _ _ _

theorem crcs_addStreams (info : PackInfo) (streams : List (UInt64 × UInt32)) :
    (info.addStreams streams).crcs = info.crcs ++ streams.map Prod.snd := by
  induction streams generalizing info with
  | nil => simp [addStreams]
  | cons stream streams ih =>
      rw [addStreams_cons, ih, List.map_cons]
      exact List.append_assoc _ _ _

/-- The digest block of `write_to`.  When some digest is zero the bit vector is written and
the defined digests are not. -/
def writeCrcs (crcs : List UInt32) : List UInt8 :=
  if crcs.all (fun crc => crc != 0) then 1 :: crcs.flatMap writeU32
  else 0 :: writeBitSet (BitSet.ofBits (crcs.map fun crc => crc != 0))

def writeBody (info : PackInfo) : List UInt8 :=
  writeU64 info.pos ++ (writeNumber info.len ++ ([kSize] ++
    ((info.sizes.flatMap writeU64 ++ [kCrc]) ++ (writeCrcs info.crcs ++ [kEnd]))))

def writeTo (info : PackInfo) : List UInt8 := kPackInfo :: info.writeBody

end PackInfo

/-- `if nid == K_SIZE`: the sizes, and the id of the property after them. -/
def readPackSizes (numPackStreams : Nat) (archive : Archive) (nid : UInt8) :
    HeaderReader (Archive × UInt8) :=
  if nid = kSize then do
    let packSizes ← many numPackStreams readVariableU64
    let nid ← readU8
    pure ({ archive with packSizes }, nid)
  else pure (archive, nid)

def readDigests (count : Nat) (defined : BitSet) : HeaderReader (List UInt64) :=
  (List.range count).mapM fun i =>
    if defined.contains i then do
      let crc ← readU32
      pure crc.toUInt64
    else pure 0

/-- `if nid == K_CRC`: the digests, and the id of the property after them. -/
def readPackCrcs (numPackStreams : Nat) (archive : Archive) (nid : UInt8) :
    HeaderReader (Archive × UInt8) :=
  if nid = kCrc then do
    let packCrcsDefined ← readAllOrBits numPackStreams
    let packCrcs ← readDigests numPackStreams packCrcsDefined
    let nid ← readU8
    pure ({ archive with packCrcsDefined, packCrcs }, nid)
  else pure (archive, nid)

def readPackInfo (bounds : HeaderBounds) (archive : Archive) : HeaderReader Archive := do
  let packPos ← readVariableU64
  let num ← readNumber
  let numPackStreams ← bounds.count num .entries
  let nid ← readU8
  let (archive, nid) ← readPackSizes numPackStreams { archive with packPos } nid
  let (archive, nid) ← readPackCrcs numPackStreams archive nid
  Result.rejectIf (nid ≠ kEnd) (.badTerminatedPackInfo nid)
  pure archive

/-- The digests a list of optional ones writes: the defined ones, in order. -/
def writeDigests (digests : List (Option UInt32)) : List UInt8 :=
  digests.flatMap fun digest => digest.elim [] writeU32

theorem decodes_readDigests {digests : List (Option UInt32)} {defined : BitSet}
    (h : ∀ i < digests.length, defined.contains i = (digests.getD i none).isSome) :
    Decodes (readDigests digests.length defined) (writeDigests digests)
      (digests.map fun digest => digest.elim 0 UInt32.toUInt64) := by
  have hrange : digests = (List.range digests.length).map fun i => digests.getD i none := by
    refine List.ext_getElem (by simp) fun i h₁ h₂ => ?_
    simp [h₁]
  have hread : ∀ i ∈ List.range digests.length,
      Decodes (if defined.contains i then do let crc ← readU32; pure crc.toUInt64 else pure 0)
        ((digests.getD i none).elim [] writeU32)
        ((digests.getD i none).elim (0 : UInt64) UInt32.toUInt64) := by
    intro i hi
    rw [h i (List.mem_range.mp hi)]
    cases digests.getD i none with
    | none => exact Decodes.pure 0
    | some crc => exact (decodes_readU32 crc).bind_pure UInt32.toUInt64
  have hresult : (digests.map fun digest => digest.elim (0 : UInt64) UInt32.toUInt64) =
      (List.range digests.length).map fun i =>
        (digests.getD i none).elim (0 : UInt64) UInt32.toUInt64 := by
    conv_lhs => rw [hrange, List.map_map]
    rfl
  have hbytes : writeDigests digests = (List.range digests.length).flatMap fun i =>
      (digests.getD i none).elim [] writeU32 := by
    conv_lhs => rw [hrange, writeDigests, List.flatMap_map]
  rw [hresult, hbytes]
  exact Decodes.mapM hread

theorem consumes_readDigests (count : Nat) (defined : BitSet) :
    Consumes (readDigests count defined)
      ((List.range count).map fun i => if defined.contains i then 4 else 0).sum := by
  refine Consumes.mapM fun i _ => ?_
  split
  · exact consumes_readU32.bind fun crc => Consumes.pure crc.toUInt64
  · exact Consumes.pure 0

theorem readDigests_length {count i : Nat} {defined : BitSet} {s s' : List UInt8}
    {crcs : List UInt64} (h : readDigests count defined s = .ok (crcs, s')) (hi : i < count)
    (hdefined : defined.contains i = true) : s'.length + 4 ≤ s.length := by
  have hfour : 4 ≤ ((List.range count).map fun i => if defined.contains i then 4 else 0).sum :=
    List.le_sum_of_mem (List.mem_map.mpr ⟨i, List.mem_range.mpr hi, if_pos hdefined⟩)
  have := consumes_readDigests count defined s crcs s' h
  omega

theorem decodes_readPackSizes (archive : Archive) (sizes : List UInt64) (nid : UInt8) :
    Decodes (readPackSizes sizes.length archive kSize) (sizes.flatMap writeU64 ++ [nid])
      ({ archive with packSizes := sizes }, nid) :=
  (Decodes.many fun size _ => decodes_readVariableU64 size).bind
    ((decodes_readU8 nid).bind_pure fun nid => ({ archive with packSizes := sizes }, nid))

theorem flatMap_writeU32 (crcs : List UInt32) :
    crcs.flatMap writeU32 = writeDigests (crcs.map some) := by
  rw [writeDigests, List.flatMap_map]
  rfl

theorem decodes_readPackCrcs_all (archive : Archive) {crcs : List UInt32} (nid : UInt8)
    (h : ∀ crc ∈ crcs, crc ≠ 0) :
    Decodes (readPackCrcs crcs.length archive kCrc) (PackInfo.writeCrcs crcs ++ [nid])
      ({ archive with
          packCrcsDefined := BitSet.full crcs.length
          packCrcs := crcs.map UInt32.toUInt64 }, nid) := by
  have hall : (crcs.all fun crc => crc != 0) = true := by simpa using h
  have hdigests : Decodes (readDigests crcs.length (BitSet.full crcs.length))
      (crcs.flatMap writeU32) (crcs.map UInt32.toUInt64) := by
    have hdefined : ∀ i < (crcs.map some).length, (BitSet.full crcs.length).contains i =
        ((crcs.map some).getD i none).isSome := by
      intro i hi
      rw [List.length_map] at hi
      simp [hi]
    have := decodes_readDigests hdefined
    rw [List.length_map, List.map_map] at this
    rwa [flatMap_writeU32]
  rw [PackInfo.writeCrcs, if_pos hall, List.cons_append]
  exact (decodes_readAllOrBits_all crcs.length).bind
    (hdigests.bind ((decodes_readU8 nid).bind_pure fun nid => (_, nid)))

theorem decodes_readPackCrcs_none (archive : Archive) {crcs : List UInt32} (nid : UInt8)
    (hne : crcs ≠ []) (h : ∀ crc ∈ crcs, crc = 0) :
    Decodes (readPackCrcs crcs.length archive kCrc) (PackInfo.writeCrcs crcs ++ [nid])
      ({ archive with
          packCrcsDefined := BitSet.ofBits (crcs.map fun crc => crc != 0)
          packCrcs := List.replicate crcs.length 0 }, nid) := by
  have hall : ¬ (crcs.all fun crc => crc != 0) = true := by
    obtain ⟨crc, hcrc⟩ := List.exists_mem_of_ne_nil crcs hne
    intro hall
    have := List.all_eq_true.mp hall crc hcrc
    simp [h crc hcrc] at this
  have hdigests : Decodes
      (readDigests crcs.length (BitSet.ofBits (crcs.map fun crc => crc != 0))) []
      (List.replicate crcs.length 0) := by
    have hdefined : ∀ i < (List.replicate crcs.length (none : Option UInt32)).length,
        (BitSet.ofBits (crcs.map fun crc => crc != 0)).contains i =
          ((List.replicate crcs.length (none : Option UInt32)).getD i none).isSome := by
      intro i hi
      rw [List.length_replicate] at hi
      simp [hi, h _ (List.getElem_mem hi)]
    have := decodes_readDigests hdefined
    rwa [List.length_replicate, List.map_replicate, writeDigests, List.flatMap_replicate,
      Option.elim_none, Option.elim_none, List.flatten_replicate_nil] at this
  have hbits := decodes_readAllOrBits_bits (crcs.map fun crc => crc != 0)
  rw [List.length_map] at hbits
  rw [PackInfo.writeCrcs, if_neg hall, writeBitSet_eq, BitSet.bitCount_ofBits,
    BitSet.toBits_ofBits]
  exact hbits.bind (hdigests.bind_nil ((decodes_readU8 nid).bind_pure fun nid => (_, nid)))

/-- Some digest zero and some not: the reader runs at least four bytes past the block. -/
theorem readPackCrcs_mixed_length {archive result : Archive} {crcs : List UInt32}
    {nid : UInt8} {rest s' : List UInt8} (hzero : ∃ crc ∈ crcs, crc = 0)
    (hdefined : ∃ crc ∈ crcs, crc ≠ 0)
    (h : readPackCrcs crcs.length archive kCrc (PackInfo.writeCrcs crcs ++ rest) =
      .ok ((result, nid), s')) : s'.length + 5 ≤ rest.length := by
  have hall : ¬ (crcs.all fun crc => crc != 0) = true := by
    obtain ⟨crc, hcrc, rfl⟩ := hzero
    intro hall
    simpa using List.all_eq_true.mp hall 0 hcrc
  have hbits := decodes_readAllOrBits_bits (crcs.map fun crc => crc != 0)
  rw [List.length_map] at hbits
  rw [readPackCrcs, if_pos rfl, PackInfo.writeCrcs, if_neg hall, writeBitSet_eq,
    BitSet.bitCount_ofBits, BitSet.toBits_ofBits, bind_apply_ok (hbits rest)] at h
  obtain ⟨digests, s₁, hdigests, h⟩ := bind_eq_ok.mp h
  obtain ⟨b, s₂, hb, h⟩ := bind_eq_ok.mp h
  cases pure_eq_ok.mp h
  obtain ⟨crc, hmem, hcrc⟩ := hdefined
  obtain ⟨i, hi, rfl⟩ := List.getElem_of_mem hmem
  have hfour := readDigests_length hdigests hi (by simp [hi, hcrc])
  have hone := consumes_readU8 _ _ _ hb
  omega

def PackInfo.ReadBack (info : PackInfo) (archive : Archive) : Prop :=
  archive.packPos = info.pos ∧ archive.packSizes = info.sizes ∧
    ∀ i crc, info.crcs[i]? = some crc → crc ≠ 0 →
      archive.packCrcsDefined.contains i = true ∧ archive.packCrcs[i]? = some crc.toUInt64

theorem decodes_readPackInfo {bounds : HeaderBounds} {archive result : Archive}
    {info : PackInfo} (hbytes : info.len ≤ bounds.bytes)
    (hentries : info.len ≤ bounds.limits.maxEntries.toNat)
    (hcrcs : Decodes
      (readPackCrcs info.len { archive with packPos := info.pos, packSizes := info.sizes } kCrc)
      (PackInfo.writeCrcs info.crcs ++ [kEnd]) (result, kEnd)) :
    Decodes (readPackInfo bounds archive) info.writeBody result := by
  have hlen : info.len < 2 ^ 64 := Nat.lt_of_le_of_lt hentries (UInt64.toNat_lt _)
  have hcount : bounds.count info.len .entries = .ok info.len :=
    HeaderBounds.count_eq_ok.mpr ⟨rfl, hbytes, hentries⟩
  refine (decodes_readVariableU64 info.pos).bind ((decodes_readNumber hlen).bind ?_)
  refine (Decodes.lift hcount).bind_nil ((decodes_readU8 kSize).bind ?_)
  refine (decodes_readPackSizes _ info.sizes kCrc).bind ?_
  rw [← List.append_nil (_ ++ [kEnd])]
  exact hcrcs.bind ((Decodes.lift rfl).bind_nil (Decodes.pure result))

theorem packSizes_readPackCrcs {n : Nat} {archive result : Archive} {nid nid' : UInt8}
    {s s' : List UInt8} (h : readPackCrcs n archive nid s = .ok ((result, nid'), s')) :
    result.packSizes = archive.packSizes := by
  unfold readPackCrcs at h
  split at h
  · obtain ⟨defined, s₁, -, h⟩ := bind_eq_ok.mp h
    obtain ⟨crcs, s₂, -, h⟩ := bind_eq_ok.mp h
    obtain ⟨b, s₃, -, h⟩ := bind_eq_ok.mp h
    cases pure_eq_ok.mp h
    rfl
  · cases pure_eq_ok.mp h
    rfl

/-- A read that returns the sizes of a written section has reached its digest block, and
the section ended where the reader stopped. -/
theorem readPackInfo_writeBody_inv {bounds : HeaderBounds} {archive result : Archive}
    {info : PackInfo} {rest s' : List UInt8}
    (h : readPackInfo bounds archive (info.writeBody ++ rest) = .ok (result, s'))
    (hsizes : result.packSizes = info.sizes) :
    info.len ≤ bounds.bytes ∧ info.len ≤ bounds.limits.maxEntries.toNat ∧
      ∃ archive', readPackCrcs info.len archive' kCrc
        (PackInfo.writeCrcs info.crcs ++ (kEnd :: rest)) = .ok ((result, kEnd), s') := by
  rw [PackInfo.writeBody, List.append_assoc] at h
  rw [readPackInfo, bind_apply_ok (decodes_readVariableU64 info.pos _), List.append_assoc,
    bind_apply_ok (decodes_readNumber_wrap info.len _)] at h
  obtain ⟨n, hcount, h⟩ := lift_bind_eq_ok.mp h
  obtain ⟨rfl, hbytes, hentries⟩ := HeaderBounds.count_eq_ok.mp hcount
  rw [List.append_assoc, bind_apply_ok (decodes_readU8 kSize _)] at h
  obtain ⟨⟨archive₁, nid₁⟩, s₂, hread, h⟩ := bind_eq_ok.mp h
  obtain ⟨⟨archive₂, nid₂⟩, s₃, hcrcs, h⟩ := bind_eq_ok.mp h
  obtain ⟨_, hnid, h⟩ := lift_bind_eq_ok.mp h
  cases pure_eq_ok.mp h
  obtain rfl : nid₂ = kEnd := not_not.mp (Result.rejectIf_eq_ok.mp hnid)
  -- the number that was read is the length of the list that was written
  have hlen : info.len % 2 ^ 64 = info.len := by
    obtain ⟨sizes, s₅, hmany, hread⟩ := bind_eq_ok.mp hread
    obtain ⟨nid₃, s₆, -, hread⟩ := bind_eq_ok.mp hread
    cases pure_eq_ok.mp hread
    rw [← many_length hmany, PackInfo.len, ← hsizes, packSizes_readPackCrcs hcrcs]
  rw [hlen] at hread hcrcs hbytes hentries
  have hread' := decodes_readPackSizes { archive with packPos := info.pos } info.sizes kCrc
  have hstop := hread' ((PackInfo.writeCrcs info.crcs ++ [kEnd]) ++ rest)
  rw [List.append_assoc] at hread
  obtain ⟨heq, rfl⟩ := hread'.unique hread
  cases heq
  rw [List.append_assoc] at hcrcs
  exact ⟨hbytes, hentries, _, hcrcs⟩

/-- Whatever follows it, a written section is read back with its sizes and its defined
digests, and the reader stops at its end, exactly when it is within the bounds and its
digests are all defined or all undefined. -/
theorem readPackInfo_writeBody_iff (bounds : HeaderBounds) (archive : Archive)
    (pos : UInt64) (streams : List (UInt64 × UInt32)) (rest : List UInt8) :
    (∃ result,
        readPackInfo bounds archive
          ((PackInfo.addStreams { pos := pos } streams).writeBody ++ rest) = .ok (result, rest) ∧
        (PackInfo.addStreams { pos := pos } streams).ReadBack result) ↔
      (streams.length ≤ bounds.bytes ∧ streams.length ≤ bounds.limits.maxEntries.toNat) ∧
        ((∀ stream ∈ streams, stream.2 ≠ 0) ∨ ∀ stream ∈ streams, stream.2 = 0) := by
  generalize hinfo : PackInfo.addStreams { pos := pos } streams = info
  have hcrcs : info.crcs = streams.map Prod.snd := by
    rw [← hinfo, PackInfo.crcs_addStreams, List.nil_append]
  have hlength : info.len = streams.length := by
    rw [PackInfo.len, ← hinfo, PackInfo.sizes_addStreams, List.nil_append, List.length_map]
  have hall : ∀ P : UInt32 → Prop, (∀ stream ∈ streams, P stream.2) ↔ ∀ crc ∈ info.crcs, P crc := by
    intro P
    rw [hcrcs, List.forall_mem_map]
  rw [← hlength, hall (· ≠ 0), hall (· = 0)]
  constructor
  · rintro ⟨result, hread, -, hsizes, -⟩
    obtain ⟨hbytes, hentries, archive', hblock⟩ := readPackInfo_writeBody_inv hread hsizes
    refine ⟨⟨hbytes, hentries⟩, ?_⟩
    by_contra hmixed
    obtain ⟨hzero, hdefined⟩ := not_or.mp hmixed
    have hlong := readPackCrcs_mixed_length (by simpa using hzero) (by simpa using hdefined)
      (PackInfo.len_eq_length_crcs info ▸ hblock)
    rw [List.length_cons] at hlong
    omega
  · rintro ⟨⟨hbytes, hentries⟩, hdigests⟩
    by_cases hdefined : ∀ crc ∈ info.crcs, crc ≠ 0
    · have hblock := decodes_readPackCrcs_all
        { archive with packPos := info.pos, packSizes := info.sizes } kEnd hdefined
      rw [← PackInfo.len_eq_length_crcs] at hblock
      refine ⟨_, decodes_readPackInfo hbytes hentries hblock rest, rfl, rfl, ?_⟩
      intro i crc hcrc _
      obtain ⟨hi, rfl⟩ := List.getElem?_eq_some_iff.mp hcrc
      simp [PackInfo.len_eq_length_crcs, hi]
    · have hzero := hdigests.resolve_left hdefined
      have hne : info.crcs ≠ [] := by
        intro hnil
        simp [hnil] at hdefined
      have hblock := decodes_readPackCrcs_none
        { archive with packPos := info.pos, packSizes := info.sizes } kEnd hne hzero
      rw [← PackInfo.len_eq_length_crcs] at hblock
      refine ⟨_, decodes_readPackInfo hbytes hentries hblock rest, rfl, rfl, ?_⟩
      intro i crc hcrc hne
      exact absurd (hzero crc (List.mem_of_getElem? hcrc)) hne

/-- Two streams, the first without a digest: the digest of the second is never written, and
the reader takes the section's end marker and what follows for it. -/
theorem readPackInfo_writeBody_second_digest_lost :
    ¬ ∃ result,
      readPackInfo { bytes := 64, limits := {} } {}
        ((PackInfo.addStreams {} [(3, 0), (4, 5)]).writeBody ++ [kUnpackInfo]) =
          .ok (result, [kUnpackInfo]) ∧
      (PackInfo.addStreams {} [(3, 0), (4, 5)]).ReadBack result := by
  have hread : readPackInfo { bytes := 64, limits := {} } {}
      ((PackInfo.addStreams {} [(3, 0), (4, 5)]).writeBody ++ [kUnpackInfo]) =
        .error unexpectedEof := by
    decide +kernel
  rw [hread]
  rintro ⟨result, h, -⟩
  cases h

end Sevenz
