import Sevenz.Header.SubStreamSizes
import Sevenz.Writer.UnpackInfo

/-!
# Sub-streams written and read back

`UnpackInfo::write_substreams` against `Archive::read_sub_streams_info`.  The writer leaves out
the counts where all are one, the last size of each block, and every section that would be
empty; the reader puts back what was left out.
-/

namespace Sevenz

open Lib Lib.Parser

abbrev SubStream := UInt64 × UInt32

/-- A block as `add` or `add_multiple` records it, with the sub-streams it is made of.  The
callers of `add_multiple` pass the count, the sizes and the checksums of one list of entries. -/
inductive BlockInfo.Added : BlockInfo → List SubStream → Prop
  | add {methods sizes crc size} (hsize : sizes.getLast? = some size) :
      Added { methods, sizes, crc, numSubUnpackStreams := 1 } [(size, crc)]
  | addMultiple {methods sizes crc size numSubUnpackStreams} {streams : List SubStream}
      (hsize : sizes.getLast? = some size) (hcount : numSubUnpackStreams.toNat = streams.length)
      (hsum : sumSizes (streams.map Prod.fst) = size.toNat) :
      Added
        { methods, sizes, crc, numSubUnpackStreams
          subStreamSizes := streams.map Prod.fst, subStreamCrcs := streams.map Prod.snd }
        streams

namespace BlockInfo.Added

variable {info : BlockInfo} {streams : List SubStream}

theorem count (h : info.Added streams) : info.numSubUnpackStreams.toNat = streams.length := by
  cases h with
  | add => rfl
  | addMultiple _ hcount => exact hcount

theorem count_eq_one (h : info.Added streams) :
    info.numSubUnpackStreams = 1 ↔ streams.length = 1 := by
  rw [← h.count, ← UInt64.toNat_inj]
  rfl

theorem one_lt_count (h : info.Added streams) :
    info.numSubUnpackStreams > 1 ↔ 1 < streams.length := by
  rw [← h.count, gt_iff_lt, UInt64.lt_iff_toNat_lt]
  rfl

theorem sizes_length (h : info.Added streams) :
    info.subStreamSizes.length > 1 ↔ 1 < streams.length := by
  cases h with
  | add => simp
  | addMultiple => simp

theorem sizesToWrite (h : info.Added streams) :
    info.sizesToWrite = (streams.map Prod.fst).dropLast := by
  cases h with
  | add => rfl
  | addMultiple =>
      simp only [BlockInfo.sizesToWrite]
      split
      · rfl
      · rename_i hlength
        symm
        apply List.eq_nil_of_length_eq_zero
        rw [List.length_dropLast]
        omega

theorem crcsToWrite (h : info.Added streams) : info.crcsToWrite = streams.map Prod.snd := by
  simp only [BlockInfo.crcsToWrite, h.one_lt_count, h.count_eq_one]
  cases h with
  | add => rfl
  | @addMultiple _ _ _ _ _ streams _ _ _ =>
      match streams with
      | [] => rfl
      | [stream] => rfl
      | _ :: _ :: _ => simp

theorem sum (h : info.Added streams) :
    ∃ size, info.sizes.getLast? = some size ∧
      sumSizes (streams.map Prod.fst) = size.toNat := by
  cases h with
  | add hsize => exact ⟨_, hsize, by simp⟩
  | addMultiple hsize _ hsum => exact ⟨_, hsize, hsum⟩

end BlockInfo.Added

section Written

variable {info : UnpackInfo} {streams : List (List SubStream)}

theorem flatMap_added {β : Type} {blocks : List BlockInfo} {f : BlockInfo → List β}
    {g : List SubStream → List β} (h : List.Forall₂ BlockInfo.Added blocks streams)
    (hfg : ∀ block ss, block.Added ss → f block = g ss) : blocks.flatMap f = streams.flatMap g := by
  induction h with
  | nil => rfl
  | cons hblock _ ih => simp [hfg _ _ hblock, ih]

theorem any_added {blocks : List BlockInfo} {p : BlockInfo → Bool} {q : List SubStream → Bool}
    (h : List.Forall₂ BlockInfo.Added blocks streams)
    (hpq : ∀ block ss, block.Added ss → p block = q ss) : blocks.any p = streams.any q := by
  induction h with
  | nil => rfl
  | cons hblock _ ih => simp [hpq _ _ hblock, ih]

theorem needsNumUnpackStream_eq (h : List.Forall₂ BlockInfo.Added info.blocks streams) :
    info.needsNumUnpackStream = streams.any fun ss => ss.length != 1 := by
  apply any_added h
  intro block ss hblock
  rw [Bool.eq_iff_iff, bne_iff_ne, bne_iff_ne, ne_eq, hblock.count_eq_one]

theorem needsSizes_eq (h : List.Forall₂ BlockInfo.Added info.blocks streams) :
    info.needsSizes = streams.any fun ss => ss.length > 1 := by
  apply any_added h
  intro block ss hblock
  rw [decide_eq_decide]
  exact hblock.sizes_length

def crcId (streams : List (List SubStream)) : UInt8 :=
  if streams.flatten.isEmpty then kEnd else kCrc

def sizeId (streams : List (List SubStream)) : UInt8 :=
  if streams.any (fun ss => ss.length > 1) then kSize else crcId streams

def countBytes (streams : List (List SubStream)) : List UInt8 :=
  streams.flatMap fun ss => writeNumber ss.length

def sizeBytes (streams : List (List SubStream)) : List UInt8 :=
  streams.flatMap fun ss => (ss.map Prod.fst).dropLast.flatMap writeU64

@[simp] theorem countBytes_cons (ss : List SubStream) (streams : List (List SubStream)) :
    countBytes (ss :: streams) = writeNumber ss.length ++ countBytes streams := rfl

@[simp] theorem sizeBytes_cons (ss : List SubStream) (streams : List (List SubStream)) :
    sizeBytes (ss :: streams) =
      (ss.map Prod.fst).dropLast.flatMap writeU64 ++ sizeBytes streams := rfl

def crcBytes (streams : List (List SubStream)) : List UInt8 :=
  (streams.flatten.map Prod.snd).flatMap writeU32

theorem writeSubstreamsBody_eq (h : List.Forall₂ BlockInfo.Added info.blocks streams) :
    info.writeSubstreamsBody =
      ((if streams.any (fun ss => ss.length != 1) then kNumUnpackStream :: countBytes streams
        else []) ++ [sizeId streams]) ++
      ((if streams.any (fun ss => ss.length > 1) then sizeBytes streams ++ [crcId streams]
        else []) ++
      (if streams.flatten.isEmpty then [] else 1 :: (crcBytes streams ++ [kEnd]))) := by
  have hcounts : (info.blocks.flatMap fun block => writeU64 block.numSubUnpackStreams) =
      countBytes streams := by
    apply flatMap_added h
    intro block ss hblock
    rw [← hblock.count, writeNumber, UInt64.ofNat_toNat]
  have hsizes : (info.blocks.flatMap fun block => block.sizesToWrite.flatMap writeU64) =
      sizeBytes streams := by
    apply flatMap_added h
    intro block ss hblock
    rw [hblock.sizesToWrite]
  have hcrcs : info.blocks.flatMap BlockInfo.crcsToWrite = streams.flatten.map Prod.snd := by
    rw [flatMap_added h fun block ss hblock => hblock.crcsToWrite, List.map_flatten,
      List.flatMap_def]
  simp only [UnpackInfo.writeSubstreamsBody, UnpackInfo.writeNumUnpackStreams,
    UnpackInfo.writeSizes, UnpackInfo.writeCrcs, needsNumUnpackStream_eq h, needsSizes_eq h,
    hcounts, hsizes, hcrcs, List.isEmpty_map]
  by_cases hsize : streams.any (fun ss => ss.length > 1) = true <;>
    by_cases hcrc : streams.flatten.isEmpty = true <;>
    simp [sizeId, crcId, crcBytes, hsize, hcrc]

end Written

def withCount (block : Block) (streams : List SubStream) : Block :=
  { block with numUnpackSubStreams := streams.length }

theorem getUnpackSize_withCount (block : Block) (streams : List SubStream) :
    (withCount block streams).getUnpackSize = block.getUnpackSize := by
  have hlast : ∀ n, (withCount block streams).lastUnboundSize n = block.lastUnboundSize n := by
    intro n
    induction n with
    | zero => rfl
    | succ n ih =>
        rw [Block.lastUnboundSize, Block.lastUnboundSize, ih]
        rfl
  simp only [Block.getUnpackSize, hlast]
  rfl

theorem decodes_readNumUnpackStreams {bounds : HeaderBounds} (blocks : List Block)
    {streams : List (List SubStream)} (total : Nat) (hlength : blocks.length = streams.length)
    (hbytes : total + streams.flatten.length ≤ bounds.bytes)
    (hentries : total + streams.flatten.length ≤ bounds.limits.maxEntries.toNat) :
    Decodes (readNumUnpackStreams bounds blocks total) (countBytes streams)
      (List.zipWith withCount blocks streams, total + streams.flatten.length) := by
  induction streams generalizing blocks total with
  | nil =>
      obtain rfl := List.eq_nil_of_length_eq_zero hlength
      exact Decodes.pure _
  | cons ss streams ih =>
      match blocks with
      | block :: blocks =>
          rw [List.flatten_cons, List.length_append, ← Nat.add_assoc] at hbytes hentries ⊢
          have hmax := bounds.limits.maxEntries.toNat_lt
          have hcount : bounds.count ss.length .entries = .ok ss.length :=
            HeaderBounds.count_eq_ok.mpr
              ⟨rfl, by omega, show ss.length ≤ bounds.limits.maxEntries.toNat by omega⟩
          have htotal : bounds.addCount total ss.length = .ok (total + ss.length) :=
            HeaderBounds.addCount_eq_ok.mpr ⟨rfl, by omega, by omega, by omega⟩
          rw [countBytes_cons, ← List.append_nil (countBytes streams)]
          apply (decodes_readNumber (show ss.length < 2 ^ 64 by omega)).bind
          apply (Decodes.lift hcount).bind_nil
          apply (Decodes.lift htotal).bind_nil
          exact (ih blocks (total + ss.length) (Nat.succ.inj hlength) hbytes hentries).bind
            (Decodes.pure _)

/-- Counts that are read without an error are within the limit, block after block. -/
theorem readNumUnpackStreams_le {bounds : HeaderBounds} {blocks : List Block}
    {streams : List (List SubStream)} (total : Nat) {rest s' : List UInt8}
    {counted : List Block × Nat} (hlength : blocks.length = streams.length)
    (hsmall : ∀ ss ∈ streams, ss.length < 2 ^ 64)
    (h : readNumUnpackStreams bounds blocks total (countBytes streams ++ rest) =
      .ok (counted, s')) (hne : streams ≠ []) :
    total + streams.flatten.length ≤ bounds.limits.maxEntries.toNat := by
  induction streams generalizing blocks total counted s' with
  | nil => exact absurd rfl hne
  | cons ss streams ih =>
      match blocks with
      | block :: blocks =>
          rw [countBytes_cons, List.append_assoc, readNumUnpackStreams,
            bind_apply_ok (decodes_readNumber (hsmall ss List.mem_cons_self) _)] at h
          obtain ⟨numStreams, hcount, h⟩ := lift_bind_eq_ok.mp h
          obtain ⟨total₁, htotal, h⟩ := lift_bind_eq_ok.mp h
          obtain ⟨counted₁, s₁, hrest, h⟩ := bind_eq_ok.mp h
          obtain ⟨rfl, -, -⟩ := HeaderBounds.count_eq_ok.mp hcount
          obtain ⟨rfl, -, -, hentries⟩ := HeaderBounds.addCount_eq_ok.mp htotal
          rw [List.flatten_cons, List.length_append, ← Nat.add_assoc]
          by_cases hnil : streams = []
          · simpa [hnil] using hentries
          · exact ih (total + ss.length) (Nat.succ.inj hlength)
              (fun ss' hss' => hsmall ss' (List.mem_cons_of_mem ss hss')) hrest hnil

theorem zipWith_withCount_one {blocks : List Block} {streams : List (List SubStream)}
    (hlength : blocks.length = streams.length) (hone : ∀ ss ∈ streams, ss.length = 1) :
    (blocks.map fun block => { block with numUnpackSubStreams := 1 }) =
        List.zipWith withCount blocks streams ∧ blocks.length = streams.flatten.length := by
  induction streams generalizing blocks with
  | nil =>
      obtain rfl := List.eq_nil_of_length_eq_zero hlength
      simp
  | cons ss streams ih =>
      match blocks with
      | block :: blocks =>
          have hss := hone ss List.mem_cons_self
          have hrest := ih (Nat.succ.inj hlength)
            fun ss' hss' => hone ss' (List.mem_cons_of_mem ss hss')
          refine ⟨by simp [withCount, hss, hrest.1], ?_⟩
          rw [List.flatten_cons, List.length_append, ← hrest.2, hss, List.length_cons,
            Nat.add_comm]

theorem sizeId_ne_kNumUnpackStream (streams : List (List SubStream)) :
    sizeId streams ≠ kNumUnpackStream := by
  simp only [sizeId, crcId]
  split
  · decide
  · split <;> decide

theorem decodes_readSubStreamCounts {bounds : HeaderBounds} {blocks : List Block}
    {streams : List (List SubStream)} (hlength : blocks.length = streams.length)
    (hbytes : streams.flatten.length ≤ bounds.bytes)
    (hentries : streams.any (fun ss => ss.length != 1) = true →
      streams.flatten.length ≤ bounds.limits.maxEntries.toNat) :
    Decodes (readSubStreamCounts bounds blocks)
      ((if streams.any (fun ss => ss.length != 1) then kNumUnpackStream :: countBytes streams
        else []) ++ [sizeId streams])
      { blocks := List.zipWith withCount blocks streams
        totalUnpackStreams := streams.flatten.length, nid := sizeId streams } := by
  by_cases hneeds : streams.any (fun ss => ss.length != 1) = true
  · have hzip : List.zipWith withCount
        (blocks.map fun block => { block with numUnpackSubStreams := 1 }) streams =
        List.zipWith withCount blocks streams := by
      rw [List.zipWith_map_left]
      rfl
    rw [if_pos hneeds, List.cons_append]
    apply (decodes_readU8 kNumUnpackStream).bind
    have hread := decodes_readNumUnpackStreams
      (blocks.map fun block => { block with numUnpackSubStreams := 1 }) 0
      (by rw [List.length_map, hlength]) (by rwa [Nat.zero_add])
      (by rw [Nat.zero_add]; exact hentries hneeds)
    rw [hzip, Nat.zero_add] at hread
    exact hread.bind ((decodes_readU8 (sizeId streams)).bind_pure _)
  · have hone : ∀ ss ∈ streams, ss.length = 1 := by simpa using hneeds
    obtain ⟨hblocks, htotal⟩ := zipWith_withCount_one hlength hone
    rw [if_neg hneeds, List.nil_append, ← List.append_nil [sizeId streams]]
    apply (decodes_readU8 (sizeId streams)).bind
    rw [if_neg (sizeId_ne_kNumUnpackStream streams), hblocks]
    have hsize : (List.zipWith withCount blocks streams).length = streams.flatten.length := by
      rw [← htotal, List.length_zipWith, hlength, Nat.min_self]
    rw [hsize]
    exact Decodes.pure _

def Holds (block : Block) (streams : List SubStream) : Prop :=
  block.numUnpackSubStreams = streams.length ∧ block.hasCrc = false ∧
    ∃ total, block.getUnpackSize = .ok total ∧
      sumSizes (streams.map Prod.fst) = total.toNat

theorem setIndex_padTo_eq {n : Nat} {filled : List UInt64} (h : filled.length < n)
    (size : UInt64) :
    Result.setIndex (padTo n filled) filled.length size = .ok (padTo n (filled ++ [size])) := by
  have hlt : filled.length < (padTo n filled).length := by
    simp [padTo]
    omega
  have hset := Result.setIndex_of_lt (a := size) hlt
  rw [hset, setIndex_padTo hset]

@[simp] theorem padTo_self (filled : List UInt64) : padTo filled.length filled = filled := by
  simp [padTo]

theorem decodes_readExplicitSizes {n : Nat} {filled sizes : List UInt64} {sum : Nat}
    (hfit : filled.length + sizes.length ≤ n) (hsum : sum + sumSizes sizes < 2 ^ 64) :
    Decodes
      (readExplicitSizes sizes.length
        { unpackSizes := padTo n filled, nextUnpackStream := filled.length, sum })
      (sizes.flatMap writeU64)
      { unpackSizes := padTo n (filled ++ sizes)
        nextUnpackStream := (filled ++ sizes).length, sum := sum + sumSizes sizes } := by
  induction sizes generalizing filled sum with
  | nil =>
      rw [List.append_nil]
      exact Decodes.pure _
  | cons size sizes ih =>
      have hsize : sumSizes (size :: sizes) = size.toNat + sumSizes sizes := by simp [sumSizes]
      rw [hsize, ← Nat.add_assoc] at hsum ⊢
      rw [List.length_cons] at hfit
      have hadd : Result.okOr (.other "sub-stream size sum overflow")
          (checkedAdd sum size.toNat) = .ok (sum + size.toNat) :=
        Result.okOr_eq_ok.mpr (checkedAdd_eq_some.mpr ⟨by omega, rfl⟩)
      rw [List.flatMap_cons, List.length_cons, readExplicitSizes]
      apply (decodes_readVariableU64 size).bind
      apply (Decodes.lift (setIndex_padTo_eq (by omega) size)).bind_nil
      apply (Decodes.lift hadd).bind_nil
      have hroom : (filled ++ [size]).length + sizes.length ≤ n := by
        rw [List.length_append, List.length_singleton]
        omega
      simpa using ih hroom hsum

theorem sumSizes_dropLast {sizes : List UInt64} (h : sizes ≠ []) :
    sumSizes sizes.dropLast + (sizes.getLast h).toNat = sumSizes sizes := by
  conv_rhs => rw [← List.dropLast_append_getLast h, sumSizes_append, sumSizes_singleton]

theorem sub_sumSizes_dropLast {sizes : List UInt64} {total : UInt64} (h : sizes ≠ [])
    (hsum : sumSizes sizes = total.toNat) :
    total - UInt64.ofNat (sumSizes sizes.dropLast) = sizes.getLast h := by
  have hlast := sumSizes_dropLast h
  have hlt := total.toNat_lt
  have hofNat : (UInt64.ofNat (sumSizes sizes.dropLast)).toNat = sumSizes sizes.dropLast :=
    UInt64.toNat_ofNat_of_lt' (show sumSizes sizes.dropLast < 2 ^ 64 by omega)
  apply UInt64.toNat_inj.mp
  rw [UInt64.toNat_sub_of_le _ _ (by rw [UInt64.le_iff_toNat_le, hofNat]; omega), hofNat]
  omega

theorem decodes_readBlockSizes {nid : UInt8} {block : Block} {streams : List SubStream} {n : Nat}
    {filled : List UInt64} (h : Holds block streams) (hne : streams ≠ [])
    (hnid : nid = kSize ∨ streams.length ≤ 1) (hfit : filled.length + streams.length ≤ n) :
    Decodes (readBlockSizes nid block (padTo n filled) filled.length)
      ((streams.map Prod.fst).dropLast.flatMap writeU64)
      (padTo n (filled ++ streams.map Prod.fst), (filled ++ streams.map Prod.fst).length) := by
  obtain ⟨hcount, -, total, htotal, hsum⟩ := h
  have hsizes : streams.map Prod.fst ≠ [] := by simpa using hne
  have hlength : (streams.map Prod.fst).dropLast.length = streams.length - 1 := by simp
  have hexplicit : (if nid = kSize then block.numUnpackSubStreams - 1 else 0) =
      (streams.map Prod.fst).dropLast.length := by
    rw [hcount, hlength]
    split
    · rfl
    · rename_i hne'
      have := hnid.resolve_left hne'
      omega
  have hpos := List.length_pos_iff.mpr hne
  have hlast := sumSizes_dropLast hsizes
  have hlt := total.toNat_lt
  rw [readBlockSizes, hexplicit, ← List.append_nil (List.flatMap _ _)]
  have hfits : 0 + sumSizes (streams.map Prod.fst).dropLast < 2 ^ 64 := by omega
  apply (decodes_readExplicitSizes (by omega) hfits).bind
  rw [Nat.zero_add]
  apply (Decodes.lift htotal).bind_nil
  have hle : ¬ sumSizes (streams.map Prod.fst).dropLast > total.toNat := by omega
  apply (Decodes.lift (a := ()) (Result.rejectIf_eq_ok.mpr hle)).bind_nil
  rw [sub_sumSizes_dropLast hsizes hsum]
  have hroom : (filled ++ (streams.map Prod.fst).dropLast).length < n := by
    rw [List.length_append, hlength]
    omega
  have hset := setIndex_padTo_eq hroom ((streams.map Prod.fst).getLast hsizes)
  rw [List.append_assoc, List.dropLast_append_getLast hsizes] at hset
  apply (Decodes.lift hset).bind_nil
  have hnext : (filled ++ (streams.map Prod.fst).dropLast).length + 1 =
      (filled ++ streams.map Prod.fst).length := by
    simp
    omega
  rw [hnext]
  exact Decodes.pure _

theorem decodes_readSubStreamSizes {nid : UInt8} {blocks : List Block}
    {streams : List (List SubStream)} {n : Nat} (filled : List UInt64)
    (h : List.Forall₂ Holds blocks streams) (hnid : nid = kSize ∨ ∀ ss ∈ streams, ss.length ≤ 1)
    (hfit : filled.length + streams.flatten.length = n) :
    Decodes (readSubStreamSizes nid blocks (padTo n filled) filled.length) (sizeBytes streams)
      (filled ++ streams.flatten.map Prod.fst) := by
  induction h generalizing filled with
  | nil =>
      obtain rfl : filled.length = n := hfit
      rw [padTo_self, List.flatten_nil, List.map_nil, List.append_nil]
      exact Decodes.pure filled
  | @cons block ss blocks streams hblock _ ih =>
      have hrest : nid = kSize ∨ ∀ ss ∈ streams, ss.length ≤ 1 :=
        hnid.imp_right fun hone ss' hss' => hone ss' (List.mem_cons_of_mem ss hss')
      rw [List.flatten_cons, List.length_append] at hfit
      rw [readSubStreamSizes, sizeBytes_cons, List.flatten_cons, List.map_append,
        ← List.append_assoc]
      by_cases hzero : block.numUnpackSubStreams = 0
      · obtain rfl := List.eq_nil_of_length_eq_zero (hblock.1 ▸ hzero)
        rw [if_pos hzero]
        simpa using ih filled hrest (by simpa using hfit)
      · have hne : ss ≠ [] := by
          intro hnil
          rw [hblock.1, hnil] at hzero
          exact hzero rfl
        rw [if_neg hzero]
        apply (decodes_readBlockSizes hblock hne
          (hnid.imp_right fun hone => hone ss List.mem_cons_self) (by omega)).bind
        apply ih _ hrest
        rw [List.length_append, List.length_map]
        omega

/-- The sizes as they are written: none where no block has more than one. -/
def writtenSizes (streams : List (List SubStream)) : List UInt8 :=
  if streams.any (fun ss => ss.length > 1) then sizeBytes streams else []

def writtenCrcId (streams : List (List SubStream)) : List UInt8 :=
  if streams.any (fun ss => ss.length > 1) then [crcId streams] else []

theorem sizeSection_eq (streams : List (List SubStream)) :
    (if streams.any (fun ss => ss.length > 1) then sizeBytes streams ++ [crcId streams] else []) =
      writtenSizes streams ++ writtenCrcId streams := by
  unfold writtenSizes writtenCrcId
  split <;> rfl

theorem crcId_ne_kSize (streams : List (List SubStream)) : crcId streams ≠ kSize := by
  unfold crcId
  split <;> decide

theorem sizeBytes_eq_nil {streams : List (List SubStream)} (h : ∀ ss ∈ streams, ss.length ≤ 1) :
    sizeBytes streams = [] := by
  apply List.flatMap_eq_nil_iff.mpr
  intro ss hss
  have hdrop : (ss.map Prod.fst).dropLast = [] := by
    apply List.eq_nil_of_length_eq_zero
    rw [List.length_dropLast, List.length_map]
    have := h ss hss
    omega
  rw [hdrop, List.flatMap_nil]

theorem decodes_writtenSizes {blocks : List Block} {streams : List (List SubStream)}
    (h : List.Forall₂ Holds blocks streams) :
    Decodes
      (readSubStreamSizes (sizeId streams) blocks (List.replicate streams.flatten.length 0) 0)
      (writtenSizes streams) (streams.flatten.map Prod.fst) := by
  unfold writtenSizes sizeId
  by_cases hneeds : streams.any (fun ss => ss.length > 1) = true
  · rw [if_pos hneeds, if_pos hneeds]
    exact decodes_readSubStreamSizes [] h (Or.inl rfl) (Nat.zero_add _)
  · have hone : ∀ ss ∈ streams, ss.length ≤ 1 := by simpa using hneeds
    rw [if_neg hneeds, if_neg hneeds, ← sizeBytes_eq_nil hone]
    exact decodes_readSubStreamSizes [] h (Or.inr hone) (Nat.zero_add _)

theorem decodes_skipSizeId (streams : List (List SubStream)) :
    Decodes (skipSizeId (sizeId streams)) (writtenCrcId streams) (crcId streams) := by
  unfold writtenCrcId sizeId skipSizeId
  split
  · exact decodes_readU8 (crcId streams)
  · rw [if_neg (crcId_ne_kSize streams)]
    exact Decodes.pure (crcId streams)

theorem countDigests_eq {blocks : List Block} {streams : List (List SubStream)}
    {total : Nat} (numDigests : Nat) (h : List.Forall₂ Holds blocks streams)
    (htotal : numDigests + streams.flatten.length ≤ total) (hmax : total < 2 ^ 64) :
    countDigests total blocks numDigests = .ok (numDigests + streams.flatten.length) := by
  induction h generalizing numDigests with
  | nil => rfl
  | @cons block ss blocks streams hblock _ ih =>
      rw [List.flatten_cons, List.length_append, ← Nat.add_assoc] at htotal ⊢
      have howns : ¬ block.ownsDigest = true := by simp [Block.ownsDigest, hblock.2.1]
      have hadd : ((checkedAdd numDigests block.numUnpackSubStreams).filter fun n => n ≤ total) =
          some (numDigests + ss.length) := by
        rw [hblock.1, checkedAdd_eq_some.mpr ⟨by omega, rfl⟩]
        simp only [Option.filter_some, decide_eq_true_eq]
        exact if_pos (by omega)
      rw [countDigests, if_neg howns, hadd]
      exact ih (numDigests + ss.length) htotal

structure DigestFill.Filled (missing : List UInt64) (k : Nat) (fill : DigestFill) : Prop where
  next : fill.nextCrc = k
  nextMissing : fill.nextMissingCrc = k
  length : fill.crcs.length = missing.length
  crcs : ∀ i < k, fill.crcs[i]? = missing[i]?
  hasCrc : ∀ i < k, fill.hasCrc.contains i = true

theorem fillMissing_filled {missing : List UInt64} {m k : Nat} {fill : DigestFill}
    (h : fill.Filled missing k) (hfit : k + m ≤ missing.length) :
    ∃ fill', fillMissing (BitSet.full missing.length) missing m fill = .ok fill' ∧
      fill'.Filled missing (k + m) := by
  induction m generalizing k fill with
  | zero => exact ⟨fill, rfl, h⟩
  | succ m ih =>
      have hk : k < missing.length := by omega
      rw [show k + (m + 1) = k + 1 + m by omega]
      have hcrc := Result.index_of_lt hk
      have hset := Result.setIndex_of_lt (a := missing[k]) (h.length.symm ▸ hk)
      simp only [fillMissing, h.next, h.nextMissing, BitSet.contains_full, hk, decide_true, if_true]
      rw [Result.bind_of_ok hcrc, Result.bind_of_ok hset]
      apply ih _ (by omega)
      constructor
      · rfl
      · rfl
      · simpa using h.length
      · intro i hi
        rw [List.getElem?_set]
        split
        · rename_i hik
          simp [← hik, hk, h.length]
        · exact h.crcs i (by omega)
      · intro i hi
        rw [BitSet.contains_insert]
        by_cases hik : i = k
        · simp [hik]
        · simp [h.hasCrc i (by omega)]

theorem fillDigests_filled {missing : List UInt64} {blocks : List Block}
    {streams : List (List SubStream)} {k : Nat} {fill : DigestFill}
    (hblocks : List.Forall₂ Holds blocks streams) (h : fill.Filled missing k)
    (hfit : k + streams.flatten.length ≤ missing.length) :
    ∃ fill', fillDigests (BitSet.full missing.length) missing blocks fill = .ok fill' ∧
      fill'.Filled missing (k + streams.flatten.length) := by
  induction hblocks generalizing k fill with
  | nil => exact ⟨fill, rfl, h⟩
  | @cons block ss blocks streams hblock _ ih =>
      rw [List.flatten_cons, List.length_append, ← Nat.add_assoc] at hfit ⊢
      have howns : ¬ block.ownsDigest = true := by simp [Block.ownsDigest, hblock.2.1]
      obtain ⟨fill₁, hmissing, hfilled₁⟩ := fillMissing_filled h (m := ss.length) (by omega)
      rw [fillDigests, if_neg howns, hblock.1, Result.bind_of_ok hmissing]
      exact ih hfilled₁ hfit

/-- What is read back: the sizes and the checksums in order, each checksum defined. -/
structure SubStreamsInfo.Lists (info : SubStreamsInfo) (streams : List SubStream) : Prop where
  unpackSizes : info.unpackSizes = streams.map Prod.fst
  crcs : info.crcs = streams.map fun stream => stream.2.toUInt64
  hasCrc : ∀ i < streams.length, info.hasCrc.contains i = true

theorem decodes_readSubStreamDigests {blocks : List Block} {streams : List (List SubStream)}
    {info : SubStreamsInfo} (h : List.Forall₂ Holds blocks streams)
    (hsizes : info.unpackSizes = streams.flatten.map Prod.fst)
    (hcrcs : info.crcs = List.replicate streams.flatten.length 0) :
    ∃ info', info'.Lists streams.flatten ∧
      Decodes (readSubStreamDigests blocks streams.flatten.length info (crcId streams))
        (if streams.flatten.isEmpty then [] else 1 :: (crcBytes streams ++ [kEnd]))
        (info', kEnd) := by
  by_cases hempty : streams.flatten.isEmpty = true
  · have hnil : streams.flatten = [] := List.isEmpty_iff.mp hempty
    refine ⟨info, ⟨hsizes, by simp [hcrcs, hnil], by simp [hnil]⟩, ?_⟩
    rw [if_pos hempty, crcId, if_pos hempty]
    exact Decodes.pure (info, kEnd)
  · let missing := streams.flatten.map fun stream => stream.2.toUInt64
    have hlength : missing.length = streams.flatten.length := List.length_map _
    have hstart : DigestFill.Filled missing 0
        { hasCrc := info.hasCrc, crcs := info.crcs, nextCrc := 0, nextMissingCrc := 0 } :=
      ⟨rfl, rfl, by simp [hcrcs, hlength], by simp, by simp⟩
    obtain ⟨fill, hfill, hfilled⟩ := fillDigests_filled h hstart (by omega)
    rw [Nat.zero_add] at hfilled
    refine ⟨{ info with hasCrc := fill.hasCrc, crcs := fill.crcs }, ⟨hsizes, ?_, ?_⟩, ?_⟩
    · apply List.ext_getElem?
      intro i
      by_cases hi : i < streams.flatten.length
      · exact hfilled.crcs i hi
      · rw [List.getElem?_eq_none (by rw [hfilled.length]; omega),
          List.getElem?_eq_none (by rw [List.length_map]; omega)]
    · exact hfilled.hasCrc
    · have hdefined : ∀ i < ((streams.flatten.map Prod.snd).map some).length,
          (BitSet.full streams.flatten.length).contains i =
            (((streams.flatten.map Prod.snd).map some).getD i none).isSome := by
        intro i hi
        rw [List.length_map, List.length_map] at hi
        simp [-List.length_flatten, -List.map_flatten, hi]
      have hdigests := decodes_readDigests hdefined
      rw [← flatMap_writeU32, List.length_map, List.length_map, List.map_map, List.map_map]
        at hdigests
      rw [if_neg hempty, crcId, if_neg hempty]
      apply (decodes_readAllOrBits_all _).bind
      apply hdigests.bind
      have hmissing : streams.flatten.map
          (((fun digest => digest.elim 0 UInt32.toUInt64) ∘ some) ∘ Prod.snd) = missing := rfl
      rw [hmissing, ← hlength]
      apply (Decodes.lift hfill).bind_nil
      exact (decodes_readU8 kEnd).bind_pure _

def SameBlock (block : Block) (info : BlockInfo) : Prop :=
  block.hasCrc = false ∧
    ∃ size, info.sizes.getLast? = some size ∧ block.getUnpackSize = .ok size

theorem holds_withCount {blocks : List Block} {infos : List BlockInfo}
    {streams : List (List SubStream)} (hblocks : List.Forall₂ SameBlock blocks infos)
    (hinfos : List.Forall₂ BlockInfo.Added infos streams) :
    List.Forall₂ Holds (List.zipWith withCount blocks streams) streams := by
  induction hinfos generalizing blocks with
  | nil => simp
  | cons hadded _ ih =>
      cases hblocks with
      | cons hblock hblocks =>
          refine .cons ⟨rfl, hblock.1, ?_⟩ (ih hblocks)
          obtain ⟨size, hsize, hunpack⟩ := hblock.2
          obtain ⟨size', hsize', hsum⟩ := hadded.sum
          obtain rfl : size' = size := Option.some.inj (hsize'.symm.trans hsize)
          exact ⟨size', (getUnpackSize_withCount _ _).trans hunpack, hsum⟩

def ReadsSubStreams (archive result : Archive) (streams : List (List SubStream)) : Prop :=
  result.blocks = List.zipWith withCount archive.blocks streams ∧
    ∃ info, result.subStreamsInfo = some info ∧ info.Lists streams.flatten

theorem decodes_readSubStreamsInfo {bounds : HeaderBounds} {archive : Archive}
    {info : UnpackInfo} {streams : List (List SubStream)}
    (hadded : List.Forall₂ BlockInfo.Added info.blocks streams)
    (hblocks : List.Forall₂ SameBlock archive.blocks info.blocks)
    (hbytes : streams.flatten.length ≤ bounds.bytes) (hmachine : bounds.bytes < 2 ^ 64)
    (hentries : info.needsNumUnpackStream = true →
      streams.flatten.length ≤ bounds.limits.maxEntries.toNat) :
    ∃ result, ReadsSubStreams archive result streams ∧
      Decodes (readSubStreamsInfo bounds archive) info.writeSubstreamsBody result := by
  have hlength : archive.blocks.length = streams.length :=
    hblocks.length_eq.trans hadded.length_eq
  have hholds := holds_withCount hblocks hadded
  rw [needsNumUnpackStream_eq hadded] at hentries
  let start : SubStreamsInfo :=
    { unpackSizes := streams.flatten.map Prod.fst
      hasCrc := BitSet.empty.reserveLenExact streams.flatten.length
      crcs := List.replicate streams.flatten.length 0 }
  have hstart : start.crcs = List.replicate streams.flatten.length 0 := rfl
  obtain ⟨info', hlists, hdigests⟩ := decodes_readSubStreamDigests hholds rfl hstart
  refine ⟨{ archive with
      blocks := List.zipWith withCount archive.blocks streams, subStreamsInfo := some info' },
    ⟨rfl, info', rfl, hlists⟩, ?_⟩
  rw [writeSubstreamsBody_eq hadded]
  apply (decodes_readSubStreamCounts hlength hbytes hentries).bind
  rw [sizeSection_eq, List.append_assoc]
  apply (decodes_writtenSizes hholds).bind
  apply (decodes_skipSizeId streams).bind
  have hdigestCount := countDigests_eq 0 hholds (Nat.le_of_eq (Nat.zero_add _))
    (Nat.lt_of_le_of_lt hbytes hmachine)
  rw [Nat.zero_add] at hdigestCount
  apply (Decodes.lift hdigestCount).bind_nil
  rw [← List.append_nil (if streams.flatten.isEmpty then [] else _)]
  apply hdigests.bind
  exact (Decodes.lift (a := ()) rfl).bind_nil (Decodes.pure _)

theorem flatMap_writeU32_length (crcs : List UInt32) :
    (crcs.flatMap writeU32).length = 4 * crcs.length := by
  induction crcs with
  | nil => rfl
  | cons crc crcs ih =>
      rw [List.flatMap_cons, List.length_append, ih, writeU32, leBytes_length, List.length_cons]
      omega

theorem flatten_length_le {info : UnpackInfo} {streams : List (List SubStream)}
    (hadded : List.Forall₂ BlockInfo.Added info.blocks streams) :
    streams.flatten.length ≤ info.writeSubstreamsBody.length := by
  have hcrcs : (crcBytes streams).length = 4 * streams.flatten.length := by
    rw [crcBytes, flatMap_writeU32_length, List.length_map]
  rw [writeSubstreamsBody_eq hadded, List.length_append, List.length_append]
  by_cases hempty : streams.flatten.isEmpty = true
  · rw [List.isEmpty_iff.mp hempty]
    simp
  · rw [if_neg hempty]
    simp only [List.length_cons, List.length_append]
    omega

/-- The section is read back exactly if the counts, where they are written, are within the
limit on entries. -/
theorem readSubStreamsInfo_writeSubstreams_iff {bounds : HeaderBounds} {archive : Archive}
    {info : UnpackInfo} {streams : List (List SubStream)}
    (hadded : List.Forall₂ BlockInfo.Added info.blocks streams)
    (hblocks : List.Forall₂ SameBlock archive.blocks info.blocks)
    (hbytes : info.writeSubstreamsBody.length ≤ bounds.bytes)
    (hmachine : bounds.bytes < 2 ^ 64) :
    (∃ result, ReadsSubStreams archive result streams ∧
        Decodes (readSubStreamsInfo bounds archive) info.writeSubstreamsBody result) ↔
      (info.needsNumUnpackStream = true →
        streams.flatten.length ≤ bounds.limits.maxEntries.toNat) := by
  have hfit := Nat.le_trans (flatten_length_le hadded) hbytes
  constructor
  · intro h hneeds
    obtain ⟨result, -, hdecodes⟩ := h
    rw [needsNumUnpackStream_eq hadded] at hneeds
    have hread := hdecodes []
    rw [List.append_nil, writeSubstreamsBody_eq hadded, if_pos hneeds, List.append_assoc,
      List.cons_append] at hread
    obtain ⟨counts, s₁, hcounts, -⟩ := bind_eq_ok.mp hread
    obtain ⟨nid, s₂, hnid, hcounts⟩ := bind_eq_ok.mp hcounts
    cases hnid
    rw [if_pos rfl] at hcounts
    obtain ⟨counted, s₃, hcounted, -⟩ := bind_eq_ok.mp hcounts
    have hle := readNumUnpackStreams_le 0
      (by rw [List.length_map, hblocks.length_eq, hadded.length_eq]) ?_ hcounted ?_
    · rwa [Nat.zero_add] at hle
    · intro ss hss
      have := List.Sublist.length_le (List.sublist_flatten_of_mem hss)
      omega
    · intro hnil
      rw [hnil] at hneeds
      simp at hneeds
  · exact decodes_readSubStreamsInfo hadded hblocks hfit hmachine

def mixedUnpackInfo : UnpackInfo :=
  (UnpackInfo.add {} [{ method := .copy }] [5] 0xAABBCCDD).addMultiple [{ method := .copy }] [7]
    0x11223344 2 [3, 4] [0x01020304, 0]

def mixedStreams : List (List SubStream) := [[(5, 0xAABBCCDD)], [(3, 0x01020304), (4, 0)]]

def copyBlock (size : UInt64) : Block :=
  { coders := [{ encoderMethodId := [0], numInStreams := 1, numOutStreams := 1, properties := [] }]
    totalInputStreams := 1, totalOutputStreams := 1, packedStreams := [0], unpackSizes := [size] }

theorem mixedUnpackInfo_added : List.Forall₂ BlockInfo.Added mixedUnpackInfo.blocks mixedStreams :=
  .cons (.add rfl)
    (.cons (@BlockInfo.Added.addMultiple _ _ _ 7 _ [(3, 0x01020304), (4, 0)] rfl rfl rfl) .nil)

theorem mixedUnpackInfo_sameBlock :
    List.Forall₂ SameBlock [copyBlock 5, copyBlock 7] mixedUnpackInfo.blocks :=
  .cons ⟨rfl, 5, rfl, rfl⟩ (.cons ⟨rfl, 7, rfl, rfl⟩ .nil)

theorem mixedUnpackInfo_reads_iff :
    (∃ result, ReadsSubStreams { blocks := [copyBlock 5, copyBlock 7] } result mixedStreams ∧
        Decodes
          (readSubStreamsInfo { bytes := 64, limits := {} }
            { blocks := [copyBlock 5, copyBlock 7] })
          mixedUnpackInfo.writeSubstreamsBody result) ↔
      (mixedUnpackInfo.needsNumUnpackStream = true → mixedStreams.flatten.length ≤ 1000000) :=
  readSubStreamsInfo_writeSubstreams_iff mixedUnpackInfo_added mixedUnpackInfo_sameBlock
    (by decide) (by decide)

theorem mixedUnpackInfo_refused :
    ¬ ∃ result, ReadsSubStreams { blocks := [copyBlock 5, copyBlock 7] } result mixedStreams ∧
        Decodes
          (readSubStreamsInfo { bytes := 64, limits := { maxEntries := 2 } }
            { blocks := [copyBlock 5, copyBlock 7] })
          mixedUnpackInfo.writeSubstreamsBody result := by
  rintro ⟨result, -, h⟩
  have hread := h []
  rw [List.append_nil] at hread
  have hrefused : (readSubStreamsInfo { bytes := 64, limits := { maxEntries := 2 } }
      { blocks := [copyBlock 5, copyBlock 7] } mixedUnpackInfo.writeSubstreamsBody).isOk =
        false := by
    decide +kernel
  rw [hread] at hrefused
  exact absurd hrefused (by simp [Except.isOk, Except.toBool])

end Sevenz
