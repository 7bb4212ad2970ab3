import Sevenz.Header.Accepted
import Sevenz.Header.StartHeader
import Sevenz.Lib.Chunks

/-!
# Sub-stream sizes

What `read_sub_streams_info` stores as the sizes of a block's sub-streams, and when they
partition the block's output.
-/

namespace Sevenz

open Lib Lib.Parser

def padTo (n : Nat) (filled : List UInt64) : List UInt64 :=
  filled ++ List.replicate (n - filled.length) 0

theorem setIndex_padTo {n : Nat} {filled sizes : List UInt64} {size : UInt64}
    (h : Result.setIndex (padTo n filled) filled.length size = .ok sizes) :
    sizes = padTo n (filled ++ [size]) := by
  obtain ⟨hlt, rfl⟩ := Result.setIndex_eq_ok.mp h
  rw [padTo, List.length_append, List.length_replicate] at hlt
  obtain ⟨k, hk⟩ := Nat.exists_eq_add_of_lt (show filled.length < n by omega)
  rw [padTo, padTo, List.set_append_right _ _ (Nat.le_refl _), Nat.sub_self, List.append_assoc,
    List.length_append, List.length_singleton, hk,
    show filled.length + k + 1 - filled.length = k + 1 by omega,
    show filled.length + k + 1 - (filled.length + 1) = k by omega, List.replicate_succ,
    List.set_cons_zero]
  rfl

def sumSizes (sizes : List UInt64) : Nat := (sizes.map UInt64.toNat).sum

theorem sumSizes_append (xs ys : List UInt64) : sumSizes (xs ++ ys) = sumSizes xs + sumSizes ys := by
  rw [sumSizes, List.map_append, List.sum_append]
  rfl

@[simp] theorem sumSizes_singleton (x : UInt64) : sumSizes [x] = x.toNat := by
  simp [sumSizes]

theorem readExplicitSizes_eq_ok {k n : Nat} {filled : List UInt64} {sum : Nat} {fill : SizeFill}
    {s s' : List UInt8}
    (h : readExplicitSizes k
      { unpackSizes := padTo n filled, nextUnpackStream := filled.length, sum } s =
        .ok (fill, s')) :
    ∃ sizes, sizes.length = k ∧ fill.unpackSizes = padTo n (filled ++ sizes) ∧
      fill.nextUnpackStream = (filled ++ sizes).length ∧ fill.sum = sum + sumSizes sizes := by
  induction k generalizing filled sum s with
  | zero =>
      cases pure_eq_ok.mp h
      exact ⟨[], rfl, by rw [List.append_nil], by rw [List.append_nil], rfl⟩
  | succ k ih =>
      obtain ⟨size, s₁, -, h⟩ := bind_eq_ok.mp h
      obtain ⟨sizes₁, hset, h⟩ := lift_bind_eq_ok.mp h
      obtain ⟨sum₁, hadd, h⟩ := lift_bind_eq_ok.mp h
      obtain rfl := setIndex_padTo hset
      obtain ⟨-, rfl⟩ := checkedAdd_eq_some.mp (Result.okOr_eq_ok.mp hadd)
      have hlen : filled.length + 1 = (filled ++ [size]).length := by
        rw [List.length_append, List.length_singleton]
      dsimp only at h
      rw [hlen] at h
      obtain ⟨sizes, hlength, hsizes, hnext, hsum⟩ := ih h
      refine ⟨size :: sizes, by rw [List.length_cons, hlength], ?_, ?_, ?_⟩
      · rw [hsizes, List.append_assoc, List.singleton_append]
      · rw [hnext, List.append_assoc, List.singleton_append]
      · rw [hsum, Nat.add_assoc, ← sumSizes_singleton size, ← sumSizes_append,
          List.singleton_append]

def storedSizes (nid : UInt8) (block : Block) : Nat :=
  if block.numUnpackSubStreams = 0 then 0
  else if nid = kSize then block.numUnpackSubStreams else 1

def SizesOf (nid : UInt8) (block : Block) (sizes : List UInt64) : Prop :=
  sizes.length = storedSizes nid block ∧
    (block.numUnpackSubStreams ≠ 0 →
      ∃ total, block.getUnpackSize = .ok total ∧ sumSizes sizes = total.toNat)

theorem readBlockSizes_eq_ok {nid : UInt8} {block : Block} {n : Nat}
    {filled sizes : List UInt64} {next : Nat} {s s' : List UInt8}
    (h : readBlockSizes nid block (padTo n filled) filled.length s = .ok ((sizes, next), s'))
    (hne : block.numUnpackSubStreams ≠ 0) :
    ∃ stored, SizesOf nid block stored ∧ sizes = padTo n (filled ++ stored) ∧
      next = (filled ++ stored).length := by
  obtain ⟨fill, s₁, hfill, h⟩ := bind_eq_ok.mp h
  obtain ⟨total, htotal, h⟩ := lift_bind_eq_ok.mp h
  obtain ⟨_, hle, h⟩ := lift_bind_eq_ok.mp h
  obtain ⟨sizes₁, hset, h⟩ := lift_bind_eq_ok.mp h
  cases pure_eq_ok.mp h
  obtain ⟨explicit, hlength, hsizes, hnext, hsum⟩ := readExplicitSizes_eq_ok hfill
  rw [Nat.zero_add] at hsum
  have hle := Nat.le_of_not_lt (Result.rejectIf_eq_ok.mp hle)
  rw [hsizes, hnext] at hset
  refine ⟨explicit ++ [total - UInt64.ofNat fill.sum], ⟨?_, fun _ => ⟨total, htotal, ?_⟩⟩,
    ?_, ?_⟩
  · rw [List.length_append, List.length_singleton, hlength, storedSizes, if_neg hne]
    split <;> omega
  · have hlt : fill.sum < 2 ^ 64 := Nat.lt_of_le_of_lt hle total.toNat_lt
    have hsub : (total - UInt64.ofNat fill.sum).toNat = total.toNat - fill.sum := by
      have hofNat : (UInt64.ofNat fill.sum).toNat = fill.sum := UInt64.toNat_ofNat_of_lt' hlt
      rw [UInt64.toNat_sub_of_le _ _ (by rwa [UInt64.le_iff_toNat_le, hofNat]), hofNat]
    rw [sumSizes_append, sumSizes_singleton, hsub, ← hsum]
    omega
  · rw [setIndex_padTo hset, List.append_assoc]
  · rw [hnext, ← List.append_assoc, @List.length_append _ _ [_], List.length_singleton]

theorem readSubStreamSizes_eq_ok {nid : UInt8} {blocks : List Block} {n : Nat}
    {filled sizes : List UInt64} {s s' : List UInt8}
    (h : readSubStreamSizes nid blocks (padTo n filled) filled.length s = .ok (sizes, s')) :
    ∃ chunks, List.Forall₂ (SizesOf nid) blocks chunks ∧
      sizes = padTo n (filled ++ chunks.flatten) := by
  induction blocks generalizing filled s with
  | nil =>
      cases pure_eq_ok.mp h
      exact ⟨[], .nil, by rw [List.flatten_nil, List.append_nil]⟩
  | cons block blocks ih =>
      unfold readSubStreamSizes at h
      split at h
      · rename_i hzero
        obtain ⟨chunks, hall, hsizes⟩ := ih h
        refine ⟨[] :: chunks, .cons ⟨?_, fun hne => absurd hzero hne⟩ hall, hsizes⟩
        rw [storedSizes, if_pos hzero]
        rfl
      · rename_i hne
        obtain ⟨⟨sizes₁, next⟩, s₁, hblock, h⟩ := bind_eq_ok.mp h
        obtain ⟨stored, hstored, rfl, rfl⟩ := readBlockSizes_eq_ok hblock hne
        obtain ⟨chunks, hall, hsizes⟩ := ih h
        refine ⟨stored :: chunks, .cons hstored hall, ?_⟩
        rw [hsizes, List.flatten_cons, List.append_assoc]

def streamsInfoCounts (bounds : HeaderBounds) : HeaderReader SubStreamCounts := do
  let nid ← readU8
  let (archive, nid) ← optionalSection kPackInfo nid {} (readPackInfo bounds) id
  let (archive, nid) ← optionalSection kUnpackInfo nid archive (readUnpackInfo bounds)
    fun archive => { archive with blocks := [] }
  Result.rejectIf (nid ≠ kSubStreamsInfo) (.badTerminatedStreamsInfo nid)
  readSubStreamCounts bounds archive.blocks

def headerCounts (bounds : HeaderBounds) : HeaderReader SubStreamCounts := do
  let nid ← readU8
  let nid ← skipArchiveProperties bounds nid
  Result.rejectIf (nid ≠ kMainStreamsInfo) (.badTerminatedHeader nid)
  streamsInfoCounts bounds

/-- The header records the sizes of its sub-streams: the size property follows the counts. -/
def RecordsSizes (limits : ArchiveLimits) (header : List UInt8) : Prop :=
  ∃ counts s', headerCounts { bytes := header.length, limits } header = .ok (counts, s') ∧
    counts.nid = kSize

def SizesStored (nid : UInt8) (blocks : List Block) (info : SubStreamsInfo) : Prop :=
  ∃ chunks, List.Forall₂ (SizesOf nid) blocks chunks ∧
    info.unpackSizes = padTo (countSubStreams blocks) chunks.flatten

theorem readSubStreamDigests_unpackSizes {blocks : List Block} {numDigests : Nat}
    {info info' : SubStreamsInfo} {nid nid' : UInt8} {s s' : List UInt8}
    (h : readSubStreamDigests blocks numDigests info nid s = .ok ((info', nid'), s')) :
    info'.unpackSizes = info.unpackSizes := by
  unfold readSubStreamDigests at h
  split at h
  · obtain ⟨missing, s₁, -, h⟩ := bind_eq_ok.mp h
    obtain ⟨crcs, s₂, -, h⟩ := bind_eq_ok.mp h
    obtain ⟨fill, -, h⟩ := lift_bind_eq_ok.mp h
    obtain ⟨nid₁, s₃, -, h⟩ := bind_eq_ok.mp h
    cases pure_eq_ok.mp h
    rfl
  · cases pure_eq_ok.mp h
    rfl

theorem readSubStreamsInfo_stored {bounds : HeaderBounds} {archive archive' : Archive}
    {s s' : List UInt8} (h : readSubStreamsInfo bounds archive s = .ok (archive', s')) :
    ∃ counts info t, readSubStreamCounts bounds archive.blocks s = .ok (counts, t) ∧
      archive'.subStreamsInfo = some info ∧ SizesStored counts.nid archive'.blocks info := by
  obtain ⟨counts, s₁, hcounts, h⟩ := bind_eq_ok.mp h
  obtain ⟨sizes, s₂, hsizes, h⟩ := bind_eq_ok.mp h
  obtain ⟨nid, s₃, -, h⟩ := bind_eq_ok.mp h
  obtain ⟨numDigests, -, h⟩ := lift_bind_eq_ok.mp h
  obtain ⟨⟨info, nid'⟩, s₄, hdigests, h⟩ := bind_eq_ok.mp h
  obtain ⟨_, -, h⟩ := lift_bind_eq_ok.mp h
  cases pure_eq_ok.mp h
  refine ⟨counts, info, s₁, hcounts, rfl, ?_⟩
  have hpad : List.replicate counts.totalUnpackStreams 0 = padTo counts.totalUnpackStreams [] := by
    simp [padTo]
  rw [hpad] at hsizes
  obtain ⟨chunks, hall, hsizes⟩ := readSubStreamSizes_eq_ok hsizes
  rw [List.nil_append, (readSubStreamCounts_eq_ok hcounts).1] at hsizes
  exact ⟨chunks, hall, (readSubStreamDigests_unpackSizes hdigests).trans hsizes⟩

theorem readUnpackInfo_subStreamsInfo {bounds : HeaderBounds} {archive archive' : Archive}
    {s s' : List UInt8} (h : readUnpackInfo bounds archive s = .ok (archive', s')) :
    archive'.subStreamsInfo = archive.subStreamsInfo := by
  obtain ⟨nid, s₁, -, h⟩ := bind_eq_ok.mp h
  obtain ⟨_, -, h⟩ := lift_bind_eq_ok.mp h
  obtain ⟨num, s₂, -, h⟩ := bind_eq_ok.mp h
  obtain ⟨numBlocks, -, h⟩ := lift_bind_eq_ok.mp h
  obtain ⟨external, s₃, -, h⟩ := bind_eq_ok.mp h
  obtain ⟨_, -, h⟩ := lift_bind_eq_ok.mp h
  obtain ⟨blocks, s₄, -, h⟩ := bind_eq_ok.mp h
  obtain ⟨nid', s₅, -, h⟩ := bind_eq_ok.mp h
  obtain ⟨_, -, h⟩ := lift_bind_eq_ok.mp h
  obtain ⟨sized, s₆, -, h⟩ := bind_eq_ok.mp h
  obtain ⟨nid'', s₇, -, h⟩ := bind_eq_ok.mp h
  obtain ⟨⟨digested, nid₃⟩, s₈, -, h⟩ := bind_eq_ok.mp h
  obtain ⟨_, -, h⟩ := lift_bind_eq_ok.mp h
  cases pure_eq_ok.mp h
  rfl

theorem readStreamsInfo_subStreams {bounds : HeaderBounds} {archive : Archive}
    {info : SubStreamsInfo} {s s' : List UInt8}
    (h : readStreamsInfo bounds {} s = .ok (archive, s'))
    (hinfo : archive.subStreamsInfo = some info) :
    ∃ unpacked t t', readSubStreamsInfo bounds unpacked t = .ok (archive, t') ∧
      streamsInfoCounts bounds s = readSubStreamCounts bounds unpacked.blocks t := by
  obtain ⟨nid, s₁, hnid, h⟩ := bind_eq_ok.mp h
  obtain ⟨⟨packed, nid₁⟩, s₂, hpack, h⟩ := bind_eq_ok.mp h
  obtain ⟨⟨unpacked, nid₂⟩, s₃, hunpack, h⟩ := bind_eq_ok.mp h
  obtain ⟨⟨subs, nid₃⟩, s₄, hsubs, h⟩ := bind_eq_ok.mp h
  obtain ⟨_, -, h⟩ := lift_bind_eq_ok.mp h
  cases pure_eq_ok.mp h
  have hnone : packed.blocks = [] ∧ packed.subStreamsInfo = none := by
    rcases optionalSection_eq_ok hpack with ⟨-, t, hread, -⟩ | ⟨-, rfl, -, -⟩
    · exact ⟨(readPackInfo_keeps hread).1, (readPackInfo_keeps hread).2.1⟩
    · exact ⟨rfl, rfl⟩
  rcases optionalSection_eq_ok hsubs with ⟨rfl, t, hread, -⟩ | ⟨-, heq, -, -⟩
  · refine ⟨unpacked, s₃, t, hread, ?_⟩
    refine (bind_apply_ok hnid).trans ((bind_apply_ok hpack).trans ?_)
    exact bind_apply_ok hunpack
  · -- without the section nothing has set the sub-streams
    have hunpacked : unpacked.subStreamsInfo = none := by
      rcases optionalSection_eq_ok hunpack with ⟨-, t, hread, -⟩ | ⟨-, rfl, -, -⟩
      · exact (readUnpackInfo_subStreamsInfo hread).trans hnone.2
      · exact hnone.2
    rw [heq, id, hunpacked] at hinfo
    cases hinfo

theorem readFilesOrMap_keeps {bounds : HeaderBounds} {nid nid' : UInt8}
    {archive archive' : Archive} {s s' : List UInt8}
    (h : readFilesOrMap bounds nid archive s = .ok ((archive', nid'), s')) :
    archive'.blocks = archive.blocks ∧ archive'.subStreamsInfo = archive.subStreamsInfo := by
  rw [readFilesOrMap_eq h]
  exact ⟨rfl, rfl⟩

theorem readHeader_subStreams {bounds : HeaderBounds} {archive : Archive} {info : SubStreamsInfo}
    {s s' : List UInt8} (h : readHeader bounds {} s = .ok (archive, s'))
    (hinfo : archive.subStreamsInfo = some info) :
    ∃ unpacked streams t t', readSubStreamsInfo bounds unpacked t = .ok (streams, t') ∧
      headerCounts bounds s = readSubStreamCounts bounds unpacked.blocks t ∧
      streams.blocks = archive.blocks ∧ streams.subStreamsInfo = some info := by
  obtain ⟨nid, s₁, hnid, h⟩ := bind_eq_ok.mp h
  obtain ⟨nid₁, s₂, hskip, h⟩ := bind_eq_ok.mp h
  obtain ⟨_, -, h⟩ := lift_bind_eq_ok.mp h
  obtain ⟨⟨streams, nid₂⟩, s₃, hstreams, h⟩ := bind_eq_ok.mp h
  obtain ⟨⟨mapped, nid₃⟩, s₄, hmapped, h⟩ := bind_eq_ok.mp h
  obtain ⟨_, -, h⟩ := lift_bind_eq_ok.mp h
  cases pure_eq_ok.mp h
  obtain ⟨hblocks, hsame⟩ := readFilesOrMap_keeps hmapped
  rw [hsame] at hinfo
  rcases optionalSection_eq_ok hstreams with ⟨rfl, t, hread, -⟩ | ⟨-, rfl, -, -⟩
  · obtain ⟨unpacked, t₁, t₂, hsubs, hcounts⟩ := readStreamsInfo_subStreams hread hinfo
    refine ⟨unpacked, streams, t₁, t₂, hsubs, ?_, hblocks.symm, hinfo⟩
    exact (bind_apply_ok hnid).trans ((bind_apply_ok hskip).trans hcounts)
  · cases hinfo

theorem readHeader_stored {bounds : HeaderBounds} {archive : Archive} {info : SubStreamsInfo}
    {s s' : List UInt8} (h : readHeader bounds {} s = .ok (archive, s'))
    (hinfo : archive.subStreamsInfo = some info) :
    ∃ counts t, headerCounts bounds s = .ok (counts, t) ∧
      SizesStored counts.nid archive.blocks info := by
  obtain ⟨unpacked, streams, t, t', hread, heq, hblocks, hsome⟩ := readHeader_subStreams h hinfo
  obtain ⟨counts, info', u, hcounts, hsome', hstored⟩ := readSubStreamsInfo_stored hread
  cases hsome'.symm.trans hsome
  exact ⟨counts, u, heq.trans hcounts, hblocks ▸ hstored⟩

/-- Sizes of `n` consecutive ranges that make up an output of the given size. -/
structure Partitions (sizes : List UInt64) (n : Nat) (total : UInt64) : Prop where
  length : sizes.length = n
  sum : sumSizes sizes = total.toNat
  running : ∀ k, sumSizes (sizes.take k) ≤ total.toNat

theorem partitions_of_sum {sizes : List UInt64} {n : Nat} {total : UInt64}
    (hlength : sizes.length = n) (hsum : sumSizes sizes = total.toNat) :
    Partitions sizes n total := by
  refine ⟨hlength, hsum, fun k => ?_⟩
  rw [← hsum]
  conv_rhs => rw [← List.take_append_drop k sizes, sumSizes_append]
  exact Nat.le_add_right _ _

namespace Archive

def subStreamSizes (archive : Archive) (info : SubStreamsInfo) (b : Nat) : List UInt64 :=
  (info.unpackSizes.drop (archive.streamMap.blockFirstSubStreamIndex.getD b 0)).take
    (subStreamsOf archive.blocks b)

def SubStreamsPartition (archive : Archive) (info : SubStreamsInfo) : Prop :=
  ∀ b block, archive.blocks[b]? = some block → 1 ≤ block.numUnpackSubStreams →
    ∃ total, block.getUnpackSize = .ok total ∧
      Partitions (archive.subStreamSizes info b) block.numUnpackSubStreams total

end Archive

/-- A block as an item of the flat array: how many sizes it has and what they add up to. -/
def sizeItem (block : Block) : Nat × Nat :=
  (block.numUnpackSubStreams, (block.getUnpackSize.toOption.map UInt64.toNat).getD 0)

theorem sizeItem_eq {block : Block} {total : UInt64} (h : block.getUnpackSize = .ok total) :
    sizeItem block = (block.numUnpackSubStreams, total.toNat) := by
  rw [sizeItem, h]
  rfl

theorem sizeItem_snd {block : Block} {total : UInt64} (h : block.getUnpackSize = .ok total) :
    (sizeItem block).2 = total.toNat := by
  rw [sizeItem_eq h]

theorem sizeItem_fst (blocks : List Block) :
    (blocks.map sizeItem).map Prod.fst = Block.subStreamCounts blocks := by
  rw [List.map_map]
  rfl

theorem subStreamsPartition_iff {archive : Archive} {info : SubStreamsInfo}
    (h : archive.Described) (hinfo : archive.subStreamsInfo = some info) :
    archive.SubStreamsPartition info ↔
      ChunksSum (archive.blocks.map sizeItem) (info.unpackSizes.map UInt64.toNat) := by
  have hflat := (h.parsed.info info hinfo).unpackSizes
  have hslice : ∀ b block, archive.blocks[b]? = some block →
      archive.subStreamSizes info b =
        (info.unpackSizes.drop (offset (Block.subStreamCounts archive.blocks) b)).take
          block.numUnpackSubStreams := by
    intro b block hb
    have hlt : b < (Block.subStreamCounts archive.blocks).length := by
      rw [Block.subStreamCounts, List.length_map]
      exact (List.getElem?_eq_some_iff.mp hb).1
    rw [Archive.subStreamSizes, h.mapped.firstSubStream, List.getD_eq_getElem?_getD,
      starts_getElem? hlt, Option.getD_some, Nat.zero_add, subStreamsOf_eq hb]
  have hlength : ∀ b block, archive.blocks[b]? = some block →
      (archive.subStreamSizes info b).length = block.numUnpackSubStreams := by
    intro b block hb
    have hcount : (Block.subStreamCounts archive.blocks)[b]? = some block.numUnpackSubStreams := by
      rw [Block.subStreamCounts, List.getElem?_map, hb]
      rfl
    have hle := offset_le_sum (Block.subStreamCounts archive.blocks) (b + 1)
    rw [offset_succ hcount] at hle
    rw [hslice b block hb, List.length_take, List.length_drop, hflat]
    exact Nat.min_eq_left (Nat.le_sub_of_add_le (by rw [Nat.add_comm]; exact hle))
  rw [chunksSum_iff, sizeItem_fst]
  constructor
  · intro hpart b item hitem hne
    rw [List.getElem?_map] at hitem
    obtain ⟨block, hb, rfl⟩ := Option.map_eq_some_iff.mp hitem
    obtain ⟨total, htotal, hparts⟩ := hpart b block hb (Nat.one_le_iff_ne_zero.mpr hne)
    rw [sizeItem_snd htotal, ← hparts.sum, hslice b block hb, sumSizes, List.map_take,
      List.map_drop]
    rfl
  · intro hchunks b block hb hn
    obtain ⟨total, htotal⟩ :=
      (h.parsed.blocks block (List.mem_of_getElem? hb)).getUnpackSize_isOk
    refine ⟨total, htotal, partitions_of_sum (hlength b block hb) ?_⟩
    have := hchunks b (sizeItem block) (by rw [List.getElem?_map, hb]; rfl)
      (Nat.one_le_iff_ne_zero.mp hn)
    rw [sizeItem_snd htotal] at this
    rw [← this, hslice b block hb, sumSizes, List.map_take, List.map_drop]
    rfl

theorem chunksSum_of_kSize {blocks : List Block} {info : SubStreamsInfo}
    (h : SizesStored kSize blocks info) :
    ChunksSum (blocks.map sizeItem) (info.unpackSizes.map UInt64.toNat) := by
  obtain ⟨chunks, hall, hsizes⟩ := h
  have hcut : List.Forall₂ (fun item chunk => chunk.length = item.1 ∧
      (item.1 ≠ 0 → chunk.sum = item.2)) (blocks.map sizeItem)
      (chunks.map (List.map UInt64.toNat)) := by
    rw [List.forall₂_map_left_iff, List.forall₂_map_right_iff]
    refine hall.imp fun block sizes hof => ?_
    obtain ⟨hlength, htotal⟩ := hof
    refine ⟨?_, fun hne => ?_⟩
    · rw [List.length_map, hlength, storedSizes, sizeItem]
      split <;> simp_all
    · obtain ⟨total, hget, hsum⟩ := htotal hne
      rw [sizeItem_snd hget, ← hsum]
      rfl
  have hlen : chunks.flatten.length = countSubStreams blocks := by
    clear hsizes hcut
    induction hall with
    | nil => rfl
    | cons hof _ ih =>
        rw [List.flatten_cons, List.length_append, ih, hof.1, countSubStreams, countSubStreams,
          List.map_cons, List.sum_cons, storedSizes]
        split <;> simp_all
  rw [hsizes, padTo, hlen, Nat.sub_self, List.replicate_zero, List.append_nil, List.map_flatten]
  exact chunksSum_flatten hcut

theorem unpackSizes_of_ne_kSize {blocks : List Block} {info : SubStreamsInfo} {nid : UInt8}
    (hnid : nid ≠ kSize) (h : SizesStored nid blocks info) :
    ∃ z, info.unpackSizes.map UInt64.toNat =
      totals (blocks.map sizeItem) ++ List.replicate z 0 := by
  obtain ⟨chunks, hall, hsizes⟩ := h
  refine ⟨countSubStreams blocks - chunks.flatten.length, ?_⟩
  rw [hsizes, padTo, List.map_append, List.map_replicate]
  refine congrArg (· ++ _) ?_
  clear hsizes
  induction hall with
  | nil => rfl
  | @cons block sizes blocks chunks hof _ ih =>
      obtain ⟨hlength, htotal⟩ := hof
      rw [List.flatten_cons, List.map_append, ih, List.map_cons]
      unfold storedSizes at hlength
      split at hlength
      · rename_i hzero
        rw [sizeItem, totals_cons_of_zero hzero, List.eq_nil_of_length_eq_zero hlength]
        rfl
      · rename_i hne
        obtain ⟨size, rfl⟩ := List.length_eq_one_iff.mp hlength
        obtain ⟨total, hget, hsum⟩ := htotal hne
        rw [sumSizes_singleton] at hsum
        rw [sizeItem_eq hget, totals_cons_of_ne hne, ← hsum]
        rfl

theorem readHeader_partition_iff {limits : ArchiveLimits} {header : List UInt8}
    {archive : Archive} {info : SubStreamsInfo} {s' : List UInt8}
    (h : readHeader { bytes := header.length, limits } {} header = .ok (archive, s'))
    (hinfo : archive.subStreamsInfo = some info) :
    ChunksSum (archive.blocks.map sizeItem) (info.unpackSizes.map UInt64.toNat) ↔
      RecordsSizes limits header ∨ archive.blocks.Pairwise fun b b' =>
        2 ≤ b.numUnpackSubStreams → 1 ≤ b'.numUnpackSubStreams → b'.getUnpackSize = .ok 0 := by
  obtain ⟨counts, t, hcounts, hstored⟩ := readHeader_stored h hinfo
  by_cases hnid : counts.nid = kSize
  · rw [hnid] at hstored
    exact iff_of_true (chunksSum_of_kSize hstored) (.inl ⟨counts, t, hcounts, hnid⟩)
  · obtain ⟨z, hflat⟩ := unpackSizes_of_ne_kSize hnid hstored
    have hnot : ¬ RecordsSizes limits header := by
      rintro ⟨counts', t', hcounts', hnid'⟩
      cases hcounts.symm.trans hcounts'
      exact hnid hnid'
    rw [hflat, chunksSum_totals_iff, List.pairwise_map, or_iff_right hnot]
    refine List.Pairwise.iff_of_mem fun {b b'} _ hb' => ?_
    obtain ⟨total, htotal⟩ :=
      ((readHeader_described h).parsed.blocks b' hb').getUnpackSize_isOk
    have hzero : (sizeItem b').2 = 0 ↔ b'.getUnpackSize = .ok 0 := by
      rw [sizeItem_snd htotal, htotal, Except.ok.injEq, ← UInt64.toNat_inj]
      rfl
    rw [hzero, ← Nat.one_le_iff_ne_zero]
    rfl

/-- The sub-streams of an accepted archive partition the output of every block exactly where
its header records their sizes, or where no block that has some comes after one of two or
more unless it unpacks to nothing. -/
theorem readWithLimits_subStreamsPartition_iff {codecs : Codecs} {limits : ArchiveLimits}
    {passwordGiven : Bool} {file : List UInt8} {archive : Archive} {info : SubStreamsInfo}
    (h : readWithLimits codecs limits passwordGiven file = .ok archive)
    (hinfo : archive.subStreamsInfo = some info) :
    (∃ header, ReadFrom codecs limits passwordGiven file header archive) ∧
      ∀ header, ReadFrom codecs limits passwordGiven file header archive →
        (archive.SubStreamsPartition info ↔
          RecordsSizes limits header ∨ archive.blocks.Pairwise fun b b' =>
            2 ≤ b.numUnpackSubStreams → 1 ≤ b'.numUnpackSubStreams →
              b'.getUnpackSize = .ok 0) := by
  refine ⟨readWithLimits_readFrom h, fun header hfrom => ?_⟩
  rw [subStreamsPartition_iff hfrom.described hinfo]
  obtain ⟨startHeader, verifyCrc, buf, parsed, -, -, hparse, hcheck⟩ := hfrom
  obtain ⟨-, s', hread⟩ := parseHeader_eq_ok hparse
  obtain ⟨-, -, rfl⟩ := checkArchive_eq_ok hcheck
  have hparsed : parsed.subStreamsInfo = some info := hinfo
  have hiff := readHeader_partition_iff hread hparsed
  exact hiff

def bareSizesFile : List UInt8 :=
  archiveFile crc32 [0x41, 0x42]
    [kHeader, kMainStreamsInfo,
      kPackInfo, 0, 2, kSize, 1, 1, kEnd,
      kUnpackInfo, kFolder, 2, 0, 1, 1, 0, 1, 1, 0, kCodersUnpackSize, 1, 1, kEnd,
      kSubStreamsInfo, kNumUnpackStream, 2, 1, kEnd, kEnd,
      kFilesInfo, 3, kEnd, kEnd]

theorem bareSizesFile_accepted : ∃ archive info block,
    readWithLimits (.copying bareSizesFile) {} false bareSizesFile = .ok archive ∧
      archive.subStreamsInfo = some info ∧ archive.blocks[0]? = some block ∧
      block.numUnpackSubStreams = 2 ∧ block.getUnpackSize.toOption = some 1 ∧
      sumSizes (archive.subStreamSizes info 0) = 2 := by
  obtain ⟨archive, hread, hcheck⟩ := Result.exists_of_holds
    (show (readWithLimits (.copying bareSizesFile) {} false bareSizesFile).holds
      (fun archive => archive.subStreamsInfo.any fun info => archive.blocks[0]?.any fun block =>
        block.numUnpackSubStreams = 2 ∧ block.getUnpackSize.toOption = some 1 ∧
          sumSizes (archive.subStreamSizes info 0) = 2) = true by decide +kernel)
  obtain ⟨info, hinfo, hcheck⟩ := (Option.any_eq_true _ _).mp hcheck
  obtain ⟨block, hblock, hcheck⟩ := (Option.any_eq_true _ _).mp hcheck
  exact ⟨archive, info, block, hread, hinfo, hblock, of_decide_eq_true hcheck⟩

theorem bareSizesFile_subStreamsPartition_iff : ∃ archive info,
    readWithLimits (.copying bareSizesFile) {} false bareSizesFile = .ok archive ∧
      archive.subStreamsInfo = some info ∧
      ∃ header, ReadFrom (.copying bareSizesFile) {} false bareSizesFile header archive ∧
        (archive.SubStreamsPartition info ↔
          RecordsSizes {} header ∨ archive.blocks.Pairwise fun b b' =>
            2 ≤ b.numUnpackSubStreams → 1 ≤ b'.numUnpackSubStreams →
              b'.getUnpackSize = .ok 0) := by
  obtain ⟨archive, info, block, hread, hinfo, -⟩ := bareSizesFile_accepted
  obtain ⟨⟨header, hfrom⟩, hiff⟩ := readWithLimits_subStreamsPartition_iff hread hinfo
  exact ⟨archive, info, hread, hinfo, header, hfrom, hiff header hfrom⟩

/-- The first block's two sub-streams are given the unpack sizes of both blocks. -/
theorem bareSizesFile_not_subStreamsPartition : ∃ archive info,
    readWithLimits (.copying bareSizesFile) {} false bareSizesFile = .ok archive ∧
      archive.subStreamsInfo = some info ∧ ¬ archive.SubStreamsPartition info := by
  obtain ⟨archive, info, block, hread, hinfo, hblock, hn, htotal, hsum⟩ := bareSizesFile_accepted
  refine ⟨archive, info, hread, hinfo, fun hpart => ?_⟩
  obtain ⟨total, hget, hparts⟩ := hpart 0 block hblock (by rw [hn]; decide)
  rw [hget] at htotal
  cases htotal
  exact absurd (hsum.symm.trans hparts.sum) (by decide)

end Sevenz
