import Sevenz.Header.CoderGraph
import Sevenz.Header.StreamsInfo

/-!
# What a parsed streams section is like

Every block is one `read_block` accepted, with a size for each of its out-streams, and the
flat arrays of the sub-streams have an entry for each of them.
-/

namespace Sevenz

open Lib Lib.Parser

def Block.SameGraph (b b' : Block) : Prop :=
  b' = { b with
    unpackSizes := b'.unpackSizes, hasCrc := b'.hasCrc, crc := b'.crc
    numUnpackSubStreams := b'.numUnpackSubStreams }

structure Block.Parsed (block : Block) : Prop where
  accepted : ∃ bounds s s' b, readBlock bounds s = .ok (b, s') ∧ b.SameGraph block
  sizes : block.unpackSizes.length = block.totalOutputStreams

def countSubStreams (blocks : List Block) : Nat := (blocks.map Block.numUnpackSubStreams).sum

structure SubStreamsInfo.Covers (info : SubStreamsInfo) (n : Nat) : Prop where
  unpackSizes : info.unpackSizes.length = n
  crcs : info.crcs.length = n
  hasCrc : ∀ i, info.hasCrc.contains i = true → i < n

structure Archive.Parsed (archive : Archive) : Prop where
  blocks : ∀ block ∈ archive.blocks, block.Parsed
  info : ∀ info, archive.subStreamsInfo = some info → info.Covers (countSubStreams archive.blocks)

namespace Block

theorem SameGraph.refl (b : Block) : b.SameGraph b := rfl

theorem SameGraph.trans {b b' b'' : Block} (h : b.SameGraph b') (h' : b'.SameGraph b'') :
    b.SameGraph b'' := by
  unfold SameGraph at h h' ⊢
  rw [h', h]

theorem SameGraph.wellBound {b b' : Block} (h : b.SameGraph b') (hb : b.WellBound) :
    b'.WellBound := by
  rw [h]
  exact ⟨hb.totalIn, hb.totalOut, hb.inOnce, hb.outOnce, hb.bindRange, hb.packedRange, hb.output⟩

theorem Parsed.wellBound {block : Block} (h : block.Parsed) : block.WellBound := by
  obtain ⟨bounds, s, s', b, hread, hsame⟩ := h.accepted
  exact hsame.wellBound (readBlock_wellBound hread)

theorem Parsed.getUnpackSize_isOk {block : Block} (h : block.Parsed) :
    ∃ size, block.getUnpackSize = .ok size :=
  Block.getUnpackSize_isOk h.sizes.ge

theorem Parsed.congr {b b' : Block} (h : b.Parsed) (hsame : b.SameGraph b')
    (hsizes : b'.unpackSizes = b.unpackSizes) : b'.Parsed where
  accepted := by
    obtain ⟨bounds, s, s', b₀, hread, h₀⟩ := h.accepted
    exact ⟨bounds, s, s', b₀, hread, h₀.trans hsame⟩
  sizes := by
    rw [hsizes, h.sizes, hsame]

end Block

theorem readBlock_unpackSizes {bounds : HeaderBounds} {block : Block} {s s' : List UInt8}
    (h : readBlock bounds s = .ok (block, s')) : block.unpackSizes = [] := by
  obtain ⟨num, s₁, -, h⟩ := bind_eq_ok.mp h
  obtain ⟨numCoders, -, h⟩ := lift_bind_eq_ok.mp h
  obtain ⟨⟨coders, totals⟩, s₂, -, h⟩ := bind_eq_ok.mp h
  obtain ⟨_, -, h⟩ := lift_bind_eq_ok.mp h
  obtain ⟨bindPairs, s₃, -, h⟩ := bind_eq_ok.mp h
  obtain ⟨_, -, h⟩ := lift_bind_eq_ok.mp h
  obtain ⟨packedStreams, s₄, -, h⟩ := bind_eq_ok.mp h
  obtain ⟨_, -, h⟩ := lift_bind_eq_ok.mp h
  cases pure_eq_ok.mp h
  rfl

theorem readBlocks_forall {bounds : HeaderBounds} {n totalCoders : Nat} {blocks : List Block}
    {s s' : List UInt8} (h : readBlocks bounds n totalCoders s = .ok (blocks, s')) :
    ∀ block ∈ blocks, ∃ s s', readBlock bounds s = .ok (block, s') := by
  induction n generalizing totalCoders s blocks with
  | zero =>
      cases pure_eq_ok.mp h
      simp
  | succ n ih =>
      obtain ⟨block, s₁, hblock, h⟩ := bind_eq_ok.mp h
      obtain ⟨_, -, h⟩ := lift_bind_eq_ok.mp h
      obtain ⟨blocks', s₂, hblocks, h⟩ := bind_eq_ok.mp h
      cases pure_eq_ok.mp h
      intro b hb
      rcases List.mem_cons.mp hb with rfl | hb
      · exact ⟨s, s₁, hblock⟩
      · exact ih hblocks b hb

theorem readUnpackSizes_sizes {blocks blocks' : List Block} {s s' : List UInt8}
    (h : readUnpackSizes blocks s = .ok (blocks', s')) :
    ∀ b' ∈ blocks', ∃ b ∈ blocks, b.SameGraph b' ∧
      b'.unpackSizes.length = b.unpackSizes.length + b.totalOutputStreams := by
  intro b' hb'
  obtain ⟨b, hb, t, t', hread⟩ := exists_of_mem_mapM h b' hb'
  obtain ⟨sizes, t₁, hsizes, hread⟩ := bind_eq_ok.mp hread
  cases pure_eq_ok.mp hread
  refine ⟨b, hb, rfl, ?_⟩
  rw [List.length_append, many_length hsizes]

theorem readBlockCrc_eq_ok {numBlocks : Nat} {crcsDefined : BitSet} {b : Block × Nat} {b' : Block}
    {s s' : List UInt8} (h : readBlockCrc numBlocks crcsDefined b s = .ok (b', s')) :
    b.1.SameGraph b' ∧ b'.unpackSizes = b.1.unpackSizes := by
  unfold readBlockCrc at h
  split at h
  · cases pure_eq_ok.mp h
    exact ⟨rfl, rfl⟩
  · split at h
    · obtain ⟨crc, s₁, -, h⟩ := bind_eq_ok.mp h
      cases pure_eq_ok.mp h
      exact ⟨rfl, rfl⟩
    · cases pure_eq_ok.mp h
      exact ⟨rfl, rfl⟩

theorem readBlockCrcs_parsed {numBlocks : Nat} {blocks blocks' : List Block} {nid nid' : UInt8}
    {s s' : List UInt8} (h : readBlockCrcs numBlocks blocks nid s = .ok ((blocks', nid'), s'))
    (hblocks : ∀ block ∈ blocks, block.Parsed) : ∀ block ∈ blocks', block.Parsed := by
  unfold readBlockCrcs at h
  split at h
  · obtain ⟨crcsDefined, s₁, -, h⟩ := bind_eq_ok.mp h
    obtain ⟨blocks₁, s₂, hcrcs, h⟩ := bind_eq_ok.mp h
    obtain ⟨nid₁, s₃, -, h⟩ := bind_eq_ok.mp h
    cases pure_eq_ok.mp h
    intro b' hb'
    obtain ⟨⟨b, i⟩, hb, t, t', hread⟩ := exists_of_mem_mapM hcrcs b' hb'
    obtain ⟨hsame, hsizes⟩ := readBlockCrc_eq_ok hread
    exact (hblocks b (List.fst_mem_of_mem_zipIdx hb)).congr hsame hsizes
  · cases pure_eq_ok.mp h
    exact hblocks

theorem readUnpackInfo_parsed {bounds : HeaderBounds} {archive archive' : Archive}
    {s s' : List UInt8} (h : readUnpackInfo bounds archive s = .ok (archive', s'))
    (hblocks : archive.blocks = []) (hinfo : archive.subStreamsInfo = none) :
    archive'.Parsed ∧ archive'.files = archive.files := by
  obtain ⟨nid, s₁, -, h⟩ := bind_eq_ok.mp h
  obtain ⟨_, -, h⟩ := lift_bind_eq_ok.mp h
  obtain ⟨num, s₂, -, h⟩ := bind_eq_ok.mp h
  obtain ⟨numBlocks, -, h⟩ := lift_bind_eq_ok.mp h
  obtain ⟨external, s₃, -, h⟩ := bind_eq_ok.mp h
  obtain ⟨_, -, h⟩ := lift_bind_eq_ok.mp h
  obtain ⟨blocks, s₄, hread, h⟩ := bind_eq_ok.mp h
  obtain ⟨nid', s₅, -, h⟩ := bind_eq_ok.mp h
  obtain ⟨_, -, h⟩ := lift_bind_eq_ok.mp h
  obtain ⟨sized, s₆, hsizes, h⟩ := bind_eq_ok.mp h
  obtain ⟨nid'', s₇, -, h⟩ := bind_eq_ok.mp h
  obtain ⟨⟨digested, nid₃⟩, s₈, hcrcs, h⟩ := bind_eq_ok.mp h
  obtain ⟨_, -, h⟩ := lift_bind_eq_ok.mp h
  cases pure_eq_ok.mp h
  rw [hblocks, List.nil_append] at hsizes
  have hsized : ∀ block ∈ sized, block.Parsed := by
    intro b' hb'
    obtain ⟨b, hb, hsame, hlength⟩ := readUnpackSizes_sizes hsizes b' hb'
    obtain ⟨t, t', hblock⟩ := readBlocks_forall hread b hb
    refine ⟨⟨bounds, t, t', b, hblock, hsame⟩, ?_⟩
    rw [hlength, readBlock_unpackSizes hblock, List.length_nil, Nat.zero_add, hsame]
  refine ⟨⟨readBlockCrcs_parsed hcrcs hsized, ?_⟩, rfl⟩
  intro info hsome
  rw [show archive.subStreamsInfo = some info from hsome] at hinfo
  cases hinfo

theorem parsed_of_numUnpackSubStreams {block : Block} (h : block.Parsed) (n : Nat) :
    Block.Parsed { block with numUnpackSubStreams := n } :=
  h.congr rfl rfl

theorem readNumUnpackStreams_eq_ok {bounds : HeaderBounds} {blocks blocks' : List Block}
    {total total' : Nat} {s s' : List UInt8}
    (h : readNumUnpackStreams bounds blocks total s = .ok ((blocks', total'), s')) :
    total' = total + countSubStreams blocks' ∧
      ((∀ block ∈ blocks, block.Parsed) → ∀ block ∈ blocks', block.Parsed) := by
  induction blocks generalizing total s blocks' with
  | nil =>
      cases pure_eq_ok.mp h
      exact ⟨rfl, id⟩
  | cons block blocks ih =>
      obtain ⟨num, s₁, -, h⟩ := bind_eq_ok.mp h
      obtain ⟨numStreams, -, h⟩ := lift_bind_eq_ok.mp h
      obtain ⟨total₁, hadd, h⟩ := lift_bind_eq_ok.mp h
      obtain ⟨⟨blocks₁, total₂⟩, s₂, hrest, h⟩ := bind_eq_ok.mp h
      cases pure_eq_ok.mp h
      obtain ⟨htotal, hparsed⟩ := ih hrest
      obtain ⟨rfl, -⟩ := HeaderBounds.addCount_eq_ok.mp hadd
      refine ⟨?_, fun hblocks b hb => ?_⟩
      · rw [htotal, countSubStreams, countSubStreams, List.map_cons, List.sum_cons, Nat.add_assoc]
      · rcases List.mem_cons.mp hb with rfl | hb
        · exact parsed_of_numUnpackSubStreams (hblocks block List.mem_cons_self) numStreams
        · exact hparsed (fun c hc => hblocks c (List.mem_cons_of_mem block hc)) b hb

theorem readSubStreamCounts_eq_ok {bounds : HeaderBounds} {blocks : List Block}
    {counts : SubStreamCounts} {s s' : List UInt8}
    (h : readSubStreamCounts bounds blocks s = .ok (counts, s')) :
    counts.totalUnpackStreams = countSubStreams counts.blocks ∧
      ((∀ block ∈ blocks, block.Parsed) → ∀ block ∈ counts.blocks, block.Parsed) := by
  have hone : (∀ block ∈ blocks, block.Parsed) →
      ∀ block ∈ blocks.map fun block => { block with numUnpackSubStreams := 1 },
        block.Parsed := by
    intro hblocks b hb
    obtain ⟨block, hblock, rfl⟩ := List.mem_map.mp hb
    exact parsed_of_numUnpackSubStreams (hblocks block hblock) 1
  obtain ⟨nid, s₁, -, h⟩ := bind_eq_ok.mp h
  split at h
  · obtain ⟨⟨blocks', total⟩, s₂, hcounts, h⟩ := bind_eq_ok.mp h
    obtain ⟨nid', s₃, -, h⟩ := bind_eq_ok.mp h
    cases pure_eq_ok.mp h
    obtain ⟨htotal, hparsed⟩ := readNumUnpackStreams_eq_ok hcounts
    exact ⟨htotal.trans (Nat.zero_add _), fun hblocks => hparsed (hone hblocks)⟩
  · cases pure_eq_ok.mp h
    refine ⟨?_, hone⟩
    simp [countSubStreams, List.map_map, Function.comp_def]

theorem readExplicitSizes_length {n : Nat} {fill fill' : SizeFill} {s s' : List UInt8}
    (h : readExplicitSizes n fill s = .ok (fill', s')) :
    fill'.unpackSizes.length = fill.unpackSizes.length := by
  induction n generalizing fill s with
  | zero =>
      cases pure_eq_ok.mp h
      rfl
  | succ n ih =>
      obtain ⟨size, s₁, -, h⟩ := bind_eq_ok.mp h
      obtain ⟨sizes, hset, h⟩ := lift_bind_eq_ok.mp h
      obtain ⟨sum, -, h⟩ := lift_bind_eq_ok.mp h
      obtain ⟨-, rfl⟩ := Result.setIndex_eq_ok.mp hset
      exact (ih h).trans (List.length_set ..)

theorem readBlockSizes_length {nid : UInt8} {block : Block} {sizes sizes' : List UInt64}
    {next next' : Nat} {s s' : List UInt8}
    (h : readBlockSizes nid block sizes next s = .ok ((sizes', next'), s')) :
    sizes'.length = sizes.length := by
  obtain ⟨fill, s₁, hfill, h⟩ := bind_eq_ok.mp h
  obtain ⟨total, -, h⟩ := lift_bind_eq_ok.mp h
  obtain ⟨_, -, h⟩ := lift_bind_eq_ok.mp h
  obtain ⟨sizes₁, hset, h⟩ := lift_bind_eq_ok.mp h
  cases pure_eq_ok.mp h
  obtain ⟨-, rfl⟩ := Result.setIndex_eq_ok.mp hset
  rw [List.length_set, readExplicitSizes_length hfill]

theorem readSubStreamSizes_length {nid : UInt8} {blocks : List Block}
    {sizes sizes' : List UInt64} {next : Nat} {s s' : List UInt8}
    (h : readSubStreamSizes nid blocks sizes next s = .ok (sizes', s')) :
    sizes'.length = sizes.length := by
  induction blocks generalizing sizes next s with
  | nil =>
      cases pure_eq_ok.mp h
      rfl
  | cons block blocks ih =>
      unfold readSubStreamSizes at h
      split at h
      · exact ih h
      · obtain ⟨⟨sizes₁, next₁⟩, s₁, hsizes, h⟩ := bind_eq_ok.mp h
        rw [ih h, readBlockSizes_length hsizes]

structure DigestFill.Fits (fill : DigestFill) (n : Nat) : Prop where
  crcs : fill.crcs.length = n
  hasCrc : ∀ i, fill.hasCrc.contains i = true → i < n

theorem fillMissing_fits {missing : BitSet} {missingCrcs : List UInt64} {k n : Nat}
    {fill fill' : DigestFill} (h : fillMissing missing missingCrcs k fill = .ok fill')
    (hfill : fill.Fits n) : fill'.Fits n := by
  induction k generalizing fill with
  | zero =>
      cases h
      exact hfill
  | succ k ih =>
      obtain ⟨crc, -, h⟩ := Result.bind_eq_ok.mp h
      obtain ⟨crcs, hset, h⟩ := Result.bind_eq_ok.mp h
      obtain ⟨hlt, rfl⟩ := Result.setIndex_eq_ok.mp hset
      rw [hfill.crcs] at hlt
      refine ih h ⟨by rw [List.length_set, hfill.crcs], fun i hi => ?_⟩
      dsimp only at hi
      split at hi
      · rw [BitSet.contains_insert, Bool.or_eq_true] at hi
        rcases hi with hi | hi
        · rwa [of_decide_eq_true hi]
        · exact hfill.hasCrc i hi
      · rw [BitSet.contains_remove, Bool.and_eq_true] at hi
        exact hfill.hasCrc i hi.2

theorem fillDigests_fits {missing : BitSet} {missingCrcs : List UInt64} {blocks : List Block}
    {n : Nat} {fill fill' : DigestFill}
    (h : fillDigests missing missingCrcs blocks fill = .ok fill') (hfill : fill.Fits n) :
    fill'.Fits n := by
  induction blocks generalizing fill with
  | nil =>
      cases h
      exact hfill
  | cons block blocks ih =>
      unfold fillDigests at h
      split at h
      · obtain ⟨crcs, hset, h⟩ := Result.bind_eq_ok.mp h
        obtain ⟨hlt, rfl⟩ := Result.setIndex_eq_ok.mp hset
        rw [hfill.crcs] at hlt
        refine ih h ⟨by rw [List.length_set, hfill.crcs], fun i hi => ?_⟩
        rw [BitSet.contains_insert, Bool.or_eq_true] at hi
        rcases hi with hi | hi
        · rwa [of_decide_eq_true hi]
        · exact hfill.hasCrc i hi
      · obtain ⟨fill₁, hmissing, h⟩ := Result.bind_eq_ok.mp h
        exact ih h (fillMissing_fits hmissing hfill)

theorem readSubStreamDigests_covers {blocks : List Block} {numDigests n : Nat}
    {info info' : SubStreamsInfo} {nid nid' : UInt8} {s s' : List UInt8}
    (h : readSubStreamDigests blocks numDigests info nid s = .ok ((info', nid'), s'))
    (hinfo : info.Covers n) : info'.Covers n := by
  unfold readSubStreamDigests at h
  split at h
  · obtain ⟨missing, s₁, -, h⟩ := bind_eq_ok.mp h
    obtain ⟨crcs, s₂, -, h⟩ := bind_eq_ok.mp h
    obtain ⟨fill, hfill, h⟩ := lift_bind_eq_ok.mp h
    obtain ⟨nid₁, s₃, -, h⟩ := bind_eq_ok.mp h
    cases pure_eq_ok.mp h
    have hfits := fillDigests_fits hfill ⟨hinfo.crcs, hinfo.hasCrc⟩
    exact ⟨hinfo.unpackSizes, hfits.crcs, hfits.hasCrc⟩
  · cases pure_eq_ok.mp h
    exact hinfo

theorem readSubStreamsInfo_parsed {bounds : HeaderBounds} {archive archive' : Archive}
    {s s' : List UInt8} (h : readSubStreamsInfo bounds archive s = .ok (archive', s'))
    (hblocks : ∀ block ∈ archive.blocks, block.Parsed) :
    archive'.Parsed ∧ archive'.files = archive.files := by
  obtain ⟨counts, s₁, hcounts, h⟩ := bind_eq_ok.mp h
  obtain ⟨sizes, s₂, hsizes, h⟩ := bind_eq_ok.mp h
  obtain ⟨nid, s₃, -, h⟩ := bind_eq_ok.mp h
  obtain ⟨numDigests, -, h⟩ := lift_bind_eq_ok.mp h
  obtain ⟨⟨info, nid'⟩, s₄, hdigests, h⟩ := bind_eq_ok.mp h
  obtain ⟨_, -, h⟩ := lift_bind_eq_ok.mp h
  cases pure_eq_ok.mp h
  obtain ⟨htotal, hparsed⟩ := readSubStreamCounts_eq_ok hcounts
  refine ⟨⟨hparsed hblocks, fun info' hinfo' => ?_⟩, rfl⟩
  cases hinfo'
  refine readSubStreamDigests_covers hdigests ⟨?_, ?_, fun i hi => ?_⟩
  · rw [readSubStreamSizes_length hsizes, List.length_replicate, htotal]
  · rw [List.length_replicate, htotal]
  · rw [BitSet.reserveLenExact, BitSet.contains_grow, BitSet.contains_empty] at hi
    cases hi

theorem optionalSection_eq_ok {expected nid nid' : UInt8} {archive archive' : Archive}
    {read : Archive → HeaderReader Archive} {absent : Archive → Archive} {s s' : List UInt8}
    (h : optionalSection expected nid archive read absent s = .ok ((archive', nid'), s')) :
    (nid = expected ∧ ∃ t, read archive s = .ok (archive', t) ∧ readU8 t = .ok (nid', s')) ∨
      (nid ≠ expected ∧ archive' = absent archive ∧ nid' = nid ∧ s' = s) := by
  unfold optionalSection at h
  split at h
  · rename_i hnid
    obtain ⟨archive₁, t, hread, h⟩ := bind_eq_ok.mp h
    obtain ⟨nid₁, t', hnid₁, h⟩ := bind_eq_ok.mp h
    cases pure_eq_ok.mp h
    exact .inl ⟨hnid, t, hread, hnid₁⟩
  · rename_i hnid
    cases pure_eq_ok.mp h
    exact .inr ⟨hnid, rfl, rfl, rfl⟩

theorem readPackInfo_keeps {bounds : HeaderBounds} {archive archive' : Archive}
    {s s' : List UInt8} (h : readPackInfo bounds archive s = .ok (archive', s')) :
    archive'.blocks = archive.blocks ∧ archive'.subStreamsInfo = archive.subStreamsInfo ∧
      archive'.files = archive.files := by
  obtain ⟨packPos, s₁, -, h⟩ := bind_eq_ok.mp h
  obtain ⟨num, s₂, -, h⟩ := bind_eq_ok.mp h
  obtain ⟨numPackStreams, -, h⟩ := lift_bind_eq_ok.mp h
  obtain ⟨nid, s₃, -, h⟩ := bind_eq_ok.mp h
  obtain ⟨⟨sized, nid₁⟩, s₄, hsizes, h⟩ := bind_eq_ok.mp h
  obtain ⟨⟨digested, nid₂⟩, s₅, hcrcs, h⟩ := bind_eq_ok.mp h
  obtain ⟨_, -, h⟩ := lift_bind_eq_ok.mp h
  cases pure_eq_ok.mp h
  have hsized : sized.blocks = archive.blocks ∧
      sized.subStreamsInfo = archive.subStreamsInfo ∧ sized.files = archive.files := by
    unfold readPackSizes at hsizes
    split at hsizes
    · obtain ⟨sizes, t, -, hsizes⟩ := bind_eq_ok.mp hsizes
      obtain ⟨nid', t', -, hsizes⟩ := bind_eq_ok.mp hsizes
      cases pure_eq_ok.mp hsizes
      exact ⟨rfl, rfl, rfl⟩
    · cases pure_eq_ok.mp hsizes
      exact ⟨rfl, rfl, rfl⟩
  rw [← hsized.1, ← hsized.2.1, ← hsized.2.2]
  unfold readPackCrcs at hcrcs
  split at hcrcs
  · obtain ⟨defined, t, -, hcrcs⟩ := bind_eq_ok.mp hcrcs
    obtain ⟨crcs, t', -, hcrcs⟩ := bind_eq_ok.mp hcrcs
    obtain ⟨nid', t'', -, hcrcs⟩ := bind_eq_ok.mp hcrcs
    cases pure_eq_ok.mp hcrcs
    exact ⟨rfl, rfl, rfl⟩
  · cases pure_eq_ok.mp hcrcs
    exact ⟨rfl, rfl, rfl⟩

theorem readStreamsInfo_parsed {bounds : HeaderBounds} {archive : Archive} {s s' : List UInt8}
    (h : readStreamsInfo bounds {} s = .ok (archive, s')) :
    archive.Parsed ∧ archive.files = [] := by
  obtain ⟨nid, s₁, -, h⟩ := bind_eq_ok.mp h
  obtain ⟨⟨packed, nid₁⟩, s₂, hpack, h⟩ := bind_eq_ok.mp h
  obtain ⟨⟨unpacked, nid₂⟩, s₃, hunpack, h⟩ := bind_eq_ok.mp h
  obtain ⟨⟨subs, nid₃⟩, s₄, hsubs, h⟩ := bind_eq_ok.mp h
  obtain ⟨_, -, h⟩ := lift_bind_eq_ok.mp h
  cases pure_eq_ok.mp h
  have hpacked : packed.blocks = [] ∧ packed.subStreamsInfo = none ∧ packed.files = [] := by
    rcases optionalSection_eq_ok hpack with ⟨-, t, hread, -⟩ | ⟨-, rfl, -, -⟩
    · exact readPackInfo_keeps hread
    · exact ⟨rfl, rfl, rfl⟩
  have hunpacked : unpacked.Parsed ∧ unpacked.files = [] := by
    rcases optionalSection_eq_ok hunpack with ⟨-, t, hread, -⟩ | ⟨-, rfl, -, -⟩
    · have := readUnpackInfo_parsed hread hpacked.1 hpacked.2.1
      rwa [hpacked.2.2] at this
    · refine ⟨⟨by simp, fun info hinfo => ?_⟩, hpacked.2.2⟩
      rw [show packed.subStreamsInfo = some info from hinfo] at hpacked
      cases hpacked.2.1
  rcases optionalSection_eq_ok hsubs with ⟨-, t, hread, -⟩ | ⟨-, rfl, -, -⟩
  · have := readSubStreamsInfo_parsed hread hunpacked.1.blocks
    rwa [hunpacked.2] at this
  · exact hunpacked

end Sevenz
