import Sevenz.Header.Accepted

/-!
# Resource bounds

What the counts of a header that was parsed are bounded by.
-/

namespace Sevenz

open Lib Lib.Parser

namespace HeaderBounds

def Allows (bounds : HeaderBounds) (what : Limit) (n : Nat) : Prop :=
  n ≤ bounds.bytes ∧ n ≤ bounds.cap what

variable {bounds : HeaderBounds} {what : Limit} {value n : Nat}

theorem allows_zero : bounds.Allows what 0 := ⟨Nat.zero_le _, Nat.zero_le _⟩

theorem Allows.mono {m : Nat} (h : bounds.Allows what n) (hm : m ≤ n) : bounds.Allows what m :=
  ⟨hm.trans h.1, hm.trans h.2⟩

theorem allows_of_count (h : bounds.count value what = .ok n) : bounds.Allows what n := by
  obtain ⟨rfl, hbytes, hcap⟩ := count_eq_ok.mp h
  exact ⟨hbytes, hcap⟩

end HeaderBounds

structure Block.Within (bounds : HeaderBounds) (block : Block) : Prop where
  coders : bounds.Allows .codersPerBlock block.coders.length
  streams : ∀ coder ∈ block.coders,
    coder.numInStreams ≤ bounds.limits.maxStreamsPerCoder.toNat ∧
      coder.numOutStreams ≤ bounds.limits.maxStreamsPerCoder.toNat
  totalIn : bounds.Allows .entries block.totalInputStreams
  totalOut : bounds.Allows .entries block.totalOutputStreams

theorem Block.Within.congr {bounds : HeaderBounds} {b b' : Block} (h : b.Within bounds)
    (hsame : b.SameGraph b') : b'.Within bounds := by
  rw [hsame]
  exact ⟨h.coders, h.streams, h.totalIn, h.totalOut⟩

structure BlocksWithin (bounds : HeaderBounds) (blocks : List Block) : Prop where
  count : bounds.Allows .entries blocks.length
  each : ∀ block ∈ blocks, block.Within bounds

def countCoders (blocks : List Block) : Nat := (blocks.map fun block => block.coders.length).sum

theorem BlocksWithin.congr {bounds : HeaderBounds} {blocks blocks' : List Block}
    (h : BlocksWithin bounds blocks) (hsame : List.Forall₂ Block.SameGraph blocks blocks') :
    BlocksWithin bounds blocks' := by
  constructor
  · rw [← hsame.length_eq]
    exact h.count
  · intro b' hb'
    obtain ⟨i, hi, rfl⟩ := List.getElem_of_mem hb'
    have hi' : i < blocks.length := hsame.length_eq ▸ hi
    exact (h.each _ (List.getElem_mem hi')).congr (hsame.get hi' hi)

theorem countCoders_congr {blocks blocks' : List Block}
    (hsame : List.Forall₂ Block.SameGraph blocks blocks') :
    countCoders blocks' = countCoders blocks := by
  induction hsame with
  | nil => rfl
  | cons hblock _ ih =>
      rw [countCoders, List.map_cons, List.sum_cons, ← countCoders, ih, hblock, countCoders,
        countCoders, List.map_cons, List.sum_cons]

theorem consumes_readCoder (bounds : HeaderBounds) (totals : StreamTotals) :
    Consumes (readCoder bounds totals) 1 := by
  have hcounts (isSimple : Bool) : Consumes (readStreamCounts isSimple) 0 := by
    unfold readStreamCounts
    have hnum : Consumes readNumber 0 := consumes_readNumber.mono (Nat.zero_le 1)
    split
    · exact Consumes.pure _
    · exact hnum.bind fun numIn => hnum.bind fun numOut => Consumes.pure (numIn, numOut)
  have hproperties (hasAttributes : Bool) : Consumes (readProperties bounds hasAttributes) 0 := by
    unfold readProperties
    have hnum : Consumes readNumber 0 := consumes_readNumber.mono (Nat.zero_le 1)
    split
    · exact hnum.bind fun size => (Consumes.lift _).bind fun propertiesSize =>
        (Consumes.bytes _ propertiesSize).mono (Nat.zero_le _)
    · exact Consumes.pure _
  have hexact (n : Nat) : Consumes (readExact n) 0 := (Consumes.bytes _ n).mono (Nat.zero_le n)
  intro s coder s' h
  obtain ⟨bits, s₁, hbits, h⟩ := bind_eq_ok.mp h
  obtain ⟨id, s₂, hid, h⟩ := bind_eq_ok.mp h
  obtain ⟨⟨numIn, numOut⟩, s₃, hnums, h⟩ := bind_eq_ok.mp h
  obtain ⟨totalIn, -, h⟩ := lift_bind_eq_ok.mp h
  obtain ⟨totalOut, -, h⟩ := lift_bind_eq_ok.mp h
  obtain ⟨_, -, h⟩ := lift_bind_eq_ok.mp h
  obtain ⟨_, -, h⟩ := lift_bind_eq_ok.mp h
  obtain ⟨_, -, h⟩ := lift_bind_eq_ok.mp h
  obtain ⟨properties, s₄, hprops, h⟩ := bind_eq_ok.mp h
  obtain ⟨_, -, h⟩ := lift_bind_eq_ok.mp h
  cases pure_eq_ok.mp h
  have h₁ := consumes_readU8 s bits s₁ hbits
  have h₂ := hexact _ s₁ id s₂ hid
  have h₃ := hcounts _ s₂ _ s₃ hnums
  have h₄ := hproperties _ s₃ properties s' hprops
  omega

section Blocks

variable {bounds : HeaderBounds} {s s' : List UInt8}

theorem readCoder_within {totals totals' : StreamTotals} {coder : Coder}
    (h : readCoder bounds totals s = .ok ((coder, totals'), s')) :
    coder.numInStreams ≤ bounds.limits.maxStreamsPerCoder.toNat ∧
      coder.numOutStreams ≤ bounds.limits.maxStreamsPerCoder.toNat ∧
      bounds.Allows .entries totals'.totalIn ∧ bounds.Allows .entries totals'.totalOut := by
  obtain ⟨bits, s₁, -, h⟩ := bind_eq_ok.mp h
  obtain ⟨id, s₂, -, h⟩ := bind_eq_ok.mp h
  obtain ⟨⟨numIn, numOut⟩, s₃, -, h⟩ := bind_eq_ok.mp h
  obtain ⟨totalIn, -, h⟩ := lift_bind_eq_ok.mp h
  obtain ⟨totalOut, -, h⟩ := lift_bind_eq_ok.mp h
  obtain ⟨_, hcap, h⟩ := lift_bind_eq_ok.mp h
  obtain ⟨countIn, hin, h⟩ := lift_bind_eq_ok.mp h
  obtain ⟨countOut, hout, h⟩ := lift_bind_eq_ok.mp h
  obtain ⟨properties, s₄, -, h⟩ := bind_eq_ok.mp h
  obtain ⟨_, -, h⟩ := lift_bind_eq_ok.mp h
  cases pure_eq_ok.mp h
  obtain ⟨hnumIn, hnumOut⟩ := not_or.mp (Result.rejectIf_eq_ok.mp hcap)
  have hallIn := HeaderBounds.allows_of_count hin
  have hallOut := HeaderBounds.allows_of_count hout
  rw [(HeaderBounds.count_eq_ok.mp hin).1] at hallIn
  rw [(HeaderBounds.count_eq_ok.mp hout).1] at hallOut
  exact ⟨Nat.le_of_not_lt hnumIn, Nat.le_of_not_lt hnumOut, hallIn, hallOut⟩

theorem readCoders_within {n : Nat} {totals totals' : StreamTotals} {coders : List Coder}
    (h : readCoders bounds n totals s = .ok ((coders, totals'), s'))
    (hin : bounds.Allows .entries totals.totalIn) (hout : bounds.Allows .entries totals.totalOut) :
    coders.length = n ∧ s'.length + n ≤ s.length ∧
      (∀ coder ∈ coders, coder.numInStreams ≤ bounds.limits.maxStreamsPerCoder.toNat ∧
        coder.numOutStreams ≤ bounds.limits.maxStreamsPerCoder.toNat) ∧
      bounds.Allows .entries totals'.totalIn ∧ bounds.Allows .entries totals'.totalOut := by
  induction n generalizing totals coders s with
  | zero =>
      cases pure_eq_ok.mp h
      exact ⟨rfl, Nat.le_refl _, nofun, hin, hout⟩
  | succ n ih =>
      obtain ⟨⟨coder, totals₁⟩, s₁, hcoder, h⟩ := bind_eq_ok.mp h
      obtain ⟨⟨coders₁, totals₂⟩, s₂, hcoders, h⟩ := bind_eq_ok.mp h
      cases pure_eq_ok.mp h
      obtain ⟨hnumIn, hnumOut, hin₁, hout₁⟩ := readCoder_within hcoder
      obtain ⟨hlength, htaken, hall, hin₂, hout₂⟩ := ih hcoders hin₁ hout₁
      have hone := consumes_readCoder bounds totals s _ s₁ hcoder
      refine ⟨by rw [List.length_cons, hlength], by omega, fun c hc => ?_, hin₂, hout₂⟩
      cases List.mem_cons.mp hc with
      | inl heq => rw [heq]; exact ⟨hnumIn, hnumOut⟩
      | inr hc => exact hall c hc

theorem readBlock_within {block : Block} (h : readBlock bounds s = .ok (block, s')) :
    block.Within bounds ∧ s'.length + block.coders.length ≤ s.length ∧
      block.numUnpackSubStreams = 0 := by
  obtain ⟨num, s₁, hnum, h⟩ := bind_eq_ok.mp h
  obtain ⟨numCoders, hcount, h⟩ := lift_bind_eq_ok.mp h
  obtain ⟨⟨coders, totals⟩, s₂, hcoders, h⟩ := bind_eq_ok.mp h
  obtain ⟨_, -, h⟩ := lift_bind_eq_ok.mp h
  obtain ⟨bindPairs, s₃, hpairs, h⟩ := bind_eq_ok.mp h
  obtain ⟨_, -, h⟩ := lift_bind_eq_ok.mp h
  obtain ⟨packedStreams, s₄, hpacked, h⟩ := bind_eq_ok.mp h
  obtain ⟨_, -, h⟩ := lift_bind_eq_ok.mp h
  cases pure_eq_ok.mp h
  obtain ⟨hlength, htaken, hstreams, hin, hout⟩ :=
    readCoders_within hcoders HeaderBounds.allows_zero HeaderBounds.allows_zero
  have hnumber : Consumes readNumber 0 := consumes_readNumber.mono (Nat.zero_le 1)
  have hpair : Consumes (readBindPair totals) 0 :=
    hnumber.bind fun _ => hnumber.bind fun _ => (Consumes.lift _).bind fun _ => Consumes.pure _
  have hstored : Consumes (readPackedStreams
      { coders, bindPairs, totalInputStreams := totals.totalIn,
        totalOutputStreams := totals.totalOut } totals.totalIn
      (totals.totalIn - (totals.totalOut - 1))) 0 := by
    unfold readPackedStreams
    split
    · exact (Consumes.lift _).bind fun index => Consumes.pure [index]
    · exact Consumes.many hnumber _
  have h₁ := hnumber s num s₁ hnum
  have h₃ := Consumes.many hpair _ s₂ bindPairs s₃ hpairs
  have h₄ := hstored s₃ packedStreams s' hpacked
  refine ⟨⟨?_, hstreams, hin, hout⟩, ?_, rfl⟩
  · rw [hlength]
    exact HeaderBounds.allows_of_count hcount
  · rw [hlength]
    omega

theorem readBlocks_within {n totalCoders : Nat} {blocks : List Block}
    (h : readBlocks bounds n totalCoders s = .ok (blocks, s')) :
    blocks.length = n ∧
      ∀ block ∈ blocks, block.Within bounds ∧ block.numUnpackSubStreams = 0 := by
  induction n generalizing totalCoders blocks s with
  | zero =>
      cases pure_eq_ok.mp h
      exact ⟨rfl, nofun⟩
  | succ n ih =>
      obtain ⟨block, s₁, hblock, h⟩ := bind_eq_ok.mp h
      obtain ⟨_, -, h⟩ := lift_bind_eq_ok.mp h
      obtain ⟨blocks₁, s₂, hblocks, h⟩ := bind_eq_ok.mp h
      cases pure_eq_ok.mp h
      obtain ⟨hwithin, -, hnone⟩ := readBlock_within hblock
      obtain ⟨hlength, hall⟩ := ih hblocks
      refine ⟨by rw [List.length_cons, hlength], fun b hb => ?_⟩
      cases List.mem_cons.mp hb with
      | inl heq => rw [heq]; exact ⟨hwithin, hnone⟩
      | inr hb => exact hall b hb

theorem readBlocks_countCoders {n totalCoders : Nat} {blocks : List Block}
    (h : readBlocks bounds n totalCoders s = .ok (blocks, s'))
    (hcoders : totalCoders ≤ bounds.limits.maxTotalCoders.toNat)
    (hlen : totalCoders + s.length < 2 ^ 64) :
    totalCoders + countCoders blocks ≤ bounds.limits.maxTotalCoders.toNat := by
  induction n generalizing totalCoders blocks s with
  | zero =>
      cases pure_eq_ok.mp h
      exact hcoders
  | succ n ih =>
      obtain ⟨block, s₁, hblock, h⟩ := bind_eq_ok.mp h
      obtain ⟨_, hcap, h⟩ := lift_bind_eq_ok.mp h
      obtain ⟨blocks₁, s₂, hblocks, h⟩ := bind_eq_ok.mp h
      cases pure_eq_ok.mp h
      have htaken := (readBlock_within hblock).2.1
      have hcap := Nat.le_of_not_lt (Result.rejectIf_eq_ok.mp hcap)
      rw [Nat.min_eq_left (by omega)] at hcap hblocks
      rw [countCoders, List.map_cons, List.sum_cons, ← Nat.add_assoc]
      exact ih hblocks hcap (by omega)

end Blocks

def Block.KeepsGraph (b b' : Block) : Prop :=
  b.SameGraph b' ∧ b'.numUnpackSubStreams = b.numUnpackSubStreams

theorem readUnpackSizes_keepsGraph {blocks blocks' : List Block} {s s' : List UInt8}
    (h : readUnpackSizes blocks s = .ok (blocks', s')) :
    List.Forall₂ Block.KeepsGraph blocks blocks' := by
  refine (mapM_forall₂ h).imp fun b b' hread => ?_
  obtain ⟨t, t', hread⟩ := hread
  obtain ⟨sizes, t₁, -, hread⟩ := bind_eq_ok.mp hread
  cases pure_eq_ok.mp hread
  exact ⟨rfl, rfl⟩

theorem readBlockCrcs_keepsGraph {numBlocks : Nat} {blocks blocks' : List Block}
    {nid nid' : UInt8} {s s' : List UInt8}
    (h : readBlockCrcs numBlocks blocks nid s = .ok ((blocks', nid'), s')) :
    List.Forall₂ Block.KeepsGraph blocks blocks' := by
  unfold readBlockCrcs at h
  split at h
  · obtain ⟨crcsDefined, s₁, -, h⟩ := bind_eq_ok.mp h
    obtain ⟨blocks₁, s₂, hcrcs, h⟩ := bind_eq_ok.mp h
    obtain ⟨nid₁, s₃, -, h⟩ := bind_eq_ok.mp h
    cases pure_eq_ok.mp h
    have hzip : List.Forall₂ (fun (b : Block × Nat) b' => b.1.KeepsGraph b') blocks.zipIdx
        blocks' := by
      refine (mapM_forall₂ hcrcs).imp fun b b' hread => ?_
      obtain ⟨t, t', hread⟩ := hread
      unfold readBlockCrc at hread
      split at hread
      · cases pure_eq_ok.mp hread
        exact ⟨rfl, rfl⟩
      · split at hread
        · obtain ⟨crc, t₁, -, hread⟩ := bind_eq_ok.mp hread
          cases pure_eq_ok.mp hread
          exact ⟨rfl, rfl⟩
        · cases pure_eq_ok.mp hread
          exact ⟨rfl, rfl⟩
    have hmap := List.forall₂_map_left_iff.mpr hzip
    rwa [List.zipIdx_map_fst] at hmap
  · cases pure_eq_ok.mp h
    exact List.forall₂_same.mpr fun b _ => ⟨rfl, rfl⟩

structure BlocksRead (bounds : HeaderBounds) (blocks : List Block) : Prop where
  within : BlocksWithin bounds blocks
  bare : countSubStreams blocks = 0

theorem blocksRead_nil (bounds : HeaderBounds) : BlocksRead bounds [] :=
  ⟨⟨HeaderBounds.allows_zero, nofun⟩, rfl⟩

theorem BlocksRead.congr {bounds : HeaderBounds} {blocks blocks' : List Block}
    (h : BlocksRead bounds blocks) (hsame : List.Forall₂ Block.KeepsGraph blocks blocks') :
    BlocksRead bounds blocks' := by
  refine ⟨h.within.congr (hsame.imp fun _ _ => And.left), ?_⟩
  have hcounts : blocks.map Block.numUnpackSubStreams = blocks'.map Block.numUnpackSubStreams :=
    List.forall₂_eq_eq_eq ▸ List.forall₂_map_left_iff.mpr
      (List.forall₂_map_right_iff.mpr (hsame.imp fun _ _ hkeeps => hkeeps.2.symm))
  rw [countSubStreams, ← hcounts]
  exact h.bare

theorem readUnpackInfo_blocksRead {bounds : HeaderBounds} {archive archive' : Archive}
    {s s' : List UInt8} (h : readUnpackInfo bounds archive s = .ok (archive', s'))
    (hblocks : archive.blocks = []) :
    BlocksRead bounds archive'.blocks ∧ archive' = { archive with blocks := archive'.blocks } ∧
      (s.length < 2 ^ 64 →
        countCoders archive'.blocks ≤ bounds.limits.maxTotalCoders.toNat) := by
  obtain ⟨nid, s₁, hnid, h⟩ := bind_eq_ok.mp h
  obtain ⟨_, -, h⟩ := lift_bind_eq_ok.mp h
  obtain ⟨num, s₂, hnum, h⟩ := bind_eq_ok.mp h
  obtain ⟨numBlocks, hcount, h⟩ := lift_bind_eq_ok.mp h
  obtain ⟨external, s₃, hexternal, h⟩ := bind_eq_ok.mp h
  obtain ⟨_, -, h⟩ := lift_bind_eq_ok.mp h
  obtain ⟨blocks, s₄, hread, h⟩ := bind_eq_ok.mp h
  obtain ⟨nid', s₅, -, h⟩ := bind_eq_ok.mp h
  obtain ⟨_, -, h⟩ := lift_bind_eq_ok.mp h
  obtain ⟨sized, s₆, hsizes, h⟩ := bind_eq_ok.mp h
  obtain ⟨nid'', s₇, -, h⟩ := bind_eq_ok.mp h
  obtain ⟨⟨digested, nid₃⟩, s₈, hcrcs, h⟩ := bind_eq_ok.mp h
  obtain ⟨_, -, h⟩ := lift_bind_eq_ok.mp h
  cases pure_eq_ok.mp h
  rw [hblocks, List.nil_append] at hsizes
  obtain ⟨hlength, hall⟩ := readBlocks_within hread
  have hfresh : BlocksRead bounds blocks := by
    refine ⟨⟨?_, fun block hblock => (hall block hblock).1⟩, ?_⟩
    · rw [hlength]
      exact HeaderBounds.allows_of_count hcount
    · refine List.sum_eq_zero fun n hn => ?_
      obtain ⟨block, hblock, rfl⟩ := List.mem_map.mp hn
      exact (hall block hblock).2
  have hsized := readUnpackSizes_keepsGraph hsizes
  have hdigested := readBlockCrcs_keepsGraph hcrcs
  refine ⟨(hfresh.congr hsized).congr hdigested, rfl, fun hlen => ?_⟩
  have h₁ := consumes_readU8 s nid s₁ hnid
  have h₂ := consumes_readNumber s₁ num s₂ hnum
  have h₃ := consumes_readU8 s₂ external s₃ hexternal
  have htotal := readBlocks_countCoders hread (Nat.zero_le _) (by omega)
  rw [Nat.zero_add, ← countCoders_congr (hsized.imp fun _ _ => And.left),
    ← countCoders_congr (hdigested.imp fun _ _ => And.left)] at htotal
  exact htotal

theorem readNumUnpackStreams_allows {bounds : HeaderBounds} {blocks blocks' : List Block}
    {total total' : Nat} {s s' : List UInt8}
    (h : readNumUnpackStreams bounds blocks total s = .ok ((blocks', total'), s'))
    (htotal : bounds.Allows .entries total) :
    bounds.Allows .entries total' ∧ List.Forall₂ Block.SameGraph blocks blocks' := by
  induction blocks generalizing total s blocks' with
  | nil =>
      cases pure_eq_ok.mp h
      exact ⟨htotal, .nil⟩
  | cons block blocks ih =>
      obtain ⟨num, s₁, -, h⟩ := bind_eq_ok.mp h
      obtain ⟨numStreams, -, h⟩ := lift_bind_eq_ok.mp h
      obtain ⟨total₁, hadd, h⟩ := lift_bind_eq_ok.mp h
      obtain ⟨⟨blocks₁, total₂⟩, s₂, hrest, h⟩ := bind_eq_ok.mp h
      cases pure_eq_ok.mp h
      obtain ⟨-, -, hbytes, hcap⟩ := HeaderBounds.addCount_eq_ok.mp hadd
      obtain ⟨hallows, hsame⟩ := ih hrest ⟨hbytes, hcap⟩
      exact ⟨hallows, .cons rfl hsame⟩

theorem readSubStreamCounts_allows {bounds : HeaderBounds} {blocks : List Block}
    {counts : SubStreamCounts} {s s' : List UInt8}
    (h : readSubStreamCounts bounds blocks s = .ok (counts, s'))
    (hblocks : bounds.Allows .entries blocks.length) :
    bounds.Allows .entries counts.totalUnpackStreams ∧
      List.Forall₂ Block.SameGraph blocks counts.blocks := by
  have hone : List.Forall₂ Block.SameGraph blocks
      (blocks.map fun block => { block with numUnpackSubStreams := 1 }) :=
    List.forall₂_map_right_iff.mpr (List.forall₂_same.mpr fun b _ => rfl)
  obtain ⟨nid, s₁, -, h⟩ := bind_eq_ok.mp h
  split at h
  · obtain ⟨⟨blocks', total⟩, s₂, hcounts, h⟩ := bind_eq_ok.mp h
    obtain ⟨nid', s₃, -, h⟩ := bind_eq_ok.mp h
    cases pure_eq_ok.mp h
    obtain ⟨hallows, hsame⟩ := readNumUnpackStreams_allows hcounts HeaderBounds.allows_zero
    refine ⟨hallows, (List.forall₂_map_left_iff.mp hsame).imp fun b b' hb => ?_⟩
    have hcounted : b.SameGraph { b with numUnpackSubStreams := 1 } := rfl
    exact hcounted.trans hb
  · cases pure_eq_ok.mp h
    refine ⟨?_, hone⟩
    dsimp only
    rw [List.length_map]
    exact hblocks

structure Archive.StreamsWithin (bounds : HeaderBounds) (archive : Archive) : Prop where
  packSizes : bounds.Allows .entries archive.packSizes.length
  packCrcs : bounds.Allows .entries archive.packCrcs.length
  blocks : BlocksWithin bounds archive.blocks
  subStreams : bounds.Allows .entries (countSubStreams archive.blocks)

theorem streamsWithin_empty (bounds : HeaderBounds) : Archive.StreamsWithin bounds {} :=
  ⟨HeaderBounds.allows_zero, HeaderBounds.allows_zero, (blocksRead_nil bounds).within,
    HeaderBounds.allows_zero⟩

theorem readPackInfo_allows {bounds : HeaderBounds} {archive archive' : Archive}
    {s s' : List UInt8} (h : readPackInfo bounds archive s = .ok (archive', s'))
    (hsizes : archive.packSizes = []) (hcrcs : archive.packCrcs = []) :
    bounds.Allows .entries archive'.packSizes.length ∧
      bounds.Allows .entries archive'.packCrcs.length := by
  obtain ⟨packPos, s₁, -, h⟩ := bind_eq_ok.mp h
  obtain ⟨num, s₂, -, h⟩ := bind_eq_ok.mp h
  obtain ⟨numPackStreams, hcount, h⟩ := lift_bind_eq_ok.mp h
  obtain ⟨nid, s₃, -, h⟩ := bind_eq_ok.mp h
  obtain ⟨⟨sized, nid₁⟩, s₄, hsized, h⟩ := bind_eq_ok.mp h
  obtain ⟨⟨digested, nid₂⟩, s₅, hdigested, h⟩ := bind_eq_ok.mp h
  obtain ⟨_, -, h⟩ := lift_bind_eq_ok.mp h
  cases pure_eq_ok.mp h
  have hallows := HeaderBounds.allows_of_count hcount
  have hbare : sized.packSizes.length ≤ numPackStreams ∧ sized.packCrcs = [] := by
    unfold readPackSizes at hsized
    split at hsized
    · obtain ⟨sizes, t, hmany, hsized⟩ := bind_eq_ok.mp hsized
      obtain ⟨nid', t', -, hsized⟩ := bind_eq_ok.mp hsized
      cases pure_eq_ok.mp hsized
      exact ⟨Nat.le_of_eq (many_length hmany), hcrcs⟩
    · cases pure_eq_ok.mp hsized
      refine ⟨?_, hcrcs⟩
      dsimp only
      rw [hsizes]
      exact Nat.zero_le _
  unfold readPackCrcs at hdigested
  split at hdigested
  · obtain ⟨defined, t, -, hdigested⟩ := bind_eq_ok.mp hdigested
    obtain ⟨crcs, t', hread, hdigested⟩ := bind_eq_ok.mp hdigested
    obtain ⟨nid', t'', -, hdigested⟩ := bind_eq_ok.mp hdigested
    cases pure_eq_ok.mp hdigested
    refine ⟨hallows.mono hbare.1, ?_⟩
    have hlength := (mapM_forall₂ hread).length_eq
    rw [List.length_range] at hlength
    rw [← hlength]
    exact hallows
  · cases pure_eq_ok.mp hdigested
    refine ⟨hallows.mono hbare.1, ?_⟩
    rw [hbare.2]
    exact HeaderBounds.allows_zero

theorem consumes_readPackInfo (bounds : HeaderBounds) (archive : Archive) :
    Consumes (readPackInfo bounds archive) 0 := by
  have hbyte : Consumes readU8 0 := consumes_readU8.mono (Nat.zero_le 1)
  have hu64 : Consumes readVariableU64 0 := consumes_readVariableU64.mono (Nat.zero_le 1)
  intro s archive' s' h
  obtain ⟨packPos, s₁, hpos, h⟩ := bind_eq_ok.mp h
  obtain ⟨num, s₂, hnum, h⟩ := bind_eq_ok.mp h
  obtain ⟨numPackStreams, -, h⟩ := lift_bind_eq_ok.mp h
  obtain ⟨nid, s₃, hnid, h⟩ := bind_eq_ok.mp h
  obtain ⟨⟨sized, nid₁⟩, s₄, hsized, h⟩ := bind_eq_ok.mp h
  obtain ⟨⟨digested, nid₂⟩, s₅, hdigested, h⟩ := bind_eq_ok.mp h
  obtain ⟨_, -, h⟩ := lift_bind_eq_ok.mp h
  cases pure_eq_ok.mp h
  have hsizes : Consumes (readPackSizes numPackStreams { archive with packPos } nid) 0 := by
    unfold readPackSizes
    split
    · exact (Consumes.many hu64 _).bind fun sizes => hbyte.bind fun nid => Consumes.pure _
    · exact Consumes.pure _
  have hall : Consumes (readAllOrBits numPackStreams) 0 := by
    refine hbyte.bind (k := 0) fun all => ?_
    split
    · exact Consumes.pure _
    · exact (consumes_readBits numPackStreams).mono (Nat.zero_le _)
  have hcrcs : Consumes (readPackCrcs numPackStreams sized nid₁) 0 := by
    unfold readPackCrcs
    split
    · exact hall.bind fun defined =>
        ((consumes_readDigests numPackStreams defined).mono (Nat.zero_le _)).bind fun crcs =>
          hbyte.bind fun nid => Consumes.pure _
    · exact Consumes.pure _
  have h₁ := hu64 s packPos s₁ hpos
  have h₂ := consumes_readNumber s₁ num s₂ hnum
  have h₃ := hbyte s₂ nid s₃ hnid
  have h₄ := hsizes s₃ (sized, nid₁) s₄ hsized
  have h₅ := hcrcs s₄ (archive', nid₂) s' hdigested
  omega

theorem readSubStreamsInfo_within {bounds : HeaderBounds} {archive archive' : Archive}
    {s s' : List UInt8} (h : readSubStreamsInfo bounds archive s = .ok (archive', s'))
    (hblocks : BlocksWithin bounds archive.blocks) :
    BlocksWithin bounds archive'.blocks ∧
      bounds.Allows .entries (countSubStreams archive'.blocks) ∧
      archive'.packSizes = archive.packSizes ∧ archive'.packCrcs = archive.packCrcs ∧
      countCoders archive'.blocks = countCoders archive.blocks := by
  obtain ⟨counts, s₁, hcounts, h⟩ := bind_eq_ok.mp h
  obtain ⟨sizes, s₂, -, h⟩ := bind_eq_ok.mp h
  obtain ⟨nid, s₃, -, h⟩ := bind_eq_ok.mp h
  obtain ⟨numDigests, -, h⟩ := lift_bind_eq_ok.mp h
  obtain ⟨⟨info, nid'⟩, s₄, -, h⟩ := bind_eq_ok.mp h
  obtain ⟨_, -, h⟩ := lift_bind_eq_ok.mp h
  cases pure_eq_ok.mp h
  obtain ⟨hallows, hsame⟩ := readSubStreamCounts_allows hcounts hblocks.count
  rw [(readSubStreamCounts_eq_ok hcounts).1] at hallows
  exact ⟨hblocks.congr hsame, hallows, rfl, rfl, countCoders_congr hsame⟩

theorem readStreamsInfo_within {bounds : HeaderBounds} {archive : Archive} {s s' : List UInt8}
    (h : readStreamsInfo bounds {} s = .ok (archive, s')) :
    archive.StreamsWithin bounds ∧ (s.length < 2 ^ 64 →
      countCoders archive.blocks ≤ bounds.limits.maxTotalCoders.toNat) := by
  obtain ⟨nid, s₁, hnid, h⟩ := bind_eq_ok.mp h
  obtain ⟨⟨packed, nid₁⟩, s₂, hpack, h⟩ := bind_eq_ok.mp h
  obtain ⟨⟨unpacked, nid₂⟩, s₃, hunpack, h⟩ := bind_eq_ok.mp h
  obtain ⟨⟨subs, nid₃⟩, s₄, hsubs, h⟩ := bind_eq_ok.mp h
  obtain ⟨_, -, h⟩ := lift_bind_eq_ok.mp h
  cases pure_eq_ok.mp h
  have h₁ := consumes_readU8 s nid s₁ hnid
  have hpacked : packed.blocks = [] ∧ bounds.Allows .entries packed.packSizes.length ∧
      bounds.Allows .entries packed.packCrcs.length ∧ s₂.length ≤ s₁.length := by
    cases optionalSection_eq_ok hpack with
    | inl hread =>
        obtain ⟨-, t, hread, hnext⟩ := hread
        obtain ⟨hsizes, hcrcs⟩ := readPackInfo_allows hread rfl rfl
        have h₂ := consumes_readPackInfo bounds _ s₁ packed t hread
        have h₃ := consumes_readU8 t nid₁ s₂ hnext
        exact ⟨(readPackInfo_keeps hread).1, hsizes, hcrcs, by omega⟩
    | inr hskip =>
        obtain ⟨-, rfl, -, rfl⟩ := hskip
        exact ⟨rfl, HeaderBounds.allows_zero, HeaderBounds.allows_zero, Nat.le_refl _⟩
  obtain ⟨hnone, hsizes, hcrcs, hshort⟩ := hpacked
  have hunpacked : BlocksRead bounds unpacked.blocks ∧
      unpacked.packSizes = packed.packSizes ∧ unpacked.packCrcs = packed.packCrcs ∧
      (s.length < 2 ^ 64 →
        countCoders unpacked.blocks ≤ bounds.limits.maxTotalCoders.toNat) := by
    cases optionalSection_eq_ok hunpack with
    | inl hread =>
        obtain ⟨-, t, hread, -⟩ := hread
        obtain ⟨hblocks, hsame, htotal⟩ := readUnpackInfo_blocksRead hread hnone
        refine ⟨hblocks, ?_, ?_, fun hlen => htotal (by omega)⟩
        · rw [hsame]
        · rw [hsame]
    | inr hskip =>
        obtain ⟨-, rfl, -, -⟩ := hskip
        exact ⟨blocksRead_nil bounds, rfl, rfl, fun _ => Nat.zero_le _⟩
  obtain ⟨hblocks, hsizesSame, hcrcsSame, htotal⟩ := hunpacked
  rw [← hsizesSame] at hsizes
  rw [← hcrcsSame] at hcrcs
  have hzero : bounds.Allows .entries (countSubStreams unpacked.blocks) := by
    rw [hblocks.bare]
    exact HeaderBounds.allows_zero
  cases optionalSection_eq_ok hsubs with
  | inl hread =>
      obtain ⟨-, t, hread, -⟩ := hread
      obtain ⟨hwithin, hsubStreams, hsizesKept, hcrcsKept, hcodersKept⟩ :=
        readSubStreamsInfo_within hread hblocks.within
      rw [← hsizesKept] at hsizes
      rw [← hcrcsKept] at hcrcs
      rw [← hcodersKept] at htotal
      exact ⟨⟨hsizes, hcrcs, hwithin, hsubStreams⟩, htotal⟩
  | inr hskip =>
      obtain ⟨-, rfl, -, -⟩ := hskip
      exact ⟨⟨hsizes, hcrcs, hblocks.within, hzero⟩, htotal⟩

def ArchiveEntry.nameBytes (file : ArchiveEntry) : Nat := 2 * (encodeUtf16 file.name).length

def NamesRead (bounds : HeaderBounds) (files : List ArchiveEntry) : Prop :=
  ∀ file ∈ files, file.nameBytes ≤ bounds.limits.maxNameBytes.toNat + 1

theorem readNameUnits_length {maxNameBytes n rest : Nat} {cache units : List UInt16}
    {s s' : List UInt8} (h : readNameUnits maxNameBytes n cache s = .ok ((units, rest), s'))
    (hcache : 2 * cache.length ≤ maxNameBytes + 1) : 2 * units.length ≤ maxNameBytes + 1 := by
  induction n generalizing cache s with
  | zero =>
      cases pure_eq_ok.mp h
      exact hcache
  | succ n ih =>
      obtain ⟨u, s₁, -, h⟩ := bind_eq_ok.mp h
      split at h
      · cases pure_eq_ok.mp h
        exact hcache
      · obtain ⟨_, hlimit, h⟩ := lift_bind_eq_ok.mp h
        have hlimit := Nat.lt_of_not_le (Result.rejectIf_eq_ok.mp hlimit)
        apply ih h
        rw [List.length_append, List.length_singleton]
        omega

theorem readNames_namesRead {bounds : HeaderBounds} {files files' : List ArchiveEntry}
    {units : Nat} {s s' : List UInt8}
    (h : readNames bounds.limits.maxNameBytes.toNat files units s = .ok (files', s')) :
    files'.length = files.length ∧ NamesRead bounds files' := by
  induction files generalizing files' units s with
  | nil =>
      cases units with
      | zero =>
          cases pure_eq_ok.mp h
          exact ⟨rfl, List.forall_mem_nil _⟩
      | succ units => cases h
  | cons file files ih =>
      cases units with
      | zero => cases h
      | succ units =>
          obtain ⟨⟨cache, rest⟩, s₁, hunits, h⟩ := bind_eq_ok.mp h
          obtain ⟨name, hname, h⟩ := lift_bind_eq_ok.mp h
          obtain ⟨files₁, s₂, hfiles, h⟩ := bind_eq_ok.mp h
          cases pure_eq_ok.mp h
          obtain ⟨hlength, hall⟩ := ih hfiles
          refine ⟨by rw [List.length_cons, hlength, List.length_cons], fun f hf => ?_⟩
          cases List.mem_cons.mp hf with
          | inl heq =>
              rw [heq, ArchiveEntry.nameBytes,
                encodeUtf16_of_decodeUtf16 (Result.okOr_eq_ok.mp hname)]
              exact readNameUnits_length hunits (Nat.zero_le _)
          | inr hf => exact hall f hf

theorem NamesRead.congr {bounds : HeaderBounds} {files files' : List ArchiveEntry}
    (h : NamesRead bounds files)
    (hsame : List.Forall₂ (fun file file' => file'.name = file.name) files files') :
    NamesRead bounds files' := by
  intro file' hfile'
  obtain ⟨i, hi, rfl⟩ := List.getElem_of_mem hfile'
  have hi' : i < files.length := hsame.length_eq ▸ hi
  have hname : files'[i].name = files[i].name := hsame.get hi' hi
  rw [ArchiveEntry.nameBytes, hname]
  exact h _ (List.getElem_mem hi')

theorem readDefined_names {property : String} {files files' : List ArchiveEntry}
    {update : Bool → ArchiveEntry → HeaderReader ArchiveEntry} {s s' : List UInt8}
    (hupdate : ∀ defined file file' t t', update defined file t = .ok (file', t') →
      file'.name = file.name)
    (h : readDefined property update files s = .ok (files', s')) :
    List.Forall₂ (fun file file' => file'.name = file.name) files files' := by
  obtain ⟨defined, s₁, -, h⟩ := bind_eq_ok.mp h
  obtain ⟨external, s₂, -, h⟩ := bind_eq_ok.mp h
  obtain ⟨_, -, h⟩ := lift_bind_eq_ok.mp h
  have hzip : List.Forall₂ (fun (file : ArchiveEntry × Nat) file' => file'.name = file.1.name)
      files.zipIdx files' := by
    refine (mapM_forall₂ h).imp fun file file' hread => ?_
    obtain ⟨t, t', hread⟩ := hread
    exact hupdate _ _ _ _ _ hread
  have hmap : List.Forall₂ (fun (file file' : ArchiveEntry) => file'.name = file.name)
      (files.zipIdx.map Prod.fst) files' := List.forall₂_map_left_iff.mpr hzip
  rwa [List.zipIdx_map_fst] at hmap

theorem name_of_definedField {α : Type} {defined : Bool} {p : HeaderReader α} {name : List Char}
    {given : α → ArchiveEntry} {cleared file' : ArchiveEntry} {s s' : List UInt8}
    (h : (if defined then do let a ← p; pure (given a) else pure cleared : HeaderReader _) s =
      .ok (file', s')) (hgiven : ∀ a, (given a).name = name) (hcleared : cleared.name = name) :
    file'.name = name := by
  cases defined with
  | false =>
      cases pure_eq_ok.mp h
      exact hcleared
  | true =>
      obtain ⟨a, s₁, -, h⟩ := bind_eq_ok.mp h
      cases pure_eq_ok.mp h
      exact hgiven a

structure FileProperties.Held (bounds : HeaderBounds) (n : Nat) (props : FileProperties) :
    Prop where
  count : props.files.length = n
  names : NamesRead bounds props.files
  emptyStreams : ∀ bits, props.isEmptyStream = some bits → bits.len ≤ n

theorem FileProperties.Held.congr {bounds : HeaderBounds} {n : Nat} {props : FileProperties}
    {files : List ArchiveEntry} (h : props.Held bounds n)
    (hsame : List.Forall₂ (fun file file' => file'.name = file.name) props.files files) :
    FileProperties.Held bounds n { props with files } :=
  ⟨hsame.length_eq.symm.trans h.count, h.names.congr hsame, h.emptyStreams⟩

theorem readBits_len_le {n : Nat} {bits : BitSet} {s s' : List UInt8}
    (h : readBits n s = .ok (bits, s')) : bits.len ≤ n := by
  rw [bits.len_eq_countP (readBits_bitCount h).le]
  exact List.countP_le_length.trans (Nat.le_of_eq List.length_range)

theorem readFileProperty_held {bounds : HeaderBounds} {propType : UInt8} {n size : Nat}
    {props props' : FileProperties} {s s' : List UInt8}
    (h : readFileProperty bounds propType size props s = .ok (props', s'))
    (hheld : props.Held bounds n) : props'.Held bounds n := by
  unfold readFileProperty at h
  split at h
  · obtain ⟨bits, s₁, hbits, h⟩ := bind_eq_ok.mp h
    cases pure_eq_ok.mp h
    refine ⟨hheld.count, hheld.names, fun bits' heq => ?_⟩
    cases heq
    rw [hheld.count] at hbits
    exact readBits_len_le hbits
  split at h
  · obtain ⟨bits, s₁, -, h⟩ := bind_eq_ok.mp h
    cases pure_eq_ok.mp h
    exact ⟨hheld.count, hheld.names, hheld.emptyStreams⟩
  split at h
  · obtain ⟨bits, s₁, -, h⟩ := bind_eq_ok.mp h
    cases pure_eq_ok.mp h
    exact ⟨hheld.count, hheld.names, hheld.emptyStreams⟩
  split at h
  · obtain ⟨files, s₁, hread, h⟩ := bind_eq_ok.mp h
    cases pure_eq_ok.mp h
    obtain ⟨external, s₂, -, hread⟩ := bind_eq_ok.mp hread
    obtain ⟨_, -, hread⟩ := lift_bind_eq_ok.mp hread
    obtain ⟨_, -, hread⟩ := lift_bind_eq_ok.mp hread
    obtain ⟨blob, -, hread⟩ := lift_bind_eq_ok.mp hread
    obtain ⟨hlength, hnames⟩ := readNames_namesRead hread
    exact ⟨hlength.trans hheld.count, hnames, hheld.emptyStreams⟩
  split at h
  · obtain ⟨files, s₁, hread, h⟩ := bind_eq_ok.mp h
    cases pure_eq_ok.mp h
    refine hheld.congr (readDefined_names (fun defined file file' t t' hfile => ?_) hread)
    unfold readCreationDate at hfile
    exact name_of_definedField hfile (fun _ => rfl) rfl
  split at h
  · obtain ⟨files, s₁, hread, h⟩ := bind_eq_ok.mp h
    cases pure_eq_ok.mp h
    refine hheld.congr (readDefined_names (fun defined file file' t t' hfile => ?_) hread)
    unfold readAccessDate at hfile
    exact name_of_definedField hfile (fun _ => rfl) rfl
  split at h
  · obtain ⟨files, s₁, hread, h⟩ := bind_eq_ok.mp h
    cases pure_eq_ok.mp h
    refine hheld.congr (readDefined_names (fun defined file file' t t' hfile => ?_) hread)
    unfold readLastModifiedDate at hfile
    exact name_of_definedField hfile (fun _ => rfl) rfl
  split at h
  · obtain ⟨files, s₁, hread, h⟩ := bind_eq_ok.mp h
    cases pure_eq_ok.mp h
    refine hheld.congr (readDefined_names (fun defined file file' t t' hfile => ?_) hread)
    unfold readWindowsAttributes at hfile
    exact name_of_definedField hfile (fun _ => rfl) rfl
  split at h
  · cases h
  · obtain ⟨size, -, h⟩ := lift_bind_eq_ok.mp h
    obtain ⟨_, s₁, -, h⟩ := bind_eq_ok.mp h
    cases pure_eq_ok.mp h
    exact hheld

theorem held_new (bounds : HeaderBounds) (n : Nat) :
    FileProperties.Held bounds n { files := List.replicate n ArchiveEntry.new } := by
  refine ⟨List.length_replicate, fun file hfile => ?_, nofun⟩
  rw [List.eq_of_mem_replicate hfile]
  exact Nat.zero_le _

theorem readPropertyLoop_held {bounds : HeaderBounds} {fuel n : Nat}
    {props props' : FileProperties} {s s' : List UInt8}
    (h : readPropertyLoop bounds fuel props s = .ok (props', s'))
    (hheld : props.Held bounds n) : props'.Held bounds n := by
  induction fuel generalizing props s with
  | zero => cases h
  | succ fuel ih =>
      obtain ⟨propType, s₁, -, h⟩ := bind_eq_ok.mp h
      split at h
      · cases pure_eq_ok.mp h
        exact hheld
      · obtain ⟨size, s₂, -, h⟩ := bind_eq_ok.mp h
        obtain ⟨props₁, s₃, hprops, h⟩ := bind_eq_ok.mp h
        exact ih h (readFileProperty_held hprops hheld)

theorem readFileProperties_held {bounds : HeaderBounds} {numFiles : Nat}
    {props : FileProperties} {s s' : List UInt8}
    (h : readFileProperties bounds numFiles s = .ok (props, s')) : props.Held bounds numFiles :=
  readPropertyLoop_held h (held_new bounds numFiles)

theorem assignEntries_names {info : Option SubStreamsInfo} {props : FileProperties} {i : Nat}
    {files files' : List ArchiveEntry} {counters : EntryCounters}
    (h : assignEntries info props i files counters = .ok files') :
    List.Forall₂ (fun file file' => file'.name = file.name) files files' := by
  induction files generalizing i files' counters with
  | nil =>
      cases Result.pure_eq_ok.mp h
      exact .nil
  | cons file files ih =>
      obtain ⟨⟨file₁, counters₁⟩, hentry, h⟩ := Result.bind_eq_ok.mp h
      obtain ⟨files₁, hentries, h⟩ := Result.bind_eq_ok.mp h
      cases Result.pure_eq_ok.mp h
      refine .cons ?_ (ih hentries)
      unfold assignEntry at hentry
      dsimp only at hentry
      split at hentry
      · obtain ⟨info', -, hentry⟩ := Result.bind_eq_ok.mp hentry
        obtain ⟨crc, -, hentry⟩ := Result.bind_eq_ok.mp hentry
        obtain ⟨size, -, hentry⟩ := Result.bind_eq_ok.mp hentry
        cases Result.pure_eq_ok.mp hentry
        rfl
      · cases Result.pure_eq_ok.mp hentry
        rfl

/-- The files a header lists, within the bounds but for the last unit of a name. -/
structure Archive.FilesWithin (bounds : HeaderBounds) (archive : Archive) : Prop where
  count : bounds.Allows .entries archive.files.length
  names : NamesRead bounds archive.files

theorem calculateStreamMap_filesWithin {bounds : HeaderBounds} {archive archive' : Archive}
    (h : calculateStreamMap archive = .ok archive') (hfiles : archive.FilesWithin bounds) :
    archive'.FilesWithin bounds := by
  obtain ⟨-, hsame, -⟩ := calculateStreamMap_eq_ok h
  refine ⟨?_, hfiles.names.congr (hsame.imp fun file file' hfile => ?_)⟩
  · rw [← hsame.length_eq]
    exact hfiles.count
  · rw [hfile]

theorem readFilesOrMap_filesWithin {bounds : HeaderBounds} {nid nid' : UInt8}
    {archive archive' : Archive} {s s' : List UInt8}
    (h : readFilesOrMap bounds nid archive s = .ok ((archive', nid'), s'))
    (hnone : archive.files = []) : archive'.FilesWithin bounds := by
  unfold readFilesOrMap at h
  split at h
  · obtain ⟨archive₁, s₁, hread, h⟩ := bind_eq_ok.mp h
    obtain ⟨nid₁, s₂, -, h⟩ := bind_eq_ok.mp h
    cases pure_eq_ok.mp h
    obtain ⟨num, t₁, -, hread⟩ := bind_eq_ok.mp hread
    obtain ⟨numFiles, hcount, hread⟩ := lift_bind_eq_ok.mp hread
    obtain ⟨props, t₂, hprops, hread⟩ := bind_eq_ok.mp hread
    obtain ⟨files, hfiles, hread⟩ := lift_bind_eq_ok.mp hread
    obtain ⟨archive₂, hmap, hread⟩ := monadLift_eq_ok.mp hread
    cases hread
    have hheld := readFileProperties_held hprops
    have hsame := assignEntries_names hfiles
    refine calculateStreamMap_filesWithin hmap ⟨?_, hheld.names.congr hsame⟩
    change bounds.Allows .entries files.length
    rw [← hsame.length_eq, hheld.count]
    exact HeaderBounds.allows_of_count hcount
  · obtain ⟨archive₁, hmap, h⟩ := lift_bind_eq_ok.mp h
    cases pure_eq_ok.mp h
    refine calculateStreamMap_filesWithin hmap ⟨?_, ?_⟩
    · rw [hnone]
      exact HeaderBounds.allows_zero
    · rw [hnone]
      exact List.forall_mem_nil _

structure Archive.Bounded (bounds : HeaderBounds) (archive : Archive) : Prop where
  files : bounds.Allows .entries archive.files.length
  blocks : bounds.Allows .entries archive.blocks.length
  packStreams : bounds.Allows .entries archive.packSizes.length ∧
    bounds.Allows .entries archive.packCrcs.length
  subStreams : bounds.Allows .entries (countSubStreams archive.blocks)
  codersPerBlock : ∀ block ∈ archive.blocks,
    bounds.Allows .codersPerBlock block.coders.length
  streamsPerCoder : ∀ block ∈ archive.blocks, ∀ coder ∈ block.coders,
    coder.numInStreams ≤ bounds.limits.maxStreamsPerCoder.toNat ∧
      coder.numOutStreams ≤ bounds.limits.maxStreamsPerCoder.toNat
  totalCoders : countCoders archive.blocks ≤ bounds.limits.maxTotalCoders.toNat
  names : ∀ file ∈ archive.files, file.nameBytes ≤ bounds.limits.maxNameBytes.toNat

theorem consumes_skipArchiveProperties (bounds : HeaderBounds) (nid : UInt8) :
    Consumes (skipArchiveProperties bounds nid) 0 := by
  have hbyte : Consumes readU8 0 := consumes_readU8.mono (Nat.zero_le 1)
  have hu64 : Consumes readVariableU64 0 := consumes_readVariableU64.mono (Nat.zero_le 1)
  have hskip (n : Nat) : Consumes (skip n : HeaderReader Unit) 0 := by
    intro s _ s' h
    cases h
    rw [Nat.add_zero, List.length_drop]
    exact Nat.sub_le _ _
  have hloop (fuel : Nat) (nid : UInt8) : Consumes (archivePropertiesLoop bounds fuel nid) 0 := by
    induction fuel generalizing nid with
    | zero => exact Consumes.throw _ 0
    | succ fuel ih =>
        unfold archivePropertiesLoop
        split
        · exact Consumes.pure ()
        · exact hu64.bind fun size => (Consumes.lift _).bind fun propertySize =>
            (hskip propertySize).bind fun _ => hbyte.bind fun nid => ih nid
  have hproperties : Consumes (readArchiveProperties bounds) 0 := by
    intro s _ s' h
    obtain ⟨nid, s₁, hnid, h⟩ := bind_eq_ok.mp h
    have h₁ := hbyte s nid s₁ hnid
    have h₂ := hloop (s.length + 1) nid s₁ _ s' h
    omega
  unfold skipArchiveProperties
  split
  · exact hproperties.bind fun _ => hbyte
  · exact Consumes.pure nid

theorem readHeader_within {bounds : HeaderBounds} {archive : Archive} {s s' : List UInt8}
    (h : readHeader bounds {} s = .ok (archive, s')) :
    archive.StreamsWithin bounds ∧ archive.FilesWithin bounds ∧ (s.length < 2 ^ 64 →
      countCoders archive.blocks ≤ bounds.limits.maxTotalCoders.toNat) := by
  obtain ⟨nid, s₁, hnid, h⟩ := bind_eq_ok.mp h
  obtain ⟨nid₁, s₂, hskip, h⟩ := bind_eq_ok.mp h
  obtain ⟨_, -, h⟩ := lift_bind_eq_ok.mp h
  obtain ⟨⟨streams, nid₂⟩, s₃, hstreams, h⟩ := bind_eq_ok.mp h
  obtain ⟨⟨mapped, nid₃⟩, s₄, hmapped, h⟩ := bind_eq_ok.mp h
  obtain ⟨_, -, h⟩ := lift_bind_eq_ok.mp h
  cases pure_eq_ok.mp h
  have h₁ := consumes_readU8 s nid s₁ hnid
  have h₂ := consumes_skipArchiveProperties bounds nid s₁ nid₁ s₂ hskip
  have hread : streams.StreamsWithin bounds ∧ streams.files = [] ∧ (s.length < 2 ^ 64 →
      countCoders streams.blocks ≤ bounds.limits.maxTotalCoders.toNat) := by
    cases optionalSection_eq_ok hstreams with
    | inl hread =>
        obtain ⟨-, t, hread, -⟩ := hread
        obtain ⟨hwithin, htotal⟩ := readStreamsInfo_within hread
        exact ⟨hwithin, (readStreamsInfo_parsed hread).2, fun hlen => htotal (by omega)⟩
    | inr hnone =>
        obtain ⟨-, rfl, -, -⟩ := hnone
        exact ⟨streamsWithin_empty bounds, rfl, fun _ => Nat.zero_le _⟩
  obtain ⟨hwithin, hnone, htotal⟩ := hread
  have hfiles := readFilesOrMap_filesWithin hmapped hnone
  have hsame := readFilesOrMap_eq hmapped
  refine ⟨?_, hfiles, ?_⟩
  · rw [hsame]
    exact ⟨hwithin.packSizes, hwithin.packCrcs, hwithin.blocks, hwithin.subStreams⟩
  · rw [hsame]
    exact htotal

end Sevenz
