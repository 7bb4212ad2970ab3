import Sevenz.Header.StreamMap
import Sevenz.Lib.Offsets

/-!
# Which files a block spans

The file loop of `calculate_stream_map` keeps the files of each block consecutive, from the
block's first file on.  Everything the readers later assume of a stream map follows.
-/

namespace Sevenz

open Lib

def Block.packLens (blocks : List Block) : List Nat :=
  blocks.map fun block => block.packedStreams.length

def Block.subStreamCounts (blocks : List Block) : List Nat :=
  blocks.map Block.numUnpackSubStreams

theorem packStreamIndices_eq_ok {k next : Nat} {blocks : List Block} {indices : List Nat}
    (h : packStreamIndices k blocks next = .ok indices) (hnext : next ≤ k) :
    indices = starts next (Block.packLens blocks) ∧
      next + (Block.packLens blocks).sum ≤ k := by
  induction blocks generalizing next indices with
  | nil =>
      cases Result.pure_eq_ok.mp h
      exact ⟨rfl, hnext⟩
  | cons block blocks ih =>
      obtain ⟨next', hadd, h⟩ := Result.bind_eq_ok.mp h
      obtain ⟨_, hle, h⟩ := Result.bind_eq_ok.mp h
      obtain ⟨rest, hrest, h⟩ := Result.bind_eq_ok.mp h
      cases Result.pure_eq_ok.mp h
      obtain ⟨-, rfl⟩ := checkedAdd_eq_some.mp (Result.okOr_eq_ok.mp hadd)
      obtain ⟨rfl, hsum⟩ := ih hrest (Nat.le_of_not_lt (Result.rejectIf_eq_ok.mp hle))
      refine ⟨rfl, ?_⟩
      rw [Block.packLens, List.map_cons, List.sum_cons, ← Nat.add_assoc]
      exact hsum

theorem subStreamIndices_eq_ok {next : Nat} {blocks : List Block} {indices : List Nat}
    (h : subStreamIndices blocks next = .ok indices) :
    indices = starts next (Block.subStreamCounts blocks) := by
  induction blocks generalizing next indices with
  | nil =>
      cases Result.pure_eq_ok.mp h
      rfl
  | cons block blocks ih =>
      obtain ⟨next', hadd, h⟩ := Result.bind_eq_ok.mp h
      obtain ⟨rest, hrest, h⟩ := Result.bind_eq_ok.mp h
      cases Result.pure_eq_ok.mp h
      obtain ⟨-, rfl⟩ := checkedAdd_eq_some.mp (Result.okOr_eq_ok.mp hadd)
      rw [ih hrest]
      rfl

theorem packStreamOffsets_eq_ok {next : Nat} {sizes : List UInt64} {offsets : List Nat}
    (h : packStreamOffsets sizes next = .ok offsets) :
    offsets = starts next (sizes.map UInt64.toNat) := by
  induction sizes generalizing next offsets with
  | nil =>
      cases Result.pure_eq_ok.mp h
      rfl
  | cons size sizes ih =>
      obtain ⟨next', hadd, h⟩ := Result.bind_eq_ok.mp h
      obtain ⟨rest, hrest, h⟩ := Result.bind_eq_ok.mp h
      cases Result.pure_eq_ok.mp h
      obtain ⟨-, rfl⟩ := checkedAdd_eq_some.mp (Result.okOr_eq_ok.mp hadd)
      rw [ih hrest]
      rfl

def subStreamsOf (blocks : List Block) (b : Nat) : Nat :=
  (Block.subStreamCounts blocks).getD b 0

theorem subStreamsOf_eq {blocks : List Block} {b : Nat} {block : Block}
    (h : blocks[b]? = some block) : subStreamsOf blocks b = block.numUnpackSubStreams := by
  rw [subStreamsOf, Block.subStreamCounts, List.getD_eq_getElem?_getD, List.getElem?_map, h]
  rfl

namespace MapState

def first (st : MapState) (b : Nat) : Nat := st.blockFirstFileIndex.getD b 0

/-- The blocks not begun yet: those from the block in hand on, and that one too unless a
sub-stream of it has been taken. -/
def Untouched (st : MapState) (b : Nat) : Prop :=
  st.nextBlockIndex < b ∨ (st.nextBlockIndex = b ∧ st.nextBlockUnpackStreamIndex = 0)

theorem untouched_of {st : MapState} {b : Nat} (hpassed : ¬ b < st.nextBlockIndex)
    (hin : ¬ (b = st.nextBlockIndex ∧ st.nextBlockUnpackStreamIndex ≠ 0)) : st.Untouched b := by
  rcases Nat.lt_or_ge st.nextBlockIndex b with hlt | hge
  · exact .inl hlt
  · have heq : st.nextBlockIndex = b := Nat.le_antisymm (Nat.le_of_not_lt hpassed) hge
    exact .inr ⟨heq, by_contra fun hne => hin ⟨heq.symm, hne⟩⟩

end MapState

structure MapSpans (blocks : List Block) (indices : List (Option Nat)) (st : MapState) :
    Prop where
  length : st.blockFirstFileIndex.length = blocks.length
  spans : ∀ b j, indices[j]? = some (some b) ↔
    st.first b ≤ j ∧ j < st.first b + indices.count (some b)
  passed : ∀ b < st.nextBlockIndex, subStreamsOf blocks b ≤ indices.count (some b) ∧
    (0 < indices.count (some b) → 0 < subStreamsOf blocks b)

/-- The block in hand takes the next file: its files reach up to there, and a sub-stream of
it is left. -/
structure OnBlock (blocks : List Block) (indices : List (Option Nat)) (st : MapState) :
    Prop where
  lt : st.nextBlockIndex < blocks.length
  room : st.nextBlockUnpackStreamIndex < subStreamsOf blocks st.nextBlockIndex
  taken : st.nextBlockUnpackStreamIndex ≤ indices.count (some st.nextBlockIndex)
  reaches : st.first st.nextBlockIndex + indices.count (some st.nextBlockIndex) = indices.length

structure MapInvariant (blocks : List Block) (indices : List (Option Nat)) (st : MapState) :
    Prop extends MapSpans blocks indices st where
  inHand : st.nextBlockUnpackStreamIndex ≠ 0 → OnBlock blocks indices st
  untouched : ∀ b, st.Untouched b → st.first b = 0 ∧ indices.count (some b) = 0

theorem mapInvariant_init (blocks : List Block) :
    MapInvariant blocks []
      { blockFirstFileIndex := List.replicate blocks.length 0
        nextBlockIndex := 0
        nextBlockUnpackStreamIndex := 0 } where
  length := List.length_replicate
  spans b j := by simp [MapState.first]
  passed b hb := absurd hb (Nat.not_lt_zero b)
  inHand h := absurd rfl h
  untouched b _ := by
    refine ⟨?_, rfl⟩
    rw [MapState.first, List.getD_eq_getElem?_getD, List.getElem?_replicate]
    split <;> rfl

theorem count_append_singleton (indices : List (Option Nat)) (x : Option Nat) (b : Nat) :
    (indices ++ [x]).count (some b) = indices.count (some b) + if x = some b then 1 else 0 := by
  rw [List.count_append, List.count_singleton]
  simp

theorem spans_append {indices : List (Option Nat)} {first : Nat → Nat} {x : Option Nat}
    (h : ∀ b j, indices[j]? = some (some b) ↔
      first b ≤ j ∧ j < first b + indices.count (some b))
    (hx : ∀ b, x = some b → first b + indices.count (some b) = indices.length) (b j : Nat) :
    (indices ++ [x])[j]? = some (some b) ↔
      first b ≤ j ∧ j < first b + (indices ++ [x]).count (some b) := by
  rw [count_append_singleton]
  rcases Nat.lt_trichotomy j indices.length with hj | rfl | hj
  · rw [List.getElem?_append_left hj, h]
    split
    · rename_i hxb
      have := hx b hxb
      omega
    · rw [Nat.add_zero]
  · rw [List.getElem?_concat_length, Option.some.injEq]
    split
    · rename_i hxb
      have := hx b hxb
      simp only [hxb, true_iff]
      omega
    · rename_i hxb
      have hout := (h b indices.length).not
      rw [List.getElem?_eq_none (Nat.le_refl _)] at hout
      simp only [hxb, false_iff, Nat.add_zero]
      exact hout.mp (by simp)
  · rw [List.getElem?_eq_none (by simp; omega)]
    have hlast := (h b (indices.length)).not
    have hin := (h b (j - 1)).not
    rw [List.getElem?_eq_none (by omega)] at hin
    split
    · rename_i hxb
      have := hx b hxb
      simp only [reduceCtorEq, false_iff]
      omega
    · have hj' := (h b j).not
      rw [List.getElem?_eq_none (by omega)] at hj'
      simp only [reduceCtorEq, false_iff, Nat.add_zero]
      exact hj'.mp (by simp)

theorem mem_of_count_pos {indices : List (Option Nat)} {b j : Nat}
    (h : indices[j]? = some (some b)) : 0 < indices.count (some b) :=
  List.count_pos_iff.mpr (List.mem_of_getElem? h)

/-- The `while` loop ends on a block with sub-streams, whose first file it sets, or past the
last block. -/
theorem seekBlock_eq_ok {blocks : List Block} {i n : Nat} {st st' : MapState}
    (h : seekBlock blocks i n st = .ok st') (hn : st.nextBlockIndex + n = blocks.length)
    (hlen : st.blockFirstFileIndex.length = blocks.length) :
    st'.blockFirstFileIndex.length = blocks.length ∧
      st'.nextBlockUnpackStreamIndex = st.nextBlockUnpackStreamIndex ∧
      st.nextBlockIndex ≤ st'.nextBlockIndex ∧
      (∀ b, st.nextBlockIndex ≤ b → b < st'.nextBlockIndex → subStreamsOf blocks b = 0) ∧
      (∀ b, b < st.nextBlockIndex ∨ st'.nextBlockIndex < b → st'.first b = st.first b) ∧
      (st'.nextBlockIndex < blocks.length →
        0 < subStreamsOf blocks st'.nextBlockIndex ∧ st'.first st'.nextBlockIndex = i) := by
  induction n generalizing st with
  | zero =>
      cases Result.pure_eq_ok.mp h
      refine ⟨hlen, rfl, Nat.le_refl _, ?_, fun _ _ => rfl, ?_⟩ <;> omega
  | succ n ih =>
      obtain ⟨firsts, hset, h⟩ := Result.bind_eq_ok.mp h
      obtain ⟨block, hblock, h⟩ := Result.bind_eq_ok.mp h
      obtain ⟨hlt, rfl⟩ := Result.setIndex_eq_ok.mp hset
      have hcount := subStreamsOf_eq (Result.index_eq_ok.mp hblock)
      have hfirst : ∀ b, b ≠ st.nextBlockIndex →
          (st.blockFirstFileIndex.set st.nextBlockIndex i).getD b 0 = st.first b := by
        intro b hb
        rw [MapState.first, List.getD_eq_getElem?_getD, List.getD_eq_getElem?_getD,
          List.getElem?_set_ne (Ne.symm hb)]
      split at h
      · rename_i hpos
        cases Result.pure_eq_ok.mp h
        refine ⟨by rw [List.length_set, hlen], rfl, Nat.le_refl _, fun b h₁ h₂ => ?_,
          fun b hb => hfirst b ?_, fun _ => ⟨hcount ▸ hpos, ?_⟩⟩
        · exact absurd h₂ (Nat.not_lt_of_le h₁)
        · dsimp only at hb
          omega
        · rw [MapState.first, List.getD_eq_getElem?_getD, List.getElem?_set_self hlt]
          rfl
      · rename_i hzero
        obtain ⟨hlen', hindex, hle, hskipped, hkept, hon⟩ :=
          ih h (by dsimp only; omega) (by rw [List.length_set, hlen])
        dsimp only at hle hskipped hkept hindex
        refine ⟨hlen', hindex, by omega, fun b h₁ h₂ => ?_, fun b hb => ?_, hon⟩
        · rcases Nat.eq_or_lt_of_le h₁ with rfl | h₁
          · rw [hcount]
            omega
          · exact hskipped b h₁ h₂
        · rw [hkept b (by omega)]
          exact hfirst b (by omega)

theorem startBlock_eq_ok {blocks : List Block} {indices : List (Option Nat)} {st st' : MapState}
    (h : startBlock blocks indices.length st = .ok st') (hinv : MapInvariant blocks indices st) :
    MapSpans blocks indices st' ∧ OnBlock blocks indices st' ∧
      ∀ b, st'.nextBlockIndex < b → st'.first b = 0 ∧ indices.count (some b) = 0 := by
  unfold startBlock at h
  split at h
  · rename_i hzero
    obtain ⟨st₁, hseek, h⟩ := Result.bind_eq_ok.mp h
    obtain ⟨_, hlt, h⟩ := Result.bind_eq_ok.mp h
    cases Result.pure_eq_ok.mp h
    have hlt := Nat.lt_of_not_le (Result.rejectIf_eq_ok.mp hlt)
    have hle : st.nextBlockIndex ≤ blocks.length := by
      by_contra hgt
      rw [Nat.sub_eq_zero_of_le (Nat.le_of_not_le hgt)] at hseek
      cases Result.pure_eq_ok.mp hseek
      omega
    obtain ⟨hlen, hindex, hnext, hskipped, hkept, hon⟩ :=
      seekBlock_eq_ok hseek (Nat.add_sub_cancel' hle) hinv.length
    obtain ⟨hpos, hfirst⟩ := hon hlt
    have hnone : ∀ b, st.nextBlockIndex ≤ b → indices.count (some b) = 0 := by
      intro b hb
      refine (hinv.untouched b ?_).2
      rcases Nat.eq_or_lt_of_le hb with rfl | hb
      · exact .inr ⟨rfl, hzero⟩
      · exact .inl hb
    refine ⟨⟨hlen, fun b j => ?_, fun b hb => ?_⟩, ⟨hlt, ?_, ?_, ?_⟩, fun b hb => ?_⟩
    · by_cases hb : b < st.nextBlockIndex
      · rw [hkept b (.inl hb)]
        exact hinv.spans b j
      · rw [hnone b (Nat.le_of_not_lt hb)]
        refine ⟨fun hj => ?_, fun hj => by omega⟩
        have := mem_of_count_pos hj
        rw [hnone b (Nat.le_of_not_lt hb)] at this
        omega
    · by_cases hb' : b < st.nextBlockIndex
      · exact hinv.passed b hb'
      · rw [hskipped b (Nat.le_of_not_lt hb') hb, hnone b (Nat.le_of_not_lt hb')]
        exact ⟨Nat.le_refl 0, id⟩
    · rw [hindex, hzero]
      exact hpos
    · rw [hindex, hzero]
      exact Nat.zero_le _
    · rw [hfirst, hnone _ hnext, Nat.add_zero]
    · rw [hkept b (.inr hb)]
      exact hinv.untouched b (.inl (by omega))
  · rename_i hzero
    cases Result.pure_eq_ok.mp h
    exact ⟨hinv.toMapSpans, hinv.inHand hzero, fun b hb => hinv.untouched b (.inl hb)⟩

theorem count_append_self {indices : List (Option Nat)} {b : Nat} :
    (indices ++ [some b]).count (some b) = indices.count (some b) + 1 := by
  rw [count_append_singleton, if_pos rfl]

theorem count_append_of_ne {indices : List (Option Nat)} {x : Option Nat} {b : Nat}
    (h : x ≠ some b) : (indices ++ [x]).count (some b) = indices.count (some b) := by
  rw [count_append_singleton, if_neg h, Nat.add_zero]

theorem MapInvariant.append_none {blocks : List Block} {indices : List (Option Nat)}
    {st : MapState} (h : MapInvariant blocks indices st)
    (hzero : st.nextBlockUnpackStreamIndex = 0) : MapInvariant blocks (indices ++ [none]) st where
  length := h.length
  spans := spans_append h.spans fun b hb => absurd hb.symm (by simp)
  passed b hb := by
    rw [count_append_of_ne (by simp)]
    exact h.passed b hb
  inHand hne := absurd hzero hne
  untouched b hb := by
    rw [count_append_of_ne (by simp)]
    exact h.untouched b hb

theorem OnBlock.append {blocks : List Block} {indices : List (Option Nat)} {st : MapState}
    (h : OnBlock blocks indices st) :
    OnBlock blocks (indices ++ [some st.nextBlockIndex]) st where
  lt := h.lt
  room := h.room
  taken := by
    rw [count_append_self]
    exact Nat.le_succ_of_le h.taken
  reaches := by
    rw [count_append_self, ← Nat.add_assoc, h.reaches, List.length_append, List.length_singleton]

theorem MapSpans.append {blocks : List Block} {indices : List (Option Nat)} {st : MapState}
    (h : MapSpans blocks indices st) (hon : OnBlock blocks indices st) :
    MapSpans blocks (indices ++ [some st.nextBlockIndex]) st where
  length := h.length
  spans := spans_append h.spans fun b hb => by
    cases hb
    exact hon.reaches
  passed b hb := by
    have hne : some st.nextBlockIndex ≠ some b := fun heq => by
      cases heq
      exact absurd hb (Nat.lt_irrefl _)
    rw [count_append_of_ne hne]
    exact h.passed b hb

theorem MapSpans.takeSubStream {blocks : List Block} {indices : List (Option Nat)}
    {st : MapState} {block : Block} (h : MapSpans blocks indices st)
    (hon : OnBlock blocks indices st) (hblock : blocks[st.nextBlockIndex]? = some block)
    (hafter : ∀ b, st.nextBlockIndex < b → st.first b = 0 ∧ indices.count (some b) = 0) :
    MapInvariant blocks (indices ++ [some st.nextBlockIndex]) (st.takeSubStream block) := by
  have hspans := h.append hon
  have hon' := hon.append
  have hafter' : ∀ b, st.nextBlockIndex < b →
      st.first b = 0 ∧ (indices ++ [some st.nextBlockIndex]).count (some b) = 0 := by
    intro b hb
    have hne : some st.nextBlockIndex ≠ some b := fun heq => by
      cases heq
      exact absurd hb (Nat.lt_irrefl _)
    rw [count_append_of_ne hne]
    exact hafter b hb
  have htaken := hon.taken
  have hroom := subStreamsOf_eq hblock ▸ hon.room
  unfold MapState.takeSubStream
  split
  · rename_i hfull
    refine ⟨⟨hspans.length, hspans.spans, fun b hb => ?_⟩, fun hne => absurd rfl hne,
      fun b hb => hafter' b ?_⟩
    · rcases Nat.eq_or_lt_of_le (Nat.le_of_lt_succ hb) with rfl | hb
      · rw [count_append_self, subStreamsOf_eq hblock]
        exact ⟨by omega, fun _ => by omega⟩
      · exact hspans.passed b hb
    · rcases hb with hb | ⟨hb, -⟩ <;> dsimp only at hb <;> omega
  · rename_i hleft
    refine ⟨⟨hspans.length, hspans.spans, hspans.passed⟩,
      fun _ => ⟨hon.lt, ?_, ?_, hon'.reaches⟩, fun b hb => hafter' b ?_⟩
    · rw [subStreamsOf_eq hblock]
      dsimp only
      omega
    · rw [count_append_self]
      exact Nat.succ_le_succ htaken
    · rcases hb with hb | ⟨-, hb⟩
      · exact hb
      · exact absurd hb (Nat.succ_ne_zero _)

theorem mapFile_invariant {blocks : List Block} {packSizes : List UInt64} {firstPack : List Nat}
    {indices : List (Option Nat)} {file file' : ArchiveEntry} {x : Option Nat}
    {st st' : MapState}
    (h : mapFile blocks packSizes firstPack indices.length file st = .ok (x, file', st'))
    (hinv : MapInvariant blocks indices st) : MapInvariant blocks (indices ++ [x]) st' := by
  unfold mapFile at h
  split at h
  · rename_i hfree
    cases Result.pure_eq_ok.mp h
    exact hinv.append_none hfree.2
  · rename_i htaken
    obtain ⟨st₁, hstart, h⟩ := Result.bind_eq_ok.mp h
    obtain ⟨hspans, hon, hafter⟩ := startBlock_eq_ok hstart hinv
    split at h
    · -- a file without a stream belongs to the block only where the block is begun
      rename_i hstream
      cases Result.pure_eq_ok.mp h
      have hne : st.nextBlockUnpackStreamIndex ≠ 0 := fun hzero => htaken ⟨hstream, hzero⟩
      unfold startBlock at hstart
      rw [if_neg hne] at hstart
      cases Result.pure_eq_ok.mp hstart
      refine ⟨hspans.append hon, fun _ => hon.append, fun b hb => ?_⟩
      have hlt : st.nextBlockIndex < b := hb.resolve_right fun hb => hne hb.2
      rw [count_append_of_ne fun heq => Nat.ne_of_lt hlt (Option.some.inj heq)]
      exact hafter b hlt
    · obtain ⟨file₁, -, h⟩ := Result.bind_eq_ok.mp h
      obtain ⟨block, hblock, h⟩ := Result.bind_eq_ok.mp h
      cases Result.pure_eq_ok.mp h
      exact hspans.takeSubStream hon (Result.index_eq_ok.mp hblock) hafter

theorem mapFiles_invariant {blocks : List Block} {packSizes : List UInt64}
    {firstPack : List Nat} {indices rest : List (Option Nat)} {files files' : List ArchiveEntry}
    {st st' : MapState}
    (h : mapFiles blocks packSizes firstPack indices.length files st = .ok (rest, files', st'))
    (hinv : MapInvariant blocks indices st) : MapInvariant blocks (indices ++ rest) st' := by
  induction files generalizing indices rest files' st with
  | nil =>
      cases Result.pure_eq_ok.mp h
      rwa [List.append_nil]
  | cons file files ih =>
      obtain ⟨⟨x, file₁, st₁⟩, hfile, h⟩ := Result.bind_eq_ok.mp h
      obtain ⟨⟨xs, files₁, st₂⟩, hfiles, h⟩ := Result.bind_eq_ok.mp h
      cases Result.pure_eq_ok.mp h
      have hlength : indices.length + 1 = (indices ++ [x]).length := by
        rw [List.length_append, List.length_singleton]
      rw [hlength] at hfiles
      have := ih hfiles (mapFile_invariant hfile hinv)
      rwa [List.append_assoc] at this

def ArchiveEntry.SameEntry (file file' : ArchiveEntry) : Prop :=
  file' = { file with compressedSize := file'.compressedSize }

theorem mapFile_file {blocks : List Block} {packSizes : List UInt64} {firstPack : List Nat}
    {i : Nat} {file file' : ArchiveEntry} {x : Option Nat} {st st' : MapState}
    (h : mapFile blocks packSizes firstPack i file st = .ok (x, file', st')) :
    file.SameEntry file' ∧ (file'.hasStream = true → x.isSome = true) := by
  unfold mapFile at h
  split at h
  · rename_i hfree
    cases Result.pure_eq_ok.mp h
    exact ⟨rfl, fun hstream => absurd hfree.1 (by simp [hstream])⟩
  · obtain ⟨st₁, -, h⟩ := Result.bind_eq_ok.mp h
    split at h
    · cases Result.pure_eq_ok.mp h
      exact ⟨rfl, fun _ => rfl⟩
    · obtain ⟨file₁, hsize, h⟩ := Result.bind_eq_ok.mp h
      obtain ⟨block, -, h⟩ := Result.bind_eq_ok.mp h
      cases Result.pure_eq_ok.mp h
      refine ⟨?_, fun _ => rfl⟩
      obtain ⟨first, -, hsize⟩ := Result.bind_eq_ok.mp hsize
      split at hsize
      · obtain ⟨packIndex, -, hsize⟩ := Result.bind_eq_ok.mp hsize
        obtain ⟨packSize, -, hsize⟩ := Result.bind_eq_ok.mp hsize
        cases Result.pure_eq_ok.mp hsize
        rfl
      · cases Result.pure_eq_ok.mp hsize
        rfl

theorem mapFiles_files {blocks : List Block} {packSizes : List UInt64} {firstPack : List Nat}
    {i : Nat} {files files' : List ArchiveEntry} {xs : List (Option Nat)} {st st' : MapState}
    (h : mapFiles blocks packSizes firstPack i files st = .ok (xs, files', st')) :
    List.Forall₂ ArchiveEntry.SameEntry files files' ∧
      List.Forall₂ (fun file x => file.hasStream = true → x.isSome = true) files' xs := by
  induction files generalizing i xs files' st with
  | nil =>
      cases Result.pure_eq_ok.mp h
      exact ⟨.nil, .nil⟩
  | cons file files ih =>
      obtain ⟨⟨x, file₁, st₁⟩, hfile, h⟩ := Result.bind_eq_ok.mp h
      obtain ⟨⟨xs', files₁, st₂⟩, hfiles, h⟩ := Result.bind_eq_ok.mp h
      cases Result.pure_eq_ok.mp h
      obtain ⟨hsame, hsome⟩ := mapFile_file hfile
      obtain ⟨hrest, hsomes⟩ := ih hfiles
      exact ⟨.cons hsame hrest, .cons hsome hsomes⟩

theorem checkFileSpans_eq_ok {numFiles b : Nat} {firsts : List Nat} {blocks : List Block}
    (h : checkFileSpans numFiles firsts b blocks = .ok ()) {k : Nat} {block : Block}
    (hk : blocks[k]? = some block) :
    firsts.getD (b + k) 0 + block.numUnpackSubStreams ≤ numFiles := by
  induction blocks generalizing b k with
  | nil => cases hk
  | cons block' blocks ih =>
      obtain ⟨start, hstart, h⟩ := Result.bind_eq_ok.mp h
      obtain ⟨last, hlast, h⟩ := Result.bind_eq_ok.mp h
      obtain ⟨_, hle, h⟩ := Result.bind_eq_ok.mp h
      cases k with
      | zero =>
          cases hk
          obtain ⟨-, rfl⟩ := checkedAdd_eq_some.mp (Result.okOr_eq_ok.mp hlast)
          rw [List.getD_eq_getElem?_getD, Nat.add_zero, Result.index_eq_ok.mp hstart]
          exact Nat.le_of_not_lt (Result.rejectIf_eq_ok.mp hle)
      | succ k =>
          have := ih h hk
          rwa [show b + 1 + k = b + (k + 1) by omega] at this

namespace StreamMap

def fileCount (map : StreamMap) (b : Nat) : Nat := map.fileBlockIndex.count (some b)

def firstFile (map : StreamMap) (b : Nat) : Nat := map.blockFirstFileIndex.getD b 0

end StreamMap

structure Archive.Mapped (archive : Archive) : Prop where
  firstPack : archive.streamMap.blockFirstPackStreamIndex =
    starts 0 (Block.packLens archive.blocks)
  packed : (Block.packLens archive.blocks).sum ≤ archive.packSizes.length
  packOffsets : archive.streamMap.packStreamOffsets =
    starts 0 (archive.packSizes.map UInt64.toNat)
  firstSubStream : archive.streamMap.blockFirstSubStreamIndex =
    starts 0 (Block.subStreamCounts archive.blocks)
  firstFile : archive.streamMap.blockFirstFileIndex.length = archive.blocks.length
  fileBlock : archive.streamMap.fileBlockIndex.length = archive.files.length
  fits : ∀ b < archive.blocks.length,
    archive.streamMap.firstFile b + subStreamsOf archive.blocks b ≤ archive.files.length
  spans : ∀ b j, archive.streamMap.fileBlockIndex[j]? = some (some b) ↔
    archive.streamMap.firstFile b ≤ j ∧
      j < archive.streamMap.firstFile b + archive.streamMap.fileCount b
  filled : ∀ b < archive.blocks.length,
    subStreamsOf archive.blocks b ≤ archive.streamMap.fileCount b ∨
      (archive.streamMap.firstFile b = 0 ∧ archive.streamMap.fileCount b = 0)
  begun : ∀ b, 0 < archive.streamMap.fileCount b →
    b < archive.blocks.length ∧ 0 < subStreamsOf archive.blocks b
  streamed : List.Forall₂ (fun file x => file.hasStream = true → x.isSome = true)
    archive.files archive.streamMap.fileBlockIndex

theorem subStreamsOf_of_length_le {blocks : List Block} {b : Nat} (h : blocks.length ≤ b) :
    subStreamsOf blocks b = 0 := by
  rw [subStreamsOf, List.getD_eq_getElem?_getD, Block.subStreamCounts,
    List.getElem?_eq_none (by rwa [List.length_map])]
  rfl

theorem calculateStreamMap_eq_ok {archive archive' : Archive}
    (h : calculateStreamMap archive = .ok archive') :
    archive'.Mapped ∧ List.Forall₂ ArchiveEntry.SameEntry archive.files archive'.files ∧
      archive' = { archive with files := archive'.files, streamMap := archive'.streamMap } := by
  obtain ⟨firstPack, hpack, h⟩ := Result.bind_eq_ok.mp h
  obtain ⟨firstSub, hsub, h⟩ := Result.bind_eq_ok.mp h
  obtain ⟨offsets, hoffsets, h⟩ := Result.bind_eq_ok.mp h
  obtain ⟨⟨indices, files, st⟩, hfiles, h⟩ := Result.bind_eq_ok.mp h
  obtain ⟨_, hcheck, h⟩ := Result.bind_eq_ok.mp h
  cases Result.pure_eq_ok.mp h
  obtain ⟨hsame, hsome⟩ := mapFiles_files hfiles
  have hinv : MapInvariant archive.blocks indices st :=
    mapFiles_invariant hfiles (mapInvariant_init archive.blocks)
  obtain ⟨hfirst, hpacked⟩ := packStreamIndices_eq_ok hpack (Nat.zero_le _)
  rw [Nat.zero_add] at hpacked
  have hfits : ∀ b < archive.blocks.length,
      st.first b + subStreamsOf archive.blocks b ≤ archive.files.length := by
    intro b hb
    have := checkFileSpans_eq_ok hcheck (List.getElem?_eq_getElem hb)
    rw [Nat.zero_add] at this
    rwa [subStreamsOf_eq (List.getElem?_eq_getElem hb)]
  have hlength : indices.length = archive.files.length := hsome.length_eq.symm.trans hsame.length_eq.symm
  refine ⟨⟨hfirst, hpacked, packStreamOffsets_eq_ok hoffsets, subStreamIndices_eq_ok hsub,
    hinv.length, hlength.trans hsame.length_eq, ?_, hinv.spans, ?_, ?_, hsome⟩, hsame, rfl⟩
  · intro b hb
    exact (hfits b hb).trans_eq hsame.length_eq
  · intro b hb
    by_cases hpassed : b < st.nextBlockIndex
    · exact .inl (hinv.passed b hpassed).1
    · by_cases hin : b = st.nextBlockIndex ∧ st.nextBlockUnpackStreamIndex ≠ 0
      · -- the block in hand reaches the last file, so the span check bounds its count
        obtain ⟨rfl, hne⟩ := hin
        have hreach := (hinv.inHand hne).reaches
        have := hfits _ hb
        exact .inl (by simp only [StreamMap.fileCount]; omega)
      · exact .inr (hinv.untouched b (MapState.untouched_of hpassed hin))
  · intro b hpos
    have hbegun : 0 < subStreamsOf archive.blocks b := by
      by_cases hpassed : b < st.nextBlockIndex
      · exact (hinv.passed b hpassed).2 hpos
      · by_cases hin : b = st.nextBlockIndex ∧ st.nextBlockUnpackStreamIndex ≠ 0
        · obtain ⟨rfl, hne⟩ := hin
          exact Nat.lt_of_le_of_lt (Nat.zero_le _) (hinv.inHand hne).room
        · have hzero := (hinv.untouched b (MapState.untouched_of hpassed hin)).2
          exact absurd hzero (Nat.ne_of_gt hpos)
    refine ⟨?_, hbegun⟩
    by_contra hge
    rw [subStreamsOf_of_length_le (Nat.le_of_not_lt hge)] at hbegun
    exact Nat.lt_irrefl 0 hbegun

theorem seekBlock_next_le {blocks : List Block} {i n : Nat} {st st' : MapState}
    (h : seekBlock blocks i n st = .ok st') : st.nextBlockIndex ≤ st'.nextBlockIndex := by
  induction n generalizing st with
  | zero =>
      cases Result.pure_eq_ok.mp h
      exact Nat.le_refl _
  | succ n ih =>
      obtain ⟨firsts, -, h⟩ := Result.bind_eq_ok.mp h
      obtain ⟨block, -, h⟩ := Result.bind_eq_ok.mp h
      split at h
      · cases Result.pure_eq_ok.mp h
        exact Nat.le_refl _
      · exact Nat.le_of_succ_le (ih h)

theorem startBlock_next_le {blocks : List Block} {i : Nat} {st st' : MapState}
    (h : startBlock blocks i st = .ok st') : st.nextBlockIndex ≤ st'.nextBlockIndex := by
  unfold startBlock at h
  split at h
  · obtain ⟨st₁, hseek, h⟩ := Result.bind_eq_ok.mp h
    obtain ⟨_, -, h⟩ := Result.bind_eq_ok.mp h
    cases Result.pure_eq_ok.mp h
    exact seekBlock_next_le hseek
  · cases Result.pure_eq_ok.mp h
    exact Nat.le_refl _

theorem MapState.takeSubStream_next_le (st : MapState) (block : Block) :
    st.nextBlockIndex ≤ (st.takeSubStream block).nextBlockIndex := by
  unfold takeSubStream
  split
  · exact Nat.le_succ _
  · exact Nat.le_refl _

theorem mapFile_between {blocks : List Block} {packSizes : List UInt64} {firstPack : List Nat}
    {i : Nat} {file file' : ArchiveEntry} {x : Option Nat} {st st' : MapState}
    (h : mapFile blocks packSizes firstPack i file st = .ok (x, file', st')) :
    st.nextBlockIndex ≤ st'.nextBlockIndex ∧
      ∀ b ∈ x, st.nextBlockIndex ≤ b ∧ b ≤ st'.nextBlockIndex := by
  unfold mapFile at h
  split at h
  · cases Result.pure_eq_ok.mp h
    exact ⟨Nat.le_refl _, by simp⟩
  · obtain ⟨st₁, hstart, h⟩ := Result.bind_eq_ok.mp h
    have hle := startBlock_next_le hstart
    split at h
    · cases Result.pure_eq_ok.mp h
      simp [hle]
    · obtain ⟨file₁, -, h⟩ := Result.bind_eq_ok.mp h
      obtain ⟨block, -, h⟩ := Result.bind_eq_ok.mp h
      cases Result.pure_eq_ok.mp h
      have htake := st₁.takeSubStream_next_le block
      simp [hle, htake, Nat.le_trans hle htake]

theorem mapFiles_ordered {blocks : List Block} {packSizes : List UInt64} {firstPack : List Nat}
    {i : Nat} {rest : List (Option Nat)} {files files' : List ArchiveEntry} {st st' : MapState}
    (h : mapFiles blocks packSizes firstPack i files st = .ok (rest, files', st')) :
    (∀ x ∈ rest, ∀ b ∈ x, st.nextBlockIndex ≤ b) ∧
      rest.Pairwise fun x y => ∀ b ∈ x, ∀ b' ∈ y, b ≤ b' := by
  induction files generalizing i rest files' st with
  | nil =>
      cases Result.pure_eq_ok.mp h
      exact ⟨by simp, .nil⟩
  | cons file files ih =>
      obtain ⟨⟨x, file₁, st₁⟩, hfile, h⟩ := Result.bind_eq_ok.mp h
      obtain ⟨⟨xs, files₁, st₂⟩, hfiles, h⟩ := Result.bind_eq_ok.mp h
      cases Result.pure_eq_ok.mp h
      obtain ⟨hle, hbetween⟩ := mapFile_between hfile
      obtain ⟨habove, hordered⟩ := ih hfiles
      constructor
      · intro y hy b hb
        rcases List.mem_cons.mp hy with rfl | hy
        · exact (hbetween b hb).1
        · exact Nat.le_trans hle (habove y hy b hb)
      · refine .cons (fun y hy b hb b' hb' => ?_) hordered
        exact Nat.le_trans (hbetween b hb).2 (habove y hy b' hb')

def Archive.InFileOrder (archive : Archive) : Prop :=
  archive.streamMap.fileBlockIndex.Pairwise fun x y => ∀ b ∈ x, ∀ b' ∈ y, b ≤ b'

theorem calculateStreamMap_inFileOrder {archive archive' : Archive}
    (h : calculateStreamMap archive = .ok archive') : archive'.InFileOrder := by
  obtain ⟨firstPack, -, h⟩ := Result.bind_eq_ok.mp h
  obtain ⟨firstSub, -, h⟩ := Result.bind_eq_ok.mp h
  obtain ⟨offsets, -, h⟩ := Result.bind_eq_ok.mp h
  obtain ⟨⟨indices, files, st⟩, hfiles, h⟩ := Result.bind_eq_ok.mp h
  obtain ⟨_, -, h⟩ := Result.bind_eq_ok.mp h
  cases Result.pure_eq_ok.mp h
  exact (mapFiles_ordered hfiles).2

open Result (NoPanic)

theorem noPanic_packStreamIndices (k : Nat) (blocks : List Block) (next : Nat) :
    NoPanic (packStreamIndices k blocks next) := by
  induction blocks generalizing next with
  | nil => exact Result.noPanic_ok _
  | cons block blocks ih =>
      refine (Result.noPanic_okOr _ _).bind fun next' _ => ?_
      refine (Result.noPanic_rejectIf _ _).bind fun _ _ => ?_
      exact (ih next').bind fun _ _ => Result.noPanic_ok _

theorem noPanic_subStreamIndices (blocks : List Block) (next : Nat) :
    NoPanic (subStreamIndices blocks next) := by
  induction blocks generalizing next with
  | nil => exact Result.noPanic_ok _
  | cons block blocks ih =>
      refine (Result.noPanic_okOr _ _).bind fun next' _ => ?_
      exact (ih next').bind fun _ _ => Result.noPanic_ok _

theorem noPanic_packStreamOffsets (sizes : List UInt64) (next : Nat) :
    NoPanic (packStreamOffsets sizes next) := by
  induction sizes generalizing next with
  | nil => exact Result.noPanic_ok _
  | cons size sizes ih =>
      refine (Result.noPanic_okOr _ _).bind fun next' _ => ?_
      exact (ih next').bind fun _ _ => Result.noPanic_ok _

theorem noPanic_seekBlock {blocks : List Block} {i n : Nat} {st : MapState}
    (hn : st.nextBlockIndex + n = blocks.length)
    (hlen : st.blockFirstFileIndex.length = blocks.length) :
    NoPanic (seekBlock blocks i n st) := by
  induction n generalizing st with
  | zero => exact Result.noPanic_ok _
  | succ n ih =>
      have hlt : st.nextBlockIndex < blocks.length := by omega
      unfold seekBlock
      rw [Result.setIndex_of_lt (hlen ▸ hlt), Result.bind_of_ok rfl, Result.index_of_lt hlt,
        Result.bind_of_ok rfl]
      split
      · exact Result.noPanic_ok _
      · exact ih (by dsimp only; omega) (by rw [List.length_set, hlen])

theorem noPanic_startBlock {blocks : List Block} {indices : List (Option Nat)} {st : MapState}
    (hinv : MapInvariant blocks indices st) (hle : st.nextBlockIndex ≤ blocks.length) :
    NoPanic (startBlock blocks indices.length st) := by
  unfold startBlock
  split
  · refine (noPanic_seekBlock (Nat.add_sub_cancel' hle) hinv.length).bind fun st' _ => ?_
    exact (Result.noPanic_rejectIf _ _).bind fun _ _ => Result.noPanic_ok _
  · exact Result.noPanic_ok _

theorem noPanic_setCompressedSize {blocks : List Block} {packSizes : List UInt64}
    {firstPack : List Nat} {indices : List (Option Nat)} {i : Nat} {st : MapState}
    {file : ArchiveEntry} (hspans : MapSpans blocks indices st) (hon : OnBlock blocks indices st)
    (hfirst : firstPack.length = blocks.length) :
    NoPanic (setCompressedSize packSizes firstPack i st file) := by
  unfold setCompressedSize
  refine (Result.noPanic_index.mpr (hspans.length ▸ hon.lt)).bind fun first _ => ?_
  split
  · refine (Result.noPanic_index.mpr (hfirst ▸ hon.lt)).bind fun packIndex _ => ?_
    exact (Result.noPanic_okOr _ _).bind fun _ _ => Result.noPanic_ok _
  · exact Result.noPanic_ok _

theorem noPanic_mapFile {blocks : List Block} {packSizes : List UInt64} {firstPack : List Nat}
    {indices : List (Option Nat)} {file : ArchiveEntry} {st : MapState}
    (hinv : MapInvariant blocks indices st) (hle : st.nextBlockIndex ≤ blocks.length)
    (hfirst : firstPack.length = blocks.length) :
    NoPanic (mapFile blocks packSizes firstPack indices.length file st) := by
  unfold mapFile
  split
  · exact Result.noPanic_ok _
  · refine (noPanic_startBlock hinv hle).bind fun st₁ hstart => ?_
    obtain ⟨hspans, hon, -⟩ := startBlock_eq_ok hstart hinv
    split
    · exact Result.noPanic_ok _
    · refine (noPanic_setCompressedSize hspans hon hfirst).bind fun file' _ => ?_
      exact (Result.noPanic_index.mpr hon.lt).bind fun block _ => Result.noPanic_ok _

theorem mapFile_next_le {blocks : List Block} {packSizes : List UInt64} {firstPack : List Nat}
    {indices : List (Option Nat)} {file file' : ArchiveEntry} {x : Option Nat}
    {st st' : MapState}
    (h : mapFile blocks packSizes firstPack indices.length file st = .ok (x, file', st'))
    (hinv : MapInvariant blocks indices st) (hle : st.nextBlockIndex ≤ blocks.length) :
    st'.nextBlockIndex ≤ blocks.length := by
  unfold mapFile at h
  split at h
  · cases Result.pure_eq_ok.mp h
    exact hle
  · obtain ⟨st₁, hstart, h⟩ := Result.bind_eq_ok.mp h
    have hlt := (startBlock_eq_ok hstart hinv).2.1.lt
    split at h
    · cases Result.pure_eq_ok.mp h
      exact Nat.le_of_lt hlt
    · obtain ⟨file₁, -, h⟩ := Result.bind_eq_ok.mp h
      obtain ⟨block, -, h⟩ := Result.bind_eq_ok.mp h
      cases Result.pure_eq_ok.mp h
      unfold MapState.takeSubStream
      split
      · exact hlt
      · exact Nat.le_of_lt hlt

theorem noPanic_mapFiles {blocks : List Block} {packSizes : List UInt64} {firstPack : List Nat}
    {indices : List (Option Nat)} {files : List ArchiveEntry} {st : MapState}
    (hinv : MapInvariant blocks indices st) (hle : st.nextBlockIndex ≤ blocks.length)
    (hfirst : firstPack.length = blocks.length) :
    NoPanic (mapFiles blocks packSizes firstPack indices.length files st) := by
  induction files generalizing indices st with
  | nil => exact Result.noPanic_ok _
  | cons file files ih =>
      refine (noPanic_mapFile hinv hle hfirst).bind fun ⟨x, file', st'⟩ hfile => ?_
      have hlength : indices.length + 1 = (indices ++ [x]).length := by
        rw [List.length_append, List.length_singleton]
      dsimp only
      rw [hlength]
      refine (ih (mapFile_invariant hfile hinv) (mapFile_next_le hfile hinv hle)).bind ?_
      exact fun _ _ => Result.noPanic_ok _

theorem noPanic_checkFileSpans {numFiles b : Nat} {firsts : List Nat} {blocks : List Block}
    (h : b + blocks.length ≤ firsts.length) : NoPanic (checkFileSpans numFiles firsts b blocks) := by
  induction blocks generalizing b with
  | nil => exact Result.noPanic_ok _
  | cons block blocks ih =>
      rw [List.length_cons] at h
      unfold checkFileSpans
      refine (Result.noPanic_index.mpr (by omega)).bind fun start _ => ?_
      refine (Result.noPanic_okOr _ _).bind fun last _ => ?_
      exact (Result.noPanic_rejectIf _ _).bind fun _ _ => ih (by omega)

/-- Computing a stream map never indexes out of bounds, whatever the header declared. -/
theorem noPanic_calculateStreamMap (archive : Archive) : NoPanic (calculateStreamMap archive) := by
  unfold calculateStreamMap
  refine (noPanic_packStreamIndices _ _ _).bind fun firstPack hpack => ?_
  refine (noPanic_subStreamIndices _ _).bind fun firstSub _ => ?_
  refine (noPanic_packStreamOffsets _ _).bind fun offsets _ => ?_
  have hfirst : firstPack.length = archive.blocks.length := by
    rw [(packStreamIndices_eq_ok hpack (Nat.zero_le _)).1, starts_length, Block.packLens,
      List.length_map]
  have hinit := mapInvariant_init archive.blocks
  refine (noPanic_mapFiles hinit (Nat.zero_le _) hfirst).bind fun ⟨indices, files, st⟩ hfiles => ?_
  have hlen := (mapFiles_invariant hfiles hinit).length
  refine (noPanic_checkFileSpans (by rw [Nat.zero_add]; exact hlen.ge)).bind fun _ _ => ?_
  exact Result.noPanic_ok _

end Sevenz
