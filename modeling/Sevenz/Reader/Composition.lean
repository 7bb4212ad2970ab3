import Sevenz.Header.Accepted
import Sevenz.Header.StartHeader

/-!
# What a decode stack is composed of

The bind pairs of a block say which decoder feeds which.  The builders go by numbers instead:
they take an out-stream's number for its coder's, and the one for chains takes it for an
in-stream's too.  What they build is the composition exactly where these numbers agree.
-/

namespace Sevenz

open Lib Lib.DepthFirst

inductive Port where
  | input (inStream : Nat)
  | output (outStream : Nat)

structure Stage.Decodes (stage : Stage) (block : Block) (o : Nat) : Prop where
  owner : block.coderOfOut[o]? = some stage.coderIndex
  coder : block.coders[stage.coderIndex]? = some stage.coder
  sizeIndex : stage.sizeIndex = o
  uncompressedLen : block.unpackSizes[o]? = some stage.uncompressedLen

inductive Composed (block : Block) (isPackStream : Nat → Decoder → Prop) : Port → Decoder → Prop
  | packed {s k : Nat} {decoder : Decoder} (hpacked : block.packedStreams[k]? = some s)
      (hpack : isPackStream k decoder) : Composed block isPackStream (.input s) decoder
  | bound {s : Nat} {bp : BindPair} {decoder : Decoder} (hbp : bp ∈ block.bindPairs)
      (hin : bp.inIndex = s) (hout : Composed block isPackStream (.output bp.outIndex) decoder) :
      Composed block isPackStream (.input s) decoder
  | coder {o : Nat} {stage : Stage} {input : Decoder} (hstage : stage.Decodes block o)
      (hone : stage.coder.numInStreams = 1)
      (hinput : Composed block isPackStream (.input (block.firstIn stage.coderIndex)) input) :
      Composed block isPackStream (.output o) (.coder stage input)
  | bcj2 {o : Nat} {stage : Stage} {main call jump range : Decoder}
      (hstage : stage.Decodes block o) (hfour : stage.coder.numInStreams = 4)
      (hmain : Composed block isPackStream (.input (block.firstIn stage.coderIndex)) main)
      (hcall : Composed block isPackStream (.input (block.firstIn stage.coderIndex + 1)) call)
      (hjump : Composed block isPackStream (.input (block.firstIn stage.coderIndex + 2)) jump)
      (hrange : Composed block isPackStream (.input (block.firstIn stage.coderIndex + 3)) range) :
      Composed block isPackStream (.output o) (.bcj2 stage main call jump range)

def Archive.IsPackStream (archive : Archive) (blockIndex k : Nat) (decoder : Decoder) : Prop :=
  ∃ first offset size, archive.streamMap.blockFirstPackStreamIndex[blockIndex]? = some first ∧
    archive.streamMap.packStreamOffsets[first + k]? = some offset ∧
    archive.packSizes[first + k]? = some size ∧
    decoder = .pack k (signatureHeaderSize + archive.packPos.toNat + offset) size.toNat

def Archive.Realises (archive : Archive) (blockIndex : Nat) (block : Block) (decoder : Decoder) :
    Prop :=
  ∃ o, block.IsOutput o ∧ Composed block (archive.IsPackStream blockIndex) (.output o) decoder

namespace Block

/-- The coder of the out-stream `o` has an in-stream that is bound to `o'`. -/
def Draws (block : Block) (o o' : Nat) : Prop :=
  ∃ c, block.coderOfOut[o]? = some c ∧
    ∃ bp ∈ block.bindPairs, block.coderOfIn[bp.inIndex]? = some c ∧ bp.outIndex = o'

/-- The out-stream has the number of its coder.  Where the block has no more in-streams than
out-streams, this is also the number of that coder's only in-stream. -/
structure Aligned (block : Block) (o : Nat) : Prop where
  owner : block.coderOfOut[o]? = some o
  chain : block.totalInputStreams ≤ block.totalOutputStreams →
    block.firstIn o = o ∧ ∃ coder, block.coders[o]? = some coder ∧ coder.numInStreams = 1

def AlignedFrom (block : Block) (o : Nat) : Prop :=
  ∀ o', Relation.ReflTransGen block.Draws o o' → block.Aligned o'

/-- Every out-stream the block's output is computed from is aligned. -/
def NumbersAgree (block : Block) : Prop := ∀ o, block.IsOutput o → block.AlignedFrom o

def AlignedBelow (block : Block) (s : Nat) : Prop :=
  ∀ bp ∈ block.bindPairs, bp.inIndex = s → block.AlignedFrom bp.outIndex

end Block

namespace Block.WellBound

variable {block : Block}

theorem not_packed (h : block.WellBound) {bp : BindPair} (hbp : bp ∈ block.bindPairs) :
    bp.inIndex ∉ block.packedStreams := by
  intro hmem
  have hone := h.inOnce bp.inIndex (h.bindRange bp hbp).1
  have hbound := List.count_pos_iff.mpr (List.mem_map_of_mem (f := BindPair.inIndex) hbp)
  have hpacked := List.count_pos_iff.mpr hmem
  omega

theorem inIndex_inj (h : block.WellBound) {bp bp' : BindPair} (hbp : bp ∈ block.bindPairs)
    (hbp' : bp' ∈ block.bindPairs) (heq : bp.inIndex = bp'.inIndex) : bp = bp' :=
  List.inj_on_of_nodup_map h.nodup_inIndex hbp hbp' heq

theorem findBindPairForOutStream_eq (h : block.WellBound) {bp : BindPair}
    (hbp : bp ∈ block.bindPairs) : block.findBindPairForOutStream bp.outIndex = some bp := by
  have hsome : (block.findBindPairForOutStream bp.outIndex).isSome :=
    List.find?_isSome.mpr ⟨bp, hbp, beq_self_eq_true _⟩
  obtain ⟨bp', hbp'⟩ := Option.isSome_iff_exists.mp hsome
  have hmem : bp' ∈ block.bindPairs := List.mem_of_find?_eq_some hbp'
  have heq : bp'.outIndex = bp.outIndex := by simpa using List.find?_some hbp'
  have hnodup := List.nodup_iff_count_le_one.mpr h.outOnce
  rw [hbp', List.inj_on_of_nodup_map hnodup hmem hbp heq]

theorem packed_or_bound (h : block.WellBound) {c k : Nat} {coder : Coder}
    (hc : block.coders[c]? = some coder) (hk : k < coder.numInStreams) :
    block.firstIn c + k ∈ block.packedStreams ∨
      ∃ bp ∈ block.bindPairs, bp.inIndex = block.firstIn c + k := by
  have hone := h.inOnce _ (h.firstIn_add_lt hc hk)
  rcases Nat.eq_zero_or_pos (block.packedStreams.count (block.firstIn c + k)) with hzero | hpos
  · rw [hzero, Nat.add_zero] at hone
    obtain ⟨bp, hbp, hin⟩ := List.mem_map.mp (List.count_pos_iff.mp (hone ▸ Nat.one_pos))
    exact Or.inr ⟨bp, hbp, hin⟩
  · exact Or.inl (List.count_pos_iff.mp hpos)

end Block.WellBound

namespace Block

variable {block : Block}

theorem IsOutput.find_eq_none {o : Nat} (ho : block.IsOutput o) :
    block.findBindPairForOutStream o = none := by
  refine List.find?_eq_none.mpr fun bp hbp => ?_
  simpa using ho.2 bp hbp

theorem draws_iff {o o' c : Nat} {coder : Coder} (ho : block.coderOfOut[o]? = some c)
    (hc : block.coders[c]? = some coder) :
    block.Draws o o' ↔ ∃ k < coder.numInStreams, ∃ bp ∈ block.bindPairs,
      bp.inIndex = block.firstIn c + k ∧ bp.outIndex = o' := by
  have hn : (block.coders.map Coder.numInStreams)[c]? = some coder.numInStreams := by
    rw [List.getElem?_map, hc, Option.map_some]
  constructor
  · rintro ⟨c', hc', bp, hbp, hin, hout⟩
    cases ho.symm.trans hc'
    obtain ⟨-, hle, hlt⟩ := owners_getElem?.mp hin
    rw [offset_succ hn] at hlt
    refine ⟨bp.inIndex - block.firstIn c, ?_, bp, hbp, ?_, hout⟩
    · rw [Block.firstIn]
      omega
    · rw [Block.firstIn]
      omega
  · rintro ⟨k, hk, bp, hbp, hin, hout⟩
    refine ⟨c, ho, bp, hbp, ?_, hout⟩
    rw [hin]
    exact owners_offset_add hn hk

theorem alignedFrom_iff {o : Nat} {coder : Coder} (ho : block.coderOfOut[o]? = some o)
    (hc : block.coders[o]? = some coder) :
    block.AlignedFrom o ↔
      block.Aligned o ∧ ∀ k < coder.numInStreams, block.AlignedBelow (block.firstIn o + k) := by
  constructor
  · intro h
    refine ⟨h o .refl, fun k hk bp hbp hin o' hreach => ?_⟩
    exact h o' (.head ((draws_iff ho hc).mpr ⟨k, hk, bp, hbp, hin, rfl⟩) hreach)
  · rintro ⟨hself, hbelow⟩ o' hreach
    rcases Relation.ReflTransGen.cases_head hreach with rfl | ⟨o₁, hdraws, hreach⟩
    · exact hself
    · obtain ⟨k, hk, bp, hbp, hin, rfl⟩ := (draws_iff ho hc).mp hdraws
      exact hbelow k hk bp hbp hin o' hreach

theorem alignedBelow_of_packed (h : block.WellBound) {s : Nat} (hs : s ∈ block.packedStreams) :
    block.AlignedBelow s := by
  rintro bp hbp rfl
  exact absurd hs (h.not_packed hbp)

theorem alignedBelow_iff (h : block.WellBound) {bp : BindPair} (hbp : bp ∈ block.bindPairs) :
    block.AlignedBelow bp.inIndex ↔ block.AlignedFrom bp.outIndex := by
  constructor
  · exact fun hbelow => hbelow bp hbp rfl
  · rintro hfrom bp' hbp' hin
    rwa [h.inIndex_inj hbp' hbp hin]

end Block

section Composed

variable {block : Block} {isPackStream : Nat → Decoder → Prop}

theorem composed_coder_iff {o : Nat} {stage : Stage} {input : Decoder} :
    Composed block isPackStream (.output o) (.coder stage input) ↔
      stage.Decodes block o ∧ stage.coder.numInStreams = 1 ∧
        Composed block isPackStream (.input (block.firstIn stage.coderIndex)) input := by
  constructor
  · intro h
    cases h with
    | coder hstage hone hinput => exact ⟨hstage, hone, hinput⟩
  · rintro ⟨hstage, hone, hinput⟩
    exact .coder hstage hone hinput

theorem composed_bcj2_iff {o : Nat} {stage : Stage} {main call jump range : Decoder} :
    Composed block isPackStream (.output o) (.bcj2 stage main call jump range) ↔
      stage.Decodes block o ∧ stage.coder.numInStreams = 4 ∧
        Composed block isPackStream (.input (block.firstIn stage.coderIndex)) main ∧
        Composed block isPackStream (.input (block.firstIn stage.coderIndex + 1)) call ∧
        Composed block isPackStream (.input (block.firstIn stage.coderIndex + 2)) jump ∧
        Composed block isPackStream (.input (block.firstIn stage.coderIndex + 3)) range := by
  constructor
  · intro h
    cases h with
    | bcj2 hstage hfour hmain hcall hjump hrange =>
        exact ⟨hstage, hfour, hmain, hcall, hjump, hrange⟩
  · rintro ⟨hstage, hfour, hmain, hcall, hjump, hrange⟩
    exact .bcj2 hstage hfour hmain hcall hjump hrange

/-- Only a packed in-stream is fed by a pack stream, and only a bound one by a decoder. -/
theorem composed_input_iff {s : Nat} {decoder : Decoder} :
    Composed block isPackStream (.input s) decoder ↔
      (∃ k, block.packedStreams[k]? = some s ∧ isPackStream k decoder) ∨
        ∃ bp ∈ block.bindPairs, bp.inIndex = s ∧
          Composed block isPackStream (.output bp.outIndex) decoder := by
  constructor
  · intro h
    cases h with
    | packed hpacked hpack => exact Or.inl ⟨_, hpacked, hpack⟩
    | bound hbp hin hout => exact Or.inr ⟨_, hbp, hin, hout⟩
  · rintro (⟨k, hpacked, hpack⟩ | ⟨bp, hbp, hin, hout⟩)
    · exact .packed hpacked hpack
    · exact .bound hbp hin hout

theorem not_composed_pack {o k start size : Nat} :
    ¬ Composed block isPackStream (.output o) (.pack k start size) := by
  intro h
  cases h

end Composed

theorem Archive.IsPackStream.eq_pack {archive : Archive} {b k : Nat} {decoder : Decoder}
    (h : archive.IsPackStream b k decoder) : ∃ start size, decoder = .pack k start size := by
  obtain ⟨first, offset, size, -, -, -, hdecoder⟩ := h
  exact ⟨_, _, hdecoder⟩

theorem packSources_isPackStream {archive : Archive} {b first startPos n i : Nat}
    {sources : List Decoder} (hfirst : archive.streamMap.blockFirstPackStreamIndex[b]? = some first)
    (hstart : packStart archive = some startPos)
    (hrange : first + (i + n) ≤ archive.streamMap.packStreamOffsets.length)
    (h : packSources archive first startPos n i = .ok sources) {k : Nat} {decoder : Decoder}
    (hk : sources[k]? = some decoder) : archive.IsPackStream b (i + k) decoder := by
  induction n generalizing i k sources with
  | zero =>
      cases Result.pure_eq_ok.mp h
      cases hk
  | succ n ih =>
      obtain ⟨packPos, hpos, h⟩ := Result.bind_eq_ok.mp h
      obtain ⟨packSize, hsize, h⟩ := Result.bind_eq_ok.mp h
      obtain ⟨_, -, h⟩ := Result.bind_eq_ok.mp h
      obtain ⟨rest, hrest, h⟩ := Result.bind_eq_ok.mp h
      cases Result.pure_eq_ok.mp h
      cases k with
      | zero =>
          cases hk
          have hlt : first + i < archive.streamMap.packStreamOffsets.length := by omega
          have hoffset := List.getElem?_eq_getElem hlt
          obtain ⟨-, hstartPos⟩ := checkedAdd_eq_some.mp hstart
          obtain ⟨-, hpackPos⟩ := checkedAdd_eq_some.mp (Result.okOr_eq_ok.mp hpos)
          rw [List.getD_eq_getElem?_getD, hoffset, Option.getD_some, hstartPos] at hpackPos
          rw [hpackPos]
          exact ⟨first, _, packSize, hfirst, hoffset, Result.index_eq_ok.mp hsize, rfl⟩
      | succ k =>
          rw [show i + (k + 1) = i + 1 + k by omega]
          exact ih (by omega) hrest hk

theorem blockOffset_isPackStream {archive : Archive} {b first offset : Nat} {size : UInt64}
    (hfirst : archive.streamMap.blockFirstPackStreamIndex[b]? = some first)
    (hoffset : blockOffset archive first = .ok offset)
    (hsize : archive.packSizes[first]? = some size) :
    archive.IsPackStream b 0 (.pack 0 offset size.toNat) := by
  unfold blockOffset at hoffset
  split at hoffset
  · cases hoffset
  · rename_i start hstart
    obtain ⟨streamOffset, hstream, hoffset⟩ := Result.bind_eq_ok.mp hoffset
    obtain ⟨-, hstart⟩ := checkedAdd_eq_some.mp hstart
    obtain ⟨-, hoffset⟩ := checkedAdd_eq_some.mp (Result.okOr_eq_ok.mp hoffset)
    rw [hoffset, hstart]
    exact ⟨first, streamOffset, size, hfirst, Result.index_eq_ok.mp hstream, hsize, rfl⟩

section Graph

variable {block : Block} {isPackStream : Nat → Decoder → Prop}

theorem getInStream_composed_iff (hbound : block.WellBound) {sources : List Decoder}
    (hsources : ∀ k decoder, sources[k]? = some decoder → isPackStream k decoder)
    {resolve : Nat → Result Decoder}
    (hresolve : ∀ index decoder, resolve index = .ok decoder → ∀ o,
      Composed block isPackStream (.output o) decoder ↔ index = o ∧ block.AlignedFrom o)
    {s : Nat} {decoder : Decoder} (h : getInStream block sources resolve s = .ok decoder) :
    Composed block isPackStream (.input s) decoder ↔ block.AlignedBelow s := by
  unfold getInStream at h
  split at h
  · rename_i k hk
    obtain ⟨hlt, heq, -⟩ := List.idxOf?_eq_some_iff.mp hk
    have hpacked : block.packedStreams[k]? = some s := by
      rw [List.getElem?_eq_getElem hlt, heq]
    exact iff_of_true (.packed hpacked (hsources k decoder (Result.index_eq_ok.mp h)))
      (Block.alignedBelow_of_packed hbound (List.mem_of_getElem? hpacked))
  · rename_i hnone
    obtain ⟨bp, hfind, hresolved⟩ := Result.bind_eq_ok.mp h
    have hfind := Result.okOr_eq_ok.mp hfind
    have hbp : bp ∈ block.bindPairs := List.mem_of_find?_eq_some hfind
    obtain rfl : bp.inIndex = s := by simpa using List.find?_some hfind
    rw [composed_input_iff, Block.alignedBelow_iff hbound hbp]
    constructor
    · rintro (⟨k, hpacked, -⟩ | ⟨bp', hbp', hin, hout⟩)
      · exact absurd (List.mem_of_getElem? hpacked) (hbound.not_packed hbp)
      · rw [hbound.inIndex_inj hbp' hbp hin] at hout
        exact ((hresolve _ _ hresolved _).mp hout).2
    · exact fun hfrom => Or.inr ⟨bp, hbp, rfl, (hresolve _ _ hresolved _).mpr ⟨rfl, hfrom⟩⟩

theorem addDecoder_eq_ok {codecs : Codecs} {input decoder : Decoder} {stage : Stage}
    (h : codecs.addDecoder input stage = .ok decoder) : decoder = .coder stage input := by
  unfold Codecs.addDecoder at h
  split at h
  · cases h
  · exact Result.pure_eq_ok.mp h

theorem decodes_index_iff {index o : Nat} {coder : Coder} {len : UInt64}
    (hcoder : block.coders[index]? = some coder) (hlen : block.unpackSizes[index]? = some len) :
    Stage.Decodes ⟨index, coder, index, len⟩ block o ↔
      index = o ∧ block.coderOfOut[index]? = some index := by
  constructor
  · rintro ⟨howner, -, rfl, -⟩
    exact ⟨rfl, howner⟩
  · rintro ⟨rfl, howner⟩
    exact ⟨howner, hcoder, rfl, hlen⟩

/-- What `get_in_stream2` builds for a number is the composition at an out-stream exactly when
the number is the out-stream's and the numbers below agree. -/
theorem getInStream2_composed_iff (hbound : block.WellBound)
    (hmore : block.totalOutputStreams < block.totalInputStreams) {codecs : Codecs}
    {sources : List Decoder}
    (hsources : ∀ k decoder, sources[k]? = some decoder → isPackStream k decoder)
    {depthLeft index : Nat} {decoder : Decoder}
    (h : getInStream2 codecs block sources depthLeft index = .ok decoder) (o : Nat) :
    Composed block isPackStream (.output o) decoder ↔ index = o ∧ block.AlignedFrom o := by
  induction depthLeft generalizing index decoder o with
  | zero => cases h
  | succ depthLeft ih =>
      have hinput : ∀ s d,
          getInStream block sources (getInStream2 codecs block sources depthLeft) s = .ok d →
            (Composed block isPackStream (.input s) d ↔ block.AlignedBelow s) :=
        fun s d => getInStream_composed_iff hbound hsources fun i d => ih
      have haligned : block.coderOfOut[index]? = some index ↔ block.Aligned index :=
        ⟨fun howner => ⟨howner, fun hle => absurd hmore (Nat.not_lt.mpr hle)⟩, Block.Aligned.owner⟩
      unfold getInStream2 at h
      obtain ⟨coder, hcoder, h⟩ := Result.bind_eq_ok.mp h
      obtain ⟨len, hlen, h⟩ := Result.bind_eq_ok.mp h
      have hcoder := Result.okOr_eq_ok.mp hcoder
      have hlen := Result.okOr_eq_ok.mp hlen
      dsimp only at h
      split at h
      · rename_i hone
        obtain ⟨input, hin, h⟩ := Result.bind_eq_ok.mp h
        rw [addDecoder_eq_ok h, composed_coder_iff, decodes_index_iff hcoder hlen,
          hinput _ _ hin]
        constructor
        · rintro ⟨⟨rfl, howner⟩, -, hbelow⟩
          refine ⟨rfl, (Block.alignedFrom_iff howner hcoder).mpr ⟨haligned.mp howner, ?_⟩⟩
          intro k hk
          obtain rfl : k = 0 := by omega
          exact hbelow
        · rintro ⟨rfl, hfrom⟩
          have howner := (hfrom index .refl).owner
          obtain ⟨-, hbelow⟩ := (Block.alignedFrom_iff howner hcoder).mp hfrom
          exact ⟨⟨rfl, howner⟩, hone, hbelow 0 (by omega)⟩
      · split at h
        · obtain ⟨_, hfour, h⟩ := Result.bind_eq_ok.mp h
          obtain ⟨main, hmain, h⟩ := Result.bind_eq_ok.mp h
          obtain ⟨call, hcall, h⟩ := Result.bind_eq_ok.mp h
          obtain ⟨jump, hjump, h⟩ := Result.bind_eq_ok.mp h
          obtain ⟨range, hrange, h⟩ := Result.bind_eq_ok.mp h
          have hfour : coder.numInStreams = 4 := not_not.mp (Result.rejectIf_eq_ok.mp hfour)
          rw [Result.pure_eq_ok.mp h, composed_bcj2_iff, decodes_index_iff hcoder hlen,
            hinput _ _ hmain, hinput _ _ hcall, hinput _ _ hjump, hinput _ _ hrange]
          constructor
          · rintro ⟨⟨rfl, howner⟩, -, hbelow⟩
            refine ⟨rfl, (Block.alignedFrom_iff howner hcoder).mpr ⟨haligned.mp howner, ?_⟩⟩
            intro k hk
            obtain rfl | rfl | rfl | rfl : k = 0 ∨ k = 1 ∨ k = 2 ∨ k = 3 := by omega
            · exact hbelow.1
            · exact hbelow.2.1
            · exact hbelow.2.2.1
            · exact hbelow.2.2.2
          · rintro ⟨rfl, hfrom⟩
            have howner := (hfrom index .refl).owner
            obtain ⟨-, hbelow⟩ := (Block.alignedFrom_iff howner hcoder).mp hfrom
            exact ⟨⟨rfl, howner⟩, hfour, hbelow 0 (by omega), hbelow 1 (by omega),
              hbelow 2 (by omega), hbelow 3 (by omega)⟩
        · cases h

theorem mainCoderIndex_eq {o : Nat} (hbound : block.WellBound) (ho : block.IsOutput o)
    (howner : block.coderOfOut[o]? = some o) : mainCoderIndex block = o := by
  have hlt : o < block.coders.length := by
    have := (owners_getElem?.mp howner).1
    rwa [List.length_map] at this
  have hfree : ((List.range block.coders.length).find? fun i =>
      (block.findBindPairForOutStream i).isNone) = some o := by
    rw [List.find?_range_eq_some]
    refine ⟨?_, List.mem_range.mpr hlt, fun i hi => ?_⟩
    · rw [ho.find_eq_none]
      rfl
    · rw [Bool.not_eq_true', Option.isNone_eq_false_iff, Option.isSome_iff_ne_none]
      intro hnone
      have hi' : block.IsOutput i := by
        refine ⟨Nat.lt_trans hi ho.1, fun bp hbp => ?_⟩
        simpa using List.find?_eq_none.mp hnone bp hbp
      exact absurd (hbound.output.unique hi' ho) (Nat.ne_of_lt hi)
  rw [mainCoderIndex, hfree, Option.getD_some]

theorem addChain_cons_eq_ok {codecs : Codecs} {unsupported : Error} {i : Nat} {coder : Coder}
    {chain : List (Nat × Coder)} {below decoder : Decoder}
    (h : addChain codecs block unsupported ((i, coder) :: chain) below = .ok decoder) :
    coder.numInStreams = 1 ∧
      addChain codecs block unsupported chain
        (.coder ⟨i, coder, i, block.getUnpackSizeAtIndex i⟩ below) = .ok decoder := by
  obtain ⟨_, hone, h⟩ := Result.bind_eq_ok.mp h
  obtain ⟨next, hnext, h⟩ := Result.bind_eq_ok.mp h
  rw [addDecoder_eq_ok hnext] at h
  exact ⟨not_not.mp (not_or.mp (Result.rejectIf_eq_ok.mp hone)).1, h⟩

/-- Each coder put on a chain leaves it so: what it composes is aligned, and only the
in-stream the chain goes on with can be fed by it. -/
theorem addChain_alignedFrom (hbound : block.WellBound)
    (hpack : ∀ k decoder, isPackStream k decoder → ∃ start size, decoder = .pack k start size)
    {codecs : Codecs} {unsupported : Error} {remaining : Nat} {current : Option Nat}
    {below decoder : Decoder}
    (hfed : ∀ s, Composed block isPackStream (.input s) below →
      current = some s ∧ block.AlignedBelow s)
    (hfrom : ∀ o, Composed block isPackStream (.output o) below → block.AlignedFrom o)
    (h : addChain codecs block unsupported (orderedCoders block remaining current) below =
      .ok decoder) :
    ∀ o, Composed block isPackStream (.output o) decoder → block.AlignedFrom o := by
  induction remaining generalizing current below with
  | zero =>
      rw [orderedCoders] at h
      rwa [Result.pure_eq_ok.mp h]
  | succ remaining ih =>
      cases current with
      | none =>
          rw [orderedCoders_none] at h
          rwa [Result.pure_eq_ok.mp h]
      | some i =>
          rw [orderedCoders] at h
          split at h
          · rwa [Result.pure_eq_ok.mp h]
          rename_i coder hcoder
          obtain ⟨hone, h⟩ := addChain_cons_eq_ok h
          have hfrom' : ∀ o, Composed block isPackStream (.output o)
              (.coder ⟨i, coder, i, block.getUnpackSizeAtIndex i⟩ below) →
                i = o ∧ block.AlignedFrom o := by
            intro o hcomposed
            obtain ⟨hstage, -, hinput⟩ := composed_coder_iff.mp hcomposed
            obtain rfl : i = o := hstage.sizeIndex
            obtain ⟨hcurrent, hbelow⟩ := hfed _ hinput
            have hfirst : block.firstIn i = i := (Option.some.inj hcurrent).symm
            refine ⟨rfl, (Block.alignedFrom_iff hstage.owner hcoder).mpr ⟨?_, fun k hk => ?_⟩⟩
            · exact ⟨hstage.owner, fun _ => ⟨hfirst, coder, hcoder, hone⟩⟩
            · obtain rfl : k = 0 := by omega
              exact hbelow
          refine ih (fun s hcomposed => ?_) (fun o hcomposed => (hfrom' o hcomposed).2) h
          rcases composed_input_iff.mp hcomposed with ⟨k, -, hp⟩ | ⟨bp, hbp, rfl, hout⟩
          · obtain ⟨start, size, heq⟩ := hpack k _ hp
            cases heq
          · obtain ⟨rfl, hbelow⟩ := hfrom' _ hout
            refine ⟨?_, (Block.alignedBelow_iff hbound hbp).mpr hbelow⟩
            rw [hbound.findBindPairForOutStream_eq hbp, Option.map_some]

/-- An out-stream of a chain draws on the out-stream its only in-stream is bound to. -/
theorem Block.Aligned.draws_iff {o o' : Nat} (h : block.Aligned o)
    (hle : block.totalInputStreams ≤ block.totalOutputStreams) :
    block.Draws o o' ↔ ∃ bp ∈ block.bindPairs, bp.inIndex = o ∧ bp.outIndex = o' := by
  obtain ⟨hfirst, coder, hcoder, hone⟩ := h.chain hle
  rw [Block.draws_iff h.owner hcoder, hfirst, hone]
  constructor
  · rintro ⟨k, hk, bp, hbp, hin, hout⟩
    obtain rfl : k = 0 := by omega
    exact ⟨bp, hbp, hin, hout⟩
  · rintro ⟨bp, hbp, hin, hout⟩
    exact ⟨0, Nat.one_pos, bp, hbp, hin, hout⟩

theorem Block.Aligned.depends {o o' : Nat} (h : block.Aligned o) (h' : block.Aligned o')
    (hdraws : block.Draws o o') : block.Depends o o' := by
  obtain ⟨c, hc, bp, hbp, hin, rfl⟩ := hdraws
  cases h.owner.symm.trans hc
  exact ⟨bp, hbp, hin, h'.owner⟩

theorem Block.AlignedFrom.step {o o' : Nat} (h : block.AlignedFrom o) (hdraws : block.Draws o o') :
    block.AlignedFrom o' :=
  fun p hreach => h p (.head hdraws hreach)

theorem path_length_le {root : Nat} {path : List Nat}
    (hacc : Acc (Function.swap block.Depends) root) (haligned : ∀ o ∈ path, block.Aligned o)
    (hpath : path.IsChain (Function.swap block.Draws)) (hlast : path.getLast? = some root) :
    path.length ≤ block.coders.length := by
  have hdepends : path.IsChain (Function.swap block.Depends) :=
    List.IsChain.imp_of_mem_imp
      (fun a b ha hb hdraws => (haligned b hb).depends (haligned a ha) hdraws) hpath
  have hnodup : path.Nodup := by
    refine nodup_of_isChain hdepends fun a ha => not_transGen_of_acc ?_
    refine hdepends.backwards_induction (Acc (Function.swap block.Depends)) path
      (fun a b hab hb => hb.inv hab) (fun hne => ?_) a ha
    rw [List.getLast?_eq_some_getLast hne] at hlast
    rwa [Option.some.inj hlast]
  have hsubset : path ⊆ List.range block.coders.length := by
    intro o ho
    have := (owners_getElem?.mp (haligned o ho).owner).1
    rw [List.length_map] at this
    exact List.mem_range.mpr this
  simpa using (List.subperm_of_subset hnodup hsubset).length_le

/-- Going down from an out-stream whose numbers agree leads to the one packed stream. -/
theorem exists_path (hbound : block.WellBound)
    (hle : block.totalInputStreams ≤ block.totalOutputStreams)
    (hpacked : block.packedStreams.length ≤ 1) {o : Nat}
    (hacc : Acc (Function.swap block.Depends) o) (hfrom : block.AlignedFrom o) {path : List Nat}
    (hpath : (o :: path).IsChain (Function.swap block.Draws)) :
    ∃ i rest, block.packedStreams.head? = some i ∧
      (i :: rest).IsChain (Function.swap block.Draws) ∧
      (i :: rest).getLast? = (o :: path).getLast? := by
  induction hacc generalizing path with
  | intro o _ ih =>
      have haligned := hfrom o .refl
      obtain ⟨hfirst, coder, hcoder, hone⟩ := haligned.chain hle
      rcases hbound.packed_or_bound hcoder (show 0 < coder.numInStreams by omega) with
        hmem | ⟨bp, hbp, hin⟩
      · rw [hfirst, Nat.add_zero] at hmem
        refine ⟨o, path, ?_, hpath, rfl⟩
        obtain ⟨k, hlt, heq⟩ := List.getElem_of_mem hmem
        obtain rfl : k = 0 := by omega
        rw [List.head?_eq_getElem?, List.getElem?_eq_getElem hlt, heq]
      · rw [hfirst, Nat.add_zero] at hin
        have hdraws := (haligned.draws_iff hle).mpr ⟨bp, hbp, hin, rfl⟩
        have hfrom' := hfrom.step hdraws
        obtain ⟨i, rest, hhead, hchain, hlast⟩ :=
          ih bp.outIndex (haligned.depends (hfrom' _ .refl) hdraws) hfrom'
            (List.isChain_cons_cons.mpr ⟨hdraws, hpath⟩)
        exact ⟨i, rest, hhead, hchain, by rw [hlast, List.getLast?_cons_cons]⟩

theorem Block.Aligned.composed {i : Nat} (h : block.Aligned i) (hbound : block.WellBound)
    (hle : block.totalInputStreams ≤ block.totalOutputStreams)
    (hsizes : block.unpackSizes.length = block.totalOutputStreams) {below : Decoder}
    (hfed : Composed block isPackStream (.input i) below) :
    ∃ coder, block.coders[i]? = some coder ∧
      Composed block isPackStream (.output i)
        (.coder ⟨i, coder, i, block.getUnpackSizeAtIndex i⟩ below) := by
  obtain ⟨hfirst, coder, hcoder, hone⟩ := h.chain hle
  have hlt : i < block.unpackSizes.length := by
    rw [hsizes, hbound.totalOut, ← owners_length]
    exact (List.getElem?_eq_some_iff.mp h.owner).1
  have hlen : block.unpackSizes[i]? = some (block.getUnpackSizeAtIndex i) := by
    rw [Block.getUnpackSizeAtIndex, List.getD_eq_getElem?_getD, List.getElem?_eq_getElem hlt,
      Option.getD_some]
  refine ⟨coder, hcoder, .coder ⟨h.owner, hcoder, rfl, hlen⟩ hone ?_⟩
  rwa [hfirst]

theorem addChain_composed (hbound : block.WellBound)
    (hle : block.totalInputStreams ≤ block.totalOutputStreams)
    (hsizes : block.unpackSizes.length = block.totalOutputStreams) {codecs : Codecs}
    {unsupported : Error} {root : Nat} (hroot : block.IsOutput root) {i remaining : Nat}
    {rest : List Nat} (haligned : ∀ o ∈ i :: rest, block.Aligned o)
    (hpath : (i :: rest).IsChain (Function.swap block.Draws))
    (hlast : (i :: rest).getLast? = some root) (hlen : (i :: rest).length ≤ remaining)
    {below decoder : Decoder} (hfed : Composed block isPackStream (.input i) below)
    (h : addChain codecs block unsupported (orderedCoders block remaining (some i)) below =
      .ok decoder) :
    Composed block isPackStream (.output root) decoder := by
  induction rest generalizing i remaining below with
  | nil =>
      obtain ⟨remaining, rfl⟩ := Nat.exists_eq_add_of_lt hlen
      obtain rfl : i = root := Option.some.inj hlast
      obtain ⟨coder, hcoder, hcomposed⟩ :=
        (haligned i List.mem_cons_self).composed hbound hle hsizes hfed
      rw [orderedCoders, hcoder] at h
      have h := (addChain_cons_eq_ok h).2
      rw [hroot.find_eq_none, Option.map_none, orderedCoders_none] at h
      rwa [Result.pure_eq_ok.mp h]
  | cons o rest ih =>
      obtain ⟨remaining, rfl⟩ := Nat.exists_eq_add_of_lt hlen
      obtain ⟨hdraws, hrest⟩ := List.isChain_cons_cons.mp hpath
      have ho : block.Aligned o := haligned o (List.mem_cons_of_mem i List.mem_cons_self)
      obtain ⟨bp, hbp, rfl, rfl⟩ := (ho.draws_iff hle).mp hdraws
      obtain ⟨coder, hcoder, hcomposed⟩ :=
        (haligned _ List.mem_cons_self).composed hbound hle hsizes hfed
      rw [orderedCoders, hcoder] at h
      have h := (addChain_cons_eq_ok h).2
      rw [hbound.findBindPairForOutStream_eq hbp, Option.map_some] at h
      refine ih (fun o ho => haligned o (List.mem_cons_of_mem _ ho)) hrest ?_ ?_
        (.bound hbp rfl hcomposed) h
      · rw [← hlast, List.getLast?_cons_cons]
      · rw [List.length_cons] at hlen ⊢
        omega

end Graph

theorem Block.Parsed.feeds_acc {block : Block} (h : block.Parsed) {c : Nat} (hc : block.Feeds c) :
    Acc (Function.swap block.Depends) c := by
  obtain ⟨bounds, s, s', b, hread, hsame⟩ := h.accepted
  rw [hsame] at hc ⊢
  exact readBlock_feeds_acc hread hc

theorem Block.Parsed.packedStreams_length {block : Block} (h : block.Parsed) :
    block.packedStreams.length = block.totalInputStreams - (block.totalOutputStreams - 1) := by
  obtain ⟨bounds, s, s', b, hread, hsame⟩ := h.accepted
  rw [hsame]
  exact (readBlock_packedStreams_length hread : b.packedStreams.length = _)

theorem buildDecodeStack2_realises_iff {codecs : Codecs} {archive : Archive} {b : Nat}
    {block : Block} {stack : DecodeStack} (hb : archive.blocks[b]? = some block)
    (hparsed : block.Parsed) (hmore : block.totalOutputStreams < block.totalInputStreams)
    (h : buildDecodeStack2 codecs archive b = .ok stack) :
    archive.Realises b block stack.decoder ↔ block.NumbersAgree := by
  obtain ⟨block', hblock, h⟩ := Result.bind_eq_ok.mp h
  cases hb.symm.trans (Result.index_eq_ok.mp hblock)
  obtain ⟨_, -, h⟩ := Result.bind_eq_ok.mp h
  obtain ⟨first, hfirst, h⟩ := Result.bind_eq_ok.mp h
  obtain ⟨startPos, hstart, h⟩ := Result.bind_eq_ok.mp h
  obtain ⟨_, hslice, h⟩ := Result.bind_eq_ok.mp h
  obtain ⟨sources, hsources, h⟩ := Result.bind_eq_ok.mp h
  obtain ⟨_, -, h⟩ := Result.bind_eq_ok.mp h
  obtain ⟨decoder, hdecoder, h⟩ := Result.bind_eq_ok.mp h
  obtain ⟨check, -, h⟩ := Result.bind_eq_ok.mp h
  obtain ⟨packSize, -, h⟩ := Result.bind_eq_ok.mp h
  cases Result.pure_eq_ok.mp h
  have hbound := hparsed.wellBound
  have hpacks : ∀ k d, sources[k]? = some d → archive.IsPackStream b k d := by
    intro k d hk
    rw [← Nat.zero_add k]
    refine packSources_isPackStream (Result.index_eq_ok.mp hfirst) (Result.okOr_eq_ok.mp hstart)
      ?_ hsources hk
    rw [Nat.zero_add]
    exact Result.sliceCheck_eq_ok.mp hslice
  have hiff := getInStream2_composed_iff hbound hmore hpacks hdecoder
  constructor
  · rintro ⟨o, ho, hcomposed⟩ o' ho'
    rw [hbound.output.unique ho' ho]
    exact ((hiff o).mp hcomposed).2
  · intro hagree
    obtain ⟨o, ho, -⟩ := hbound.output
    have hfrom := hagree o ho
    exact ⟨o, ho, (hiff o).mpr ⟨mainCoderIndex_eq hbound ho (hfrom o .refl).owner, hfrom⟩⟩

theorem addChain_realises_iff {codecs : Codecs} {archive : Archive} {b offset : Nat}
    {size : UInt64} {block : Block} {unsupported : Error} {decoder : Decoder}
    (hparsed : block.Parsed) (hle : block.totalInputStreams ≤ block.totalOutputStreams)
    (hpack : archive.IsPackStream b 0 (.pack 0 offset size.toNat))
    (h : addChain codecs block unsupported block.orderedCoderIter (.pack 0 offset size.toNat) =
      .ok decoder) :
    archive.Realises b block decoder ↔ block.NumbersAgree := by
  have hbound := hparsed.wellBound
  have hpacked : block.packedStreams.length ≤ 1 := by
    rw [hparsed.packedStreams_length]
    omega
  constructor
  · rintro ⟨o, ho, hcomposed⟩ o' ho'
    rw [hbound.output.unique ho' ho]
    refine addChain_alignedFrom hbound (fun k d => Archive.IsPackStream.eq_pack) ?_ ?_ h o hcomposed
    · intro s hs
      rcases composed_input_iff.mp hs with ⟨k, hk, -⟩ | ⟨bp, -, -, hout⟩
      · have hlt := (List.getElem?_eq_some_iff.mp hk).1
        obtain rfl : k = 0 := by omega
        rw [List.head?_eq_getElem?]
        exact ⟨hk, Block.alignedBelow_of_packed hbound (List.mem_of_getElem? hk)⟩
      · exact absurd hout not_composed_pack
    · exact fun o hout => absurd hout not_composed_pack
  · intro hagree
    obtain ⟨o, ho, -⟩ := hbound.output
    have hfrom := hagree o ho
    have hfeeds : block.Feeds o := ⟨o, o, ho, (hfrom o .refl).owner, .refl⟩
    have hacc := hparsed.feeds_acc hfeeds
    obtain ⟨i, rest, hhead, hpath, hlast⟩ :=
      exists_path hbound hle hpacked hacc hfrom (List.isChain_singleton o)
    have haligned : ∀ p ∈ i :: rest, block.AlignedFrom p := by
      refine hpath.backwards_induction block.AlignedFrom _ (fun a b hab hb => hb.step hab)
        fun hne => ?_
      rw [List.getLast?_eq_some_getLast hne] at hlast
      rwa [Option.some.inj hlast]
    have hself : ∀ p ∈ i :: rest, block.Aligned p := fun p hp => haligned p hp p .refl
    have hfed : block.packedStreams[0]? = some i := by rw [← List.head?_eq_getElem?, hhead]
    rw [Block.orderedCoderIter, hhead] at h
    exact ⟨o, ho, addChain_composed hbound hle hparsed.sizes ho hself hpath hlast
      (path_length_le hacc hself hpath hlast) (.packed hfed hpack) h⟩

/-- The decode stack of an accepted block is the composition its bind pairs describe exactly
where the numbers of the block's streams agree. -/
theorem buildDecodeStack_realises_iff {codecs : Codecs} {limits : ArchiveLimits}
    {archive : Archive} {b : Nat} {block : Block} {stack : DecodeStack}
    (hb : archive.blocks[b]? = some block) (hparsed : block.Parsed)
    (h : buildDecodeStack codecs limits archive b = .ok stack) :
    archive.Realises b block stack.decoder ↔ block.NumbersAgree := by
  obtain ⟨block', hblock, h⟩ := Result.bind_eq_ok.mp h
  cases hb.symm.trans (Result.index_eq_ok.mp hblock)
  obtain ⟨_, -, h⟩ := Result.bind_eq_ok.mp h
  split at h
  · rename_i hmore
    exact buildDecodeStack2_realises_iff hb hparsed hmore h
  · rename_i hle
    obtain ⟨first, hfirst, h⟩ := Result.bind_eq_ok.mp h
    obtain ⟨offset, hoffset, h⟩ := Result.bind_eq_ok.mp h
    obtain ⟨crc, -, h⟩ := Result.bind_eq_ok.mp h
    obtain ⟨_, -, h⟩ := Result.bind_eq_ok.mp h
    obtain ⟨packSize, hsize, h⟩ := Result.bind_eq_ok.mp h
    obtain ⟨decoder, hdecoder, h⟩ := Result.bind_eq_ok.mp h
    obtain ⟨check, -, h⟩ := Result.bind_eq_ok.mp h
    cases Result.pure_eq_ok.mp h
    exact addChain_realises_iff hparsed (Nat.le_of_not_lt hle)
      (blockOffset_isPackStream (Result.index_eq_ok.mp hfirst) hoffset (Result.index_eq_ok.mp hsize))
      hdecoder

/-- A block whose second coder mixes both outputs of the first with two pack streams.  Its own
output is the third of the block. -/
def twoOutputsFile : List UInt8 :=
  archiveFile crc32 [1, 2, 3]
    [kHeader, kMainStreamsInfo,
      kPackInfo, 0, 3, kSize, 1, 1, 1, kEnd,
      kUnpackInfo, kFolder, 1, 0,
        2, 0x11, 0, 1, 2, 0x14, 0x03, 0x03, 0x01, 0x1B, 4, 1,
        1, 0, 2, 1, 0, 3, 4,
        kCodersUnpackSize, 1, 1, 5, kEnd,
      kEnd, kEnd]

def DecodeStack.ofBoundOutput (stack : DecodeStack) (block : Block) : Bool :=
  match stack.decoder with
  | .coder stage _ => block.bindPairs.any fun bp => bp.outIndex == stage.sizeIndex
  | _ => false

theorem twoOutputsFile_accepted : ∃ archive block stack,
    readWithLimits (.copying twoOutputsFile) {} false twoOutputsFile = .ok archive ∧
      archive.blocks[0]? = some block ∧
      buildDecodeStack (.copying twoOutputsFile) {} archive 0 = .ok stack ∧
      stack.ofBoundOutput block = true := by
  obtain ⟨archive, hread, hcheck⟩ := Result.exists_of_holds
    (show (readWithLimits (.copying twoOutputsFile) {} false twoOutputsFile).holds
      (fun archive => archive.blocks[0]?.any fun block =>
        (buildDecodeStack (.copying twoOutputsFile) {} archive 0).holds fun stack =>
          stack.ofBoundOutput block) = true by decide +kernel)
  obtain ⟨block, hblock, hcheck⟩ := (Option.any_eq_true _ _).mp hcheck
  obtain ⟨stack, hstack, hbound⟩ := Result.exists_of_holds hcheck
  exact ⟨archive, block, stack, hread, hblock, hstack, hbound⟩

theorem twoOutputsFile_realises_iff : ∃ archive block stack,
    readWithLimits (.copying twoOutputsFile) {} false twoOutputsFile = .ok archive ∧
      archive.blocks[0]? = some block ∧
      buildDecodeStack (.copying twoOutputsFile) {} archive 0 = .ok stack ∧
      (archive.Realises 0 block stack.decoder ↔ block.NumbersAgree) := by
  obtain ⟨archive, block, stack, hread, hblock, hstack, -⟩ := twoOutputsFile_accepted
  have hparsed := (readWithLimits_described hread).parsed.blocks block
    (List.mem_of_getElem? hblock)
  exact ⟨archive, block, stack, hread, hblock, hstack,
    buildDecodeStack_realises_iff hblock hparsed hstack⟩

/-- It is decoded by its first coder alone, which is not where its output comes from. -/
theorem twoOutputsFile_not_realised : ∃ archive block stack,
    readWithLimits (.copying twoOutputsFile) {} false twoOutputsFile = .ok archive ∧
      archive.blocks[0]? = some block ∧
      buildDecodeStack (.copying twoOutputsFile) {} archive 0 = .ok stack ∧
      ¬ archive.Realises 0 block stack.decoder := by
  obtain ⟨archive, block, stack, hread, hblock, hstack, hbound⟩ := twoOutputsFile_accepted
  refine ⟨archive, block, stack, hread, hblock, hstack, ?_⟩
  rintro ⟨o, ho, hcomposed⟩
  unfold DecodeStack.ofBoundOutput at hbound
  split at hbound
  · rename_i stage input hdecoder
    rw [hdecoder] at hcomposed
    obtain ⟨bp, hbp, hout⟩ := List.any_eq_true.mp hbound
    have hsize := (composed_coder_iff.mp hcomposed).1.sizeIndex
    exact ho.2 bp hbp (by rw [← hsize]; simpa using hout)
  · cases hbound

end Sevenz
