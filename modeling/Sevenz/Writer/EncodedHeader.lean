import Sevenz.Lib.Decompressor
import Sevenz.Writer.DecodedChain
import Sevenz.Writer.SubStreams

/-!
# The encoded header

The end header of `write_encoded_header` against `read_encoded_header`: a pack stream, a block of
one chain over it, and the header inside.
-/

namespace Sevenz

open Lib Lib.Parser

def PackInfo.CrcsAlike (info : PackInfo) : Prop :=
  (∀ crc ∈ info.crcs, crc ≠ 0) ∨ ∀ crc ∈ info.crcs, crc = 0

theorem decodes_packInfo {bounds : HeaderBounds} {info : PackInfo} (hpos : 0 < info.len)
    (hcrcs : info.CrcsAlike) (hbytes : info.len ≤ bounds.bytes)
    (hentries : info.len ≤ bounds.limits.maxEntries.toNat) :
    ∃ archive : Archive, archive.packPos = info.pos ∧ archive.packSizes = info.sizes ∧
      archive.blocks = [] ∧ Decodes (readPackInfo bounds {}) info.writeBody archive := by
  have hlen := info.len_eq_length_crcs
  rcases hcrcs with hall | hnone
  · have hread := decodes_readPackCrcs_all { packPos := info.pos, packSizes := info.sizes } kEnd
      hall
    rw [← hlen] at hread
    exact ⟨_, rfl, rfl, rfl, decodes_readPackInfo hbytes hentries hread⟩
  · have hne : info.crcs ≠ [] := List.ne_nil_of_length_pos (hlen ▸ hpos)
    have hread := decodes_readPackCrcs_none { packPos := info.pos, packSizes := info.sizes } kEnd
      hne hnone
    rw [← hlen] at hread
    exact ⟨_, rfl, rfl, rfl, decodes_readPackInfo hbytes hentries hread⟩

theorem readSubStreamsInfo_packs {bounds : HeaderBounds} {archive result : Archive}
    {bs rest : List UInt8} (h : readSubStreamsInfo bounds archive bs = .ok (result, rest)) :
    result.packPos = archive.packPos ∧ result.packSizes = archive.packSizes := by
  obtain ⟨counts, s₁, -, h⟩ := bind_eq_ok.mp h
  obtain ⟨sizes, s₂, -, h⟩ := bind_eq_ok.mp h
  obtain ⟨nid, s₃, -, h⟩ := bind_eq_ok.mp h
  obtain ⟨numDigests, -, h⟩ := lift_bind_eq_ok.mp h
  obtain ⟨⟨info, nid'⟩, s₄, -, h⟩ := bind_eq_ok.mp h
  obtain ⟨_, -, h⟩ := lift_bind_eq_ok.mp h
  cases pure_eq_ok.mp h
  exact ⟨rfl, rfl⟩

theorem optionalSection_decodes {expected : UInt8} {archive result : Archive}
    {read : Archive → HeaderReader Archive} {absent : Archive → Archive} {bs : List UInt8}
    (hread : Decodes (read archive) bs result) (next : UInt8) :
    Decodes (optionalSection expected expected archive read absent) (bs ++ [next])
      (result, next) := by
  rw [optionalSection, if_pos rfl]
  exact hread.bind ((decodes_readU8 next).bind_pure _)

/-- What the streams sections of a writer are read back into: its pack streams, and its blocks with
their sub-streams. -/
structure ReadsStreams (versions : CodecVersions) (packInfo : PackInfo) (unpackInfo : UnpackInfo)
    (streams : List (List SubStream)) (archive : Archive) : Prop where
  packPos : archive.packPos = packInfo.pos
  packSizes : archive.packSizes = packInfo.sizes
  blocks : archive.blocks =
    List.zipWith withCount (unpackInfo.blocks.map (BlockInfo.block versions)) streams
  subStreamsInfo : ∃ info, archive.subStreamsInfo = some info ∧ info.Lists streams.flatten

theorem decodes_readStreamsInfo (versions : CodecVersions) {bounds : HeaderBounds}
    {packInfo : PackInfo} {unpackInfo : UnpackInfo} {streams : List (List SubStream)}
    (hpos : 0 < packInfo.len) (hcrcs : packInfo.CrcsAlike)
    (hpacks : packInfo.len ≤ unpackInfo.blocks.length)
    (hne : ∀ block ∈ unpackInfo.blocks, block.methods ≠ [])
    (hsizes : ∀ block ∈ unpackInfo.blocks, block.sizes.length = block.methods.length)
    (hadded : List.Forall₂ BlockInfo.Added unpackInfo.blocks streams)
    (hwithin : unpackInfo.WithinLimits bounds.limits)
    (hentries : unpackInfo.needsNumUnpackStream = true →
      streams.flatten.length ≤ bounds.limits.maxEntries.toNat)
    (hbytes : (packInfo.writeTo ++ (unpackInfo.writeTo versions ++
      (unpackInfo.writeSubstreams ++ [kEnd]))).length ≤ bounds.bytes)
    (hmachine : bounds.bytes < 2 ^ 64) :
    ∃ archive, ReadsStreams versions packInfo unpackInfo streams archive ∧
      Decodes (readStreamsInfo bounds {}) (packInfo.writeTo ++ (unpackInfo.writeTo versions ++
        (unpackInfo.writeSubstreams ++ [kEnd]))) archive := by
  have hlength : (unpackInfo.writeBody versions).length +
      unpackInfo.writeSubstreamsBody.length ≤ bounds.bytes := by
    simp only [PackInfo.writeTo, UnpackInfo.writeTo, UnpackInfo.writeSubstreams,
      List.length_append, List.length_cons] at hbytes
    omega
  have hcount := length_le_flatMap_writeTo versions unpackInfo.blocks
  have hrecords := unpackInfo.flatMap_writeTo_le versions
  have hblocks := hwithin.blocks
  obtain ⟨archive, hpackPos, hpackSizes, hempty, hpack⟩ :=
    @decodes_packInfo bounds packInfo hpos hcrcs (by omega) (by omega)
  have hunpack : Decodes (readUnpackInfo bounds archive) (unpackInfo.writeBody versions)
      { archive with blocks := unpackInfo.blocks.map (BlockInfo.block versions) } :=
    decodes_readUnpackInfo versions hne hsizes hempty (by omega) hmachine hwithin
  have hsame : List.Forall₂ SameBlock (unpackInfo.blocks.map (BlockInfo.block versions))
      unpackInfo.blocks := by
    rw [List.forall₂_map_left_iff, List.forall₂_same]
    intro block hblock
    exact ⟨rfl, (BlockInfo.readAs_block versions (hne block hblock)
      (hsizes block hblock)).unpackSize⟩
  have hflatten := flatten_length_le hadded
  obtain ⟨result, ⟨hresult, hlists⟩, hsub⟩ := @decodes_readSubStreamsInfo bounds
    { archive with blocks := unpackInfo.blocks.map (BlockInfo.block versions) }
    unpackInfo _ hadded hsame (by omega) hmachine hentries
  obtain ⟨hresultPos, hresultSizes⟩ := readSubStreamsInfo_packs (hsub [])
  refine ⟨result, ⟨hresultPos.trans hpackPos, hresultSizes.trans hpackSizes, hresult, hlists⟩, ?_⟩
  have hshape : packInfo.writeTo ++ (unpackInfo.writeTo versions ++
      (unpackInfo.writeSubstreams ++ [kEnd])) =
      [kPackInfo] ++ ((packInfo.writeBody ++ [kUnpackInfo]) ++
        ((unpackInfo.writeBody versions ++ [kSubStreamsInfo]) ++
          ((unpackInfo.writeSubstreamsBody ++ [kEnd]) ++ []))) := by
    simp [PackInfo.writeTo, UnpackInfo.writeTo, UnpackInfo.writeSubstreams]
  rw [hshape]
  apply (decodes_readU8 kPackInfo).bind
  apply (optionalSection_decodes hpack kUnpackInfo).bind
  apply (optionalSection_decodes hunpack kSubStreamsInfo).bind
  apply (optionalSection_decodes hsub kEnd).bind
  exact (Decodes.lift ((Result.rejectIf_eq_ok (u := ())).mpr (not_not.mpr rfl))).bind_nil
    (Decodes.pure _)

structure EncodedStreams where
  pos : UInt64
  packSize : UInt64
  packCrc : UInt32
  methods : List EncoderConfiguration
  sizes : List UInt64
  crc : UInt32

namespace EncodedStreams

variable (versions : CodecVersions) (streams : EncodedStreams)

def packInfo : PackInfo :=
  ({ pos := streams.pos, length_crcs := PackInfo.crcs_nil } : PackInfo).addStream
    streams.packSize streams.packCrc

def unpackInfo : UnpackInfo := ({} : UnpackInfo).add streams.methods streams.sizes streams.crc

def bytes : List UInt8 :=
  streams.packInfo.writeTo ++
    (streams.unpackInfo.writeTo versions ++ (streams.unpackInfo.writeSubstreams ++ [kEnd]))

def block : Block :=
  { Block.chain (streams.methods.map (EncoderConfiguration.coder versions)) streams.sizes with
    numUnpackSubStreams := 1 }

variable {versions streams}

variable (versions) in
theorem decodes_bytes {bounds : HeaderBounds} (hne : streams.methods ≠ [])
    (hsizes : streams.sizes.length = streams.methods.length)
    (hallows : bounds.limits.AllowsChain streams.methods.length)
    (htotal : streams.methods.length ≤ bounds.limits.maxTotalCoders.toNat)
    (hbytes : (streams.bytes versions).length ≤ bounds.bytes) (hmachine : bounds.bytes < 2 ^ 64) :
    ∃ archive : Archive, archive.packPos = streams.pos ∧ archive.packSizes = [streams.packSize] ∧
      archive.blocks = [streams.block versions] ∧
      Decodes (readStreamsInfo bounds {}) (streams.bytes versions) archive := by
  have hstreams := hallows.streams
  obtain ⟨size, hsize⟩ : ∃ size, streams.sizes.getLast? = some size :=
    Option.isSome_iff_exists.mp
      (by simp [List.getLast?_isSome, ← List.length_pos_iff, hsizes, List.length_pos_of_ne_nil hne])
  have hpos := List.length_pos_of_ne_nil hne
  have hwithin : streams.unpackInfo.WithinLimits bounds.limits := by
    refine ⟨show 1 ≤ _ by omega, ?_, ?_⟩
    · simpa [unpackInfo, UnpackInfo.add] using hallows
    · simpa [unpackInfo, UnpackInfo.add] using htotal
  have hadded : List.Forall₂ BlockInfo.Added streams.unpackInfo.blocks [[(size, streams.crc)]] :=
    .cons (.add hsize) .nil
  have hcrcs : streams.packInfo.CrcsAlike := by
    rcases eq_or_ne streams.packCrc 0 with hzero | hne
    · exact .inr (List.forall_mem_singleton.mpr hzero)
    · exact .inl (List.forall_mem_singleton.mpr hne)
  have hcounts : streams.unpackInfo.needsNumUnpackStream = false := rfl
  obtain ⟨archive, hread, hdecodes⟩ := @decodes_readStreamsInfo versions bounds streams.packInfo
    streams.unpackInfo _ Nat.one_pos hcrcs (Nat.le_refl 1) (List.forall_mem_singleton.mpr hne)
    (List.forall_mem_singleton.mpr hsizes) hadded hwithin
    (fun hneeds => absurd (hcounts.symm.trans hneeds) Bool.false_ne_true) hbytes hmachine
  exact ⟨archive, hread.packPos, hread.packSizes, hread.blocks, hdecodes⟩

end EncodedStreams

theorem serves_maybeCrcRead {σ : Type} (crc32 : List UInt8 → UInt32) {read : ReadFn IoError σ}
    {Holds : List UInt8 → σ → Prop} (h : Serves read Holds) :
    Serves (maybeCrcRead crc32 read) fun content s => s.1 = none ∧ Holds content s.2 := by
  rintro buf content ⟨_, s⟩ hbuf ⟨rfl, hs⟩
  obtain ⟨piece, rest, s', hread, hcontent, hlength, hend, hs'⟩ := h buf content s hbuf hs
  refine ⟨piece, rest, (none, s'), ?_, hcontent, hlength, hend, rfl, hs'⟩
  simp only [maybeCrcRead, hread]

theorem unpackHeader_delivered {codecs : Codecs} (passwordGiven : Bool) {decoder : Decoder}
    (packSize : UInt64) {raw : List UInt8} (hraw : (codecs.decode decoder).Delivers raw)
    (hrounds : raw.length < codecs.rounds) :
    unpackHeader codecs passwordGiven { decoder, check := none, packSize } raw.length =
      .ok raw := by
  obtain ⟨Holds, hserves, hholds⟩ := hraw
  have hyields := (serves_maybeCrcRead codecs.crc32 hserves).yields_boundedRead
  have hread : ((Script.readToEnd retryInterrupted codecs.bufferLength
      (fun e => Result.fail (Error.badPassword e passwordGiven)) pure (.error .outOfFuel)
      codecs.rounds []).run (boundedRead (maybeCrcRead codecs.crc32 (codecs.decode decoder).read))
        (raw.length, none, [])).1 = pure raw :=
    hyields.readToEnd ⟨⟨rfl, hholds⟩, rfl⟩ hrounds []
  rw [unpackHeader]
  exact (Result.bind_of_ok hread).trans
    (Result.bind_of_ok ((Result.rejectIf_eq_ok (u := ())).mpr (not_not.mpr rfl)))

structure ArchiveLimits.AllowsEncodedHeader (limits : ArchiveLimits) (versions : CodecVersions)
    (methods : List EncoderConfiguration) (size : Nat) : Prop where
  depth : 2 ≤ limits.maxHeaderDepth.toNat
  unpacked : size ≤ limits.maxHeaderUnpackedBytes.toNat
  chain : limits.AllowsChain methods.length
  totalCoders : methods.length ≤ limits.maxTotalCoders.toNat
  aesCoders : checkAesCoders limits (methods.map (EncoderConfiguration.coder versions)) = .ok ()

theorem addChain_of_accepts {codecs : Codecs} {block : Block} {unsupported : Error}
    {entries : List (Nat × Coder)} {source : Decoder}
    (hsimple : ∀ entry ∈ entries, entry.2.numInStreams = 1 ∧ entry.2.numOutStreams = 1)
    (haccepts : ∀ entry ∈ entries, ∀ input stage, stage.coder = entry.2 →
      codecs.refuses input stage = none) :
    addChain codecs block unsupported entries source =
      .ok (stackOf (entries.map block.stage).reverse source) := by
  induction entries generalizing source with
  | nil => rfl
  | cons entry entries ih =>
      obtain ⟨i, coder⟩ := entry
      obtain ⟨hfirst, hsimple⟩ := List.forall_mem_cons.mp hsimple
      obtain ⟨haccept, haccepts⟩ := List.forall_mem_cons.mp haccepts
      have hkind : ¬ (coder.numInStreams ≠ 1 ∨ coder.numOutStreams ≠ 1) := by
        rw [not_or, not_not, not_not]
        exact hfirst
      have hadd : codecs.addDecoder source (block.stage (i, coder)) =
          .ok (.coder (block.stage (i, coder)) source) := by
        rw [Codecs.addDecoder, haccept source _ rfl]
        rfl
      rw [addChain, Result.bind_of_ok ((Result.rejectIf_eq_ok (u := ())).mpr hkind)]
      exact (Result.bind_of_ok hadd).trans ((ih hsimple haccepts).trans (by
        rw [List.map_cons, List.reverse_cons, stackOf_append]
        rfl))

theorem Block.Records.addChain {versions : CodecVersions} {methods : List EncoderConfiguration}
    {sizes : List UInt64} {block : Block} (h : block.Records versions methods sizes)
    {codecs : Codecs} (haccepts : ∀ mc ∈ methods, ∀ input stage,
      stage.coder = mc.coder versions → codecs.refuses input stage = none)
    (unsupported : Error) (source : Decoder) :
    addChain codecs block unsupported block.orderedCoderIter source =
      .ok (stackOf (block.orderedCoderIter.map block.stage).reverse source) := by
  have hchain : block.orderedCoderIter = (Block.chain block.coders sizes).orderedCoderIter := by
    rw [Block.orderedCoderIter, h.packedStreams]
    exact @orderedCoders_congr (Block.chain block.coders sizes) block rfl h.bindPairs _ _
  have hentry : ∀ entry ∈ block.orderedCoderIter, ∃ mc ∈ methods,
      entry.2 = mc.coder versions := by
    intro entry hentry
    rw [hchain, Block.orderedCoderIter_chain, h.coders, List.mem_map] at hentry
    obtain ⟨swapped, hmem, rfl⟩ := hentry
    obtain ⟨mc, hmc, hcoder⟩ := List.mem_map.mp (List.fst_mem_of_mem_zipIdx hmem)
    exact ⟨mc, hmc, hcoder.symm⟩
  apply addChain_of_accepts
  · intro entry hmem
    obtain ⟨mc, -, hcoder⟩ := hentry entry hmem
    rw [hcoder]
    exact ⟨rfl, rfl⟩
  · intro entry hmem input stage hstage
    obtain ⟨mc, hmc, hcoder⟩ := hentry entry hmem
    exact haccepts mc hmc input stage (hstage.trans hcoder)

namespace EncodedStreams

variable (versions : CodecVersions) (streams : EncodedStreams)

theorem block_records : (streams.block versions).Records versions streams.methods streams.sizes :=
  ⟨rfl, rfl, rfl, by simp [block, Block.chain], by simp [block, Block.chain], rfl⟩

/-- The coder of each method is put on the one before it, over the packed bytes. -/
def stages : List Stage :=
  (streams.block versions).orderedCoderIter.map (streams.block versions).stage

variable {streams}

theorem decodes_readEncodedHeader {codecs : Codecs} {opts : DecodeOptions} {bounds : HeaderBounds}
    {size : UInt64} (hne : streams.methods ≠ [])
    (hsizes : streams.sizes.length = streams.methods.length)
    (hallows : bounds.limits.AllowsChain streams.methods.length)
    (htotal : streams.methods.length ≤ bounds.limits.maxTotalCoders.toNat)
    (hbytes : (streams.bytes versions).length ≤ bounds.bytes) (hmachine : bounds.bytes < 2 ^ 64)
    (haes : checkAesCoders opts.limits
      (streams.methods.map (EncoderConfiguration.coder versions)) = .ok ())
    (hpos : signatureHeaderSize + streams.pos.toNat < 2 ^ 64)
    (hlast : streams.sizes.getLast? = some size)
    (hcap : size.toNat ≤ bounds.limits.maxHeaderUnpackedBytes.toNat)
    (haccepts : ∀ mc ∈ streams.methods, ∀ input stage, stage.coder = mc.coder versions →
      codecs.refuses input stage = none) :
    Decodes (readEncodedHeader codecs opts bounds) (streams.bytes versions)
      ({ decoder := stackOf (streams.stages versions).reverse
           (.pack 0 (signatureHeaderSize + streams.pos.toNat) streams.packSize.toNat)
         check := none, packSize := streams.packSize }, size.toNat) := by
  obtain ⟨archive, hpackPos, hpackSizes, hblocks, hread⟩ :=
    decodes_bytes versions hne hsizes hallows htotal hbytes hmachine
  have hcoders : archive.blocks.flatMap Block.coders =
      streams.methods.map (EncoderConfiguration.coder versions) := by
    rw [hblocks]
    exact List.append_nil _
  have hstart : packStart archive = some (signatureHeaderSize + streams.pos.toNat) := by
    rw [packStart, hpackPos]
    exact checkedAdd_eq_some.mpr ⟨hpos, rfl⟩
  have hunpack : (streams.block versions).getUnpackSize = .ok size :=
    (getUnpackSize_withCount _ [(0, 0)]).trans
      (Block.chain_getUnpackSize (by simpa using hsizes) hlast)
  have hdecoder : ∀ unsupported source, addChain codecs (streams.block versions) unsupported
      (streams.block versions).orderedCoderIter source =
        .ok (stackOf (streams.stages versions).reverse source) := by
    exact (block_records versions streams).addChain haccepts
  rw [← List.append_nil (streams.bytes versions)]
  apply hread.bind
  rw [hcoders]
  apply (Decodes.lift haes).bind_nil
  apply (Decodes.lift (Result.okOr_eq_ok.mpr (congrArg List.head? hblocks))).bind_nil
  apply (Decodes.lift (Result.okOr_eq_ok.mpr hstart)).bind_nil
  apply (Decodes.lift ((Result.rejectIf_eq_ok (u := ())).mpr (by simp [hpackSizes]))).bind_nil
  apply (Decodes.lift hunpack).bind_nil
  apply (Decodes.lift ((Result.rejectIf_eq_ok (u := ())).mpr (Nat.not_lt.mpr hcap))).bind_nil
  apply (Decodes.lift (Result.index_eq_ok.mpr (congrArg (·[0]?) hpackSizes))).bind_nil
  apply (Decodes.lift (hdecoder _ _)).bind_nil
  exact Decodes.pure _

theorem openHeader_bytes {codecs : Codecs} {limits : ArchiveLimits} (passwordGiven : Bool)
    {raw : List UInt8} (hne : streams.methods ≠ [])
    (hsizes : streams.sizes.length = streams.methods.length)
    (hlast : streams.sizes.getLast? = some (UInt64.ofNat raw.length))
    (hshort : (streams.bytes versions).length + 1 < 2 ^ 64)
    (hpos : signatureHeaderSize + streams.pos.toNat < 2 ^ 64)
    (hlimits : limits.AllowsEncodedHeader versions streams.methods raw.length)
    (haccepts : ∀ mc ∈ streams.methods, ∀ input stage, stage.coder = mc.coder versions →
      codecs.refuses input stage = none)
    (hdelivers : (codecs.decode (stackOf (streams.stages versions).reverse
      (.pack 0 (signatureHeaderSize + streams.pos.toNat) streams.packSize.toNat))).Delivers raw)
    (hrounds : raw.length < codecs.rounds) :
    openHeader codecs limits passwordGiven (kEncodedHeader :: streams.bytes versions) =
      readU8 raw := by
  have hwidth : raw.length < 2 ^ 64 :=
    Nat.lt_of_le_of_lt hlimits.unpacked limits.maxHeaderUnpackedBytes.toNat_lt
  have hsize : (UInt64.ofNat raw.length).toNat = raw.length := UInt64.toNat_ofNat_of_lt' hwidth
  have hread := @decodes_readEncodedHeader versions streams codecs (.header limits)
    { bytes := (kEncodedHeader :: streams.bytes versions).length, limits } _ hne hsizes
    hlimits.chain hlimits.totalCoders (Nat.le_succ _) hshort hlimits.aesCoders hpos hlast
    (by rw [hsize]; exact hlimits.unpacked) haccepts []
  rw [List.append_nil, hsize] at hread
  have hopen := unpackHeader_delivered passwordGiven streams.packSize hdelivers hrounds
  have hid : readU8 (kEncodedHeader :: streams.bytes versions) =
      .ok (kEncodedHeader, streams.bytes versions) := rfl
  rw [openHeader, Result.bind_of_ok hid]
  dsimp only
  rw [if_pos rfl, Result.bind_of_ok
    ((Result.rejectIf_eq_ok (u := ())).mpr (Nat.not_lt.mpr hlimits.depth)),
    Result.bind_of_ok hread]
  dsimp only
  rw [Result.bind_of_ok hopen]

theorem length_flatMap_le {α β : Type} {f : α → List β} {k : Nat} (xs : List α)
    (h : ∀ x ∈ xs, (f x).length ≤ k) : (xs.flatMap f).length ≤ k * xs.length := by
  induction xs with
  | nil => exact Nat.zero_le _
  | cons x xs ih =>
      obtain ⟨hx, hxs⟩ := List.forall_mem_cons.mp h
      rw [List.flatMap_cons, List.length_append, List.length_cons, Nat.mul_succ, Nat.add_comm]
      exact Nat.add_le_add (ih hxs) hx

theorem writeSingleCodec_length_le (mc : EncoderConfiguration) :
    (BlockInfo.writeSingleCodec versions mc).length ≤ 133 := by
  have hid := mc.method.id_length
  have hprops : (mc.properties versions).length < 128 :=
    getOptionsAsProperties_length versions mc.method mc.options
  rw [BlockInfo.writeSingleCodec]
  split
  · rw [List.length_cons]
    omega
  · rw [List.length_append, List.length_cons, List.length_cons]
    omega

theorem writeTo_length_le (info : BlockInfo) :
    (info.writeTo versions).length ≤ 9 + 151 * info.methods.length := by
  have hnumber := writeU64_length_le (UInt64.ofNat info.methods.length)
  have hcodecs := length_flatMap_le info.methods fun mc _ =>
    writeSingleCodec_length_le versions mc
  have hpair : ∀ i ∈ List.range (info.methods.length - 1),
      (BlockInfo.writeBindPair i).length ≤ 18 := by
    intro i _
    have hfirst := writeU64_length_le (UInt64.ofNat (i + 1))
    have hsecond := writeU64_length_le (UInt64.ofNat i)
    rw [BlockInfo.writeBindPair, List.length_append]
    exact Nat.add_le_add hfirst hsecond
  have hpairs := length_flatMap_le _ hpair
  rw [List.length_range] at hpairs
  rw [BlockInfo.writeTo, List.length_append, List.length_append, writeNumber]
  omega

variable (streams) in
theorem bytes_length_le :
    (streams.bytes versions).length ≤
      80 + 151 * streams.methods.length + 9 * streams.sizes.length := by
  have hpos := writeU64_length_le streams.pos
  have hcount := writeU64_length_le (UInt64.ofNat 1)
  have hsize := writeU64_length_le streams.packSize
  have hcrcs : (PackInfo.writeCrcs [streams.packCrc]).length ≤ 5 := by
    rw [PackInfo.writeCrcs]
    split
    · simp [writeU32]
    · rw [List.map_singleton]
      cases streams.packCrc != 0 <;> decide
  have hblock := writeTo_length_le versions
    { methods := streams.methods, sizes := streams.sizes, crc := streams.crc
      numSubUnpackStreams := 1 }
  have hsizes := length_flatMap_le streams.sizes fun size _ => writeU64_length_le size
  have hpack : streams.packInfo.writeTo = kPackInfo :: (writeU64 streams.pos ++
      (writeU64 (UInt64.ofNat 1) ++ ([kSize] ++ (((writeU64 streams.packSize ++ []) ++ [kCrc]) ++
        (PackInfo.writeCrcs [streams.packCrc] ++ [kEnd]))))) := rfl
  have hunpack : streams.unpackInfo.writeTo versions = kUnpackInfo :: ([kFolder] ++
      (writeU64 (UInt64.ofNat 1) ++ ([0] ++ ((BlockInfo.writeTo versions
        { methods := streams.methods, sizes := streams.sizes, crc := streams.crc
          numSubUnpackStreams := 1 } ++ []) ++ ([kCodersUnpackSize] ++
            ((streams.sizes.flatMap writeU64 ++ []) ++ [kEnd])))))) := rfl
  have hsub : streams.unpackInfo.writeSubstreams =
      [kSubStreamsInfo, kCrc, 1] ++ (writeU32 streams.crc ++ [kEnd]) := rfl
  have hcrc : (writeU32 streams.crc).length = 4 := leBytes_length _ _
  simp only [bytes, hpack, hunpack, hsub, hcrc, List.length_append, List.length_cons,
    List.length_nil]
  dsimp only at hblock
  omega

end EncodedStreams

end Sevenz
