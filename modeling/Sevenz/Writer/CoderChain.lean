import Mathlib.Data.List.Nodup
import Sevenz.Reader.DecodeStack
import Sevenz.Writer.Encoder
import Sevenz.Writer.UnpackInfo

/-!
# A chain of coders, written and read

The writer's blocks are chains: coder `i + 1` reads what coder `i` writes.  `read_unpack_info`
takes such a record back, its graph check accepts it, and the reader's coder order runs
through it from the coder over the packed stream to the outermost one.
-/

namespace Sevenz

open Lib Lib.Parser Lib.DepthFirst

variable (versions : CodecVersions)

def EncoderConfiguration.coder (mc : EncoderConfiguration) : Coder :=
  { encoderMethodId := mc.method.id, numInStreams := 1, numOutStreams := 1
    properties := mc.properties versions }

def Block.chain (coders : List Coder) (unpackSizes : List UInt64) : Block :=
  { coders
    bindPairs := (List.range (coders.length - 1)).map fun i => { inIndex := i + 1, outIndex := i }
    totalInputStreams := coders.length, totalOutputStreams := coders.length
    packedStreams := [0], unpackSizes }

def BlockInfo.block (info : BlockInfo) : Block :=
  Block.chain (info.methods.map (EncoderConfiguration.coder versions)) info.sizes

def flags (n : Nat) (p : Nat → Bool) : List Bool := (List.range n).map p

@[simp] theorem flags_length (n : Nat) (p : Nat → Bool) : (flags n p).length = n := by
  simp [flags]

theorem flags_false (n : Nat) : flags n (fun _ => false) = List.replicate n false := by
  simp [flags, List.map_const']

theorem index_flags {n i : Nat} (p : Nat → Bool) (h : i < n) :
    Result.index (flags n p) i = .ok (p i) := by
  simp [Result.index_eq_ok, flags, h]

theorem setIndex_flags {n i : Nat} (p : Nat → Bool) (h : i < n) :
    Result.setIndex (flags n p) i true = .ok (flags n fun j => p j || j == i) := by
  rw [Result.setIndex_of_lt (by simpa using h)]
  congr 1
  apply List.ext_getElem
  · simp
  · intro j hj _
    simp only [flags, List.getElem_set, List.getElem_map, List.getElem_range]
    by_cases hij : i = j
    · simp [hij]
    · simp [hij, Ne.symm hij]

theorem markBound_flags {bindPairs : List BindPair} {n m : Nat} {p q : Nat → Bool}
    (hin : ∀ bp ∈ bindPairs, bp.inIndex < n ∧ p bp.inIndex = false)
    (hout : ∀ bp ∈ bindPairs, bp.outIndex < m ∧ q bp.outIndex = false)
    (hinOnce : (bindPairs.map BindPair.inIndex).Nodup)
    (houtOnce : (bindPairs.map BindPair.outIndex).Nodup) :
    markBound bindPairs (flags n p) (flags m q) =
      .ok (flags n fun i => p i || bindPairs.any fun bp => i == bp.inIndex,
        flags m fun i => q i || bindPairs.any fun bp => i == bp.outIndex) := by
  induction bindPairs generalizing p q with
  | nil => simp [markBound, pure, Except.pure]
  | cons bp bindPairs ih =>
      obtain ⟨hinLt, hinFree⟩ := hin bp List.mem_cons_self
      obtain ⟨houtLt, houtFree⟩ := hout bp List.mem_cons_self
      simp only [List.map_cons, List.nodup_cons, List.mem_map, not_exists, not_and] at hinOnce houtOnce
      rw [markBound, Result.bind_of_ok (index_flags p hinLt), Result.bind_of_ok (index_flags q houtLt),
        Result.bind_of_ok ((Result.rejectIf_eq_ok (u := ())).mpr (by simp [hinFree, houtFree])),
        Result.bind_of_ok (setIndex_flags p hinLt), Result.bind_of_ok (setIndex_flags q houtLt)]
      rw [ih]
      · simp [Bool.or_assoc]
      · intro other hother
        have hne := hinOnce.1 other hother
        simp [hin other (List.mem_cons_of_mem bp hother), hne]
      · intro other hother
        have hne := houtOnce.1 other hother
        simp [hout other (List.mem_cons_of_mem bp hother), hne]
      · exact hinOnce.2
      · exact houtOnce.2

namespace Block

variable {coders : List Coder} {unpackSizes : List UInt64}

theorem chain_findIn (i : Nat) : (chain coders unpackSizes).findBindPairForInStream i =
    if 0 < i ∧ i < coders.length then some { inIndex := i, outIndex := i - 1 } else none := by
  unfold findBindPairForInStream chain
  split
  · rename_i hi
    rw [List.find?_map, show ((fun bp : BindPair => bp.inIndex == i) ∘
      fun i => { inIndex := i + 1, outIndex := i }) = fun j => j + 1 == i from rfl]
    have hfind : (List.range (coders.length - 1)).find? (fun j => j + 1 == i) = some (i - 1) := by
      rw [List.find?_range_eq_some]
      simp only [beq_iff_eq, List.mem_range, Bool.not_eq_true', beq_eq_false_iff_ne, ne_eq]
      exact ⟨by omega, by omega, fun j hj => by omega⟩
    simp only [hfind, Option.map_some, Option.some.injEq, BindPair.mk.injEq, and_true]
    omega
  · rename_i hi
    simp only [List.find?_eq_none, List.mem_map, List.mem_range]
    intro bp hbp
    obtain ⟨j, hj, rfl⟩ := hbp
    simp
    omega

theorem chain_findOut (i : Nat) : (chain coders unpackSizes).findBindPairForOutStream i =
    if i + 1 < coders.length then some { inIndex := i + 1, outIndex := i } else none := by
  unfold findBindPairForOutStream chain
  split
  · rename_i hi
    rw [List.find?_map, show ((fun bp : BindPair => bp.outIndex == i) ∘
      fun i => { inIndex := i + 1, outIndex := i }) = fun j => j == i from rfl]
    have hfind : (List.range (coders.length - 1)).find? (fun j => j == i) = some i := by
      rw [List.find?_range_eq_some]
      simp only [beq_iff_eq, List.mem_range, Bool.not_eq_true', beq_eq_false_iff_ne, ne_eq]
      exact ⟨trivial, by omega, fun j hj => by omega⟩
    simp [hfind]
  · rename_i hi
    simp only [List.find?_eq_none, List.mem_map, List.mem_range]
    intro bp hbp
    obtain ⟨j, hj, rfl⟩ := hbp
    simp
    omega

theorem chain_getUnpackSize {size : UInt64} (hlength : unpackSizes.length = coders.length)
    (hlast : unpackSizes.getLast? = some size) :
    (chain coders unpackSizes).getUnpackSize = .ok size := by
  have hne : coders.length ≠ 0 := by
    intro h
    rw [List.eq_nil_of_length_eq_zero (hlength.trans h)] at hlast
    cases hlast
  obtain ⟨n, hn⟩ := Nat.exists_eq_succ_of_ne_zero hne
  have hfind : (chain coders unpackSizes).findBindPairForOutStream n = none := by
    rw [chain_findOut, if_neg (by omega)]
  have htotal : (chain coders unpackSizes).totalOutputStreams = n + 1 := hn
  rw [getUnpackSize, htotal, if_neg (Nat.succ_ne_zero n), lastUnboundSize, hfind]
  apply Result.index_eq_ok.mpr
  rw [List.getLast?_eq_getElem?, hlength, hn] at hlast
  exact hlast

theorem orderedCoders_chain {remaining i : Nat} (h : i + remaining = coders.length) :
    orderedCoders (chain coders unpackSizes) remaining (some i) =
      ((coders.drop i).zipIdx i).map Prod.swap := by
  induction remaining generalizing i with
  | zero =>
      rw [List.drop_of_length_le (by omega)]
      rfl
  | succ remaining ih =>
      have hi : i < coders.length := by omega
      have hget : (chain coders unpackSizes).coders[i]? = some coders[i] :=
        List.getElem?_eq_getElem hi
      rw [orderedCoders, hget, chain_findOut, List.drop_eq_getElem_cons hi]
      simp only [List.zipIdx_cons, List.map_cons, Prod.swap_prod_mk, List.cons.injEq, true_and]
      split
      · exact ih (by dsimp only; omega)
      · obtain rfl : remaining = 0 := by omega
        rw [List.drop_of_length_le (by omega)]
        rfl

theorem orderedCoderIter_chain :
    (chain coders unpackSizes).orderedCoderIter = coders.zipIdx.map Prod.swap :=
  orderedCoders_chain (Nat.zero_add coders.length)

theorem chain_owner (hsimple : ∀ coder ∈ coders, coder.numInStreams = 1 ∧ coder.numOutStreams = 1)
    {c : Nat} (hc : c < coders.length) :
    (chain coders unpackSizes).firstIn c = c ∧
      (chain coders unpackSizes).coderOfOut[c]? = some c := by
  have hins : coders.map Coder.numInStreams = List.replicate coders.length 1 := by
    rw [List.eq_replicate_iff]
    simpa using fun coder hcoder => (hsimple coder hcoder).1
  have houts : coders.map Coder.numOutStreams = List.replicate coders.length 1 := by
    rw [List.eq_replicate_iff]
    simpa using fun coder hcoder => (hsimple coder hcoder).2
  have hoffset : ∀ i ≤ coders.length, offset (List.replicate coders.length 1) i = i := by
    intro i hi
    simp [offset, Nat.min_eq_left hi]
  constructor
  · change offset (coders.map Coder.numInStreams) c = c
    rw [hins, hoffset c (by omega)]
  · change (owners (coders.map Coder.numOutStreams))[c]? = some c
    rw [houts, owners_getElem?, hoffset c (by omega), hoffset (c + 1) hc]
    simp [hc]

theorem walkCoders_chain_enter
    (hsimple : ∀ coder ∈ coders, coder.numInStreams = 1 ∧ coder.numOutStreams = 1)
    {c : Nat} (hc : c < coders.length) {state : List Mark} (hunseen : state[c]? = some .unseen)
    (fuel : Nat) (stack : List Frame) :
    walkCoders (chain coders unpackSizes) (fuel + 1) state ((c, 0) :: stack) =
      walkCoders (chain coders unpackSizes) fuel (state.set c .onPath)
        (if c = 0 then (c, 1) :: stack else (c - 1, 0) :: (c, 1) :: stack) := by
  have hstate : c < state.length := (List.getElem?_eq_some_iff.mp hunseen).1
  have hget : Result.index (chain coders unpackSizes).coders c = .ok coders[c] :=
    Result.index_of_lt hc
  have hset : Result.setIndex state c Mark.onPath = .ok (state.set c .onPath) :=
    Result.setIndex_of_lt hstate
  have hproducer : (chain coders unpackSizes).producerOf
      ((chain coders unpackSizes).firstIn c + 0) = .ok (if c = 0 then none else some (c - 1)) := by
    rw [(chain_owner hsimple hc).1, Nat.add_zero, producerOf, chain_findIn]
    cases c with
    | zero => rfl
    | succ c =>
        have howner : Result.index (chain coders unpackSizes).coderOfOut c = .ok c :=
          Result.index_eq_ok.mpr (chain_owner hsimple (by omega)).2
        simp [hc, howner, pure, Except.pure, bind, Except.bind]
  rw [walkCoders, enterCoder, if_pos rfl, Result.bind_of_ok (Result.index_eq_ok.mpr hunseen)]
  dsimp only
  rw [Result.bind_of_ok hset]
  simp only [pure, Except.pure, bind, Except.bind, hget, (hsimple _ (List.getElem_mem hc)).1,
    Nat.zero_lt_one, if_true, hproducer]
  cases c with
  | zero => rfl
  | succ c => rfl

theorem walkCoders_chain_leave
    (hsimple : ∀ coder ∈ coders, coder.numInStreams = 1 ∧ coder.numOutStreams = 1)
    {c : Nat} (hc : c < coders.length) {state : List Mark} (hlength : state.length = coders.length)
    (fuel : Nat) (stack : List Frame) :
    walkCoders (chain coders unpackSizes) (fuel + 1) state ((c, 1) :: stack) =
      walkCoders (chain coders unpackSizes) fuel (state.set c .done) stack := by
  have hget : Result.index (chain coders unpackSizes).coders c = .ok coders[c] :=
    Result.index_of_lt hc
  have hset : Result.setIndex state c Mark.done = .ok (state.set c .done) :=
    Result.setIndex_of_lt (hlength ▸ hc)
  rw [walkCoders, enterCoder, if_neg (by decide)]
  simp only [pure, Except.pure, bind, Except.bind, hget, (hsimple _ (List.getElem_mem hc)).1,
    Nat.lt_irrefl, if_false, hset]

theorem walkCoders_chain
    (hsimple : ∀ coder ∈ coders, coder.numInStreams = 1 ∧ coder.numOutStreams = 1)
    {c : Nat} (hc : c < coders.length) {state : List Mark} (hlength : state.length = coders.length)
    (hunseen : ∀ j ≤ c, state[j]? = some .unseen) (fuel : Nat) (stack : List Frame) :
    ∃ state' : List Mark, state'.length = coders.length ∧
      walkCoders (chain coders unpackSizes) (fuel + 2 * (c + 1)) state ((c, 0) :: stack) =
        walkCoders (chain coders unpackSizes) fuel state' stack := by
  induction c generalizing state fuel stack with
  | zero =>
      refine ⟨(state.set 0 .onPath).set 0 .done, by simp [hlength], ?_⟩
      rw [show fuel + 2 * (0 + 1) = fuel + 1 + 1 by omega,
        walkCoders_chain_enter hsimple hc (hunseen 0 (Nat.le_refl 0)), if_pos rfl,
        walkCoders_chain_leave hsimple hc (by simp [hlength])]
  | succ c ih =>
      have hbelow : ∀ j ≤ c, (state.set (c + 1) .onPath)[j]? = some .unseen := by
        intro j hj
        rw [List.getElem?_set_ne (by omega)]
        exact hunseen j (by omega)
      obtain ⟨state', hlength', hwalk⟩ := ih (Nat.lt_of_succ_lt hc) (by simpa using hlength) hbelow
        (fuel + 1) ((c + 1, 1) :: stack)
      refine ⟨state'.set (c + 1) .done, by simp [hlength'], ?_⟩
      rw [show fuel + 2 * (c + 1 + 1) = fuel + 1 + 2 * (c + 1) + 1 by omega,
        walkCoders_chain_enter hsimple hc (hunseen (c + 1) (Nat.le_refl _)),
        if_neg (Nat.succ_ne_zero c), Nat.add_sub_cancel, hwalk,
        walkCoders_chain_leave hsimple hc hlength']

/-- Every in-stream but the first is bound, and every out-stream but the last. -/
theorem markBound_chain :
    markBound (chain coders unpackSizes).bindPairs (List.replicate coders.length false)
        (List.replicate coders.length false) =
      .ok (flags coders.length fun i => decide (0 < i ∧ i < coders.length),
        flags coders.length fun i => decide (i + 1 < coders.length)) := by
  have hin : ∀ i, ((chain coders unpackSizes).bindPairs.any fun bp => i == bp.inIndex) =
      decide (0 < i ∧ i < coders.length) := by
    intro i
    rw [Bool.eq_iff_iff, List.any_eq_true, decide_eq_true_iff]
    constructor
    · rintro ⟨bp, hbp, hi⟩
      obtain ⟨j, hj, rfl⟩ := List.mem_map.mp hbp
      simp only [List.mem_range, beq_iff_eq] at hj hi
      omega
    · intro hi
      have hmem : i - 1 < coders.length - 1 := by omega
      exact ⟨_, List.mem_map_of_mem (List.mem_range.mpr hmem), by simp; omega⟩
  have hout : ∀ i, ((chain coders unpackSizes).bindPairs.any fun bp => i == bp.outIndex) =
      decide (i + 1 < coders.length) := by
    intro i
    rw [Bool.eq_iff_iff, List.any_eq_true, decide_eq_true_iff]
    constructor
    · rintro ⟨bp, hbp, hi⟩
      obtain ⟨j, hj, rfl⟩ := List.mem_map.mp hbp
      simp only [List.mem_range, beq_iff_eq] at hj hi
      omega
    · intro hi
      have hmem : i < coders.length - 1 := by omega
      exact ⟨_, List.mem_map_of_mem (List.mem_range.mpr hmem), by simp⟩
  have hbound := @markBound_flags (chain coders unpackSizes).bindPairs coders.length coders.length
    (fun _ => false) (fun _ => false)
  simp only [hin, hout, Bool.false_or, flags_false] at hbound
  apply hbound
  · intro bp hbp
    obtain ⟨j, hj, rfl⟩ := List.mem_map.mp hbp
    have := List.mem_range.mp hj
    exact ⟨by dsimp only; omega, trivial⟩
  · intro bp hbp
    obtain ⟨j, hj, rfl⟩ := List.mem_map.mp hbp
    have := List.mem_range.mp hj
    exact ⟨by dsimp only; omega, trivial⟩
  · simp only [chain, List.map_map]
    exact List.Nodup.map (fun i j hij => by simpa using hij) List.nodup_range
  · simp only [chain, List.map_map]
    exact List.Nodup.map (fun i j hij => by simpa using hij) List.nodup_range

theorem validateCoderGraph_chain (hne : coders ≠ [])
    (hsimple : ∀ coder ∈ coders, coder.numInStreams = 1 ∧ coder.numOutStreams = 1) :
    validateCoderGraph (chain coders unpackSizes) = .ok () := by
  obtain ⟨n, hn⟩ := Nat.exists_eq_succ_of_ne_zero (mt List.eq_nil_of_length_eq_zero hne)
  have htotalIn : (chain coders unpackSizes).totalInputStreams = coders.length := rfl
  have htotalOut : (chain coders unpackSizes).totalOutputStreams = coders.length := rfl
  have hpacked : markPacked coders.length (chain coders unpackSizes).packedStreams
      (flags coders.length fun i => decide (0 < i ∧ i < coders.length)) =
        .ok (flags coders.length fun i => decide (0 < i ∧ i < coders.length) || i == 0) := by
    change markPacked coders.length [0] _ = _
    rw [markPacked, Result.bind_of_ok ((Result.rejectIf_eq_ok (u := ())).mpr (by omega)),
      Result.bind_of_ok (index_flags _ (by omega)),
      Result.bind_of_ok ((Result.rejectIf_eq_ok (u := ())).mpr (by simp)),
      Result.bind_of_ok (setIndex_flags _ (by omega))]
    rfl
  have hallIn : ((flags coders.length fun i =>
      decide (0 < i ∧ i < coders.length) || i == 0).any not) = false := by
    rw [List.any_eq_false]
    intro flag hflag
    obtain ⟨i, hi, rfl⟩ := List.mem_map.mp hflag
    have := List.mem_range.mp hi
    simp
    omega
  have hflags : (flags coders.length fun i => decide (i + 1 < coders.length)) =
      List.replicate n true ++ [false] := by
    rw [hn, flags, List.range_succ, List.map_append]
    congr 1
    · rw [List.eq_replicate_iff]
      simp
    · simp
  have hroot := Result.index_eq_ok.mpr
    (@chain_owner coders unpackSizes hsimple n (by omega)).2
  obtain ⟨state', -, hwalk⟩ := @walkCoders_chain coders unpackSizes hsimple n
    (by omega) _ (List.length_replicate (n := coders.length) (a := Mark.unseen))
    (fun j hj => List.getElem?_replicate_of_lt (by omega)) (n + 2) []
  have hfuel : walkFuel (chain coders unpackSizes) = n + 2 + 2 * (n + 1) := by
    change 2 * coders.length + coders.length + 1 = _
    omega
  rw [validateCoderGraph, htotalIn, htotalOut, Result.bind_of_ok markBound_chain]
  dsimp only
  have hfind : (List.replicate n true ++ [false]).findIdx? not = some n := by
    rw [List.findIdx?_append, List.findIdx?_eq_none_iff.mpr]
    · simp
    · simp
  rw [Result.bind_of_ok hpacked, hallIn, hflags,
    Result.bind_of_ok ((Result.rejectIf_eq_ok (u := ())).mpr (by decide)),
    Result.bind_of_ok ((Result.rejectIf_eq_ok (u := ())).mpr (by simp [List.countP_append])),
    hfind, Result.bind_of_ok (Result.expect_eq_ok.mpr rfl), Result.bind_of_ok hroot, hfuel]
  have hend : walkCoders (chain coders unpackSizes) (n + 2) state' [] = .ok state' := by
    rw [walkCoders]
    rfl
  exact Result.bind_of_ok (hwalk.trans hend)

end Block

def codecFlags (idLength : Nat) (hasProperties : Bool) : UInt8 :=
  UInt8.ofNat idLength ||| if hasProperties then 0x20 else 0

theorem codecFlags_spec : ∀ n ≤ 4, ∀ hasProperties,
    (codecFlags n hasProperties &&& 0xF).toNat = n ∧
      (codecFlags n hasProperties &&& 0x10 == 0) = true ∧
      (codecFlags n hasProperties &&& 0x20 != 0) = hasProperties ∧
      codecFlags n hasProperties &&& 0x80 = 0 := by
  decide

theorem writeNumber_of_lt : ∀ n < 128, writeNumber n = [UInt8.ofNat n] := by
  decide

def propertyBytes (properties : List UInt8) : List UInt8 :=
  if properties.isEmpty then [] else writeNumber properties.length ++ properties

theorem writeSingleCodec_eq (mc : EncoderConfiguration) :
    BlockInfo.writeSingleCodec versions mc =
      [codecFlags mc.method.id.length !(mc.properties versions).isEmpty] ++
        (mc.method.id ++ propertyBytes (mc.properties versions)) := by
  have hlength : (mc.properties versions).length < 128 :=
    getOptionsAsProperties_length versions mc.method mc.options
  unfold BlockInfo.writeSingleCodec codecFlags propertyBytes
  cases hempty : (mc.properties versions).isEmpty with
  | true => simp [List.isEmpty_iff.mp hempty]
  | false =>
      have hne : mc.properties versions ≠ [] := by simpa using hempty
      simp [writeNumber_of_lt _ hlength, hne]

theorem decodes_readProperties {bounds : HeaderBounds} {properties : List UInt8}
    (hbytes : properties.length ≤ bounds.bytes) (hmachine : properties.length < 2 ^ 64) :
    Decodes (readProperties bounds !properties.isEmpty) (propertyBytes properties) properties := by
  unfold readProperties propertyBytes
  cases hempty : properties.isEmpty with
  | true =>
      rw [List.isEmpty_iff.mp hempty]
      exact Decodes.pure []
  | false =>
      apply (decodes_readNumber hmachine).bind
      apply (Decodes.lift (HeaderBounds.size_eq_ok.mpr ⟨rfl, hbytes⟩)).bind_nil
      exact Decodes.bytes unexpectedEof properties

structure StreamTotals.RoomForOne (totals : StreamTotals) (bounds : HeaderBounds) : Prop where
  streamsPerCoder : 1 ≤ bounds.limits.maxStreamsPerCoder.toNat
  totalIn : totals.totalIn + 1 ≤ bounds.limits.maxEntries.toNat
  totalOut : totals.totalOut + 1 ≤ bounds.limits.maxEntries.toNat

def StreamTotals.addOne (totals : StreamTotals) : StreamTotals :=
  { totalIn := totals.totalIn + 1, totalOut := totals.totalOut + 1 }

theorem decodes_readCoder {bounds : HeaderBounds} {totals : StreamTotals}
    {mc : EncoderConfiguration} (hroom : totals.RoomForOne bounds)
    (hin : totals.totalIn + 1 ≤ bounds.bytes) (hout : totals.totalOut + 1 ≤ bounds.bytes)
    (hproperties : (mc.properties versions).length ≤ bounds.bytes)
    (hmachine : bounds.bytes < 2 ^ 64) :
    Decodes (readCoder bounds totals) (BlockInfo.writeSingleCodec versions mc)
      (mc.coder versions, totals.addOne) := by
  have hpos := hroom.streamsPerCoder
  have hadd : ∀ n, n + 1 ≤ bounds.bytes → checkedAdd n 1 = some (n + 1) := by
    intro n hn
    exact checkedAdd_eq_some.mpr ⟨by omega, rfl⟩
  have hcount : ∀ n, n ≤ bounds.bytes → n ≤ bounds.limits.maxEntries.toNat →
      bounds.count n .entries = .ok n :=
    fun n hn hcap => HeaderBounds.count_eq_ok.mpr ⟨rfl, hn, hcap⟩
  obtain ⟨hid, hsimple, hflag, halternative⟩ := codecFlags_spec mc.method.id.length
    mc.method.id_length !(mc.properties versions).isEmpty
  rw [writeSingleCodec_eq]
  apply (decodes_readU8 _).bind
  dsimp only
  rw [hid, hsimple, hflag]
  apply (Decodes.bytes unexpectedEof mc.method.id).bind
  apply (Decodes.pure (1, 1)).bind_nil
  apply (Decodes.lift (Result.okOr_eq_ok.mpr (hadd _ hin))).bind_nil
  apply (Decodes.lift (Result.okOr_eq_ok.mpr (hadd _ hout))).bind_nil
  apply (Decodes.lift ((Result.rejectIf_eq_ok (u := ())).mpr (by omega))).bind_nil
  apply (Decodes.lift (hcount _ hin hroom.totalIn)).bind_nil
  apply (Decodes.lift (hcount _ hout hroom.totalOut)).bind_nil
  rw [← List.append_nil (propertyBytes _)]
  apply (decodes_readProperties hproperties (Nat.lt_of_le_of_lt hproperties hmachine)).bind
  rw [halternative]
  exact (Decodes.lift (a := ()) rfl).bind_nil (Decodes.pure _)

theorem readCoder_roomForOne {bounds : HeaderBounds} {totals : StreamTotals}
    {mc : EncoderConfiguration} {rest : List UInt8} {r : (Coder × StreamTotals) × List UInt8}
    (h : readCoder bounds totals (BlockInfo.writeSingleCodec versions mc ++ rest) = .ok r) :
    totals.RoomForOne bounds := by
  obtain ⟨-, hsimple, -, -⟩ := codecFlags_spec mc.method.id.length
    mc.method.id_length !(mc.properties versions).isEmpty
  rw [writeSingleCodec_eq, List.append_assoc] at h
  obtain ⟨bits, s₁, hbits, h⟩ := bind_eq_ok.mp h
  cases hbits
  rw [hsimple] at h
  obtain ⟨id, s₂, -, h⟩ := bind_eq_ok.mp h
  obtain ⟨counts, s₃, hcounts, h⟩ := bind_eq_ok.mp h
  cases hcounts
  obtain ⟨totalIn, hin, h⟩ := lift_bind_eq_ok.mp h
  obtain ⟨totalOut, hout, h⟩ := lift_bind_eq_ok.mp h
  obtain ⟨-, rfl⟩ := checkedAdd_eq_some.mp (Result.okOr_eq_ok.mp hin)
  obtain ⟨-, rfl⟩ := checkedAdd_eq_some.mp (Result.okOr_eq_ok.mp hout)
  obtain ⟨_, hstreams, h⟩ := lift_bind_eq_ok.mp h
  obtain ⟨_, hcountIn, h⟩ := lift_bind_eq_ok.mp h
  obtain ⟨_, hcountOut, h⟩ := lift_bind_eq_ok.mp h
  have hcap := Result.rejectIf_eq_ok.mp hstreams
  refine ⟨by omega, (HeaderBounds.count_eq_ok.mp hcountIn).2.2,
    (HeaderBounds.count_eq_ok.mp hcountOut).2.2⟩

theorem writeSingleCodec_length (mc : EncoderConfiguration) :
    (mc.properties versions).length + 1 ≤ (BlockInfo.writeSingleCodec versions mc).length := by
  rw [writeSingleCodec_eq, propertyBytes]
  split
  · rename_i hempty
    simp [List.isEmpty_iff.mp hempty]
  · simp
    omega

theorem length_le_flatMap_writeSingleCodec (methods : List EncoderConfiguration) :
    methods.length ≤ (methods.flatMap (BlockInfo.writeSingleCodec versions)).length := by
  induction methods with
  | nil => exact Nat.le_refl 0
  | cons mc methods ih =>
      have := writeSingleCodec_length versions mc
      simp only [List.length_cons, List.flatMap_cons, List.length_append]
      omega

def StreamTotals.ofChain (n : Nat) : StreamTotals := { totalIn := n, totalOut := n }

theorem decodes_readCoders {bounds : HeaderBounds} {methods : List EncoderConfiguration} {n : Nat}
    (hstreams : methods ≠ [] → 1 ≤ bounds.limits.maxStreamsPerCoder.toNat)
    (hentries : n + methods.length ≤ bounds.limits.maxEntries.toNat)
    (hbytes : n + (methods.flatMap (BlockInfo.writeSingleCodec versions)).length ≤ bounds.bytes)
    (hmachine : bounds.bytes < 2 ^ 64) :
    Decodes (readCoders bounds methods.length (.ofChain n))
      (methods.flatMap (BlockInfo.writeSingleCodec versions))
      (methods.map (EncoderConfiguration.coder versions), .ofChain (n + methods.length)) := by
  induction methods generalizing n with
  | nil => exact Decodes.pure _
  | cons mc methods ih =>
      have hrecord := writeSingleCodec_length versions mc
      rw [List.flatMap_cons, List.length_append] at hbytes
      rw [List.length_cons] at hentries
      have hone : n + 1 ≤ bounds.limits.maxEntries.toNat := by omega
      have hfirst : n + 1 ≤ bounds.bytes := by omega
      have hroom : (StreamTotals.ofChain n).RoomForOne bounds :=
        ⟨hstreams (List.cons_ne_nil mc methods), hone, hone⟩
      rw [List.flatMap_cons, List.length_cons, show n + (methods.length + 1) =
        n + 1 + methods.length by omega]
      apply (decodes_readCoder versions hroom hfirst hfirst (by omega) hmachine).bind
      rw [← List.append_nil (methods.flatMap _)]
      have hrest := @ih (n + 1) (fun _ => hstreams (List.cons_ne_nil mc methods)) (by omega)
        (by omega)
      apply hrest.bind
      exact Decodes.pure _

theorem readCoders_room {bounds : HeaderBounds} {methods : List EncoderConfiguration} {n : Nat}
    {rest : List UInt8} {r : (List Coder × StreamTotals) × List UInt8}
    (hbytes : n + (methods.flatMap (BlockInfo.writeSingleCodec versions)).length ≤ bounds.bytes)
    (hmachine : bounds.bytes < 2 ^ 64) (hne : methods ≠ [])
    (h : readCoders bounds methods.length (.ofChain n)
      (methods.flatMap (BlockInfo.writeSingleCodec versions) ++ rest) = .ok r) :
    1 ≤ bounds.limits.maxStreamsPerCoder.toNat ∧
      n + methods.length ≤ bounds.limits.maxEntries.toNat := by
  induction methods generalizing n r with
  | nil => exact absurd rfl hne
  | cons mc methods ih =>
      have hrecord := writeSingleCodec_length versions mc
      rw [List.flatMap_cons, List.length_append] at hbytes
      rw [List.flatMap_cons, List.append_assoc] at h
      obtain ⟨first, s₁, hcoder, h⟩ := bind_eq_ok.mp h
      have hroom := readCoder_roomForOne versions hcoder
      have hfirst : n + 1 ≤ bounds.bytes := by omega
      have hproperties : (mc.properties versions).length ≤ bounds.bytes := by omega
      have hread := decodes_readCoder versions hroom hfirst hfirst hproperties hmachine
      obtain ⟨rfl, rfl⟩ := hread.unique hcoder
      obtain ⟨last, s₂, hcoders, -⟩ := bind_eq_ok.mp h
      cases methods with
      | nil => exact ⟨hroom.streamsPerCoder, hroom.totalIn⟩
      | cons next methods =>
          have := (ih (n := n + 1) (by omega) (List.cons_ne_nil next methods) hcoders).2
          rw [List.length_cons]
          exact ⟨hroom.streamsPerCoder, by omega⟩

structure ArchiveLimits.AllowsChain (limits : ArchiveLimits) (n : Nat) : Prop where
  coders : n ≤ limits.maxCodersPerBlock.toNat
  streams : n ≤ limits.maxEntries.toNat
  streamsPerCoder : 1 ≤ limits.maxStreamsPerCoder.toNat

theorem decodes_readPackedStreams_chain {coders : List Coder} (hne : coders ≠ []) :
    Decodes
      (readPackedStreams { Block.chain coders [] with packedStreams := [] } coders.length
        (coders.length - (coders.length - 1)))
      [] [0] := by
  have hpos : 0 < coders.length := List.length_pos_of_ne_nil hne
  have hfind : (List.range coders.length).find? (fun i =>
      (Block.findBindPairForInStream { Block.chain coders [] with packedStreams := [] } i).isNone) =
        some 0 := by
    rw [List.find?_range_eq_some]
    have hfree : (Block.chain coders []).findBindPairForInStream 0 = none := by
      rw [Block.chain_findIn, if_neg (by omega)]
    refine ⟨?_, List.mem_range.mpr hpos, fun j hj => absurd hj (Nat.not_lt_zero j)⟩
    exact Option.isNone_iff_eq_none.mpr hfree
  rw [readPackedStreams, if_pos (by omega)]
  exact (Decodes.lift (Result.okOr_eq_ok.mpr hfind)).bind_nil (Decodes.pure [0])

theorem decodes_readBindPairs {n : Nat} (hmachine : n < 2 ^ 64) :
    Decodes (many (n - 1) (readBindPair (.ofChain n)))
      ((List.range (n - 1)).flatMap BlockInfo.writeBindPair)
      ((List.range (n - 1)).map fun i => { inIndex := i + 1, outIndex := i }) := by
  have hread : ∀ i ∈ List.range (n - 1), Decodes (readBindPair (.ofChain n))
      (BlockInfo.writeBindPair i) { inIndex := i + 1, outIndex := i } := by
    intro i hi
    have hlt := List.mem_range.mp hi
    have hrange : ¬ (i + 1 ≥ (StreamTotals.ofChain n).totalIn ∨
        i ≥ (StreamTotals.ofChain n).totalOut) := by
      change ¬ (i + 1 ≥ n ∨ i ≥ n)
      omega
    apply (decodes_readNumber (by omega)).bind
    rw [← List.append_nil (writeNumber i)]
    apply (decodes_readNumber (by omega)).bind
    exact (Decodes.lift ((Result.rejectIf_eq_ok (u := ())).mpr hrange)).bind_nil (Decodes.pure _)
  have hmany := @Decodes.many _ _ (readBindPair (.ofChain n))
    (fun bp => writeNumber bp.inIndex ++ writeNumber bp.outIndex)
    ((List.range (n - 1)).map fun i => { inIndex := i + 1, outIndex := i })
    (by
      intro bp hbp
      obtain ⟨i, hi, rfl⟩ := List.mem_map.mp hbp
      exact hread i hi)
  rwa [List.length_map, List.length_range, List.flatMap_map] at hmany

theorem BlockInfo.writeTo_length (info : BlockInfo) :
    (info.methods.flatMap (BlockInfo.writeSingleCodec versions)).length ≤
      (info.writeTo versions).length := by
  simp only [BlockInfo.writeTo, List.length_append]
  omega

theorem decodes_readBlock {bounds : HeaderBounds} {info : BlockInfo} (hne : info.methods ≠ [])
    (hallows : bounds.limits.AllowsChain info.methods.length)
    (hbytes : (info.writeTo versions).length ≤ bounds.bytes) (hmachine : bounds.bytes < 2 ^ 64) :
    Decodes (readBlock bounds) (info.writeTo versions)
      { info.block versions with unpackSizes := [] } := by
  have hcodecs := Nat.le_trans (info.writeTo_length versions) hbytes
  have hmethods := length_le_flatMap_writeSingleCodec versions info.methods
  have hpos := List.length_pos_of_ne_nil hne
  have hcoders : info.methods.map (EncoderConfiguration.coder versions) ≠ [] := by simpa using hne
  have hcount : bounds.count info.methods.length .codersPerBlock = .ok info.methods.length :=
    HeaderBounds.count_eq_ok.mpr ⟨rfl, by omega, hallows.coders⟩
  have hread := decodes_readCoders versions (n := 0) (fun _ => hallows.streamsPerCoder)
    (by rw [Nat.zero_add]; exact hallows.streams) (by rw [Nat.zero_add]; exact hcodecs) hmachine
  rw [Nat.zero_add] at hread
  apply (decodes_readNumber (by omega)).bind
  apply (Decodes.lift hcount).bind_nil
  apply hread.bind
  apply (Decodes.lift ((Result.rejectIf_eq_ok (u := ())).mpr (Nat.ne_of_gt hpos))).bind_nil
  rw [← List.append_nil (List.flatMap _ (List.range _))]
  have hwidth : info.methods.length < 2 ^ 64 := by omega
  apply (decodes_readBindPairs hwidth).bind
  have hpairs : ¬ (StreamTotals.ofChain info.methods.length).totalIn <
      (StreamTotals.ofChain info.methods.length).totalOut - 1 :=
    Nat.not_lt.mpr (Nat.sub_le _ _)
  apply (Decodes.lift ((Result.rejectIf_eq_ok (u := ())).mpr hpairs)).bind_nil
  have hsimple : ∀ coder ∈ info.methods.map (EncoderConfiguration.coder versions),
      coder.numInStreams = 1 ∧ coder.numOutStreams = 1 := by
    intro coder hcoder
    obtain ⟨mc, -, rfl⟩ := List.mem_map.mp hcoder
    exact ⟨rfl, rfl⟩
  have hlength : info.methods.length =
      (info.methods.map (EncoderConfiguration.coder versions)).length := by simp
  rw [hlength]
  apply (decodes_readPackedStreams_chain hcoders).bind_nil
  apply (Decodes.lift (Block.validateCoderGraph_chain hcoders hsimple)).bind_nil
  exact Decodes.pure _

theorem readBlock_allowsChain {bounds : HeaderBounds} {info : BlockInfo} {rest : List UInt8}
    {r : Block × List UInt8} (hne : info.methods ≠ [])
    (hbytes : (info.writeTo versions).length ≤ bounds.bytes) (hmachine : bounds.bytes < 2 ^ 64)
    (h : readBlock bounds (info.writeTo versions ++ rest) = .ok r) :
    bounds.limits.AllowsChain info.methods.length := by
  have hcodecs := Nat.le_trans (info.writeTo_length versions) hbytes
  have hmethods := length_le_flatMap_writeSingleCodec versions info.methods
  rw [BlockInfo.writeTo, List.append_assoc, List.append_assoc] at h
  obtain ⟨num, s₁, hnum, h⟩ := bind_eq_ok.mp h
  obtain ⟨rfl, rfl⟩ := (decodes_readNumber (by omega)).unique hnum
  obtain ⟨numCoders, hcount, h⟩ := lift_bind_eq_ok.mp h
  obtain ⟨rfl, -, hcap⟩ := HeaderBounds.count_eq_ok.mp hcount
  obtain ⟨coders, s₂, hcoders, -⟩ := bind_eq_ok.mp h
  obtain ⟨hstreams, hentries⟩ := readCoders_room versions (n := 0)
    (by rw [Nat.zero_add]; exact hcodecs) hmachine hne hcoders
  rw [Nat.zero_add] at hentries
  exact ⟨hcap, hentries, hstreams⟩

structure UnpackInfo.WithinLimits (limits : ArchiveLimits) (info : UnpackInfo) : Prop where
  blocks : info.blocks.length ≤ limits.maxEntries.toNat
  chains : ∀ block ∈ info.blocks, limits.AllowsChain block.methods.length
  totalCoders :
    (info.blocks.map fun block => block.methods.length).sum ≤ limits.maxTotalCoders.toNat

theorem BlockInfo.length_le_writeTo (info : BlockInfo) :
    info.methods.length + 1 ≤ (info.writeTo versions).length := by
  have hmethods := length_le_flatMap_writeSingleCodec versions info.methods
  have hnumber : 1 ≤ (writeNumber info.methods.length).length := by
    simp [writeNumber, writeU64]
  simp only [BlockInfo.writeTo, List.length_append]
  omega

theorem decodes_readBlocks {bounds : HeaderBounds} {infos : List BlockInfo} {total : Nat}
    (hne : ∀ info ∈ infos, info.methods ≠ [])
    (hallows : ∀ info ∈ infos, bounds.limits.AllowsChain info.methods.length)
    (htotal : total + (infos.map fun info => info.methods.length).sum ≤
      bounds.limits.maxTotalCoders.toNat)
    (hbytes : (infos.flatMap (BlockInfo.writeTo versions)).length ≤ bounds.bytes)
    (hmachine : bounds.bytes < 2 ^ 64) :
    Decodes (readBlocks bounds infos.length total) (infos.flatMap (BlockInfo.writeTo versions))
      (infos.map fun info => { info.block versions with unpackSizes := [] }) := by
  induction infos generalizing total with
  | nil => exact Decodes.pure []
  | cons info infos ih =>
      rw [List.map_cons, List.sum_cons] at htotal
      rw [List.flatMap_cons, List.length_append] at hbytes
      have hcap := bounds.limits.maxTotalCoders.toNat_lt
      have hmin : min (total + info.methods.length) (2 ^ 64 - 1) = total + info.methods.length := by
        omega
      have hblock := decodes_readBlock versions (hne info List.mem_cons_self)
        (hallows info List.mem_cons_self) (by omega) hmachine
      have hcoders : { info.block versions with unpackSizes := [] }.coders.length =
          info.methods.length := List.length_map _
      rw [List.flatMap_cons, List.length_cons]
      apply hblock.bind
      dsimp only
      rw [hcoders, hmin]
      have hwithin : ¬ total + info.methods.length > bounds.limits.maxTotalCoders.toNat := by omega
      apply (Decodes.lift ((Result.rejectIf_eq_ok (u := ())).mpr hwithin)).bind_nil
      rw [← List.append_nil (infos.flatMap _)]
      apply (ih (fun other hother => hne other (List.mem_cons_of_mem info hother))
        (fun other hother => hallows other (List.mem_cons_of_mem info hother)) (by omega)
        (by omega)).bind
      exact Decodes.pure _

theorem readBlocks_withinLimits {bounds : HeaderBounds} {infos : List BlockInfo} {total : Nat}
    {rest : List UInt8} {r : List Block × List UInt8}
    (hne : ∀ info ∈ infos, info.methods ≠ [])
    (hbytes : total + (infos.flatMap (BlockInfo.writeTo versions)).length ≤ bounds.bytes)
    (hmachine : bounds.bytes < 2 ^ 64) (htotal : total ≤ bounds.limits.maxTotalCoders.toNat)
    (h : readBlocks bounds infos.length total
      (infos.flatMap (BlockInfo.writeTo versions) ++ rest) = .ok r) :
    (∀ info ∈ infos, bounds.limits.AllowsChain info.methods.length) ∧
      total + (infos.map fun info => info.methods.length).sum ≤
        bounds.limits.maxTotalCoders.toNat := by
  induction infos generalizing total r with
  | nil => exact ⟨by simp, by simpa using htotal⟩
  | cons info infos ih =>
      have hrecord := info.length_le_writeTo versions
      rw [List.flatMap_cons, List.length_append] at hbytes
      rw [List.flatMap_cons, List.append_assoc] at h
      obtain ⟨block, s₁, hread, h⟩ := bind_eq_ok.mp h
      have hfirst := hne info List.mem_cons_self
      have hallows := readBlock_allowsChain versions hfirst (by omega) hmachine hread
      have hdecodes := decodes_readBlock versions hfirst hallows (by omega) hmachine
      obtain ⟨rfl, rfl⟩ := hdecodes.unique hread
      have hcoders : { info.block versions with unpackSizes := [] }.coders.length =
          info.methods.length := List.length_map _
      have hmin : min (total + info.methods.length) (2 ^ 64 - 1) = total + info.methods.length := by
        omega
      dsimp only at h
      rw [hcoders, hmin] at h
      obtain ⟨_, hwithin, h⟩ := lift_bind_eq_ok.mp h
      obtain ⟨blocks, s₂, hblocks, -⟩ := bind_eq_ok.mp h
      have hle := Result.rejectIf_eq_ok.mp hwithin
      obtain ⟨hchains, hsum⟩ := ih
        (fun other hother => hne other (List.mem_cons_of_mem info hother)) (by omega) (by omega)
        hblocks
      refine ⟨List.forall_mem_cons.mpr ⟨hallows, hchains⟩, ?_⟩
      rw [List.map_cons, List.sum_cons]
      omega

theorem decodes_readUnpackSizes {infos : List BlockInfo}
    (hsizes : ∀ info ∈ infos, info.sizes.length = info.methods.length) :
    Decodes (readUnpackSizes
        (infos.map fun info => { info.block versions with unpackSizes := [] }))
      (infos.flatMap fun info => info.sizes.flatMap writeU64)
      (infos.map (BlockInfo.block versions)) := by
  induction infos with
  | nil => exact Decodes.pure []
  | cons info infos ih =>
      have htotal : (info.block versions).totalOutputStreams = info.sizes.length :=
        (List.length_map _).trans (hsizes info List.mem_cons_self).symm
      have hread : Decodes (many (info.block versions).totalOutputStreams readVariableU64)
          (info.sizes.flatMap writeU64) info.sizes := by
        rw [htotal]
        exact Decodes.many fun size _ => decodes_readVariableU64 size
      have hrest := ih fun other hother => hsizes other (List.mem_cons_of_mem info hother)
      rw [readUnpackSizes, List.map_cons, List.mapM_cons, List.flatMap_cons,
        ← List.append_nil (infos.flatMap _)]
      exact (hread.bind_pure _).bind (hrest.bind (Decodes.pure _))

theorem length_le_flatMap_writeTo (infos : List BlockInfo) :
    infos.length ≤ (infos.flatMap (BlockInfo.writeTo versions)).length := by
  induction infos with
  | nil => exact Nat.le_refl 0
  | cons info infos ih =>
      have := info.length_le_writeTo versions
      simp only [List.flatMap_cons, List.length_cons, List.length_append]
      omega

theorem UnpackInfo.flatMap_writeTo_le (info : UnpackInfo) :
    (info.blocks.flatMap (BlockInfo.writeTo versions)).length ≤
      (info.writeBody versions).length := by
  simp only [UnpackInfo.writeBody, List.length_append]
  omega

theorem decodes_readUnpackInfo {bounds : HeaderBounds} {archive : Archive} {info : UnpackInfo}
    (hne : ∀ block ∈ info.blocks, block.methods ≠ [])
    (hsizes : ∀ block ∈ info.blocks, block.sizes.length = block.methods.length)
    (harchive : archive.blocks = []) (hbytes : (info.writeBody versions).length ≤ bounds.bytes)
    (hmachine : bounds.bytes < 2 ^ 64) (hwithin : info.WithinLimits bounds.limits) :
    Decodes (readUnpackInfo bounds archive) (info.writeBody versions)
      { archive with blocks := info.blocks.map (BlockInfo.block versions) } := by
  have hcount := length_le_flatMap_writeTo versions info.blocks
  have hrecords := info.flatMap_writeTo_le versions
  have hnum : bounds.count info.blocks.length .entries = .ok info.blocks.length :=
    HeaderBounds.count_eq_ok.mpr ⟨rfl, by omega, hwithin.blocks⟩
  have hblocks := decodes_readBlocks versions hne hwithin.chains
    (by rw [Nat.zero_add]; exact hwithin.totalCoders) (by omega) hmachine
  apply (decodes_readU8 kFolder).bind
  apply (Decodes.lift ((Result.rejectIf_eq_ok (u := ())).mpr (by decide))).bind_nil
  apply (decodes_readNumber (by omega)).bind
  apply (Decodes.lift hnum).bind_nil
  apply (decodes_readU8 0).bind
  apply (Decodes.lift ((Result.rejectIf_eq_ok (u := ())).mpr (by decide))).bind_nil
  apply hblocks.bind
  apply (decodes_readU8 kCodersUnpackSize).bind
  apply (Decodes.lift ((Result.rejectIf_eq_ok (u := ())).mpr (by decide))).bind_nil
  rw [harchive, List.nil_append]
  apply (decodes_readUnpackSizes versions hsizes).bind
  rw [← List.append_nil [kEnd]]
  apply (decodes_readU8 kEnd).bind
  have hcrcs : ∀ blocks, Decodes (readBlockCrcs info.blocks.length blocks kEnd) [] (blocks, kEnd) :=
    fun blocks => Decodes.pure (blocks, kEnd)
  apply (hcrcs _).bind_nil
  apply (Decodes.lift ((Result.rejectIf_eq_ok (u := ())).mpr (by decide))).bind_nil
  exact Decodes.pure _

theorem readUnpackInfo_withinLimits {bounds : HeaderBounds} {archive result : Archive}
    {info : UnpackInfo} {rest rest' : List UInt8} (hne : ∀ block ∈ info.blocks, block.methods ≠ [])
    (hbytes : (info.writeBody versions).length ≤ bounds.bytes) (hmachine : bounds.bytes < 2 ^ 64)
    (h : readUnpackInfo bounds archive (info.writeBody versions ++ rest) = .ok (result, rest')) :
    info.WithinLimits bounds.limits := by
  have hcount := length_le_flatMap_writeTo versions info.blocks
  have hrecords := info.flatMap_writeTo_le versions
  have hwidth : info.blocks.length < 2 ^ 64 := by omega
  rw [UnpackInfo.writeBody, List.append_assoc, List.append_assoc, List.append_assoc,
    List.append_assoc] at h
  obtain ⟨nid, s₁, hnid, h⟩ := bind_eq_ok.mp h
  cases hnid
  obtain ⟨_, -, h⟩ := lift_bind_eq_ok.mp h
  obtain ⟨num, s₂, hnum, h⟩ := bind_eq_ok.mp h
  obtain ⟨rfl, rfl⟩ := (decodes_readNumber hwidth).unique hnum
  obtain ⟨numBlocks, hblockCount, h⟩ := lift_bind_eq_ok.mp h
  obtain ⟨rfl, -, hcap⟩ := HeaderBounds.count_eq_ok.mp hblockCount
  obtain ⟨external, s₃, hexternal, h⟩ := bind_eq_ok.mp h
  cases hexternal
  obtain ⟨_, -, h⟩ := lift_bind_eq_ok.mp h
  obtain ⟨blocks, s₄, hblocks, -⟩ := bind_eq_ok.mp h
  obtain ⟨hchains, htotal⟩ := readBlocks_withinLimits versions hne (by omega) hmachine
    (Nat.zero_le _) hblocks
  rw [Nat.zero_add] at htotal
  exact ⟨hcap, hchains, htotal⟩

structure BlockInfo.ReadAs (versions : CodecVersions) (info : BlockInfo) (block : Block) :
    Prop where
  ids : block.coders.map Coder.encoderMethodId = info.methods.map fun mc => mc.method.id
  properties : block.coders.map Coder.properties =
    info.methods.map (EncoderConfiguration.properties versions)
  unpackSizes : block.unpackSizes = info.sizes
  valid : validateCoderGraph block = .ok ()
  /-- Each coder is visited once, in the order they are stored. -/
  visits : block.orderedCoderIter = block.coders.zipIdx.map Prod.swap
  /-- The visit starts at the innermost of the writer's encoders and ends at the outermost. -/
  nesting : ∀ env chain, createWriter env info.methods = .ok chain →
    List.Forall₂ (fun coder encoder => ∃ mc : EncoderConfiguration,
      coder = mc.coder versions ∧ addEncoder env mc = .ok encoder)
      (block.orderedCoderIter.map Prod.snd) chain.encoders.reverse
  unpackSize : ∃ size, info.sizes.getLast? = some size ∧ block.getUnpackSize = .ok size

theorem BlockInfo.readAs_block {info : BlockInfo} (hne : info.methods ≠ [])
    (hsizes : info.sizes.length = info.methods.length) :
    info.ReadAs versions (info.block versions) := by
  have hcoders : info.methods.map (EncoderConfiguration.coder versions) ≠ [] := by simpa using hne
  have hvisits : (info.block versions).orderedCoderIter =
      (info.methods.map (EncoderConfiguration.coder versions)).zipIdx.map Prod.swap :=
    Block.orderedCoderIter_chain
  constructor
  · simp [BlockInfo.block, Block.chain, EncoderConfiguration.coder]
  · simp [BlockInfo.block, Block.chain, EncoderConfiguration.coder]
  · rfl
  · apply Block.validateCoderGraph_chain hcoders
    simp [EncoderConfiguration.coder]
  · exact hvisits
  · intro env chain hchain
    obtain ⟨encoders, hencoders, hnested⟩ := addEncoders_encoders hchain
    have hsnd : (Prod.snd ∘ Prod.swap : Coder × Nat → Coder) = Prod.fst := rfl
    rw [hvisits, hnested, Chain.encoders, List.append_nil, List.reverse_reverse, List.map_map,
      hsnd, List.zipIdx_map_fst, List.forall₂_map_left_iff]
    exact hencoders.imp fun mc encoder hadd => ⟨mc, rfl, hadd⟩
  · have hlast : info.sizes.getLast? = some (info.sizes.getLast
        (by intro h; rw [h] at hsizes; exact hne (List.eq_nil_of_length_eq_zero hsizes.symm))) :=
      List.getLast?_eq_some_getLast _
    exact ⟨_, hlast, Block.chain_getUnpackSize (by simpa using hsizes) hlast⟩

/-- A written section is read back as the chains it records exactly within the limits. -/
theorem readUnpackInfo_writeTo_iff {bounds : HeaderBounds} {archive : Archive} {info : UnpackInfo}
    (hne : ∀ block ∈ info.blocks, block.methods ≠ [])
    (hsizes : ∀ block ∈ info.blocks, block.sizes.length = block.methods.length)
    (harchive : archive.blocks = []) (hbytes : (info.writeBody versions).length ≤ bounds.bytes)
    (hmachine : bounds.bytes < 2 ^ 64) :
    (∃ result, List.Forall₂ (BlockInfo.ReadAs versions) info.blocks result.blocks ∧
        Decodes (readUnpackInfo bounds archive) (info.writeBody versions) result) ↔
      info.WithinLimits bounds.limits := by
  constructor
  · intro h
    obtain ⟨result, -, hdecodes⟩ := h
    exact readUnpackInfo_withinLimits versions hne hbytes hmachine (hdecodes [])
  · intro hwithin
    refine ⟨_, ?_, decodes_readUnpackInfo versions hne hsizes harchive hbytes hmachine hwithin⟩
    simp only [List.forall₂_map_right_iff, List.forall₂_same]
    exact fun block hblock => BlockInfo.readAs_block versions (hne block hblock) (hsizes block hblock)

def filteredUnpackInfo : UnpackInfo :=
  UnpackInfo.add {} [{ method := .lzma }, { method := .bcjX86Filter }] [7, 7] 0xAABBCCDD

theorem filteredUnpackInfo_reads_iff :
    (∃ result, List.Forall₂ (BlockInfo.ReadAs ⟨0, 0, 0⟩) filteredUnpackInfo.blocks result.blocks ∧
        Decodes (readUnpackInfo { bytes := 64, limits := {} } {})
          (filteredUnpackInfo.writeBody ⟨0, 0, 0⟩) result) ↔
      filteredUnpackInfo.WithinLimits {} :=
  readUnpackInfo_writeTo_iff ⟨0, 0, 0⟩ (by decide) (by decide) rfl (by decide) (by decide)

theorem filteredUnpackInfo_refused :
    ¬ ∃ result, List.Forall₂ (BlockInfo.ReadAs ⟨0, 0, 0⟩) filteredUnpackInfo.blocks result.blocks ∧
        Decodes (readUnpackInfo { bytes := 64, limits := { maxEntries := 1 } } {})
          (filteredUnpackInfo.writeBody ⟨0, 0, 0⟩) result := by
  intro h
  obtain ⟨result, -, hdecodes⟩ := h
  have hread := hdecodes []
  rw [List.append_nil] at hread
  have hrefused : (readUnpackInfo { bytes := 64, limits := { maxEntries := 1 } } {}
      (filteredUnpackInfo.writeBody ⟨0, 0, 0⟩)).isOk = false := by
    decide +kernel
  rw [hread] at hrefused
  exact absurd hrefused (by simp [Except.isOk, Except.toBool])

end Sevenz
