import Sevenz.Header.Block
import Mathlib.Data.List.Nodup

/-!
# What an accepted block's graph looks like

The stream conditions hold for every block the reader returns.  Acyclicity is only checked
on the coders the search from the block's output visits.
-/

namespace Sevenz

open Lib Lib.Parser Lib.DepthFirst

namespace Block

def IsOutput (block : Block) (o : Nat) : Prop :=
  o < block.totalOutputStreams ∧ ∀ bp ∈ block.bindPairs, bp.outIndex ≠ o

def Depends (block : Block) (c d : Nat) : Prop :=
  ∃ bp ∈ block.bindPairs,
    block.coderOfIn[bp.inIndex]? = some c ∧ block.coderOfOut[bp.outIndex]? = some d

def Feeds (block : Block) (c : Nat) : Prop :=
  ∃ o root, block.IsOutput o ∧ block.coderOfOut[o]? = some root ∧
    Relation.ReflTransGen block.Depends root c

/-- What `docs/security.md` promises of a block's coder graph. -/
structure ValidGraph (block : Block) : Prop where
  acyclic : ∀ c, ¬ Relation.TransGen block.Depends c c
  inStreams : ∀ c coder k, block.coders[c]? = some coder → k < coder.numInStreams →
    (block.bindPairs.map BindPair.inIndex).count (block.firstIn c + k) +
      block.packedStreams.count (block.firstIn c + k) = 1
  outStreams : ∀ o, (block.bindPairs.map BindPair.outIndex).count o ≤ 1
  output : ∃! o, block.IsOutput o

structure WellBound (block : Block) : Prop where
  totalIn : block.totalInputStreams = (block.coders.map Coder.numInStreams).sum
  totalOut : block.totalOutputStreams = (block.coders.map Coder.numOutStreams).sum
  inOnce : ∀ i < block.totalInputStreams,
    (block.bindPairs.map BindPair.inIndex).count i + block.packedStreams.count i = 1
  outOnce : ∀ o, (block.bindPairs.map BindPair.outIndex).count o ≤ 1
  bindRange : ∀ bp ∈ block.bindPairs,
    bp.inIndex < block.totalInputStreams ∧ bp.outIndex < block.totalOutputStreams
  packedRange : ∀ ps ∈ block.packedStreams, ps < block.totalInputStreams
  output : ∃! o, block.IsOutput o

end Block

theorem toNat_getD_set {flags : List Bool} {i : Nat} (hi : flags[i]? = some false) (j : Nat) :
    ((flags.set i true).getD j false).toNat =
      (flags.getD j false).toNat + if i = j then 1 else 0 := by
  obtain ⟨hlt, hfalse⟩ := List.getElem?_eq_some_iff.mp hi
  rw [List.getD_eq_getElem?_getD, List.getD_eq_getElem?_getD, List.getElem?_set]
  split
  · rename_i hij
    subst hij
    simp [hlt, hfalse]
  · rfl

theorem markBound_eq_ok {bindPairs : List BindPair} {inBound outBound inBound' outBound' : List Bool}
    (h : markBound bindPairs inBound outBound = .ok (inBound', outBound')) :
    inBound'.length = inBound.length ∧ outBound'.length = outBound.length ∧
      (∀ i, (inBound'.getD i false).toNat =
        (inBound.getD i false).toNat + (bindPairs.map BindPair.inIndex).count i) ∧
      ∀ o, (outBound'.getD o false).toNat =
        (outBound.getD o false).toNat + (bindPairs.map BindPair.outIndex).count o := by
  induction bindPairs generalizing inBound outBound with
  | nil =>
      cases Result.pure_eq_ok.mp h
      exact ⟨rfl, rfl, fun _ => rfl, fun _ => rfl⟩
  | cons bp bindPairs ih =>
      obtain ⟨i, hi, h⟩ := Result.bind_eq_ok.mp h
      obtain ⟨o, ho, h⟩ := Result.bind_eq_ok.mp h
      obtain ⟨_, hfree, h⟩ := Result.bind_eq_ok.mp h
      obtain ⟨inBound₁, hin, h⟩ := Result.bind_eq_ok.mp h
      obtain ⟨outBound₁, hout, h⟩ := Result.bind_eq_ok.mp h
      obtain ⟨hi', ho'⟩ := not_or.mp (Result.rejectIf_eq_ok.mp hfree)
      rw [Result.index_eq_ok, Bool.eq_false_iff.mpr hi'] at hi
      rw [Result.index_eq_ok, Bool.eq_false_iff.mpr ho'] at ho
      obtain ⟨-, rfl⟩ := Result.setIndex_eq_ok.mp hin
      obtain ⟨-, rfl⟩ := Result.setIndex_eq_ok.mp hout
      obtain ⟨hlenIn, hlenOut, hcountIn, hcountOut⟩ := ih h
      rw [List.length_set] at hlenIn hlenOut
      refine ⟨hlenIn, hlenOut, fun j => ?_, fun j => ?_⟩
      · rw [hcountIn, toNat_getD_set hi, List.map_cons, List.count_cons]
        simp only [beq_iff_eq]
        omega
      · rw [hcountOut, toNat_getD_set ho, List.map_cons, List.count_cons]
        simp only [beq_iff_eq]
        omega

theorem markPacked_eq_ok {totalIn : Nat} {packedStreams : List Nat} {inBound inBound' : List Bool}
    (h : markPacked totalIn packedStreams inBound = .ok inBound') :
    inBound'.length = inBound.length ∧ (∀ ps ∈ packedStreams, ps < totalIn) ∧
      ∀ i, (inBound'.getD i false).toNat =
        (inBound.getD i false).toNat + packedStreams.count i := by
  induction packedStreams generalizing inBound with
  | nil =>
      cases Result.pure_eq_ok.mp h
      exact ⟨rfl, fun _ hps => absurd hps List.not_mem_nil, fun _ => rfl⟩
  | cons ps packedStreams ih =>
      obtain ⟨_, hrange, h⟩ := Result.bind_eq_ok.mp h
      obtain ⟨i, hi, h⟩ := Result.bind_eq_ok.mp h
      obtain ⟨_, hfree, h⟩ := Result.bind_eq_ok.mp h
      obtain ⟨inBound₁, hin, h⟩ := Result.bind_eq_ok.mp h
      rw [Result.index_eq_ok, Bool.eq_false_iff.mpr (Result.rejectIf_eq_ok.mp hfree)] at hi
      obtain ⟨-, rfl⟩ := Result.setIndex_eq_ok.mp hin
      obtain ⟨hlen, hpacked, hcount⟩ := ih h
      rw [List.length_set] at hlen
      refine ⟨hlen, ?_, fun j => ?_⟩
      · intro q hq
        rcases List.mem_cons.mp hq with rfl | hq
        · exact Nat.lt_of_not_le (Result.rejectIf_eq_ok.mp hrange)
        · exact hpacked q hq
      · rw [hcount, toNat_getD_set hi, List.count_cons]
        simp only [beq_iff_eq]
        omega

theorem eq_of_countP_eq_one {α : Type} {p : α → Bool} {l : List α} (h : l.countP p = 1)
    {i j : Nat} {a b : α} (hi : l[i]? = some a) (ha : p a = true)
    (hj : l[j]? = some b) (hb : p b = true) : i = j := by
  induction l generalizing i j with
  | nil => cases hi
  | cons x l ih =>
      have hzero : ∀ {k : Nat} {c : α}, p x = true → l[k]? = some c → p c = true → False := by
        intro k c hx hk hc
        rw [List.countP_cons_of_pos hx] at h
        exact List.countP_eq_zero.mp (Nat.succ.inj h) c (List.mem_of_getElem? hk) hc
      cases i with
      | zero =>
          cases hi
          cases j with
          | zero => rfl
          | succ j => exact (hzero ha hj hb).elim
      | succ i =>
          cases j with
          | zero =>
              cases hj
              exact (hzero hb hi ha).elim
          | succ j =>
              by_cases hx : p x = true
              · exact (hzero hx hi ha).elim
              · rw [List.countP_cons_of_neg hx] at h
                rw [ih h hi hj]

namespace Block

def searchGraph (block : Block) : Graph where
  slots c := (block.coders.map Coder.numInStreams).getD c 0
  child c k :=
    match block.findBindPairForInStream (block.firstIn c + k) with
    | none => none
    | some bp => block.coderOfOut[bp.outIndex]?

end Block

theorem slots_searchGraph {block : Block} {c : Nat} {coder : Coder}
    (h : block.coders[c]? = some coder) : block.searchGraph.slots c = coder.numInStreams := by
  change (block.coders.map Coder.numInStreams).getD c 0 = _
  rw [List.getD_eq_getElem?_getD, List.getElem?_map, h]
  rfl

def markOf (state : List Mark) (c : Nat) : Mark := state.getD c .unseen

theorem markOf_replicate (n : Nat) : markOf (List.replicate n .unseen) = fun _ => .unseen := by
  funext c
  rw [markOf, List.getD_eq_getElem?_getD, List.getElem?_replicate]
  split <;> rfl

theorem markOf_set {state state' : List Mark} {c : Nat} {m : Mark}
    (h : Result.setIndex state c m = .ok state') :
    markOf state' = Function.update (markOf state) c m := by
  obtain ⟨hc, rfl⟩ := Result.setIndex_eq_ok.mp h
  funext d
  unfold markOf
  rw [List.getD_eq_getElem?_getD, List.getElem?_set]
  by_cases hd : d = c
  · subst hd
    simp [hc]
  · rw [if_neg (Ne.symm hd), Function.update_of_ne hd, List.getD_eq_getElem?_getD]

theorem enterCoder_eq_ok {state : List Mark} {c k : Nat} {entered : Option (List Mark)}
    (h : enterCoder state c k = .ok entered) :
    (entered = none ∧ k = 0 ∧ markOf state c = .done) ∨
      ∃ state', entered = some state' ∧ ¬ (k = 0 ∧ markOf state c = .onPath) ∧
        ¬ (k = 0 ∧ markOf state c = .done) ∧
        markOf state' =
          if k = 0 then Function.update (markOf state) c .onPath else markOf state := by
  unfold enterCoder at h
  split at h
  · rename_i hk
    obtain ⟨mark, hmark, h⟩ := Result.bind_eq_ok.mp h
    have hof : markOf state c = mark := by
      rw [markOf, List.getD_eq_getElem?_getD, Result.index_eq_ok.mp hmark, Option.getD_some]
    cases mark with
    | onPath => cases h
    | done =>
        cases Result.pure_eq_ok.mp h
        exact Or.inl ⟨rfl, hk, hof⟩
    | unseen =>
        obtain ⟨state₁, hset, h⟩ := Result.bind_eq_ok.mp h
        cases Result.pure_eq_ok.mp h
        refine Or.inr ⟨state₁, rfl, ?_, ?_, ?_⟩
        · rw [hof]
          exact fun hpath => Mark.noConfusion hpath.2
        · rw [hof]
          exact fun hdone => Mark.noConfusion hdone.2
        · rw [if_pos hk, markOf_set hset]
  · rename_i hk
    cases Result.pure_eq_ok.mp h
    exact Or.inr ⟨state, rfl, fun hp => hk hp.1, fun hd => hk hd.1, (if_neg hk).symm⟩

theorem child_of_producerOf {block : Block} {c k : Nat} {producer : Option Nat}
    (h : block.producerOf (block.firstIn c + k) = .ok producer) :
    block.searchGraph.child c k = producer := by
  change (match block.findBindPairForInStream (block.firstIn c + k) with
    | none => none
    | some bp => block.coderOfOut[bp.outIndex]?) = producer
  unfold Block.producerOf at h
  cases hfind : block.findBindPairForInStream (block.firstIn c + k) with
  | none =>
      rw [hfind] at h
      exact (Result.pure_eq_ok.mp h).symm
  | some bp =>
      rw [hfind] at h
      obtain ⟨d, hd, h⟩ := Result.bind_eq_ok.mp h
      rw [Result.pure_eq_ok.mp h]
      exact Result.index_eq_ok.mp hd

theorem walk_of_walkCoders {block : Block} {fuel : Nat} {state state' : List Mark}
    {stack : List Frame} (h : walkCoders block fuel state stack = .ok state') :
    walk block.searchGraph fuel (markOf state) stack = .finished (markOf state') := by
  induction fuel generalizing state stack with
  | zero =>
      cases stack with
      | nil =>
          cases Result.pure_eq_ok.mp h
          rfl
      | cons frame stack => cases h
  | succ fuel ih =>
      cases stack with
      | nil =>
          cases Result.pure_eq_ok.mp h
          rfl
      | cons frame stack =>
          obtain ⟨c, k⟩ := frame
          rw [walkCoders] at h
          obtain ⟨entered, henter, h⟩ := Result.bind_eq_ok.mp h
          rw [walk]
          rcases enterCoder_eq_ok henter with ⟨rfl, hk, hdone⟩ | ⟨state₁, rfl, hpath, hdone, hmarks⟩
          · rw [if_neg (by rw [hdone]; exact fun hp => Mark.noConfusion hp.2), if_pos ⟨hk, hdone⟩]
            exact ih h
          · rw [if_neg hpath, if_neg hdone, ← hmarks]
            dsimp only
            obtain ⟨coder, hcoder, h⟩ := Result.bind_eq_ok.mp h
            rw [slots_searchGraph (Result.index_eq_ok.mp hcoder)]
            split at h
            · rename_i hlt
              obtain ⟨producer, hproducer, h⟩ := Result.bind_eq_ok.mp h
              rw [if_pos hlt, pushed, child_of_producerOf hproducer]
              cases producer with
              | none => exact ih h
              | some d => exact ih h
            · rename_i hge
              obtain ⟨state₂, hset, h⟩ := Result.bind_eq_ok.mp h
              rw [if_neg hge, ← markOf_set hset]
              exact ih h

theorem readCoder_eq_ok {bounds : HeaderBounds} {totals totals' : StreamTotals} {coder : Coder}
    {s s' : List UInt8} (h : readCoder bounds totals s = .ok ((coder, totals'), s')) :
    totals'.totalIn = totals.totalIn + coder.numInStreams ∧
      totals'.totalOut = totals.totalOut + coder.numOutStreams := by
  obtain ⟨bits, s₁, -, h⟩ := bind_eq_ok.mp h
  obtain ⟨id, s₂, -, h⟩ := bind_eq_ok.mp h
  obtain ⟨⟨numIn, numOut⟩, s₃, -, h⟩ := bind_eq_ok.mp h
  obtain ⟨totalIn, hin, h⟩ := lift_bind_eq_ok.mp h
  obtain ⟨totalOut, hout, h⟩ := lift_bind_eq_ok.mp h
  obtain ⟨_, -, h⟩ := lift_bind_eq_ok.mp h
  obtain ⟨_, -, h⟩ := lift_bind_eq_ok.mp h
  obtain ⟨_, -, h⟩ := lift_bind_eq_ok.mp h
  obtain ⟨properties, s₄, -, h⟩ := bind_eq_ok.mp h
  obtain ⟨_, -, h⟩ := lift_bind_eq_ok.mp h
  cases pure_eq_ok.mp h
  exact ⟨(checkedAdd_eq_some.mp (Result.okOr_eq_ok.mp hin)).2,
    (checkedAdd_eq_some.mp (Result.okOr_eq_ok.mp hout)).2⟩

theorem readCoders_eq_ok {bounds : HeaderBounds} {n : Nat} {totals totals' : StreamTotals}
    {coders : List Coder} {s s' : List UInt8}
    (h : readCoders bounds n totals s = .ok ((coders, totals'), s')) :
    totals'.totalIn = totals.totalIn + (coders.map Coder.numInStreams).sum ∧
      totals'.totalOut = totals.totalOut + (coders.map Coder.numOutStreams).sum := by
  induction n generalizing totals coders s with
  | zero =>
      cases pure_eq_ok.mp h
      exact ⟨rfl, rfl⟩
  | succ n ih =>
      obtain ⟨⟨coder, totals₁⟩, s₁, hcoder, h⟩ := bind_eq_ok.mp h
      obtain ⟨⟨coders₁, totals₂⟩, s₂, hcoders, h⟩ := bind_eq_ok.mp h
      cases pure_eq_ok.mp h
      obtain ⟨hin, hout⟩ := readCoder_eq_ok hcoder
      obtain ⟨hins, houts⟩ := ih hcoders
      simp only [List.map_cons, List.sum_cons]
      omega

theorem readBindPair_eq_ok {totals : StreamTotals} {bp : BindPair} {s s' : List UInt8}
    (h : readBindPair totals s = .ok (bp, s')) :
    bp.inIndex < totals.totalIn ∧ bp.outIndex < totals.totalOut := by
  obtain ⟨inIndex, s₁, -, h⟩ := bind_eq_ok.mp h
  obtain ⟨outIndex, s₂, -, h⟩ := bind_eq_ok.mp h
  obtain ⟨_, hrange, h⟩ := lift_bind_eq_ok.mp h
  cases pure_eq_ok.mp h
  obtain ⟨hin, hout⟩ := not_or.mp (Result.rejectIf_eq_ok.mp hrange)
  exact ⟨Nat.lt_of_not_le hin, Nat.lt_of_not_le hout⟩

theorem readBlock_eq_ok {bounds : HeaderBounds} {block : Block} {s s' : List UInt8}
    (h : readBlock bounds s = .ok (block, s')) :
    block.totalInputStreams = (block.coders.map Coder.numInStreams).sum ∧
      block.totalOutputStreams = (block.coders.map Coder.numOutStreams).sum ∧
      (∀ bp ∈ block.bindPairs,
        bp.inIndex < block.totalInputStreams ∧ bp.outIndex < block.totalOutputStreams) ∧
      validateCoderGraph block = .ok () := by
  obtain ⟨num, s₁, -, h⟩ := bind_eq_ok.mp h
  obtain ⟨numCoders, -, h⟩ := lift_bind_eq_ok.mp h
  obtain ⟨⟨coders, totals⟩, s₂, hcoders, h⟩ := bind_eq_ok.mp h
  obtain ⟨_, -, h⟩ := lift_bind_eq_ok.mp h
  obtain ⟨bindPairs, s₃, hpairs, h⟩ := bind_eq_ok.mp h
  obtain ⟨_, -, h⟩ := lift_bind_eq_ok.mp h
  obtain ⟨packedStreams, s₄, -, h⟩ := bind_eq_ok.mp h
  obtain ⟨_, hvalid, h⟩ := lift_bind_eq_ok.mp h
  cases pure_eq_ok.mp h
  obtain ⟨hin, hout⟩ := readCoders_eq_ok hcoders
  rw [Nat.zero_add] at hin hout
  exact ⟨hin, hout, many_forall (fun _ _ _ => readBindPair_eq_ok) hpairs, hvalid⟩

theorem readPackedStreams_length {block : Block} {totalIn n : Nat} {packed : List Nat}
    {s s' : List UInt8} (h : readPackedStreams block totalIn n s = .ok (packed, s')) :
    packed.length = n := by
  unfold readPackedStreams at h
  split at h
  · rename_i hone
    obtain ⟨index, -, h⟩ := lift_bind_eq_ok.mp h
    cases pure_eq_ok.mp h
    exact hone.symm
  · exact many_length h

theorem readBlock_packedStreams_length {bounds : HeaderBounds} {block : Block} {s s' : List UInt8}
    (h : readBlock bounds s = .ok (block, s')) :
    block.packedStreams.length = block.totalInputStreams - (block.totalOutputStreams - 1) := by
  obtain ⟨num, s₁, -, h⟩ := bind_eq_ok.mp h
  obtain ⟨numCoders, -, h⟩ := lift_bind_eq_ok.mp h
  obtain ⟨⟨coders, totals⟩, s₂, -, h⟩ := bind_eq_ok.mp h
  obtain ⟨_, -, h⟩ := lift_bind_eq_ok.mp h
  obtain ⟨bindPairs, s₃, -, h⟩ := bind_eq_ok.mp h
  obtain ⟨_, -, h⟩ := lift_bind_eq_ok.mp h
  obtain ⟨packedStreams, s₄, hpacked, h⟩ := bind_eq_ok.mp h
  obtain ⟨_, -, h⟩ := lift_bind_eq_ok.mp h
  cases pure_eq_ok.mp h
  exact readPackedStreams_length hpacked

theorem getD_replicate_false (n i : Nat) : (List.replicate n false).getD i false = false := by
  rw [List.getD_eq_getElem?_getD, List.getElem?_replicate]
  split <;> rfl

/-- The final check, taken apart: the streams are bound as they should be, and the search
from the coder that owns the output has finished. -/
theorem validateCoderGraph_eq_ok {block : Block} (h : validateCoderGraph block = .ok ()) :
    (∀ i < block.totalInputStreams,
        (block.bindPairs.map BindPair.inIndex).count i + block.packedStreams.count i = 1) ∧
      (∀ o, (block.bindPairs.map BindPair.outIndex).count o ≤ 1) ∧
      (∀ ps ∈ block.packedStreams, ps < block.totalInputStreams) ∧
      ∃ o root marks, block.IsOutput o ∧ (∀ o', block.IsOutput o' → o' = o) ∧
        block.coderOfOut[o]? = some root ∧
        walk block.searchGraph (walkFuel block) (fun _ => .unseen) [(root, 0)] =
          .finished marks := by
  obtain ⟨⟨inBound, outBound⟩, hbound, h⟩ := Result.bind_eq_ok.mp h
  obtain ⟨inBound', hpacked, h⟩ := Result.bind_eq_ok.mp h
  obtain ⟨_, hany, h⟩ := Result.bind_eq_ok.mp h
  obtain ⟨_, hone, h⟩ := Result.bind_eq_ok.mp h
  obtain ⟨finalOut, hfinal, h⟩ := Result.bind_eq_ok.mp h
  obtain ⟨root, hroot, h⟩ := Result.bind_eq_ok.mp h
  obtain ⟨state, hwalk, -⟩ := Result.bind_eq_ok.mp h
  obtain ⟨hlenIn, hlenOut, hcountIn, hcountOut⟩ := markBound_eq_ok hbound
  obtain ⟨hlenIn', hpackedRange, hcountPacked⟩ := markPacked_eq_ok hpacked
  simp only [getD_replicate_false, Bool.toNat_false, Nat.zero_add] at hcountIn hcountOut
  rw [List.length_replicate] at hlenIn hlenOut
  have houtput : ∀ o, block.IsOutput o ↔ outBound[o]? = some false := by
    intro o
    rw [Block.IsOutput, ← hlenOut, List.getElem?_eq_some_iff]
    constructor
    · rintro ⟨hlt, hfree⟩
      refine ⟨hlt, Bool.eq_false_iff.mpr fun htrue => ?_⟩
      have := hcountOut o
      rw [List.getD_eq_getElem _ _ hlt, htrue, Bool.toNat_true] at this
      obtain ⟨bp, hbp, hout⟩ := List.mem_map.mp (List.count_pos_iff.mp (Nat.lt_of_lt_of_eq
        Nat.one_pos this))
      exact hfree bp hbp hout
    · rintro ⟨hlt, hfalse⟩
      refine ⟨hlt, fun bp hbp hout => ?_⟩
      have := hcountOut o
      rw [List.getD_eq_getElem _ _ hlt, hfalse, Bool.toNat_false] at this
      have := List.count_pos_iff.mpr (List.mem_map.mpr ⟨bp, hbp, hout⟩)
      omega
  have hfinal' : outBound[finalOut]? = some false := by
    obtain ⟨hlt, hnot, -⟩ := List.findIdx?_eq_some_iff_getElem.mp (Result.expect_eq_ok.mp hfinal)
    rw [List.getElem?_eq_getElem hlt]
    simpa using hnot
  have hone' : outBound.countP not = 1 := not_not.mp (Result.rejectIf_eq_ok.mp hone)
  refine ⟨fun i hi => ?_, fun o => ?_, hpackedRange, finalOut, root, markOf state, ?_, ?_, ?_, ?_⟩
  · rw [← hcountIn i, ← hcountPacked i]
    have hi' : i < inBound'.length := by omega
    have hall := Result.rejectIf_eq_ok.mp hany
    rw [List.getD_eq_getElem _ _ hi']
    have : inBound'[i] = true := by
      by_contra hfalse
      exact hall (List.any_eq_true.mpr ⟨_, List.getElem_mem hi', by simpa using hfalse⟩)
    rw [this]
    rfl
  · rw [← hcountOut o]
    exact Bool.toNat_le _
  · exact (houtput finalOut).mpr hfinal'
  · intro o ho
    exact eq_of_countP_eq_one hone' ((houtput o).mp ho) rfl hfinal' rfl
  · exact Result.index_eq_ok.mp hroot
  · rw [← markOf_replicate block.coders.length]
    exact walk_of_walkCoders hwalk

theorem outOfFuel_of_enterCoder {state : List Mark} {c k : Nat} :
    enterCoder state c k ≠ .error .outOfFuel := by
  unfold enterCoder
  split
  · intro h
    rcases Result.bind_eq_error.mp h with h | ⟨mark, -, h⟩
    · exact Result.index_ne_outOfFuel h
    · cases mark with
      | onPath => cases h
      | done => cases h
      | unseen =>
          rcases Result.bind_eq_error.mp h with h | ⟨state', -, h⟩
          · exact Result.setIndex_ne_outOfFuel h
          · cases h
  · intro h
    cases h

theorem outOfFuel_of_producerOf {block : Block} {i : Nat} :
    block.producerOf i ≠ .error .outOfFuel := by
  unfold Block.producerOf
  split
  · intro h
    cases h
  · intro h
    rcases Result.bind_eq_error.mp h with h | ⟨d, -, h⟩
    · exact Result.index_ne_outOfFuel h
    · cases h

theorem walk_outOfFuel {block : Block} {fuel : Nat} {state : List Mark} {stack : List Frame}
    (h : walkCoders block fuel state stack = .error .outOfFuel) :
    walk block.searchGraph fuel (markOf state) stack = .outOfFuel := by
  induction fuel generalizing state stack with
  | zero =>
      cases stack with
      | nil => cases h
      | cons frame stack => rfl
  | succ fuel ih =>
      cases stack with
      | nil => cases h
      | cons frame stack =>
          obtain ⟨c, k⟩ := frame
          rw [walkCoders] at h
          rcases Result.bind_eq_error.mp h with h | ⟨entered, henter, h⟩
          · exact absurd h outOfFuel_of_enterCoder
          rw [walk]
          rcases enterCoder_eq_ok henter with ⟨rfl, hk, hdone⟩ | ⟨state₁, rfl, hpath, hdone, hmarks⟩
          · rw [if_neg (by rw [hdone]; exact fun hp => Mark.noConfusion hp.2), if_pos ⟨hk, hdone⟩]
            exact ih h
          · rw [if_neg hpath, if_neg hdone, ← hmarks]
            dsimp only
            rcases Result.bind_eq_error.mp h with h | ⟨coder, hcoder, h⟩
            · exact absurd h Result.index_ne_outOfFuel
            rw [slots_searchGraph (Result.index_eq_ok.mp hcoder)]
            split at h
            · rename_i hlt
              rcases Result.bind_eq_error.mp h with h | ⟨producer, hproducer, h⟩
              · exact absurd h outOfFuel_of_producerOf
              rw [if_pos hlt, pushed, child_of_producerOf hproducer]
              cases producer with
              | none => exact ih h
              | some d => exact ih h
            · rename_i hge
              rcases Result.bind_eq_error.mp h with h | ⟨state₂, hset, h⟩
              · exact absurd h Result.setIndex_ne_outOfFuel
              rw [if_neg hge, ← markOf_set hset]
              exact ih h

theorem searchGraph_child_lt {block : Block} {c k d : Nat}
    (h : block.searchGraph.child c k = some d) : d < block.coders.length := by
  change (match block.findBindPairForInStream (block.firstIn c + k) with
    | none => none
    | some bp => block.coderOfOut[bp.outIndex]?) = some d at h
  split at h
  · cases h
  · rw [Block.coderOfOut, owners_getElem?, List.length_map] at h
    exact h.1

theorem unseenCost_searchGraph (block : Block) :
    unseenCost block.searchGraph block.coders.length (fun _ => .unseen) =
      2 * (block.coders.map Coder.numInStreams).sum + block.coders.length := by
  have hslots : (List.range block.coders.length).map (fun c =>
      if Mark.unseen = .unseen then 2 * block.searchGraph.slots c + 1 else 0) =
        block.coders.map fun coder => 2 * coder.numInStreams + 1 := by
    refine List.ext_getElem (by simp) fun i h₁ h₂ => ?_
    rw [List.length_map] at h₂
    rw [List.getElem_map, List.getElem_range, List.getElem_map, if_pos rfl,
      slots_searchGraph (List.getElem?_eq_getElem h₂)]
  rw [unseenCost, hslots]
  induction block.coders with
  | nil => rfl
  | cons coder coders ih =>
      rw [List.map_cons, List.sum_cons, ih, List.map_cons, List.sum_cons, List.length_cons]
      omega

theorem markBound_ne_outOfFuel {bindPairs : List BindPair} {inBound outBound : List Bool} :
    markBound bindPairs inBound outBound ≠ .error .outOfFuel := by
  induction bindPairs generalizing inBound outBound with
  | nil =>
      intro h
      cases h
  | cons bp bindPairs ih =>
      intro h
      rcases Result.bind_eq_error.mp h with h | ⟨i, -, h⟩
      · exact Result.index_ne_outOfFuel h
      rcases Result.bind_eq_error.mp h with h | ⟨o, -, h⟩
      · exact Result.index_ne_outOfFuel h
      rcases Result.bind_eq_error.mp h with h | ⟨_, -, h⟩
      · exact Result.rejectIf_ne_outOfFuel h
      rcases Result.bind_eq_error.mp h with h | ⟨inBound', -, h⟩
      · exact Result.setIndex_ne_outOfFuel h
      rcases Result.bind_eq_error.mp h with h | ⟨outBound', -, h⟩
      · exact Result.setIndex_ne_outOfFuel h
      exact ih h

theorem markPacked_ne_outOfFuel {totalIn : Nat} {packedStreams : List Nat} {inBound : List Bool} :
    markPacked totalIn packedStreams inBound ≠ .error .outOfFuel := by
  induction packedStreams generalizing inBound with
  | nil =>
      intro h
      cases h
  | cons ps packedStreams ih =>
      intro h
      rcases Result.bind_eq_error.mp h with h | ⟨_, -, h⟩
      · exact Result.rejectIf_ne_outOfFuel h
      rcases Result.bind_eq_error.mp h with h | ⟨i, -, h⟩
      · exact Result.index_ne_outOfFuel h
      rcases Result.bind_eq_error.mp h with h | ⟨_, -, h⟩
      · exact Result.rejectIf_ne_outOfFuel h
      rcases Result.bind_eq_error.mp h with h | ⟨inBound', -, h⟩
      · exact Result.setIndex_ne_outOfFuel h
      exact ih h

theorem validateCoderGraph_ne_outOfFuel {block : Block}
    (hin : block.totalInputStreams = (block.coders.map Coder.numInStreams).sum) :
    validateCoderGraph block ≠ .error .outOfFuel := by
  intro h
  rcases Result.bind_eq_error.mp h with h | ⟨⟨inBound, outBound⟩, -, h⟩
  · exact markBound_ne_outOfFuel h
  rcases Result.bind_eq_error.mp h with h | ⟨inBound', -, h⟩
  · exact markPacked_ne_outOfFuel h
  rcases Result.bind_eq_error.mp h with h | ⟨_, -, h⟩
  · exact Result.rejectIf_ne_outOfFuel h
  rcases Result.bind_eq_error.mp h with h | ⟨_, -, h⟩
  · exact Result.rejectIf_ne_outOfFuel h
  rcases Result.bind_eq_error.mp h with h | ⟨finalOut, -, h⟩
  · exact Result.expect_ne_outOfFuel h
  rcases Result.bind_eq_error.mp h with h | ⟨root, hroot, h⟩
  · exact Result.index_ne_outOfFuel h
  rcases Result.bind_eq_error.mp h with h | ⟨state, -, h⟩
  · have hrootLt : root < block.coders.length := by
      have := Result.index_eq_ok.mp hroot
      rw [Block.coderOfOut, owners_getElem?, List.length_map] at this
      exact this.1
    refine walk_ne_outOfFuel (n := block.coders.length) (fun c k d => searchGraph_child_lt)
      ?_ ?_ (walk_outOfFuel h)
    · intro frame hframe
      rw [List.mem_singleton.mp hframe]
      exact hrootLt
    · rw [markOf_replicate, cost, unseenCost_searchGraph, walkFuel, hin]
      exact Nat.le_refl _
  · cases h

theorem readBlock_wellBound {bounds : HeaderBounds} {block : Block} {s s' : List UInt8}
    (h : readBlock bounds s = .ok (block, s')) : block.WellBound := by
  obtain ⟨hin, hout, hrange, hvalid⟩ := readBlock_eq_ok h
  obtain ⟨hinOnce, houtOnce, hpacked, o, root, marks, ho, hunique, -, -⟩ :=
    validateCoderGraph_eq_ok hvalid
  exact ⟨hin, hout, hinOnce, houtOnce, hrange, hpacked, o, ho, hunique⟩

namespace Block.WellBound

variable {block : Block}

theorem nodup_inIndex (h : block.WellBound) : (block.bindPairs.map BindPair.inIndex).Nodup := by
  rw [List.nodup_iff_count_le_one]
  intro i
  rcases Nat.lt_or_ge i block.totalInputStreams with hlt | hge
  · have := h.inOnce i hlt
    omega
  · rw [List.count_eq_zero_of_not_mem]
    · exact Nat.zero_le 1
    · rintro hmem
      obtain ⟨bp, hbp, rfl⟩ := List.mem_map.mp hmem
      exact absurd (h.bindRange bp hbp).1 (Nat.not_lt.mpr hge)

theorem findBindPairForInStream_eq (h : block.WellBound) {bp : BindPair} (hbp : bp ∈ block.bindPairs) :
    block.findBindPairForInStream bp.inIndex = some bp := by
  have hsome : (block.findBindPairForInStream bp.inIndex).isSome :=
    List.find?_isSome.mpr ⟨bp, hbp, beq_self_eq_true _⟩
  obtain ⟨bp', hbp'⟩ := Option.isSome_iff_exists.mp hsome
  have hmem : bp' ∈ block.bindPairs := List.mem_of_find?_eq_some hbp'
  have heq : bp'.inIndex = bp.inIndex := by simpa using List.find?_some hbp'
  rw [hbp', List.inj_on_of_nodup_map h.nodup_inIndex hmem hbp heq]

theorem firstIn_add_lt (h : block.WellBound) {c k : Nat} {coder : Coder}
    (hc : block.coders[c]? = some coder) (hk : k < coder.numInStreams) :
    block.firstIn c + k < block.totalInputStreams := by
  have hn : (block.coders.map Coder.numInStreams)[c]? = some coder.numInStreams := by
    rw [List.getElem?_map, hc, Option.map_some]
  have hsum := offset_le_sum (block.coders.map Coder.numInStreams) (c + 1)
  rw [offset_succ hn] at hsum
  rw [h.totalIn]
  exact Nat.lt_of_lt_of_le (Nat.add_lt_add_left hk _) hsum

theorem child_iff_depends (h : block.WellBound) {c d : Nat} :
    block.searchGraph.Child c d ↔ block.Depends c d := by
  constructor
  · rintro ⟨k, hk, hchild⟩
    obtain ⟨n, hn⟩ : ∃ n, (block.coders.map Coder.numInStreams)[c]? = some n := by
      rcases hget : (block.coders.map Coder.numInStreams)[c]? with _ | n
      · change k < (block.coders.map Coder.numInStreams).getD c 0 at hk
        rw [List.getD_eq_getElem?_getD, hget] at hk
        exact absurd hk (Nat.not_lt_zero k)
      · exact ⟨n, rfl⟩
    have hkn : k < n := by
      change k < (block.coders.map Coder.numInStreams).getD c 0 at hk
      rwa [List.getD_eq_getElem?_getD, hn] at hk
    change (match block.findBindPairForInStream (block.firstIn c + k) with
      | none => none
      | some bp => block.coderOfOut[bp.outIndex]?) = some d at hchild
    split at hchild
    · cases hchild
    · rename_i bp hbp
      have hin : bp.inIndex = block.firstIn c + k := by simpa using List.find?_some hbp
      refine ⟨bp, List.mem_of_find?_eq_some hbp, ?_, hchild⟩
      rw [hin]
      exact owners_offset_add hn hkn
  · rintro ⟨bp, hbp, hc, hd⟩
    obtain ⟨hlt, hle, hupper⟩ := owners_getElem?.mp hc
    have hn := List.getElem?_eq_getElem hlt
    rw [offset_succ hn] at hupper
    refine ⟨bp.inIndex - block.firstIn c, ?_, ?_⟩
    · change _ < (block.coders.map Coder.numInStreams).getD c 0
      rw [List.getD_eq_getElem?_getD, hn, Option.getD_some, Block.firstIn]
      omega
    · change (match block.findBindPairForInStream
        (block.firstIn c + (bp.inIndex - block.firstIn c)) with
          | none => none
          | some bp => block.coderOfOut[bp.outIndex]?) = some d
      have hsum : block.firstIn c + (bp.inIndex - block.firstIn c) = bp.inIndex := by
        rw [Block.firstIn]
        omega
      rw [hsum, h.findBindPairForInStream_eq hbp]
      exact hd

end Block.WellBound

theorem readBlock_feeds_acc {bounds : HeaderBounds} {block : Block} {s s' : List UInt8}
    (h : readBlock bounds s = .ok (block, s')) {c : Nat} (hc : block.Feeds c) :
    Acc (Function.swap block.Depends) c := by
  have hbound := readBlock_wellBound h
  obtain ⟨-, -, -, o, root, marks, ho, hunique, hroot, hwalk⟩ :=
    validateCoderGraph_eq_ok (readBlock_eq_ok h).2.2.2
  have hchild : (fun d c => block.searchGraph.Child c d) = Function.swap block.Depends := by
    funext d c
    exact propext hbound.child_iff_depends
  have hacc : Acc (Function.swap block.Depends) root := hchild ▸ walk_root_acc hwalk
  obtain ⟨o', root', ho', hroot', hreach⟩ := hc
  rw [hunique o' ho', hroot] at hroot'
  cases hroot'
  induction hreach with
  | refl => exact hacc
  | tail _ hstep ih => exact ih.inv hstep

theorem readBlock_feeds_acyclic {bounds : HeaderBounds} {block : Block} {s s' : List UInt8}
    (h : readBlock bounds s = .ok (block, s')) {c : Nat} (hc : block.Feeds c) :
    ¬ Relation.TransGen block.Depends c c := by
  rw [← Relation.transGen_swap]
  exact not_transGen_of_acc (readBlock_feeds_acc h hc)

/-- An accepted block has the promised graph exactly when no cycle is hidden among the
coders its output is not computed from. -/
theorem readBlock_validGraph_iff {bounds : HeaderBounds} {block : Block} {s s' : List UInt8}
    (h : readBlock bounds s = .ok (block, s')) :
    block.ValidGraph ↔ ∀ c, ¬ block.Feeds c → ¬ Relation.TransGen block.Depends c c := by
  have hbound := readBlock_wellBound h
  constructor
  · intro hvalid c _
    exact hvalid.acyclic c
  · intro hidden
    refine ⟨fun c => ?_, fun c coder k hcoder hk => ?_, hbound.outOnce, hbound.output⟩
    · by_cases hc : block.Feeds c
      · exact readBlock_feeds_acyclic h hc
      · exact hidden c hc
    · exact hbound.inOnce _ (hbound.firstIn_add_lt hcoder hk)

/-- Two copy coders, the first of which reads what the second decodes. -/
theorem readBlock_copy_validGraph_iff :
    let block : Block :=
      { coders := [⟨[0], 1, 1, []⟩, ⟨[0], 1, 1, []⟩], totalInputStreams := 2
        totalOutputStreams := 2, bindPairs := [⟨0, 1⟩], packedStreams := [1] }
    block.ValidGraph ↔ ∀ c, ¬ block.Feeds c → ¬ Relation.TransGen block.Depends c c :=
  @readBlock_validGraph_iff ⟨7, {}⟩ _ [0x02, 0x01, 0x00, 0x01, 0x00, 0x00, 0x01] []
    (by decide +kernel)

/-- Two copy coders, the second bound to itself.  The search starts at the first, which
owns the output, and never meets the second. -/
theorem readBlock_accepts_self_loop :
    ∃ block, readBlock ⟨7, {}⟩ [0x02, 0x01, 0x00, 0x01, 0x00, 0x01, 0x01] = .ok (block, []) ∧
      ¬ block.ValidGraph := by
  refine ⟨_, by rfl, fun h => h.acyclic 1 (Relation.TransGen.single ?_)⟩
  exact ⟨⟨1, 1⟩, List.mem_singleton.mpr rfl, rfl, rfl⟩

end Sevenz
