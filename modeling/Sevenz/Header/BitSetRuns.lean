import Mathlib.Data.Finset.Card
import Mathlib.Data.Finset.Image
import Mathlib.Data.Fintype.Basic
import Sevenz.Header.Number

/-!
# Runs of bit set operations

A presence vector is built by any sequence of the operations of `BitSet`.  The sequence is
compared with the same operations on a finite set of `usize` values, answers included, and the
vector it leaves is written and read back.  `insert` computes `value + 1`, which is the one
place where an index of type `usize` is not enough.
-/

namespace Sevenz

open Lib Lib.Parser

def usizeMax : UInt64 := 0xFFFFFFFFFFFFFFFF

inductive BitSetOp where
  | withCapacity (bitCount : UInt64)
  | insert (value : UInt64)
  | remove (value : UInt64)
  | reserveLenExact (count : UInt64)
  deriving DecidableEq, Repr

namespace BitSet

/-- `insert` with its answer.  The next length is computed only for a value the bit count does
not cover yet. -/
def insertChecked (s : BitSet) (value : Nat) : Result (Bool × BitSet) :=
  if s.contains value then pure (false, s)
  else if h : value < s.bitCount then pure (true, s.setBit value h)
  else
    match checkedAdd value 1 with
    | none => .error (.panic .attemptToAddWithOverflow)
    | some _ => pure (true, s.insert value)

def removeAnswering (s : BitSet) (value : Nat) : Bool × BitSet := (s.contains value, s.remove value)

def apply (s : BitSet) : BitSetOp → Result (Option Bool × BitSet)
  | .withCapacity bitCount => pure (none, withCapacity bitCount.toNat)
  | .insert value => do
      let (added, s) ← s.insertChecked value.toNat
      pure (some added, s)
  | .remove value =>
      let (removed, s) := s.removeAnswering value.toNat
      pure (some removed, s)
  | .reserveLenExact count => pure (none, s.reserveLenExact count.toNat)

def applyAll : List BitSetOp → BitSet → Result (List (Option Bool) × BitSet)
  | [], s => pure ([], s)
  | op :: ops, s => do
      let (answer, s) ← s.apply op
      let (answers, s) ← applyAll ops s
      pure (answer :: answers, s)

end BitSet

def BitSetOp.onMembers (members : Finset UInt64) : BitSetOp → Option Bool × Finset UInt64
  | .withCapacity _ => (none, ∅)
  | .insert value => (some (decide (value ∉ members)), Insert.insert value members)
  | .remove value => (some (decide (value ∈ members)), members.erase value)
  | .reserveLenExact _ => (none, members)

def onMembersAll : List BitSetOp → Finset UInt64 → List (Option Bool) × Finset UInt64
  | [], members => ([], members)
  | op :: ops, members =>
      let (answer, members) := op.onMembers members
      let (answers, members) := onMembersAll ops members
      (answer :: answers, members)

/-- The bit set holds the finite set, within a `usize` of bits that its blocks cover. -/
structure InStep (s : BitSet) (members : Finset UInt64) : Prop where
  bitCount_lt : s.bitCount < 2 ^ 64
  contains : ∀ value : UInt64, s.contains value.toNat = decide (value ∈ members)

/-- What is promised of a set: its members and their number, the blocks under its bits, and the
vector read back from what is written. -/
structure Represents (s : BitSet) (members : Finset UInt64) : Prop where
  contains : ∀ value : UInt64, s.contains value.toNat = decide (value ∈ members)
  len : s.len = members.card
  covered : s.bitCount ≤ 64 * s.bits.length
  readBack : ∀ rest, ∃ back, readBits s.bitCount (writeBitSet s ++ rest) = .ok (back, rest) ∧
    back.bitCount = s.bitCount ∧ ∀ value, back.contains value = s.contains value

theorem BitSet.insertChecked_of_lt {s : BitSet} {value : Nat} (h : value + 1 < 2 ^ 64) :
    s.insertChecked value = .ok (!s.contains value, s.insert value) := by
  unfold insertChecked BitSet.insert
  by_cases hin : s.contains value
  · rw [if_pos hin, if_pos hin, hin]
    rfl
  · rw [if_neg hin, if_neg hin, Bool.eq_false_iff.mpr hin]
    by_cases hlt : value < s.bitCount
    · have hgrow : s.grow (value + 1) = s := by
        rw [BitSet.grow, dif_pos (by omega)]
      rw [dif_pos hlt]
      simp only [hgrow]
      rfl
    · have hadd : checkedAdd value 1 = some (value + 1) := checkedAdd_eq_some.mpr ⟨h, rfl⟩
      rw [dif_neg hlt, hadd]
      rfl

theorem toNat_add_one_lt {value : UInt64} : value.toNat + 1 < 2 ^ 64 ↔ value ≠ usizeMax := by
  have hmax : usizeMax.toNat = 2 ^ 64 - 1 := rfl
  have hlt := value.toNat_lt
  rw [ne_eq, ← UInt64.toNat_inj, hmax]
  omega

namespace InStep

variable {s s' : BitSet} {members : Finset UInt64}

theorem empty : InStep .empty ∅ where
  bitCount_lt := by decide
  contains value := by simp

theorem withCapacity (bitCount : UInt64) : InStep (.withCapacity bitCount.toNat) ∅ where
  bitCount_lt := bitCount.toNat_lt
  contains value := by simp

theorem insert (h : InStep s members) {value : UInt64} (hvalue : value ≠ usizeMax) :
    InStep (s.insert value.toNat) (insert value members) where
  bitCount_lt := by
    have hlt := toNat_add_one_lt.mpr hvalue
    have hcount := h.bitCount_lt
    rw [BitSet.bitCount_insert]
    omega
  contains other := by
    rw [BitSet.contains_insert, h.contains, ← Bool.decide_or]
    simp only [UInt64.toNat_inj, Finset.mem_insert]

theorem remove (h : InStep s members) (value : UInt64) :
    InStep (s.remove value.toNat) (members.erase value) where
  bitCount_lt := by
    have hcount : (s.remove value.toNat).bitCount = s.bitCount := by
      unfold BitSet.remove
      split <;> rfl
    rw [hcount]
    exact h.bitCount_lt
  contains other := by
    rw [BitSet.contains_remove, h.contains, ← Bool.decide_and]
    simp only [ne_eq, UInt64.toNat_inj, Finset.mem_erase]

theorem reserveLenExact (h : InStep s members) (count : UInt64) :
    InStep (s.reserveLenExact count.toNat) members where
  bitCount_lt := by
    have hlt := count.toNat_lt
    have hcount := h.bitCount_lt
    rw [BitSet.reserveLenExact, BitSet.bitCount_grow]
    omega
  contains other := by rw [BitSet.reserveLenExact, BitSet.contains_grow, h.contains]

/-- An operation that is not an insertion of `usize::MAX` answers what the finite set answers and
keeps the set in step with it. -/
theorem apply (h : InStep s members) {op : BitSetOp} (hop : op ≠ .insert usizeMax) :
    ∃ s', s.apply op = .ok ((op.onMembers members).1, s') ∧ InStep s' (op.onMembers members).2 := by
  cases op with
  | withCapacity bitCount => exact ⟨_, rfl, withCapacity bitCount⟩
  | insert value =>
      have hvalue : value ≠ usizeMax := fun heq => hop (heq ▸ rfl)
      refine ⟨_, ?_, h.insert hvalue⟩
      rw [BitSet.apply, BitSet.insertChecked_of_lt (toNat_add_one_lt.mpr hvalue), h.contains]
      simp only [BitSetOp.onMembers, decide_not]
      rfl
  | remove value =>
      refine ⟨_, ?_, h.remove value⟩
      simp only [BitSet.apply, BitSet.removeAnswering, BitSetOp.onMembers, h.contains]
      rfl
  | reserveLenExact count => exact ⟨_, rfl, h.reserveLenExact count⟩

theorem apply_insert_usizeMax (h : InStep s members) :
    s.apply (.insert usizeMax) = .error (.panic .attemptToAddWithOverflow) := by
  have hmax : usizeMax.toNat = 2 ^ 64 - 1 := rfl
  have hcount := h.bitCount_lt
  have hout : ¬ s.contains usizeMax.toNat := by
    rw [BitSet.contains_of_ge (by omega)]
    exact Bool.false_ne_true
  have hlt : ¬ usizeMax.toNat < s.bitCount := by omega
  rw [BitSet.apply, BitSet.insertChecked, if_neg hout, dif_neg hlt]
  rfl

/-- A sequence without an insertion of `usize::MAX` runs to its end, in step with the finite
set. -/
theorem applyAll (h : InStep s members) {ops : List BitSetOp} (hops : .insert usizeMax ∉ ops) :
    ∃ s', s.applyAll ops = .ok ((onMembersAll ops members).1, s') ∧
      InStep s' (onMembersAll ops members).2 := by
  induction ops generalizing s members with
  | nil => exact ⟨s, rfl, h⟩
  | cons op ops ih =>
      rw [List.mem_cons, not_or] at hops
      obtain ⟨s₁, hstep, h₁⟩ := h.apply (Ne.symm hops.1)
      obtain ⟨s₂, hrest, h₂⟩ := ih h₁ hops.2
      refine ⟨s₂, ?_, h₂⟩
      rw [BitSet.applyAll, Result.bind_of_ok hstep]
      dsimp only
      rw [Result.bind_of_ok hrest]
      rfl

theorem not_mem_of_applyAll (h : InStep s members) {ops : List BitSetOp}
    {answers : List (Option Bool)} (hrun : s.applyAll ops = .ok (answers, s')) :
    .insert usizeMax ∉ ops := by
  induction ops generalizing s members answers with
  | nil => simp
  | cons op ops ih =>
      rw [BitSet.applyAll] at hrun
      obtain ⟨⟨answer, s₁⟩, hstep, hrun⟩ := Result.bind_eq_ok.mp hrun
      obtain ⟨⟨answers₁, s₂⟩, hrest, hend⟩ := Result.bind_eq_ok.mp hrun
      cases Result.pure_eq_ok.mp hend
      have hop : op ≠ .insert usizeMax := by
        rintro rfl
        rw [h.apply_insert_usizeMax] at hstep
        cases hstep
      obtain ⟨s₁', hstep', h₁⟩ := h.apply hop
      rw [hstep] at hstep'
      cases hstep'
      rw [List.mem_cons, not_or]
      exact ⟨Ne.symm hop, ih h₁ hrest⟩

theorem image_toNat (h : InStep s members) :
    members.image UInt64.toNat = ((List.range s.bitCount).filter s.contains).toFinset := by
  ext position
  rw [Finset.mem_image, List.mem_toFinset, List.mem_filter, List.mem_range]
  constructor
  · rintro ⟨value, hvalue, rfl⟩
    have hin : s.contains value.toNat := by simp [h.contains, hvalue]
    refine ⟨?_, hin⟩
    by_contra hge
    rw [BitSet.contains_of_ge (by omega)] at hin
    cases hin
  · rintro ⟨hlt, hin⟩
    have hposition : (UInt64.ofNat position).toNat = position :=
      UInt64.toNat_ofNat_of_lt' (hlt.trans h.bitCount_lt)
    refine ⟨UInt64.ofNat position, ?_, hposition⟩
    rw [← hposition, h.contains] at hin
    exact of_decide_eq_true hin

theorem len (h : InStep s members) : s.len = members.card := by
  have hnodup : ((List.range s.bitCount).filter s.contains).Nodup := List.nodup_range.filter _
  calc s.len = ((List.range s.bitCount).filter s.contains).length := by
        rw [s.len_eq_countP (Nat.le_refl _), List.countP_eq_length_filter]
    _ = (members.image UInt64.toNat).card := by
        rw [h.image_toNat, List.toFinset_card_of_nodup hnodup]
    _ = members.card := Finset.card_image_of_injective _ fun _ _ => UInt64.toNat_inj.mp

end InStep

namespace BitSet

theorem bitCount_le (s : BitSet) : s.bitCount ≤ 64 * s.bits.length := by
  rw [s.length_bits, blocksForBits_eq]
  omega

/-- A vector as long as the bit count comes back with the same members, whatever follows it. -/
theorem readBits_writeBitSet (s : BitSet) (rest : List UInt8) :
    ∃ back, readBits s.bitCount (writeBitSet s ++ rest) = .ok (back, rest) ∧
      back.bitCount = s.bitCount ∧ ∀ value, back.contains value = s.contains value := by
  have hread := decodes_readBits (s.toBits s.bitCount) rest
  rw [toBits_length, ← writeBitSet_eq] at hread
  refine ⟨_, hread, ?_, fun value => ?_⟩
  · rw [bitCount_ofBits, toBits_length]
  · rw [contains_ofBits, toBits, List.getD_eq_getElem?_getD, List.getElem?_map]
    by_cases hlt : value < s.bitCount
    · simp [hlt]
    · rw [contains_of_ge (Nat.le_of_not_lt hlt)]
      simp [hlt]

end BitSet

theorem InStep.represents {s : BitSet} {members : Finset UInt64} (h : InStep s members) :
    Represents s members where
  contains := h.contains
  len := h.len
  covered := s.bitCount_le
  readBack := s.readBits_writeBitSet

/-- A sequence of operations does to a bit set what it does to the finite set, and leaves a
vector that is read back, exactly when it never inserts `usize::MAX`. -/
theorem bitSet_represents_iff (ops : List BitSetOp) :
    (∃ s, BitSet.empty.applyAll ops = .ok ((onMembersAll ops ∅).1, s) ∧
      Represents s (onMembersAll ops ∅).2) ↔ .insert usizeMax ∉ ops := by
  constructor
  · rintro ⟨s, hrun, -⟩
    exact InStep.empty.not_mem_of_applyAll hrun
  · intro hops
    obtain ⟨s, hrun, hs⟩ := InStep.empty.applyAll hops
    exact ⟨s, hrun, hs.represents⟩

theorem insert_usizeMax_overflows :
    ¬ ∀ ops : List BitSetOp, ∃ s, BitSet.empty.applyAll ops = .ok ((onMembersAll ops ∅).1, s) ∧
      Represents s (onMembersAll ops ∅).2 := by
  intro h
  obtain ⟨s, hrun, -⟩ := h [.insert usizeMax]
  cases hrun

example : BitSet.empty.applyAll
    [.withCapacity 3, .insert 9, .insert 0, .insert 9, .remove 2, .remove 9] =
      .ok ([none, some true, some true, some false, some false, some true],
        ((BitSet.empty.insert 0).reserveLenExact 10)) := by
  decide

end Sevenz
