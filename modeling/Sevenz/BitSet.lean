import Sevenz.Lib.Bytes
import Sevenz.Error

/-!
# Bit sets

The crate's `BitSet` over words of `usize`.  The two facts its operations maintain,
that the words are exactly those the bit count needs and that no bit past the count is
set, are fields of the structure; everything later is stated through `contains`.
-/

namespace Sevenz

open Lib Lib.Parser

def blocksForBits (bits : Nat) : Nat :=
  if bits = 0 then 0 else (bits - 1) / 64 + 1

theorem blocksForBits_eq (bits : Nat) : blocksForBits bits = (bits + 63) / 64 := by
  unfold blocksForBits
  split
  · rename_i h
    rw [h]
  · omega

theorem div_lt_blocksForBits {value bits : Nat} (h : value < bits) :
    value / 64 < blocksForBits bits := by
  rw [blocksForBits_eq]
  omega

def bitAt (bits : List (BitVec 64)) (value : Nat) : Bool :=
  (bits.getD (value / 64) 0#64).getLsbD (value % 64)

structure BitSet where
  bits : List (BitVec 64)
  bitCount : Nat
  length_bits : bits.length = blocksForBits bitCount
  clear_above : ∀ value, bitCount ≤ value → bitAt bits value = false
  deriving DecidableEq

namespace BitSet

def contains (s : BitSet) (value : Nat) : Bool :=
  if value ≥ s.bitCount then false
  else (s.bits.getD (value / 64) 0#64 &&& 1#64 <<< (value % 64)) != 0#64

theorem and_one_shiftLeft_ne_zero (w : BitVec 64) {i : Nat} (h : i < 64) :
    (w &&& 1#64 <<< i) != 0#64 ↔ w.getLsbD i = true := by
  have hbit : ∀ j, (w &&& 1#64 <<< i).getLsbD j = (w.getLsbD j && decide (j = i)) := by
    intro j
    rw [BitVec.getLsbD_and, BitVec.getLsbD_shiftLeft, BitVec.getLsbD_one]
    by_cases hj : j < 64
    · by_cases hji : j = i
      · simp [hji, h]
      · by_cases hlt : j < i
        · simp [hlt, hji]
        · have : j - i ≠ 0 := by omega
          simp [hji, this]
    · rw [BitVec.getLsbD_of_ge w j (by omega)]
      simp
  rw [bne_iff_ne, ne_eq]
  constructor
  · intro hne
    by_contra hw
    apply hne
    apply BitVec.eq_of_getLsbD_eq
    intro j _
    rw [hbit]
    by_cases hji : j = i
    · simp [hji, Bool.eq_false_iff.mpr hw]
    · simp [hji]
  · intro hw heq
    have := hbit i
    rw [heq] at this
    simp [hw] at this

theorem contains_eq_bitAt (s : BitSet) (value : Nat) : s.contains value = bitAt s.bits value := by
  unfold contains
  split
  · rename_i h
    exact (s.clear_above value h).symm
  · rw [Bool.eq_iff_iff, and_one_shiftLeft_ne_zero _ (Nat.mod_lt _ (by decide))]
    rfl

theorem contains_of_ge {s : BitSet} {value : Nat} (h : s.bitCount ≤ value) :
    s.contains value = false := by
  rw [contains_eq_bitAt, s.clear_above value h]

def empty : BitSet where
  bits := []
  bitCount := 0
  length_bits := rfl
  clear_above := by simp [bitAt]

@[simp] theorem bitAt_replicate_zero (n value : Nat) :
    bitAt (List.replicate n 0#64) value = false := by
  unfold bitAt
  rw [List.getD_eq_getElem?_getD, List.getElem?_replicate]
  split <;> simp

/-- `BitSet::with_capacity`, which fixes the bit count as well as the words. -/
def withCapacity (bitCount : Nat) : BitSet where
  bits := List.replicate (blocksForBits bitCount) 0#64
  bitCount := bitCount
  length_bits := List.length_replicate
  clear_above := by simp

@[simp] theorem contains_empty (value : Nat) : empty.contains value = false := by
  rw [contains_eq_bitAt]
  simp [empty, bitAt]

@[simp] theorem contains_withCapacity (n value : Nat) :
    (withCapacity n).contains value = false := by
  rw [contains_eq_bitAt]
  simp [withCapacity]

@[simp] theorem bitCount_empty : empty.bitCount = 0 := rfl

@[simp] theorem bitCount_withCapacity (n : Nat) : (withCapacity n).bitCount = n := rfl

theorem bitAt_append_zeros (bits : List (BitVec 64)) (n value : Nat) :
    bitAt (bits ++ List.replicate n 0#64) value = bitAt bits value := by
  unfold bitAt
  rw [List.getD_eq_getElem?_getD, List.getD_eq_getElem?_getD, List.getElem?_append]
  split
  · rfl
  · rename_i h
    rw [List.getElem?_replicate, List.getElem?_eq_none (Nat.le_of_not_lt h)]
    split <;> simp

def grow (s : BitSet) (newLen : Nat) : BitSet :=
  if h : newLen ≤ s.bitCount then s
  else
    { bits := s.bits ++ List.replicate (blocksForBits newLen - s.bits.length) 0#64
      bitCount := newLen
      length_bits := by
        rw [List.length_append, List.length_replicate, s.length_bits, blocksForBits_eq,
          blocksForBits_eq]
        omega
      clear_above := by
        intro value hvalue
        rw [bitAt_append_zeros]
        exact s.clear_above value (by omega) }

@[simp] theorem contains_grow (s : BitSet) (newLen value : Nat) :
    (s.grow newLen).contains value = s.contains value := by
  rw [contains_eq_bitAt, contains_eq_bitAt]
  unfold grow
  split
  · rfl
  · exact bitAt_append_zeros _ _ _

theorem bitCount_grow (s : BitSet) (newLen : Nat) :
    (s.grow newLen).bitCount = max s.bitCount newLen := by
  unfold grow
  split
  · rename_i h
    exact (Nat.max_eq_left h).symm
  · rename_i h
    exact (Nat.max_eq_right (Nat.le_of_not_le h)).symm

theorem bitAt_set {bits : List (BitVec 64)} {value : Nat} (h : value / 64 < bits.length)
    (w : BitVec 64) (other : Nat) :
    bitAt (bits.set (value / 64) w) other =
      if other / 64 = value / 64 then w.getLsbD (other % 64) else bitAt bits other := by
  unfold bitAt
  rw [List.getD_eq_getElem?_getD, List.getD_eq_getElem?_getD, List.getElem?_set]
  split
  · rename_i heq
    rw [if_pos heq.symm]
    rfl
  · rename_i hne
    rw [if_neg (Ne.symm hne)]

theorem div_mod_eq_iff {value other : Nat} :
    (other / 64 = value / 64 ∧ other % 64 = value % 64) ↔ other = value := by
  omega

theorem getD_mod_bit (s : BitSet) (other value : Nat) (h : other / 64 = value / 64) :
    (s.bits.getD (value / 64) 0#64).getLsbD (other % 64) = bitAt s.bits other := by
  rw [bitAt, h]

def setBit (s : BitSet) (value : Nat) (h : value < s.bitCount) : BitSet where
  bits := s.bits.set (value / 64) (s.bits.getD (value / 64) 0#64 ||| 1#64 <<< (value % 64))
  bitCount := s.bitCount
  length_bits := by rw [List.length_set, s.length_bits]
  clear_above := by
    intro other hother
    have hin : value / 64 < s.bits.length := s.length_bits ▸ div_lt_blocksForBits h
    rw [bitAt_set hin]
    split
    · rename_i heq
      rw [BitVec.getLsbD_or, getD_mod_bit s other value heq, s.clear_above other hother,
        BitVec.getLsbD_shiftLeft, BitVec.getLsbD_one]
      have : other % 64 ≠ value % 64 := by omega
      by_cases hlt : other % 64 < value % 64
      · simp [hlt]
      · have : other % 64 - value % 64 ≠ 0 := by omega
        simp [this]
    · exact s.clear_above other hother

theorem contains_setBit (s : BitSet) {value : Nat} (h : value < s.bitCount) (other : Nat) :
    (s.setBit value h).contains other = (decide (other = value) || s.contains other) := by
  have hin : value / 64 < s.bits.length := s.length_bits ▸ div_lt_blocksForBits h
  rw [contains_eq_bitAt, contains_eq_bitAt]
  change bitAt (s.bits.set _ _) other = _
  rw [bitAt_set hin]
  split
  · rename_i heq
    rw [BitVec.getLsbD_or, getD_mod_bit s other value heq, BitVec.getLsbD_shiftLeft,
      BitVec.getLsbD_one, Bool.or_comm]
    congr 1
    by_cases hov : other = value
    · simp [hov, Nat.mod_lt]
    · have hmod : other % 64 ≠ value % 64 := fun hmod => hov (div_mod_eq_iff.mp ⟨heq, hmod⟩)
      by_cases hlt : other % 64 < value % 64
      · simp [hlt, hov]
      · have : other % 64 - value % 64 ≠ 0 := by omega
        simp [this, hov]
  · rename_i hne
    have hov : other ≠ value := fun hov => hne (by rw [hov])
    simp [hov]

def insert (s : BitSet) (value : Nat) : BitSet :=
  if s.contains value then s
  else (s.grow (value + 1)).setBit value (by rw [bitCount_grow]; omega)

@[simp] theorem contains_insert (s : BitSet) (value other : Nat) :
    (s.insert value).contains other = (decide (other = value) || s.contains other) := by
  unfold insert
  split
  · rename_i h
    by_cases hov : other = value
    · simp [hov, h]
    · simp [hov]
  · rw [contains_setBit, contains_grow]

theorem bitCount_insert (s : BitSet) (value : Nat) :
    (s.insert value).bitCount = max s.bitCount (value + 1) := by
  unfold insert
  split
  · rename_i h
    have : value < s.bitCount := by
      by_contra hge
      rw [contains_of_ge (by omega)] at h
      cases h
    omega
  · exact bitCount_grow s (value + 1)

def clearBit (s : BitSet) (value : Nat) (h : value < s.bitCount) : BitSet where
  bits := s.bits.set (value / 64) (s.bits.getD (value / 64) 0#64 &&& ~~~ (1#64 <<< (value % 64)))
  bitCount := s.bitCount
  length_bits := by rw [List.length_set, s.length_bits]
  clear_above := by
    intro other hother
    have hin : value / 64 < s.bits.length := s.length_bits ▸ div_lt_blocksForBits h
    rw [bitAt_set hin]
    split
    · rename_i heq
      rw [BitVec.getLsbD_and, getD_mod_bit s other value heq, s.clear_above other hother,
        Bool.false_and]
    · exact s.clear_above other hother

def remove (s : BitSet) (value : Nat) : BitSet :=
  if h : s.contains value then
    s.clearBit value (by
      by_contra hge
      rw [contains_of_ge (by omega)] at h
      cases h)
  else s

@[simp] theorem contains_remove (s : BitSet) (value other : Nat) :
    (s.remove value).contains other = (decide (other ≠ value) && s.contains other) := by
  unfold remove
  split
  · rename_i h
    have hlt : value < s.bitCount := by
      by_contra hge
      rw [contains_of_ge (by omega)] at h
      cases h
    have hin : value / 64 < s.bits.length := s.length_bits ▸ div_lt_blocksForBits hlt
    rw [contains_eq_bitAt, contains_eq_bitAt]
    change bitAt (s.bits.set _ _) other = _
    rw [bitAt_set hin]
    split
    · rename_i heq
      rw [BitVec.getLsbD_and, getD_mod_bit s other value heq, Bool.and_comm]
      congr 1
      rw [BitVec.getLsbD_not, BitVec.getLsbD_shiftLeft, BitVec.getLsbD_one]
      have hmlt : other % 64 < 64 := Nat.mod_lt _ (by decide)
      by_cases hov : other = value
      · simp [hov, Nat.mod_lt]
      · have hmod : other % 64 ≠ value % 64 := fun hmod => hov (div_mod_eq_iff.mp ⟨heq, hmod⟩)
        by_cases hltm : other % 64 < value % 64
        · simp [hltm, hov, hmlt]
        · have : other % 64 - value % 64 ≠ 0 := by omega
          simp [this, hov, hmlt]
    · rename_i hne
      have hov : other ≠ value := fun hov => hne (by rw [hov])
      simp [hov]
  · rename_i h
    by_cases hov : other = value
    · simp [hov, h]
    · simp [hov]

/-- Reserves room for exactly `count` elements, which also raises the bit count. -/
def reserveLenExact (s : BitSet) (count : Nat) : BitSet := s.grow count

def countOnes (word : BitVec 64) : Nat := (List.range 64).countP fun i => word.getLsbD i

def len (s : BitSet) : Nat := (s.bits.map countOnes).sum

theorem bitAt_cons (w : BitVec 64) (bits : List (BitVec 64)) (value : Nat) :
    bitAt (w :: bits) (64 + value) = bitAt bits value := by
  unfold bitAt
  rw [Nat.add_comm 64 value, Nat.add_div_right _ (by decide), Nat.add_mod_right,
    List.getD_cons_succ]

theorem sum_countOnes (bits : List (BitVec 64)) :
    (bits.map countOnes).sum = (List.range (64 * bits.length)).countP (bitAt bits) := by
  induction bits with
  | nil => rfl
  | cons w bits ih =>
      have hword : (List.range 64).countP (bitAt (w :: bits)) = countOnes w := by
        refine List.countP_congr fun i hi => ?_
        have hlt := List.mem_range.mp hi
        simp [bitAt, Nat.div_eq_of_lt hlt, Nat.mod_eq_of_lt hlt]
      have hrest : (List.range (64 * bits.length)).countP (bitAt (w :: bits) ∘ (64 + ·)) =
          (List.range (64 * bits.length)).countP (bitAt bits) :=
        List.countP_congr fun i _ => by rw [Function.comp_apply, bitAt_cons]
      rw [List.map_cons, List.sum_cons, ih, List.length_cons, Nat.mul_succ, Nat.add_comm _ 64,
        List.range_add, List.countP_append, List.countP_map, hword, hrest]

theorem countP_range_le {p : Nat → Bool} {n m : Nat} (hnm : n ≤ m)
    (h : ∀ i, n ≤ i → p i = false) : (List.range m).countP p = (List.range n).countP p := by
  obtain ⟨k, rfl⟩ := Nat.exists_eq_add_of_le hnm
  rw [List.range_add, List.countP_append, List.countP_map, Nat.add_eq_left,
    List.countP_eq_zero]
  intro i _
  rw [Function.comp_apply, h _ (Nat.le_add_right n i)]
  exact Bool.false_ne_true

theorem len_eq_countP (s : BitSet) {n : Nat} (h : s.bitCount ≤ n) :
    s.len = (List.range n).countP s.contains := by
  have hcontains : s.contains = bitAt s.bits := funext s.contains_eq_bitAt
  have hroom : s.bitCount ≤ 64 * s.bits.length := by
    rw [s.length_bits, blocksForBits_eq]
    omega
  rw [len, sum_countOnes, hcontains, countP_range_le hroom s.clear_above,
    countP_range_le h s.clear_above]

def toBits (s : BitSet) (n : Nat) : List Bool := (List.range n).map s.contains

@[simp] theorem toBits_length (s : BitSet) (n : Nat) : (s.toBits n).length = n := by
  rw [toBits, List.length_map, List.length_range]

def insertFrom (s : BitSet) (first : Nat) : List Bool → BitSet
  | [] => s
  | b :: bits => (if b then s.insert first else s).insertFrom (first + 1) bits

def ofBits (bits : List Bool) : BitSet := (withCapacity bits.length).insertFrom 0 bits

theorem contains_insertFrom (s : BitSet) (first : Nat) (bits : List Bool) (value : Nat) :
    (s.insertFrom first bits).contains value =
      (s.contains value || (decide (first ≤ value) && bits.getD (value - first) false)) := by
  induction bits generalizing s first with
  | nil => simp [insertFrom]
  | cons b bits ih =>
      rw [insertFrom, ih]
      have hhead : (if b = true then s.insert first else s).contains value =
          (s.contains value || (b && decide (value = first))) := by
        cases b with
        | false => simp
        | true => simp [Bool.or_comm]
      rw [hhead, Bool.or_assoc]
      congr 1
      rcases Nat.lt_trichotomy value first with hlt | rfl | hgt
      · have h₁ : ¬ first ≤ value := by omega
        have h₂ : ¬ first + 1 ≤ value := by omega
        have h₃ : value ≠ first := by omega
        simp [h₁, h₂, h₃]
      · have h₁ : ¬ value + 1 ≤ value := by omega
        simp [h₁]
      · obtain ⟨k, rfl⟩ : ∃ k, value = first + 1 + k := ⟨value - (first + 1), by omega⟩
        have h₁ : first + 1 + k ≠ first := by omega
        have h₂ : first + 1 + k - first = k + 1 := by omega
        have h₃ : first ≤ first + 1 + k := by omega
        simp [h₁, h₂, h₃]

theorem bitCount_insertFrom (s : BitSet) {first : Nat} {bits : List Bool}
    (h : first + bits.length ≤ s.bitCount) : (s.insertFrom first bits).bitCount = s.bitCount := by
  induction bits generalizing s first with
  | nil => rfl
  | cons b bits ih =>
      rw [List.length_cons] at h
      have hhead : (if b = true then s.insert first else s).bitCount = s.bitCount := by
        cases b with
        | false => rfl
        | true =>
            rw [if_pos rfl, bitCount_insert]
            omega
      rw [insertFrom, ih _ (by omega), hhead]

@[simp] theorem contains_ofBits (bits : List Bool) (value : Nat) :
    (ofBits bits).contains value = bits.getD value false := by
  rw [ofBits, contains_insertFrom]
  simp

@[simp] theorem bitCount_ofBits (bits : List Bool) : (ofBits bits).bitCount = bits.length :=
  bitCount_insertFrom _ (by simp)

@[simp] theorem toBits_ofBits (bits : List Bool) : (ofBits bits).toBits bits.length = bits := by
  refine List.ext_getElem (by simp) fun i h₁ h₂ => ?_
  simp [toBits, h₂]

def full (size : Nat) : BitSet := (List.range size).foldl insert (withCapacity size)

theorem contains_foldl_insert (values : List Nat) (s : BitSet) (value : Nat) :
    (values.foldl insert s).contains value = (decide (value ∈ values) || s.contains value) := by
  induction values generalizing s with
  | nil => simp
  | cons v values ih =>
      rw [List.foldl_cons, ih]
      by_cases hv : value = v <;> simp [hv]

@[simp] theorem contains_full (size value : Nat) :
    (full size).contains value = decide (value < size) := by
  rw [full, contains_foldl_insert]
  simp

end BitSet

/-- One pass of `write_bit_set`: `cache` holds the bits of the byte begun and `shift` the
place of the next one. -/
def writeBitSetLoop (bs : BitSet) : Nat → Nat → Nat → Nat → List UInt8
  | 0, _, cache, shift => if shift ≠ 7 then [UInt8.ofNat cache] else []
  | n + 1, i, cache, shift =>
      let set := if bs.contains i then 1 else 0
      let cache := cache ||| set <<< shift
      if shift = 0 then UInt8.ofNat cache :: writeBitSetLoop bs n (i + 1) 0 7
      else writeBitSetLoop bs n (i + 1) cache (shift - 1)

def writeBitSet (bs : BitSet) : List UInt8 := writeBitSetLoop bs bs.bitCount 0 0 7

theorem writeBitSetLoop_eq (bs : BitSet) (n i : Nat) (cur : List Bool) (hcur : cur.length < 8) :
    writeBitSetLoop bs n i (byteOfBits cur) (7 - cur.length) =
      packBitsFrom cur ((List.range' i n).map bs.contains) := by
  induction n generalizing i cur with
  | zero =>
      rw [writeBitSetLoop, List.range'_zero, List.map_nil, packBitsFrom]
      rcases cur with _ | ⟨b, cur⟩
      · rfl
      · have : 7 - (b :: cur).length ≠ 7 := by
          rw [List.length_cons] at hcur ⊢
          omega
        rw [if_pos this, if_neg (List.cons_ne_nil b cur)]
  | succ n ih =>
      have hset : (if bs.contains i = true then 1 else 0) = (bs.contains i).toNat := by
        cases bs.contains i <;> rfl
      rw [writeBitSetLoop, List.range'_succ, List.map_cons, packBitsFrom]
      simp only [hset, ← byteOfBits_append cur (bs.contains i) hcur]
      by_cases hseven : cur.length = 7
      · rw [if_pos (by omega), if_pos hseven]
        exact congrArg _ (ih (i + 1) [] (by simp))
      · have hlen : (cur ++ [bs.contains i]).length = cur.length + 1 := List.length_append
        rw [if_neg (by omega), if_neg hseven, ← ih (i + 1) _ (by omega), hlen, Nat.sub_sub]

theorem writeBitSet_eq (bs : BitSet) : writeBitSet bs = packBits (bs.toBits bs.bitCount) := by
  have := writeBitSetLoop_eq bs bs.bitCount 0 [] (by simp)
  rw [byteOfBits_nil, ← List.range_eq_range'] at this
  exact this

theorem bitCount_insertFrom_eq (s : BitSet) (first : Nat) (bits : List Bool) :
    (s.insertFrom first bits).bitCount =
      if lastBit bits = 0 then s.bitCount else max s.bitCount (first + lastBit bits) := by
  induction bits generalizing s first with
  | nil => rfl
  | cons b bits ih =>
      rw [BitSet.insertFrom, ih, lastBit]
      cases b with
      | false =>
          simp only [Bool.false_eq_true, if_false, Bool.toNat_false]
          split <;> simp_all
          omega
      | true =>
          simp only [if_true, Bool.toNat_true, BitSet.bitCount_insert]
          split <;> simp_all
          omega

theorem writeBitSet_insertFrom (bits : List Bool) :
    writeBitSet (BitSet.empty.insertFrom 0 bits) = packBits (bits.take (lastBit bits)) := by
  have hcount : (BitSet.empty.insertFrom 0 bits).bitCount = lastBit bits := by
    rw [bitCount_insertFrom_eq]
    split
    · rename_i h
      rw [h]
      rfl
    · simp
  rw [writeBitSet_eq, hcount]
  congr 1
  apply List.ext_getElem
  · simp [lastBit_le]
  · intro i hi hi'
    have hlt : i < bits.length := by
      simp at hi'
      omega
    simp [BitSet.toBits, BitSet.contains_insertFrom, hlt]

end Sevenz
