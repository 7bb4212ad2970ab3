import Sevenz.Lib.Parser
import Mathlib.Data.Nat.Bitwise
import Mathlib.Data.List.GetD

/-!
# Byte layouts

Little-endian numbers of a fixed width, and bit vectors packed eight to a byte with
the most significant bit first.
-/

namespace Sevenz.Lib

def leBytes : Nat → Nat → List UInt8
  | 0, _ => []
  | width + 1, value => UInt8.ofNat value :: leBytes width (value / 256)

def leValue : List UInt8 → Nat
  | [] => 0
  | b :: bs => b.toNat + 256 * leValue bs

@[simp] theorem leBytes_length (width value : Nat) : (leBytes width value).length = width := by
  induction width generalizing value with
  | zero => rfl
  | succ width ih => rw [leBytes, List.length_cons, ih]

theorem leValue_leBytes (width value : Nat) :
    leValue (leBytes width value) = value % 256 ^ width := by
  induction width generalizing value with
  | zero => simp [leBytes, leValue, Nat.mod_one]
  | succ width ih =>
      rw [leBytes, leValue, ih, UInt8.toNat_ofNat', show 256 ^ (width + 1) = 256 * 256 ^ width
        from Nat.pow_succ', Nat.mod_mul]

theorem leValue_leBytes_of_lt {width value : Nat} (h : value < 256 ^ width) :
    leValue (leBytes width value) = value := by
  rw [leValue_leBytes, Nat.mod_eq_of_lt h]

theorem leValue_lt (bs : List UInt8) : leValue bs < 256 ^ bs.length := by
  induction bs with
  | nil => simp [leValue]
  | cons b bs ih =>
      have hb := b.toNat_lt
      rw [leValue, List.length_cons, Nat.pow_succ]
      omega

namespace Parser

variable {ε : Type}

def le (eof : ε) (width : Nat) : Parser ε Nat := do
  let bs ← bytes eof width
  pure (leValue bs)

theorem Consumes.le (eof : ε) (width : Nat) : Consumes (Parser.le eof width) width :=
  (Consumes.bytes eof width).bind fun bs => Consumes.pure (leValue bs)

theorem Decodes.le (eof : ε) {width value : Nat} (h : value < 256 ^ width) :
    Decodes (Parser.le eof width) (leBytes width value) value := by
  have hbytes : Decodes (Parser.bytes eof width) (leBytes width value)
      (leBytes width value) := by
    have := Decodes.bytes eof (leBytes width value)
    rwa [leBytes_length] at this
  have := hbytes.bind_pure leValue
  rwa [leValue_leBytes_of_lt h] at this

end Parser

/-- The number whose `7 - j`th bit is the `j`th element of `bits`. -/
def byteOfBits (bits : List Bool) : Nat :=
  Nat.ofBits fun j : Fin 8 => bits.getD (7 - j.val) false

theorem testBit_byteOfBits (bits : List Bool) {j : Nat} (hj : j < 8) :
    (byteOfBits bits).testBit (7 - j) = bits.getD j false := by
  rw [byteOfBits, Nat.testBit_ofBits_lt _ _ (by omega)]
  congr 1
  change 7 - (7 - j) = j
  omega

theorem byteOfBits_lt (bits : List Bool) : byteOfBits bits < 256 :=
  Nat.ofBits_lt_two_pow _

@[simp] theorem byteOfBits_nil : byteOfBits [] = 0 := by decide

private theorem testBit_toNat_of_ne_zero (b : Bool) {i : Nat} (h : i ≠ 0) :
    b.toNat.testBit i = false := by
  cases b with
  | false => simp
  | true => exact Bool.eq_false_iff.mpr (Nat.testBit_one_eq_true_iff_self_eq_zero.not.mpr h)

theorem byteOfBits_append (bits : List Bool) (b : Bool) (h : bits.length < 8) :
    byteOfBits (bits ++ [b]) = byteOfBits bits ||| b.toNat <<< (7 - bits.length) := by
  apply Nat.eq_of_testBit_eq
  intro i
  rw [Nat.testBit_or, Nat.testBit_shiftLeft]
  by_cases hi : i < 8
  · obtain ⟨j, hj, rfl⟩ : ∃ j, j < 8 ∧ i = 7 - j := ⟨7 - i, by omega, by omega⟩
    rw [testBit_byteOfBits _ hj, testBit_byteOfBits _ hj]
    rcases Nat.lt_trichotomy j bits.length with hlt | rfl | hgt
    · have hne : 7 - j - (7 - bits.length) ≠ 0 := by omega
      rw [List.getD_append _ _ _ _ hlt, testBit_toNat_of_ne_zero b hne]
      simp
    · cases b <;> simp
    · have hge : ¬ 7 - j ≥ 7 - bits.length := by omega
      rw [List.getD_eq_default _ _ (by simp; omega), List.getD_eq_default _ _ (by omega)]
      simp [hge]
  · have hlarge : ∀ l : List Bool, (byteOfBits l).testBit i = false := fun l =>
      Nat.testBit_ofBits_ge _ _ (by omega)
    rw [hlarge, hlarge, testBit_toNat_of_ne_zero b (by omega)]
    simp

/-- Bits packed eight to a byte, the first of them the most significant, after the
bits `cur` of a byte already begun. -/
def packBitsFrom : List Bool → List Bool → List UInt8
  | cur, [] => if cur = [] then [] else [UInt8.ofNat (byteOfBits cur)]
  | cur, b :: bs =>
      if cur.length = 7 then UInt8.ofNat (byteOfBits (cur ++ [b])) :: packBitsFrom [] bs
      else packBitsFrom (cur ++ [b]) bs

def packBits (bits : List Bool) : List UInt8 := packBitsFrom [] bits

theorem packBitsFrom_eq_cons {cur bits : List Bool} (hcur : cur.length < 8)
    (hne : cur ++ bits ≠ []) :
    packBitsFrom cur bits =
      UInt8.ofNat (byteOfBits (cur ++ bits.take (8 - cur.length))) ::
        packBits (bits.drop (8 - cur.length)) := by
  induction bits generalizing cur with
  | nil =>
      rw [List.append_nil] at hne
      simp [packBitsFrom, packBits, hne]
  | cons b bits ih =>
      rw [packBitsFrom]
      split
      · rename_i hseven
        simp [hseven, packBits]
      · rename_i hseven
        have hshort : (cur ++ [b]).length < 8 := by
          rw [List.length_append, List.length_singleton]
          omega
        obtain ⟨k, hk⟩ : ∃ k, 8 - cur.length = k + 1 := ⟨7 - cur.length, by omega⟩
        have hk' : 8 - (cur ++ [b]).length = k := by
          rw [List.length_append, List.length_singleton]
          omega
        rw [ih hshort (by simp), hk, hk', List.take_succ_cons, List.drop_succ_cons,
          List.append_assoc, List.singleton_append]

theorem packBitsFrom_length {cur bits : List Bool} (hcur : cur.length < 8) :
    (packBitsFrom cur bits).length = (cur.length + bits.length + 7) / 8 := by
  induction bits generalizing cur with
  | nil =>
      rw [packBitsFrom]
      split
      · rename_i hnil
        simp [hnil]
      · rename_i hne
        have := List.length_pos_of_ne_nil hne
        simp only [List.length_singleton, List.length_nil]
        omega
  | cons b bits ih =>
      rw [packBitsFrom]
      split
      · rename_i hseven
        rw [List.length_cons, ih (by simp), List.length_cons, hseven, List.length_nil]
        omega
      · rename_i hseven
        have hlen : (cur ++ [b]).length = cur.length + 1 := List.length_append
        rw [ih (by omega), hlen, List.length_cons]
        congr 1
        omega

theorem packBits_length (bits : List Bool) : (packBits bits).length = (bits.length + 7) / 8 := by
  rw [packBits, packBitsFrom_length (by simp), List.length_nil, Nat.zero_add]

theorem packBitsFrom_concat_false {cur bits : List Bool} (hcur : cur.length < 8)
    (h : (cur.length + bits.length) % 8 ≠ 0) :
    packBitsFrom cur (bits ++ [false]) = packBitsFrom cur bits := by
  induction bits generalizing cur with
  | nil =>
      have hne : cur ≠ [] := by
        intro hnil
        simp [hnil] at h
      have hbyte : byteOfBits (cur ++ [false]) = byteOfBits cur := by
        rw [byteOfBits_append cur false hcur]
        simp
      rw [List.nil_append, packBitsFrom, packBitsFrom, if_neg hne]
      split
      · simp [hbyte, packBitsFrom]
      · simp [hbyte, packBitsFrom]
  | cons b bits ih =>
      rw [List.length_cons] at h
      rw [List.cons_append, packBitsFrom, packBitsFrom]
      split
      · rw [ih (by simp) (by rw [List.length_nil]; omega)]
      · have hlen : (cur ++ [b]).length = cur.length + 1 := List.length_append
        rw [ih (by omega) (by omega)]

theorem packBits_append_false {bits : List Bool} {m : Nat}
    (h : (bits.length + m + 7) / 8 = (bits.length + 7) / 8) :
    packBits (bits ++ List.replicate m false) = packBits bits := by
  induction m with
  | zero => simp
  | succ m ih =>
      rw [List.replicate_succ', ← List.append_assoc, packBits,
        packBitsFrom_concat_false (by simp) (by simp; omega)]
      exact ih (by omega)

def lastBit : List Bool → Nat
  | [] => 0
  | b :: bits => if lastBit bits = 0 then b.toNat else lastBit bits + 1

theorem lastBit_le (bits : List Bool) : lastBit bits ≤ bits.length := by
  induction bits with
  | nil => exact Nat.le_refl 0
  | cons b bits ih =>
      have := Bool.toNat_le b
      rw [lastBit, List.length_cons]
      split <;> omega

theorem lastBit_eq_zero_iff {bits : List Bool} : lastBit bits = 0 ↔ ∀ b ∈ bits, b = false := by
  induction bits with
  | nil => simp [lastBit]
  | cons b bits ih =>
      rw [lastBit, List.forall_mem_cons, ← ih]
      split
      · rename_i h
        simp [h]
      · rename_i h
        simp [h]

theorem take_lastBit_append (bits : List Bool) :
    bits.take (lastBit bits) ++ List.replicate (bits.length - lastBit bits) false = bits := by
  induction bits with
  | nil => rfl
  | cons b bits ih =>
      rw [lastBit]
      split
      · rename_i h
        have hclear := List.eq_replicate_iff.mpr ⟨rfl, lastBit_eq_zero_iff.mp h⟩
        cases b with
        | false => exact (congrArg (List.cons false) hclear).symm
        | true => exact (congrArg (List.cons true) hclear).symm
      · rw [List.take_succ_cons, List.length_cons, Nat.add_sub_add_right, List.cons_append, ih]

end Sevenz.Lib
