import Sevenz.Archive

/-!
# Numbers and bit vectors of a header

The primitive readers and writers every header section is made of, each with the
round trip through its own encoding.
-/

namespace Sevenz

open Lib Lib.Parser

abbrev HeaderReader (α : Type) := Parser Fault α

def unexpectedEof : Fault := .error (.ofIo .unexpectedEof)

def readU8 : HeaderReader UInt8 := Parser.byte unexpectedEof

def readExact (n : Nat) : HeaderReader (List UInt8) := Parser.bytes unexpectedEof n

def readU32 : HeaderReader UInt32 := do
  let value ← Parser.le unexpectedEof 4
  pure (UInt32.ofNat value)

def readU64 : HeaderReader UInt64 := do
  let value ← Parser.le unexpectedEof 8
  pure (UInt64.ofNat value)

def failWith {α : Type} (error : Error) : HeaderReader α := throw (.error error)

def writeU32 (value : UInt32) : List UInt8 := leBytes 4 value.toNat

def writeU64Le (value : UInt64) : List UInt8 := leBytes 8 value.toNat

theorem decodes_readU8 (b : UInt8) : Decodes readU8 [b] b := Decodes.byte _ b

theorem decodes_readU32 (value : UInt32) : Decodes readU32 (writeU32 value) value := by
  have h := (Decodes.le unexpectedEof (show value.toNat < 256 ^ 4 from value.toNat_lt)).bind_pure
    UInt32.ofNat
  rwa [UInt32.ofNat_toNat] at h

theorem decodes_readU64 (value : UInt64) : Decodes readU64 (writeU64Le value) value := by
  have h := (Decodes.le unexpectedEof (show value.toNat < 256 ^ 8 from value.toNat_lt)).bind_pure
    UInt64.ofNat
  rwa [UInt64.ofNat_toNat] at h

theorem consumes_readU8 : Consumes readU8 1 := Consumes.byte _

theorem consumes_readU32 : Consumes readU32 4 :=
  (Consumes.le _ 4).bind fun value => Consumes.pure (UInt32.ofNat value)

def readVariableLoop (first : Nat) : Nat → Nat → Nat → Nat → HeaderReader Nat
  | 0, _, _, value => pure value
  | n + 1, i, mask, value =>
      if first &&& mask = 0 then pure (value ||| (first &&& (mask - 1)) <<< (8 * i))
      else do
        let b ← readU8
        readVariableLoop first n (i + 1) (mask >>> 1) (value ||| b.toNat <<< (8 * i))

/-- `read_variable_u64`: the leading ones of the first byte count the bytes that follow. -/
def readVariableU64 : HeaderReader UInt64 := do
  let first ← readU8
  let value ← readVariableLoop first.toNat 8 0 0x80 0
  pure (UInt64.ofNat value)

def readNumber : HeaderReader Nat := do
  let value ← readVariableU64
  pure value.toNat

theorem consumes_readVariableLoop (first n i mask value : Nat) :
    Consumes (readVariableLoop first n i mask value) 0 := by
  induction n generalizing i mask value with
  | zero => exact Consumes.pure value
  | succ n ih =>
      unfold readVariableLoop
      split
      · exact Consumes.pure _
      · exact (consumes_readU8.mono (Nat.zero_le 1)).bind fun b => ih (i + 1) _ _

theorem consumes_readVariableU64 : Consumes readVariableU64 1 :=
  consumes_readU8.bind fun first =>
    (consumes_readVariableLoop first.toNat 8 0 0x80 0).bind fun _ => Consumes.pure _

theorem consumes_readNumber : Consumes readNumber 1 :=
  consumes_readVariableU64.bind fun value => Consumes.pure value.toNat

def writeLeadLoop (value : Nat) : Nat → Nat → Nat → Nat → Nat × Nat
  | 0, i, _, first => (first, i)
  | n + 1, i, mask, first =>
      if value < 1 <<< (7 * (i + 1)) then (first ||| value >>> (8 * i), i)
      else writeLeadLoop value n (i + 1) (mask >>> 1) (first ||| mask)

/-- `write_u64` of the writer: the lead byte, then the low bytes least significant first. -/
def writeU64 (value : UInt64) : List UInt8 :=
  let (first, i) := writeLeadLoop value.toNat 8 0 0x80 0
  UInt8.ofNat (first &&& 0xFF) :: leBytes i value.toNat

def writeNumber (value : Nat) : List UInt8 := writeU64 (UInt64.ofNat value)

private def leadOnes (k : Nat) : Nat := 256 - 2 ^ (8 - k)

/-- A lead byte says how many bytes follow and holds the bits above them. -/
private theorem leadOnes_or_spec : ∀ k < 8, ∀ v < 128, v < 2 ^ (7 - k) →
    (∀ j < k, (leadOnes k ||| v) &&& (0x80 >>> j) ≠ 0) ∧
      (leadOnes k ||| v) &&& (0x80 >>> k) = 0 ∧
      (leadOnes k ||| v) &&& (0x80 >>> k - 1) = v ∧ leadOnes k ||| v < 256 := by
  decide +kernel

private theorem leadOnes_or_mask : ∀ k < 8, leadOnes k ||| 0x80 >>> k = leadOnes (k + 1) := by
  decide

private theorem leadOnes_eight : ∀ j < 8, leadOnes 8 &&& (0x80 >>> j) ≠ 0 := by
  decide

/-- What the writer's loop settles on: either a lead byte with room for the high bits, or
eight full bytes after a byte of ones. -/
private theorem writeLeadLoop_spec (value : Nat) (n i : Nat) (hi : i + n = 8) :
    ∃ k ≤ 8, writeLeadLoop value n i (0x80 >>> i) (leadOnes i) =
        (if k < 8 then leadOnes k ||| value >>> (8 * k) else leadOnes 8, k) ∧
      (k < 8 → value < 2 ^ (7 * (k + 1))) := by
  induction n generalizing i with
  | zero =>
      obtain rfl : i = 8 := by omega
      exact ⟨8, Nat.le_refl 8, rfl, fun h => absurd h (Nat.lt_irrefl 8)⟩
  | succ n ih =>
      rw [writeLeadLoop, Nat.one_shiftLeft]
      split
      · rename_i hlt
        have hi8 : i < 8 := by omega
        exact ⟨i, by omega, by rw [if_pos hi8], fun _ => hlt⟩
      · rw [← Nat.shiftRight_add, leadOnes_or_mask i (by omega)]
        exact ih (i + 1) (by omega)

private theorem or_shiftLeft_mod (value i : Nat) :
    value % 256 ^ i ||| (value / 256 ^ i % 256) <<< (8 * i) = value % 256 ^ (i + 1) := by
  have hpow : (256 : Nat) ^ i = 2 ^ (8 * i) := by rw [Nat.pow_mul]
  have hlt : value % 256 ^ i < 2 ^ (8 * i) := by
    rw [← hpow]
    exact Nat.mod_lt _ (Nat.pow_pos (by decide))
  rw [Nat.or_comm, ← Nat.shiftLeft_add_eq_or_of_lt hlt, Nat.shiftLeft_eq, ← hpow, Nat.pow_succ,
    Nat.mod_mul, Nat.add_comm, Nat.mul_comm]

private theorem mod_or_shiftLeft_div (value k : Nat) :
    value % 256 ^ k ||| (value >>> (8 * k)) <<< (8 * k) = value := by
  have hpow : (256 : Nat) ^ k = 2 ^ (8 * k) := by rw [Nat.pow_mul]
  have hlt : value % 256 ^ k < 2 ^ (8 * k) := by
    rw [← hpow]
    exact Nat.mod_lt _ (Nat.pow_pos (by decide))
  rw [Nat.or_comm, ← Nat.shiftLeft_add_eq_or_of_lt hlt, Nat.shiftLeft_eq, Nat.shiftRight_eq_div_pow,
    ← hpow, Nat.mul_comm]
  exact Nat.div_add_mod value (256 ^ k)

private theorem decodes_readVariableLoop {first value k : Nat} (hk : k ≤ 8)
    (hones : ∀ j < k, first &&& (0x80 >>> j) ≠ 0)
    (hzero : k < 8 → first &&& (0x80 >>> k) = 0 ∧
      first &&& (0x80 >>> k - 1) = value >>> (8 * k))
    (hfull : k = 8 → value < 256 ^ 8)
    (m i : Nat) (hi : i + m = k) :
    Decodes (readVariableLoop first (8 - i) i (0x80 >>> i) (value % 256 ^ i))
      (leBytes m (value / 256 ^ i)) value := by
  induction m generalizing i with
  | zero =>
      obtain rfl : i = k := hi
      rcases Nat.lt_or_ge i 8 with hlt | hge
      · obtain ⟨hstop, hhigh⟩ := hzero hlt
        obtain ⟨n, hn⟩ : ∃ n, 8 - i = n + 1 := ⟨7 - i, by omega⟩
        rw [hn, readVariableLoop, if_pos hstop, hhigh, mod_or_shiftLeft_div]
        exact Decodes.pure value
      · obtain rfl : i = 8 := by omega
        rw [readVariableLoop, Nat.mod_eq_of_lt (hfull rfl)]
        exact Decodes.pure value
  | succ m ih =>
      obtain ⟨n, hn⟩ : ∃ n, 8 - i = n + 1 := ⟨7 - i, by omega⟩
      have hn' : n = 8 - (i + 1) := by omega
      rw [hn, readVariableLoop, if_neg (hones i (by omega)), leBytes, hn']
      refine (decodes_readU8 _).bind ?_
      rw [UInt8.toNat_ofNat', or_shiftLeft_mod, ← Nat.shiftRight_add, Nat.div_div_eq_div_mul,
        ← Nat.pow_succ]
      exact ih (i + 1) (by omega)

theorem decodes_readVariableU64 (value : UInt64) :
    Decodes readVariableU64 (writeU64 value) value := by
  obtain ⟨k, hk, hloop, hsmall⟩ := writeLeadLoop_spec value.toNat 8 0 rfl
  have hlead : writeLeadLoop value.toNat 8 0 0x80 0 = _ := hloop
  have hfull : value.toNat < 256 ^ 8 := value.toNat_lt
  unfold writeU64 readVariableU64
  rw [hlead]
  dsimp only
  refine (decodes_readU8 _).bind ?_
  have hresult : UInt64.ofNat value.toNat = value := UInt64.ofNat_toNat
  rcases Nat.lt_or_ge k 8 with hlt | hge
  · have hshift : value.toNat >>> (8 * k) < 2 ^ (7 - k) := by
      rw [Nat.shiftRight_eq_div_pow]
      refine Nat.div_lt_of_lt_mul (Nat.lt_of_lt_of_eq (hsmall hlt) ?_)
      rw [← Nat.pow_add]
      congr 1
      omega
    have hspec := leadOnes_or_spec k hlt _
      (Nat.lt_of_lt_of_le hshift (Nat.pow_le_pow_right (by decide) (by omega : 7 - k ≤ 7))) hshift
    obtain ⟨hones, hstop, hhigh, hbyte⟩ := hspec
    rw [if_pos hlt, UInt8.toNat_ofNat', show (0xFF : Nat) = 2 ^ 8 - 1 from rfl,
      Nat.and_two_pow_sub_one_eq_mod, Nat.mod_mod, Nat.mod_eq_of_lt hbyte]
    have h := decodes_readVariableLoop hk hones (fun _ => ⟨hstop, hhigh⟩)
      (fun h => absurd h (by omega)) k 0 (Nat.zero_add k)
    rw [Nat.pow_zero, Nat.div_one, Nat.mod_one] at h
    have hread := h.bind_pure UInt64.ofNat
    rwa [hresult] at hread
  · obtain rfl : k = 8 := by omega
    rw [if_neg (Nat.lt_irrefl 8), show (UInt8.ofNat (leadOnes 8 &&& 0xFF)).toNat = leadOnes 8
      from rfl]
    have h := decodes_readVariableLoop (Nat.le_refl 8) leadOnes_eight
      (fun h => absurd h (Nat.lt_irrefl 8)) (fun _ => hfull) 8 0 rfl
    rw [Nat.pow_zero, Nat.div_one, Nat.mod_one] at h
    have hread := h.bind_pure UInt64.ofNat
    rwa [hresult] at hread

theorem writeLeadLoop_le (value n i mask first : Nat) :
    (writeLeadLoop value n i mask first).2 ≤ i + n := by
  induction n generalizing i mask first with
  | zero => exact Nat.le_refl _
  | succ n ih =>
      rw [writeLeadLoop]
      split
      · exact Nat.le_add_right _ _
      · exact Nat.le_trans (ih _ _ _) (by omega)

theorem writeU64_length_le (value : UInt64) : (writeU64 value).length ≤ 9 := by
  have hloop := writeLeadLoop_le value.toNat 8 0 0x80 0
  rw [writeU64, List.length_cons, leBytes_length]
  omega

/-- What the reader takes off a text that starts with a number's bytes is that number, so
the bytes of another number start no such text. -/
theorem writeU64_selfDelimiting (value : UInt64) :
    (∀ rest, readVariableU64 (writeU64 value ++ rest) = .ok (value, rest)) ∧
      (writeU64 value).length ≤ 9 ∧
      ∀ other, other ≠ value → ¬ writeU64 value <+: writeU64 other := by
  refine ⟨decodes_readVariableU64 value, writeU64_length_le value, ?_⟩
  rintro other hother ⟨tail, htail⟩
  have hread : readVariableU64 (writeU64 value ++ tail) = .ok (other, []) := by
    rw [htail]
    have := decodes_readVariableU64 other []
    rwa [List.append_nil] at this
  exact hother ((decodes_readVariableU64 value).unique hread).1

theorem decodes_readNumber_wrap (value : Nat) :
    Decodes readNumber (writeNumber value) (value % 2 ^ 64) :=
  (decodes_readVariableU64 (UInt64.ofNat value)).bind_pure UInt64.toNat

theorem decodes_readNumber {value : Nat} (h : value < 2 ^ 64) :
    Decodes readNumber (writeNumber value) value := by
  have := decodes_readNumber_wrap value
  rwa [Nat.mod_eq_of_lt h] at this

/-- `mask` is the place of the next bit in `cache`, or zero when the next byte has to be
read first. -/
def refill (mask cache : Nat) : HeaderReader (Nat × Nat) :=
  if mask = 0 then do
    let b ← readU8
    pure (0x80, b.toNat)
  else pure (mask, cache)

def readBitsLoop : Nat → Nat → Nat → Nat → BitSet → HeaderReader BitSet
  | 0, _, _, _, bits => pure bits
  | n + 1, i, mask, cache, bits => do
      let (mask, cache) ← refill mask cache
      readBitsLoop n (i + 1) (mask >>> 1) cache
        (if cache &&& mask ≠ 0 then bits.insert i else bits)

def readBits (size : Nat) : HeaderReader BitSet :=
  readBitsLoop size 0 0 0 (BitSet.withCapacity size)

def readAllOrBits (size : Nat) : HeaderReader BitSet := do
  let all ← readU8
  if all ≠ 0 then pure (BitSet.full size)
  else readBits size

private theorem and_mask_ne_zero (cache : Nat) {j : Nat} (hj : j < 8) :
    (cache &&& 0x80 >>> j ≠ 0) ↔ cache.testBit (7 - j) = true := by
  have hmask : 0x80 >>> j = 2 ^ (7 - j) := by
    rw [Nat.shiftRight_eq_div_pow, show (0x80 : Nat) = 2 ^ 7 from rfl,
      Nat.pow_div (by omega) (by decide)]
  rw [hmask]
  constructor
  · intro h
    by_contra hbit
    apply h
    apply Nat.eq_of_testBit_eq
    intro i
    rw [Nat.testBit_and, Nat.testBit_two_pow, Nat.zero_testBit]
    by_cases hi : 7 - j = i
    · rw [← hi, Bool.eq_false_iff.mpr hbit, Bool.false_and]
    · simp [hi]
  · intro h hzero
    have := congrArg (Nat.testBit · (7 - j)) hzero
    rw [Nat.testBit_and, Nat.testBit_two_pow, h, Nat.zero_testBit] at this
    simp at this

private def CacheHolds (cache j : Nat) (bits : List Bool) : Prop :=
  ∀ k, j + k < 8 → k < bits.length → cache.testBit (7 - (j + k)) = bits.getD k false

private theorem cacheHolds_byteOfBits (bits : List Bool) :
    CacheHolds (byteOfBits (bits.take 8)) 0 bits := by
  intro k hk hlen
  rw [Nat.zero_add] at hk ⊢
  rw [testBit_byteOfBits _ hk, List.getD_eq_getElem?_getD, List.getD_eq_getElem?_getD,
    List.getElem?_take_of_lt hk]

/-- With `j` places of the cached byte used up, the reader takes the next bits from the
cache and reads on at the byte boundary. -/
private theorem decodes_readBitsLoop (bits : List Bool) (set : BitSet) (i cache j : Nat)
    (hj : j ≤ 8) (hcache : CacheHolds cache j bits) :
    Decodes (readBitsLoop bits.length i (0x80 >>> j) cache set)
      (packBits (bits.drop (8 - j))) (set.insertFrom i bits) := by
  induction bits generalizing set i cache j with
  | nil =>
      rw [List.drop_nil]
      exact Decodes.pure set
  | cons b bits ih =>
      have hstep : ∀ cache j, j < 8 → CacheHolds cache j (b :: bits) →
          Decodes (readBitsLoop bits.length (i + 1) (0x80 >>> j >>> 1) cache
              (if cache &&& 0x80 >>> j ≠ 0 then set.insert i else set))
            (packBits ((b :: bits).drop (8 - j))) (set.insertFrom i (b :: bits)) := by
        intro cache j hj hcache
        have hbit : cache &&& 0x80 >>> j ≠ 0 ↔ b = true := by
          have hfirst := hcache 0 hj (Nat.succ_pos _)
          rw [Nat.add_zero, List.getD_cons_zero] at hfirst
          rw [and_mask_ne_zero _ hj, hfirst]
        rw [if_congr hbit rfl rfl, ← Nat.shiftRight_add,
          show 8 - j = (8 - (j + 1)) + 1 by omega, List.drop_succ_cons]
        refine ih _ (i + 1) cache (j + 1) hj fun k hk hlen => ?_
        have := hcache (k + 1) (by omega) (Nat.succ_lt_succ hlen)
        rwa [List.getD_cons_succ, show j + (k + 1) = j + 1 + k by omega] at this
      rw [List.length_cons, readBitsLoop]
      rcases Nat.lt_or_ge j 8 with hlt | hge
      · have hmask : 0x80 >>> j ≠ 0 := by
          intro hzero
          have : ∀ j < 8, 0x80 >>> j ≠ 0 := by decide
          exact this j hlt hzero
        have hread : Decodes (refill (0x80 >>> j) cache) [] (0x80 >>> j, cache) := by
          rw [refill, if_neg hmask]
          exact Decodes.pure _
        exact hread.bind_nil (hstep cache j hlt hcache)
      · obtain rfl : j = 8 := by omega
        have hbyte : packBits (b :: bits) =
            UInt8.ofNat (byteOfBits ((b :: bits).take 8)) :: packBits ((b :: bits).drop 8) :=
          packBitsFrom_eq_cons (by simp) (by simp)
        have hread : Decodes (refill (0x80 >>> 8) cache)
            [UInt8.ofNat (byteOfBits ((b :: bits).take 8))]
            (0x80, byteOfBits ((b :: bits).take 8)) := by
          have h := (decodes_readU8 (UInt8.ofNat (byteOfBits ((b :: bits).take 8)))).bind_pure
            fun b => (0x80, b.toNat)
          rwa [UInt8.toNat_ofNat', Nat.mod_eq_of_lt (byteOfBits_lt _)] at h
        rw [Nat.sub_self, List.drop_zero, hbyte]
        exact hread.bind (hstep _ 0 (by decide) (cacheHolds_byteOfBits _))

theorem decodes_readBits (bits : List Bool) :
    Decodes (readBits bits.length) (packBits bits) (BitSet.ofBits bits) :=
  decodes_readBitsLoop bits _ 0 0 8 (Nat.le_refl 8) fun k hk => absurd hk (by omega)

private theorem readBitsLoop_length {n i mask cache : Nat} {set set' : BitSet}
    {s s' : List UInt8} (h : readBitsLoop n i mask cache set s = .ok (set', s'))
    (hi : i + n = set.bitCount) : set'.bitCount = set.bitCount := by
  induction n generalizing i mask cache set s with
  | zero =>
      cases pure_eq_ok.mp h
      rfl
  | succ n ih =>
      rw [readBitsLoop] at h
      obtain ⟨⟨mask', cache'⟩, s₁, -, h⟩ := bind_eq_ok.mp h
      have hcount : (if cache' &&& mask' ≠ 0 then set.insert i else set).bitCount =
          set.bitCount := by
        split
        · rw [BitSet.bitCount_insert]
          omega
        · rfl
      rw [ih h (by rw [hcount]; omega), hcount]

theorem readBits_bitCount {n : Nat} {set : BitSet} {s s' : List UInt8}
    (h : readBits n s = .ok (set, s')) : set.bitCount = n :=
  readBitsLoop_length h (Nat.zero_add n)

theorem decodes_readAllOrBits_all (size : Nat) :
    Decodes (readAllOrBits size) [1] (BitSet.full size) :=
  (decodes_readU8 1).bind (Decodes.pure (BitSet.full size))

theorem decodes_readAllOrBits_bits (bits : List Bool) :
    Decodes (readAllOrBits bits.length) (0 :: packBits bits) (BitSet.ofBits bits) :=
  (decodes_readU8 0).bind (decodes_readBits bits)

theorem consumes_readBitsLoop {n i j mask cache : Nat} {set : BitSet} (hmask : mask = 2 ^ j >>> 1)
    (hj : j ≤ 8) : Consumes (readBitsLoop n i mask cache set) ((n - j + 7) / 8) := by
  induction n generalizing i j mask cache set with
  | zero =>
      rw [Nat.zero_sub]
      exact Consumes.pure set
  | succ n ih =>
      subst hmask
      intro s bits s' h
      obtain ⟨⟨mask', cache'⟩, s₁, hrefill, h⟩ := bind_eq_ok.mp h
      unfold refill at hrefill
      cases j with
      | zero =>
          rw [if_pos (by decide)] at hrefill
          obtain ⟨b, s₂, hbyte, hrefill⟩ := bind_eq_ok.mp hrefill
          cases pure_eq_ok.mp hrefill
          have hone := consumes_readU8 _ _ _ hbyte
          have hrest := @ih (i + 1) 7 _ _ _ (by decide) (by decide) _ _ _ h
          omega
      | succ j =>
          have hpos : 2 ^ (j + 1) >>> 1 ≠ 0 := by
            rw [Nat.shiftRight_one, Nat.pow_succ, Nat.mul_div_cancel _ (by decide)]
            exact Nat.ne_of_gt (Nat.two_pow_pos j)
          rw [if_neg hpos] at hrefill
          cases pure_eq_ok.mp hrefill
          have hhalf : 2 ^ (j + 1) >>> 1 = 2 ^ j := by
            rw [Nat.shiftRight_one, Nat.pow_succ, Nat.mul_div_cancel _ (by decide)]
          rw [hhalf] at h
          have hrest := ih rfl (Nat.le_of_succ_le hj) _ _ _ h
          rwa [Nat.add_sub_add_right]

theorem consumes_readBits (n : Nat) : Consumes (readBits n) ((n + 7) / 8) :=
  consumes_readBitsLoop (j := 0) (by decide) (Nat.zero_le 8)

end Sevenz
