import Sevenz.Writer.Methods
import Sevenz.Lib.LzWindow
import Mathlib.Order.Bounds.Defs

/-!
# LZ dictionaries

`codec/lzma_turbo.rs`: the dictionary sizes the property bytes name, and how a dictionary is
clamped to the output it serves.
-/

namespace Sevenz

open Lib

def lzmaDictionarySize (properties : List UInt8) : Result UInt32 := do
  Result.rejectIf (properties.length < 5) (.other "LZMA properties too short")
  pure (UInt32.ofNat (leValue ((properties.drop 1).take 4)))

/-- No more than the output that is going to be produced, and never less than 4 KiB of it. -/
def clampDictionary (dictSize : UInt32) (unpackedSize : UInt64) : UInt32 :=
  let needed := min (max unpackedSize 0x1000) 0xFFFFFFFF
  min dictSize needed.toUInt32

def namesAtLeast (target : UInt32) (n : Nat) : Bool :=
  match lzma2DictionarySize [UInt8.ofNat n] with
  | .ok named => decide (target ≤ named)
  | .error _ => false

def lzma2ClampedProp (prop : UInt8) (unpackedSize : UInt64) : UInt8 :=
  match lzma2DictionarySize [prop] with
  | .error _ => prop
  | .ok dict =>
      let target := clampDictionary dict unpackedSize
      UInt8.ofNat (((List.range (prop.toNat + 1)).find? (namesAtLeast target)).getD prop.toNat)

def lzStateBytes : Nat := 0x100000

def lzma2MemoryUsageKb (dictSize : UInt32) : Nat :=
  (min (dictSize.toNat + lzStateBytes) (2 ^ 64 - 1) + 1023) / 1024

theorem toNat_clampDictionary (dictSize : UInt32) (unpackedSize : UInt64) :
    (clampDictionary dictSize unpackedSize).toNat =
      min dictSize.toNat (max unpackedSize.toNat 4096) := by
  have hdict := dictSize.toNat_lt
  have hmin : ∀ a b : UInt64, (min a b).toNat = min a.toNat b.toNat := by
    intro a b
    simp only [Min.min, UInt64.le_iff_toNat_le]
    split <;> omega
  have hmax : ∀ a b : UInt64, (max a b).toNat = max a.toNat b.toNat := by
    intro a b
    simp only [Max.max, UInt64.le_iff_toNat_le]
    split <;> omega
  have hmin' : ∀ a b : UInt32, (min a b).toNat = min a.toNat b.toNat := by
    intro a b
    simp only [Min.min, UInt32.le_iff_toNat_le]
    split <;> omega
  rw [clampDictionary, hmin', UInt64.toNat_toUInt32, hmin, hmax]
  have hneeded : min (max unpackedSize.toNat 4096) 4294967295 < 2 ^ 32 := by omega
  rw [show (0x1000 : UInt64).toNat = 4096 from rfl,
    show (0xFFFFFFFF : UInt64).toNat = 4294967295 from rfl, Nat.mod_eq_of_lt hneeded]
  omega

theorem clampDictionary_le (dictSize : UInt32) (unpackedSize : UInt64) :
    clampDictionary dictSize unpackedSize ≤ dictSize := by
  rw [UInt32.le_iff_toNat_le, toNat_clampDictionary]
  exact Nat.min_le_left _ _

def lzma2Table (prop : Nat) : Nat :=
  if prop = 40 then 2 ^ 32 - 1 else (2 + prop % 2) * 2 ^ (prop / 2 + 11)

def Lzma2Dictionary (size : Nat) : Prop :=
  ∃ prop dict, lzma2DictionarySize [prop] = .ok dict ∧ dict.toNat = size

theorem lzma2DictionarySize_table : ∀ n < 41,
    lzma2DictionarySize [UInt8.ofNat n] = .ok (UInt32.ofNat (lzma2Table n)) ∧
      lzma2Table n < 2 ^ 32 := by
  decide +kernel

theorem lzma2DictionarySize_isError : ∀ n < 256, 41 ≤ n →
    ∃ e, lzma2DictionarySize [UInt8.ofNat n] = .error e := by
  have hrefuses : ∀ n < 256, 41 ≤ n →
      (lzma2DictionarySize [UInt8.ofNat n]).isOk = false := by
    decide +kernel
  intro n hn hlarge
  have h := hrefuses n hn hlarge
  cases hsize : lzma2DictionarySize [UInt8.ofNat n] with
  | error e => exact ⟨e, rfl⟩
  | ok dict =>
      rw [hsize] at h
      cases h

theorem lzma2Table_lt : ∀ j < 41, ∀ i < j, lzma2Table i < lzma2Table j := by
  decide +kernel

theorem toNat_lzma2Table {n : Nat} (hn : n < 41) :
    (UInt32.ofNat (lzma2Table n)).toNat = lzma2Table n := by
  rw [UInt32.toNat_ofNat']
  exact Nat.mod_eq_of_lt (lzma2DictionarySize_table n hn).2

theorem lzma2DictionarySize_eq_ok {prop : UInt8} {dict : UInt32}
    (h : lzma2DictionarySize [prop] = .ok dict) :
    prop.toNat < 41 ∧ dict.toNat = lzma2Table prop.toNat := by
  have hprop : UInt8.ofNat prop.toNat = prop := UInt8.ofNat_toNat
  rw [← hprop] at h
  rcases Nat.lt_or_ge prop.toNat 41 with hlt | hge
  · rw [(lzma2DictionarySize_table _ hlt).1] at h
    obtain rfl := Except.ok.inj h
    exact ⟨hlt, toNat_lzma2Table hlt⟩
  · obtain ⟨e, he⟩ := lzma2DictionarySize_isError _ prop.toNat_lt hge
    rw [he] at h
    cases h

theorem namesAtLeast_iff (target : UInt32) {n : Nat} (hn : n < 41) :
    namesAtLeast target n = true ↔ target.toNat ≤ lzma2Table n := by
  rw [namesAtLeast, (lzma2DictionarySize_table n hn).1]
  dsimp only
  rw [decide_eq_true_iff, UInt32.le_iff_toNat_le, toNat_lzma2Table hn]

theorem find_namesAtLeast (target : UInt32) (default : Nat) {last : Nat} (hlast : last < 41)
    (hnames : target.toNat ≤ lzma2Table last) :
    ∃ n ≤ last, ((List.range (last + 1)).find? (namesAtLeast target)).getD default = n ∧
      target.toNat ≤ lzma2Table n ∧ ∀ j < n, lzma2Table j < target.toNat := by
  cases hfind : (List.range (last + 1)).find? (namesAtLeast target) with
  | none =>
      have hnot := List.find?_range_eq_none.mp hfind last (Nat.lt_succ_self last)
      rw [(namesAtLeast_iff target hlast).mpr hnames] at hnot
      cases hnot
  | some n =>
      obtain ⟨hn, hmem, hfirst⟩ := List.find?_range_eq_some.mp hfind
      have hle : n ≤ last := Nat.le_of_lt_succ (List.mem_range.mp hmem)
      refine ⟨n, hle, rfl, (namesAtLeast_iff target (by omega)).mp hn, ?_⟩
      intro j hj
      have hnot := hfirst j hj
      rw [Bool.not_eq_true', Bool.eq_false_iff, Ne, namesAtLeast_iff target (by omega)] at hnot
      exact Nat.lt_of_not_le hnot

theorem isLeast_lzma2Table {target n : Nat} (hn : n < 41) (hnames : target ≤ lzma2Table n)
    (hfirst : ∀ j < n, lzma2Table j < target) :
    IsLeast {size | Lzma2Dictionary size ∧ target ≤ size} (lzma2Table n) := by
  refine ⟨⟨⟨_, _, (lzma2DictionarySize_table n hn).1, toNat_lzma2Table hn⟩, hnames⟩, ?_⟩
  rintro size ⟨⟨prop, dict, hdict, rfl⟩, hsize⟩
  obtain ⟨hprop, hvalue⟩ := lzma2DictionarySize_eq_ok hdict
  rw [hvalue] at hsize ⊢
  -- a byte below the one found names too little
  have hge : n ≤ prop.toNat := by
    by_contra hlt
    exact absurd hsize (Nat.not_le_of_lt (hfirst _ (Nat.lt_of_not_le hlt)))
  rcases Nat.eq_or_lt_of_le hge with heq | hlt
  · exact Nat.le_of_eq (congrArg lzma2Table heq)
  · exact Nat.le_of_lt (lzma2Table_lt _ hprop n hlt)

theorem lzma2PropertyFor_spec (dictSize : UInt32) :
    ∃ n < 41, lzma2PropertyFor dictSize = UInt8.ofNat n ∧ dictSize.toNat ≤ lzma2Table n ∧
      ∀ j < n, lzma2Table j < dictSize.toNat := by
  have hlargest : dictSize.toNat ≤ lzma2Table 40 := Nat.le_of_lt_succ dictSize.toNat_lt
  obtain ⟨n, hn, hfind, hspec⟩ := find_namesAtLeast dictSize 40 (by decide) hlargest
  exact ⟨n, Nat.lt_succ_of_le hn, congrArg UInt8.ofNat hfind, hspec⟩

theorem lzma2ClampedProp_spec {prop : UInt8} {dict : UInt32} (unpackedSize : UInt64)
    (h : lzma2DictionarySize [prop] = .ok dict) :
    ∃ n ≤ prop.toNat, lzma2ClampedProp prop unpackedSize = UInt8.ofNat n ∧
      min dict.toNat (max unpackedSize.toNat 4096) ≤ lzma2Table n ∧
      ∀ j < n, lzma2Table j < min dict.toNat (max unpackedSize.toNat 4096) := by
  obtain ⟨hprop, hdict⟩ := lzma2DictionarySize_eq_ok h
  have htarget : (clampDictionary dict unpackedSize).toNat ≤ lzma2Table prop.toNat := by
    rw [toNat_clampDictionary, ← hdict]
    exact Nat.min_le_left _ _
  obtain ⟨n, hn, hfind, hspec⟩ := find_namesAtLeast _ prop.toNat hprop htarget
  rw [toNat_clampDictionary] at hspec
  refine ⟨n, hn, ?_, hspec⟩
  rw [lzma2ClampedProp, h]
  exact congrArg UInt8.ofNat hfind

theorem lzma2ClampedProp_dictionary {prop : UInt8} {dict : UInt32} (unpackedSize : UInt64)
    (h : lzma2DictionarySize [prop] = .ok dict) :
    ∃ clamped, lzma2DictionarySize [lzma2ClampedProp prop unpackedSize] = .ok clamped ∧
      clamped.toNat ≤ dict.toNat := by
  obtain ⟨hprop, hdict⟩ := lzma2DictionarySize_eq_ok h
  obtain ⟨n, hn, hclamped, -, -⟩ := lzma2ClampedProp_spec unpackedSize h
  have hlt : n < 41 := Nat.lt_of_le_of_lt hn hprop
  refine ⟨_, by rw [hclamped]; exact (lzma2DictionarySize_table n hlt).1, ?_⟩
  rw [toNat_lzma2Table hlt, hdict]
  rcases Nat.eq_or_lt_of_le hn with rfl | hlt
  · exact Nat.le_refl _
  · exact Nat.le_of_lt (lzma2Table_lt _ hprop n hlt)

theorem lzma2ClampedProp_declared {prop : UInt8} {clamped : UInt32} {unpackedSize : UInt64}
    (h : lzma2DictionarySize [lzma2ClampedProp prop unpackedSize] = .ok clamped) :
    ∃ dict, lzma2DictionarySize [prop] = .ok dict ∧ clamped.toNat ≤ dict.toNat := by
  cases hdict : lzma2DictionarySize [prop] with
  | error e =>
      have hsame : lzma2ClampedProp prop unpackedSize = prop := by
        rw [lzma2ClampedProp, hdict]
      rw [hsame, hdict] at h
      cases h
  | ok dict =>
      obtain ⟨size, hsize, hle⟩ := lzma2ClampedProp_dictionary unpackedSize hdict
      rw [hsize] at h
      cases h
      exact ⟨dict, rfl, hle⟩

/-- The byte an encoder records and the one a decoder clamps it to for `n` bytes of output: each
is the first that names enough, and a text of at most `n` bytes that keeps to the encoder's
dictionary decodes the same in the decoder's window, which no match of it exceeds. -/
theorem lzma2ClampedProp_window (dictSize : UInt32) (n : UInt64) :
    ∃ named window : UInt32,
      lzma2DictionarySize [lzma2PropertyFor dictSize] = .ok named ∧
      lzma2DictionarySize [lzma2ClampedProp (lzma2PropertyFor dictSize) n] = .ok window ∧
      IsLeast {size | Lzma2Dictionary size ∧ dictSize.toNat ≤ size} named.toNat ∧
      lzma2ClampedProp (lzma2PropertyFor dictSize) n ≤ lzma2PropertyFor dictSize ∧
      IsLeast {size | Lzma2Dictionary size ∧ min named.toNat (max n.toNat 4096) ≤ size}
        window.toNat ∧
      ∀ (text : List (LzSymbol UInt8)) (out : List UInt8),
        LzSymbol.decode dictSize.toNat text [] = some out → out.length ≤ n.toNat →
          (∀ distance length, .copy distance length ∈ text → distance ≤ window.toNat) ∧
          LzSymbol.decode window.toNat text [] = some out := by
  obtain ⟨p, hp, hprop, hpnames, hpfirst⟩ := lzma2PropertyFor_spec dictSize
  have hnamed : lzma2DictionarySize [lzma2PropertyFor dictSize] =
      .ok (UInt32.ofNat (lzma2Table p)) := by
    rw [hprop]
    exact (lzma2DictionarySize_table p hp).1
  obtain ⟨q, hq, hclamped, hqnames, hqfirst⟩ := lzma2ClampedProp_spec n hnamed
  have hpbyte : (lzma2PropertyFor dictSize).toNat = p := by
    rw [hprop, UInt8.toNat_ofNat', Nat.mod_eq_of_lt (by omega)]
  have hq41 : q < 41 := by omega
  have hwindow : lzma2DictionarySize [lzma2ClampedProp (lzma2PropertyFor dictSize) n] =
      .ok (UInt32.ofNat (lzma2Table q)) := by
    rw [hclamped]
    exact (lzma2DictionarySize_table q hq41).1
  have hle : lzma2ClampedProp (lzma2PropertyFor dictSize) n ≤ lzma2PropertyFor dictSize := by
    rw [UInt8.le_iff_toNat_le, hclamped, UInt8.toNat_ofNat', Nat.mod_eq_of_lt (by omega)]
    exact hq
  refine ⟨_, _, hnamed, hwindow, ?_, hle, ?_, ?_⟩
  · rw [toNat_lzma2Table hp]
    exact isLeast_lzma2Table hp hpnames hpfirst
  · rw [toNat_lzma2Table hq41]
    exact isLeast_lzma2Table hq41 hqnames hqfirst
  · intro text out hdecode hlength
    rw [toNat_lzma2Table hp] at hqnames
    rw [toNat_lzma2Table hq41]
    -- the encoder reaches back over its dictionary at most, and over what there is
    have hreach : min dictSize.toNat out.length ≤ lzma2Table q := by omega
    refine ⟨?_, LzSymbol.decode_window hdecode hreach⟩
    intro distance length hcopy
    exact Nat.le_trans (LzSymbol.distance_le_of_decode hdecode hcopy) hreach

end Sevenz
