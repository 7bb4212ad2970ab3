import Mathlib.Data.List.Basic

/-!
# UTF-16

Strict encoding and decoding of Unicode scalar values, with the round trip.
-/

namespace Sevenz.Lib

def encodeUtf16Char (c : Char) : List UInt16 :=
  if c.toNat < 0x10000 then [UInt16.ofNat c.toNat]
  else
    [UInt16.ofNat (0xD800 + (c.toNat - 0x10000) / 0x400),
      UInt16.ofNat (0xDC00 + (c.toNat - 0x10000) % 0x400)]

def encodeUtf16 (cs : List Char) : List UInt16 := cs.flatMap encodeUtf16Char

def pairValue (high low : UInt16) : Nat :=
  (high.toNat - 0xD800) * 0x400 + (low.toNat - 0xDC00) + 0x10000

/-- Strict decoding: a surrogate that is not part of a pair is an error. -/
def decodeUtf16 : List UInt16 → Option (List Char)
  | [] => some []
  | u :: us =>
      if u.toNat < 0xD800 ∨ 0xE000 ≤ u.toNat then
        (decodeUtf16 us).map fun cs => Char.ofNat u.toNat :: cs
      else if u.toNat < 0xDC00 then
        match us with
        | [] => none
        | v :: vs =>
            if 0xDC00 ≤ v.toNat ∧ v.toNat < 0xE000 then
              (decodeUtf16 vs).map fun cs => Char.ofNat (pairValue u v) :: cs
            else none
      else none

theorem toNat_lt_or_ge_surrogates (c : Char) :
    c.toNat < 0xD800 ∨ (0xE000 ≤ c.toNat ∧ c.toNat < 0x110000) := by
  rcases c.valid with h | ⟨h₁, h₂⟩
  · exact Or.inl h
  · exact Or.inr ⟨h₁, h₂⟩

theorem decodeUtf16_encodeUtf16Char (c : Char) (us : List UInt16) :
    decodeUtf16 (encodeUtf16Char c ++ us) = (decodeUtf16 us).map fun cs => c :: cs := by
  have hrange := toNat_lt_or_ge_surrogates c
  have hsize : UInt16.size = 65536 := rfl
  unfold encodeUtf16Char
  split
  · rename_i hsmall
    have hu : (UInt16.ofNat c.toNat).toNat = c.toNat := UInt16.toNat_ofNat_of_lt' hsmall
    rw [List.singleton_append, decodeUtf16.eq_def]
    dsimp only
    rw [hu, if_pos (hrange.imp_right And.left), Char.ofNat_toNat]
  · rename_i hlarge
    have hhigh : (UInt16.ofNat (0xD800 + (c.toNat - 0x10000) / 0x400)).toNat =
        0xD800 + (c.toNat - 0x10000) / 0x400 :=
      UInt16.toNat_ofNat_of_lt' (by omega)
    have hlow : (UInt16.ofNat (0xDC00 + (c.toNat - 0x10000) % 0x400)).toNat =
        0xDC00 + (c.toNat - 0x10000) % 0x400 :=
      UInt16.toNat_ofNat_of_lt' (by omega)
    have hpair : pairValue (UInt16.ofNat (0xD800 + (c.toNat - 0x10000) / 0x400))
        (UInt16.ofNat (0xDC00 + (c.toNat - 0x10000) % 0x400)) = c.toNat := by
      rw [pairValue, hhigh, hlow]
      omega
    rw [List.cons_append, List.singleton_append, decodeUtf16.eq_def]
    dsimp only
    rw [hhigh, hlow, hpair, if_neg (by omega), if_pos (by omega), if_pos (by omega),
      Char.ofNat_toNat]

theorem decodeUtf16_encodeUtf16 (cs : List Char) : decodeUtf16 (encodeUtf16 cs) = some cs := by
  induction cs with
  | nil => rfl
  | cons c cs ih =>
      rw [encodeUtf16, List.flatMap_cons, decodeUtf16_encodeUtf16Char]
      change (decodeUtf16 (encodeUtf16 cs)).map _ = _
      rw [ih]
      rfl

theorem toNat_ofNat_of_scalar {n : Nat} (h : n < 0xD800 ∨ 0xE000 ≤ n ∧ n < 0x110000) :
    (Char.ofNat n).toNat = n := by
  have hvalid : n.isValidChar := h.imp_right fun h => ⟨by omega, h.2⟩
  rw [Char.ofNat, dif_pos hvalid]
  rfl

theorem encodeUtf16_of_decodeUtf16 {us : List UInt16} {cs : List Char}
    (h : decodeUtf16 us = some cs) : encodeUtf16 cs = us := by
  induction us using decodeUtf16.induct generalizing cs with
  | case1 =>
      cases h
      rfl
  | case2 u us hscalar ih =>
      rw [decodeUtf16.eq_def] at h
      dsimp only at h
      rw [if_pos hscalar] at h
      obtain ⟨cs', hcs, rfl⟩ := Option.map_eq_some_iff.mp h
      have hlt : u.toNat < 2 ^ 16 := u.toNat_lt
      have hchar : (Char.ofNat u.toNat).toNat = u.toNat := toNat_ofNat_of_scalar (by omega)
      rw [encodeUtf16, List.flatMap_cons, encodeUtf16Char, hchar, if_pos (by omega),
        UInt16.ofNat_toNat, ← encodeUtf16, ih hcs]
      rfl
  | case3 u hsurrogate hhigh =>
      rw [decodeUtf16.eq_def] at h
      simp [hsurrogate, hhigh] at h
  | case4 u hsurrogate hhigh v vs hlow ih =>
      rw [decodeUtf16.eq_def] at h
      dsimp only at h
      rw [if_neg hsurrogate, if_pos hhigh, if_pos hlow] at h
      obtain ⟨cs', hcs, rfl⟩ := Option.map_eq_some_iff.mp h
      have hchar : (Char.ofNat (pairValue u v)).toNat = pairValue u v :=
        toNat_ofNat_of_scalar (by rw [pairValue]; omega)
      have hpair : pairValue u v - 0x10000 =
          (u.toNat - 0xD800) * 0x400 + (v.toNat - 0xDC00) := by
        rw [pairValue, Nat.add_sub_cancel]
      have hu : 0xD800 + (pairValue u v - 0x10000) / 0x400 = u.toNat := by omega
      have hv : 0xDC00 + (pairValue u v - 0x10000) % 0x400 = v.toNat := by omega
      rw [encodeUtf16, List.flatMap_cons, encodeUtf16Char, hchar,
        if_neg (by rw [pairValue]; omega), hu, hv, UInt16.ofNat_toNat, UInt16.ofNat_toNat,
        ← encodeUtf16, ih hcs]
      rfl
  | case5 u hsurrogate hhigh v vs hlow =>
      rw [decodeUtf16.eq_def] at h
      dsimp only at h
      rw [if_neg hsurrogate, if_pos hhigh, if_neg hlow] at h
      cases h
  | case6 u us hsurrogate hhigh =>
      rw [decodeUtf16.eq_def] at h
      dsimp only at h
      rw [if_neg hsurrogate, if_neg hhigh] at h
      cases h

theorem ne_zero_of_mem_encodeUtf16 {cs : List Char} (h : ∀ c ∈ cs, c.toNat ≠ 0) :
    ∀ u ∈ encodeUtf16 cs, u ≠ 0 := by
  intro u hu hzero
  subst hzero
  obtain ⟨c, hc, hu⟩ := List.mem_flatMap.mp hu
  have hrange := toNat_lt_or_ge_surrogates c
  have hzero : (0 : UInt16).toNat = 0 := rfl
  have hsize : UInt16.size = 65536 := rfl
  unfold encodeUtf16Char at hu
  split at hu
  · rename_i hsmall
    have heq := congrArg UInt16.toNat (List.mem_singleton.mp hu)
    rw [UInt16.toNat_ofNat_of_lt' hsmall] at heq
    exact h c hc heq.symm
  · rename_i hlarge
    rcases List.mem_cons.mp hu with heq | hu
    · have heq := congrArg UInt16.toNat heq
      rw [UInt16.toNat_ofNat_of_lt' (by omega)] at heq
      omega
    · have heq := congrArg UInt16.toNat (List.mem_singleton.mp hu)
      rw [UInt16.toNat_ofNat_of_lt' (by omega)] at heq
      omega

end Sevenz.Lib
