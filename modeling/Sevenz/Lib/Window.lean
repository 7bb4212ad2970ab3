import Mathlib.Data.List.Basic

/-!
# Windows of a buffer

A window is what lies between two positions of a buffer.  Writing over a part of the buffer
leaves the windows beside that part as they are.
-/

namespace Sevenz.Lib

variable {α : Type*}

def window (xs : List α) (lo hi : Nat) : List α := (xs.drop lo).take (hi - lo)

theorem window_getElem? (xs : List α) (lo hi i : Nat) :
    (window xs lo hi)[i]? = if lo + i < hi then xs[lo + i]? else none := by
  rw [window, List.getElem?_take, List.getElem?_drop]
  split <;> split <;> first | rfl | omega

@[simp] theorem window_self (xs : List α) (lo : Nat) : window xs lo lo = [] := by
  rw [window, Nat.sub_self, List.take_zero]

theorem window_length {xs : List α} {lo hi : Nat} (h : hi ≤ xs.length) :
    (window xs lo hi).length = hi - lo := by
  rw [window, List.length_take, List.length_drop]
  omega

theorem window_cons {xs : List α} {lo hi : Nat} (hlo : lo < hi) {a : α}
    (ha : xs[lo]? = some a) : window xs lo hi = a :: window xs (lo + 1) hi := by
  obtain ⟨hlt, rfl⟩ := List.getElem?_eq_some_iff.mp ha
  rw [window, window, List.drop_eq_getElem_cons hlt, show hi - lo = hi - (lo + 1) + 1 by omega,
    List.take_succ_cons]

theorem window_append (xs : List α) {lo mid hi : Nat} (hlo : lo ≤ mid) (hhi : mid ≤ hi) :
    window xs lo mid ++ window xs mid hi = window xs lo hi := by
  rw [window, window, window, show hi - lo = (mid - lo) + (hi - mid) by omega, List.take_add,
    List.drop_drop, Nat.add_sub_cancel' hlo]

theorem window_concat {xs : List α} {lo hi : Nat} (hlo : lo ≤ hi) {a : α}
    (ha : xs[hi]? = some a) : window xs lo (hi + 1) = window xs lo hi ++ [a] := by
  rw [← window_append xs hlo (Nat.le_succ hi), window_cons (Nat.lt_succ_self hi) ha, window_self]

theorem window_getLast? {xs : List α} {lo hi : Nat} (hlo : lo < hi) (hhi : hi ≤ xs.length) :
    (window xs lo hi).getLast? = xs[hi - 1]? := by
  rw [List.getLast?_eq_getElem?, window_length hhi, window_getElem?, if_pos (by omega)]
  congr 1
  omega

theorem window_take {xs : List α} {lo hi n : Nat} (h : lo + n ≤ hi) :
    (window xs lo hi).take n = window xs lo (lo + n) := by
  rw [window, window, List.take_take]
  congr 1
  omega

def overwrite (xs : List α) (start : Nat) (piece : List α) : List α :=
  xs.take start ++ (piece ++ xs.drop (start + piece.length))

theorem overwrite_length {xs piece : List α} {start : Nat}
    (h : start + piece.length ≤ xs.length) : (overwrite xs start piece).length = xs.length := by
  rw [overwrite, List.length_append, List.length_append, List.length_take, List.length_drop]
  omega

theorem overwrite_getElem? {xs piece : List α} {start : Nat}
    (h : start + piece.length ≤ xs.length) (i : Nat) :
    (overwrite xs start piece)[i]? =
      if start ≤ i ∧ i < start + piece.length then piece[i - start]? else xs[i]? := by
  rw [overwrite, List.getElem?_append, List.getElem?_append, List.length_take, List.getElem?_take,
    List.getElem?_drop]
  have hmin : min start xs.length = start := by omega
  rw [hmin]
  by_cases hbefore : i < start
  · rw [if_pos hbefore, if_pos hbefore, if_neg (by omega)]
  · rw [if_neg hbefore]
    by_cases hin : i - start < piece.length
    · rw [if_pos hin, if_pos (by omega)]
    · rw [if_neg hin, if_neg (by omega)]
      congr 1
      omega

@[simp] theorem overwrite_nil (xs : List α) (start : Nat) : overwrite xs start [] = xs := by
  rw [overwrite, List.length_nil, Nat.add_zero, List.nil_append, List.take_append_drop]

theorem overwrite_append {xs piece piece' : List α} {start : Nat}
    (h : start + piece.length + piece'.length ≤ xs.length) :
    overwrite (overwrite xs start piece) (start + piece.length) piece' =
      overwrite xs start (piece ++ piece') := by
  have hpiece : start + piece.length ≤ xs.length := by omega
  apply List.ext_getElem?
  intro i
  rw [overwrite_getElem? (by rwa [overwrite_length hpiece]), overwrite_getElem? hpiece,
    overwrite_getElem? (by rw [List.length_append]; omega), List.length_append]
  by_cases hsecond : start + piece.length ≤ i ∧ i < start + piece.length + piece'.length
  · rw [if_pos hsecond, if_pos (by omega), List.getElem?_append_right (by omega), Nat.sub_sub]
  · rw [if_neg hsecond]
    by_cases hfirst : start ≤ i ∧ i < start + piece.length
    · rw [if_pos hfirst, if_pos (by omega), List.getElem?_append_left (by omega)]
    · rw [if_neg hfirst, if_neg (by omega)]

theorem window_overwrite_beside {xs piece : List α} {start lo hi : Nat}
    (h : start + piece.length ≤ xs.length) (hbeside : hi ≤ start ∨ start + piece.length ≤ lo) :
    window (overwrite xs start piece) lo hi = window xs lo hi := by
  apply List.ext_getElem?
  intro i
  rw [window_getElem?, window_getElem?]
  split
  · rw [overwrite_getElem? h, if_neg (by omega)]
  · rfl

theorem window_overwrite {xs piece : List α} {start : Nat}
    (h : start + piece.length ≤ xs.length) :
    window (overwrite xs start piece) start (start + piece.length) = piece := by
  apply List.ext_getElem?
  intro i
  rw [window_getElem?, overwrite_getElem? h]
  by_cases hi : i < piece.length
  · rw [if_pos (by omega), if_pos (by omega), Nat.add_sub_cancel_left]
  · rw [if_neg (by omega), List.getElem?_eq_none (by omega)]

theorem overwrite_set {xs piece : List α} {start : Nat} {a : α}
    (h : start + piece.length < xs.length) :
    (overwrite xs start piece).set (start + piece.length) a =
      overwrite xs start (piece ++ [a]) := by
  have hle : start + piece.length ≤ xs.length := Nat.le_of_lt h
  have hle' : start + (piece ++ [a]).length ≤ xs.length := by
    rw [List.length_append, List.length_singleton]
    omega
  apply List.ext_getElem?
  intro i
  rw [List.getElem?_set, overwrite_getElem? hle, overwrite_getElem? hle', overwrite_length hle,
    List.length_append, List.length_singleton]
  by_cases hi : start + piece.length = i
  · subst hi
    rw [if_pos rfl, if_pos h, if_pos (by omega), Nat.add_sub_cancel_left,
      List.getElem?_append_right (Nat.le_refl _), Nat.sub_self, List.getElem?_singleton, if_pos rfl]
  · rw [if_neg hi]
    by_cases hin : start ≤ i ∧ i < start + piece.length
    · rw [if_pos hin, if_pos (by omega), List.getElem?_append_left (by omega)]
    · rw [if_neg hin, if_neg (by omega)]

end Sevenz.Lib
