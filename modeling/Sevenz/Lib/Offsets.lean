import Mathlib.Data.UInt
import Mathlib.Data.List.Basic
import Mathlib.Algebra.Order.BigOperators.Group.List
import Mathlib.Algebra.Order.Group.Nat

/-!
# Items laid out end to end

A list of counts describes consecutive ranges of positions.  `offset` is where a range
starts, and `owners` lists the range of each position.
-/

namespace Sevenz.Lib

def offset (counts : List Nat) (c : Nat) : Nat := (counts.take c).sum

@[simp] theorem offset_zero (counts : List Nat) : offset counts 0 = 0 := by
  rw [offset, List.take_zero, List.sum_nil]

@[simp] theorem offset_cons_succ (n : Nat) (counts : List Nat) (c : Nat) :
    offset (n :: counts) (c + 1) = n + offset counts c := by
  rw [offset, List.take_succ_cons, List.sum_cons, offset]

theorem offset_succ {counts : List Nat} {c n : Nat} (h : counts[c]? = some n) :
    offset counts (c + 1) = offset counts c + n := by
  rw [offset, List.take_add_one, h, List.sum_append, Option.toList_some, List.sum_singleton]
  rfl

theorem offset_mono (counts : List Nat) {c d : Nat} (h : c ≤ d) :
    offset counts c ≤ offset counts d := by
  obtain ⟨k, rfl⟩ := Nat.exists_eq_add_of_le h
  rw [offset, offset, List.take_add, List.sum_append]
  exact Nat.le_add_right _ _

theorem offset_le_sum (counts : List Nat) (c : Nat) : offset counts c ≤ counts.sum := by
  conv_rhs => rw [← List.take_append_drop c counts, List.sum_append]
  exact Nat.le_add_right _ _

theorem offset_length (counts : List Nat) : offset counts counts.length = counts.sum := by
  rw [offset, List.take_length]

theorem slice_flatten {α : Type*} {pieces : List (List α)} {k : Nat} {piece : List α}
    (h : pieces[k]? = some piece) (rest : List α) :
    ((pieces.flatten ++ rest).drop (offset (pieces.map List.length) k)).take piece.length =
      piece := by
  induction pieces generalizing k with
  | nil => cases h
  | cons first pieces ih =>
      cases k with
      | zero =>
          cases h
          simp
      | succ k =>
          rw [List.map_cons, offset_cons_succ, List.flatten_cons, List.append_assoc,
            ← List.drop_drop, List.drop_left]
          exact ih h

def starts : Nat → List Nat → List Nat
  | _, [] => []
  | next, n :: counts => next :: starts (next + n) counts

@[simp] theorem starts_length (next : Nat) (counts : List Nat) :
    (starts next counts).length = counts.length := by
  induction counts generalizing next with
  | nil => rfl
  | cons n counts ih => rw [starts, List.length_cons, List.length_cons, ih]

theorem starts_getElem? {next : Nat} {counts : List Nat} {c : Nat} (h : c < counts.length) :
    (starts next counts)[c]? = some (next + offset counts c) := by
  induction counts generalizing next c with
  | nil => exact absurd h (Nat.not_lt_zero c)
  | cons n counts ih =>
      cases c with
      | zero => rw [starts, List.getElem?_cons_zero, offset_zero, Nat.add_zero]
      | succ c =>
          rw [starts, List.getElem?_cons_succ, ih (Nat.lt_of_succ_lt_succ h), offset_cons_succ,
            Nat.add_assoc]

def ownersFrom : Nat → List Nat → List Nat
  | _, [] => []
  | first, n :: counts => List.replicate n first ++ ownersFrom (first + 1) counts

def owners (counts : List Nat) : List Nat := ownersFrom 0 counts

theorem ownersFrom_length (first : Nat) (counts : List Nat) :
    (ownersFrom first counts).length = counts.sum := by
  induction counts generalizing first with
  | nil => rfl
  | cons n counts ih =>
      rw [ownersFrom, List.length_append, List.length_replicate, ih, List.sum_cons]

@[simp] theorem owners_length (counts : List Nat) : (owners counts).length = counts.sum :=
  ownersFrom_length 0 counts

theorem le_of_mem_ownersFrom {first : Nat} {counts : List Nat} {c : Nat}
    (h : c ∈ ownersFrom first counts) : first ≤ c := by
  induction counts generalizing first with
  | nil => cases h
  | cons n counts ih =>
      rcases List.mem_append.mp h with h | h
      · exact Nat.le_of_eq (List.eq_of_mem_replicate h).symm
      · exact Nat.le_of_succ_le (ih h)

theorem ownersFrom_getElem? (first : Nat) (counts : List Nat) (i c : Nat) :
    (ownersFrom first counts)[i]? = some (first + c) ↔
      c < counts.length ∧ offset counts c ≤ i ∧ i < offset counts (c + 1) := by
  induction counts generalizing first i c with
  | nil => simp [ownersFrom]
  | cons n counts ih =>
      rw [ownersFrom, List.getElem?_append, List.length_replicate]
      cases c with
      | zero =>
          rw [Nat.add_zero, offset_zero, offset_cons_succ, offset_zero]
          split
          · rename_i hi
            simp [hi]
          · rename_i hi
            constructor
            · intro h
              have := le_of_mem_ownersFrom (List.mem_of_getElem? h)
              omega
            · intro h
              omega
      | succ c =>
          rw [offset_cons_succ, offset_cons_succ, List.length_cons]
          split
          · rename_i hi
            rw [List.getElem?_replicate, if_pos hi, Option.some.injEq]
            omega
          · rename_i hi
            rw [show first + (c + 1) = first + 1 + c by omega, ih]
            omega

theorem owners_getElem? {counts : List Nat} {i c : Nat} :
    (owners counts)[i]? = some c ↔
      c < counts.length ∧ offset counts c ≤ i ∧ i < offset counts (c + 1) := by
  have := ownersFrom_getElem? 0 counts i c
  rwa [Nat.zero_add] at this

theorem owners_offset_add {counts : List Nat} {c k n : Nat} (hc : counts[c]? = some n)
    (hk : k < n) : (owners counts)[offset counts c + k]? = some c := by
  rw [owners_getElem?, offset_succ hc]
  obtain ⟨hlt, -⟩ := List.getElem?_eq_some_iff.mp hc
  exact ⟨hlt, by omega, by omega⟩

theorem filter_eq_slice {α : Type*} {p : α → Bool} {items : List α} {start n : Nat}
    (h : ∀ j x, items[j]? = some x → (p x = true ↔ start ≤ j ∧ j < start + n)) :
    items.filter p = (items.drop start).take n := by
  have hbefore : (items.take start).filter p = [] := by
    refine List.filter_eq_nil_iff.mpr fun x hx hp => ?_
    obtain ⟨j, hj⟩ := List.mem_iff_getElem?.mp hx
    rw [List.getElem?_take, Option.ite_none_right_eq_some] at hj
    obtain ⟨hlt, hj⟩ := hj
    have := ((h j x hj).mp hp).1
    omega
  have hslice : ((items.drop start).take n).filter p = (items.drop start).take n := by
    refine List.filter_eq_self.mpr fun x hx => ?_
    obtain ⟨j, hj⟩ := List.mem_iff_getElem?.mp hx
    rw [List.getElem?_take, Option.ite_none_right_eq_some] at hj
    obtain ⟨hlt, hj⟩ := hj
    rw [List.getElem?_drop] at hj
    exact (h _ x hj).mpr ⟨Nat.le_add_right _ _, Nat.add_lt_add_left hlt _⟩
  have hafter : ((items.drop start).drop n).filter p = [] := by
    refine List.filter_eq_nil_iff.mpr fun x hx hp => ?_
    obtain ⟨j, hj⟩ := List.mem_iff_getElem?.mp hx
    rw [List.drop_drop, List.getElem?_drop] at hj
    have := ((h _ x hj).mp hp).2
    omega
  conv_lhs => rw [← List.take_append_drop start items, ← List.take_append_drop n (items.drop start)]
  rw [List.filter_append, List.filter_append, hbefore, hslice, hafter, List.nil_append,
    List.append_nil]

/-- Items in the order of their ranges: those of one range are the ones at its positions. -/
theorem filter_owner {α : Type*} {owner : α → Option Nat} {items : List α} {counts : List Nat}
    (h : ∀ (j : Nat) x, items[j]? = some x → owner x = (owners counts)[j]?) {c n : Nat}
    (hc : counts[c]? = some n) :
    items.filter (fun x => owner x = some c) = (items.drop (offset counts c)).take n := by
  obtain ⟨hlt, -⟩ := List.getElem?_eq_some_iff.mp hc
  refine filter_eq_slice fun j x hx => ?_
  rw [decide_eq_true_iff, h j x hx, owners_getElem?, offset_succ hc]
  exact and_iff_right hlt

theorem countP_of_getElem?_filter {p : Nat → Bool} {n j i : Nat}
    (h : ((List.range n).filter p)[j]? = some i) :
    i < n ∧ p i = true ∧ (List.range i).countP p = j := by
  induction n with
  | zero => cases h
  | succ n ih =>
      rw [List.range_succ, List.filter_append, List.getElem?_append] at h
      split at h
      · obtain ⟨hlt, hp, hcount⟩ := ih h
        exact ⟨Nat.lt_succ_of_lt hlt, hp, hcount⟩
      · rename_i hge
        rw [List.filter_cons, List.filter_nil] at h
        split at h
        · rename_i hp
          rw [List.getElem?_singleton, Option.ite_none_right_eq_some] at h
          obtain ⟨hj, hi⟩ := h
          cases hi
          refine ⟨Nat.lt_succ_self _, hp, ?_⟩
          rw [List.countP_eq_length_filter]
          omega
        · cases h

end Sevenz.Lib
