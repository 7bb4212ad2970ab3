import Mathlib.Data.List.Basic

/-!
# Texts of literals and matches

A match repeats what lies a distance back in the output.  Who reads the text keeps a window
of the output, and a match that reaches back over the window is refused.
-/

namespace Sevenz.Lib

inductive LzSymbol (α : Type) where
  | literal (a : α)
  | copy (distance length : Nat)

namespace LzSymbol

variable {α : Type}

/-- A match is copied one by one, so that it may run on into what it puts out. -/
def copyBack (distance : Nat) : Nat → List α → List α
  | 0, out => out
  | length + 1, out => copyBack distance length (out ++ out[out.length - distance]?.toList)

def put (window : Nat) (out : List α) : LzSymbol α → Option (List α)
  | literal a => some (out ++ [a])
  | copy distance length =>
      if 0 < distance ∧ distance ≤ min window out.length then some (copyBack distance length out)
      else none

def decode (window : Nat) : List (LzSymbol α) → List α → Option (List α)
  | [], out => some out
  | symbol :: symbols, out => (put window out symbol).bind (decode window symbols)

theorem length_le_copyBack (distance length : Nat) (out : List α) :
    out.length ≤ (copyBack distance length out).length := by
  induction length generalizing out with
  | zero => exact Nat.le_refl _
  | succ length ih =>
      refine Nat.le_trans ?_ (ih _)
      rw [List.length_append]
      exact Nat.le_add_right _ _

theorem put_copy_eq_some {window distance length : Nat} {out out' : List α} :
    put window out (copy distance length) = some out' ↔
      0 < distance ∧ distance ≤ min window out.length ∧ copyBack distance length out = out' := by
  rw [put]
  split
  · rename_i hfits
    rw [Option.some_inj]
    exact ⟨fun h => ⟨hfits.1, hfits.2, h⟩, fun h => h.2.2⟩
  · rename_i hfits
    constructor
    · intro h
      cases h
    · intro h
      exact absurd ⟨h.1, h.2.1⟩ hfits

theorem put_length_le {window : Nat} {out out' : List α} {symbol : LzSymbol α}
    (h : put window out symbol = some out') : out.length ≤ out'.length := by
  cases symbol with
  | literal a =>
      obtain rfl := Option.some.inj h
      rw [List.length_append]
      exact Nat.le_add_right _ _
  | copy distance length =>
      obtain ⟨-, -, rfl⟩ := put_copy_eq_some.mp h
      exact length_le_copyBack distance length out

theorem decode_cons_eq_some {window : Nat} {symbol : LzSymbol α} {symbols : List (LzSymbol α)}
    {out final : List α} :
    decode window (symbol :: symbols) out = some final ↔
      ∃ out', put window out symbol = some out' ∧ decode window symbols out' = some final := by
  rw [decode, Option.bind_eq_some_iff]

theorem decode_length_le {window : Nat} {symbols : List (LzSymbol α)} {out final : List α}
    (h : decode window symbols out = some final) : out.length ≤ final.length := by
  induction symbols generalizing out with
  | nil =>
      obtain rfl := Option.some.inj h
      exact Nat.le_refl _
  | cons symbol symbols ih =>
      obtain ⟨out', hput, h⟩ := decode_cons_eq_some.mp h
      exact Nat.le_trans (put_length_le hput) (ih h)

theorem distance_le_of_decode {window distance length : Nat} {symbols : List (LzSymbol α)}
    {out final : List α} (h : decode window symbols out = some final)
    (hcopy : copy distance length ∈ symbols) : distance ≤ min window final.length := by
  induction symbols generalizing out with
  | nil => cases hcopy
  | cons symbol symbols ih =>
      obtain ⟨out', hput, hrest⟩ := decode_cons_eq_some.mp h
      rcases List.mem_cons.mp hcopy with rfl | hcopy
      · obtain ⟨-, hfits, -⟩ := put_copy_eq_some.mp hput
        have hlength := decode_length_le h
        omega
      · exact ih hrest hcopy

theorem decode_window {window window' : Nat} {symbols : List (LzSymbol α)} {out final : List α}
    (h : decode window symbols out = some final) (hwindow : min window final.length ≤ window') :
    decode window' symbols out = some final := by
  induction symbols generalizing out with
  | nil => exact h
  | cons symbol symbols ih =>
      obtain ⟨out', hput, hrest⟩ := decode_cons_eq_some.mp h
      refine decode_cons_eq_some.mpr ⟨out', ?_, ih hrest⟩
      cases symbol with
      | literal a => exact hput
      | copy distance length =>
          obtain ⟨hpos, hfits, hout⟩ := put_copy_eq_some.mp hput
          have hlength := decode_length_le h
          exact put_copy_eq_some.mpr ⟨hpos, by omega, hout⟩

end LzSymbol

end Sevenz.Lib
