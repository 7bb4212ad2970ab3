import Mathlib.Data.List.Basic

/-!
# Programs that pull their input and push their output

A process says what it does next: it asks for items of its input, hands out items, or is over.
What it has read and handed out is told without saying how its source cuts the input.
-/

namespace Sevenz.Lib

variable {α σ ρ : Type*}

/-- What a process does next.  An answer to `read n` has at most `n` items, and none only at
the end of the input or where `n` is zero. -/
inductive Action (α σ ρ : Type*) where
  | read (n : Nat) (resume : List α → σ)
  | write (data : List α) (next : σ)
  | done (outcome : ρ)

structure Process (α σ ρ : Type*) where
  start : σ
  next : σ → Action α σ ρ

namespace Process

/-- The process can be in a state after its source has answered its reads with `input`,
`ended` says whether it has met the end of that, and it has handed out `output`. -/
inductive Ran (process : Process α σ ρ) : List α → Bool → List α → σ → Prop
  | start : Ran process [] false [] process.start
  | readNone {input output : List α} {ended : Bool} {s : σ} {resume : List α → σ}
      (hran : Ran process input ended output s) (hnext : process.next s = .read 0 resume) :
      Ran process input ended output (resume [])
  | read {input output piece : List α} {s : σ} {n : Nat} {resume : List α → σ}
      (hran : Ran process input false output s) (hnext : process.next s = .read n resume)
      (hpiece : piece ≠ []) (hlength : piece.length ≤ n) :
      Ran process (input ++ piece) false output (resume piece)
  | readEnd {input output : List α} {ended : Bool} {s : σ} {n : Nat} {resume : List α → σ}
      (hran : Ran process input ended output s) (hnext : process.next s = .read n resume)
      (hn : 0 < n) : Ran process input true output (resume [])
  | write {input output data : List α} {ended : Bool} {s s' : σ}
      (hran : Ran process input ended output s) (hnext : process.next s = .write data s') :
      Ran process input ended (output ++ data) s'

/-- The process comes to its end, however a source cuts the items it has left. -/
inductive Halts (process : Process α σ ρ) : List α → σ → Prop
  | done {left : List α} {s : σ} {outcome : ρ} (hnext : process.next s = .done outcome) :
      Halts process left s
  | write {left data : List α} {s s' : σ} (hnext : process.next s = .write data s')
      (hrest : Halts process left s') : Halts process left s
  | readNone {left : List α} {s : σ} {resume : List α → σ}
      (hnext : process.next s = .read 0 resume) (hrest : Halts process left (resume [])) :
      Halts process left s
  | readEnd {s : σ} {n : Nat} {resume : List α → σ} (hnext : process.next s = .read n resume)
      (hn : 0 < n) (hrest : Halts process [] (resume [])) : Halts process [] s
  | read {left : List α} {s : σ} {n : Nat} {resume : List α → σ}
      (hnext : process.next s = .read n resume) (hn : 0 < n) (hleft : left ≠ [])
      (hrest : ∀ piece rest, piece ++ rest = left → piece ≠ [] → piece.length ≤ n →
        Halts process rest (resume piece)) : Halts process left s

end Process

end Sevenz.Lib
