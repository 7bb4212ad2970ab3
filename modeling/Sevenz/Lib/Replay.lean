import Sevenz.Lib.Stream

/-!
# Scripts that keep a state of their own

A consumer that works on a state besides what it reads returns the state with its result.  What
its reads were answered with says where it got to.
-/

namespace Sevenz.Lib.Script

variable {ε σ ρ ρ' : Type}

def map (f : ρ → ρ') : Script ε ρ → Script ε ρ'
  | finish result => .finish (f result)
  | .read buf next => .read buf fun answer => (next answer).map f

theorem run_map (f : ρ → ρ') (read : ReadFn ε σ) (script : Script ε ρ) (s : σ) :
    (script.map f).run read s = Prod.map f id (script.run read s) := by
  induction script generalizing s with
  | finish result => rfl
  | read buf next ih =>
      rw [map, run, run]
      dsimp only
      rw [ih]
      rfl

def replay : Script ε ρ → List (ReadRecord ε) → Option ρ
  | finish result, [] => some result
  | .read _ next, record :: records => (next record.result).replay records
  | _, _ => none

theorem replay_run {read : ReadFn ε σ} {script : Script ε ρ} {s s' : σ} {result : ρ}
    {records : List (ReadRecord ε)} (h : script.run read s = (result, records, s')) :
    script.replay records = some result := by
  induction script generalizing s records with
  | finish =>
      cases h
      rfl
  | read buf next ih =>
      rw [run] at h
      cases h
      exact ih _ rfl

end Sevenz.Lib.Script
