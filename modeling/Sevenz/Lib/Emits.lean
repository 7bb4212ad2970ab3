import Mathlib.Data.List.Basic

/-!
# Steps that put bytes out

A step over a writer may fail half-way, and what it had put out by then stays put out.
-/

namespace Sevenz.Lib

structure Emits (ε α : Type) where
  bytes : List UInt8
  result : Except ε α

namespace Emits

variable {ε α β : Type}

instance : Monad (Emits ε) where
  pure a := { bytes := [], result := .ok a }
  bind x f :=
    match x.result with
    | .error e => { bytes := x.bytes, result := .error e }
    | .ok a => { bytes := x.bytes ++ (f a).bytes, result := (f a).result }

def fail (e : ε) : Emits ε α := { bytes := [], result := .error e }

def put (bytes : List UInt8) : Emits ε Unit := { bytes, result := .ok () }

def listen (x : Emits ε α) : Emits ε (α × List UInt8) :=
  { bytes := x.bytes, result := x.result.map fun a => (a, x.bytes) }

/-- The step into a buffer: what it puts out is returned instead. -/
def buffered (x : Emits ε α) : Emits ε (α × List UInt8) :=
  { bytes := [], result := x.result.map fun a => (a, x.bytes) }

def mapError (f : ε → ε) (x : Emits ε α) : Emits ε α :=
  { bytes := x.bytes, result := x.result.mapError f }

@[simp] theorem pure_result (a : α) : (pure a : Emits ε α).result = .ok a := rfl

@[simp] theorem pure_bytes (a : α) : (pure a : Emits ε α).bytes = [] := rfl

@[simp] theorem fail_result (e : ε) : (fail e : Emits ε α).result = .error e := rfl

@[simp] theorem fail_bytes (e : ε) : (fail e : Emits ε α).bytes = [] := rfl

theorem bind_result_eq_ok {x : Emits ε α} {f : α → Emits ε β} {b : β} :
    (x >>= f).result = .ok b ↔ ∃ a, x.result = .ok a ∧ (f a).result = .ok b := by
  cases x with
  | mk bytes result => cases result <;> simp [bind]

theorem bind_of_ok {x : Emits ε α} {a : α} (h : x.result = .ok a) (f : α → Emits ε β) :
    x >>= f = { bytes := x.bytes ++ (f a).bytes, result := (f a).result } := by
  simp [bind, h]

theorem listen_result_eq_ok {x : Emits ε α} {p : α × List UInt8} :
    x.listen.result = .ok p ↔ x.result = .ok p.1 ∧ p.2 = x.bytes := by
  cases x with
  | mk bytes result => cases result <;> simp [listen, Except.map, Prod.ext_iff, eq_comm]

theorem exceptMap_eq_ok {x : Except ε α} {f : α → β} {b : β} :
    x.map f = .ok b ↔ ∃ a, x = .ok a ∧ f a = b := by
  cases x <;> simp [Except.map]

/-- A step that only makes something of a return value puts nothing more out. -/
theorem listen_bind_pure (x : Emits ε α) (f : α × List UInt8 → β) :
    (x.listen >>= fun p => (pure (f p) : Emits ε β)) =
      { bytes := x.bytes, result := x.result.map fun a => f (a, x.bytes) } := by
  cases x with
  | mk bytes result => cases result <;> simp [listen, Except.map, bind]

theorem buffered_result_eq_ok {x : Emits ε α} {p : α × List UInt8} :
    x.buffered.result = .ok p ↔ x.result = .ok p.1 ∧ p.2 = x.bytes :=
  listen_result_eq_ok

theorem mapError_result_eq_ok {f : ε → ε} {x : Emits ε α} {a : α} :
    (x.mapError f).result = .ok a ↔ x.result = .ok a := by
  cases x with
  | mk bytes result => cases result <;> simp [mapError, Except.mapError]

theorem mapError_of_ok {f : ε → ε} {x : Emits ε α} {a : α} (h : x.result = .ok a) :
    x.mapError f = x := by
  cases x with
  | mk bytes result =>
      cases h
      rfl

end Emits

end Sevenz.Lib
