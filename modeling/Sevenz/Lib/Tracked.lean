import Sevenz.Lib.Parser

/-!
# Parsers that leave a trail

A tracked parser notes events while it reads, and the trail stays when it fails.  Without the
trail it is a plain parser (`erase`); `Only` bounds every event of every run, and its rule for a
sequence hands on what the first parser has read.
-/

namespace Sevenz.Lib

structure Tracked (ε σ α : Type) where
  run : List UInt8 → List σ × Except ε (α × List UInt8)

namespace Tracked

variable {ε σ α β : Type}

def read (p : Parser ε α) : Tracked ε σ α := { run := fun s => ([], p s) }

def lift (x : Except ε α) : Tracked ε σ α := read (monadLift x)

def note (e : σ) : Tracked ε σ Unit := { run := fun s => ([e], .ok ((), s)) }

instance : Monad (Tracked ε σ) where
  pure a := read (pure a)
  bind m f :=
    { run := fun s =>
        match m.run s with
        | (trail, .error e) => (trail, .error e)
        | (trail, .ok (a, s')) => (trail ++ ((f a).run s').1, ((f a).run s').2) }

def erase (m : Tracked ε σ α) : Parser ε α := fun s => (m.run s).2

@[simp] theorem erase_read (p : Parser ε α) : (read p : Tracked ε σ α).erase = p := rfl

@[simp] theorem erase_lift (x : Except ε α) : (lift x : Tracked ε σ α).erase = monadLift x := rfl

@[simp] theorem erase_pure (a : α) : (pure a : Tracked ε σ α).erase = pure a := rfl

@[simp] theorem erase_note (e : σ) : (note e : Tracked ε σ Unit).erase = pure () := rfl

theorem bind_run_ok {m : Tracked ε σ α} {f : α → Tracked ε σ β} {s s' : List UInt8}
    {trail : List σ} {a : α} (h : m.run s = (trail, .ok (a, s'))) :
    (m >>= f).run s = (trail ++ ((f a).run s').1, ((f a).run s').2) := by
  simp [bind, h]

theorem bind_run_error {m : Tracked ε σ α} {f : α → Tracked ε σ β} {s : List UInt8}
    {trail : List σ} {e : ε} (h : m.run s = (trail, .error e)) :
    (m >>= f).run s = (trail, .error e) := by
  simp [bind, h]

@[simp] theorem erase_bind (m : Tracked ε σ α) (f : α → Tracked ε σ β) :
    (m >>= f).erase = m.erase >>= fun a => (f a).erase := by
  funext s
  cases h : m.run s with
  | mk trail result =>
      have herase : m.erase s = result := congrArg Prod.snd h
      cases result with
      | error e =>
          rw [Parser.bind_apply_error herase, erase, bind_run_error h]
      | ok r =>
          rw [Parser.bind_apply_ok herase, erase, bind_run_ok h]
          rfl

theorem erase_ite (p : Prop) [Decidable p] (m n : Tracked ε σ α) :
    (if p then m else n).erase = if p then m.erase else n.erase := by
  split <;> rfl

def Only (P : σ → Prop) (m : Tracked ε σ α) : Prop := ∀ s, ∀ e ∈ (m.run s).1, P e

namespace Only

variable {P : σ → Prop}

theorem read (p : Parser ε α) : Only P (Tracked.read p : Tracked ε σ α) := by
  intro s e he
  cases he

theorem lift (x : Except ε α) : Only P (Tracked.lift x : Tracked ε σ α) := .read _

theorem pure (a : α) : Only P (Pure.pure a : Tracked ε σ α) := .read _

theorem note {e : σ} (h : P e) : Only P (Tracked.note e : Tracked ε σ Unit) := by
  intro s e' he
  rwa [List.mem_singleton.mp he]

theorem bind {m : Tracked ε σ α} {f : α → Tracked ε σ β} (hm : Only P m)
    (hf : ∀ s a s', m.erase s = .ok (a, s') → Only P (f a)) : Only P (m >>= f) := by
  intro s e he
  have hmine := hm s
  cases h : m.run s with
  | mk trail result =>
      have herase : m.erase s = result := congrArg Prod.snd h
      rw [h] at hmine
      cases result with
      | error fault =>
          rw [bind_run_error h] at he
          exact hmine e he
      | ok r =>
          rw [bind_run_ok h] at he
          cases List.mem_append.mp he with
          | inl he => exact hmine e he
          | inr he => exact hf s r.1 r.2 herase r.2 e he

theorem read_bind {p : Parser ε α} {f : α → Tracked ε σ β}
    (hf : ∀ s a s', p s = .ok (a, s') → Only P (f a)) : Only P (Tracked.read p >>= f) :=
  bind (.read p) hf

theorem lift_bind {x : Except ε α} {f : α → Tracked ε σ β}
    (hf : ∀ a, x = .ok a → Only P (f a)) : Only P (Tracked.lift x >>= f) := by
  refine bind (.lift x) fun s a s' h => ?_
  obtain ⟨b, hb, heq⟩ := Parser.monadLift_eq_ok.mp h
  cases heq
  exact hf a hb

theorem note_bind {e : σ} {f : Unit → Tracked ε σ β} (h : P e) (hf : Only P (f ())) :
    Only P (Tracked.note e >>= f) :=
  bind (.note h) fun _ _ _ _ => hf

theorem ite (p : Prop) [Decidable p] {m n : Tracked ε σ α} (hm : p → Only P m)
    (hn : ¬ p → Only P n) : Only P (if p then m else n) := by
  split
  · rename_i hp
    exact hm hp
  · rename_i hp
    exact hn hp

end Only

end Tracked

end Sevenz.Lib
