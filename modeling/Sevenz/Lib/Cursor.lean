import Sevenz.Lib.Layout

/-!
# Cursors

A cursor reads a byte string from a position that it can also move, past the end as well.  A loop
over a cursor whose rounds move it forward settles, and is found to do so from what one round
does.
-/

namespace Sevenz.Lib

structure Cursor where
  data : List UInt8
  pos : Nat
  deriving DecidableEq, Repr

abbrev CursorReader (ε α : Type) := StateT Cursor (Except ε) α

namespace Cursor

variable {ε α β σ : Type}

def remaining (c : Cursor) : List UInt8 := c.data.drop c.pos

@[simp] theorem remaining_length (c : Cursor) : c.remaining.length = c.data.length - c.pos :=
  List.length_drop

def read (p : Parser ε α) : CursorReader ε α := fun c =>
  (p c.remaining).map fun r =>
    (r.1, { c with pos := c.pos + (c.remaining.length - r.2.length) })

def seekCurrent (invalid : ε) (offset : Int) : CursorReader ε Unit := fun c =>
  if 0 ≤ (c.pos : Int) + offset ∧ (c.pos : Int) + offset < 2 ^ 64 then
    .ok ((), { c with pos := ((c.pos : Int) + offset).toNat })
  else .error invalid

theorem bind_eq_ok {r : CursorReader ε α} {f : α → CursorReader ε β} {c c' : Cursor} {b : β} :
    (r >>= f) c = .ok (b, c') ↔ ∃ a c₁, r c = .ok (a, c₁) ∧ f a c₁ = .ok (b, c') := by
  change (r c).bind (fun x => f x.1 x.2) = _ ↔ _
  cases h : r c with
  | error e => simp [Except.bind]
  | ok x =>
      obtain ⟨a, c₁⟩ := x
      simp [Except.bind]

theorem bind_eq_error {r : CursorReader ε α} {f : α → CursorReader ε β} {c : Cursor} {e : ε} :
    (r >>= f) c = .error e ↔
      r c = .error e ∨ ∃ a c₁, r c = .ok (a, c₁) ∧ f a c₁ = .error e := by
  change (r c).bind (fun x => f x.1 x.2) = _ ↔ _
  cases h : r c with
  | error e => simp [Except.bind]
  | ok x =>
      obtain ⟨a, c₁⟩ := x
      simp [Except.bind]

theorem bind_apply_ok {r : CursorReader ε α} {f : α → CursorReader ε β} {c c₁ : Cursor} {a : α}
    (h : r c = .ok (a, c₁)) : (r >>= f) c = f a c₁ := by
  change (r c).bind (fun x => f x.1 x.2) = _
  rw [h]
  rfl

theorem bind_apply_error {r : CursorReader ε α} {f : α → CursorReader ε β} {c : Cursor} {e : ε}
    (h : r c = .error e) : (r >>= f) c = .error e := by
  change (r c).bind (fun x => f x.1 x.2) = _
  rw [h]
  rfl

theorem pure_eq_ok {a b : α} {c c' : Cursor} :
    (pure a : CursorReader ε α) c = .ok (b, c') ↔ b = a ∧ c' = c := by
  change Except.ok (a, c) = _ ↔ _
  rw [Except.ok.injEq, Prod.mk.injEq, eq_comm, @eq_comm _ c]

theorem read_eq_ok {p : Parser ε α} {c c' : Cursor} {a : α} :
    read p c = .ok (a, c') ↔ ∃ rest, p c.remaining = .ok (a, rest) ∧
      c' = { c with pos := c.pos + (c.remaining.length - rest.length) } := by
  unfold read
  cases h : p c.remaining with
  | error e => simp [Except.map]
  | ok r =>
      obtain ⟨b, rest⟩ := r
      simp only [Except.map, Except.ok.injEq, Prod.mk.injEq]
      constructor
      · rintro ⟨rfl, rfl⟩
        exact ⟨rest, ⟨rfl, rfl⟩, rfl⟩
      · rintro ⟨_, ⟨rfl, rfl⟩, rfl⟩
        exact ⟨rfl, rfl⟩

theorem read_eq_error {p : Parser ε α} {c : Cursor} {e : ε} :
    read p c = .error e ↔ p c.remaining = .error e := by
  unfold read
  cases p c.remaining <;> simp [Except.map]

/-- A reading never moves back, and one that takes a byte starts and ends within the data. -/
theorem read_moves {p : Parser ε α} {k : Nat} (hp : p.Consumes k) {c c' : Cursor} {a : α}
    (h : read p c = .ok (a, c')) :
    c'.data = c.data ∧ c.pos + k ≤ c'.pos ∧ (0 < k → c'.pos ≤ c.data.length) := by
  obtain ⟨rest, hread, rfl⟩ := read_eq_ok.mp h
  have htaken := hp c.remaining a rest hread
  rw [remaining_length] at htaken ⊢
  refine ⟨rfl, ?_, fun hk => ?_⟩
  · change c.pos + k ≤ c.pos + (c.data.length - c.pos - rest.length)
    omega
  · change c.pos + (c.data.length - c.pos - rest.length) ≤ c.data.length
    omega

theorem remaining_of_le {c : Cursor} (h : c.data.length ≤ c.pos) : c.remaining = [] :=
  List.drop_eq_nil_of_le h

/-- From the cursor, the step does what the parser does with what remains. -/
def Mirrors (r : CursorReader ε α) (p : Parser ε α) (c : Cursor) : Prop :=
  (r c).map (fun x => (x.1, x.2.remaining)) = p c.remaining

namespace Mirrors

variable {r : CursorReader ε α} {p : Parser ε α} {c : Cursor}

theorem pure (a : α) (c : Cursor) :
    Mirrors (Pure.pure a : CursorReader ε α) (Pure.pure a : Parser ε α) c := rfl

theorem throw (e : ε) (c : Cursor) :
    Mirrors (MonadExcept.throw e : CursorReader ε α) (MonadExcept.throw e : Parser ε α) c := rfl

theorem lift (x : Except ε α) (c : Cursor) :
    Mirrors (monadLift x : CursorReader ε α) (monadLift x : Parser ε α) c := by
  cases x <;> rfl

theorem bind {f : α → CursorReader ε β} {g : α → Parser ε β} (h : Mirrors r p c)
    (hf : ∀ a c', r c = .ok (a, c') → Mirrors (f a) (g a) c') :
    Mirrors (r >>= f) (p >>= g) c := by
  unfold Mirrors at h ⊢
  cases hr : r c with
  | error e =>
      rw [hr] at h
      rw [bind_apply_error hr, Parser.bind_apply_error h.symm]
      rfl
  | ok x =>
      obtain ⟨a, c'⟩ := x
      rw [hr] at h
      rw [bind_apply_ok hr, Parser.bind_apply_ok h.symm]
      exact hf a c' hr

theorem read {L : List UInt8 → α → Prop} (hp : p.LaidOut L) (c : Cursor) :
    Mirrors (Cursor.read p) p c := by
  unfold Mirrors Cursor.read
  cases h : p c.remaining with
  | error e => rfl
  | ok x =>
      obtain ⟨a, rest⟩ := x
      obtain ⟨body, hbody, -, -⟩ := hp _ a rest h
      have hlength : c.remaining.length - rest.length = body.length := by
        rw [hbody, List.length_append, Nat.add_sub_cancel_right]
      have hrest : c.data.drop (c.pos + body.length) = rest := by
        rw [← List.drop_drop]
        change c.remaining.drop body.length = rest
        rw [hbody, List.drop_left]
      change Except.ok (a, c.data.drop (c.pos + (c.remaining.length - rest.length))) = _
      rw [hlength, hrest]

end Mirrors

/-- A loop, for at most `fuel` rounds: a round ends it with a value or goes on in a new state. -/
def loop (spent : ε) (round : σ → CursorReader ε (β ⊕ σ)) : Nat → σ → CursorReader ε β
  | 0, _ => throw spent
  | fuel + 1, s => round s >>= fun
      | .inl b => pure b
      | .inr s' => loop spent round fuel s'

def Advances (round : σ → CursorReader ε (β ⊕ σ)) (data : List UInt8) : Prop :=
  ∀ s c s' c', c.data = data → round s c = .ok (.inr s', c') →
    c.pos < data.length ∧ c.pos < c'.pos ∧ c'.data = data

theorem loop_settles {spent : ε} {round : σ → CursorReader ε (β ⊕ σ)} {data : List UInt8}
    {F : ε → Prop} (hadvances : Advances round data)
    (hfails : ∀ s c e, round s c = .error e → F e) (s : σ) {c : Cursor} (hdata : c.data = data) :
    ∃ outcome, ((∃ r, outcome = .ok r) ∨ ∃ e, F e ∧ outcome = .error e) ∧
      ∀ fuel, data.length - c.pos < fuel → loop spent round fuel s c = outcome := by
  induction hleft : data.length - c.pos using Nat.strong_induction_on generalizing s c with
  | _ left ih =>
      subst hleft
      cases hround : round s c with
      | error e =>
          refine ⟨.error e, .inr ⟨e, hfails s c e hround, rfl⟩, fun fuel hfuel => ?_⟩
          obtain ⟨k, rfl⟩ := Nat.exists_eq_succ_of_ne_zero (Nat.ne_zero_of_lt hfuel)
          exact bind_apply_error hround
      | ok r =>
          obtain ⟨next, c'⟩ := r
          cases next with
          | inl b =>
              refine ⟨.ok (b, c'), .inl ⟨(b, c'), rfl⟩, fun fuel hfuel => ?_⟩
              obtain ⟨k, rfl⟩ := Nat.exists_eq_succ_of_ne_zero (Nat.ne_zero_of_lt hfuel)
              exact bind_apply_ok hround
          | inr s' =>
              obtain ⟨hlt, hforward, hdata'⟩ := hadvances s c s' c' hdata hround
              obtain ⟨outcome, hend, hloop⟩ := ih (data.length - c'.pos) (by omega) s' hdata' rfl
              refine ⟨outcome, hend, fun fuel hfuel => ?_⟩
              obtain ⟨k, rfl⟩ := Nat.exists_eq_succ_of_ne_zero (Nat.ne_zero_of_lt hfuel)
              refine (bind_apply_ok hround).trans ?_
              exact hloop k (by omega)

end Cursor

end Sevenz.Lib
