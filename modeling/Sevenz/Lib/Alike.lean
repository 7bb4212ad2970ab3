import Sevenz.Lib.Emits
import Sevenz.Lib.Writer

/-!
# Writers that cannot be told apart

Two steps are alike when both fail in the same way, or both succeed with related values.  Two
writers may answer every single write alike, or only every `write_all`: the second is all that
can be said of sinks that take what they like of an offer.
-/

namespace Sevenz.Lib

variable {ε α β γ δ : Type}

/-- Both steps fail in the same way, or both succeed with related values. -/
inductive Alike (R : α → β → Prop) : Except ε α → Except ε β → Prop
  | ok {a : α} {b : β} (h : R a b) : Alike R (.ok a) (.ok b)
  | error {e : ε} : Alike R (.error e) (.error e)

namespace Alike

variable {R : α → β → Prop} {S : γ → δ → Prop}

theorem bind {x : Except ε α} {y : Except ε β} {f : α → Except ε γ} {g : β → Except ε δ}
    (h : Alike R x y) (hnext : ∀ a b, R a b → Alike S (f a) (g b)) :
    Alike S (x >>= f) (y >>= g) := by
  cases h with
  | ok hab => exact hnext _ _ hab
  | error => exact .error

theorem map {x : Except ε α} {y : Except ε β} {f : α → γ} {g : β → δ} (h : Alike R x y)
    (hnext : ∀ a b, R a b → S (f a) (g b)) : Alike S (x.map f) (y.map g) := by
  cases h with
  | ok hab => exact .ok (hnext _ _ hab)
  | error => exact .error

theorem map_left {S : γ → β → Prop} {x : Except ε α} {y : Except ε β} {f : α → γ}
    (h : Alike R x y) (hnext : ∀ a b, R a b → S (f a) b) : Alike S (x.map f) y := by
  cases h with
  | ok hab => exact .ok (hnext _ _ hab)
  | error => exact .error

theorem mono {R' : α → β → Prop} {x : Except ε α} {y : Except ε β} (h : Alike R x y)
    (himp : ∀ a b, R a b → R' a b) : Alike R' x y := by
  cases h with
  | ok hab => exact .ok (himp _ _ hab)
  | error => exact .error

theorem exists_of_ok {x : Except ε α} {b : β} (h : Alike R x (.ok b)) : ∃ a, x = .ok a ∧ R a b := by
  cases h with
  | ok hab => exact ⟨_, rfl, hab⟩

theorem eq {x y : Except ε α} (h : Alike Eq x y) : x = y := by
  cases h with
  | ok hab => rw [hab]
  | error => rfl

end Alike

/-- Both steps put out the same bytes, and are alike. -/
structure EmitsAlike (R : α → β → Prop) (x : Emits ε α) (y : Emits ε β) : Prop where
  bytes : x.bytes = y.bytes
  result : Alike R x.result y.result

namespace EmitsAlike

variable {R : α → β → Prop} {S : γ → δ → Prop}

theorem pure {a : α} {b : β} (h : R a b) : EmitsAlike (ε := ε) R (Pure.pure a) (Pure.pure b) where
  bytes := rfl
  result := .ok h

theorem bind {x : Emits ε α} {y : Emits ε β} {f : α → Emits ε γ} {g : β → Emits ε δ}
    (h : EmitsAlike R x y) (hnext : ∀ a b, R a b → EmitsAlike S (f a) (g b)) :
    EmitsAlike S (x >>= f) (y >>= g) := by
  obtain ⟨bytes, result⟩ := x
  obtain ⟨bytes', result'⟩ := y
  obtain ⟨hbytes, hresult⟩ := h
  dsimp only at hbytes hresult
  subst hbytes
  cases hresult with
  | error => exact ⟨rfl, .error⟩
  | ok hab =>
      obtain ⟨hbytes, hresult⟩ := hnext _ _ hab
      exact ⟨congrArg (bytes ++ ·) hbytes, hresult⟩

theorem mapError {x : Emits ε α} {y : Emits ε β} (f : ε → ε) (h : EmitsAlike R x y) :
    EmitsAlike R (x.mapError f) (y.mapError f) where
  bytes := h.bytes
  result := by
    obtain ⟨-, hresult⟩ := h
    unfold Emits.mapError
    generalize x.result = result at hresult ⊢
    generalize y.result = result' at hresult ⊢
    cases hresult with
    | ok hab => exact .ok hab
    | error => exact .error

end EmitsAlike

variable {σ τ ρ : Type}

def SameCount (R : σ → τ → Prop) (p : Nat × σ) (q : Nat × τ) : Prop := p.1 = q.1 ∧ R p.2 q.2

structure WriteAlike (w : ByteSink ε σ) (v : ByteSink ε τ) (R : σ → τ → Prop) : Prop where
  write : ∀ {s t} buf, R s t → Alike (SameCount R) (w.write buf s) (v.write buf t)
  flush : ∀ {s t}, R s t → Alike R (w.flush s) (v.flush t)

structure WriteAllAlike (writeZero : ε) (w : ByteSink ε σ) (v : ByteSink ε τ)
    (R : σ → τ → Prop) : Prop where
  writeAll : ∀ {s t} buf, R s t → Alike R (w.writeAll writeZero buf s) (v.writeAll writeZero buf t)
  finish : ∀ {s t}, R s t → Alike (SameCount R) (w.write [] s) (v.write [] t)
  flush : ∀ {s t}, R s t → Alike R (w.flush s) (v.flush t)

section

variable {w : ByteSink ε σ} {v : ByteSink ε τ} {R : σ → τ → Prop} {writeZero : ε}

theorem WriteAlike.writeAllLoop (h : WriteAlike w v R) {rounds : Nat} {buf : List UInt8} {s : σ}
    {t : τ} (hst : R s t) :
    Alike R (w.writeAllLoop writeZero rounds buf s) (v.writeAllLoop writeZero rounds buf t) := by
  induction rounds generalizing buf s t with
  | zero =>
      cases buf with
      | nil => exact .ok hst
      | cons _ _ => exact .error
  | succ rounds ih =>
      cases buf with
      | nil => exact .ok hst
      | cons b buf =>
          have hwrite := h.write (b :: buf) hst
          unfold ByteSink.writeAllLoop
          generalize w.write (b :: buf) s = x at hwrite ⊢
          generalize v.write (b :: buf) t = y at hwrite ⊢
          cases hwrite with
          | error => exact .error
          | @ok p q hpq =>
              obtain ⟨taken, s'⟩ := p
              obtain ⟨taken', t'⟩ := q
              obtain ⟨rfl, hst'⟩ : taken = taken' ∧ R s' t' := hpq
              dsimp only
              split
              · exact .error
              · exact ih hst'

theorem WriteAlike.all (h : WriteAlike w v R) : WriteAllAlike writeZero w v R where
  writeAll _ hst := h.writeAllLoop hst
  finish hst := h.write [] hst
  flush := h.flush

theorem WriteAllAlike.perform (h : WriteAllAlike writeZero w v R) (calls : List WriterCall)
    {s : σ} {t : τ} (hst : R s t) :
    Alike R (w.perform writeZero calls s) (v.perform writeZero calls t) := by
  induction calls generalizing s t with
  | nil => exact .ok hst
  | cons call calls ih =>
      cases call with
      | writeAll bytes =>
          have hwrite := h.writeAll bytes hst
          unfold ByteSink.perform
          generalize w.writeAll writeZero bytes s = x at hwrite ⊢
          generalize v.writeAll writeZero bytes t = y at hwrite ⊢
          cases hwrite with
          | error => exact .error
          | ok hst' => exact ih hst'
      | flush =>
          have hflush := h.flush hst
          unfold ByteSink.perform
          generalize w.flush s = x at hflush ⊢
          generalize v.flush t = y at hflush ⊢
          cases hflush with
          | error => exact .error
          | ok hst' => exact ih hst'

end

/-- The states of the one writer lie among those of the other, and there the two are the same. -/
structure Behind (w : ByteSink ε σ) (w' : ByteSink ε ρ) (place : σ → ρ) : Prop where
  write : ∀ buf s, w'.write buf (place s) = (w.write buf s).map fun p => (p.1, place p.2)
  flush : ∀ s, w'.flush (place s) = (w.flush s).map place

theorem Behind.writeAllLoop {w : ByteSink ε σ} {w' : ByteSink ε ρ} {place : σ → ρ}
    (h : Behind w w' place) (writeZero : ε) (rounds : Nat) (buf : List UInt8) (s : σ) :
    w'.writeAllLoop writeZero rounds buf (place s) =
      (w.writeAllLoop writeZero rounds buf s).map place := by
  induction rounds generalizing buf s with
  | zero => cases buf <;> rfl
  | succ rounds ih =>
      cases buf with
      | nil => rfl
      | cons b buf =>
          unfold ByteSink.writeAllLoop
          rw [h.write]
          cases w.write (b :: buf) s with
          | error e => rfl
          | ok p =>
              obtain ⟨taken, s'⟩ := p
              simp only [Except.map]
              split
              · rfl
              · exact ih _ s'

def Placed {ρ' : Type} (place : σ → ρ) (place' : τ → ρ') (R : σ → τ → Prop) (p : ρ) (q : ρ') :
    Prop :=
  ∃ s t, p = place s ∧ q = place' t ∧ R s t

theorem WriteAllAlike.behind {ρ' : Type} {w : ByteSink ε σ} {v : ByteSink ε τ} {w' : ByteSink ε ρ}
    {v' : ByteSink ε ρ'} {place : σ → ρ} {place' : τ → ρ'} {R : σ → τ → Prop} {writeZero : ε}
    (h : WriteAllAlike writeZero w v R) (hw : Behind w w' place) (hv : Behind v v' place') :
    WriteAllAlike writeZero w' v' (Placed place place' R) where
  writeAll := by
    rintro _ _ buf ⟨s, t, rfl, rfl, hst⟩
    unfold ByteSink.writeAll
    rw [hw.writeAllLoop, hv.writeAllLoop]
    exact (h.writeAll buf hst).map fun s' t' hst' => ⟨s', t', rfl, rfl, hst'⟩
  finish := by
    rintro _ _ ⟨s, t, rfl, rfl, hst⟩
    rw [hw.write, hv.write]
    apply (h.finish hst).map
    rintro ⟨taken, s'⟩ ⟨_, t'⟩ ⟨rfl, hst'⟩
    exact ⟨rfl, s', t', rfl, rfl, hst'⟩
  flush := by
    rintro _ _ ⟨s, t, rfl, rfl, hst⟩
    rw [hw.flush, hv.flush]
    exact (h.flush hst).map fun s' t' hst' => ⟨s', t', rfl, rfl, hst'⟩

theorem WriteAllAlike.mono {w : ByteSink ε σ} {v : ByteSink ε τ} {R R' : σ → τ → Prop}
    {writeZero : ε} (h : WriteAllAlike writeZero w v R) (hiff : ∀ s t, R s t ↔ R' s t) :
    WriteAllAlike writeZero w v R' := by
  obtain rfl : R = R' := by
    funext s t
    exact propext (hiff s t)
  exact h

/-- The writer passes all calls on to another, and adds what that one takes to an account. -/
structure Accounts (w : ByteSink ε σ) (v : ByteSink ε (ρ × σ)) (add : ρ → List UInt8 → ρ) :
    Prop where
  write : ∀ buf r s, v.write buf (r, s) =
    (w.write buf s).map fun p => (p.1, (add r (buf.take p.1), p.2))
  flush : ∀ r s, v.flush (r, s) = (w.flush s).map fun s => (r, s)
  nil : ∀ r, add r [] = r
  append : ∀ r xs ys, add (add r xs) ys = add r (xs ++ ys)

namespace Accounts

variable {w : ByteSink ε σ} {w' : ByteSink ε (ρ × σ)} {add : ρ → List UInt8 → ρ}

theorem writeAllLoop (h : Accounts w w' add) (writeZero : ε) (rounds : Nat) (buf : List UInt8)
    (r : ρ) (s : σ) :
    w'.writeAllLoop writeZero rounds buf (r, s) =
      (w.writeAllLoop writeZero rounds buf s).map fun s => (add r buf, s) := by
  induction rounds generalizing buf r s with
  | zero =>
      cases buf with
      | nil =>
          unfold ByteSink.writeAllLoop
          rw [Except.map, h.nil]
      | cons _ _ => rfl
  | succ rounds ih =>
      cases buf with
      | nil =>
          unfold ByteSink.writeAllLoop
          rw [Except.map, h.nil]
      | cons b buf =>
          unfold ByteSink.writeAllLoop
          rw [h.write]
          cases w.write (b :: buf) s with
          | error e => rfl
          | ok p =>
              obtain ⟨taken, s'⟩ := p
              simp only [Except.map]
              split
              · rfl
              · rw [ih, h.append, List.take_append_drop]
                rfl

variable {v : ByteSink ε τ} {v' : ByteSink ε (ρ × τ)} {R : σ → τ → Prop} {writeZero : ε}

def Same (R : σ → τ → Prop) (p : ρ × σ) (q : ρ × τ) : Prop := p.1 = q.1 ∧ R p.2 q.2

theorem writeAlike (h : WriteAlike w v R) (hw : Accounts w w' add) (hv : Accounts v v' add) :
    WriteAlike w' v' (Same R) where
  write := by
    rintro ⟨r, s⟩ ⟨_, t⟩ buf ⟨rfl, hst⟩
    rw [hw.write, hv.write]
    apply (h.write buf hst).map
    rintro ⟨taken, s'⟩ ⟨_, t'⟩ ⟨rfl, hst'⟩
    exact ⟨rfl, rfl, hst'⟩
  flush := by
    rintro ⟨r, s⟩ ⟨_, t⟩ ⟨rfl, hst⟩
    rw [hw.flush, hv.flush]
    exact (h.flush hst).map fun _ _ hst' => ⟨rfl, hst'⟩

theorem writeAllAlike (h : WriteAllAlike writeZero w v R) (hw : Accounts w w' add)
    (hv : Accounts v v' add) : WriteAllAlike writeZero w' v' (Same R) where
  writeAll := by
    rintro ⟨r, s⟩ ⟨_, t⟩ buf ⟨rfl, hst⟩
    unfold ByteSink.writeAll
    rw [hw.writeAllLoop, hv.writeAllLoop]
    exact (h.writeAll buf hst).map fun _ _ hst' => ⟨rfl, hst'⟩
  finish := by
    rintro ⟨r, s⟩ ⟨_, t⟩ ⟨rfl, hst⟩
    rw [hw.write, hv.write]
    apply (h.finish hst).map
    rintro ⟨taken, s'⟩ ⟨_, t'⟩ ⟨rfl, hst'⟩
    exact ⟨rfl, rfl, hst'⟩
  flush := by
    rintro ⟨r, s⟩ ⟨_, t⟩ ⟨rfl, hst⟩
    rw [hw.flush, hv.flush]
    exact (h.flush hst).map fun _ _ hst' => ⟨rfl, hst'⟩

end Accounts

def ByteSink.Bounded (w : ByteSink ε σ) : Prop :=
  ∀ ⦃buf s taken s'⦄, w.write buf s = .ok (taken, s') → taken ≤ buf.length

theorem ByteSink.Bounded.accounts {w : ByteSink ε σ} (h : w.Bounded) :
    Accounts w w.counting fun count bytes => count + bytes.length where
  write := by
    intro buf count s
    cases hwrite : w.write buf s with
    | error e => simp only [ByteSink.counting, hwrite, Except.map]
    | ok p =>
        obtain ⟨taken, s'⟩ := p
        have hle : (buf.take taken).length = taken := by
          rw [List.length_take, Nat.min_eq_left (h hwrite)]
        simp only [ByteSink.counting, hwrite, Except.map, hle]
  flush := by
    intro count s
    cases hflush : w.flush s with
    | error e => simp only [ByteSink.counting, hflush, Except.map]
    | ok s' => simp only [ByteSink.counting, hflush, Except.map]
  nil _ := rfl
  append count xs ys := by rw [List.length_append, Nat.add_assoc]

end Sevenz.Lib
