import Mathlib.Data.List.Basic

/-!
# Byte writers

A `ByteSink` takes some of the bytes it is offered; `writeAll` offers until all are taken.  A
layer that encodes makes its calls on the writer below, and `Delivers` is what such a layer
may rely on: in an open state every offer is taken at least in part and nothing else changes.
-/

namespace Sevenz.Lib

variable {ε σ : Type}

structure ByteSink (ε σ : Type) where
  write : List UInt8 → σ → Except ε (Nat × σ)
  flush : σ → Except ε σ

inductive WriterCall where
  | writeAll (bytes : List UInt8)
  | flush
  deriving DecidableEq

namespace ByteSink

def writeAllLoop (w : ByteSink ε σ) (writeZero : ε) : Nat → List UInt8 → σ → Except ε σ
  | _, [], s => .ok s
  | 0, _ :: _, _ => .error writeZero
  | rounds + 1, b :: buf, s =>
      match w.write (b :: buf) s with
      | .error e => .error e
      | .ok (taken, s) =>
          if taken = 0 then .error writeZero
          else writeAllLoop w writeZero rounds ((b :: buf).drop taken) s

/-- Each offer but the last takes a byte, so there are no more offers than bytes. -/
def writeAll (w : ByteSink ε σ) (writeZero : ε) (buf : List UInt8) (s : σ) : Except ε σ :=
  w.writeAllLoop writeZero buf.length buf s

def perform (w : ByteSink ε σ) (writeZero : ε) : List WriterCall → σ → Except ε σ
  | [], s => .ok s
  | .writeAll bytes :: calls, s =>
      match w.writeAll writeZero bytes s with
      | .error e => .error e
      | .ok s => perform w writeZero calls s
  | .flush :: calls, s =>
      match w.flush s with
      | .error e => .error e
      | .ok s => perform w writeZero calls s

def counting (w : ByteSink ε σ) : ByteSink ε (Nat × σ) where
  write buf := fun (count, s) =>
    match w.write buf s with
    | .error e => .error e
    | .ok (taken, s) => .ok (taken, (count + taken, s))
  flush := fun (count, s) =>
    match w.flush s with
    | .error e => .error e
    | .ok s => .ok (count, s)

end ByteSink

def callBytes (calls : List WriterCall) : List UInt8 :=
  calls.flatMap fun call =>
    match call with
    | .writeAll bytes => bytes
    | .flush => []

@[simp] theorem callBytes_nil : callBytes [] = [] := rfl

@[simp] theorem callBytes_writeAll (bytes : List UInt8) (calls : List WriterCall) :
    callBytes (.writeAll bytes :: calls) = bytes ++ callBytes calls := rfl

@[simp] theorem callBytes_flush (calls : List WriterCall) :
    callBytes (.flush :: calls) = callBytes calls := rfl

/-- The state is open, an offer is taken at least in part and leaves it open, and `received`
lists the pieces taken. -/
structure ByteSink.Delivers (w : ByteSink ε σ) (isOpen : σ → Prop)
    (received : σ → List (List UInt8)) : Prop where
  write : ∀ s buf, isOpen s → buf ≠ [] → ∃ taken s', w.write buf s = .ok (taken, s') ∧
    0 < taken ∧ taken ≤ buf.length ∧ isOpen s' ∧ received s' = received s ++ [buf.take taken]
  flush : ∀ s, isOpen s → ∃ s', w.flush s = .ok s' ∧ isOpen s' ∧ received s' = received s

/-- The pieces a run added: none of them is empty, and together they are `bytes`. -/
def AddsPieces (before after : List (List UInt8)) (bytes : List UInt8) : Prop :=
  ∃ pieces, after = before ++ pieces ∧ pieces.flatten = bytes ∧ ∀ piece ∈ pieces, piece ≠ []

namespace AddsPieces

theorem nil (pieces : List (List UInt8)) : AddsPieces pieces pieces [] :=
  ⟨[], by simp, rfl, by simp⟩

theorem piece (before : List (List UInt8)) {bytes : List UInt8} (h : bytes ≠ []) :
    AddsPieces before (before ++ [bytes]) bytes :=
  ⟨[bytes], rfl, by simp, by simpa using h⟩

theorem trans {p₀ p₁ p₂ : List (List UInt8)} {bytes₁ bytes₂ : List UInt8}
    (h₁ : AddsPieces p₀ p₁ bytes₁) (h₂ : AddsPieces p₁ p₂ bytes₂) :
    AddsPieces p₀ p₂ (bytes₁ ++ bytes₂) := by
  obtain ⟨pieces₁, rfl, rfl, hne₁⟩ := h₁
  obtain ⟨pieces₂, rfl, rfl, hne₂⟩ := h₂
  refine ⟨pieces₁ ++ pieces₂, by simp, by simp, ?_⟩
  intro piece hpiece
  cases List.mem_append.mp hpiece with
  | inl h => exact hne₁ piece h
  | inr h => exact hne₂ piece h

theorem flatten_eq {before after : List (List UInt8)} {bytes : List UInt8}
    (h : AddsPieces before after bytes) : after.flatten = before.flatten ++ bytes := by
  obtain ⟨pieces, rfl, rfl, -⟩ := h
  exact List.flatten_append

end AddsPieces

namespace ByteSink.Delivers

variable {w : ByteSink ε σ} {isOpen : σ → Prop} {received : σ → List (List UInt8)}

theorem writeAllLoop (h : w.Delivers isOpen received) (writeZero : ε) {rounds : Nat}
    {buf : List UInt8} {s : σ} (hopen : isOpen s) (hrounds : buf.length ≤ rounds) :
    ∃ s', w.writeAllLoop writeZero rounds buf s = .ok s' ∧ isOpen s' ∧
      AddsPieces (received s) (received s') buf := by
  induction rounds generalizing buf s with
  | zero =>
      obtain rfl := List.eq_nil_of_length_eq_zero (Nat.le_zero.mp hrounds)
      exact ⟨s, rfl, hopen, AddsPieces.nil _⟩
  | succ rounds ih =>
      match buf with
      | [] => exact ⟨s, rfl, hopen, AddsPieces.nil _⟩
      | b :: buf =>
          obtain ⟨taken, s₁, hwrite, hpos, hle, hopen₁, hreceived⟩ :=
            h.write s (b :: buf) hopen (List.cons_ne_nil b buf)
          have hshort : ((b :: buf).drop taken).length ≤ rounds := by
            rw [List.length_drop]
            omega
          obtain ⟨s', hloop, hopen', hadds⟩ := ih hopen₁ hshort
          refine ⟨s', ?_, hopen', ?_⟩
          · simp only [ByteSink.writeAllLoop, hwrite, Nat.ne_of_gt hpos, if_false]
            exact hloop
          · have hne : (b :: buf).take taken ≠ [] := by
              rw [ne_eq, List.take_eq_nil_iff]
              simp
              omega
            rw [hreceived] at hadds
            have := (AddsPieces.piece (received s) hne).trans hadds
            rwa [List.take_append_drop] at this

theorem writeAll (h : w.Delivers isOpen received) (writeZero : ε) (buf : List UInt8) {s : σ}
    (hopen : isOpen s) :
    ∃ s', w.writeAll writeZero buf s = .ok s' ∧ isOpen s' ∧
      AddsPieces (received s) (received s') buf :=
  h.writeAllLoop writeZero hopen (Nat.le_refl _)

theorem perform (h : w.Delivers isOpen received) (writeZero : ε) (calls : List WriterCall) {s : σ}
    (hopen : isOpen s) :
    ∃ s', w.perform writeZero calls s = .ok s' ∧ isOpen s' ∧
      AddsPieces (received s) (received s') (callBytes calls) := by
  induction calls generalizing s with
  | nil => exact ⟨s, rfl, hopen, AddsPieces.nil _⟩
  | cons call calls ih =>
      cases call with
      | writeAll bytes =>
          obtain ⟨s₁, hwrite, hopen₁, hadds₁⟩ := h.writeAll writeZero bytes hopen
          obtain ⟨s', hperform, hopen', hadds'⟩ := ih hopen₁
          refine ⟨s', ?_, hopen', hadds₁.trans hadds'⟩
          simp only [ByteSink.perform, hwrite]
          exact hperform
      | flush =>
          obtain ⟨s₁, hflush, hopen₁, hreceived⟩ := h.flush s hopen
          obtain ⟨s', hperform, hopen', hadds'⟩ := ih hopen₁
          refine ⟨s', ?_, hopen', ?_⟩
          · simp only [ByteSink.perform, hflush]
            exact hperform
          · rw [hreceived] at hadds'
            exact hadds'

theorem counting (h : w.Delivers isOpen received) :
    w.counting.Delivers (fun s => isOpen s.2 ∧ s.1 = (received s.2).flatten.length)
      (fun s => received s.2) where
  write := by
    intro s buf hopen hne
    obtain ⟨taken, s', hwrite, hpos, hle, hopen', hreceived⟩ := h.write s.2 buf hopen.1 hne
    refine ⟨taken, (s.1 + taken, s'), ?_, hpos, hle, ⟨hopen', ?_⟩, hreceived⟩
    · simp only [ByteSink.counting, hwrite]
    · simp [hreceived, hopen.2, Nat.min_eq_left hle]
  flush := by
    intro s hopen
    obtain ⟨s', hflush, hopen', hreceived⟩ := h.flush s.2 hopen.1
    refine ⟨(s.1, s'), ?_, ⟨hopen', ?_⟩, hreceived⟩
    · simp only [ByteSink.counting, hflush]
    · rw [hreceived]
      exact hopen.2

end ByteSink.Delivers

end Sevenz.Lib
