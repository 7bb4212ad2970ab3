import Mathlib.Data.UInt
import Mathlib.Data.List.Basic

/-!
# Byte parsers

A `Parser` reads from the front of a byte string and either fails or returns a
value with what is left.  The rules here are of two kinds: inversion lemmas, which
take a successful run apart at each bind, and `Decodes`, the statement that a
parser reads one encoding back and leaves every continuation untouched.
-/

namespace Sevenz.Lib

abbrev Parser (ε α : Type) := StateT (List UInt8) (Except ε) α

namespace Parser

variable {ε α β : Type}

@[simp] theorem pure_apply (a : α) (s : List UInt8) :
    (pure a : Parser ε α) s = .ok (a, s) := rfl

theorem bind_apply (p : Parser ε α) (f : α → Parser ε β) (s : List UInt8) :
    (p >>= f) s = (p s).bind fun r => f r.1 r.2 := rfl

theorem bind_apply_ok {p : Parser ε α} {f : α → Parser ε β} {s s₁ : List UInt8} {a : α}
    (h : p s = .ok (a, s₁)) : (p >>= f) s = f a s₁ := by
  rw [bind_apply, h]
  rfl

theorem bind_apply_error {p : Parser ε α} {f : α → Parser ε β} {s : List UInt8} {e : ε}
    (h : p s = .error e) : (p >>= f) s = .error e := by
  rw [bind_apply, h]
  rfl

@[simp] theorem throw_apply (e : ε) (s : List UInt8) :
    (throw e : Parser ε α) s = .error e := rfl

@[simp] theorem monadLift_apply (x : Except ε α) (s : List UInt8) :
    (monadLift x : Parser ε α) s = x.map fun a => (a, s) := by
  cases x <;> rfl

/-- A run of `p >>= f` succeeds exactly through a run of `p` followed by one of `f`. -/
theorem bind_eq_ok {p : Parser ε α} {f : α → Parser ε β} {s : List UInt8}
    {r : β × List UInt8} :
    (p >>= f) s = .ok r ↔ ∃ a s₁, p s = .ok (a, s₁) ∧ f a s₁ = .ok r := by
  rw [bind_apply]
  cases h : p s with
  | error e => simp [Except.bind]
  | ok x =>
      obtain ⟨a, s₁⟩ := x
      simp [Except.bind]

theorem pure_eq_ok {a : α} {s : List UInt8} {r : α × List UInt8} :
    (pure a : Parser ε α) s = .ok r ↔ r = (a, s) := by
  rw [pure_apply, Except.ok.injEq, eq_comm]

theorem monadLift_eq_ok {x : Except ε α} {s : List UInt8} {r : α × List UInt8} :
    (monadLift x : Parser ε α) s = .ok r ↔ ∃ a, x = .ok a ∧ r = (a, s) := by
  rw [monadLift_apply]
  cases x with
  | error e => simp [Except.map]
  | ok a => simp [Except.map, eq_comm]

theorem lift_bind_eq_ok {x : Except ε α} {f : α → Parser ε β} {s : List UInt8}
    {r : β × List UInt8} :
    ((monadLift x : Parser ε α) >>= f) s = .ok r ↔ ∃ a, x = .ok a ∧ f a s = .ok r := by
  rw [bind_eq_ok]
  constructor
  · rintro ⟨a, s₁, hx, hf⟩
    obtain ⟨b, hb, heq⟩ := monadLift_eq_ok.mp hx
    cases heq
    exact ⟨a, hb, hf⟩
  · rintro ⟨a, hx, hf⟩
    exact ⟨a, s, monadLift_eq_ok.mpr ⟨a, hx, rfl⟩, hf⟩

@[simp] theorem throw_ne_ok {e : ε} {s : List UInt8} {r : α × List UInt8} :
    ((throw e : Parser ε α) s = .ok r) ↔ False := by
  simp

def byte (eof : ε) : Parser ε UInt8 := fun s =>
  match s with
  | [] => .error eof
  | b :: s => .ok (b, s)

@[simp] theorem byte_cons (eof : ε) (b : UInt8) (s : List UInt8) :
    byte eof (b :: s) = .ok (b, s) := rfl

theorem byte_eq_ok {eof : ε} {s : List UInt8} {b : UInt8} {s' : List UInt8} :
    byte eof s = .ok (b, s') ↔ s = b :: s' := by
  cases s <;> simp [byte]

def bytes (eof : ε) (n : Nat) : Parser ε (List UInt8) := fun s =>
  if n ≤ s.length then .ok (s.take n, s.drop n) else .error eof

theorem bytes_eq_ok {eof : ε} {n : Nat} {s bs s' : List UInt8} :
    bytes eof n s = .ok (bs, s') ↔ bs.length = n ∧ s = bs ++ s' := by
  unfold bytes
  split
  · rename_i hn
    constructor
    · intro h
      cases h
      exact ⟨List.length_take_of_le hn, (List.take_append_drop n s).symm⟩
    · rintro ⟨rfl, rfl⟩
      simp
  · rename_i hn
    constructor
    · intro h
      cases h
    · rintro ⟨rfl, rfl⟩
      exact absurd (by simp) hn

/-- Move `n` bytes forward.  Past the end nothing is left, as with a cursor. -/
def skip (n : Nat) : Parser ε Unit := fun s => .ok ((), s.drop n)

@[simp] theorem skip_apply (n : Nat) (s : List UInt8) :
    (skip n : Parser ε Unit) s = .ok ((), s.drop n) := rfl

def many : Nat → Parser ε α → Parser ε (List α)
  | 0, _ => pure []
  | n + 1, p => do
      let a ← p
      let as ← many n p
      pure (a :: as)

theorem many_length {p : Parser ε α} {n : Nat} {s s' : List UInt8} {as : List α}
    (h : many n p s = .ok (as, s')) : as.length = n := by
  induction n generalizing s as with
  | zero =>
      cases pure_eq_ok.mp h
      rfl
  | succ n ih =>
      obtain ⟨a, s₁, -, h⟩ := bind_eq_ok.mp h
      obtain ⟨as', s₂, has, h⟩ := bind_eq_ok.mp h
      cases pure_eq_ok.mp h
      rw [List.length_cons, ih has]

theorem many_forall {p : Parser ε α} {P : α → Prop}
    (hp : ∀ s a s', p s = .ok (a, s') → P a)
    {n : Nat} {s s' : List UInt8} {as : List α} (h : many n p s = .ok (as, s')) :
    ∀ a ∈ as, P a := by
  induction n generalizing s as with
  | zero =>
      cases pure_eq_ok.mp h
      simp
  | succ n ih =>
      obtain ⟨a, s₁, ha, h⟩ := bind_eq_ok.mp h
      obtain ⟨as', s₂, has, h⟩ := bind_eq_ok.mp h
      cases pure_eq_ok.mp h
      intro x hx
      rcases List.mem_cons.mp hx with rfl | hx
      · exact hp _ _ _ ha
      · exact ih has x hx

theorem exists_of_mem_mapM {γ : Type} {f : γ → Parser ε β} {xs : List γ} {ys : List β}
    {s s' : List UInt8} (h : xs.mapM f s = .ok (ys, s')) :
    ∀ y ∈ ys, ∃ x ∈ xs, ∃ s s', f x s = .ok (y, s') := by
  induction xs generalizing s ys with
  | nil =>
      cases pure_eq_ok.mp h
      simp
  | cons x xs ih =>
      rw [List.mapM_cons] at h
      obtain ⟨y, s₁, hy, h⟩ := bind_eq_ok.mp h
      obtain ⟨ys', s₂, hys, h⟩ := bind_eq_ok.mp h
      cases pure_eq_ok.mp h
      intro z hz
      rcases List.mem_cons.mp hz with rfl | hz
      · exact ⟨x, List.mem_cons_self, s, s₁, hy⟩
      · obtain ⟨x', hx', hread⟩ := ih hys z hz
        exact ⟨x', List.mem_cons_of_mem x hx', hread⟩

theorem mapM_forall₂ {γ : Type} {f : γ → Parser ε β} {xs : List γ} {ys : List β}
    {s s' : List UInt8} (h : xs.mapM f s = .ok (ys, s')) :
    List.Forall₂ (fun x y => ∃ t t', f x t = .ok (y, t')) xs ys := by
  induction xs generalizing s ys with
  | nil =>
      cases pure_eq_ok.mp h
      exact .nil
  | cons x xs ih =>
      rw [List.mapM_cons] at h
      obtain ⟨y, s₁, hy, h⟩ := bind_eq_ok.mp h
      obtain ⟨ys', s₂, hys, h⟩ := bind_eq_ok.mp h
      cases pure_eq_ok.mp h
      exact .cons ⟨s, s₁, hy⟩ (ih hys)

/-- A successful run of `p` takes at least `k` bytes. -/
def Consumes (p : Parser ε α) (k : Nat) : Prop :=
  ∀ s a s', p s = .ok (a, s') → s'.length + k ≤ s.length

namespace Consumes

theorem pure (a : α) : Consumes (Pure.pure a : Parser ε α) 0 := by
  intro s b s' h
  cases pure_eq_ok.mp h
  exact Nat.le_refl _

theorem throw (e : ε) (k : Nat) : Consumes (MonadExcept.throw e : Parser ε α) k := by
  intro s b s' h
  cases h

theorem lift (x : Except ε α) : Consumes (monadLift x : Parser ε α) 0 := by
  intro s b s' h
  obtain ⟨a, -, h⟩ := monadLift_eq_ok.mp h
  cases h
  exact Nat.le_refl _

theorem mono {p : Parser ε α} {j k : Nat} (hp : Consumes p k) (h : j ≤ k) : Consumes p j := by
  intro s a s' hs
  have := hp s a s' hs
  omega

theorem bind {p : Parser ε α} {f : α → Parser ε β} {j k : Nat} (hp : Consumes p j)
    (hf : ∀ a, Consumes (f a) k) : Consumes (p >>= f) (j + k) := by
  intro s b s' h
  obtain ⟨a, s₁, ha, hb⟩ := bind_eq_ok.mp h
  have h₁ := hp s a s₁ ha
  have h₂ := hf a s₁ b s' hb
  omega

theorem byte (eof : ε) : Consumes (Parser.byte eof) 1 := by
  intro s b s' h
  rw [byte_eq_ok.mp h]
  exact Nat.le_refl _

theorem bytes (eof : ε) (n : Nat) : Consumes (Parser.bytes eof n) n := by
  intro s b s' h
  obtain ⟨rfl, rfl⟩ := bytes_eq_ok.mp h
  exact Nat.le_of_eq (by rw [List.length_append, Nat.add_comm])

theorem mapM {γ : Type} {f : γ → Parser ε β} {k : γ → Nat} {xs : List γ}
    (h : ∀ x ∈ xs, Consumes (f x) (k x)) : Consumes (xs.mapM f) (xs.map k).sum := by
  induction xs with
  | nil => exact Consumes.pure []
  | cons x xs ih =>
      rw [List.mapM_cons, List.map_cons, List.sum_cons]
      refine (h x List.mem_cons_self).bind fun b => ?_
      rw [← Nat.add_zero (xs.map k).sum]
      exact (ih fun y hy => h y (List.mem_cons_of_mem x hy)).bind fun bs => Consumes.pure _

theorem many {p : Parser ε α} (h : Consumes p 0) (n : Nat) : Consumes (Parser.many n p) 0 := by
  induction n with
  | zero => exact Consumes.pure []
  | succ n ih => exact h.bind fun a => ih.bind fun as => Consumes.pure (a :: as)

end Consumes

/-- `p` reads `bs` back as `a` and leaves whatever follows. -/
def Decodes (p : Parser ε α) (bs : List UInt8) (a : α) : Prop :=
  ∀ rest, p (bs ++ rest) = .ok (a, rest)

namespace Decodes

theorem pure (a : α) : Decodes (Pure.pure a : Parser ε α) [] a := fun _ => rfl

theorem bind {p : Parser ε α} {f : α → Parser ε β} {bs cs : List UInt8} {a : α} {b : β}
    (hp : Decodes p bs a) (hf : Decodes (f a) cs b) : Decodes (p >>= f) (bs ++ cs) b := by
  intro rest
  rw [List.append_assoc, bind_apply_ok (hp (cs ++ rest))]
  exact hf rest

theorem bind_pure {p : Parser ε α} {bs : List UInt8} {a : α} (f : α → β)
    (hp : Decodes p bs a) : Decodes (p >>= fun x => Pure.pure (f x)) bs (f a) := by
  intro rest
  rw [bind_apply_ok (hp rest)]
  rfl

theorem bind_nil {p : Parser ε α} {f : α → Parser ε β} {bs : List UInt8} {a : α} {b : β}
    (hp : Decodes p [] a) (hf : Decodes (f a) bs b) : Decodes (p >>= f) bs b :=
  hp.bind hf

theorem lift {x : Except ε α} {a : α} (h : x = .ok a) :
    Decodes (monadLift x : Parser ε α) [] a := by
  intro rest
  rw [monadLift_apply, h]
  rfl

theorem byte (eof : ε) (b : UInt8) : Decodes (Parser.byte eof) [b] b := fun _ => rfl

theorem bytes (eof : ε) (bs : List UInt8) : Decodes (Parser.bytes eof bs.length) bs bs :=
  fun _ => bytes_eq_ok.mpr ⟨rfl, rfl⟩

theorem skip (bs : List UInt8) : Decodes (Parser.skip bs.length : Parser ε Unit) bs () := by
  intro rest
  rw [skip_apply, List.drop_left]

theorem many {p : Parser ε α} {encode : α → List UInt8} {as : List α}
    (h : ∀ a ∈ as, Decodes p (encode a) a) :
    Decodes (Parser.many as.length p) (as.flatMap encode) as := by
  induction as with
  | nil => exact Decodes.pure []
  | cons a as ih =>
      rw [List.flatMap_cons, ← List.append_nil (as.flatMap encode)]
      exact (h a List.mem_cons_self).bind
        ((ih fun b hb => h b (List.mem_cons_of_mem a hb)).bind (Decodes.pure (a :: as)))

theorem mapM {γ : Type} {f : γ → Parser ε β} {encode : γ → List UInt8} {result : γ → β}
    {xs : List γ} (h : ∀ x ∈ xs, Decodes (f x) (encode x) (result x)) :
    Decodes (xs.mapM f) (xs.flatMap encode) (xs.map result) := by
  induction xs with
  | nil => exact Decodes.pure []
  | cons x xs ih =>
      rw [List.flatMap_cons, List.mapM_cons, ← List.append_nil (xs.flatMap encode)]
      exact (h x List.mem_cons_self).bind
        ((ih fun y hy => h y (List.mem_cons_of_mem x hy)).bind (Decodes.pure _))

theorem unique {p : Parser ε α} {bs : List UInt8} {a a' : α} {rest s' : List UInt8}
    (hp : Decodes p bs a) (h : p (bs ++ rest) = .ok (a', s')) : a' = a ∧ s' = rest := by
  rw [hp rest] at h
  cases h
  exact ⟨rfl, rfl⟩

end Decodes

end Parser

end Sevenz.Lib
