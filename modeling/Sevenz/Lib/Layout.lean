import Sevenz.Lib.Bytes

/-!
# Layouts

What a parser takes from its input is a piece at the front that alone decides the answer.  A
layout is a relation between the piece and the answer; the rules here compose layouts along the
steps of a parser.
-/

namespace Sevenz.Lib.Parser

variable {ε α β γ : Type}

/-- A successful run takes a piece of the layout from the front, and reads the same from that
piece whatever follows it. -/
def LaidOut (p : Parser ε α) (L : List UInt8 → α → Prop) : Prop :=
  ∀ s a s', p s = .ok (a, s') → ∃ body, s = body ++ s' ∧ Decodes p body a ∧ L body a

/-- A successful run takes `k` bytes, which alone decide the answer. -/
abbrev Sized (p : Parser ε α) (k : Nat) : Prop := LaidOut p fun body _ => body.length = k

namespace LaidOut

variable {p : Parser ε α} {f : α → Parser ε β} {L : List UInt8 → α → Prop}
  {M : α → List UInt8 → β → Prop}

theorem mono {L' : List UInt8 → α → Prop} (h : LaidOut p L) (hL : ∀ body a, L body a → L' body a) :
    LaidOut p L' := by
  intro s a s' hs
  obtain ⟨body, hbody, hdecodes, hlayout⟩ := h s a s' hs
  exact ⟨body, hbody, hdecodes, hL body a hlayout⟩

theorem pure (a : α) : LaidOut (Pure.pure a : Parser ε α) fun body b => body = [] ∧ b = a := by
  intro s b s' h
  cases pure_eq_ok.mp h
  exact ⟨[], rfl, Decodes.pure a, rfl, rfl⟩

theorem throw (e : ε) (L : List UInt8 → α → Prop) :
    LaidOut (MonadExcept.throw e : Parser ε α) L := by
  intro s a s' h
  cases h

theorem lift (x : Except ε α) :
    LaidOut (monadLift x : Parser ε α) fun body a => body = [] ∧ x = .ok a := by
  intro s b s' h
  obtain ⟨a, ha, h⟩ := monadLift_eq_ok.mp h
  cases h
  exact ⟨[], rfl, Decodes.lift ha, rfl, ha⟩

theorem byte (eof : ε) : LaidOut (Parser.byte eof) fun body b => body = [b] := by
  intro s b s' h
  exact ⟨[b], byte_eq_ok.mp h, Decodes.byte eof b, rfl⟩

theorem bytes (eof : ε) (n : Nat) :
    LaidOut (Parser.bytes eof n) fun body bs => body = bs ∧ body.length = n := by
  intro s bs s' h
  obtain ⟨rfl, hs⟩ := bytes_eq_ok.mp h
  exact ⟨bs, hs, Decodes.bytes eof bs, rfl, rfl⟩

theorem bind (hp : LaidOut p L) (hf : ∀ a, LaidOut (f a) (M a)) :
    LaidOut (p >>= f) fun body b =>
      ∃ front a back, body = front ++ back ∧ Decodes p front a ∧ L front a ∧ M a back b := by
  intro s b s' h
  obtain ⟨a, s₁, ha, hb⟩ := bind_eq_ok.mp h
  obtain ⟨front, rfl, hdecodes, hfront⟩ := hp s a s₁ ha
  obtain ⟨back, rfl, hdecodes', hback⟩ := hf a s₁ b s' hb
  exact ⟨front ++ back, (List.append_assoc front back s').symm, hdecodes.bind hdecodes',
    front, a, back, rfl, hdecodes, hfront, hback⟩

theorem lift_bind {x : Except ε α} (hf : ∀ a, x = .ok a → LaidOut (f a) (M a)) :
    LaidOut ((monadLift x : Parser ε α) >>= f) fun body b => ∃ a, x = .ok a ∧ M a body b := by
  intro s b s' h
  obtain ⟨a, ha, hb⟩ := lift_bind_eq_ok.mp h
  obtain ⟨body, hbody, hdecodes, hlayout⟩ := hf a ha s b s' hb
  exact ⟨body, hbody, (Decodes.lift ha).bind_nil hdecodes, a, ha, hlayout⟩

theorem bind_pure (hp : LaidOut p L) (g : α → β) :
    LaidOut (p >>= fun a => Pure.pure (g a)) fun body b => ∃ a, b = g a ∧ L body a := by
  intro s b s' h
  obtain ⟨a, s₁, ha, hb⟩ := bind_eq_ok.mp h
  cases pure_eq_ok.mp hb
  obtain ⟨body, hbody, hdecodes, hlayout⟩ := hp s a _ ha
  exact ⟨body, hbody, hdecodes.bind_pure g, a, rfl, hlayout⟩

end LaidOut

namespace Sized

variable {p : Parser ε α} {f : α → Parser ε β} {j k : Nat}

theorem pure (a : α) : Sized (Pure.pure a : Parser ε α) 0 :=
  (LaidOut.pure a).mono fun _ _ h => by rw [h.1, List.length_nil]

theorem throw (e : ε) (k : Nat) : Sized (MonadExcept.throw e : Parser ε α) k := LaidOut.throw e _

theorem lift (x : Except ε α) : Sized (monadLift x : Parser ε α) 0 :=
  (LaidOut.lift x).mono fun _ _ h => by rw [h.1, List.length_nil]

theorem byte (eof : ε) : Sized (Parser.byte eof) 1 :=
  (LaidOut.byte eof).mono fun _ _ h => by rw [h, List.length_singleton]

theorem bytes (eof : ε) (n : Nat) : Sized (Parser.bytes eof n) n :=
  (LaidOut.bytes eof n).mono fun _ _ h => h.2

theorem bind (hp : Sized p j) (hf : ∀ a, Sized (f a) k) : Sized (p >>= f) (j + k) := by
  refine (LaidOut.bind hp hf).mono ?_
  rintro body b ⟨front, a, back, rfl, -, hfront, hback⟩
  rw [List.length_append, hfront, hback]

theorem bind_pure (hp : Sized p k) (g : α → β) : Sized (p >>= fun a => Pure.pure (g a)) k := by
  have h := hp.bind fun a => Sized.pure (g a)
  rwa [Nat.add_zero] at h

theorem le (eof : ε) (n : Nat) : Sized (Parser.le eof n) n :=
  (Sized.bytes eof n).bind_pure _

theorem mapM {g : γ → Parser ε β} {size : γ → Nat} {xs : List γ}
    (h : ∀ x ∈ xs, Sized (g x) (size x)) : Sized (xs.mapM g) (xs.map size).sum := by
  induction xs with
  | nil => exact Sized.pure []
  | cons x xs ih =>
      rw [List.mapM_cons, List.map_cons, List.sum_cons]
      exact (h x List.mem_cons_self).bind fun b =>
        (ih fun y hy => h y (List.mem_cons_of_mem x hy)).bind_pure (b :: ·)

end Sized

def FailsOnly (p : Parser ε α) (F : ε → Prop) : Prop := ∀ s e, p s = .error e → F e

namespace FailsOnly

variable {F : ε → Prop} {p : Parser ε α} {f : α → Parser ε β}

theorem pure (a : α) : FailsOnly (Pure.pure a : Parser ε α) F := by
  intro s e h
  cases h

theorem throw {e : ε} (h : F e) : FailsOnly (MonadExcept.throw e : Parser ε α) F := by
  intro s e' h'
  cases h'
  exact h

theorem lift {x : Except ε α} (h : ∀ e, x = .error e → F e) :
    FailsOnly (monadLift x : Parser ε α) F := by
  intro s e he
  rw [monadLift_apply] at he
  cases hx : x with
  | error e' =>
      rw [hx] at he
      cases he
      exact h e hx
  | ok a =>
      rw [hx] at he
      cases he

theorem bind (hp : FailsOnly p F) (hf : ∀ a, FailsOnly (f a) F) : FailsOnly (p >>= f) F := by
  intro s e h
  rw [bind_apply] at h
  cases hs : p s with
  | error e' =>
      rw [hs] at h
      cases h
      exact hp s e hs
  | ok r =>
      rw [hs] at h
      exact hf r.1 r.2 e h

theorem byte {eof : ε} (h : F eof) : FailsOnly (Parser.byte eof) F := by
  intro s e hs
  cases s with
  | nil =>
      cases hs
      exact h
  | cons b s => cases hs

theorem bytes {eof : ε} (h : F eof) (n : Nat) : FailsOnly (Parser.bytes eof n) F := by
  intro s e hs
  unfold Parser.bytes at hs
  split at hs
  · cases hs
  · cases hs
    exact h

theorem le {eof : ε} (h : F eof) (n : Nat) : FailsOnly (Parser.le eof n) F :=
  (bytes h n).bind fun bs => pure (leValue bs)

theorem mapM {g : γ → Parser ε β} {xs : List γ} (h : ∀ x ∈ xs, FailsOnly (g x) F) :
    FailsOnly (xs.mapM g) F := by
  induction xs with
  | nil => exact pure []
  | cons x xs ih =>
      rw [List.mapM_cons]
      exact (h x List.mem_cons_self).bind fun b =>
        (ih fun y hy => h y (List.mem_cons_of_mem x hy)).bind fun bs => pure (b :: bs)

end FailsOnly

end Sevenz.Lib.Parser
