import Sevenz.Lib.Delivery
import Sevenz.Lib.Settling

/-!
# Readers that may refuse what they have begun to give

A verdict is the bytes that come, or `none` where they are refused.  A reader judges if each of
its answers is a part of the verdict: a refusal may come late, after some bytes that are then of
no account.
-/

namespace Sevenz.Lib

variable {ε σ : Type}

/-- In a state with a verdict, of `most` bytes at most, each read gives some of these, and fails
only where they are refused.  It gives none into a buffer with room only where no more come. -/
def Judges (read : ReadFn ε σ) (Left : Option (List UInt8) → Nat → σ → Prop) : Prop :=
  ∀ ⦃buf : Nat⦄ ⦃verdict : Option (List UInt8)⦄ ⦃most : Nat⦄ ⦃s : σ⦄, 0 < buf →
    Left verdict most s →
    (verdict = none ∧ ∃ e s', read buf s = (.error e, s')) ∨
      ∃ piece verdict' most' s', read buf s = (.ok piece, s') ∧
        verdict = verdict'.map (piece ++ ·) ∧ most = piece.length + most' ∧
        (piece = [] → verdict = some []) ∧ Left verdict' most' s'

theorem Judges.result {read : ReadFn ε σ} {Left : Option (List UInt8) → Nat → σ → Prop}
    (h : Judges read Left) {bufs : List Nat} (hbufs : ∀ buf ∈ bufs, 0 < buf)
    {verdict : Option (List UInt8)} {most : Nat} {s : σ} (hs : Left verdict most s)
    (hmost : most < bufs.length) :
    ∃ result, readUntilEnd read bufs s = some result ∧ result.toOption = verdict := by
  induction bufs generalizing verdict most s with
  | nil => exact absurd hmost (Nat.not_lt_zero _)
  | cons buf bufs ih =>
      obtain ⟨hbuf, hbufs⟩ := List.forall_mem_cons.mp hbufs
      unfold readUntilEnd
      rcases h hbuf hs with ⟨rfl, e, s', hread⟩ |
        ⟨piece, verdict', most', s', hread, hverdict, hsum, hend, hs'⟩
      · rw [hread]
        exact ⟨.error e, rfl, rfl⟩
      · rw [hread]
        dsimp only
        by_cases hnil : piece = []
        · rw [if_pos ⟨hnil, hbuf⟩, hend hnil]
          exact ⟨.ok [], rfl, rfl⟩
        · rw [if_neg fun hboth => hnil hboth.1]
          have hpos := List.length_pos_of_ne_nil hnil
          rw [List.length_cons] at hmost
          obtain ⟨result, hrest, hresult⟩ := ih hbufs hs' (by omega)
          rw [hrest, hverdict, ← hresult]
          refine ⟨result.map (piece ++ ·), rfl, ?_⟩
          cases result with
          | error e => rfl
          | ok rest => rfl

theorem scriptedRead_honest : Honest (scriptedRead : ReadFn ε (List (ReadResult ε))) := by
  rintro buf (_ | ⟨e | bytes, answers⟩)
  · exact Nat.zero_le _
  · exact Nat.zero_le _
  · exact List.length_take_le _ _

theorem Source.upTo_honest {bytes : List UInt8} {most : Nat} (hmost : 0 < most) :
    Honest (Source.upTo ε bytes hmost).read := by
  intro buf s
  exact Nat.le_trans (List.length_take_le _ _) (Nat.min_le_right _ _)

def ToldEnd (records : List (ReadRecord ε)) : Prop :=
  ∃ record ∈ records, 0 < record.buf ∧ record.result = .ok []

theorem Trace.read_of_mem {read : ReadFn ε σ} {s s' : σ} {records : List (ReadRecord ε)}
    (h : Trace read s records s') {record : ReadRecord ε} (hmem : record ∈ records) :
    ∃ t t', read record.buf t = (record.result, t') := by
  induction h with
  | nil => cases hmem
  | cons hread _ ih =>
      rcases List.mem_cons.mp hmem with rfl | hmem
      · exact ⟨_, _, hread⟩
      · exact ih hmem

theorem ToldEnd.append_right {records' : List (ReadRecord ε)} (h : ToldEnd records')
    (records : List (ReadRecord ε)) : ToldEnd (records ++ records') := by
  obtain ⟨record, hmem, hend⟩ := h
  exact ⟨record, List.mem_append_right _ hmem, hend⟩

/-- A source never fails, gives its bytes in order, and tells its end only there. -/
theorem Serves.trace {read : ReadFn ε σ} {Holds : List UInt8 → σ → Prop}
    (h : Serves read Holds) {s s' : σ} {records : List (ReadRecord ε)}
    (htrace : Trace read s records s') (hbufs : ∀ record ∈ records, 0 < record.buf)
    {bytes : List UInt8} (hs : Holds bytes s) :
    (∀ record ∈ records, ∀ e, record.result ≠ .error e) ∧
      ∃ rest, bytes = delivered records ++ rest ∧ (ToldEnd records → rest = []) ∧
        Holds rest s' := by
  induction htrace generalizing bytes with
  | nil =>
      refine ⟨nofun, bytes, rfl, ?_, hs⟩
      rintro ⟨record, hmem, -⟩
      cases hmem
  | @cons s s₁ s' buf answer records hread _ ih =>
      obtain ⟨hbuf, hrecords⟩ := List.forall_mem_cons.mp hbufs
      obtain ⟨piece, rest₁, s₂, hpiece, rfl, -, hend, hs₁⟩ := h buf bytes s hbuf hs
      rw [hread] at hpiece
      cases hpiece
      obtain ⟨hok, rest, hrest, htold, hs'⟩ := ih hrecords hs₁
      refine ⟨List.forall_mem_cons.mpr ⟨nofun, hok⟩, rest, ?_, ?_, hs'⟩
      · rw [delivered_cons_ok, List.append_assoc, ← hrest]
      · rintro ⟨record, hmem, hroom, hempty⟩
        rcases List.mem_cons.mp hmem with rfl | hmem
        · cases hempty
          rw [hend rfl] at hrest
          exact (List.append_eq_nil_iff.mp hrest.symm).2
        · exact htold ⟨record, hmem, hroom, hempty⟩

end Sevenz.Lib
