import Mathlib.Data.UInt
import Mathlib.Data.List.Basic

/-!
# Byte streams that are read piece by piece

A `Stream` answers each read as it likes: with any bytes that fit, with none, or with an
error.  A `Script` is a consumer that decides after each answer what to do next, so a run
of a script against a reader is one particular fragmentation of the input.
-/

namespace Sevenz.Lib

abbrev ReadResult (ε : Type) := Except ε (List UInt8)

abbrev ReadFn (ε σ : Type) := Nat → σ → ReadResult ε × σ

/-- What a stream answers, given the buffer lengths it was asked for before and the one it
is asked for now. -/
structure Stream (ε : Type) where
  answer : List Nat → Nat → ReadResult ε

variable {ε σ ρ : Type}

/-- The state of a stream is the history of its reads; a read never overruns its buffer. -/
def Stream.read (stream : Stream ε) : ReadFn ε (List Nat) := fun buf history =>
  ((stream.answer history buf).map (List.take buf), history ++ [buf])

def Stream.ofContent (content : List UInt8) : Stream ε where
  answer history buf := .ok ((content.drop history.sum).take buf)

def boundedRead (inner : ReadFn ε σ) : ReadFn ε (Nat × σ) := fun buf (remain, s) =>
  if remain = 0 then (.ok [], (remain, s))
  else
    match inner (min buf remain) s with
    | (.error e, s) => (.error e, (remain, s))
    | (.ok bytes, s) => (.ok bytes, (remain - bytes.length, s))

/-- A consumer: it finishes, or reads into a buffer and goes on with the answer. -/
inductive Script (ε ρ : Type) where
  | finish (result : ρ)
  | read (buf : Nat) (next : ReadResult ε → Script ε ρ)

structure ReadRecord (ε : Type) where
  buf : Nat
  result : ReadResult ε

namespace Script

def run (read : ReadFn ε σ) : Script ε ρ → σ → ρ × List (ReadRecord ε) × σ
  | finish result, s => (result, [], s)
  | .read buf next, s =>
      let (answer, s) := read buf s
      let (result, records, s) := run read (next answer) s
      (result, ⟨buf, answer⟩ :: records, s)

/-- Reads until the stream answers with no bytes, retrying what `retry` says to retry.
The buffer lengths are the caller's; a script makes at most `rounds` reads. -/
def readToEnd (retry : ε → Bool) (bufs : Nat → Nat) (onError : ε → ρ)
    (onEnd : List UInt8 → ρ) (outOfRounds : ρ) : Nat → List UInt8 → Script ε ρ
  | 0, _ => .finish outOfRounds
  | rounds + 1, data =>
      .read (bufs rounds + 1) fun answer =>
        match answer with
        | .ok [] => .finish (onEnd data)
        | .ok bytes => readToEnd retry bufs onError onEnd outOfRounds rounds (data ++ bytes)
        | .error e =>
            if retry e then readToEnd retry bufs onError onEnd outOfRounds rounds data
            else .finish (onError e)

end Script

def ReadResult.bytes : ReadResult ε → List UInt8
  | .ok bytes => bytes
  | .error _ => []

def delivered (records : List (ReadRecord ε)) : List UInt8 :=
  records.flatMap fun record => record.result.bytes

@[simp] theorem delivered_nil : delivered ([] : List (ReadRecord ε)) = [] := rfl

theorem delivered_cons (record : ReadRecord ε) (records : List (ReadRecord ε)) :
    delivered (record :: records) = record.result.bytes ++ delivered records := rfl

@[simp] theorem delivered_cons_ok (buf : Nat) (bytes : List UInt8)
    (records : List (ReadRecord ε)) :
    delivered (⟨buf, .ok bytes⟩ :: records) = bytes ++ delivered records := rfl

@[simp] theorem delivered_cons_error (buf : Nat) (e : ε) (records : List (ReadRecord ε)) :
    delivered (⟨buf, .error e⟩ :: records) = delivered records := rfl

@[simp] theorem delivered_append (xs ys : List (ReadRecord ε)) :
    delivered (xs ++ ys) = delivered xs ++ delivered ys := List.flatMap_append

/-- The reads were made into non-empty buffers until one delivered nothing.  Errors came in
between where the consumer carried on after them. -/
def ReadToEnd : List (ReadRecord ε) → Prop
  | [] => False
  | [record] => 0 < record.buf ∧ record.result = .ok []
  | record :: records => 0 < record.buf ∧ record.result ≠ .ok [] ∧ ReadToEnd records

instance ReadToEnd.decidable [DecidableEq ε] :
    (records : List (ReadRecord ε)) → Decidable (ReadToEnd records)
  | [] => .isFalse id
  | [_] => inferInstanceAs (Decidable (_ ∧ _))
  | _ :: next :: rest =>
      have := decidable (next :: rest)
      inferInstanceAs (Decidable (_ ∧ _ ∧ ReadToEnd (next :: rest)))

theorem ReadToEnd.buf_pos {record : ReadRecord ε} {records : List (ReadRecord ε)}
    (h : ReadToEnd (record :: records)) : 0 < record.buf := by
  cases records with
  | nil => exact h.1
  | cons _ _ => exact h.1

theorem ReadToEnd.eq_nil {buf : Nat} {records : List (ReadRecord ε)}
    (h : ReadToEnd (⟨buf, .ok []⟩ :: records)) : records = [] := by
  cases records with
  | nil => rfl
  | cons _ _ => exact absurd rfl h.2.1

theorem ReadToEnd.tail {record : ReadRecord ε} {records : List (ReadRecord ε)}
    (h : ReadToEnd (record :: records)) (hmore : record.result ≠ .ok []) : ReadToEnd records := by
  cases records with
  | nil => exact absurd h.2 hmore
  | cons _ _ => exact h.2.2

theorem ReadToEnd.cons {record : ReadRecord ε} {records : List (ReadRecord ε)}
    (h : ReadToEnd records) (hbuf : 0 < record.buf) (hmore : record.result ≠ .ok []) :
    ReadToEnd (record :: records) := by
  cases records with
  | nil => exact h.elim
  | cons _ _ => exact ⟨hbuf, hmore, h⟩

theorem ReadToEnd.bufs_pos {records : List (ReadRecord ε)} (h : ReadToEnd records) :
    ∀ record ∈ records, 0 < record.buf := by
  induction records with
  | nil => exact h.elim
  | cons record records ih =>
      refine List.forall_mem_cons.mpr ⟨h.buf_pos, ?_⟩
      cases records with
      | nil => exact List.forall_mem_nil _
      | cons _ _ => exact ih h.2.2

/-- The reads, made one after the other from a state of the reader, leave it in another. -/
inductive Trace (read : ReadFn ε σ) : σ → List (ReadRecord ε) → σ → Prop
  | nil {s : σ} : Trace read s [] s
  | cons {s s₁ s' : σ} {buf : Nat} {answer : ReadResult ε} {records : List (ReadRecord ε)}
      (hread : read buf s = (answer, s₁)) (hrest : Trace read s₁ records s') :
      Trace read s (⟨buf, answer⟩ :: records) s'

theorem Script.run_trace {read : ReadFn ε σ} {script : Script ε ρ} {s s' : σ} {result : ρ}
    {records : List (ReadRecord ε)} (h : script.run read s = (result, records, s')) :
    Trace read s records s' := by
  induction script generalizing s result records with
  | finish _ =>
      cases h
      exact .nil
  | read buf next ih =>
      cases h
      exact .cons rfl (ih _ rfl)

def Honest (read : ReadFn ε σ) : Prop := ∀ buf s, (read buf s).1.bytes.length ≤ buf

theorem Stream.honest (stream : Stream ε) : Honest stream.read := by
  intro buf history
  unfold Stream.read
  cases stream.answer history buf with
  | error e => exact Nat.zero_le _
  | ok content => exact List.length_take_le _ _

theorem boundedRead_eq {inner : ReadFn ε σ} {buf remain : Nat} {s : σ} {answer : ReadResult ε}
    {t : Nat × σ} (hinner : Honest inner)
    (h : boundedRead inner buf (remain, s) = (answer, t)) :
    (remain = 0 ∧ answer = .ok [] ∧ t = (remain, s)) ∨
      (0 < remain ∧ inner (min buf remain) s = (answer, t.2) ∧
        answer.bytes.length ≤ remain ∧ t.1 = remain - answer.bytes.length) := by
  simp only [boundedRead] at h
  by_cases hzero : remain = 0
  · rw [if_pos hzero] at h
    cases h
    exact Or.inl ⟨hzero, rfl, rfl⟩
  · have hle := Nat.le_trans (hinner (min buf remain) s) (Nat.min_le_right buf remain)
    rcases hread : inner (min buf remain) s with ⟨answer₁, s₁⟩
    rw [if_neg hzero, hread] at h
    rw [hread] at hle
    refine Or.inr ⟨Nat.pos_of_ne_zero hzero, ?_⟩
    cases answer₁ with
    | error e =>
        cases h
        exact ⟨rfl, hle, rfl⟩
    | ok bytes =>
        cases h
        exact ⟨rfl, hle, rfl⟩

theorem Trace.bounded {inner : ReadFn ε σ} (hinner : Honest inner) {remain remain' : Nat}
    {s s' : σ} {records : List (ReadRecord ε)}
    (h : Trace (boundedRead inner) (remain, s) records (remain', s')) :
    ∃ reads, Trace inner s reads s' ∧ delivered reads = delivered records ∧
      (delivered reads).length + remain' = remain ∧
      ∀ read ∈ reads, ∃ record ∈ records,
        record.result = read.result ∧ (0 < record.buf → 0 < read.buf) := by
  generalize ht : (remain, s) = t at h
  generalize ht' : (remain', s') = t' at h
  induction h generalizing remain s with
  | nil =>
      cases ht
      cases ht'
      exact ⟨[], .nil, rfl, Nat.zero_add _, by simp⟩
  | @cons t t₁ t' buf answer records hread _ ih =>
      subst ht
      obtain ⟨remain₁, s₁⟩ := t₁
      obtain ⟨reads, htrace, hdelivered, hcount, hsame⟩ := ih rfl ht'
      rcases boundedRead_eq hinner hread with ⟨-, rfl, hstay⟩ | ⟨hpos, hbelow, hle, hleft⟩
      · cases hstay
        exact ⟨reads, htrace, hdelivered, hcount, fun read hmem =>
          (hsame read hmem).imp fun _ hrecord => hrecord.imp_left (List.mem_cons_of_mem _)⟩
      · refine ⟨⟨min buf remain, answer⟩ :: reads, .cons hbelow htrace, ?_, ?_, fun read hmem => ?_⟩
        · rw [delivered_cons, delivered_cons, hdelivered]
        · rw [delivered_cons, List.length_append]
          dsimp only at hleft ⊢
          omega
        · rcases List.mem_cons.mp hmem with rfl | hmem
          · exact ⟨_, List.mem_cons_self, rfl, fun hbuf => Nat.lt_min.mpr ⟨hbuf, hpos⟩⟩
          · exact (hsame read hmem).imp fun _ hrecord => hrecord.imp_left (List.mem_cons_of_mem _)

theorem Trace.append {read : ReadFn ε σ} {s s₁ s' : σ} {records records' : List (ReadRecord ε)}
    (h : Trace read s records s₁) (h' : Trace read s₁ records' s') :
    Trace read s (records ++ records') s' := by
  induction h with
  | nil => exact h'
  | cons hread _ ih => exact .cons hread (ih h')

theorem Script.readToEnd_run {read : ReadFn ε σ} {retry : ε → Bool} {bufs : Nat → Nat}
    {onError : ε → ρ} {onEnd : List UInt8 → ρ} {outOfRounds : ρ} {rounds : Nat}
    {data : List UInt8} {s s' : σ} {result : ρ} {records : List (ReadRecord ε)}
    (h : (readToEnd retry bufs onError onEnd outOfRounds rounds data).run read s =
      (result, records, s')) :
    (ReadToEnd records ∧ result = onEnd (data ++ delivered records) ∧
        ∀ record ∈ records, ∀ e, record.result = .error e → retry e = true) ∨
      (∃ e, result = onError e) ∨ result = outOfRounds := by
  induction rounds generalizing data s result records with
  | zero =>
      cases h
      exact Or.inr (Or.inr rfl)
  | succ rounds ih =>
      rw [readToEnd, run] at h
      rcases hread : read (bufs rounds + 1) s with ⟨answer, s₁⟩
      rw [hread] at h
      match answer, h with
      | .ok [], h =>
          cases h
          refine Or.inl ⟨⟨Nat.succ_pos _, rfl⟩, ?_, ?_⟩
          · rw [delivered_cons_ok, delivered_nil, List.append_nil, List.append_nil]
          · simp
      | .ok (b :: bytes), h =>
          rcases hrun : (readToEnd retry bufs onError onEnd outOfRounds rounds
            (data ++ b :: bytes)).run read s₁ with ⟨result₁, records₁, s₂⟩
          dsimp only at h
          rw [hrun] at h
          cases h
          refine (ih hrun).imp_left fun ⟨hend, hresult, herrors⟩ => ⟨?_, ?_, ?_⟩
          · exact hend.cons (Nat.succ_pos _) (by simp)
          · rw [hresult, delivered_cons_ok, List.append_assoc]
          · simpa using herrors
      | .error e, h =>
          dsimp only at h
          split at h
          · rename_i hretry
            rcases hrun : (readToEnd retry bufs onError onEnd outOfRounds rounds data).run read s₁
              with ⟨result₁, records₁, s₂⟩
            rw [hrun] at h
            cases h
            refine (ih hrun).imp_left fun ⟨hend, hresult, herrors⟩ => ⟨?_, hresult, ?_⟩
            · exact hend.cons (Nat.succ_pos _) (by simp)
            · simpa [hretry] using herrors
          · cases h
            exact Or.inr (Or.inl ⟨e, rfl⟩)

/-- A consumer that ends badly only after it was told of an error of some kind. -/
def Script.Relays (bad : ρ → Prop) (told : ε → Prop) : Script ε ρ → Prop
  | .finish result => ¬ bad result
  | .read _ next => ∀ answer, (∃ e, answer = .error e ∧ told e) ∨ (next answer).Relays bad told

theorem Script.Relays.run {bad : ρ → Prop} {told : ε → Prop} {read : ReadFn ε σ}
    {script : Script ε ρ} {s s' : σ} {result : ρ} {records : List (ReadRecord ε)}
    (h : script.Relays bad told) (hrun : script.run read s = (result, records, s'))
    (hbad : bad result) : ∃ record ∈ records, ∃ e, record.result = .error e ∧ told e := by
  induction script generalizing s result records with
  | finish _ =>
      cases hrun
      exact absurd hbad h
  | read buf next ih =>
      cases hrun
      rcases h (read buf s).1 with htold | hnext
      · exact ⟨_, List.mem_cons_self, htold⟩
      · obtain ⟨record, hrecord, htold⟩ := ih _ hnext rfl hbad
        exact ⟨record, List.mem_cons_of_mem _ hrecord, htold⟩

theorem Script.readToEnd_relays {bad : ρ → Prop} {told : ε → Prop} {retry : ε → Bool}
    {bufs : Nat → Nat} {onError : ε → ρ} {onEnd : List UInt8 → ρ} {outOfRounds : ρ}
    (herror : ∀ e, bad (onError e) → told e) (hend : ∀ data, ¬ bad (onEnd data))
    (hrounds : ¬ bad outOfRounds) (rounds : Nat) (data : List UInt8) :
    (readToEnd retry bufs onError onEnd outOfRounds rounds data).Relays bad told := by
  induction rounds generalizing data with
  | zero => exact hrounds
  | succ rounds ih =>
      intro answer
      match answer with
      | .ok [] => exact Or.inr (hend data)
      | .ok (byte :: bytes) => exact Or.inr (ih _)
      | .error e =>
          by_cases htold : told e
          · exact Or.inl ⟨e, rfl, htold⟩
          · refine Or.inr ?_
            dsimp only
            split
            · exact ih data
            · exact fun hbad => htold (herror e hbad)

/-- A consumer that passes on the first error it is told of, those aside that it retries. -/
def Script.PassesOn (retry : ε → Bool) (handed : ε → ρ) : Script ε ρ → Prop
  | .finish _ => True
  | .read _ next => (∀ bytes, (next (.ok bytes)).PassesOn retry handed) ∧
      ∀ e, retry e = true ∧ (next (.error e)).PassesOn retry handed ∨
        next (.error e) = .finish (handed e)

theorem Script.PassesOn.run {retry : ε → Bool} {handed : ε → ρ} {read : ReadFn ε σ}
    {script : Script ε ρ} {s s' : σ} {result : ρ} {records : List (ReadRecord ε)}
    (h : script.PassesOn retry handed) (hrun : script.run read s = (result, records, s'))
    (hsteady : ∀ record ∈ records, ∀ e, record.result = .error e → retry e = false) :
    (∀ record ∈ records, ∀ e, record.result ≠ .error e) ∨
      ∃ before buf e, records = before ++ [⟨buf, .error e⟩] ∧
        (∀ record ∈ before, ∀ e, record.result ≠ .error e) ∧ result = handed e := by
  induction script generalizing s s' result records with
  | finish _ =>
      cases hrun
      exact .inl (List.forall_mem_nil _)
  | read buf next ih =>
      rcases hread : read buf s with ⟨answer, s₁⟩
      rcases hnext : (next answer).run read s₁ with ⟨result₁, records₁, s₂⟩
      simp only [Script.run, hread, hnext] at hrun
      cases hrun
      obtain ⟨hfirst, hrest⟩ := List.forall_mem_cons.mp hsteady
      cases answer with
      | ok bytes =>
          rcases ih _ (h.1 bytes) hnext hrest with hall | ⟨before, buf', e, rfl, hall, hresult⟩
          · exact .inl (List.forall_mem_cons.mpr ⟨by simp, hall⟩)
          · exact .inr ⟨⟨buf, .ok bytes⟩ :: before, buf', e, rfl,
              List.forall_mem_cons.mpr ⟨by simp, hall⟩, hresult⟩
      | error e =>
          rcases h.2 e with ⟨hretry, -⟩ | hfinish
          · exact absurd (hretry.symm.trans (hfirst e rfl)) (by decide)
          · rw [hfinish] at hnext
            cases hnext
            exact .inr ⟨[], buf, e, rfl, List.forall_mem_nil _, rfl⟩

theorem Script.readToEnd_passesOn {retry : ε → Bool} {bufs : Nat → Nat} {onError : ε → ρ}
    {onEnd : List UInt8 → ρ} {outOfRounds : ρ} (rounds : Nat) (data : List UInt8) :
    (readToEnd retry bufs onError onEnd outOfRounds rounds data).PassesOn retry onError := by
  induction rounds generalizing data with
  | zero => exact trivial
  | succ rounds ih =>
      refine ⟨fun bytes => ?_, fun e => ?_⟩
      · cases bytes with
        | nil => exact trivial
        | cons byte bytes => exact ih _
      · by_cases hretry : retry e = true
        · refine .inl ⟨hretry, ?_⟩
          dsimp only
          rw [if_pos hretry]
          exact ih data
        · exact .inr (if_neg hretry)

end Sevenz.Lib
