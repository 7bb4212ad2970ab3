import Sevenz.Reader.Codecs

/-!
# What an entry's reader delivers

The readers around a block's stream count what they pass on and hash it.  Neither asks
whether the stream had all it should have when it ended.
-/

namespace Sevenz

open Lib

variable {τ : Type} {inner : ReadFn IoError τ}

def Unbroken (reads : List (ReadRecord IoError)) : Prop :=
  ∀ record ∈ reads, record.result ≠ .ok []

def Unrefused (records : List (ReadRecord IoError)) : Prop :=
  ∀ record ∈ records, record.result ≠ .error .checksumVerificationFailed

instance (reads : List (ReadRecord IoError)) : Decidable (Unbroken reads) :=
  inferInstanceAs (Decidable (∀ record ∈ reads, record.result ≠ .ok []))

instance (records : List (ReadRecord IoError)) : Decidable (Unrefused records) :=
  inferInstanceAs (Decidable (∀ record ∈ records,
    record.result ≠ .error .checksumVerificationFailed))

theorem unbroken_cons {record : ReadRecord IoError} {reads : List (ReadRecord IoError)} :
    Unbroken (record :: reads) ↔ record.result ≠ .ok [] ∧ Unbroken reads :=
  List.forall_mem_cons

def ArchiveEntry.Verified (crc32 : List UInt8 → UInt32) (file : ArchiveEntry)
    (data : List UInt8) : Prop :=
  data.length = file.size.toNat ∧ (crc32 data).toUInt64 = file.crc

instance (crc32 : List UInt8 → UInt32) (file : ArchiveEntry) (data : List UInt8) :
    Decidable (file.Verified crc32 data) :=
  inferInstanceAs (Decidable (_ ∧ _))

theorem faultRead_eq {buf : Nat} {fs fs' : FaultState τ} {answer : ReadResult IoError}
    (h : faultRead inner buf fs = (answer, fs')) : fs'.reads = fs.reads ++ [⟨buf, answer⟩] := by
  cases h
  rfl

theorem faultRead_honest (h : Honest inner) : Honest (faultRead inner) :=
  fun buf fs => h buf fs.inner

structure CrcProgress (crc32 : List UInt8 → UInt32) (expected : UInt64) (size : Nat)
    (data : List UInt8) (st : CrcState) (remain : Nat) : Prop where
  counted : data.length + remain = size
  expectedValue : st.expectedValue = expected
  remaining : st.remaining = remain
  digest : 0 < remain → st.digest = data
  verified : remain = 0 → (crc32 data).toUInt64 = expected

theorem crcRead_eq {crc32 : List UInt8 → UInt32} {buf : Nat} {st : CrcState} {s : τ}
    {answer : ReadResult IoError} {t : CrcState × τ}
    (h : crcRead crc32 inner buf (st, s) = (answer, t)) :
    (st.remaining ≤ 0 ∧ answer = .ok [] ∧ t = (st, s)) ∨
      (0 < st.remaining ∧ ∃ below, inner buf s = (below, t.2) ∧
        match below with
        | .error e => answer = .error e ∧ t.1 = st
        | .ok bytes => st.update crc32 bytes = (answer, t.1)) := by
  simp only [crcRead] at h
  by_cases hdone : st.remaining ≤ 0
  · rw [if_pos hdone] at h
    cases h
    exact Or.inl ⟨hdone, rfl, rfl⟩
  · rcases hread : inner buf s with ⟨below, s₁⟩
    rw [if_neg hdone, hread] at h
    refine Or.inr ⟨Int.lt_of_not_ge hdone, below, ?_⟩
    cases below with
    | error e =>
        cases h
        exact ⟨rfl, rfl, rfl⟩
    | ok bytes =>
        cases h
        exact ⟨rfl, rfl⟩

/-- The verifying reader hands on what it reads, refuses it, or has nothing left to read. -/
theorem maybeCrcRead_eq {crc32 : List UInt8 → UInt32} {buf : Nat} {check check' : Option CrcState}
    {s s' : τ} {answer : ReadResult IoError}
    (h : maybeCrcRead crc32 inner buf (check, s) = (answer, check', s')) :
    (answer = .ok [] ∧ s' = s) ∨ ∃ below, inner buf s = (below, s') ∧
      (answer = below ∨
        answer = .error .checksumVerificationFailed ∧ ∃ bytes, below = .ok bytes) := by
  cases check with
  | none =>
      cases h
      exact .inr ⟨_, rfl, .inl rfl⟩
  | some st =>
      rcases hread : crcRead crc32 inner buf (st, s) with ⟨answer₁, st₁, s₁⟩
      simp only [maybeCrcRead, hread] at h
      cases h
      rcases crcRead_eq hread with ⟨-, rfl, hstay⟩ | ⟨-, below, hbelow, hanswer⟩
      · cases hstay
        exact .inl ⟨rfl, rfl⟩
      · refine .inr ⟨below, hbelow, ?_⟩
        cases below with
        | error e => exact .inl hanswer.1
        | ok bytes =>
            unfold CrcState.update at hanswer
            dsimp only at hanswer
            split at hanswer
            · split at hanswer
              · cases hanswer
                exact .inr ⟨rfl, bytes, rfl⟩
              · cases hanswer
                exact .inl rfl
            · cases hanswer
              exact .inl rfl

theorem CrcProgress.update {crc32 : List UInt8 → UInt32} {expected : UInt64} {size remain : Nat}
    {data bytes : List UInt8} {st st' : CrcState} {answer : ReadResult IoError}
    (h : CrcProgress crc32 expected size data st remain) (hpos : 0 < remain)
    (hle : bytes.length ≤ remain) (hupdate : st.update crc32 bytes = (answer, st')) :
    answer = .error .checksumVerificationFailed ∨
      (answer = .ok bytes ∧
        CrcProgress crc32 expected size (data ++ bytes) st' (remain - bytes.length)) := by
  have hcounted := h.counted
  have hsize : (data ++ bytes).length + (remain - bytes.length) = size := by
    rw [List.length_append]
    omega
  unfold CrcState.update at hupdate
  simp only [h.remaining, h.digest hpos, h.expectedValue] at hupdate
  split at hupdate
  · rename_i hdone
    split at hupdate
    · cases hupdate
      exact Or.inl rfl
    · rename_i heq
      cases hupdate
      refine Or.inr ⟨rfl, hsize, rfl, ?_, fun hmore => ?_, fun _ => not_not.mp heq⟩
      · change (remain : Int) - bytes.length = _
        omega
      · omega
  · rename_i hmore
    cases hupdate
    refine Or.inr ⟨rfl, hsize, rfl, ?_, fun _ => rfl, fun hdone => ?_⟩
    · change (remain : Int) - bytes.length = _
      omega
    · omega

theorem CrcState.update_bytes_le (crc32 : List UInt8 → UInt32) (st : CrcState)
    (bytes : List UInt8) : (st.update crc32 bytes).1.bytes.length ≤ bytes.length := by
  unfold CrcState.update
  dsimp only
  split
  · split
    · exact Nat.zero_le _
    · exact Nat.le_refl _
  · exact Nat.le_refl _

theorem crcRead_honest {crc32 : List UInt8 → UInt32} (h : Honest inner) :
    Honest (crcRead crc32 inner) := by
  rintro buf ⟨st, s⟩
  rcases hcrc : crcRead crc32 inner buf (st, s) with ⟨answer, t⟩
  rcases crcRead_eq hcrc with ⟨-, rfl, -⟩ | ⟨-, below, hread, hbelow⟩
  · exact Nat.zero_le _
  · have hle := h buf s
    rw [hread] at hle
    cases below with
    | error e =>
        rw [hbelow.1]
        exact Nat.zero_le _
    | ok bytes =>
        have := st.update_bytes_le crc32 bytes
        rw [hbelow] at this
        exact Nat.le_trans this hle

theorem maybeCrcRead_honest {crc32 : List UInt8 → UInt32} (h : Honest inner) :
    Honest (maybeCrcRead crc32 inner) := by
  rintro buf ⟨_ | st, s⟩
  · exact h buf s
  · exact crcRead_honest h buf (st, s)

/-- A bounded reader that is read to the end passes on what its stream delivers.  Nothing
remains exactly where the stream did not end first. -/
theorem boundedRead_trace (hinner : Honest inner) {remain remain' : Nat} {fs fs' : FaultState τ}
    {records : List (ReadRecord IoError)}
    (h : Trace (boundedRead (faultRead inner)) (remain, fs) records (remain', fs'))
    (hend : ReadToEnd records) :
    ∃ reads, fs'.reads = fs.reads ++ reads ∧ delivered reads = delivered records ∧
      (delivered records).length + remain' = remain ∧ (remain' = 0 ↔ Unbroken reads) := by
  generalize hs : (remain, fs) = s at h
  generalize hs' : (remain', fs') = s' at h
  induction h generalizing remain fs with
  | nil => exact hend.elim
  | @cons s s₁ s' buf answer records hread hrest ih =>
      subst hs
      obtain ⟨remain₁, fs₁⟩ := s₁
      rcases boundedRead_eq (faultRead_honest hinner) hread with
        ⟨hzero, rfl, hsame⟩ | ⟨hpos, hfault, hle, rfl⟩
      · obtain rfl := hend.eq_nil
        cases hrest
        cases hs'
        cases hsame
        exact ⟨[], by simp, rfl, by simp, by simp [hzero, Unbroken]⟩
      · have hreads := faultRead_eq hfault
        by_cases hended : answer = .ok []
        · subst hended
          obtain rfl := hend.eq_nil
          cases hrest
          cases hs'
          refine ⟨_, hreads, rfl, by simp [ReadResult.bytes],
            iff_of_false (by simpa [ReadResult.bytes] using hpos.ne') ?_⟩
          exact fun hunbroken => hunbroken _ List.mem_cons_self rfl
        · obtain ⟨reads, happend, hdelivered, hcount, hiff⟩ := ih (hend.tail hended) rfl hs'
          refine ⟨⟨min buf remain, answer⟩ :: reads, ?_, ?_, ?_, ?_⟩
          · rw [happend, hreads, List.append_assoc]
            rfl
          · rw [delivered_cons, delivered_cons, hdelivered]
          · rw [delivered_cons, List.length_append]
            dsimp only
            omega
          · rw [hiff, unbroken_cons]
            exact (and_iff_right hended).symm

/-- The same of a reader that verifies the checksum as well, where it has not refused any of
the data: nothing remains exactly where the stream did not end first, and then the data has
the checksum. -/
theorem crcRead_trace {crc32 : List UInt8 → UInt32} {expected : UInt64} {size : Nat}
    (hinner : Honest inner) {data : List UInt8} {st st' : CrcState} {remain remain' : Nat}
    {fs fs' : FaultState τ} {records : List (ReadRecord IoError)}
    (h : Trace (crcRead crc32 (boundedRead (faultRead inner))) (st, remain, fs) records
      (st', remain', fs'))
    (hprogress : CrcProgress crc32 expected size data st remain) (hend : ReadToEnd records)
    (hunrefused : Unrefused records) :
    CrcProgress crc32 expected size (data ++ delivered records) st' remain' ∧
      ∃ reads, fs'.reads = fs.reads ++ reads ∧ (remain' = 0 ↔ Unbroken reads) := by
  generalize hs : (st, remain, fs) = s at h
  generalize hs' : (st', remain', fs') = s' at h
  induction h generalizing data st remain fs with
  | nil => exact hend.elim
  | @cons s s₁ s' buf answer records hread hrest ih =>
      subst hs
      obtain ⟨st₁, remain₁, fs₁⟩ := s₁
      have hremaining := hprogress.remaining
      obtain ⟨hrefused, hunrefused⟩ := List.forall_mem_cons.mp hunrefused
      rcases crcRead_eq hread with ⟨hdone, rfl, hsame⟩ | ⟨hmore, below, hbounded, hbelow⟩
      · have hzero : remain = 0 := by omega
        obtain rfl := hend.eq_nil
        cases hrest
        cases hs'
        cases hsame
        exact ⟨by simpa using hprogress, [], by simp, by simp [hzero, Unbroken]⟩
      · rcases boundedRead_eq (faultRead_honest hinner) hbounded with
          ⟨hzero, -, -⟩ | ⟨hpos, hfault, hle, rfl⟩
        · omega
        have hreads := faultRead_eq hfault
        -- what comes from below is passed on, since it was not refused
        obtain ⟨rfl, hnext⟩ : answer = below ∧ CrcProgress crc32 expected size
            (data ++ answer.bytes) st₁ (remain - below.bytes.length) := by
          cases below with
          | error e =>
              obtain ⟨rfl, rfl⟩ := hbelow
              exact ⟨rfl, by simpa [ReadResult.bytes] using hprogress⟩
          | ok bytes =>
              rcases hprogress.update hpos hle hbelow with rfl | ⟨rfl, hnext⟩
              · exact absurd rfl hrefused
              · exact ⟨rfl, hnext⟩
        by_cases hended : answer = .ok []
        · subst hended
          obtain rfl := hend.eq_nil
          cases hrest
          cases hs'
          refine ⟨hnext, _, hreads, iff_of_false (by simpa [ReadResult.bytes] using hpos.ne') ?_⟩
          exact fun hunbroken => hunbroken _ List.mem_cons_self rfl
        · obtain ⟨hlast, reads, happend, hiff⟩ :=
            ih hnext (hend.tail hended) hunrefused rfl hs'
          refine ⟨?_, ⟨min buf remain, answer⟩ :: reads, ?_, ?_⟩
          · rwa [delivered_cons, ← List.append_assoc]
          · rw [happend, hreads, List.append_assoc]
            rfl
          · rw [hiff, unbroken_cons]
            exact (and_iff_right hended).symm

/-- What makes the data of an entry the right one, apart from the checks of its reader: the
reads of the block's stream that it comes from met no end, the size is one the reader can
count down from, and the checksum of no data is right where there is none. -/
structure ArchiveEntry.Whole (crc32 : List UInt8 → UInt32) (file : ArchiveEntry)
    (reads : List (ReadRecord IoError)) : Prop where
  empty : file.size = 0 → (crc32 []).toUInt64 = file.crc
  sized : file.size.toNat < 2 ^ 63
  unbroken : Unbroken reads

theorem crcProgress_new {crc32 : List UInt8 → UInt32} {size expected : UInt64}
    (hpos : 0 < size.toNat) (hsized : size.toNat < 2 ^ 63) :
    CrcProgress crc32 expected size.toNat [] (CrcState.new size expected) size.toNat where
  counted := Nat.zero_add _
  expectedValue := rfl
  remaining := if_pos hsized
  digest _ := rfl
  verified hzero := absurd hzero hpos.ne'

theorem crcRead_spent {crc32 : List UInt8 → UInt32} {st st' : CrcState} {s s' : τ}
    {records : List (ReadRecord IoError)}
    (h : Trace (crcRead crc32 inner) (st, s) records (st', s'))
    (hspent : st.remaining ≤ 0) (hend : ReadToEnd records) :
    delivered records = [] ∧ st' = st ∧ s' = s := by
  cases h with
  | nil => exact hend.elim
  | cons hread hrest =>
      rcases crcRead_eq hread with ⟨-, rfl, rfl⟩ | ⟨hmore, -⟩
      · obtain rfl := hend.eq_nil
        cases hrest
        exact ⟨rfl, rfl, rfl⟩
      · omega

theorem crcState_new_spent {size expected : UInt64} (hlarge : ¬ size.toNat < 2 ^ 63) :
    (CrcState.new size expected).remaining ≤ 0 := by
  have hlt := size.toNat_lt
  change asI64 size ≤ 0
  rw [asI64, if_neg hlarge]
  omega

theorem trace_maybeCrcRead_some {crc32 : List UInt8 → UInt32} {st : CrcState} {s : τ}
    {t : Option CrcState × τ} {records : List (ReadRecord IoError)}
    (h : Trace (maybeCrcRead crc32 inner) (some st, s) records t) :
    ∃ st', t.1 = some st' ∧ Trace (crcRead crc32 inner) (st, s) records (st', t.2) := by
  generalize hs : (some st, s) = s₀ at h
  induction h generalizing st s with
  | nil =>
      subst hs
      exact ⟨st, rfl, .nil⟩
  | cons hread _ ih =>
      subst hs
      cases hread
      obtain ⟨st', hst', htrace⟩ := ih rfl
      exact ⟨st', hst', .cons rfl htrace⟩

theorem trace_maybeCrcRead_none {crc32 : List UInt8 → UInt32} {s : τ} {t : Option CrcState × τ}
    {records : List (ReadRecord IoError)}
    (h : Trace (maybeCrcRead crc32 inner) (none, s) records t) :
    t.1 = none ∧ Trace inner s records t.2 := by
  generalize hs : ((none : Option CrcState), s) = s₀ at h
  induction h generalizing s with
  | nil =>
      subst hs
      exact ⟨rfl, .nil⟩
  | cons hread _ ih =>
      subst hs
      cases hread
      obtain ⟨hnone, htrace⟩ := ih rfl
      exact ⟨hnone, .cons rfl htrace⟩

/-- What an entry's verifying reader has delivered in the end is the entry's data exactly
where the stream below was whole. -/
theorem verifying_trace {crc32 : List UInt8 → UInt32} (hinner : Honest inner)
    {file : ArchiveEntry} {check' : Option CrcState} {remain' : Nat} {fs fs' : FaultState τ}
    {records : List (ReadRecord IoError)}
    (h : Trace (maybeCrcRead crc32 (boundedRead (faultRead inner)))
      (some (CrcState.new file.size file.crc), file.size.toNat, fs) records (check', remain', fs'))
    (hend : ReadToEnd records) (hunrefused : Unrefused records) :
    ∃ reads, fs'.reads = fs.reads ++ reads ∧
      (file.Verified crc32 (delivered records) ↔ file.Whole crc32 reads) := by
  obtain ⟨st', -, htrace⟩ := trace_maybeCrcRead_some h
  rcases Nat.eq_zero_or_pos file.size.toNat with hzero | hpos
  · have hsize : file.size = 0 := UInt64.toNat_inj.mp hzero
    have hspent : (CrcState.new file.size file.crc).remaining ≤ 0 := by
      rw [hsize]
      exact Int.le_refl 0
    obtain ⟨hnone, -, hsame⟩ := crcRead_spent htrace hspent hend
    obtain ⟨-, rfl⟩ := Prod.mk.inj hsame
    refine ⟨[], (List.append_nil _).symm, ?_⟩
    rw [ArchiveEntry.Verified, hnone, hzero]
    constructor
    · exact fun hverified => ⟨fun _ => hverified.2, by omega, by simp [Unbroken]⟩
    · exact fun hwhole => ⟨rfl, hwhole.empty hsize⟩
  have hne : file.size ≠ 0 := fun hsize => by
    rw [hsize] at hpos
    exact Nat.lt_irrefl 0 hpos
  rcases Nat.lt_or_ge file.size.toNat (2 ^ 63) with hsized | hlarge
  · obtain ⟨hprogress, reads, happend, hiff⟩ :=
      crcRead_trace hinner htrace (crcProgress_new hpos hsized) hend hunrefused
    have hcounted := hprogress.counted
    rw [List.nil_append] at hcounted
    refine ⟨reads, happend, fun hverified => ⟨fun hsize => absurd hsize hne, hsized, ?_⟩,
      fun hwhole => ?_⟩
    · have hlen := hverified.1
      exact hiff.mp (by omega)
    · have hdone := hiff.mpr hwhole.unbroken
      exact ⟨by omega, hprogress.verified hdone⟩
  · obtain ⟨hnone, -, hsame⟩ :=
      crcRead_spent htrace (crcState_new_spent (Nat.not_lt.mpr hlarge)) hend
    obtain ⟨-, rfl⟩ := Prod.mk.inj hsame
    refine ⟨[], (List.append_nil _).symm, iff_of_false (fun hverified => ?_) fun hwhole => ?_⟩
    · rw [ArchiveEntry.Verified, hnone] at hverified
      exact hpos.ne hverified.1
    · exact absurd hwhole.sized (Nat.not_lt.mpr hlarge)

/-- A verifying reader holds the expected checksum exactly when nothing remains to be read. -/
structure CrcState.Settled (expected : UInt64) (st : CrcState) : Prop where
  expectedValue : st.expectedValue = expected
  pending : 0 < st.remaining → st.report = none
  reported : st.remaining ≤ 0 → ∃ crc, st.report = some crc ∧ crc.toUInt64 = expected

theorem CrcState.Settled.update {crc32 : List UInt8 → UInt32} {expected : UInt64}
    {bytes : List UInt8} {st st' : CrcState} {answer : ReadResult IoError}
    (h : st.Settled expected) (hmore : 0 < st.remaining)
    (hupdate : st.update crc32 bytes = (answer, st')) :
    answer = .error .checksumVerificationFailed ∨ st'.Settled expected := by
  unfold CrcState.update at hupdate
  dsimp only at hupdate
  split at hupdate
  · rename_i hdone
    split at hupdate
    · cases hupdate
      exact Or.inl rfl
    · rename_i heq
      cases hupdate
      refine Or.inr ⟨h.expectedValue, fun hlt => absurd hdone (Int.not_le.mpr hlt), fun _ => ?_⟩
      exact ⟨_, rfl, (not_not.mp heq).trans h.expectedValue⟩
  · rename_i hleft
    cases hupdate
    exact Or.inr ⟨h.expectedValue, fun _ => h.pending hmore, fun hdone => absurd hdone hleft⟩

theorem CrcState.Settled.trace {crc32 : List UInt8 → UInt32} {expected : UInt64}
    {st st' : CrcState} {s s' : τ} {records : List (ReadRecord IoError)} (h : st.Settled expected)
    (htrace : Trace (crcRead crc32 inner) (st, s) records (st', s'))
    (hunrefused : Unrefused records) : st'.Settled expected := by
  generalize hs : (st, s) = s₀ at htrace
  generalize hs' : (st', s') = s₁ at htrace
  induction htrace generalizing st s with
  | nil =>
      cases hs
      cases hs'
      exact h
  | cons hread _ ih =>
      subst hs
      obtain ⟨hrefused, hunrefused⟩ := List.forall_mem_cons.mp hunrefused
      refine ih ?_ hunrefused rfl hs'
      rcases crcRead_eq hread with ⟨-, -, hsame⟩ | ⟨hmore, below, -, hbelow⟩
      · rw [hsame]
        exact h
      · cases below with
        | error e =>
            rw [hbelow.2]
            exact h
        | ok bytes => exact (h.update hmore hbelow).resolve_left hrefused

/-- Over a whole stream a verifying reader leaves the checksum of the entry, where it had a
size to count down from. -/
theorem verifying_reports {crc32 : List UInt8 → UInt32} (hinner : Honest inner)
    {file : ArchiveEntry} (hpos : 0 < file.size.toNat) {check' : Option CrcState} {remain' : Nat}
    {fs fs' : FaultState τ} {records : List (ReadRecord IoError)}
    (h : Trace (maybeCrcRead crc32 (boundedRead (faultRead inner)))
      (some (CrcState.new file.size file.crc), file.size.toNat, fs) records (check', remain', fs'))
    (hend : ReadToEnd records) (hunrefused : Unrefused records) :
    ∃ reads, fs'.reads = fs.reads ++ reads ∧
      (Unbroken reads → file.size.toNat < 2 ^ 63 →
        ∃ crc, check'.bind CrcState.report = some crc ∧ crc.toUInt64 = file.crc) ∧
      (¬ file.size.toNat < 2 ^ 63 → check'.bind CrcState.report = none) := by
  obtain ⟨st', rfl, htrace⟩ := trace_maybeCrcRead_some h
  by_cases hsized : file.size.toNat < 2 ^ 63
  · obtain ⟨hprogress, reads, happend, hiff⟩ :=
      crcRead_trace hinner htrace (crcProgress_new hpos hsized) hend hunrefused
    have hnew : (CrcState.new file.size file.crc).Settled file.crc :=
      ⟨rfl, fun _ => rfl, fun hdone => by
        change asI64 file.size ≤ 0 at hdone
        rw [asI64, if_pos hsized] at hdone
        omega⟩
    refine ⟨reads, happend, fun hunbroken _ => ?_, fun hnot => absurd hsized hnot⟩
    apply (hnew.trace htrace hunrefused).reported
    rw [hprogress.remaining, hiff.mpr hunbroken]
    exact Int.le_refl 0
  · obtain ⟨-, rfl, hsame⟩ := crcRead_spent htrace (crcState_new_spent hsized) hend
    obtain ⟨-, rfl⟩ := Prod.mk.inj hsame
    exact ⟨[], (List.append_nil _).symm, fun _ hlt => absurd hlt hsized, fun _ => rfl⟩

theorem trace_faultRead {fs fs' : FaultState τ} {records : List (ReadRecord IoError)}
    (h : Trace (faultRead inner) fs records fs') :
    fs'.reads = fs.reads ++ records ∧ Trace inner fs.inner records fs'.inner := by
  induction h with
  | nil => exact ⟨(List.append_nil _).symm, .nil⟩
  | cons hread _ ih =>
      cases hread
      obtain ⟨happend, htrace⟩ := ih
      exact ⟨by rw [happend, List.append_assoc]; rfl, .cons rfl htrace⟩

theorem trace_crcRead {crc32 : List UInt8 → UInt32} {st st' : CrcState} {s s' : τ}
    {records : List (ReadRecord IoError)}
    (h : Trace (crcRead crc32 inner) (st, s) records (st', s')) :
    ∃ reads, Trace inner s reads s' ∧
      ∀ read ∈ reads, ∀ e, read.result = .error e →
        ∃ record ∈ records, record.result = .error e := by
  generalize ht : (st, s) = t at h
  generalize ht' : (st', s') = t' at h
  induction h generalizing st s with
  | nil =>
      cases ht
      cases ht'
      exact ⟨[], .nil, by simp⟩
  | @cons t t₁ t' buf answer records hread _ ih =>
      subst ht
      obtain ⟨st₁, s₁⟩ := t₁
      obtain ⟨reads, htrace, hsame⟩ := ih rfl ht'
      rcases crcRead_eq hread with ⟨-, -, hstay⟩ | ⟨-, below, hbelow, hanswer⟩
      · cases hstay
        exact ⟨reads, htrace, fun read hmem e he =>
          (hsame read hmem e he).imp fun _ hrecord => hrecord.imp_left (List.mem_cons_of_mem _)⟩
      · refine ⟨⟨buf, below⟩ :: reads, .cons hbelow htrace, fun read hmem e he => ?_⟩
        rcases List.mem_cons.mp hmem with rfl | hmem
        · obtain rfl : below = .error e := he
          exact ⟨_, List.mem_cons_self, hanswer.1⟩
        · exact (hsame read hmem e he).imp fun _ hrecord =>
            hrecord.imp_left (List.mem_cons_of_mem _)

theorem trace_maybeCrcRead {crc32 : List UInt8 → UInt32} {check check' : Option CrcState}
    {s s' : τ} {records : List (ReadRecord IoError)}
    (h : Trace (maybeCrcRead crc32 inner) (check, s) records (check', s')) :
    ∃ reads, Trace inner s reads s' ∧
      ∀ read ∈ reads, ∀ e, read.result = .error e →
        ∃ record ∈ records, record.result = .error e := by
  cases check with
  | none => exact ⟨records, (trace_maybeCrcRead_none h).2, fun read hmem e he => ⟨read, hmem, he⟩⟩
  | some st =>
      obtain ⟨st', -, htrace⟩ := trace_maybeCrcRead_some h
      exact trace_crcRead htrace

theorem trace_entryRead {crc32 : List UInt8 → UInt32} (hinner : Honest inner)
    {check check' : Option CrcState} {remain remain' : Nat} {fs fs' : FaultState τ}
    {records : List (ReadRecord IoError)}
    (h : Trace (maybeCrcRead crc32 (boundedRead (faultRead inner))) (check, remain, fs) records
      (check', remain', fs')) :
    ∃ reads, fs'.reads = fs.reads ++ reads ∧ Trace inner fs.inner reads fs'.inner ∧
      (delivered reads).length + remain' = remain ∧
      ∀ read ∈ reads, ∀ e, read.result = .error e →
        ∃ record ∈ records, record.result = .error e := by
  obtain ⟨bounded, hbounded, herrors⟩ := trace_maybeCrcRead h
  obtain ⟨reads, hreads, -, hcount, hsame⟩ := hbounded.bounded (faultRead_honest hinner)
  obtain ⟨happend, htrace⟩ := trace_faultRead hreads
  refine ⟨reads, happend, htrace, hcount, fun read hmem e he => ?_⟩
  obtain ⟨record, hrecord, heq, -⟩ := hsame read hmem
  exact herrors record hrecord e (heq.trans he)

theorem crcRead_remaining {crc32 : List UInt8 → UInt32} {st st' : CrcState} {s s' : τ}
    {records : List (ReadRecord IoError)}
    (h : Trace (crcRead crc32 inner) (st, s) records (st', s')) (hunrefused : Unrefused records) :
    st'.remaining = st.remaining - (delivered records).length := by
  generalize ht : (st, s) = t at h
  generalize ht' : (st', s') = t' at h
  induction h generalizing st s with
  | nil =>
      cases ht
      cases ht'
      simp
  | @cons t t₁ t' buf answer records hread _ ih =>
      subst ht
      obtain ⟨st₁, s₁⟩ := t₁
      obtain ⟨hrefused, hunrefused⟩ := List.forall_mem_cons.mp hunrefused
      rw [ih hunrefused rfl ht', delivered_cons, List.length_append]
      rcases crcRead_eq hread with ⟨-, rfl, hstay⟩ | ⟨-, below, -, hanswer⟩
      · cases hstay
        simp [ReadResult.bytes]
      · cases below with
        | error e =>
            obtain ⟨rfl, hsame⟩ := hanswer
            dsimp only at hsame
            simp [hsame, ReadResult.bytes]
        | ok bytes =>
            unfold CrcState.update at hanswer
            dsimp only at hanswer hrefused
            split at hanswer
            · split at hanswer
              · cases hanswer
                exact absurd rfl hrefused
              · cases hanswer
                simp [ReadResult.bytes, Int.sub_sub]
            · cases hanswer
              simp [ReadResult.bytes, Int.sub_sub]

theorem crcRead_delivered {crc32 : List UInt8 → UInt32} {st st' : CrcState} {s s' : τ}
    {records : List (ReadRecord IoError)}
    (h : Trace (crcRead crc32 inner) (st, s) records (st', s')) (hunrefused : Unrefused records) :
    ∃ reads, Trace inner s reads s' ∧ delivered reads = delivered records ∧
      ∀ read ∈ reads, read ∈ records := by
  generalize ht : (st, s) = t at h
  generalize ht' : (st', s') = t' at h
  induction h generalizing st s with
  | nil =>
      cases ht
      cases ht'
      exact ⟨[], .nil, rfl, List.forall_mem_nil _⟩
  | @cons t t₁ t' buf answer records hread _ ih =>
      subst ht
      obtain ⟨st₁, s₁⟩ := t₁
      obtain ⟨hrefused, hunrefused⟩ := List.forall_mem_cons.mp hunrefused
      obtain ⟨reads, htrace, hdelivered, hsame⟩ := ih hunrefused rfl ht'
      have hlater : ∀ read ∈ reads, read ∈ ⟨buf, answer⟩ :: records := fun read hmem =>
        List.mem_cons_of_mem _ (hsame read hmem)
      rcases crcRead_eq hread with ⟨-, rfl, hstay⟩ | ⟨-, below, hbelow, hanswer⟩
      · cases hstay
        exact ⟨reads, htrace, hdelivered, hlater⟩
      · obtain rfl : answer = below := by
          cases below with
          | error e => exact hanswer.1
          | ok bytes =>
              unfold CrcState.update at hanswer
              dsimp only at hanswer hrefused
              split at hanswer
              · split at hanswer
                · exact absurd (Prod.mk.inj hanswer).1.symm hrefused
                · exact (Prod.mk.inj hanswer).1.symm
              · exact (Prod.mk.inj hanswer).1.symm
        refine ⟨⟨buf, answer⟩ :: reads, .cons hbelow htrace, ?_, ?_⟩
        · rw [delivered_cons, delivered_cons, hdelivered]
        · exact List.forall_mem_cons.mpr ⟨List.mem_cons_self, hlater⟩

theorem maybeCrcRead_delivered {crc32 : List UInt8 → UInt32} {check check' : Option CrcState}
    {s s' : τ} {records : List (ReadRecord IoError)}
    (h : Trace (maybeCrcRead crc32 inner) (check, s) records (check', s'))
    (hunrefused : Unrefused records) :
    ∃ reads, Trace inner s reads s' ∧ delivered reads = delivered records ∧
      ∀ read ∈ reads, read ∈ records := by
  cases check with
  | none => exact ⟨records, (trace_maybeCrcRead_none h).2, rfl, fun _ hmem => hmem⟩
  | some st =>
      obtain ⟨st', -, htrace⟩ := trace_maybeCrcRead_some h
      exact crcRead_delivered htrace hunrefused

theorem entryRead_delivered {crc32 : List UInt8 → UInt32} (hinner : Honest inner)
    {check check' : Option CrcState} {remain remain' : Nat} {fs fs' : FaultState τ}
    {records : List (ReadRecord IoError)}
    (h : Trace (maybeCrcRead crc32 (boundedRead (faultRead inner))) (check, remain, fs) records
      (check', remain', fs'))
    (hend : ReadToEnd records) (hunrefused : Unrefused records) :
    ∃ reads, fs'.reads = fs.reads ++ reads ∧ delivered reads = delivered records ∧
      (delivered reads).length + remain' = remain ∧ ∀ read ∈ reads, 0 < read.buf := by
  obtain ⟨bounded, hbounded, hpassed, hmem⟩ := maybeCrcRead_delivered h hunrefused
  obtain ⟨reads, hreads, hdelivered, hcount, hsame⟩ :=
    hbounded.bounded (faultRead_honest hinner)
  obtain ⟨happend, -⟩ := trace_faultRead hreads
  refine ⟨reads, happend, hdelivered.trans hpassed, hcount, fun read hread => ?_⟩
  obtain ⟨record, hrecord, -, hroom⟩ := hsame read hread
  exact hroom (hend.bufs_pos record (hmem record hrecord))

/-- It hands on as many bytes as the entry has exactly where the block's stream did not end
first and the verifying reader, where there is one, can count that far. -/
theorem entryRead_whole {crc32 : List UInt8 → UInt32} (hinner : Honest inner)
    {file : ArchiveEntry} (hpos : 0 < file.size.toNat) {check check' : Option CrcState}
    (hcheck : ∀ st ∈ check, st = CrcState.new file.size file.crc) {remain' : Nat}
    {fs fs' : FaultState τ} {records : List (ReadRecord IoError)}
    (h : Trace (maybeCrcRead crc32 (boundedRead (faultRead inner)))
      (check, file.size.toNat, fs) records (check', remain', fs'))
    (hend : ReadToEnd records) (hunrefused : Unrefused records) :
    ∃ reads, fs'.reads = fs.reads ++ reads ∧
      (remain' = 0 ↔ Unbroken reads ∧ (check.isSome = true → file.size.toNat < 2 ^ 63)) := by
  cases check with
  | none =>
      obtain ⟨-, hbounded⟩ := trace_maybeCrcRead_none h
      obtain ⟨reads, happend, -, -, hiff⟩ := boundedRead_trace hinner hbounded hend
      exact ⟨reads, happend, hiff.trans (and_iff_left fun hsome => Bool.noConfusion hsome).symm⟩
  | some st =>
      obtain rfl := hcheck st rfl
      obtain ⟨st', -, htrace⟩ := trace_maybeCrcRead_some h
      by_cases hsized : file.size.toNat < 2 ^ 63
      · obtain ⟨-, reads, happend, hiff⟩ :=
          crcRead_trace hinner htrace (crcProgress_new hpos hsized) hend hunrefused
        exact ⟨reads, happend, hiff.trans (and_iff_left fun _ => hsized).symm⟩
      · obtain ⟨-, -, hsame⟩ := crcRead_spent htrace (crcState_new_spent hsized) hend
        obtain ⟨rfl, rfl⟩ := Prod.mk.inj hsame
        refine ⟨[], (List.append_nil _).symm, iff_of_false hpos.ne' ?_⟩
        exact fun hwhole => hsized (hwhole.2 rfl)

end Sevenz
