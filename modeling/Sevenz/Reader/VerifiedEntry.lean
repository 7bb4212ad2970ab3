import Sevenz.Reader.DrainingWalk

/-!
# An entry read under a verifying reader

Whether the checksum is verified as an entry is read, by the reader of its block or by the
workers once it has been read, the entry comes out in the same cases.
-/

namespace Sevenz

open Lib Result

section

variable {τ : Type} {inner : ReadFn IoError τ} {crc32 : List UInt8 → UInt32} {expected : UInt64}
  {size : Nat}

theorem CrcProgress.update_error {remain : Nat} {data bytes : List UInt8} {st st' : CrcState}
    {e : IoError} (h : CrcProgress crc32 expected size data st remain) (hpos : 0 < remain)
    (hle : bytes.length ≤ remain) (hupdate : st.update crc32 bytes = (.error e, st')) :
    bytes.length = remain ∧ (crc32 (data ++ bytes)).toUInt64 ≠ expected := by
  unfold CrcState.update at hupdate
  simp only [h.remaining, h.digest hpos, h.expectedValue] at hupdate
  split at hupdate
  · rename_i hdone
    split at hupdate
    · rename_i hne
      exact ⟨by omega, hne⟩
    · cases hupdate
  · cases hupdate

variable (codecs : Codecs)

theorem Codecs.readRest_ended {σ : Type} {read : ReadFn IoError σ} {s : σ}
    (hended : ∀ buf, (read buf s).1 = .ok []) (rounds : Nat) (data : List UInt8) :
    ((codecs.readRest rounds data).run read s).1 =
      if rounds = 0 then none else some (.ok data) := by
  cases rounds with
  | zero => rfl
  | succ rounds =>
      have hread := hended (codecs.bufferLength rounds + 1)
      rw [readRest, Script.readToEnd, Script.run]
      rcases hr : read (codecs.bufferLength rounds + 1) s with ⟨answer, s₁⟩
      rw [hr] at hread
      obtain rfl : answer = .ok [] := hread
      rfl

theorem Codecs.readRest_verified (hinner : Honest inner) {remain : Nat} {data all : List UInt8}
    {st : CrcState} {s : τ} (h : CrcProgress crc32 expected size data st remain) (rounds : Nat) :
    ((codecs.readRest rounds data).run (crcRead crc32 (boundedRead inner)) (st, remain, s)).1 =
        some (.ok all) ↔
      ((codecs.readRest rounds data).run (boundedRead inner) (remain, s)).1 = some (.ok all) ∧
        (all.length = size → (crc32 all).toUInt64 = expected) := by
  induction rounds generalizing data st remain s with
  | zero => simp [readRest, Script.readToEnd, Script.run]
  | succ rounds ih =>
      have hremaining := h.remaining
      have hcounted := h.counted
      by_cases hzero : remain = 0
      · subst hzero
        have hended : ∀ buf, (crcRead crc32 (boundedRead inner) buf (st, 0, s)).1 = .ok [] := by
          intro buf
          rw [crcRead, if_pos (by omega)]
        have hended' : ∀ buf, (boundedRead inner buf (0, s)).1 = .ok [] := by
          intro buf
          rw [boundedRead, if_pos rfl]
        rw [codecs.readRest_ended hended, codecs.readRest_ended hended',
          if_neg (Nat.succ_ne_zero _)]
        constructor
        · intro heq
          cases heq
          exact ⟨rfl, fun _ => h.verified rfl⟩
        · exact fun hboth => hboth.1
      · have hpos := Nat.pos_of_ne_zero hzero
        obtain ⟨buf, hbuf⟩ : ∃ buf, buf = codecs.bufferLength rounds + 1 := ⟨_, rfl⟩
        have hle := Nat.le_trans (hinner (min buf remain) s) (Nat.min_le_right buf remain)
        rcases hread : inner (min buf remain) s with ⟨below, s₁⟩
        rw [hread] at hle
        rw [readRest, Script.readToEnd, Script.run, Script.run, ← hbuf]
        cases below with
        | error e =>
            have hcrc : crcRead crc32 (boundedRead inner) buf (st, remain, s) =
                (.error e, st, remain, s₁) := by
              rw [crcRead, if_neg (by omega), boundedRead, if_neg hzero, hread]
            have hplain : boundedRead inner buf (remain, s) = (.error e, remain, s₁) := by
              rw [boundedRead, if_neg hzero, hread]
            rw [hcrc, hplain]
            dsimp only
            split
            · exact ih h
            · simp [Script.run]
        | ok bytes =>
            cases bytes with
            | nil =>
                have hupdate : st.update crc32 [] = (.ok [], { st with
                    digest := st.digest ++ [], remaining := st.remaining - 0 }) := by
                  unfold CrcState.update
                  dsimp only
                  rw [if_neg (by simp only [List.length_nil]; omega)]
                  rfl
                have hcrc : crcRead crc32 (boundedRead inner) buf (st, remain, s) =
                    (.ok [],
                      { st with digest := st.digest ++ [], remaining := st.remaining - 0 },
                      remain - 0, s₁) := by
                  rw [crcRead, if_neg (by omega), boundedRead, if_neg hzero, hread]
                  dsimp only
                  rw [hupdate]
                  rfl
                have hplain : boundedRead inner buf (remain, s) = (.ok [], remain - 0, s₁) := by
                  rw [boundedRead, if_neg hzero, hread]
                  rfl
                rw [hcrc, hplain]
                simp only [Script.run, Option.some.injEq, Except.ok.injEq]
                constructor
                · rintro rfl
                  exact ⟨rfl, fun hsize => by omega⟩
                · exact fun hboth => hboth.1
            | cons byte bytes =>
                have hplain : boundedRead inner buf (remain, s) =
                    (.ok (byte :: bytes), remain - (byte :: bytes).length, s₁) := by
                  rw [boundedRead, if_neg hzero, hread]
                rcases hupdate : st.update crc32 (byte :: bytes) with ⟨answer, st'⟩
                have hcrc : crcRead crc32 (boundedRead inner) buf (st, remain, s) =
                    (answer, st', remain - (byte :: bytes).length, s₁) := by
                  rw [crcRead, if_neg (by omega), boundedRead, if_neg hzero, hread]
                  dsimp only
                  rw [hupdate]
                rw [hcrc, hplain]
                have hle : (byte :: bytes).length ≤ remain := hle
                rcases h.update hpos hle hupdate with rfl | ⟨rfl, hnext⟩
                · -- the checksum is not that of the data
                  obtain ⟨hall, hne⟩ := h.update_error hpos hle hupdate
                  have hended : ∀ buf,
                      (boundedRead inner buf (remain - (byte :: bytes).length, s₁)).1 = .ok [] := by
                    intro buf
                    rw [hall, Nat.sub_self, boundedRead, if_pos rfl]
                  have hplainRest := codecs.readRest_ended hended rounds (data ++ byte :: bytes)
                  rw [readRest] at hplainRest
                  dsimp only
                  rw [hplainRest]
                  have hretry : retryInterrupted .checksumVerificationFailed = false := by decide
                  rw [hretry]
                  constructor
                  · intro heq
                    cases heq
                  · rintro ⟨heq, hsame⟩
                    split at heq
                    · cases heq
                    · cases heq
                      have hsize : (data ++ byte :: bytes).length = size := by
                        rw [List.length_append]
                        omega
                      exact absurd (hsame hsize) hne
                · exact ih hnext

theorem Codecs.readRest_checked (hinner : Honest inner) {remain : Nat} {data all : List UInt8}
    {st : CrcState} {faulted : Bool} {reads : List (ReadRecord IoError)} {s : τ}
    (h : CrcProgress crc32 expected size data st remain) (rounds : Nat)
    (hall : ((codecs.readRest rounds data).run (boundedRead (faultRead (maybeCrcRead crc32 inner)))
      (remain, { faulted, reads, inner := (some st, s) })).1 = some (.ok all))
    (hsize : all.length = size) : (crc32 all).toUInt64 = expected := by
  induction rounds generalizing data st remain faulted reads s with
  | zero => cases hall
  | succ rounds ih =>
      have hremaining := h.remaining
      have hcounted := h.counted
      rw [readRest, Script.readToEnd, Script.run] at hall
      by_cases hzero : remain = 0
      · subst hzero
        rw [boundedRead, if_pos rfl] at hall
        cases hall
        exact h.verified rfl
      · have hpos := Nat.pos_of_ne_zero hzero
        obtain ⟨buf, hbuf⟩ : ∃ buf, buf = min (codecs.bufferLength rounds + 1) remain := ⟨_, rfl⟩
        rw [boundedRead, if_neg hzero, ← hbuf, faultRead] at hall
        have hle : (inner buf s).1.bytes.length ≤ remain :=
          Nat.le_trans (hinner buf s) (hbuf ▸ Nat.min_le_right _ _)
        rcases hcrc : crcRead crc32 inner buf (st, s) with ⟨answer, st₁, s₁⟩
        simp only [maybeCrcRead, hcrc] at hall
        rcases crcRead_eq hcrc with ⟨hdone, -, -⟩ | ⟨-, below, hbelow, hanswer⟩
        · omega
        · rw [hbelow] at hle
          cases below with
          | error e =>
              obtain ⟨rfl, rfl⟩ := hanswer
              dsimp only at hall
              split at hall
              · exact ih h hall
              · cases hall
          | ok bytes =>
              rcases h.update hpos hle hanswer with rfl | ⟨rfl, hnext⟩
              · have hretry : retryInterrupted .checksumVerificationFailed = false := by decide
                simp only [hretry] at hall
                cases hall
              · cases bytes with
                | nil =>
                    cases hall
                    omega
                | cons byte bytes => exact ih hnext hall

end

/-- `Lzma2Control::folded` has nothing of a range past the end of a stream that was read to its
end either. -/
structure Codecs.FoldsExactly (codecs : Codecs) : Prop extends codecs.FoldsPieces where
  unread : ∀ decoder, codecs.engaged decoder = true → ∀ splits reads offset len,
    ReadToEnd reads → (delivered reads).length < offset + len →
      codecs.folded decoder splits reads offset len = none

theorem boundedRead_readToEnd {τ : Type} {inner : ReadFn IoError τ} (hinner : Honest inner)
    {remain remain' : Nat} {fs fs' : FaultState τ} {records : List (ReadRecord IoError)}
    (h : Trace (boundedRead (faultRead inner)) (remain, fs) records (remain', fs'))
    (hend : ReadToEnd records) (hleft : 0 < remain') :
    ∃ reads, fs'.reads = fs.reads ++ reads ∧ ReadToEnd reads := by
  generalize hs : (remain, fs) = s at h
  generalize hs' : (remain', fs') = s' at h
  induction h generalizing remain fs with
  | nil => exact hend.elim
  | @cons s s₁ s' buf answer records hread hrest ih =>
      subst hs
      obtain ⟨remain₁, fs₁⟩ := s₁
      rcases boundedRead_eq (faultRead_honest hinner) hread with
        ⟨hzero, rfl, hsame⟩ | ⟨hpos, hfault, -, -⟩
      · obtain rfl := hend.eq_nil
        cases hrest
        cases hs'
        cases hsame
        omega
      · have hreads := faultRead_eq hfault
        have hbuf : 0 < min buf remain := Nat.lt_min.mpr ⟨hend.buf_pos, hpos⟩
        by_cases hended : answer = .ok []
        · subst hended
          obtain rfl := hend.eq_nil
          cases hrest
          cases hs'
          exact ⟨_, hreads, hbuf, rfl⟩
        · obtain ⟨reads, happend, hreadToEnd⟩ := ih (hend.tail hended) rfl hs'
          refine ⟨⟨min buf remain, answer⟩ :: reads, ?_, hreadToEnd.cons hbuf hended⟩
          rw [happend, hreads, List.append_assoc]
          rfl

theorem run_maybeCrcRead_none {τ ρ : Type} {inner : ReadFn IoError τ}
    {crc32 : List UInt8 → UInt32} (script : Script IoError ρ) (s : τ) :
    script.run (maybeCrcRead crc32 inner) (none, s) =
      ((script.run inner s).1, (script.run inner s).2.1, none, (script.run inner s).2.2) := by
  induction script generalizing s with
  | finish result => rfl
  | read buf next ih =>
      simp only [Script.run, maybeCrcRead]
      rw [ih]

theorem run_maybeCrcRead_some {τ ρ : Type} {inner : ReadFn IoError τ}
    {crc32 : List UInt8 → UInt32} (script : Script IoError ρ) (st : CrcState) (s : τ) :
    (script.run (maybeCrcRead crc32 inner) (some st, s)).1 =
      (script.run (crcRead crc32 inner) (st, s)).1 := by
  induction script generalizing st s with
  | finish result => rfl
  | read buf next ih =>
      simp only [Script.run, maybeCrcRead]
      rw [ih]

namespace OpenBlock

variable (d : OpenBlock)

def readVerified (file : ArchiveEntry) : Option (Except IoError (List UInt8)) :=
  let check := if file.hasCrc then some (CrcState.new file.size file.crc) else none
  (d.codecs.readWhole.run d.entryRead (check, file.size.toNat, (d.initial {}).chain)).1

/-- What is needed for the walk's own checks to come to the same.  A checksum that the workers are
to compute is there where a piece of theirs ends with the file. -/
def ChecksAlike (file : ArchiveEntry) : Prop :=
  file.hasCrc = false ∨ file.size = 0 ∨ (d.verifyChecksums = true ∧ d.folding = false) ∨
    (file.size.toNat < 2 ^ 63 ∧
      ((d.folding = true ∧ file.size.toNat ∈ d.codecs.cuts d.stack.decoder d.splits) ∨
        d.stack.check = some (file.size, file.crc)))

variable {d}

theorem readVerified_empty {file : ArchiveEntry} (hsize : file.size = 0) {data : List UInt8} :
    d.readVerified file = some (.ok data) ↔
      (d.codecs.readWhole.run emptyRead ()).1 = some (.ok data) := by
  have hended : ∀ buf, (d.entryRead buf
      (if file.hasCrc then some (CrcState.new file.size file.crc) else none, file.size.toNat,
        (d.initial {}).chain)).1 = .ok [] := by
    intro buf
    have hbounded : boundedRead (faultRead (d.stack.read d.codecs)) buf
        (file.size.toNat, (d.initial {}).chain) =
          (.ok [], file.size.toNat, (d.initial {}).chain) := by
      rw [boundedRead, hsize]
      exact if_pos rfl
    unfold entryRead
    split
    · rw [maybeCrcRead, crcRead, if_pos (by rw [hsize]; exact Int.le_refl 0)]
    · rw [maybeCrcRead, hbounded]
  have hempty : ∀ buf, (emptyRead buf ()).1 = .ok [] := fun _ => rfl
  have hleft := d.codecs.readRest_ended hended d.codecs.rounds []
  have hright := d.codecs.readRest_ended hempty d.codecs.rounds []
  unfold readVerified
  dsimp only
  change (Script.run _ (d.codecs.readRest _ _) _).1 = _ ↔
    (Script.run _ (d.codecs.readRest _ _) _).1 = _
  rw [hleft, hright]

theorem readEntry_reads {file : ArchiveEntry} (hcheck : d.entryCheck file = none)
    {data : List UInt8} (h : (d.readEntry file (d.initial {})).1 = some (.ok data)) :
    delivered (d.readEntry file (d.initial {})).2.2.2.2.reads = data ∧
      data.length ≤ file.size.toNat ∧
      (data.length < file.size.toNat →
        ReadToEnd (d.readEntry file (d.initial {})).2.2.2.2.reads) := by
  rcases hrun : d.readEntry file (d.initial {}) with ⟨outcome, records, check, remain, chain⟩
  rw [hrun] at h
  obtain rfl : outcome = some (.ok data) := h
  have hrecords := Codecs.readWhole_delivered hrun
  rcases Script.readToEnd_run hrun with ⟨hend, -, -⟩ | ⟨e, herror⟩ | hnone
  · have htrace := Script.run_trace hrun
    rw [hcheck] at htrace
    have hbounded := (trace_maybeCrcRead_none htrace).2
    have hhonest := d.stack.read_honest d.codecs
    obtain ⟨reads, happend, hdelivered, hcount, -⟩ := boundedRead_trace hhonest hbounded hend
    rw [hrecords] at hdelivered hcount
    refine ⟨?_, by omega, fun hshort => ?_⟩
    · rw [happend]
      exact hdelivered
    · obtain ⟨reads', happend', hreadToEnd⟩ :=
        boundedRead_readToEnd hhonest hbounded hend (by omega)
      rw [happend']
      exact hreadToEnd
  · cases herror
  · cases hnone

theorem not_mismatches_initial (hengaged : d.codecs.engaged d.stack.decoder = true)
    (hfolds : d.codecs.FoldsExactly) {file : ArchiveEntry}
    {chain : FaultState (Option CrcState × List Nat)}
    (hle : (delivered chain.reads).length ≤ file.size.toNat)
    (hshort : (delivered chain.reads).length < file.size.toNat → ReadToEnd chain.reads)
    (hmatch : (delivered chain.reads).length = file.size.toNat →
      (d.codecs.crc32 (delivered chain.reads)).toUInt64 = file.crc) :
    ¬ d.Mismatches file { d.initial {} with chain } := by
  intro hmismatch
  obtain ⟨crc, hfolded, hcrc⟩ := (Option.any_eq_true _ _).mp hmismatch
  unfold foldedEntry at hfolded
  split at hfolded
  · change d.codecs.folded _ _ chain.reads 0 file.size.toNat = some crc at hfolded
    have hzero : 0 + file.size.toNat = file.size.toNat := Nat.zero_add _
    rcases Nat.lt_or_eq_of_le hle with hlt | heq
    · rw [hfolds.unread _ hengaged _ _ _ _ (hshort hlt) (by omega)] at hfolded
      cases hfolded
    · have hright := hfolds.right _ hengaged _ _ _ _ _ (by omega) hfolded
      rw [List.drop_zero, ← heq, List.take_length] at hright
      rw [hright, hmatch heq, bne_self_eq_false, Bool.and_false] at hcrc
      cases hcrc
  · cases hfolded

theorem matches_of_not_mismatches (hfolding : d.folding = true)
    (hengaged : d.codecs.engaged d.stack.decoder = true) (hsplits : d.splits ≠ [])
    (hfolds : d.codecs.FoldsPieces) {file : ArchiveEntry} (hcrc : file.hasCrc = true)
    (hpos : 0 < file.size.toNat)
    (hcut : file.size.toNat ∈ d.codecs.cuts d.stack.decoder d.splits)
    {chain : FaultState (Option CrcState × List Nat)}
    (hmatch : ¬ d.Mismatches file { d.initial {} with chain })
    (hsize : (delivered chain.reads).length = file.size.toNat) :
    (d.codecs.crc32 (delivered chain.reads)).toUInt64 = file.crc := by
  have hanswers : d.Answers 0 file.size.toNat :=
    answers_of_cuts hfolds hengaged hsplits hpos (Or.inl rfl) ((Nat.zero_add _).symm ▸ hcut)
  have hfolded : d.foldedEntry file { d.initial {} with chain } =
      d.folded chain.reads 0 file.size.toNat := if_pos hfolding
  rw [Mismatches, hfolded, hanswers _ (by omega), List.drop_zero, ← hsize, List.take_length,
    Option.any_some, hcrc, Bool.true_and] at hmatch
  simpa using hmatch

theorem readVerified_iff {file : ArchiveEntry} (hcrc : file.hasCrc = true)
    (hcheck : d.entryCheck file = none) (hpos : 0 < file.size.toNat)
    (hsized : file.size.toNat < 2 ^ 63) {data : List UInt8} :
    d.readVerified file = some (.ok data) ↔
      (d.readEntry file (d.initial {})).1 = some (.ok data) ∧
        (data.length = file.size.toNat → (d.codecs.crc32 data).toUInt64 = file.crc) := by
  have hhonest : Honest (faultRead (d.stack.read d.codecs)) :=
    faultRead_honest (d.stack.read_honest d.codecs)
  have hnew : CrcProgress d.codecs.crc32 file.crc file.size.toNat []
      (CrcState.new file.size file.crc) file.size.toNat := crcProgress_new hpos hsized
  unfold readVerified readEntry entryRead
  rw [hcrc, hcheck, if_pos rfl, run_maybeCrcRead_none]
  dsimp only
  rw [run_maybeCrcRead_some]
  exact d.codecs.readRest_verified hhonest hnew d.codecs.rounds

theorem readEntry_checked {file : ArchiveEntry} (hcheck : d.entryCheck file = none)
    (hpos : 0 < file.size.toNat) (hsized : file.size.toNat < 2 ^ 63)
    (hstack : d.stack.check = some (file.size, file.crc)) {data : List UInt8}
    (hread : (d.readEntry file (d.initial {})).1 = some (.ok data))
    (hsize : data.length = file.size.toNat) :
    (d.codecs.crc32 data).toUInt64 = file.crc := by
  have hnew : CrcProgress d.codecs.crc32 file.crc file.size.toNat []
      (CrcState.new file.size file.crc) file.size.toNat := crcProgress_new hpos hsized
  unfold readEntry entryRead at hread
  rw [hcheck, run_maybeCrcRead_none] at hread
  have hstart : (d.initial {}).chain =
      { faulted := false, reads := [], inner := (some (CrcState.new file.size file.crc), []) } := by
    rw [initial, DecodeStack.start, hstack]
    rfl
  rw [hstart] at hread
  exact d.codecs.readRest_checked (d.codecs.decode d.stack.decoder).honest hnew d.codecs.rounds
    hread hsize

theorem reads_iff_readVerified (hfolds : d.codecs.FoldsExactly)
    (hengaged : d.folding = true → d.codecs.engaged d.stack.decoder = true ∧ d.splits ≠ [])
    {file : ArchiveEntry} (hstream : file.hasStream = true) (halike : d.ChecksAlike file)
    {data : List UInt8} :
    d.Reads file (d.initial {}) data ↔ d.readVerified file = some (.ok data) := by
  by_cases hsize : file.size = 0
  · have hempty : ¬ (file.hasStream = true ∧ file.size > 0) := by
      rw [hsize]
      simp
    rw [Reads, if_neg hempty]
    exact (readVerified_empty hsize).symm
  · have hbytes : file.hasStream = true ∧ file.size > 0 :=
      ⟨hstream, UInt64.pos_iff_ne_zero.mpr hsize⟩
    have hpos : 0 < file.size.toNat := UInt64.lt_iff_toNat_lt.mp hbytes.2
    rw [Reads, if_pos hbytes]
    have hsame (hcheck : d.entryCheck file =
        if file.hasCrc then some (CrcState.new file.size file.crc) else none)
        (hmatch : ∀ st, ¬ d.Mismatches file st) :
        ((d.readEntry file (d.initial {})).1 = some (.ok data) ∧
            ¬ d.Mismatches file { d.initial {} with
              chain := (d.readEntry file (d.initial {})).2.2.2.2 }) ↔
          d.readVerified file = some (.ok data) := by
      rw [readVerified, ← hcheck]
      exact and_iff_left (hmatch _)
    rcases halike with hcrc | hzero | ⟨hverify, hfolding⟩ | ⟨hsized, hchecked⟩
    · apply hsame
      · rw [entryCheck, hcrc]
        rfl
      · intro st hmismatch
        rw [Mismatches, hcrc] at hmismatch
        simp at hmismatch
    · exact absurd hzero hsize
    · apply hsame
      · rw [entryCheck, hverify, hfolding]
        simp
      · intro st hmismatch
        rw [Mismatches, foldedEntry, hfolding] at hmismatch
        simp at hmismatch
    · cases hcrc : file.hasCrc with
      | false =>
          apply hsame
          · rw [entryCheck, hcrc]
            rfl
          · intro st hmismatch
            rw [Mismatches, hcrc] at hmismatch
            simp at hmismatch
      | true =>
          by_cases hverifies : d.verifyChecksums = true ∧ d.folding = false
          · apply hsame
            · rw [entryCheck, hcrc, hverifies.1, hverifies.2]
              rfl
            · intro st hmismatch
              rw [Mismatches, foldedEntry, hverifies.2] at hmismatch
              simp at hmismatch
          · have hcheck : d.entryCheck file = none := by
              rw [entryCheck, if_neg]
              simpa [hcrc] using hverifies
            rw [readVerified_iff hcrc hcheck hpos hsized]
            apply and_congr_right
            intro hread
            obtain ⟨hreads, hle, hshort⟩ := readEntry_reads hcheck hread
            rcases hrun : d.readEntry file (d.initial {}) with
              ⟨outcome, records, check, remain, chain⟩
            rw [hrun] at hreads hshort
            obtain rfl : delivered chain.reads = data := hreads
            constructor
            · intro hmatch hsize
              rcases hchecked with ⟨hfolding, hcut⟩ | hstack
              · obtain ⟨hengaged, hsplits⟩ := hengaged hfolding
                exact matches_of_not_mismatches hfolding hengaged hsplits hfolds.toFoldsPieces hcrc
                  hpos hcut hmatch hsize
              · exact readEntry_checked hcheck hpos hsized hstack hread hsize
            · intro hmatch hmismatch
              cases hfolding : d.folding with
              | true =>
                  exact not_mismatches_initial (hengaged hfolding).1 hfolds hle hshort hmatch
                    hmismatch
              | false =>
                  rw [Mismatches, foldedEntry, hfolding] at hmismatch
                  simp at hmismatch

end OpenBlock

end Sevenz
