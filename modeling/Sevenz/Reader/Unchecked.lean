import Sevenz.Reader.BlockHook
import Sevenz.Reader.Failures

/-!
# Reading with the checks off

`set_verify_checksums(false)` takes the checks off the entries of a walk.  The verifying reader
around a block's stream, and the one around a file that is read alone, stay.
-/

namespace Sevenz

open Lib Result

def Error.OfChecksum : Error → Prop
  | .checksumVerificationFailed | .io .checksumVerificationFailed _
  | .maybeBadPassword .checksumVerificationFailed => True
  | .blockDecode _ _ _ source => source.OfChecksum
  | _ => False

theorem Error.ofChecksum_inBlock {e : Error} {b offset : Nat} (h : (e.inBlock b offset).OfChecksum) :
    e.OfChecksum := by
  cases e <;> simp_all [inBlock, OfChecksum]

theorem Error.ofChecksum_maybeBadPasswordIf {e : Error} {given : Bool}
    (h : (e.maybeBadPasswordIf given).OfChecksum) : e.OfChecksum := by
  unfold maybeBadPasswordIf at h
  split at h
  · cases ‹IoError› <;> simp_all [OfChecksum]
  · exact h

structure Codecs.Foreign (codecs : Codecs) : Prop where
  seek : ∀ offset e, codecs.seekError offset = some e → e ≠ .checksumVerificationFailed
  decoder : ∀ input stage e, codecs.refuses input stage = some e → ¬ e.OfChecksum
  decode : ∀ decoder history buf,
    (codecs.decode decoder).answer history buf ≠ .error .checksumVerificationFailed

theorem Codecs.Foreign.refuses {codecs : Codecs} (h : codecs.Foreign) :
    codecs.Refuses fun e => ¬ e.OfChecksum where
  seek offset e he hof := by
    cases e <;> simp_all [Error.ofIo, Error.OfChecksum]
    exact h.seek offset _ he rfl
  decoder := h.decoder
  other _ hof := hof
  unsupported _ hof := hof
  cycles _ _ hof := hof

theorem Codecs.Foreign.read {codecs : Codecs} (h : codecs.Foreign) (decoder : Decoder) (buf : Nat)
    (history : List Nat) :
    ((codecs.decode decoder).read buf history).1 ≠ .error .checksumVerificationFailed := by
  unfold Stream.read
  have := h.decode decoder history buf
  cases hanswer : (codecs.decode decoder).answer history buf with
  | error e =>
      rw [hanswer] at this
      exact this
  | ok bytes => exact fun hsame => by cases hsame

/-- The verifying reader, if there is one, has nothing to count down to or expects more bytes
than the given number. -/
def Spare (needed : Nat) (check : Option CrcState) : Prop :=
  ∀ st, check = some st → st.remaining ≤ 0 ∨ (needed : Int) < st.remaining

theorem Spare.mono {needed needed' : Nat} {check : Option CrcState} (h : Spare needed check)
    (hle : needed' ≤ needed) : Spare needed' check :=
  fun st hst => (h st hst).imp_right fun hlt => by omega

variable {τ : Type} {inner : ReadFn IoError τ}

theorem spare_read {crc32 : List UInt8 → UInt32} (hinner : Honest inner)
    (hforeign : ∀ buf s, (inner buf s).1 ≠ .error .checksumVerificationFailed)
    {buf needed : Nat} {check check' : Option CrcState} {s s' : τ} {answer : ReadResult IoError}
    (h : maybeCrcRead crc32 inner buf (check, s) = (answer, check', s'))
    (hspare : Spare needed check) (hbuf : buf ≤ needed) :
    answer ≠ .error .checksumVerificationFailed ∧ Spare (needed - answer.bytes.length) check' := by
  cases check with
  | none =>
      cases h
      exact ⟨hforeign buf s, by simp [Spare]⟩
  | some st =>
      rcases hread : crcRead crc32 inner buf (st, s) with ⟨answer₁, st₁, s₁⟩
      simp only [maybeCrcRead, hread] at h
      cases h
      rcases crcRead_eq hread with ⟨-, rfl, hstay⟩ | ⟨hmore, below, hbelow, hanswer⟩
      · cases hstay
        exact ⟨by simp, hspare.mono (Nat.sub_le _ _)⟩
      · have hneeded := (hspare st rfl).resolve_left (Int.not_le.mpr hmore)
        cases below with
        | error e =>
            obtain ⟨rfl, rfl⟩ := hanswer
            have hne := hforeign buf s
            rw [hbelow] at hne
            exact ⟨hne, hspare.mono (Nat.sub_le _ _)⟩
        | ok bytes =>
            have hle := hinner buf s
            rw [hbelow] at hle
            change bytes.length ≤ buf at hle
            unfold CrcState.update at hanswer
            dsimp only at hanswer
            split at hanswer
            · omega
            · cases hanswer
              refine ⟨by simp, fun st₂ hst₂ => Or.inr ?_⟩
              cases hst₂
              change ((needed - bytes.length : Nat) : Int) < st.remaining - bytes.length
              omega

theorem spare_trace {crc32 : List UInt8 → UInt32} (hinner : Honest inner)
    (hforeign : ∀ buf s, (inner buf s).1 ≠ .error .checksumVerificationFailed) {later : Nat}
    {remain remain' : Nat} {fs fs' : FaultState (Option CrcState × τ)}
    {records : List (ReadRecord IoError)}
    (h : Trace (boundedRead (faultRead (maybeCrcRead crc32 inner))) (remain, fs) records
      (remain', fs'))
    (hspare : Spare (remain + later) fs.inner.1) :
    Unrefused records ∧ Spare (remain' + later) fs'.inner.1 := by
  generalize ht : (remain, fs) = t at h
  generalize ht' : (remain', fs') = t' at h
  induction h generalizing remain fs with
  | nil =>
      cases ht
      cases ht'
      exact ⟨fun _ h => absurd h List.not_mem_nil, hspare⟩
  | @cons t t₁ t' buf answer records hread _ ih =>
      subst ht
      obtain ⟨remain₁, fs₁⟩ := t₁
      rcases boundedRead_eq (faultRead_honest (maybeCrcRead_honest hinner)) hread with
        ⟨-, rfl, hstay⟩ | ⟨-, hbelow, hle, hleft⟩
      · cases hstay
        obtain ⟨hunrefused, hspare'⟩ := ih hspare rfl ht'
        exact ⟨List.forall_mem_cons.mpr ⟨by simp, hunrefused⟩, hspare'⟩
      · rcases hcrc : maybeCrcRead crc32 inner (min buf remain) fs.inner with ⟨answer₁, check₁, s₁⟩
        simp only [faultRead, hcrc] at hbelow
        cases hbelow
        obtain ⟨hrefused, hspare₁⟩ := spare_read hinner hforeign hcrc hspare
          (Nat.le_trans (Nat.min_le_right _ _) (Nat.le_add_right _ _))
        have hnext : Spare (remain₁ + later) check₁ := hspare₁.mono (by
          dsimp only at hleft
          omega)
        obtain ⟨hunrefused, hspare'⟩ := ih hnext rfl ht'
        exact ⟨List.forall_mem_cons.mpr ⟨hrefused, hunrefused⟩, hspare'⟩

/-- A verifying reader with nothing to count down to is never read below. -/
theorem spent_trace {crc32 : List UInt8 → UInt32} {st st' : CrcState} {s s' : τ}
    {records : List (ReadRecord IoError)} (h : Trace (crcRead crc32 inner) (st, s) records (st', s'))
    (hspent : st.remaining ≤ 0) : Unrefused records := by
  generalize ht : (st, s) = t at h
  generalize ht' : (st', s') = t' at h
  induction h generalizing st s with
  | nil => exact fun _ h => absurd h List.not_mem_nil
  | cons hread _ ih =>
      subst ht
      rcases crcRead_eq hread with ⟨-, rfl, rfl⟩ | ⟨hmore, -⟩
      · exact List.forall_mem_cons.mpr ⟨by simp, ih hspent rfl ht'⟩
      · omega

/-- The closure returns a checksum error only after a read has failed with one. -/
def Callback.RelaysChecksums (each : Callback) : Prop :=
  ∀ visits i file, (each visits i file).Relays
    (fun answer => ∃ e, answer = some (.error e) ∧ e.OfChecksum) (· = .checksumVerificationFailed)

theorem unrefused_of_answer {σ : Type} {each : Callback} (hrelays : each.RelaysChecksums)
    {visits : List Visit} {i : Nat} {file : ArchiveEntry} {read : ReadFn IoError σ} {s s' : σ}
    {e : Error} {records : List (ReadRecord IoError)}
    (hrun : (each visits i file).run read s = (some (.error e), records, s'))
    (hunrefused : Unrefused records) : ¬ e.OfChecksum := by
  intro hof
  obtain ⟨record, hrecord, _, hresult, rfl⟩ := (hrelays visits i file).run hrun ⟨e, rfl, hof⟩
  exact hunrefused record hrecord hresult

theorem emptyRead_unrefused {s s' : Unit} {records : List (ReadRecord IoError)}
    (h : Trace emptyRead s records s') : Unrefused records := by
  induction h with
  | nil => exact fun _ h => absurd h List.not_mem_nil
  | cons hread _ ih =>
      cases hread
      exact List.forall_mem_cons.mpr ⟨by simp, ih⟩

theorem visitEmpty_raises {each : Callback} (hrelays : each.RelaysChecksums)
    (blockIndex : Option Nat) (i : Nat) (file : ArchiveEntry) (log : WalkLog) :
    Raises (fun e => ¬ e.OfChecksum) (visitEmpty each blockIndex i file log).1 := by
  rcases hrun : (each log.visits i file).run emptyRead () with ⟨answer, records, s'⟩
  have hanswer : (visitEmpty each blockIndex i file log).1 = answerResult answer := by
    rw [visitEmpty, emptyVisit, hrun]
  rw [hanswer]
  have hunrefused := emptyRead_unrefused (Script.run_trace hrun)
  match answer with
  | none => exact fun e he => by cases he
  | some (.ok goOn) => exact raises_ok _
  | some (.error e) => exact raises_fail.mpr (unrefused_of_answer hrelays hrun hunrefused)

namespace OpenBlock

variable (d : OpenBlock)

theorem visitEntry_raises (hforeign : d.codecs.Foreign) (hverify : d.verifyChecksums = false)
    (hfolding : d.folding = false) {each : Callback} (hrelays : each.RelaysChecksums) {i later : Nat}
    {file : ArchiveEntry} {st : BlockState}
    (hspare : Spare (file.taken + later) st.chain.inner.1) :
    Raises (fun e => ¬ e.OfChecksum) (d.visitEntry each i file st).1 ∧
      Spare later (d.visitEntry each i file st).2.chain.inner.1 := by
  unfold visitEntry
  split
  · rename_i hbytes
    rw [ArchiveEntry.taken, if_pos hbytes] at hspare
    rcases hcall : d.callStream each i file st with ⟨answer, records, check, remain, chain⟩
    have hcheck : d.entryCheck file = none := by
      simp [entryCheck, hverify]
    have htrace := (d.callStream_trace hcall).1
    rw [hcheck] at htrace
    obtain ⟨hunrefused, hspare'⟩ := spare_trace (Stream.honest _)
      (fun buf history => hforeign.read d.stack.decoder buf history)
      (trace_maybeCrcRead_none htrace).2 hspare
    have hafter : (d.afterCall each i file st).chain = chain := by
      rw [afterCall, hcall]
    have hlater : Spare later (d.afterCall each i file st).chain.inner.1 := by
      rw [hafter]
      exact hspare'.mono (Nat.le_add_left _ _)
    unfold visitStream
    rw [hcall]
    rcases answer with _ | e | goOn
    · exact ⟨fun e he => (by cases he), hlater⟩
    · refine ⟨raises_fail.mpr fun hof => ?_, hlater⟩
      have hraised : (e.maybeBadPasswordIf d.passwordGiven).OfChecksum := by
        unfold locate at hof
        dsimp only at hof
        split at hof
        · exact Error.ofChecksum_inBlock hof
        · exact hof
      exact unrefused_of_answer hrelays hcall hunrefused
        (Error.ofChecksum_maybeBadPasswordIf hraised)
    · have hunfolded : d.foldedEntry file (d.afterCall each i file st) = none := by
        simp [foldedEntry, hfolding]
      simp only [finishEntry, hunfolded, Option.any_none]
      exact ⟨raises_ok _, hlater⟩
  · rename_i hbytes
    rw [ArchiveEntry.taken, if_neg hbytes, Nat.zero_add] at hspare
    exact ⟨visitEmpty_raises hrelays _ _ _ _, hspare⟩

theorem walkEntries_raises (hforeign : d.codecs.Foreign) (hverify : d.verifyChecksums = false)
    (hfolding : d.folding = false) {each : Callback} (hrelays : each.RelaysChecksums)
    {files : List Nat} {st : BlockState}
    (hspare : Spare (d.archive.streamedBytes files) st.chain.inner.1) :
    Raises (fun e => ¬ e.OfChecksum) (d.walkEntries each files st).1 := by
  induction files generalizing st with
  | nil => exact raises_ok _
  | cons i files ih =>
      unfold walkEntries
      split
      · exact raises_panic _
      · rename_i file hfile
        rw [streamedBytes_cons hfile] at hspare
        obtain ⟨hraises, hspare'⟩ := d.visitEntry_raises hforeign hverify hfolding hrelays hspare
        split
        · rename_i st₁ hstep
          rw [hstep] at hspare'
          exact ih hspare'
        · rename_i answer st₁ _ hstep
          rw [hstep] at hraises
          exact hraises

end OpenBlock

theorem openBlock_folding {d : BlockDecoder} {opened : OpenBlock} (h : d.openBlock = .ok opened)
    (hverify : d.verifyChecksums = false) : opened.folding = false := by
  obtain ⟨splits, hsplits, h⟩ := Result.bind_eq_ok.mp h
  obtain ⟨stack, -, h⟩ := Result.bind_eq_ok.mp h
  obtain ⟨start, -, h⟩ := Result.bind_eq_ok.mp h
  obtain ⟨block, -, h⟩ := Result.bind_eq_ok.mp h
  obtain ⟨firstSubStream, -, h⟩ := Result.bind_eq_ok.mp h
  cases Result.pure_eq_ok.mp h
  rw [BlockDecoder.checksumSplits, hverify] at hsplits
  cases hsplits
  rfl

theorem spare_start {stack : DecodeStack} {needed : Nat}
    (h : ∀ size crc, stack.check = some (size, crc) → 0 < size.toNat → size.toNat < 2 ^ 63 →
      needed < size.toNat) : Spare needed stack.start.1 := by
  intro st hst
  obtain ⟨⟨size, crc⟩, hcheck, rfl⟩ := Option.map_eq_some_iff.mp hst
  by_cases hsized : size.toNat < 2 ^ 63
  · have hremaining : (CrcState.new size crc).remaining = size.toNat := if_pos hsized
    dsimp only
    rw [hremaining]
    rcases Nat.eq_zero_or_pos size.toNat with hzero | hpos
    · exact Or.inl (by omega)
    · exact Or.inr (by exact_mod_cast h size crc hcheck hpos hsized)
  · exact Or.inl (crcState_new_spent hsized)

theorem openBlock_raises {d : BlockDecoder} (hforeign : d.codecs.Foreign) :
    Raises (fun e => ¬ e.OfChecksum) d.openBlock := by
  intro e he hof
  obtain ⟨error, hbuild, rfl⟩ := raises_openBlock d e he
  have hraises := raises_buildDecodeStack hforeign.refuses d.limits d.archive d.blockIndex
  exact hraises error hbuild (Error.ofChecksum_inBlock hof)

/-- With the checks off, a block without a verifying reader that its entries can read to the
end does not fail with a checksum error. -/
theorem forEachEntries_raises {d : BlockDecoder} (hforeign : d.codecs.Foreign)
    (hverify : d.verifyChecksums = false)
    (hunchecked : ∀ opened, d.openBlock = .ok opened →
      ¬ opened.ChecksBlock (d.archive.blockRange d.blockIndex))
    {each : Callback} (hrelays : each.RelaysChecksums) (log : WalkLog) :
    Raises (fun e => ¬ e.OfChecksum) (d.forEachEntries each log).1 := by
  unfold BlockDecoder.forEachEntries
  split
  · rename_i fault hopen
    intro e he
    cases he
    exact openBlock_raises hforeign e hopen
  · rename_i opened hopen
    have hfolding := openBlock_folding hopen hverify
    obtain ⟨rfl, hblock, hstart, -, -⟩ := openBlock_eq_ok hopen
    have hrange : List.range' opened.start opened.block.numUnpackSubStreams =
        opened.archive.blockRange opened.blockIndex := by
      rw [Archive.blockRange, subStreamsOf_eq hblock, StreamMap.firstFile,
        List.getD_eq_getElem?_getD, hstart]
      rfl
    have hspare : Spare (opened.archive.streamedBytes (opened.archive.blockRange opened.blockIndex))
        (opened.initial log).chain.inner.1 := by
      refine spare_start fun size crc hcheck hpos hsized => ?_
      by_contra hge
      exact hunchecked opened hopen ⟨size, crc, hcheck, hpos, hsized, Nat.le_of_not_lt hge⟩
    have hwalk := opened.walkEntries_raises hforeign hverify hfolding hrelays hspare
    unfold OpenBlock.walk
    rw [hrange]
    split
    · rw [OpenBlock.checkFolded, if_neg (by simp [hfolding])]
      exact raises_pure _
    · rename_i answer st _ hstep
      rw [hstep] at hwalk
      exact hwalk

namespace ArchiveReader

variable (r : ArchiveReader)

/-- A file that is decoded alone is read through a verifying reader of its own or through
one around its block that it brings to its end. -/
def ChecksAlone (b : Nat) (file : ArchiveEntry) : Prop :=
  ∃ stack, r.openAlone b = .ok stack ∧
    ((file.hasCrc = true ∧ 0 < file.size.toNat ∧ file.size.toNat < 2 ^ 63) ∨
      ∃ size crc, stack.check = some (size, crc) ∧ 0 < size.toNat ∧ size.toNat < 2 ^ 63 ∧
        size.toNat ≤ file.size.toNat)

/-- Nothing the reader hands out of the archive's files comes through a verifying reader that can
be read to its end. -/
structure Unchecked : Prop where
  blocks : ∀ b opened, (r.blockDecoder b).openBlock = .ok opened →
    ¬ opened.ChecksBlock (r.archive.blockRange b)
  alone : r.archive.isSolid = false → ∀ (i b : Nat) (file : ArchiveEntry),
    r.archive.files[i]? = some file →
      r.archive.streamMap.fileBlockIndex[i]? = some (some b) → ¬ r.ChecksAlone b file

theorem raises_completeBlock {p : Error → Prop} (b : Nat) (finished : Bool) (log : WalkLog) :
    Raises p (r.completeBlock b finished log) := by
  unfold completeBlock
  split
  · refine raises_index.bind fun block _ => ?_
    exact (raises_getUnpackSize block).bind fun size _ => raises_pure _
  · exact raises_pure _

variable {r}

section

variable (hforeign : r.codecs.Foreign) (hverify : r.verifyChecksums = false)
  (hunchecked : r.Unchecked)
include hforeign hverify hunchecked

theorem walkBlocks_raises {each : Callback} (hrelays : each.RelaysChecksums) (blocks : List Nat)
    (log : WalkLog) : Raises (fun e => ¬ e.OfChecksum) (r.walkBlocks each blocks log).1 := by
  induction blocks generalizing log with
  | nil => exact raises_ok _
  | cons b blocks ih =>
      have hblock := forEachEntries_raises (d := r.blockDecoder b) hforeign hverify
        (hunchecked.blocks b) hrelays log
      unfold walkBlocks
      split
      · rename_i fault log₁ hwalk
        rw [hwalk] at hblock
        intro e he
        cases he
        exact hblock e rfl
      · rename_i finished log₁ hwalk
        split
        · rename_i fault hcomplete
          intro e he
          cases he
          exact r.raises_completeBlock (p := fun e => ¬ e.OfChecksum) b finished log₁ e hcomplete
        · exact ih _

omit hforeign hverify hunchecked in
theorem walkEmptyFiles_raises {each : Callback} (hrelays : each.RelaysChecksums)
    (files : List Nat) (log : WalkLog) :
    Raises (fun e => ¬ e.OfChecksum) (r.walkEmptyFiles each files log).1 := by
  induction files generalizing log with
  | nil => exact raises_ok _
  | cons i files ih =>
      unfold walkEmptyFiles
      split
      · rename_i file _ _
        have hempty := visitEmpty_raises hrelays none i file log
        split
        · exact ih _
        · exact raises_ok _
        · rename_i fault log₁ hstep
          rw [hstep] at hempty
          intro e he
          cases he
          exact hempty e rfl
      · exact ih log
      · exact raises_panic _

theorem forEachEntries_unchecked {each : Callback} (hrelays : each.RelaysChecksums) :
    Raises (fun e => ¬ e.OfChecksum) (r.forEachEntries each).1 := by
  have hblocks := walkBlocks_raises hforeign hverify hunchecked hrelays
    (List.range r.archive.blocks.length) {}
  unfold forEachEntries
  split
  · rename_i fault log hwalk
    rw [hwalk] at hblocks
    intro e he
    cases he
    exact hblocks e rfl
  · exact walkEmptyFiles_raises hrelays _ _

omit hforeign hverify hunchecked in
theorem readUntil_relays (target : Nat) : (r.readUntil target).RelaysChecksums := by
  intro visits i file
  refine Script.readToEnd_relays ?_ ?_ ?_ _ _
  · rintro e ⟨_, heq, hof⟩
    cases heq
    cases e <;> simp_all [Error.ofIo, Error.OfChecksum]
  · rintro data ⟨_, heq, -⟩
    cases heq
  · rintro ⟨_, heq, -⟩
    cases heq

theorem readSolid_raises (b target : Nat) :
    Raises (fun e => ¬ e.OfChecksum) (r.readSolid b target) := by
  have hwalk := forEachEntries_raises (d := r.blockDecoder b) hforeign hverify
    (hunchecked.blocks b) (r.readUntil_relays target) {}
  unfold readSolid
  exact hwalk.bind fun _ _ => raises_okOr fun hof => hof

omit hverify hunchecked in
theorem readAlone_raises {b : Nat} {file : ArchiveEntry} (hnot : ¬ r.ChecksAlone b file) :
    Raises (fun e => ¬ e.OfChecksum) (r.readAlone b file) := by
  have hopen : Raises (fun e => ¬ e.OfChecksum) (r.openAlone b) := by
    refine raises_index.bind fun _ _ => raises_index.bind fun _ _ => ?_
    refine (raises_okOr fun hof => hof).bind fun offset _ => ?_
    refine (raises_seek hforeign.refuses offset).bind fun _ _ => ?_
    exact raises_buildDecodeStack hforeign.refuses _ _ _
  refine hopen.bind fun stack hstack => ?_
  rcases hrun : r.runAlone stack file with ⟨result, records, check, remain, chain⟩
  have hunrefused : Unrefused records := by
    have htrace := Script.run_trace hrun
    by_cases hcrc : file.hasCrc = true
    · rw [if_pos hcrc] at htrace
      obtain ⟨st', -, htrace⟩ := trace_maybeCrcRead_some htrace
      refine spent_trace htrace ?_
      by_cases hsized : file.size.toNat < 2 ^ 63
      · have hzero : file.size.toNat = 0 := by
          by_contra hne
          exact hnot ⟨stack, hstack, Or.inl ⟨hcrc, Nat.pos_of_ne_zero hne, hsized⟩⟩
        change asI64 file.size ≤ 0
        rw [asI64, if_pos hsized, hzero]
        exact Int.le_refl 0
      · exact crcState_new_spent hsized
    · rw [if_neg hcrc] at htrace
      have hspare : Spare (file.size.toNat + 0) stack.start.1 := by
        refine spare_start fun size crc hcheck hpos hsized => ?_
        by_contra hge
        exact hnot ⟨stack, hstack, Or.inr ⟨size, crc, hcheck, hpos, hsized, Nat.le_of_not_lt hge⟩⟩
      exact (spare_trace (Stream.honest _)
        (fun buf history => hforeign.read stack.decoder buf history)
        (trace_maybeCrcRead_none htrace).2 hspare).1
  have hrelays : Raises (fun e => ¬ e.OfChecksum) result := by
    intro e he hof
    have hscript : Script.Relays (fun result : Result (List UInt8) =>
        ∃ e, result = .error (.error e) ∧ e.OfChecksum) (· = IoError.checksumVerificationFailed)
        (Script.readToEnd retryInterrupted r.codecs.bufferLength
          (fun e => Result.fail (Error.ofIo e)) pure (.error .outOfFuel) r.codecs.rounds []) := by
      refine Script.readToEnd_relays ?_ ?_ ?_ _ _
      · rintro e ⟨_, heq, hof⟩
        cases heq
        cases e <;> simp_all [Error.ofIo, Error.OfChecksum]
      · rintro data ⟨_, heq, -⟩
        cases heq
      · rintro ⟨_, heq, -⟩
        cases heq
    obtain ⟨record, hrecord, _, hresult, rfl⟩ := hscript.run hrun ⟨e, he, hof⟩
    exact hunrefused record hrecord hresult
  exact hrelays

theorem readFile_unchecked (name : List Char) :
    Raises (fun e => ¬ e.OfChecksum) (r.readFile name) := by
  refine (raises_okOr fun hof => hof).bind fun found hfound => ?_
  obtain ⟨target, file⟩ := found
  dsimp only
  split
  · exact raises_pure _
  · refine raises_index.bind fun blockIndex hindex =>
      (raises_okOr fun hof => hof).bind fun b hb => ?_
    split
    · exact readSolid_raises hforeign hverify hunchecked b _
    · rename_i halone
      rw [Result.okOr_eq_ok.mp hb] at hindex
      exact readAlone_raises hforeign (hunchecked.alone (Bool.eq_false_iff.mpr halone) target b
        file (findFile_eq_some (Result.okOr_eq_ok.mp hfound)) (Result.index_eq_ok.mp hindex))

end

end ArchiveReader

/-- With the checks off, a reader whose blocks and files come through no verifying reader that
can be read to its end never fails with a checksum error. -/
theorem readers_unchecked {r : ArchiveReader} (hforeign : r.codecs.Foreign)
    (hverify : r.verifyChecksums = false) (hunchecked : r.Unchecked) :
    (∀ each log e, each.RelaysChecksums → r.forEachEntries each = (.error (.error e), log) →
        ¬ e.OfChecksum) ∧
      ∀ name e, r.readFile name = .error (.error e) → ¬ e.OfChecksum := by
  refine ⟨fun each log e hrelays hrun => ?_, fun name e hread => ?_⟩
  · exact ArchiveReader.forEachEntries_unchecked hforeign hverify hunchecked hrelays e
      (congrArg Prod.fst hrun)
  · exact ArchiveReader.readFile_unchecked hforeign hverify hunchecked name e hread

theorem copying_foreign (file : List UInt8) : (Codecs.copying file).Foreign where
  seek _ _ h := by cases h
  decoder input stage e h hof := by
    change (if _ then none else _) = some e at h
    split at h
    · cases h
    · cases h
      exact hof
  decode _ _ _ h := by cases h

def uncheckedReader (file : List UInt8) (archive : Archive) : ArchiveReader :=
  { copyingReader file archive with verifyChecksums := false }

def miscountedPair : List UInt8 :=
  archiveFile crc32 [0x41, 0x42]
    [kHeader, kMainStreamsInfo,
      kPackInfo, 0, 1, kSize, 2, kEnd,
      kUnpackInfo, kFolder, 1, 0, 1, 1, 0, kCodersUnpackSize, 2, kEnd,
      kSubStreamsInfo, kNumUnpackStream, 2, kSize, 1, kCrc, 1, 1, 0, 0, 0, 2, 0, 0, 0, kEnd, kEnd,
      kFilesInfo, 2, kEnd, kEnd]

def uncountedFile : List UInt8 :=
  archiveFile crc32 [0x41, 0x42]
    [kHeader, kMainStreamsInfo,
      kPackInfo, 0, 1, kSize, 2, kEnd,
      kUnpackInfo, kFolder, 1, 0, 1, 1, 0, kCodersUnpackSize, 2, kEnd,
      kSubStreamsInfo, kEnd, kEnd,
      kFilesInfo, 1, kEnd, kEnd]

theorem unchecked_of_oneBlock {bytes : List UInt8} {archive : Archive} {opened : OpenBlock}
    (hopen : ((uncheckedReader bytes archive).blockDecoder 0).openBlock = .ok opened)
    (hnone : opened.stack.check.isNone = true) (hblocks : archive.blocks.length = 1)
    (halone : archive.isSolid = true ∨ ∀ file ∈ archive.files, file.hasCrc = false) :
    (uncheckedReader bytes archive).Unchecked := by
  have hfirst : ∀ {b stack}, buildDecodeStack (.copying bytes) {} archive b = .ok stack →
      stack.check = none := by
    intro b stack hstack
    have hb : b < archive.blocks.length := by
      obtain ⟨block, hblock, -⟩ := Result.bind_eq_ok.mp hstack
      exact (List.getElem?_eq_some_iff.mp (Result.index_eq_ok.mp hblock)).1
    obtain rfl : b = 0 := by omega
    obtain ⟨-, -, -, -, hsame⟩ := openBlock_eq_ok hopen
    cases hstack.symm.trans hsame
    exact Option.isNone_iff_eq_none.mp hnone
  constructor
  · rintro b opened' hopen' ⟨size, crc, hsome, -⟩
    obtain ⟨-, -, -, -, hstack⟩ := openBlock_eq_ok hopen'
    cases (hfirst hstack).symm.trans hsome
  · rintro hsolid i b file hfile - ⟨stack, hstack, hchecks⟩
    obtain ⟨packIndex, -, hstack⟩ := Result.bind_eq_ok.mp hstack
    obtain ⟨packOffset, -, hstack⟩ := Result.bind_eq_ok.mp hstack
    obtain ⟨blockOffset, -, hstack⟩ := Result.bind_eq_ok.mp hstack
    obtain ⟨-, -, hstack⟩ := Result.bind_eq_ok.mp hstack
    rcases hchecks with ⟨hcrc, -⟩ | ⟨size, crc, hsome, -⟩
    · rcases halone with hsolid' | hcrcs
      · exact absurd (hsolid'.symm.trans hsolid) (by decide)
      · exact absurd (hcrc.symm.trans (hcrcs file (List.mem_of_getElem? hfile))) (by decide)
    · cases (hfirst hstack).symm.trans hsome

/-- The block of several files has no verifying reader, so both come out as they are, and so does
a file alone that has no checksum. -/
theorem miscountedPair_unchecked : (∃ archive,
    readWithLimits (.copying miscountedPair) {} false miscountedPair = .ok archive ∧
      archive.isSolid = true ∧
      (∀ each log e, each.RelaysChecksums →
        (uncheckedReader miscountedPair archive).forEachEntries each = (.error (.error e), log) →
          ¬ e.OfChecksum) ∧
      ∀ name e, (uncheckedReader miscountedPair archive).readFile name = .error (.error e) →
        ¬ e.OfChecksum) ∧
    ∃ archive,
      readWithLimits (.copying uncountedFile) {} false uncountedFile = .ok archive ∧
        archive.isSolid = false ∧
        (∀ each log e, each.RelaysChecksums →
          (uncheckedReader uncountedFile archive).forEachEntries each = (.error (.error e), log) →
            ¬ e.OfChecksum) ∧
        ∀ name e, (uncheckedReader uncountedFile archive).readFile name = .error (.error e) →
          ¬ e.OfChecksum := by
  constructor
  · obtain ⟨archive, hread, hcheck⟩ := Result.exists_of_holds
      (show (readWithLimits (.copying miscountedPair) {} false miscountedPair).holds
        (fun archive =>
          ((uncheckedReader miscountedPair archive).blockDecoder 0).openBlock.holds
              (fun opened => opened.stack.check.isNone) &&
            decide (archive.blocks.length = 1 ∧ archive.isSolid = true)) = true by
        decide +kernel)
    obtain ⟨hopen, hrest⟩ := Bool.and_eq_true_iff.mp hcheck
    obtain ⟨hblocks, hsolid⟩ := of_decide_eq_true hrest
    obtain ⟨opened, hopened, hnone⟩ := Result.exists_of_holds hopen
    exact ⟨archive, hread, hsolid, readers_unchecked (r := uncheckedReader miscountedPair archive)
      (copying_foreign miscountedPair) rfl
      (unchecked_of_oneBlock hopened hnone hblocks (Or.inl hsolid))⟩
  · obtain ⟨archive, hread, hcheck⟩ := Result.exists_of_holds
      (show (readWithLimits (.copying uncountedFile) {} false uncountedFile).holds
        (fun archive =>
          ((uncheckedReader uncountedFile archive).blockDecoder 0).openBlock.holds
              (fun opened => opened.stack.check.isNone) &&
            decide (archive.blocks.length = 1 ∧ archive.isSolid = false ∧
              ∀ file ∈ archive.files, file.hasCrc = false)) = true by
        decide +kernel)
    obtain ⟨hopen, hrest⟩ := Bool.and_eq_true_iff.mp hcheck
    obtain ⟨hblocks, hsolid, hcrcs⟩ := of_decide_eq_true hrest
    obtain ⟨opened, hopened, hnone⟩ := Result.exists_of_holds hopen
    exact ⟨archive, hread, hsolid, readers_unchecked (r := uncheckedReader uncountedFile archive)
      (copying_foreign uncountedFile) rfl
      (unchecked_of_oneBlock hopened hnone hblocks (Or.inr hcrcs))⟩

def miscountedFile : List UInt8 :=
  archiveFile crc32 [0x41, 0x42]
    [kHeader, kMainStreamsInfo,
      kPackInfo, 0, 1, kSize, 2, kEnd,
      kUnpackInfo, kFolder, 1, 0, 1, 1, 0, kCodersUnpackSize, 2, kEnd,
      kSubStreamsInfo, kCrc, 1, 1, 0, 0, 0, kEnd, kEnd,
      kFilesInfo, 1, kEnd, kEnd]

theorem readAllEntries_relays : readAllEntries.RelaysChecksums := by
  intro visits i file
  refine Script.readToEnd_relays ?_ ?_ ?_ _ _
  · rintro e ⟨_, heq, hof⟩
    cases heq
    cases e <;> simp_all [Error.ofIo, Error.OfChecksum]
  · rintro data ⟨_, heq, -⟩
    cases heq
  · rintro ⟨_, heq, -⟩
    cases heq

/-- With the checks off both readers still fail on it with a checksum error. -/
theorem miscountedFile_checked : ∃ archive,
    readWithLimits (.copying miscountedFile) {} false miscountedFile = .ok archive ∧
      (∃ log e, (uncheckedReader miscountedFile archive).forEachEntries readAllEntries =
        (.error (.error e), log) ∧ readAllEntries.RelaysChecksums ∧ e.OfChecksum) ∧
      ∃ e, (uncheckedReader miscountedFile archive).readFile [] = .error (.error e) ∧
        e.OfChecksum := by
  obtain ⟨archive, hread, hcheck⟩ := Result.exists_of_holds
    (show (readWithLimits (.copying miscountedFile) {} false miscountedFile).holds
      (fun archive =>
        let r := uncheckedReader miscountedFile archive
        decide ((r.forEachEntries readAllEntries).1 = .error (.error
            (.blockDecode 0 32 .io (.io .checksumVerificationFailed ""))) ∧
          r.readFile [] = .error (.error (.io .checksumVerificationFailed "")))) = true by
      decide +kernel)
  obtain ⟨hwalk, hfile⟩ := of_decide_eq_true hcheck
  exact ⟨archive, hread, ⟨_, _, Prod.ext hwalk rfl, readAllEntries_relays, trivial⟩,
    _, hfile, trivial⟩

end Sevenz
