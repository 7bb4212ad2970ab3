import Sevenz.Lib.Decompressor
import Sevenz.Reader.RandomAccess

/-!
# A walk over a block that is restored

What the decoders of a block give back goes through the readers around them as it is, however
the reads are cut, where it has the checksums that these verify.
-/

namespace Sevenz

open Lib

section

variable {σ : Type} {read : ReadFn IoError σ} {Holds : List UInt8 → σ → Prop}

theorem serves_faultRead (h : Serves read Holds) (all : List UInt8) :
    Serves (faultRead read) fun content fs =>
      Holds content fs.inner ∧ delivered fs.reads ++ content = all := by
  rintro buf content fs hbuf ⟨hs, rfl⟩
  obtain ⟨piece, rest, s', hread, rfl, hlength, hend, hs'⟩ := h buf content fs.inner hbuf hs
  refine ⟨piece, rest, { faulted := fs.faulted, reads := fs.reads ++ [⟨buf, .ok piece⟩]
                         inner := s' }, ?_, rfl, hlength, hend, hs', ?_⟩
  · rw [faultRead, hread]
    simp [Except.isOk, Except.toBool]
  · rw [delivered_append, delivered_cons_ok, delivered_nil, List.append_nil, List.append_assoc]

def CrcState.Awaits (crc32 : List UInt8 → UInt32) (content : List UInt8) (st : CrcState) : Prop :=
  st.remaining = content.length ∧
    (content ≠ [] → (crc32 (st.digest ++ content)).toUInt64 = st.expectedValue)

theorem CrcState.Awaits.update {crc32 : List UInt8 → UInt32} {piece rest : List UInt8}
    {st : CrcState} (h : st.Awaits crc32 (piece ++ rest)) (hne : piece ++ rest ≠ []) :
    ∃ st', st.update crc32 piece = (.ok piece, st') ∧ st'.Awaits crc32 rest := by
  obtain ⟨hremaining, hverified⟩ := h
  have hverified := hverified hne
  have hleft : st.remaining - piece.length = rest.length := by
    rw [hremaining, List.length_append]
    omega
  rw [← List.append_assoc] at hverified
  by_cases hrest : rest = []
  · subst hrest
    have hdone : st.remaining - piece.length ≤ 0 := Int.le_of_eq hleft
    rw [List.append_nil] at hverified
    rw [CrcState.update, if_pos hdone, if_neg (not_not.mpr hverified)]
    exact ⟨_, rfl, hleft, fun hne => absurd rfl hne⟩
  · have hpos := List.length_pos_of_ne_nil hrest
    rw [CrcState.update, if_neg (by omega)]
    exact ⟨_, rfl, hleft, fun _ => hverified⟩

def Verifies (crc32 : List UInt8 → UInt32) (Holds : List UInt8 → σ → Prop)
    (content : List UInt8) (s : Option CrcState × σ) : Prop :=
  Holds content s.2 ∧ ∀ st ∈ s.1, st.Awaits crc32 content

theorem serves_verifying (crc32 : List UInt8 → UInt32) (h : Serves read Holds) :
    Serves (maybeCrcRead crc32 read) (Verifies crc32 Holds) := by
  rintro buf content ⟨check, s⟩ hbuf ⟨hs, hawaits⟩
  obtain ⟨piece, rest, s', hread, rfl, hlength, hend, hs'⟩ := h buf content s hbuf hs
  cases check with
  | none =>
      refine ⟨piece, rest, (none, s'), ?_, rfl, hlength, hend, hs', by simp⟩
      simp only [maybeCrcRead, hread]
  | some st =>
      have hst : st.Awaits crc32 (piece ++ rest) := hawaits st rfl
      by_cases hnil : piece ++ rest = []
      · -- with nothing left to verify the reader below is not asked
        obtain ⟨rfl, rfl⟩ := List.append_eq_nil_iff.mp hnil
        have hdone : st.remaining ≤ 0 := Int.le_of_eq hst.1
        refine ⟨[], [], (some st, s), ?_, rfl, Nat.zero_le _, fun _ => rfl, hs, hawaits⟩
        simp only [maybeCrcRead, crcRead, if_pos hdone]
      · obtain ⟨st', hupdate, hst'⟩ := hst.update hnil
        have hmore : ¬ st.remaining ≤ 0 := by
          have hpos := List.length_pos_of_ne_nil hnil
          rw [hst.1]
          omega
        refine ⟨piece, rest, (some st', s'), ?_, rfl, hlength, hend, hs', ?_⟩
        · simp only [maybeCrcRead, crcRead, if_neg hmore, hread, hupdate]
        · rintro _ ⟨⟩
          exact hst'

theorem awaits_new {crc32 : List UInt8 → UInt32} {content : List UInt8}
    (hlength : content.length < 2 ^ 63) :
    (CrcState.new (UInt64.ofNat content.length) (crc32 content).toUInt64).Awaits crc32 content := by
  have hsize : (UInt64.ofNat content.length).toNat = content.length :=
    UInt64.toNat_ofNat_of_lt' (show content.length < 2 ^ 64 by omega)
  refine ⟨?_, fun _ => rfl⟩
  rw [CrcState.new, asI64, hsize, if_pos hlength]

end

def Visit.Returns (content : Nat → List UInt8) (visit : Visit) : Prop :=
  visit.Continues ∧ delivered visit.records = content visit.fileIndex

namespace OpenBlock

variable (d : OpenBlock)

structure Left (Holds : List UInt8 → Option CrcState × List Nat → Prop) (all rest : List UInt8)
    (st : BlockState) : Prop where
  holds : Holds rest st.chain.inner
  read : delivered st.chain.reads ++ rest = all
  counted : Counted st

variable {d} {Holds : List UInt8 → Option CrcState × List Nat → Prop} {all rest : List UInt8}
  {content : List UInt8} {file : ArchiveEntry} {st : BlockState}

theorem entryCheck_awaits (hverified : file.Verified d.codecs.crc32 content)
    (hlength : content.length < 2 ^ 63) :
    ∀ check ∈ d.entryCheck file, check.Awaits d.codecs.crc32 content := by
  intro check hcheck
  unfold entryCheck at hcheck
  split at hcheck
  · cases hcheck
    have hsize : file.size = UInt64.ofNat content.length := by
      rw [hverified.1, UInt64.ofNat_toNat]
    rw [hsize, ← hverified.2]
    exact awaits_new hlength
  · cases hcheck

theorem readEntry_restored (hserves : Serves (d.stack.read d.codecs) Holds)
    (hverified : file.Verified d.codecs.crc32 content) (hlength : content.length < 2 ^ 63)
    (hrounds : content.length < d.codecs.rounds) (hleft : Left Holds all (content ++ rest) st) :
    ∃ records check remain chain,
      d.readEntry file st = (some (.ok content), records, check, remain, chain) ∧
        Holds rest chain.inner ∧ delivered chain.reads = delivered st.chain.reads ++ content := by
  have hentry := serves_verifying d.codecs.crc32 ((serves_faultRead hserves all).bounded rest)
  have hstart : Verifies d.codecs.crc32 (fun bytes t => t.1 = bytes.length ∧
      Holds (bytes ++ rest) t.2.inner ∧ delivered t.2.reads ++ (bytes ++ rest) = all) content
        (d.entryCheck file, file.size.toNat, st.chain) :=
    ⟨⟨hverified.1.symm, hleft.holds, hleft.read⟩, entryCheck_awaits hverified hlength⟩
  obtain ⟨records, ⟨check, remain, chain⟩, hrun, ⟨-, hholds, hread⟩, -⟩ :=
    hentry.readToEnd hstart hrounds []
  have hall : delivered chain.reads ++ rest = delivered st.chain.reads ++ content ++ rest := by
    rw [List.append_assoc, hleft.read]
    exact hread
  exact ⟨records, check, remain, chain, hrun, hholds, List.append_cancel_right hall⟩

theorem not_mismatches_restored
    (hengaged : d.folding = true → d.codecs.engaged d.stack.decoder = true)
    (hfolds : d.codecs.FoldsPieces) (hverified : file.Verified d.codecs.crc32 content)
    (hcounted : Counted st) {chain : FaultState (Option CrcState × List Nat)}
    (hread : delivered chain.reads = delivered st.chain.reads ++ content) :
    ¬ d.Mismatches file { st with chain } := by
  intro hmismatch
  obtain ⟨crc, hfolded, hcrc⟩ := (Option.any_eq_true _ _).mp hmismatch
  unfold foldedEntry at hfolded
  split at hfolded
  · rename_i hfolding
    have hsize : file.size.toNat = content.length := hverified.1.symm
    have hfits : st.unpackedOffset.toNat + file.size.toNat ≤ (delivered chain.reads).length := by
      rw [hread, List.length_append, hcounted, hsize]
    have hright := hfolds.right _ (hengaged hfolding) _ _ _ _ _ hfits hfolded
    rw [hread, ← hcounted, List.drop_left, hsize, List.take_length] at hright
    rw [hright, hverified.2, bne_self_eq_false, Bool.and_false] at hcrc
    cases hcrc
  · cases hfolded

section

variable (hserves : Serves (d.stack.read d.codecs) Holds)
  (hengaged : d.folding = true → d.codecs.engaged d.stack.decoder = true)
  (hfolds : d.codecs.FoldsPieces) (hall : all.length < 2 ^ 63)
  (hrounds : all.length < d.codecs.rounds)
include hserves hengaged hfolds hall hrounds

theorem visitEntry_restored (i : Nat) (hstream : file.hasStream = true)
    (hverified : file.Verified d.codecs.crc32 content)
    (hleft : Left Holds all (content ++ rest) st) :
    ∃ st', d.visitEntry d.drain i file st = (.ok true, st') ∧ Left Holds all rest st' ∧
      delivered (d.entryVisit d.drain i file st).records = content := by
  have hle : (delivered st.chain.reads).length + content.length ≤ all.length := by
    rw [← hleft.read, List.length_append, List.length_append]
    omega
  by_cases hbytes : file.hasStream = true ∧ file.size > 0
  · obtain ⟨records, check, remain, chain, hrun, hholds, hread⟩ :=
      readEntry_restored hserves hverified (by omega) (by omega) hleft
    have hreads : d.Reads file st content := by
      rw [Reads, if_pos hbytes, hrun]
      exact ⟨rfl, not_mismatches_restored hengaged hfolds hverified hleft.counted hread⟩
    obtain ⟨⟨st', hstep⟩, hdelivered⟩ := d.visitEntry_of_reads (fun _ => true) i hreads
    refine ⟨st', hstep, ?_, hdelivered⟩
    rw [visitEntry, if_pos hbytes] at hstep
    obtain ⟨report, -, hfinish⟩ := d.visitStream_eq_ok hstep
    obtain ⟨hchain, hoffset, -⟩ := d.finishEntry_eq_ok hfinish
    have hafter : st'.chain = chain := by
      rw [hchain, afterCall, callStream_consume, hrun]
      rfl
    refine ⟨hafter ▸ hholds, ?_, ?_⟩
    · rw [hafter, hread, List.append_assoc, hleft.read]
    · have hcounted : (delivered st.chain.reads).length = st.unpackedOffset.toNat := hleft.counted
      have hsize : content.length = file.size.toNat := hverified.1
      change st'.unpackedOffset = st.unpackedOffset + file.size at hoffset
      rw [Counted, hafter, hread, hoffset, List.length_append, UInt64.toNat_add]
      omega
  · have hsize : file.size = 0 := by
      have hzero : ¬ file.size > 0 := fun hpos => hbytes ⟨hstream, hpos⟩
      exact UInt64.le_zero_iff.mp (UInt64.not_lt.mp hzero)
    obtain rfl : content = [] := by
      apply List.eq_nil_of_length_eq_zero
      rw [hverified.1, hsize]
      rfl
    have hreads : d.Reads file st [] := by
      obtain ⟨records, hrun, -⟩ := Codecs.readWhole_empty (Nat.zero_lt_of_lt hrounds)
      rw [Reads, if_neg hbytes, hrun]
    obtain ⟨⟨st', hstep⟩, hdelivered⟩ := d.visitEntry_of_reads (fun _ => true) i hreads
    refine ⟨st', hstep, ?_, hdelivered⟩
    rw [visitEntry, if_neg hbytes] at hstep
    obtain ⟨-, rfl⟩ := Prod.mk.inj hstep
    exact ⟨hleft.holds, hleft.read, hleft.counted⟩

theorem walkEntries_restored {content : Nat → List UInt8} {indices : List Nat}
    (hfiles : ∀ i ∈ indices, ∃ file, d.archive.files[i]? = some file ∧ file.hasStream = true ∧
      file.Verified d.codecs.crc32 (content i))
    (hleft : Left Holds all (indices.flatMap content ++ rest) st) :
    ∃ st' visits, d.walkEntries d.drain indices st = (.ok true, st') ∧ Left Holds all rest st' ∧
      st'.log.visits = st.log.visits ++ visits ∧ ∀ visit ∈ visits, visit.Returns content := by
  induction indices generalizing st with
  | nil => exact ⟨st, [], rfl, hleft, (List.append_nil _).symm, List.forall_mem_nil _⟩
  | cons i indices ih =>
      obtain ⟨⟨file, hfile, hstream, hverified⟩, hrest⟩ := List.forall_mem_cons.mp hfiles
      rw [List.flatMap_cons, List.append_assoc] at hleft
      obtain ⟨st₁, hstep, hleft₁, hrecords⟩ :=
        visitEntry_restored hserves hengaged hfolds hall hrounds i hstream hverified hleft
      obtain ⟨st', visits, hwalk, hleft', hvisits, hreturns⟩ := ih hrest hleft₁
      have hvisit := d.visitEntry_visits d.drain i file st
      have hindex := d.entryVisit_fileIndex d.drain i file st
      have hanswer := d.visitEntry_answer (congrArg Prod.fst hstep)
      rw [hstep] at hvisit
      refine ⟨st', d.entryVisit d.drain i file st :: visits, ?_, hleft', ?_, ?_⟩
      · rw [walkEntries, hfile]
        dsimp only
        rw [hstep]
        exact hwalk
      · rw [hvisits, hvisit, List.append_assoc]
        rfl
      · refine List.forall_mem_cons.mpr ⟨⟨hanswer, ?_⟩, hreturns⟩
        rw [hrecords, hindex]

end

end OpenBlock

namespace ArchiveReader

variable {r : ArchiveReader} {content : Nat → List UInt8}

/-- The block opens on a stream of the contents of its files, and these are what the entries say
they are. -/
structure Restores (r : ArchiveReader) (content : Nat → List UInt8) (b : Nat)
    (opened : OpenBlock) (Holds : List UInt8 → Option CrcState × List Nat → Prop) : Prop where
  opens : (r.blockDecoder b).openBlock = .ok opened
  serves : Serves (opened.stack.read r.codecs) Holds
  holds : Holds ((r.archive.blockRange b).flatMap content) opened.stack.start
  files : ∀ i ∈ r.archive.blockRange b, ∃ file, r.archive.files[i]? = some file ∧
    file.hasStream = true ∧ file.Verified r.codecs.crc32 (content i)
  plain : opened.block.hasCrc = false
  sized : opened.block.getUnpackSize.isOk = true
  counted : ((r.archive.blockRange b).flatMap content).length < 2 ^ 63
  rounds : ((r.archive.blockRange b).flatMap content).length < r.codecs.rounds

theorem Restores.forEachEntries {b : Nat} {opened : OpenBlock}
    {Holds : List UInt8 → Option CrcState × List Nat → Prop}
    (h : r.Restores content b opened Holds) (hfolds : r.codecs.FoldsPieces) (log : WalkLog) :
    ∃ log' visits, (r.blockDecoder b).forEachEntries r.drain log = (.ok true, log') ∧
      log'.visits = log.visits ++ visits ∧ ∀ visit ∈ visits, visit.Returns content := by
  have hsame := (openBlock_eq_ok h.opens).1
  have hcodecs : opened.codecs = r.codecs := congrArg BlockDecoder.codecs hsame
  have harchive : opened.archive = r.archive := congrArg BlockDecoder.archive hsame
  have hrange : List.range' opened.start opened.block.numUnpackSubStreams =
      r.archive.blockRange b := openBlock_range h.opens
  have hengaged : opened.folding = true → opened.codecs.engaged opened.stack.decoder = true := by
    intro hfolding
    rw [hcodecs]
    exact openBlock_engaged h.opens hfolding
  have hleft : OpenBlock.Left Holds ((r.archive.blockRange b).flatMap content)
      ((r.archive.blockRange b).flatMap content ++ []) (opened.initial log) := by
    rw [List.append_nil]
    exact ⟨h.holds, rfl, rfl⟩
  obtain ⟨st', visits, hwalk, -, hvisits, hreturns⟩ :=
    OpenBlock.walkEntries_restored (d := opened) (hcodecs ▸ h.serves) hengaged (hcodecs ▸ hfolds)
      h.counted (hcodecs ▸ h.rounds) (hcodecs ▸ harchive ▸ h.files) hleft
  refine ⟨st'.log, visits, ?_, hvisits, hreturns⟩
  have hchecked : opened.checkFolded st'.chain.reads = .ok true := by
    rw [OpenBlock.checkFolded, h.plain, if_neg (by simp)]
    rfl
  rw [OpenBlock.drain, hcodecs] at hwalk
  rw [BlockDecoder.forEachEntries, h.opens]
  dsimp only
  rw [OpenBlock.walk, hrange, drain, hwalk]
  dsimp only
  rw [hchecked]

end ArchiveReader

end Sevenz
