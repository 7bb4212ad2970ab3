import Sevenz.Reader.Integrity

/-!
# Walks that read every entry

What a walk makes of an entry that is read to its end, and how far such a walk gets.
-/

namespace Sevenz

open Lib

namespace Codecs

variable (codecs : Codecs)

/-- The loop of `read_to_end`: the data, or the error that ended it, unless the reads run out. -/
def readRest (rounds : Nat) (data : List UInt8) :
    Script IoError (Option (Except IoError (List UInt8))) :=
  Script.readToEnd retryInterrupted codecs.bufferLength (fun e => some (.error e))
    (fun data => some (.ok data)) none rounds data

def readWhole : Script IoError (Option (Except IoError (List UInt8))) :=
  codecs.readRest codecs.rounds []

/-- The closure that reads every entry to its end, and goes on after those it is told to. -/
def consume (goOn : Nat → Bool) : Callback := fun _ i _ =>
  Script.readToEnd retryInterrupted codecs.bufferLength (fun e => some (.error (Error.ofIo e)))
    (fun _ => some (.ok (goOn i))) none codecs.rounds []

def consumed (goOn : Bool) :
    Option (Except IoError (List UInt8)) → Option (Except Error Bool)
  | none => none
  | some (.error e) => some (.error (Error.ofIo e))
  | some (.ok _) => some (.ok goOn)

end Codecs

theorem run_readToEnd_map {σ ρ ρ' : Type} {read : ReadFn IoError σ} (f : ρ → ρ')
    (retry : IoError → Bool) (bufs : Nat → Nat) (onError : IoError → ρ) (onEnd : List UInt8 → ρ)
    (outOfRounds : ρ) (rounds : Nat) (data : List UInt8) (s : σ) :
    (Script.readToEnd retry bufs (fun e => f (onError e)) (fun data => f (onEnd data))
        (f outOfRounds) rounds data).run read s =
      Prod.map f id
        ((Script.readToEnd retry bufs onError onEnd outOfRounds rounds data).run read s) := by
  induction rounds generalizing data s with
  | zero => rfl
  | succ rounds ih =>
      rw [Script.readToEnd, Script.run, Script.readToEnd, Script.run]
      rcases read (bufs rounds + 1) s with ⟨answer, s₁⟩
      rcases answer with e | _ | ⟨byte, bytes⟩
      · dsimp only
        split
        · simp only [ih]
          rfl
        · rfl
      · rfl
      · simp only [ih]
        rfl

theorem Codecs.run_consume {σ : Type} (codecs : Codecs) (goOn : Nat → Bool) (visits : List Visit)
    (i : Nat) (file : ArchiveEntry) (read : ReadFn IoError σ) (s : σ) :
    (codecs.consume goOn visits i file).run read s =
      Prod.map (consumed (goOn i)) id (codecs.readWhole.run read s) :=
  run_readToEnd_map (consumed (goOn i)) retryInterrupted codecs.bufferLength
    (fun e => some (.error e)) (fun data => some (.ok data)) none codecs.rounds [] s

theorem Codecs.readWhole_delivered {σ : Type} {codecs : Codecs} {read : ReadFn IoError σ}
    {s s' : σ} {data : List UInt8} {records : List (ReadRecord IoError)}
    (h : codecs.readWhole.run read s = (some (.ok data), records, s')) :
    delivered records = data := by
  rcases Script.readToEnd_run h with ⟨-, hdata, -⟩ | ⟨e, herror⟩ | hnone
  · cases hdata
    rfl
  · cases herror
  · cases hnone

namespace OpenBlock

variable (d : OpenBlock)

def readEntry (file : ArchiveEntry) (st : BlockState) :
    Option (Except IoError (List UInt8)) × List (ReadRecord IoError) ×
      Option CrcState × Nat × FaultState (Option CrcState × List Nat) :=
  d.codecs.readWhole.run d.entryRead (d.entryCheck file, file.size.toNat, st.chain)

abbrev Mismatches (file : ArchiveEntry) (st : BlockState) : Prop :=
  (d.foldedEntry file st).any (fun crc => file.hasCrc && crc.toUInt64 != file.crc) = true

def Reads (file : ArchiveEntry) (st : BlockState) (data : List UInt8) : Prop :=
  if file.hasStream ∧ file.size > 0 then
    (d.readEntry file st).1 = some (.ok data) ∧
      ¬ d.Mismatches file { st with chain := (d.readEntry file st).2.2.2.2 }
  else (d.codecs.readWhole.run emptyRead ()).1 = some (.ok data)

theorem callStream_consume (goOn : Nat → Bool) (i : Nat) (file : ArchiveEntry)
    (st : BlockState) :
    d.callStream (d.codecs.consume goOn) i file st =
      Prod.map (Codecs.consumed (goOn i)) id (d.readEntry file st) :=
  d.codecs.run_consume goOn _ i file _ _

theorem mismatches_afterCall (goOn : Nat → Bool) (i : Nat) (file : ArchiveEntry)
    (st : BlockState) :
    d.Mismatches file (d.afterCall (d.codecs.consume goOn) i file st) ↔
      d.Mismatches file { st with chain := (d.readEntry file st).2.2.2.2 } := by
  unfold Mismatches foldedEntry afterCall
  rw [callStream_consume]
  rfl

theorem reads_of_visitEntry {goOn : Nat → Bool} {i : Nat} {file : ArchiveEntry}
    {st st' : BlockState} {g : Bool}
    (h : d.visitEntry (d.codecs.consume goOn) i file st = (.ok g, st')) :
    g = goOn i ∧ ∃ data, d.Reads file st data ∧
      delivered (d.entryVisit (d.codecs.consume goOn) i file st).records = data := by
  unfold visitEntry at h
  unfold Reads entryVisit
  by_cases hbytes : file.hasStream ∧ file.size > 0
  · rw [if_pos hbytes] at h
    simp only [if_pos hbytes]
    unfold visitStream at h
    unfold streamVisit
    rw [callStream_consume] at h ⊢
    rcases hrun : d.readEntry file st with ⟨outcome, records, check, remain, chain⟩
    rw [hrun] at h
    match outcome with
    | none => cases h
    | some (.error e) => cases h
    | some (.ok data) =>
        obtain rfl := d.finishEntry_answer (congrArg Prod.fst h)
        refine ⟨rfl, data, ⟨rfl, fun hmismatch => ?_⟩, Codecs.readWhole_delivered hrun⟩
        have hafter := d.mismatches_afterCall goOn i file st
        rw [hrun] at hafter
        change d.finishEntry i file _ _ _ = _ at h
        rw [finishEntry, if_pos (hafter.mpr hmismatch)] at h
        cases h
  · rw [if_neg hbytes] at h
    simp only [if_neg hbytes]
    unfold visitEmpty emptyVisit at h
    unfold emptyVisit
    rw [Codecs.run_consume] at h ⊢
    rcases hrun : d.codecs.readWhole.run emptyRead () with ⟨outcome, records, s⟩
    rw [hrun] at h
    match outcome with
    | none => cases h
    | some (.error e) => cases h
    | some (.ok data) =>
        cases h
        exact ⟨rfl, data, rfl, Codecs.readWhole_delivered hrun⟩

theorem visitEntry_of_reads (goOn : Nat → Bool) (i : Nat) {file : ArchiveEntry}
    {st : BlockState} {data : List UInt8} (h : d.Reads file st data) :
    (∃ st', d.visitEntry (d.codecs.consume goOn) i file st = (.ok (goOn i), st')) ∧
      delivered (d.entryVisit (d.codecs.consume goOn) i file st).records = data := by
  unfold Reads at h
  unfold visitEntry entryVisit
  by_cases hbytes : file.hasStream ∧ file.size > 0
  · rw [if_pos hbytes] at h
    rw [if_pos hbytes, if_pos hbytes]
    obtain ⟨hok, hmatch⟩ := h
    unfold visitStream streamVisit
    have hafter := d.mismatches_afterCall goOn i file st
    rw [callStream_consume]
    rcases hrun : d.readEntry file st with ⟨outcome, records, check, remain, chain⟩
    rw [hrun] at hok hmatch hafter
    obtain rfl : outcome = some (.ok data) := hok
    refine ⟨?_, Codecs.readWhole_delivered hrun⟩
    change ∃ st', d.finishEntry i file _ _ _ = _
    rw [finishEntry, if_neg fun hmismatch => hmatch (hafter.mp hmismatch)]
    exact ⟨_, rfl⟩
  · rw [if_neg hbytes] at h
    rw [if_neg hbytes, if_neg hbytes]
    unfold visitEmpty emptyVisit
    rw [Codecs.run_consume]
    rcases hrun : d.codecs.readWhole.run emptyRead () with ⟨outcome, records, s⟩
    rw [hrun] at h
    obtain rfl : outcome = some (.ok data) := h
    exact ⟨⟨_, rfl⟩, Codecs.readWhole_delivered hrun⟩

theorem walkEntries_append (each : Callback) (files rest : List Nat) (st : BlockState) :
    d.walkEntries each (files ++ rest) st =
      match d.walkEntries each files st with
      | (.ok true, st) => d.walkEntries each rest st
      | stopped => stopped := by
  induction files generalizing st with
  | nil => rfl
  | cons i files ih =>
      rw [List.cons_append, walkEntries, walkEntries]
      cases d.archive.files[i]? with
      | none => rfl
      | some file =>
          dsimp only
          rcases d.visitEntry each i file st with ⟨answer, st₁⟩
          rcases answer with e | _ | _
          · rfl
          · rfl
          · exact ih st₁

theorem visitEntry_congr {each each' : Callback} {i : Nat} {file : ArchiveEntry} {st : BlockState}
    (h : ∀ {τ : Type} (read : ReadFn IoError τ) (t : τ),
      (each st.log.visits i file).run read t = (each' st.log.visits i file).run read t) :
    d.visitEntry each i file st = d.visitEntry each' i file st := by
  have hcall : d.callStream each i file st = d.callStream each' i file st := h _ _
  have hempty : emptyVisit each (some d.blockIndex) i file st.log =
      emptyVisit each' (some d.blockIndex) i file st.log := by
    rw [emptyVisit, emptyVisit, h]
  have hvisit : d.streamVisit each i file st = d.streamVisit each' i file st := by
    rw [streamVisit, streamVisit, hcall]
  unfold visitEntry visitStream visitEmpty afterCall
  rw [hcall, hempty, hvisit]

theorem walkEntries_congr {each each' : Callback} {files : List Nat}
    (h : ∀ i ∈ files, ∀ visits file, each visits i file = each' visits i file) (st : BlockState) :
    d.walkEntries each files st = d.walkEntries each' files st := by
  induction files generalizing st with
  | nil => rfl
  | cons i files ih =>
      obtain ⟨hfirst, hrest⟩ := List.forall_mem_cons.mp h
      rw [walkEntries, walkEntries]
      cases d.archive.files[i]? with
      | none => rfl
      | some file =>
          have hstep : d.visitEntry each i file st = d.visitEntry each' i file st := by
            apply visitEntry_congr
            intro τ read t
            rw [hfirst]
          dsimp only
          rw [hstep]
          rcases d.visitEntry each' i file st with ⟨answer, st₁⟩
          rcases answer with e | _ | _
          · rfl
          · rfl
          · exact ih hrest st₁

abbrev drain : Callback := d.codecs.consume fun _ => true

/-- The walk that reads every entry gets past those before this one, and reads it. -/
def Arrives (before : List Nat) (target : Nat) (data : List UInt8) : Prop :=
  ∃ st file, d.walkEntries d.drain before (d.initial {}) = (.ok true, st) ∧
    d.archive.files[target]? = some file ∧ d.Reads file st data

theorem walkEntries_fileIndex {each : Callback} {files : List Nat} {st st' : BlockState}
    {g : Bool} (h : d.walkEntries each files st = (.ok g, st')) {target : Nat}
    (hnot : target ∉ files) :
    ∃ visits, st'.log.visits = st.log.visits ++ visits ∧
      ∀ visit ∈ visits, visit.fileIndex ≠ target := by
  obtain ⟨visits, happend, hvisits⟩ := d.walkEntries_appends h
  refine ⟨visits, happend, fun visit hvisit heq => ?_⟩
  obtain ⟨i, hi, file, st₁, g₁, -, rfl, -⟩ := hvisits visit hvisit
  rw [d.entryVisit_fileIndex] at heq
  exact hnot (heq ▸ hi)

theorem walkEntries_drain {goOn : Nat → Bool} {files : List Nat}
    (hgo : ∀ i ∈ files, goOn i = true) (st : BlockState) :
    d.walkEntries (d.codecs.consume goOn) files st = d.walkEntries d.drain files st := by
  apply d.walkEntries_congr
  intro i hi visits file
  rw [Codecs.consume, hgo i hi, drain, Codecs.consume]

theorem walkEntries_goesOn {files : List Nat} {st st' : BlockState} {g : Bool}
    (h : d.walkEntries d.drain files st = (.ok g, st')) : g = true := by
  induction files generalizing st with
  | nil =>
      cases h
      rfl
  | cons i files ih =>
      obtain ⟨file, g₁, st₁, -, hstep, hrest⟩ := d.walkEntries_cons h
      obtain ⟨rfl, -⟩ := d.reads_of_visitEntry hstep
      cases hrest with
      | inl hon => exact ih hon.2
      | inr hstopped => cases hstopped.1

theorem walkEntries_singleton (each : Callback) (i : Nat) (st : BlockState) :
    d.walkEntries each [i] st =
      match d.archive.files[i]? with
      | none => (.error (.panic .indexOutOfBounds), st)
      | some file => d.visitEntry each i file st := by
  rw [walkEntries]
  cases d.archive.files[i]? with
  | none => rfl
  | some file =>
      dsimp only
      rcases d.visitEntry each i file st with ⟨answer, st₁⟩
      match answer with
      | .ok true => rfl
      | .ok false => rfl
      | .error _ => rfl

theorem dataOf_concat {log : WalkLog} {visits : List Visit} {visit : Visit} {target : Nat}
    (hlog : log.visits = visits ++ [visit]) (hbefore : ∀ v ∈ visits, v.fileIndex ≠ target)
    (hvisit : visit.fileIndex = target) :
    ArchiveReader.dataOf target log = some (delivered visit.records) := by
  have hnone : visits.find? (fun v => v.fileIndex == target) = none := by
    rw [List.find?_eq_none]
    intro v hv
    simpa using hbefore v hv
  rw [ArchiveReader.dataOf, hlog, List.find?_append, hnone]
  simp [hvisit]

theorem walkEntries_target {goOn : Nat → Bool} {before : List Nat} {target : Nat}
    (hgo : ∀ i ∈ before, goOn i = true) (hnot : target ∉ before) {g : Bool} {st' : BlockState}
    (h : d.walkEntries (d.codecs.consume goOn) (before ++ [target]) (d.initial {}) =
      (.ok g, st')) :
    g = goOn target ∧ ∃ data, ArchiveReader.dataOf target st'.log = some data ∧
      d.Arrives before target data := by
  rw [walkEntries_append, walkEntries_drain d hgo] at h
  rcases hbefore : d.walkEntries d.drain before (d.initial {}) with ⟨answer, st⟩
  rw [hbefore] at h
  obtain rfl : answer = .ok true := by
    match answer, h with
    | .ok true, _ => rfl
    | .ok false, _ => rw [d.walkEntries_goesOn hbefore]
  dsimp only at h
  rw [walkEntries_singleton] at h
  cases hfile : d.archive.files[target]? with
  | none =>
      rw [hfile] at h
      cases h
  | some file =>
      rw [hfile] at h
      dsimp only at h
      obtain ⟨hg, data, hreads, hdata⟩ := d.reads_of_visitEntry h
      refine ⟨hg, data, ?_, st, file, hbefore, hfile, hreads⟩
      obtain ⟨visits, happend, hothers⟩ := d.walkEntries_fileIndex hbefore hnot
      have hadded := d.visitEntry_visits (d.codecs.consume goOn) target file st
      rw [h, happend] at hadded
      rw [← hdata]
      exact dataOf_concat hadded hothers (d.entryVisit_fileIndex _ target file st)

theorem Arrives.walkEntries {before : List Nat} {target : Nat} {data : List UInt8}
    (h : d.Arrives before target data) {goOn : Nat → Bool} (hgo : ∀ i ∈ before, goOn i = true)
    (hnot : target ∉ before) :
    ∃ st', d.walkEntries (d.codecs.consume goOn) (before ++ [target]) (d.initial {}) =
        (.ok (goOn target), st') ∧ ArchiveReader.dataOf target st'.log = some data := by
  obtain ⟨st, file, hbefore, hfile, hreads⟩ := h
  obtain ⟨⟨st', hstep⟩, hdata⟩ := d.visitEntry_of_reads goOn target hreads
  refine ⟨st', ?_, ?_⟩
  · rw [walkEntries_append, walkEntries_drain d hgo, hbefore]
    dsimp only
    rw [walkEntries_singleton, hfile]
    exact hstep
  · obtain ⟨visits, happend, hothers⟩ := d.walkEntries_fileIndex hbefore hnot
    have hadded := d.visitEntry_visits (d.codecs.consume goOn) target file st
    rw [hstep, happend] at hadded
    rw [← hdata]
    exact dataOf_concat hadded hothers (d.entryVisit_fileIndex _ target file st)

end OpenBlock

theorem openBlock_range {d : BlockDecoder} {opened : OpenBlock} (h : d.openBlock = .ok opened) :
    List.range' opened.start opened.block.numUnpackSubStreams =
      d.archive.blockRange d.blockIndex := by
  obtain ⟨-, hblock, hstart, -, -⟩ := openBlock_eq_ok h
  rw [Archive.blockRange, subStreamsOf_eq hblock, StreamMap.firstFile,
    List.getD_eq_getElem?_getD, hstart]
  rfl

end Sevenz
