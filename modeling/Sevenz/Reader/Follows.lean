import Sevenz.Reader.Restored
import Sevenz.Reader.WalkRuns

/-!
# Walks that read as a draining one does

A closure that works on a state of its own makes of an entry with a stream what the draining one
makes of it, as long as its state is in order.  Then its walk is the draining one, up to what it
makes of the entries of no block.
-/

namespace Sevenz

open Lib Relation

/-- While the visits so far are in order, the closure reads an entry with a stream as the draining
one does and goes on after any other, and a visit that returned the content of its file leaves them
in order. -/
structure Callback.Follows (each : Callback) (r : ArchiveReader) (content : Nat → List UInt8)
    (Good : List Visit → Prop) : Prop where
  init : Good []
  streamed : ∀ {visits i file}, Good visits → r.archive.files[i]? = some file →
    file.hasStream = true → ∀ {τ : Type} (read : ReadFn IoError τ) (t : τ),
      (each visits i file).run read t = (r.drain visits i file).run read t
  empty : ∀ {visits i file}, Good visits → r.archive.files[i]? = some file →
    file.hasStream = false → ∃ records,
      (each visits i file).run emptyRead () = (some (.ok true), records, ()) ∧
        delivered records = []
  next : ∀ {visits visit}, Good visits → each.Calls r.archive visits (visits ++ [visit]) →
    visit.Returns content → Good (visits ++ [visit])

section

variable {r : ArchiveReader} {each : Callback} {content : Nat → List UInt8}
  {Good : List Visit → Prop}

theorem OpenBlock.walkEntries_follows {d : OpenBlock} (h : each.Follows r content Good)
    (harchive : d.archive = r.archive) {files : List Nat} {st st' : BlockState}
    {visits : List Visit} (hgood : Good st.log.visits)
    (hstreamed : ∀ i ∈ files, ∃ file, d.archive.files[i]? = some file ∧ file.hasStream = true)
    (hwalk : d.walkEntries r.drain files st = (.ok true, st'))
    (hvisits : st'.log.visits = st.log.visits ++ visits)
    (hreturns : ∀ visit ∈ visits, visit.Returns content) :
    d.walkEntries each files st = (.ok true, st') ∧ Good st'.log.visits := by
  induction files generalizing st visits with
  | nil =>
      cases hwalk
      exact ⟨rfl, hgood⟩
  | cons i files ih =>
      obtain ⟨⟨file, hfile, hstream⟩, hrest⟩ := List.forall_mem_cons.mp hstreamed
      obtain ⟨file', g₁, st₁, hfile', hstep, ⟨rfl, hwalk⟩ | ⟨-, hstop, -⟩⟩ :=
        d.walkEntries_cons hwalk
      · obtain rfl := Option.some.inj (hfile.symm.trans hfile')
        have hsame : d.visitEntry each i file st = (.ok true, st₁) :=
          (d.visitEntry_congr (h.streamed hgood (harchive ▸ hfile) hstream)).trans hstep
        have hadded := d.visitEntry_visits each i file st
        rw [hsame] at hadded
        obtain ⟨rest, happend, -⟩ := d.walkEntries_appends hwalk
        have hsplit : visits = d.entryVisit each i file st :: rest := by
          rw [happend, hadded, List.append_assoc] at hvisits
          exact (List.append_cancel_left hvisits).symm
        rw [hsplit] at hreturns
        obtain ⟨hfirst, hlater⟩ := List.forall_mem_cons.mp hreturns
        have hcall : each.Calls r.archive st.log.visits st₁.log.visits := by
          refine ⟨d.entryVisit each i file st, file, hadded, ?_, ?_⟩
          · rw [d.entryVisit_fileIndex, ← harchive]
            exact hfile
          · rw [d.entryVisit_fileIndex]
            exact d.entryVisit_run each i file st
        have hgood₁ : Good st₁.log.visits := by
          have hnext := h.next hgood (hadded ▸ hcall) hfirst
          rwa [← hadded] at hnext
        obtain ⟨hrun, hgood'⟩ := ih hgood₁ hrest hwalk happend hlater
        refine ⟨?_, hgood'⟩
        rw [walkEntries, hfile]
        dsimp only
        rw [hsame]
        exact hrun
      · cases hstop

namespace ArchiveReader

theorem Restores.forEachEntries_follows {b : Nat} {opened : OpenBlock}
    {Holds : List UInt8 → Option CrcState × List Nat → Prop}
    (hrestores : r.Restores content b opened Holds) (hfolds : r.codecs.FoldsPieces)
    (h : each.Follows r content Good) {log : WalkLog} (hgood : Good log.visits) :
    ∃ log' visits, (r.blockDecoder b).forEachEntries each log = (.ok true, log') ∧
      log'.visits = log.visits ++ visits ∧ (∀ visit ∈ visits, visit.Returns content) ∧
      Good log'.visits := by
  obtain ⟨log', visits, hwalk, hvisits, hreturns⟩ := hrestores.forEachEntries hfolds log
  have hsame := (openBlock_eq_ok hrestores.opens).1
  have harchive : opened.archive = r.archive := congrArg BlockDecoder.archive hsame
  unfold BlockDecoder.forEachEntries at hwalk ⊢
  rw [hrestores.opens] at hwalk ⊢
  dsimp only at hwalk ⊢
  rw [OpenBlock.walk, openBlock_range hrestores.opens] at hwalk ⊢
  have hstreamed : ∀ i ∈ r.archive.blockRange b, ∃ file,
      opened.archive.files[i]? = some file ∧ file.hasStream = true := by
    intro i hi
    obtain ⟨file, hfile, hstream, -⟩ := hrestores.files i hi
    exact ⟨file, harchive ▸ hfile, hstream⟩
  split at hwalk
  · rename_i st hentries
    obtain ⟨hchecked, hlog⟩ := Prod.mk.inj hwalk
    subst hlog
    have hstart : Good (opened.initial log).log.visits := hgood
    obtain ⟨hrun, hgood'⟩ :=
      OpenBlock.walkEntries_follows h harchive hstart hstreamed hentries hvisits hreturns
    refine ⟨st.log, visits, ?_, hvisits, hreturns, hgood'⟩
    have hrange : (r.blockDecoder b).archive.blockRange (r.blockDecoder b).blockIndex =
      r.archive.blockRange b := rfl
    rw [hrange, hrun]
    exact Prod.ext hchecked rfl
  · rename_i answer st hne hentries
    obtain ⟨rfl, -⟩ := Prod.mk.inj hwalk
    exact (hne rfl).elim

theorem walkBlocks_follows (hfolds : r.codecs.FoldsPieces) (h : each.Follows r content Good)
    {blocks : List Nat}
    (hblocks : ∀ b ∈ blocks, ∃ opened Holds, r.Restores content b opened Holds) {log : WalkLog}
    (hgood : Good log.visits) :
    ∃ log' visits, r.walkBlocks each blocks log = (.ok (), log') ∧
      log'.visits = log.visits ++ visits ∧ (∀ visit ∈ visits, visit.Returns content) ∧
      Good log'.visits := by
  induction blocks generalizing log with
  | nil => exact ⟨log, [], rfl, (List.append_nil _).symm, List.forall_mem_nil _, hgood⟩
  | cons b blocks ih =>
      obtain ⟨⟨opened, Holds, hrestores⟩, hrest⟩ := List.forall_mem_cons.mp hblocks
      obtain ⟨log₁, visits, hblock, hvisits, hreturns, hgood₁⟩ :=
        hrestores.forEachEntries_follows hfolds h hgood
      obtain ⟨size, hsize⟩ := Result.isOk_iff.mp hrestores.sized
      have hget : r.archive.blocks[b]? = some opened.block :=
        (openBlock_eq_ok hrestores.opens).2.1
      obtain ⟨log₂, hcomplete⟩ : ∃ log₂, r.completeBlock b true log₁ = .ok log₂ := by
        unfold completeBlock
        rw [if_pos rfl, Result.bind_of_ok (Result.index_eq_ok.mpr hget),
          Result.bind_of_ok hsize]
        exact ⟨_, rfl⟩
      have hsame := r.completeBlock_visits hcomplete
      obtain ⟨log', visits', hwalk, hvisits', hreturns', hgood'⟩ := ih hrest (hsame ▸ hgood₁)
      refine ⟨log', visits ++ visits', ?_, ?_,
        List.forall_mem_append.mpr ⟨hreturns, hreturns'⟩, hgood'⟩
      · rw [walkBlocks, hblock]
        dsimp only
        rw [hcomplete]
        exact hwalk
      · rw [hvisits', hsame, hvisits, List.append_assoc]

theorem walkEmptyFiles_follows (h : each.Follows r content Good) (hmapped : r.archive.Mapped)
    (hempty : ∀ i, r.archive.streamMap.fileBlockIndex[i]? = some none → content i = [])
    {files : List Nat} (hfiles : ∀ i ∈ files, i < r.archive.files.length) {log : WalkLog}
    (hgood : Good log.visits) :
    ∃ log' visits, r.walkEmptyFiles each files log = (.ok (), log') ∧
      log'.visits = log.visits ++ visits ∧ (∀ visit ∈ visits, visit.Returns content) ∧
      Good log'.visits := by
  induction files generalizing log with
  | nil => exact ⟨log, [], rfl, (List.append_nil _).symm, List.forall_mem_nil _, hgood⟩
  | cons i files ih =>
      obtain ⟨hi, hrest⟩ := List.forall_mem_cons.mp hfiles
      have hfile := List.getElem?_eq_getElem hi
      obtain ⟨block, hblock⟩ : ∃ block, r.archive.streamMap.fileBlockIndex[i]? = some block :=
        ⟨_, List.getElem?_eq_getElem (hmapped.fileBlock.symm ▸ hi)⟩
      rw [walkEmptyFiles, hfile, hblock]
      cases block with
      | none =>
          have hstream : r.archive.files[i].hasStream = false := by
            cases hstream : r.archive.files[i].hasStream with
            | false => rfl
            | true =>
                have hsome := hmapped.streamed.get hi (hmapped.fileBlock ▸ hi) hstream
                obtain ⟨hlt, hnone⟩ := List.getElem?_eq_some_iff.mp hblock
                rw [List.get_eq_getElem, hnone] at hsome
                cases hsome
          obtain ⟨records, hrun, hdelivered⟩ := h.empty hgood hfile hstream
          have hanswer : (emptyVisit each none i r.archive.files[i] log).answer =
              some (.ok true) := by
            rw [emptyVisit, hrun]
          have hvisit : visitEmpty each none i r.archive.files[i] log = (.ok true, { log with
              visits := log.visits ++ [emptyVisit each none i r.archive.files[i] log] }) := by
            rw [visitEmpty, hanswer]
            rfl
          have hreturns : (emptyVisit each none i r.archive.files[i] log).Returns content := by
            refine ⟨hanswer, ?_⟩
            rw [emptyVisit, hrun]
            exact hdelivered.trans (hempty i hblock).symm
          have hgood₁ := h.next hgood ⟨_, _, rfl, hfile, _, emptyRead, (), _, rfl⟩ hreturns
          let log₁ : WalkLog := { log with
            visits := log.visits ++ [emptyVisit each none i r.archive.files[i] log] }
          obtain ⟨log', visits, hwalk, hvisits, hreturns', hgood'⟩ := @ih hrest log₁ hgood₁
          refine ⟨log', _ :: visits, ?_, ?_, List.forall_mem_cons.mpr ⟨hreturns, hreturns'⟩, hgood'⟩
          · dsimp only
            rw [hvisit]
            exact hwalk
          · rw [hvisits, List.append_assoc]
            rfl
      | some b => exact ih hrest hgood

/-- The walk over an archive whose blocks are all restored hands out every entry with its content,
and leaves the visits in order. -/
theorem forEachEntries_follows (hfolds : r.codecs.FoldsPieces)
    (h : each.Follows r content Good) (hmapped : r.archive.Mapped)
    (hblocks : ∀ b < r.archive.blocks.length, ∃ opened Holds, r.Restores content b opened Holds)
    (hempty : ∀ i, r.archive.streamMap.fileBlockIndex[i]? = some none → content i = []) :
    ∃ log, r.forEachEntries each = (.ok (), log) ∧
      visitedFiles log.visits = walkOrder r.archive ∧
      (∀ visit ∈ log.visits, visit.Returns content) ∧ Good log.visits := by
  obtain ⟨log₁, visits, hwalk, hvisits, hreturns, hgood₁⟩ :=
    @walkBlocks_follows r each content Good hfolds h _
      (fun b hb => hblocks b (List.mem_range.mp hb)) {} h.init
  obtain ⟨log, rest, hrest, hvisits', hreturns', hgood⟩ :=
    walkEmptyFiles_follows h hmapped hempty (fun i hi => List.mem_range.mp hi) hgood₁
  have hrun : r.forEachEntries each = (.ok (), log) := by
    rw [forEachEntries, hwalk]
    exact hrest
  have hall : ∀ visit ∈ log.visits, visit.Returns content := by
    rw [hvisits', hvisits, List.nil_append]
    exact List.forall_mem_append.mpr ⟨hreturns, hreturns'⟩
  exact ⟨log, hrun, r.forEachEntries_visitedFiles hrun fun visit hvisit => (hall visit hvisit).1,
    hall, hgood⟩

theorem drain_follows (r : ArchiveReader) (content : Nat → List UInt8)
    (hrounds : 0 < r.codecs.rounds) : r.drain.Follows r content fun _ => True where
  init := trivial
  streamed _ _ _ _ _ _ := rfl
  empty {visits i file} _ _ _ := by
    obtain ⟨records, hrun, hdelivered⟩ := Codecs.readWhole_empty hrounds
    refine ⟨records, ?_, hdelivered⟩
    rw [drain, Codecs.run_consume, hrun]
    rfl
  next _ _ _ := trivial

end ArchiveReader

end

end Sevenz
