import Sevenz.Reader.Integrity
import Mathlib.Logic.Relation

/-!
# The calls of a walk

Whatever comes of a walk, it is one call of the closure after the other.  So what each call
preserves holds when the walk has ended, and where it ended without an error no call failed.
-/

namespace Sevenz

open Lib Relation

def Visit.Answered (visit : Visit) : Prop := ∃ goOn, visit.answer = some (.ok goOn)

namespace Callback

def Calls (each : Callback) (archive : Archive) (visits visits' : List Visit) : Prop :=
  ∃ visit file, visits' = visits ++ [visit] ∧ archive.files[visit.fileIndex]? = some file ∧
    ∃ (τ : Type) (read : ReadFn IoError τ) (t t' : τ),
      (each visits visit.fileIndex file).run read t = (visit.answer, visit.records, t')

/-- Calls that lead from some visits to others, with errors only where the walk failed. -/
structure Walks (each : Callback) (archive : Archive) (ok : Prop)
    (before after : List Visit) : Prop where
  calls : ReflTransGen (each.Calls archive) before after
  answered : ok → ∀ visit ∈ after, visit ∈ before ∨ visit.Answered

theorem fileIndex_lt {each : Callback} {archive : Archive} {visits : List Visit}
    (h : ReflTransGen (each.Calls archive) [] visits) :
    ∀ visit ∈ visits, visit.fileIndex < archive.files.length := by
  induction h with
  | refl => exact List.forall_mem_nil _
  | tail _ hcall ih =>
      obtain ⟨visit, file, rfl, hfile, -⟩ := hcall
      exact List.forall_mem_append.mpr
        ⟨ih, List.forall_mem_singleton.mpr (List.getElem?_eq_some_iff.mp hfile).1⟩

namespace Walks

variable {each : Callback} {archive : Archive} {ok ok' : Prop} {before middle after : List Visit}

theorem refl (ok : Prop) (visits : List Visit) : each.Walks archive ok visits visits :=
  ⟨.refl, fun _ _ hvisit => .inl hvisit⟩

theorem trans (h : each.Walks archive ok before middle) (h' : each.Walks archive ok' middle after)
    (hok : ok' → ok) : each.Walks archive ok' before after where
  calls := h.calls.trans h'.calls
  answered hdone visit hvisit :=
    (h'.answered hdone visit hvisit).elim (h.answered (hok hdone) visit) .inr

theorem mono (h : each.Walks archive ok before after) (hok : ok' → ok) :
    each.Walks archive ok' before after :=
  ⟨h.calls, fun hdone => h.answered (hok hdone)⟩

theorem single {visit : Visit} {file : ArchiveEntry} {i : Nat} (hindex : visit.fileIndex = i)
    (hfile : archive.files[i]? = some file)
    (hrun : ∃ (τ : Type) (read : ReadFn IoError τ) (t t' : τ),
      (each before i file).run read t = (visit.answer, visit.records, t'))
    (hanswer : ok → visit.Answered) : each.Walks archive ok before (before ++ [visit]) := by
  subst hindex
  refine ⟨.single ⟨visit, file, rfl, hfile, hrun⟩, fun hdone other hmem => ?_⟩
  rcases List.mem_append.mp hmem with hbefore | hnew
  · exact .inl hbefore
  · rw [List.mem_singleton.mp hnew]
    exact .inr (hanswer hdone)

end Walks

end Callback

theorem Result.isOk_iff {α : Type} {result : Result α} :
    result.isOk = true ↔ ∃ a, result = .ok a := by
  cases result <;> simp [Except.isOk, Except.toBool]

theorem visitEmpty_walks {each : Callback} {archive : Archive} {i : Nat} {file : ArchiveEntry}
    (hfile : archive.files[i]? = some file) (blockIndex : Option Nat) (log : WalkLog) :
    each.Walks archive ((visitEmpty each blockIndex i file log).1.isOk = true) log.visits
      (visitEmpty each blockIndex i file log).2.visits := by
  have hindex : (emptyVisit each blockIndex i file log).fileIndex = i := rfl
  refine .single hindex hfile ⟨_, emptyRead, (), _, rfl⟩ fun hok => ?_
  obtain ⟨goOn, hanswer⟩ := Result.isOk_iff.mp hok
  exact ⟨goOn, answerResult_eq_ok.mp hanswer⟩

namespace OpenBlock

variable (d : OpenBlock) (each : Callback)

theorem visitEntry_walks {i : Nat} {file : ArchiveEntry}
    (hfile : d.archive.files[i]? = some file) (st : BlockState) :
    each.Walks d.archive ((d.visitEntry each i file st).1.isOk = true) st.log.visits
      (d.visitEntry each i file st).2.log.visits := by
  rw [d.visitEntry_visits]
  refine .single (d.entryVisit_fileIndex each i file st) hfile (d.entryVisit_run each i file st)
    fun hok => ?_
  obtain ⟨goOn, hanswer⟩ := Result.isOk_iff.mp hok
  exact ⟨goOn, d.visitEntry_answer hanswer⟩

theorem walkEntries_walks (files : List Nat) (st : BlockState) :
    each.Walks d.archive ((d.walkEntries each files st).1.isOk = true) st.log.visits
      (d.walkEntries each files st).2.log.visits := by
  induction files generalizing st with
  | nil => exact .refl _ _
  | cons i files ih =>
      rw [walkEntries]
      split
      · exact .refl _ _
      · rename_i file hfile
        have hstep := d.visitEntry_walks each hfile st
        split
        · rename_i st₁ hvisit
          rw [hvisit] at hstep
          exact hstep.trans (ih st₁) fun _ => rfl
        · rename_i answer st₁ hne hvisit
          rw [hvisit] at hstep
          exact hstep

theorem walk_walks (log : WalkLog) :
    each.Walks d.archive ((d.walk each log).1.isOk = true) log.visits
      (d.walk each log).2.visits := by
  have hwalk := d.walkEntries_walks each (List.range' d.start d.block.numUnpackSubStreams)
    (d.initial log)
  rw [walk]
  split
  · rename_i st hrun
    rw [hrun] at hwalk
    exact hwalk.mono fun _ => rfl
  · rename_i answer st hne hrun
    rw [hrun] at hwalk
    exact hwalk

end OpenBlock

theorem BlockDecoder.forEachEntries_walks (d : BlockDecoder) (each : Callback) (log : WalkLog) :
    each.Walks d.archive ((d.forEachEntries each log).1.isOk = true) log.visits
      (d.forEachEntries each log).2.visits := by
  unfold BlockDecoder.forEachEntries
  split
  · exact .refl _ _
  · rename_i opened hopen
    obtain ⟨rfl, -⟩ := openBlock_eq_ok hopen
    exact opened.walk_walks each log

namespace ArchiveReader

variable (r : ArchiveReader) (each : Callback)

theorem walkBlocks_walks (blocks : List Nat) (log : WalkLog) :
    each.Walks r.archive ((r.walkBlocks each blocks log).1.isOk = true) log.visits
      (r.walkBlocks each blocks log).2.visits := by
  induction blocks generalizing log with
  | nil => exact .refl _ _
  | cons b blocks ih =>
      have hblock := (r.blockDecoder b).forEachEntries_walks each log
      rw [walkBlocks]
      split
      · rename_i e log₁ hwalk
        rw [hwalk] at hblock
        exact hblock
      · rename_i finished log₁ hwalk
        rw [hwalk] at hblock
        split
        · exact hblock.mono fun _ => rfl
        · rename_i log₂ hcomplete
          have hrest := ih log₂
          rw [r.completeBlock_visits hcomplete] at hrest
          exact Callback.Walks.trans hblock hrest fun _ => rfl

theorem walkEmptyFiles_walks (files : List Nat) (log : WalkLog) :
    each.Walks r.archive ((r.walkEmptyFiles each files log).1.isOk = true) log.visits
      (r.walkEmptyFiles each files log).2.visits := by
  induction files generalizing log with
  | nil => exact .refl _ _
  | cons i files ih =>
      rw [walkEmptyFiles]
      split
      · rename_i file hblock hfile
        have hstep := @visitEmpty_walks each r.archive i file hfile none log
        split
        · rename_i log₁ hvisit
          rw [hvisit] at hstep
          exact hstep.trans (ih log₁) fun _ => rfl
        · rename_i log₁ hvisit
          rw [hvisit] at hstep
          exact hstep.mono fun _ => rfl
        · rename_i e log₁ hvisit
          rw [hvisit] at hstep
          exact hstep
      · exact ih log
      · exact .refl _ _

theorem forEachEntries_walks :
    each.Walks r.archive ((r.forEachEntries each).1.isOk = true) []
      (r.forEachEntries each).2.visits := by
  have hblocks := r.walkBlocks_walks each (List.range r.archive.blocks.length) {}
  rw [forEachEntries]
  split
  · rename_i e log hwalk
    rw [hwalk] at hblocks
    exact hblocks
  · rename_i log hwalk
    rw [hwalk] at hblocks
    exact Callback.Walks.trans hblocks (r.walkEmptyFiles_walks each _ log) fun _ => rfl

end ArchiveReader

end Sevenz
