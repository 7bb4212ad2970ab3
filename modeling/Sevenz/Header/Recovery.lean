import Sevenz.Header.Read
import Sevenz.Header.StartHeader

/-!
# Looking for an end header

`try_to_locale_end_header` goes down from the end of a file that has no start header, and takes
the archive of the first position that holds one.
-/

namespace Sevenz

open Lib

section

variable (attempt : StartHeader → Result Archive) (file : List UInt8)

def searchEnd : Nat :=
  if 12 + 1024 * 1024 > file.length then 12 else file.length - 1024 * 1024

def Marked (pos : Nat) : Prop :=
  signatureHeaderSize ≤ pos ∧ (file[pos]? = some kEncodedHeader ∨ file[pos]? = some kHeader)

def Candidate (pos : Nat) : Prop :=
  searchEnd file ≤ pos ∧ pos < file.length - 1 ∧ Marked file pos

def attemptAt (pos : Nat) : Result Archive :=
  attempt
    { nextHeaderOffset := pos - signatureHeaderSize
      nextHeaderSize := file.length - pos
      nextHeaderCrc := 0 }

def YieldsAt (pos : Nat) (archive : Archive) : Prop :=
  Candidate file pos ∧ attemptAt attempt file pos = .ok archive ∧ archive.files ≠ []

def HighestAt (pos : Nat) (archive : Archive) : Prop :=
  YieldsAt attempt file pos archive ∧
    ∀ higher > pos, ∀ other, ¬ YieldsAt attempt file higher other

/-- The search returns the archive of the highest candidate that has one, and fails only where
there is none. -/
structure Recovers : Prop where
  highest : ∀ archive, tryToLocaleEndHeader attempt file = .ok archive ↔
    ∃ pos, HighestAt attempt file pos archive
  fails : (∀ archive, tryToLocaleEndHeader attempt file ≠ .ok archive) →
    ∀ pos archive, ¬ YieldsAt attempt file pos archive

variable {attempt file}

/-- The scan from a position down takes the archive of the first candidate that does not parse to
an empty one. -/
def FoundBelow (attempt : StartHeader → Result Archive) (file : List UInt8) (minPos top : Nat)
    (archive : Archive) : Prop :=
  ∃ pos < top, minPos ≤ pos ∧ Marked file pos ∧ attemptAt attempt file pos = .ok archive ∧
    archive.files ≠ [] ∧ ∀ higher > pos, higher < top → Marked file higher →
      ∃ other, attemptAt attempt file higher = .ok other ∧ other.files = []

theorem foundBelow_succ {minPos top : Nat} {archive : Archive}
    (h : Marked file top → ∃ other, attemptAt attempt file top = .ok other ∧ other.files = []) :
    FoundBelow attempt file minPos (top + 1) archive ↔
      FoundBelow attempt file minPos top archive := by
  constructor
  · rintro ⟨pos, hpos, hmin, hmarked, hok, hfiles, hall⟩
    have hne : pos ≠ top := by
      rintro rfl
      obtain ⟨other, hother, hempty⟩ := h hmarked
      cases hok.symm.trans hother
      exact hfiles hempty
    exact ⟨pos, by omega, hmin, hmarked, hok, hfiles,
      fun higher hgt hlt => hall higher hgt (Nat.lt_succ_of_lt hlt)⟩
  · rintro ⟨pos, hpos, hmin, hmarked, hok, hfiles, hall⟩
    refine ⟨pos, Nat.lt_succ_of_lt hpos, hmin, hmarked, hok, hfiles, fun higher hgt hlt => ?_⟩
    rcases Nat.lt_succ_iff_lt_or_eq.mp hlt with hlt | rfl
    · exact hall higher hgt hlt
    · exact h

theorem scanEndHeader_eq_ok_iff {minPos top : Nat} (htop : top ≤ file.length)
    {archive : Archive} :
    scanEndHeader attempt file minPos top = .ok archive ↔
      FoundBelow attempt file minPos top archive := by
  induction top with
  | zero =>
      constructor
      · rintro ⟨⟩
      · rintro ⟨pos, hpos, -⟩
        exact absurd hpos (Nat.not_lt_zero pos)
  | succ top ih =>
      have hih := ih (Nat.le_of_succ_le htop)
      have hget := List.getElem?_eq_getElem (show top < file.length from htop)
      have hmarked : (file[top] = kEncodedHeader ∨ file[top] = kHeader) ∧
          signatureHeaderSize ≤ top ↔ Marked file top := by
        rw [Marked, hget, Option.some.injEq, Option.some.injEq, and_comm]
      unfold scanEndHeader
      by_cases hdone : top + 1 ≤ minPos
      · rw [if_pos hdone]
        constructor
        · rintro ⟨⟩
        · rintro ⟨pos, hpos, hle, -⟩
          omega
      · rw [if_neg hdone, hget, Result.bind_of_ok (Result.okOr_eq_ok.mpr rfl)]
        by_cases hmark : Marked file top
        · rw [if_pos (hmarked.mpr hmark)]
          have hattempt : attempt
              { nextHeaderOffset := top - signatureHeaderSize
                nextHeaderSize := file.length - top
                nextHeaderCrc := 0 } = attemptAt attempt file top := rfl
          rw [hattempt]
          cases htry : attemptAt attempt file top with
          | error e =>
              -- a candidate that does not parse ends the scan
              constructor
              · rintro ⟨⟩
              · rintro ⟨pos, hpos, -, -, hok, -, hall⟩
                rcases Nat.lt_succ_iff_lt_or_eq.mp hpos with hlt | rfl
                · obtain ⟨other, hother, -⟩ := hall top hlt (Nat.lt_succ_self top) hmark
                  cases htry.symm.trans hother
                · cases htry.symm.trans hok
          | ok result =>
              rw [Result.bind_of_ok rfl]
              by_cases hempty : result.files = []
              · rw [if_pos (by simpa using hempty), hih]
                exact (foundBelow_succ fun _ => ⟨result, htry, hempty⟩).symm
              · rw [if_neg (by simpa using hempty), Result.pure_eq_ok]
                constructor
                · rintro rfl
                  refine ⟨top, Nat.lt_succ_self top, by omega, hmark, htry, hempty, ?_⟩
                  intro higher hgt hlt
                  omega
                · rintro ⟨pos, hpos, -, -, hok, -, hall⟩
                  rcases Nat.lt_succ_iff_lt_or_eq.mp hpos with hlt | rfl
                  · obtain ⟨other, hother, hnone⟩ := hall top hlt (Nat.lt_succ_self top) hmark
                    cases htry.symm.trans hother
                    exact absurd hnone hempty
                  · cases htry.symm.trans hok
                    rfl
        · rw [if_neg (mt hmarked.mp hmark), hih]
          exact (foundBelow_succ fun hno => absurd hno hmark).symm

theorem tryToLocaleEndHeader_eq_ok_iff {archive : Archive} :
    tryToLocaleEndHeader attempt file = .ok archive ↔
      ∃ pos, YieldsAt attempt file pos archive ∧ ∀ higher > pos, Candidate file higher →
        ∃ other, attemptAt attempt file higher = .ok other ∧ other.files = [] := by
  have hscan : tryToLocaleEndHeader attempt file = .ok archive ↔
      FoundBelow attempt file (searchEnd file) (file.length - 1) archive :=
    scanEndHeader_eq_ok_iff (Nat.sub_le file.length 1)
  refine hscan.trans ⟨?_, ?_⟩
  · rintro ⟨pos, hpos, hmin, hmarked, hok, hfiles, hall⟩
    exact ⟨pos, ⟨⟨hmin, hpos, hmarked⟩, hok, hfiles⟩,
      fun higher hgt hcandidate => hall higher hgt hcandidate.2.1 hcandidate.2.2⟩
  · rintro ⟨pos, ⟨⟨hmin, hpos, hmarked⟩, hok, hfiles⟩, hall⟩
    exact ⟨pos, hpos, hmin, hmarked, hok, hfiles, fun higher hgt hlt hmark =>
      hall higher hgt ⟨Nat.le_trans hmin (Nat.le_of_lt hgt), hlt, hmark⟩⟩

theorem YieldsAt.exists_highest {pos : Nat} {archive : Archive}
    (h : YieldsAt attempt file pos archive) : ∃ pos archive, HighestAt attempt file pos archive := by
  obtain ⟨left, hleft⟩ : ∃ left, file.length - pos ≤ left := ⟨_, Nat.le_refl _⟩
  induction left generalizing pos archive with
  | zero =>
      have := h.1.2.1
      omega
  | succ left ih =>
      by_cases hhigher : ∃ higher > pos, ∃ other, YieldsAt attempt file higher other
      · obtain ⟨higher, hgt, other, hother⟩ := hhigher
        have := hother.1.2.1
        exact ih hother (by omega)
      · exact ⟨pos, archive, h, fun higher hgt other hother => hhigher ⟨higher, hgt, other, hother⟩⟩

theorem recovers_iff :
    Recovers attempt file ↔ ∀ pos archive, HighestAt attempt file pos archive →
      ∀ higher > pos, Candidate file higher →
        ∃ other, attemptAt attempt file higher = .ok other := by
  constructor
  · intro h pos archive hhighest higher hgt hcandidate
    obtain ⟨pos', hyields, hall⟩ :=
      tryToLocaleEndHeader_eq_ok_iff.mp ((h.highest archive).mpr ⟨pos, hhighest⟩)
    have hpos : pos' = pos := by
      rcases Nat.lt_trichotomy pos' pos with hlt | heq | hgt'
      · obtain ⟨other, hother, hempty⟩ := hall pos hlt hhighest.1.1
        cases hhighest.1.2.1.symm.trans hother
        exact absurd hempty hhighest.1.2.2
      · exact heq
      · exact absurd hyields (hhighest.2 pos' hgt' archive)
    obtain ⟨other, hother, -⟩ := hall higher (hpos ▸ hgt) hcandidate
    exact ⟨other, hother⟩
  · intro h
    have hfound : ∀ archive, tryToLocaleEndHeader attempt file = .ok archive ↔
        ∃ pos, HighestAt attempt file pos archive := by
      intro archive
      rw [tryToLocaleEndHeader_eq_ok_iff]
      constructor
      · rintro ⟨pos, hyields, hall⟩
        refine ⟨pos, hyields, fun higher hgt other hother => ?_⟩
        obtain ⟨empty, hempty, hnone⟩ := hall higher hgt hother.1
        cases hempty.symm.trans hother.2.1
        exact hother.2.2 hnone
      · rintro ⟨pos, hhighest⟩
        refine ⟨pos, hhighest.1, fun higher hgt hcandidate => ?_⟩
        obtain ⟨other, hother⟩ := h pos archive hhighest higher hgt hcandidate
        refine ⟨other, hother, ?_⟩
        by_contra hfiles
        exact hhighest.2 higher hgt other ⟨hcandidate, hother, hfiles⟩
    refine ⟨hfound, fun hfails pos archive hyields => ?_⟩
    obtain ⟨highest, other, hhighest⟩ := hyields.exists_highest
    exact hfails other ((hfound other).mpr ⟨highest, hhighest⟩)

end

def tryHeader (codecs : Codecs) (limits : ArchiveLimits) (passwordGiven : Bool)
    (file : List UInt8) (startHeader : StartHeader) : Result Archive :=
  initArchive codecs limits passwordGiven file startHeader false

/-- A file without a start header is recovered as its end header describes it exactly if no
candidate above the highest whose header has a file fails to parse. -/
theorem recoversArchive_iff (codecs : Codecs) (limits : ArchiveLimits) (passwordGiven : Bool)
    (file : List UInt8) :
    Recovers (tryHeader codecs limits passwordGiven file) file ↔
      ∀ pos archive, HighestAt (tryHeader codecs limits passwordGiven file) file pos archive →
        ∀ higher > pos, Candidate file higher →
          ∃ other, attemptAt (tryHeader codecs limits passwordGiven file) file higher = .ok other :=
  recovers_iff

def unfinishedFile : List UInt8 :=
  sevenZSignature ++ [0, 4] ++ List.replicate 24 0 ++
    [kHeader, kFilesInfo, 1, kEmptyStream, 1, 0x80, kEnd, kEnd]

/-- The size of the empty-stream bits is taken for a header, and the search ends there. -/
theorem unfinishedFile_unrecovered :
    (∃ archive, YieldsAt (tryHeader (.copying unfinishedFile) {} false unfinishedFile)
        unfinishedFile 32 archive) ∧
      (∀ archive, readWithLimits (.copying unfinishedFile) {} false unfinishedFile ≠ .ok archive) ∧
      ¬ Recovers (tryHeader (.copying unfinishedFile) {} false unfinishedFile) unfinishedFile := by
  have hyields : ∃ archive, YieldsAt (tryHeader (.copying unfinishedFile) {} false unfinishedFile)
      unfinishedFile 32 archive := by
    obtain ⟨archive, hok, hcheck⟩ := Result.exists_of_holds
      (show (attemptAt (tryHeader (.copying unfinishedFile) {} false unfinishedFile)
        unfinishedFile 32).holds (fun archive => !archive.files.isEmpty) = true by decide +kernel)
    exact ⟨archive, by unfold Candidate searchEnd Marked; decide +kernel, hok, by simpa using hcheck⟩
  have hfails : ∀ archive,
      tryToLocaleEndHeader (tryHeader (.copying unfinishedFile) {} false unfinishedFile)
        unfinishedFile ≠ .ok archive := by
    have hnot : (tryToLocaleEndHeader
        (tryHeader (.copying unfinishedFile) {} false unfinishedFile) unfinishedFile).holds
          (fun _ => true) = false := by decide +kernel
    intro archive hok
    rw [hok] at hnot
    cases hnot
  have hread : (readWithLimits (.copying unfinishedFile) {} false unfinishedFile).holds
      (fun _ => true) = false := by decide +kernel
  refine ⟨hyields, fun archive hok => ?_, fun hrecovers => ?_⟩
  · rw [hok] at hread
    cases hread
  · obtain ⟨archive, hyields⟩ := hyields
    exact hrecovers.fails hfails 32 archive hyields

end Sevenz
