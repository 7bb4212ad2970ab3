import Sevenz.Extract.ExtractInRoot

/-!
# What an extraction does to the directory

However an extraction ends, links below the root are as they were and were not followed,
directories are still there, and nothing changed but at the paths the entries name and on the way
to them.  Where it succeeds, the tree is the old one with the entries of the walk put into it, one
over the other.
-/

namespace Sevenz

open Lib Relation

def ArchiveEntry.target (entry : ArchiveEntry) : Option (PathBuf × Bool) :=
  match safeJoin .unix [] entry.name with
  | .ok path => some (path, entry.isDirectory)
  | .error _ => none

def Archive.targets (archive : Archive) : List (PathBuf × Bool) :=
  archive.files.filterMap ArchiveEntry.target

def extractionTargets (codecs : Codecs) (limits : ArchiveLimits) (passwordGiven : Bool)
    (bytes : List UInt8) : List (PathBuf × Bool) :=
  match readWithLimits codecs limits passwordGiven bytes with
  | .ok archive => archive.targets
  | .error _ => []

def ArchiveEntry.placeIn (entry : ArchiveEntry) (data : List UInt8) (tree : FileTree Component) :
    FileTree Component :=
  match entry.target with
  | some (path, _) => tree.place path (entry.node data)
  | none => tree

def Archive.placeVisit (archive : Archive) (tree : FileTree Component) (visit : Visit) :
    FileTree Component :=
  match archive.files[visit.fileIndex]? with
  | some entry => entry.placeIn (delivered visit.records) tree
  | none => tree

theorem target_confined {entry : ArchiveEntry} {target : PathBuf × Bool}
    (h : entry.target = some target) : Confined [] target.1 := by
  unfold ArchiveEntry.target at h
  split at h
  · rename_i path hjoin
    cases h
    exact safeJoin_unix_confined hjoin
  · cases h

section

variable {σ : Type} {dir : DirHandle Component IoError σ} {tree : σ → FileTree Component}
  {codecs : Codecs} {archive : Archive} {s : σ}

theorem extractEntry_run (hkeeps : dir.Keeps tree) {entry : ArchiveEntry} {s' : σ} {τ : Type}
    {read : ReadFn IoError τ} {t t' : τ} {records : List (ReadRecord IoError)}
    {answer : Option (Except Error Bool)}
    (h : (extractEntry dir codecs entry s).run read t = ((answer, s'), records, t')) :
    FileTree.Grows entry.target.toList (tree s) (tree s') ∧
      ∀ goOn, answer = some (.ok goOn) → goOn = true ∧ entry.target.isSome = true ∧
        tree s' = entry.placeIn (delivered records) (tree s) := by
  unfold extractEntry at h
  split at h
  · rename_i path hjoin
    have htarget : entry.target = some (path, entry.isDirectory) := by
      rw [ArchiveEntry.target, hjoin]
    obtain ⟨parts, hparts, hpath, -⟩ := safeJoin_unix_confined hjoin
    have hne : path ≠ [] := by simpa [hpath] using hparts
    obtain ⟨hgrows, hplaced⟩ := extractInRoot_run hkeeps hne h
    rw [ArchiveEntry.placeIn, htarget]
    exact ⟨hgrows, fun goOn hok => ⟨(hplaced goOn hok).1, rfl, (hplaced goOn hok).2⟩⟩
  · cases h
    exact ⟨.refl _ _, nofun⟩
  · cases h
    exact ⟨.refl _ _, nofun⟩

theorem stateAfter_concat {visits : List Visit} {visit : Visit} {entry : ArchiveEntry} {s' : σ}
    {answer : Option (Except Error Bool)} (hfile : archive.files[visit.fileIndex]? = some entry)
    (hreplay : (extractEntry dir codecs entry (stateAfter dir codecs archive s visits)).replay
      visit.records = some (answer, s')) :
    stateAfter dir codecs archive s (visits ++ [visit]) = s' := by
  rw [stateAfter, List.foldl_append, List.foldl_cons, List.foldl_nil, ← stateAfter, hfile]
  dsimp only
  rw [hreplay]
  rfl

theorem extractAll_calls (hkeeps : dir.Keeps tree) {visits visits' : List Visit}
    (h : (extractAll dir codecs archive s).Calls archive visits visits') :
    ∃ visit, visits' = visits ++ [visit] ∧
      FileTree.Grows archive.targets (tree (stateAfter dir codecs archive s visits))
        (tree (stateAfter dir codecs archive s visits')) ∧
      (visit.Answered → visit.Continues ∧
        tree (stateAfter dir codecs archive s visits') =
          archive.placeVisit (tree (stateAfter dir codecs archive s visits)) visit) := by
  obtain ⟨visit, entry, rfl, hfile, τ, read, t, t', hrun⟩ := h
  rw [extractAll, Script.run_map] at hrun
  obtain ⟨⟨answer, s'⟩, records, t₁, hscript⟩ : ∃ result records t₁,
      (extractEntry dir codecs entry (stateAfter dir codecs archive s visits)).run read t =
        (result, records, t₁) := ⟨_, _, _, rfl⟩
  rw [hscript] at hrun
  obtain ⟨hanswer, hrecords⟩ : answer = visit.answer ∧ records = visit.records := by
    simp only [Prod.map, id, Prod.mk.injEq] at hrun
    exact ⟨hrun.1, hrun.2.1⟩
  subst hrecords
  obtain ⟨hgrows, hplaced⟩ := extractEntry_run hkeeps hscript
  rw [stateAfter_concat hfile (Script.replay_run hscript)]
  refine ⟨visit, rfl, hgrows.mono ?_, ?_⟩
  · intro target htarget
    exact List.mem_filterMap.mpr ⟨entry, List.mem_of_getElem? hfile, Option.mem_toList.mp htarget⟩
  · rintro ⟨goOn, hgoOn⟩
    obtain ⟨rfl, -, hplace⟩ := hplaced goOn (hanswer.trans hgoOn)
    refine ⟨hgoOn, ?_⟩
    rw [hplace, Archive.placeVisit, hfile]

theorem stateAfter_grows (hkeeps : dir.Keeps tree) {visits : List Visit}
    (h : ReflTransGen ((extractAll dir codecs archive s).Calls archive) [] visits) :
    FileTree.Grows archive.targets (tree s) (tree (stateAfter dir codecs archive s visits)) := by
  induction h with
  | refl => exact .refl _ _
  | tail _ hcall ih =>
      obtain ⟨visit, rfl, hgrows, -⟩ := extractAll_calls hkeeps hcall
      exact ih.trans hgrows

theorem stateAfter_placed (hkeeps : dir.Keeps tree) {visits : List Visit}
    (h : ReflTransGen ((extractAll dir codecs archive s).Calls archive) [] visits)
    (hanswered : ∀ visit ∈ visits, visit.Answered) :
    (∀ visit ∈ visits, visit.Continues) ∧
      tree (stateAfter dir codecs archive s visits) =
        visits.foldl archive.placeVisit (tree s) := by
  induction h with
  | refl => exact ⟨List.forall_mem_nil _, rfl⟩
  | tail _ hcall ih =>
      obtain ⟨visit, rfl, -, hplaced⟩ := extractAll_calls hkeeps hcall
      obtain ⟨hbefore, hlast⟩ := List.forall_mem_append.mp hanswered
      obtain ⟨hcontinues, htree⟩ := ih hbefore
      obtain ⟨hcontinue, hplace⟩ := hplaced (hlast visit (List.mem_singleton_self visit))
      refine ⟨List.forall_mem_append.mpr ⟨hcontinues, List.forall_mem_singleton.mpr hcontinue⟩, ?_⟩
      rw [hplace, htree, List.foldl_append]
      rfl

end

section

variable {σ : Type} {dir : DirHandle Component IoError σ} {tree : σ → FileTree Component}
  {openExtractRoot : Effect IoError σ Unit} {codecs : Codecs} {limits : ArchiveLimits}
  {passwordGiven : Bool} {bytes : List UInt8} {s s' : σ} {result : Result Unit}

theorem decompressDefault_cases
    (h : decompressDefault dir codecs openExtractRoot limits passwordGiven bytes s =
      (result, s')) :
    ((s' = s ∨ ∃ e, openExtractRoot s = (.error e, s')) ∧ result ≠ .ok ()) ∨
      ∃ archive s₁ log, readWithLimits codecs limits passwordGiven bytes = .ok archive ∧
        openExtractRoot s = (.ok (), s₁) ∧
        (let r : ArchiveReader := { codecs, limits, verifyChecksums := true, passwordGiven, archive }
         r.forEachEntries (extractAll dir codecs archive s₁) = (result, log)) ∧
        s' = stateAfter dir codecs archive s₁ log.visits := by
  unfold decompressDefault at h
  split at h
  · cases h
    exact .inl ⟨.inl rfl, nofun⟩
  · rename_i seven hseven
    obtain ⟨archive, hread, hmemory⟩ := Result.bind_eq_ok.mp hseven
    obtain ⟨_, -, hbuilt⟩ := Result.bind_eq_ok.mp hmemory
    cases Result.pure_eq_ok.mp hbuilt
    split at h
    · rename_i e s₁ hopen
      cases h
      exact .inl ⟨.inr ⟨e, hopen⟩, nofun⟩
    · rename_i s₁ hopen
      cases h
      exact .inr ⟨archive, s₁, _, hread, hopen, rfl, rfl⟩

variable (hkeeps : dir.Keeps tree)
  (hroot : ∀ s r s', openExtractRoot s = (r, s') → tree s' = tree s)
include hkeeps hroot

/-- However an extraction ends, and whatever the archive and what already lies below the root:
the links there are as they were, no directory is lost, and all that changed is at the path of a
file entry or a directory made on the way to an entry, where no link is on the way.  The paths of
the entries lie below the root. -/
theorem decompressDefault_confined
    (h : decompressDefault dir codecs openExtractRoot limits passwordGiven bytes s =
      (result, s')) :
    FileTree.Grows (extractionTargets codecs limits passwordGiven bytes) (tree s) (tree s') ∧
      ∀ target ∈ extractionTargets codecs limits passwordGiven bytes, Confined [] target.1 := by
  constructor
  · obtain ⟨rfl | ⟨e, hopen⟩, -⟩ | ⟨archive, s₁, log, hread, hopen, hwalk, rfl⟩ :=
      decompressDefault_cases h
    · exact .refl _ _
    · rw [hroot _ _ _ hopen]
      exact .refl _ _
    · have hcalls := (ArchiveReader.forEachEntries_walks
        { codecs, limits, verifyChecksums := true, passwordGiven, archive }
        (extractAll dir codecs archive s₁)).calls
      rw [hwalk] at hcalls
      rw [extractionTargets, hread, ← hroot _ _ _ hopen]
      exact stateAfter_grows hkeeps hcalls
  · intro target htarget
    unfold extractionTargets at htarget
    split at htarget
    · obtain ⟨entry, -, hentry⟩ := List.mem_filterMap.mp htarget
      exact target_confined hentry
    · cases htarget

/-- Where an extraction succeeds, every entry of the walk is in the tree, with what it was handed
out with, and nothing else changed: later entries are put over earlier ones. -/
theorem decompressDefault_placed
    (h : decompressDefault dir codecs openExtractRoot limits passwordGiven bytes s =
      (.ok (), s')) :
    ∃ archive s₁ log, readWithLimits codecs limits passwordGiven bytes = .ok archive ∧
      openExtractRoot s = (.ok (), s₁) ∧
      (let r : ArchiveReader := { codecs, limits, verifyChecksums := true, passwordGiven, archive }
       r.forEachEntries (extractAll dir codecs archive s₁) = (.ok (), log)) ∧
      visitedFiles log.visits = ArchiveReader.walkOrder archive ∧
      tree s' = log.visits.foldl archive.placeVisit (tree s) := by
  obtain ⟨-, hfailed⟩ | ⟨archive, s₁, log, hread, hopen, hwalk, rfl⟩ :=
    decompressDefault_cases h
  · exact absurd rfl hfailed
  have hwalks := ArchiveReader.forEachEntries_walks
    { codecs, limits, verifyChecksums := true, passwordGiven, archive }
    (extractAll dir codecs archive s₁)
  rw [hwalk] at hwalks
  have hanswered : ∀ visit ∈ log.visits, visit.Answered := fun visit hvisit =>
    (hwalks.answered rfl visit hvisit).resolve_left List.not_mem_nil
  obtain ⟨hcontinues, htree⟩ := stateAfter_placed hkeeps hwalks.calls hanswered
  refine ⟨archive, s₁, log, hread, hopen, hwalk, ?_, by rw [htree, hroot _ _ _ hopen]⟩
  exact ArchiveReader.forEachEntries_visitedFiles _ hwalk hcontinues

end

def inMemoryRoot : DirHandle Component IoError (FileTree Component) :=
  .inMemory (.other "not found") (.other "refused")

def openInMemory : Effect IoError (FileTree Component) Unit := pure ()

def extractNested (tree : FileTree Component) : Result Unit × FileTree Component :=
  decompressDefault inMemoryRoot (.copying (namedFile 0x61 0x2F 0x62)) openInMemory {} false
    (namedFile 0x61 0x2F 0x62) tree

def linkedTree : FileTree Component := fun path =>
  if path = [.normal ['a']] then some (.link ['x']) else none

theorem decompressDefault_confined_linked :
    FileTree.Grows (extractionTargets (.copying (namedFile 0x61 0x2F 0x62)) {} false
        (namedFile 0x61 0x2F 0x62)) linkedTree (extractNested linkedTree).2 ∧
      ∀ target ∈ extractionTargets (.copying (namedFile 0x61 0x2F 0x62)) {} false
        (namedFile 0x61 0x2F 0x62), Confined [] target.1 := by
  refine decompressDefault_confined (DirHandle.inMemory_keeps (by decide)) ?_
    (Prod.eta (extractNested linkedTree)).symm
  rintro _ _ _ ⟨⟩
  rfl

theorem decompressDefault_placed_nested : ∃ archive s₁ log,
    readWithLimits (.copying (namedFile 0x61 0x2F 0x62)) {} false (namedFile 0x61 0x2F 0x62) =
        .ok archive ∧
      openInMemory (fun _ => none) = (.ok (), s₁) ∧
      (let codecs := Codecs.copying (namedFile 0x61 0x2F 0x62)
       let r : ArchiveReader :=
        { codecs, limits := {}, verifyChecksums := true, passwordGiven := false, archive }
       r.forEachEntries (extractAll inMemoryRoot codecs archive s₁) = (.ok (), log)) ∧
      visitedFiles log.visits = ArchiveReader.walkOrder archive ∧
      (extractNested fun _ => none).2 = log.visits.foldl archive.placeVisit fun _ => none := by
  have hholds : (extractNested fun _ => none).1.holds (fun _ => true) = true := by
    decide +kernel
  obtain ⟨⟨⟩, hok, -⟩ := Result.exists_of_holds hholds
  have hrun : extractNested (fun _ => none) = (.ok (), (extractNested fun _ => none).2) := by
    rw [← hok]
  have hroot : ∀ s r s', openInMemory s = (r, s') → id s' = id s := by
    rintro _ _ _ ⟨⟩
    rfl
  have hkeeps : inMemoryRoot.Keeps id := DirHandle.inMemory_keeps (by decide)
  obtain ⟨archive, s₁, log, hread, hopen, hwalk, hfiles, htree⟩ :=
    decompressDefault_placed hkeeps hroot hrun
  exact ⟨archive, s₁, log, hread, hopen, hwalk, hfiles, htree⟩

end Sevenz
