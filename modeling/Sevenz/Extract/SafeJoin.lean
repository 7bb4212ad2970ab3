import Sevenz.Header.Accepted
import Sevenz.Header.StartHeader
import Sevenz.Lib.Path

/-!
# Entry names and the destination they are joined to

`safe_join` (`util/decompress.rs`), which every entry's name goes through before it is
extracted, on the platform of the destination.
-/

namespace Sevenz

open Lib Lib.Path

def slashed (c : Char) : Char := if c = '\\' then '/' else c

def joinComponents (style : PathStyle) (entryName : List Char) :
    List Component → PathBuf → Result PathBuf
  | [], result => pure result
  | .normal part :: rest, result =>
      joinComponents style entryName rest (push style result (components style part))
  | .curDir :: rest, result => joinComponents style entryName rest result
  | _, _ =>
      Result.fail (.other s!"unsafe entry path escapes destination: {String.ofList entryName}")

def safeJoin (style : PathStyle) (dest : PathBuf) (entryName : List Char) : Result PathBuf :=
  match unsafePathReason entryName with
  | some reason => Result.fail (.unsafeEntryName entryName reason)
  | none => do
      let normalized := entryName.map slashed
      let result ← joinComponents style entryName (components style normalized) dest
      Result.rejectIf (result = dest) (.other "entry path has no normal components")
      pure result

def nameParts (name : List Char) : List (List Char) := name.splitOnP isSeparator

theorem mem_splitOnP {p : Char → Bool} {name part : List Char} (h : part ∈ name.splitOnP p) :
    ∀ c ∈ part, c ∈ name ∧ p c = false := by
  induction name generalizing part with
  | nil =>
      rw [List.splitOnP_nil, List.mem_singleton] at h
      simp [h]
  | cons x name ih =>
      rw [List.splitOnP_cons_eq_if_modifyHead] at h
      split at h
      · rcases List.mem_cons.mp h with rfl | hrest
        · simp
        · exact fun c hc => (ih hrest c hc).imp_left (List.mem_cons_of_mem x)
      · rename_i hx
        cases hsplit : name.splitOnP p with
        | nil => exact absurd hsplit (List.splitOnP_ne_nil p name)
        | cons first rest =>
            rw [hsplit] at ih
            rw [hsplit, List.modifyHead_cons] at h
            rcases List.mem_cons.mp h with rfl | hrest
            · intro c hc
              rcases List.mem_cons.mp hc with rfl | hc
              · exact ⟨List.mem_cons_self, by simpa using hx⟩
              · exact (ih List.mem_cons_self c hc).imp_left (List.mem_cons_of_mem x)
            · exact fun c hc =>
                (ih (List.mem_cons_of_mem _ hrest) c hc).imp_left (List.mem_cons_of_mem x)

theorem splitOnP_map (f : Char → Char) (p : Char → Bool) (name : List Char) :
    (name.map f).splitOnP p = (name.splitOnP (p ∘ f)).map (List.map f) := by
  induction name with
  | nil => simp
  | cons x name ih =>
      rw [List.map_cons, List.splitOnP_cons_eq_if_modifyHead, List.splitOnP_cons_eq_if_modifyHead,
        ih, Function.comp_apply]
      split
      · rfl
      · cases name.splitOnP (p ∘ f) <;> rfl

theorem isSep_slashed (style : PathStyle) : style.isSep ∘ slashed = isSeparator := by
  funext c
  rw [Function.comp_apply, slashed]
  by_cases hc : c = '\\'
  · subst hc
    cases style <;> rfl
  · rw [if_neg hc]
    cases style with
    | unix => simp [PathStyle.isSep, isSeparator, hc]
    | windows => rfl

theorem splitOnP_slashed (style : PathStyle) (name : List Char) :
    (name.map slashed).splitOnP style.isSep = nameParts name := by
  rw [splitOnP_map, isSep_slashed, nameParts]
  conv => rhs; rw [← List.map_id (name.splitOnP isSeparator)]
  apply List.map_congr_left
  intro part hpart
  conv => rhs; rw [id, ← List.map_id part]
  apply List.map_congr_left
  intro c hc
  have hsep := (mem_splitOnP hpart c hc).2
  rw [slashed, if_neg]
  · rfl
  · rintro rfl
    cases hsep

def keptParts (name : List Char) : List (List Char) :=
  (nameParts name).filter fun part => part ≠ [] ∧ part ≠ ['.']

theorem namesADrive_iff {part : List Char} :
    namesADrive part = true ↔ ∃ letter, driveLetter part = some letter := by
  unfold namesADrive driveLetter
  split
  · rename_i letter _
    by_cases hletter : letter.isAlpha = true
    · simp [hletter]
    · simp [hletter]
  · simp

structure Joinable (name : List Char) : Prop where
  ne_nil : name ≠ []
  no_nul : '\x00' ∉ name
  relative : name.head?.any isSeparator = false
  no_drive : namesADrive name = false
  no_parent : ['.', '.'] ∉ nameParts name

theorem unsafePathReason_eq_none {name : List Char} :
    unsafePathReason name = none ↔ Joinable name := by
  unfold unsafePathReason
  constructor
  · intro h
    split at h
    · cases h
    · rename_i hne
      split at h
      · cases h
      · rename_i hnul
        split at h
        · cases h
        · rename_i habsolute
          split at h
          · cases h
          · rename_i hdrive
            split at h
            · cases h
            · rename_i hparent
              refine ⟨by simpa using hne, by simpa using hnul, by simpa using habsolute,
                by simpa using hdrive, by simpa [nameParts] using hparent⟩
  · rintro ⟨hne, hnul, habsolute, hdrive, hparent⟩
    have hparent' : (name.splitOnP isSeparator).contains ['.', '.'] = false := by
      simpa [nameParts] using hparent
    rw [if_neg (by simpa using hne), if_neg (by simpa using hnul), if_neg (by simpa using habsolute),
      if_neg (by simpa using hdrive), if_neg (by simpa using hparent')]

theorem keptParts_plain {name part : List Char} (h : Joinable name)
    (hpart : part ∈ keptParts name) : Plain part ∧ '\x00' ∉ part := by
  obtain ⟨hmem, hkept⟩ := List.mem_filter.mp hpart
  obtain ⟨hne, hdot⟩ := of_decide_eq_true hkept
  have hchars := mem_splitOnP hmem
  refine ⟨⟨hne, hdot, ?_, ?_, ?_⟩, ?_⟩
  · rintro rfl
    exact h.no_parent hmem
  · intro hslash
    cases (hchars _ hslash).2
  · intro hbackslash
    cases (hchars _ hbackslash).2
  · exact fun hnul => h.no_nul (hchars _ hnul).1

def pushParts (style : PathStyle) (dest : PathBuf) (parts : List (List Char)) : PathBuf :=
  parts.foldl (fun result part => push style result (components style part)) dest

theorem joinComponents_normal (style : PathStyle) (name : List Char) (parts : List (List Char))
    (dest : PathBuf) :
    joinComponents style name (parts.map .normal) dest = .ok (pushParts style dest parts) := by
  induction parts generalizing dest with
  | nil => rfl
  | cons part parts ih => exact ih _

theorem filterMap_component {name : List Char} (h : Joinable name) :
    (nameParts name).filterMap component = (keptParts name).map .normal := by
  rw [keptParts, ← List.filterMap_eq_map, List.filterMap_filter]
  apply List.filterMap_congr
  intro part hpart
  have hdots : part ≠ ['.', '.'] := by
    rintro rfl
    exact h.no_parent hpart
  rw [component, if_neg hdots]
  by_cases hskip : part = [] ∨ part = ['.']
  · rw [if_pos hskip, if_neg]
    rintro hkept
    have hboth := of_decide_eq_true hkept
    exact hskip.elim hboth.1 hboth.2
  · rw [if_neg hskip, if_pos]
    · rfl
    · simpa [not_or] using hskip

theorem components_slashed {name : List Char} (h : Joinable name) (style : PathStyle) :
    ∃ dots, components style (name.map slashed) = dots ++ (keptParts name).map .normal ∧
      ∀ dot ∈ dots, dot = .curDir := by
  have hdriveless : driveLetter (name.map slashed) = none := by
    match name, h.no_drive with
    | [], _ => rfl
    | [_], _ => rfl
    | letter :: c :: rest, hdrive =>
        by_cases hc : slashed c = ':'
        · have hcolon : c = ':' := by
            unfold slashed at hc
            split at hc
            · cases hc
            · exact hc
          subst hcolon
          have halpha : letter.isAlpha = false := hdrive
          have hslashed : (slashed letter).isAlpha = false := by
            unfold slashed
            split
            · rfl
            · exact halpha
          simp [driveLetter, hslashed, hc]
        · simp [driveLetter, hc]
  rw [components_of_driveless hdriveless]
  match name, h with
  | [], h => exact absurd rfl h.ne_nil
  | c :: rest, h =>
      have hsep : style.isSep (slashed c) = false := by
        have hcomp := congrFun (isSep_slashed style) c
        rw [Function.comp_apply] at hcomp
        rw [hcomp]
        simpa using h.relative
      have hsplit := splitOnP_slashed style (c :: rest)
      rw [List.map_cons] at hsplit ⊢
      rw [rooted, hsep, if_neg Bool.false_ne_true, relative, hsplit]
      rw [filterMap_component h]
      refine ⟨_, rfl, fun dot hdot => ?_⟩
      split at hdot
      · exact List.mem_singleton.mp hdot
      · cases hdot

theorem joinComponents_dots (style : PathStyle) (name : List Char) {dots : List Component}
    (h : ∀ dot ∈ dots, dot = .curDir) (rest : List Component) (dest : PathBuf) :
    joinComponents style name (dots ++ rest) dest = joinComponents style name rest dest := by
  induction dots with
  | nil => rfl
  | cons dot dots ih =>
      obtain ⟨rfl, hrest⟩ := List.forall_mem_cons.mp h
      exact ih hrest

theorem safeJoin_eq_ok {style : PathStyle} {dest p : PathBuf} {name : List Char} :
    safeJoin style dest name = .ok p ↔
      Joinable name ∧ p = pushParts style dest (keptParts name) ∧ p ≠ dest := by
  unfold safeJoin
  cases hreason : unsafePathReason name with
  | some reason =>
      have hrefused : ¬ Joinable name := by
        rw [← unsafePathReason_eq_none, hreason]
        exact Option.some_ne_none reason
      exact iff_of_false (by rintro ⟨⟩) fun h => hrefused h.1
  | none =>
      have hunrefused := unsafePathReason_eq_none.mp hreason
      obtain ⟨dots, hcomponents, hdots⟩ := components_slashed hunrefused style
      have hjoin : joinComponents style name (components style (name.map slashed)) dest =
          .ok (pushParts style dest (keptParts name)) := by
        rw [hcomponents, joinComponents_dots style name hdots, joinComponents_normal]
      dsimp only
      rw [Result.bind_of_ok hjoin]
      constructor
      · intro h
        obtain ⟨_, hreject, h⟩ := Result.bind_eq_ok.mp h
        cases Result.pure_eq_ok.mp h
        exact ⟨hunrefused, rfl, Result.rejectIf_eq_ok.mp hreject⟩
      · rintro ⟨-, rfl, hne⟩
        have hkept : Result.rejectIf (pushParts style dest (keptParts name) = dest)
            (.other "entry path has no normal components") = .ok () :=
          Result.rejectIf_eq_ok.mpr hne
        rw [Result.bind_of_ok hkept]
        rfl

theorem pushParts_plain {style : PathStyle} {parts : List (List Char)}
    (hplain : ∀ part ∈ parts, Plain part)
    (hdrive : style = .windows → ∀ part ∈ parts, driveLetter part = none) (dest : PathBuf) :
    pushParts style dest parts = dest ++ parts.map .normal := by
  induction parts generalizing dest with
  | nil => simp [pushParts]
  | cons part parts ih =>
      obtain ⟨hpart, hrest⟩ := List.forall_mem_cons.mp hplain
      have hcomponents : components style part = [.normal part] := by
        cases style with
        | unix => exact hpart.rooted .unix
        | windows =>
            rw [components_of_driveless (hdrive rfl part List.mem_cons_self)]
            exact hpart.rooted .windows
      have hnext := ih hrest (fun hstyle other hother =>
        hdrive hstyle other (List.mem_cons_of_mem _ hother)) (dest ++ [.normal part])
      rw [pushParts, List.foldl_cons, hcomponents, push_normal]
      rw [pushParts] at hnext
      rw [hnext, List.map_cons, List.append_assoc]
      rfl

theorem pushParts_drive {parts : List (List Char)}
    (h : ∃ part ∈ parts, ∃ letter, driveLetter part = some letter) (dest dest' : PathBuf) :
    pushParts .windows dest parts = pushParts .windows dest' parts := by
  induction parts generalizing dest dest' with
  | nil =>
      obtain ⟨part, hmem, -⟩ := h
      cases hmem
  | cons part parts ih =>
      obtain ⟨other, hmem, letter, hletter⟩ := h
      rw [pushParts, pushParts, List.foldl_cons, List.foldl_cons]
      rcases List.mem_cons.mp hmem with rfl | hmem
      · rw [push_drive dest hletter, push_drive dest' hletter]
      · exact ih ⟨other, hmem, letter, hletter⟩ _ _

/-- The path is strictly inside the destination: it goes on with names only. -/
def Confined (dest p : PathBuf) : Prop :=
  ∃ parts : List (List Char), parts ≠ [] ∧ p = dest ++ parts.map .normal ∧
    ∀ part ∈ parts, Plain part ∧ '\x00' ∉ part

def NamesOutside (name : List Char) : Prop :=
  name.head?.any isSeparator = true ∨ ['.', '.'] ∈ nameParts name ∨
    ∃ part ∈ nameParts name, namesADrive part = true

/-- Whatever the platform, the name leads into the destination, and not at all if it names a
place outside of it. -/
def JoinsSafely (dest : PathBuf) (name : List Char) : Prop :=
  ∀ style p, safeJoin style dest name = .ok p → Confined dest p ∧ ¬ NamesOutside name

def Driveless (name : List Char) : Prop := ∀ part ∈ nameParts name, namesADrive part = false

theorem exists_drive {name : List Char} (h : ¬ Driveless name) :
    ∃ part ∈ keptParts name, namesADrive part = true := by
  obtain ⟨part, hpart, hdrive⟩ : ∃ part ∈ nameParts name, namesADrive part = true := by
    simpa [Driveless] using h
  refine ⟨part, List.mem_filter.mpr ⟨hpart, decide_eq_true ⟨?_, ?_⟩⟩, hdrive⟩
  · rintro rfl
    cases hdrive
  · rintro rfl
    cases hdrive

theorem Driveless.driveLetter {name part : List Char} (h : Driveless name)
    (hpart : part ∈ keptParts name) : driveLetter part = none := by
  rw [Option.eq_none_iff_forall_ne_some]
  intro letter hletter
  have hdrive := namesADrive_iff.mpr ⟨letter, hletter⟩
  rw [h part (List.mem_of_mem_filter hpart)] at hdrive
  cases hdrive

theorem safeJoin_unix_confined {dest p : PathBuf} {name : List Char}
    (h : safeJoin .unix dest name = .ok p) : Confined dest p := by
  obtain ⟨hjoinable, rfl, hne⟩ := safeJoin_eq_ok.mp h
  have hplain := fun part (hpart : part ∈ keptParts name) => keptParts_plain hjoinable hpart
  rw [pushParts_plain (fun part hpart => (hplain part hpart).1) (by rintro ⟨⟩)] at hne ⊢
  refine ⟨keptParts name, fun hnil => ?_, rfl, hplain⟩
  rw [hnil] at hne
  simp at hne

/-- A name is joined safely exactly if it is refused at once or no part of it begins with a
drive. -/
theorem joinsSafely_iff (dest : PathBuf) (name : List Char) :
    JoinsSafely dest name ↔ (unsafePathReason name).isSome = true ∨ Driveless name := by
  constructor
  · intro h
    by_contra hneither
    rw [not_or, Option.not_isSome_iff_eq_none] at hneither
    obtain ⟨hreason, hdrives⟩ := hneither
    have hjoinable := unsafePathReason_eq_none.mp hreason
    obtain ⟨part, hkept, hdrive⟩ := exists_drive hdrives
    have haccepted : safeJoin .unix dest name =
        .ok (pushParts .unix dest (keptParts name)) := by
      refine safeJoin_eq_ok.mpr ⟨hjoinable, rfl, ?_⟩
      rw [pushParts_plain (fun part hpart => (keptParts_plain hjoinable hpart).1) (by rintro ⟨⟩)]
      simpa using List.ne_nil_of_mem hkept
    exact (h .unix _ haccepted).2 (Or.inr (Or.inr ⟨part, List.mem_of_mem_filter hkept, hdrive⟩))
  · rintro hcond style p haccepted
    obtain ⟨hjoinable, rfl, hne⟩ := safeJoin_eq_ok.mp haccepted
    have hdriveless : Driveless name := by
      refine hcond.resolve_left fun hsome => ?_
      rw [unsafePathReason_eq_none.mpr hjoinable] at hsome
      cases hsome
    have hplain := fun part (hpart : part ∈ keptParts name) => keptParts_plain hjoinable hpart
    have hpush := pushParts_plain (fun part hpart => (hplain part hpart).1)
      (fun (_ : style = .windows) part hpart => hdriveless.driveLetter hpart) dest
    rw [hpush] at hne ⊢
    refine ⟨⟨keptParts name, fun hnil => ?_, rfl, hplain⟩, ?_⟩
    · rw [hnil] at hne
      simp at hne
    · rintro (habsolute | hparent | ⟨part, hpart, hdrive⟩)
      · rw [hjoinable.relative] at habsolute
        cases habsolute
      · exact hjoinable.no_parent hparent
      · rw [hdriveless part hpart] at hdrive
        cases hdrive

/-- On Windows a drive further on in a name leads out of the destination. -/
theorem innerDrive_escapes :
    ∃ p, safeJoin .windows [.normal ['d']] ['a', '/', 'C', ':', '/', 'x'] = .ok p ∧
      ¬ Confined [.normal ['d']] p := by
  refine ⟨[.prefixed (.drive 'C'), .normal ['x']], by decide +kernel, ?_⟩
  rintro ⟨parts, -, heq, -⟩
  cases heq

structure CleanName (name : List Char) : Prop where
  no_parent : ['.', '.'] ∉ nameParts name
  no_root : name.head?.any isSeparator = false
  driveless : Driveless name
  no_nul : '\x00' ∉ name
  no_backslash : '\\' ∉ name

theorem Joinable.cleanName_iff {name : List Char} (h : Joinable name) :
    CleanName name ↔ '\\' ∉ name ∧ Driveless name :=
  ⟨fun hclean => ⟨hclean.no_backslash, hclean.driveless⟩,
    fun ⟨hbackslash, hdriveless⟩ =>
      ⟨h.no_parent, h.relative, hdriveless, h.no_nul, hbackslash⟩⟩

theorem checkUnsafePaths_eq_ok {limits : ArchiveLimits} {files : List ArchiveEntry}
    (hreject : limits.rejectUnsafePaths = true) (h : checkUnsafePaths limits files = .ok ()) :
    ∀ file ∈ files, Joinable file.name := by
  rw [checkUnsafePaths, if_pos hreject] at h
  unfold checkNames at h
  split at h
  · rename_i hnone
    intro file hfile
    have hreason := List.findSome?_eq_none_iff.mp hnone file hfile
    rw [Option.map_eq_none_iff] at hreason
    exact unsafePathReason_eq_none.mp hreason
  · cases h

theorem readWithLimits_joinable {codecs : Codecs} {limits : ArchiveLimits} {passwordGiven : Bool}
    {bytes : List UInt8} {archive : Archive}
    (h : readWithLimits codecs limits passwordGiven bytes = .ok archive)
    (hreject : limits.rejectUnsafePaths = true) : ∀ file ∈ archive.files, Joinable file.name := by
  obtain ⟨header, startHeader, verifyCrc, buf, parsed, -, -, -, hcheck⟩ := readWithLimits_readFrom h
  obtain ⟨_, -, hcheck⟩ := Result.bind_eq_ok.mp hcheck
  obtain ⟨_, -, hcheck⟩ := Result.bind_eq_ok.mp hcheck
  obtain ⟨_, hpaths, hcheck⟩ := Result.bind_eq_ok.mp hcheck
  obtain ⟨_, -, hcheck⟩ := Result.bind_eq_ok.mp hcheck
  cases Result.pure_eq_ok.mp hcheck
  exact checkUnsafePaths_eq_ok hreject hpaths

def PoliciesAgree (name : List Char) : Prop :=
  ∀ style dest, unsafePathReason name = none ↔ ∃ p, safeJoin style dest name = .ok p

theorem policiesAgree_iff (name : List Char) :
    PoliciesAgree name ↔
      (unsafePathReason name).isSome = true ∨ (keptParts name ≠ [] ∧ Driveless name) := by
  constructor
  · intro h
    by_contra hneither
    rw [not_or, Option.not_isSome_iff_eq_none] at hneither
    obtain ⟨hreason, hfails⟩ := hneither
    by_cases hnil : keptParts name = []
    · obtain ⟨p, haccepted⟩ := (h .unix []).mp hreason
      obtain ⟨-, rfl, hne⟩ := safeJoin_eq_ok.mp haccepted
      rw [hnil] at hne
      exact hne rfl
    · -- the place the drive leads to, as the destination
      obtain ⟨dest, hdest⟩ : ∃ dest, dest = pushParts .windows [] (keptParts name) := ⟨_, rfl⟩
      obtain ⟨p, haccepted⟩ := (h .windows dest).mp hreason
      obtain ⟨hjoinable, rfl, hne⟩ := safeJoin_eq_ok.mp haccepted
      have hdrives : ¬ Driveless name := fun hdriveless => hfails ⟨hnil, hdriveless⟩
      obtain ⟨part, hpart, hdrive⟩ := exists_drive hdrives
      apply hne
      rw [pushParts_drive ⟨part, hpart, namesADrive_iff.mp hdrive⟩ dest []]
      exact hdest.symm
  · rintro hcond style dest
    constructor
    · intro hreason
      have hjoinable := unsafePathReason_eq_none.mp hreason
      obtain ⟨hne, hdriveless⟩ := hcond.resolve_left (by simp [hreason])
      refine ⟨_, safeJoin_eq_ok.mpr ⟨hjoinable, rfl, ?_⟩⟩
      rw [pushParts_plain (fun part hpart => (keptParts_plain hjoinable hpart).1)
        (fun _ part hpart => hdriveless.driveLetter hpart)]
      simpa using hne
    · rintro ⟨p, haccepted⟩
      exact unsafePathReason_eq_none.mpr (safeJoin_eq_ok.mp haccepted).1

/-- Where unsafe paths are refused, the names of an archive are as promised exactly if none has a
backslash or a part that begins with a drive.  The two policies agree on exactly the names that
are refused at once, or have something to join and no such part. -/
theorem rejectUnsafePaths_iff {codecs : Codecs} {limits : ArchiveLimits} {passwordGiven : Bool}
    {bytes : List UInt8} {archive : Archive}
    (h : readWithLimits codecs limits passwordGiven bytes = .ok archive)
    (hreject : limits.rejectUnsafePaths = true) :
    ((∀ file ∈ archive.files, CleanName file.name) ↔
        ∀ file ∈ archive.files, '\\' ∉ file.name ∧ Driveless file.name) ∧
      ∀ name, PoliciesAgree name ↔
        (unsafePathReason name).isSome = true ∨ (keptParts name ≠ [] ∧ Driveless name) := by
  have hjoinable := readWithLimits_joinable h hreject
  refine ⟨?_, policiesAgree_iff⟩
  apply forall_congr'
  intro file
  apply forall_congr'
  intro hfile
  exact (hjoinable file hfile).cleanName_iff

def namedFile (first second third : UInt8) : List UInt8 :=
  archiveFile crc32 []
    [kHeader, kFilesInfo, 1, kEmptyStream, 1, 0x80,
      kName, 9, 0, first, 0, second, 0, third, 0, 0, 0, kEnd, kEnd]

theorem namedFile_rejectUnsafePaths : ∃ archive,
    readWithLimits (.copying (namedFile 0x61 0x2F 0x62)) { rejectUnsafePaths := true } false
        (namedFile 0x61 0x2F 0x62) = .ok archive ∧
      ((∀ file ∈ archive.files, CleanName file.name) ↔
        ∀ file ∈ archive.files, '\\' ∉ file.name ∧ Driveless file.name) ∧
      ∀ name, PoliciesAgree name ↔
        (unsafePathReason name).isSome = true ∨ (keptParts name ≠ [] ∧ Driveless name) := by
  obtain ⟨archive, hread, -⟩ := Result.exists_of_holds
    (show (readWithLimits (.copying (namedFile 0x61 0x2F 0x62)) { rejectUnsafePaths := true } false
      (namedFile 0x61 0x2F 0x62)).holds (fun _ => true) = true by decide +kernel)
  exact ⟨archive, hread, rejectUnsafePaths_iff hread rfl⟩

/-- A name with a backslash is accepted, and so is a dot, which cannot be joined. -/
theorem backslash_accepted : (∃ archive,
    readWithLimits (.copying (namedFile 0x61 0x5C 0x62)) { rejectUnsafePaths := true } false
        (namedFile 0x61 0x5C 0x62) = .ok archive ∧
      ¬ ∀ file ∈ archive.files, CleanName file.name) ∧ ¬ PoliciesAgree ['.'] := by
  constructor
  · obtain ⟨archive, hread, hcheck⟩ := Result.exists_of_holds
      (show (readWithLimits (.copying (namedFile 0x61 0x5C 0x62)) { rejectUnsafePaths := true }
        false (namedFile 0x61 0x5C 0x62)).holds (fun archive =>
          archive.files.any fun file => file.name.contains '\\') = true by decide +kernel)
    obtain ⟨file, hfile, hbackslash⟩ := List.any_eq_true.mp hcheck
    exact ⟨archive, hread, fun hall => (hall file hfile).no_backslash (by simpa using hbackslash)⟩
  · intro h
    obtain ⟨p, haccepted⟩ := (h .unix []).mp (by decide)
    obtain ⟨-, rfl, hne⟩ := safeJoin_eq_ok.mp haccepted
    exact hne (by decide)

end Sevenz
