import Sevenz.Extract.Confinement
import Sevenz.Writer.CompressPath
import Sevenz.Writer.StoringEncoder

/-!
# Compressing a directory and extracting it again

The names that `compress` gives the entries lead back to where they came from.  Where no operation
of the directory fails without a reason, and what already lies there is of the same kinds, an
extraction does not fail, and lays the tree that was compressed over what was there.
-/

namespace Sevenz

open Lib Lib.Path

theorem relativeName_cons_cons (name next : List Char) (path : List (List Char)) :
    relativeName (name :: next :: path) = name ++ '/' :: relativeName (next :: path) := by
  simp [relativeName, List.intercalate]

theorem nameParts_relativeName {path : List (List Char)} (hne : path ≠ [])
    (hplain : ∀ name ∈ path, Plain name) : nameParts (relativeName path) = path := by
  have hseparators : ∀ {name : List Char}, Plain name → ∀ c ∈ name, isSeparator c = false :=
    fun hname => hname.isSep .windows
  induction path with
  | nil => exact absurd rfl hne
  | cons name path ih =>
      obtain ⟨hname, hrest⟩ := List.forall_mem_cons.mp hplain
      cases path with
      | nil =>
          have hsingle : relativeName [name] = name := by simp [relativeName, List.intercalate]
          rw [hsingle, nameParts, List.splitOnP_eq_singleton (hseparators hname)]
      | cons next path =>
          have hparts := ih (List.cons_ne_nil _ _) hrest
          rw [nameParts] at hparts ⊢
          rw [relativeName_cons_cons, List.splitOnP_append_cons_of_forall_mem (hseparators hname)
            '/' rfl, hparts]

theorem mem_relativeName {path : List (List Char)} {c : Char} (h : c ∈ relativeName path) :
    c = '/' ∨ ∃ name ∈ path, c ∈ name := by
  induction path with
  | nil => simp [relativeName, List.intercalate] at h
  | cons name path ih =>
      cases path with
      | nil => exact .inr ⟨name, List.mem_cons_self, by simpa [relativeName, List.intercalate] using h⟩
      | cons next path =>
          rw [relativeName_cons_cons] at h
          rcases List.mem_append.mp h with hname | hrest
          · exact .inr ⟨name, List.mem_cons_self, hname⟩
          · rcases List.mem_cons.mp hrest with hslash | hrest
            · exact .inl hslash
            · rcases ih hrest with hslash | ⟨other, hother, hc⟩
              · exact .inl hslash
              · exact .inr ⟨other, List.mem_cons_of_mem _ hother, hc⟩

theorem relativeName_singleton (name : List Char) : relativeName [name] = name := by
  simp [relativeName, List.intercalate]

theorem relativeName_start {name : List Char} (hne : name ≠ []) (path : List (List Char)) :
    (relativeName (name :: path)).head? = name.head? ∧
      (namesADrive name = false → namesADrive (relativeName (name :: path)) = false) := by
  cases path with
  | nil =>
      rw [relativeName_singleton]
      exact ⟨rfl, id⟩
  | cons next path =>
      rw [relativeName_cons_cons]
      rcases name with _ | ⟨c, _ | ⟨d, chars⟩⟩
      · exact absurd rfl hne
      · exact ⟨rfl, fun _ => rfl⟩
      · refine ⟨rfl, fun hdrive => ?_⟩
        by_cases hd : d = ':'
        · subst hd
          exact hdrive
        · simp [namesADrive, hd]

theorem safeJoin_relativeName {path : List (List Char)} (hne : path ≠ [])
    (hplain : ∀ name ∈ path, Plain name ∧ '\x00' ∉ name)
    (hdrive : ∀ name ∈ path.head?, namesADrive name = false) :
    safeJoin .unix [] (relativeName path) = .ok (path.map .normal) := by
  have hparts := nameParts_relativeName hne fun name hname => (hplain name hname).1
  have hkept : keptParts (relativeName path) = path := by
    rw [keptParts, hparts, List.filter_eq_self]
    intro name hname
    have hname := (hplain name hname).1
    exact decide_eq_true ⟨hname.ne_nil, hname.ne_dot⟩
  have hpush := pushParts_plain (fun name hname => (hplain name hname).1)
    (fun hstyle : PathStyle.unix = .windows => by cases hstyle) []
  rw [safeJoin_eq_ok, hkept, hpush]
  refine ⟨?_, rfl, by simpa using hne⟩
  obtain ⟨name, rest, rfl⟩ := List.exists_cons_of_ne_nil hne
  have hname := (hplain name List.mem_cons_self).1
  obtain ⟨hhead, hdriveless⟩ := relativeName_start hname.ne_nil rest
  obtain ⟨c, chars, rfl⟩ := List.exists_cons_of_ne_nil hname.ne_nil
  constructor
  · intro hnil
    rw [hnil] at hhead
    cases hhead
  · intro hnul
    obtain hslash | ⟨other, hother, hc⟩ := mem_relativeName hnul
    · cases hslash
    · exact (hplain other hother).2 hc
  · rw [hhead]
    exact hname.isSep .windows c List.mem_cons_self
  · exact hdriveless (hdrive _ rfl)
  · rw [hparts]
    exact fun hdots => (hplain _ hdots).1.ne_dots rfl

section

variable {σ : Type} {dir : DirHandle Component IoError σ} {tree : σ → FileTree Component}
  {entry : ArchiveEntry} {relative base : PathBuf} {name : Component} {s : σ}

theorem checkLinks_ok (hobliges : dir.Obliges tree) {parts : List Component}
    (hpassable : (tree s).Passable (base ++ parts.dropLast))
    (hlast : ∀ target, tree s (base ++ parts) ≠ some (.link target)) :
    checkLinks dir base parts s = (.ok (), s) := by
  induction parts generalizing base with
  | nil => rfl
  | cons part parts ih =>
      have hbase : (tree s).Passable base := hpassable.mono (List.prefix_append _ _)
      have hlink : ∀ target, tree s (base ++ [part]) ≠ some (.link target) := by
        cases parts with
        | nil => exact hlast
        | cons next parts =>
            rw [List.dropLast_cons_cons, List.append_cons] at hpassable
            exact (hpassable.mono (List.prefix_append _ _)).linkless _ (by simp) List.prefix_rfl
      have hrest : checkLinks dir (base ++ [part]) parts s = (.ok (), s) := by
        cases parts with
        | nil => rfl
        | cons next parts =>
            apply ih
            · rwa [List.dropLast_cons_cons, List.append_cons] at hpassable
            · rwa [List.append_cons] at hlast
      rw [checkLinks]
      cases hnode : tree s (base ++ [part]) with
      | none =>
          obtain ⟨e, hmeta, hmissing⟩ := hobliges.metadata_missing hbase hnode
          simp only [hmeta, hmissing, hrest, if_true]
      | some node =>
          have hmeta := hobliges.metadata hbase hnode
          cases node with
          | link target => exact absurd hnode (hlink target)
          | dir => simp only [hmeta, Node.kind, hrest]
          | file data => simp only [hmeta, Node.kind, hrest]

theorem makeParent_ok (hobliges : dir.Obliges tree) (hpassable : (tree s).Passable base) :
    ∃ s', makeParent dir (base ++ [name]) s = (.ok (), s') := by
  rw [makeParent, List.dropLast_concat]
  split
  · obtain ⟨s', hcreate⟩ := hobliges.createDirAll hpassable
    exact ⟨s', Effect.mapError_of_ok hcreate _⟩
  · exact ⟨s, rfl⟩

theorem removeOld_ok (hobliges : dir.Obliges tree) (hpassable : (tree s).Passable base)
    (hold : tree s (base ++ [name]) = none ∨ ∃ data, tree s (base ++ [name]) = some (.file data)) :
    ∃ s', removeOld dir (base ++ [name]) s = (.ok (), s') := by
  rw [removeOld]
  rcases hold with hnone | ⟨data, hfile⟩
  · obtain ⟨e, s', hremove, hmissing⟩ := hobliges.removeFile_missing hpassable hnone
    exact ⟨s', by simp only [hremove, hmissing, if_true]⟩
  · obtain ⟨s', hremove⟩ := hobliges.removeFile hpassable hfile
    exact ⟨s', by rw [hremove]⟩

theorem openEntry_ok (hkeeps : dir.Keeps tree) (hobliges : dir.Obliges tree)
    (hpassable : (tree s).Passable base)
    (hkind : ∀ old, tree s (base ++ [name]) = some old → old.kind = (entry.node []).kind) :
    ∃ s', openEntry dir entry (base ++ [name]) s = (.ok (!entry.isDirectory), s') := by
  have hcheck : checkLinks dir [] (base ++ [name]) s = (.ok (), s) := by
    apply checkLinks_ok hobliges
    · rwa [List.dropLast_concat]
    · intro target hlink
      have hnode := hkind _ hlink
      unfold ArchiveEntry.node at hnode
      split at hnode <;> cases hnode
  rw [openEntry, Effect.bind_of_ok hcheck]
  cases hdirectory : entry.isDirectory with
  | true =>
      have hall : (tree s).Passable (base ++ [name]) := by
        intro q hq hpre
        rcases List.prefix_concat_iff.mp hpre with rfl | hpre
        · cases hold : tree s (base ++ [name]) with
          | none => exact .inl rfl
          | some old =>
              have hnode := hkind old hold
              rw [ArchiveEntry.node, if_pos hdirectory] at hnode
              exact .inr (congrArg some (Node.kind_eq_dir hnode))
        · exact hpassable q hq hpre
      obtain ⟨s', hcreate⟩ := hobliges.createDirAll hall
      exact ⟨s', Effect.bind_of_ok (Effect.mapError_of_ok hcreate _) _⟩
  | false =>
      have hold : tree s (base ++ [name]) = none ∨
          ∃ data, tree s (base ++ [name]) = some (.file data) := by
        cases hold : tree s (base ++ [name]) with
        | none => exact .inl rfl
        | some old =>
            have hnode := hkind old hold
            rw [ArchiveEntry.node, if_neg (by rw [hdirectory]; exact Bool.false_ne_true)] at hnode
            cases old with
            | file data => exact .inr ⟨data, rfl⟩
            | dir => cases hnode
            | link target => cases hnode
      have hnot : ¬ base ++ [name] <+: base := fun hpre => by
        have hlength := hpre.length_le
        rw [List.length_append, List.length_singleton] at hlength
        omega
      obtain ⟨s₁, hparent⟩ := @makeParent_ok _ _ _ _ name _ hobliges hpassable
      obtain ⟨made, -, -, hmade, hall⟩ := makeParent_cases hkeeps hpassable.linkless hparent
      obtain rfl := hall rfl
      have hpassable₁ : (tree s₁).Passable made := fun q hq hpre => by
        rw [hmade]
        exact .inr (FileTree.makeDirs_on_way hq hpre)
      have hsame : tree s₁ (made ++ [name]) = tree s (made ++ [name]) := by
        rw [hmade, FileTree.makeDirs_off_way hnot]
      rw [← hsame] at hold
      have hlinkless : (tree s₁).Linkless (made ++ [name]) := by
        refine hpassable₁.linkless.concat fun target hlink => ?_
        rcases hold with hnone | ⟨data, hfile⟩
        · rw [hnone] at hlink
          cases hlink
        · rw [hfile] at hlink
          cases hlink
      obtain ⟨s₂, hremove⟩ := removeOld_ok hobliges hpassable₁ hold
      have hgone : tree s₂ = (tree s₁).put (made ++ [name]) none := by
        obtain ⟨hkept, hnone⟩ | ⟨-, hput⟩ := removeOld_cases hkeeps hlinkless hremove
        · rw [hkept, FileTree.put_eq_self (hnone rfl)]
        · exact hput
      have hkept : ∀ q, q <+: made → tree s₂ q = tree s₁ q := by
        intro q hpre
        rw [hgone, FileTree.put_of_ne]
        rintro rfl
        exact hnot hpre
      have hpassable₂ : (tree s₂).Passable made := fun q hq hpre =>
        hkept q hpre ▸ hpassable₁ q hq hpre
      have hparent₂ : made = [] ∨ tree s₂ made = some .dir := by
        by_cases hnil : made = []
        · exact .inl hnil
        · rw [hkept made List.prefix_rfl, hmade]
          exact .inr (FileTree.makeDirs_on_way hnil List.prefix_rfl)
      have hnone : tree s₂ (made ++ [name]) = none := by
        rw [hgone, FileTree.put_self]
      obtain ⟨s', hcreate⟩ := hobliges.createNew hpassable₂ hparent₂ hnone
      refine ⟨s', ?_⟩
      rw [if_neg Bool.false_ne_true, Effect.bind_of_ok hparent, Effect.bind_of_ok hremove,
        Effect.bind_of_ok (Effect.mapError_of_ok hcreate _)]
      rfl

theorem copyEntry_drains (hkeeps : dir.Keeps tree) (hobliges : dir.Obliges tree) {τ : Type}
    (read : ReadFn IoError τ) (bufs : Nat → Nat) (rounds : Nat) {data : List UInt8}
    (hfile : tree s relative = some (.file data)) (bytes : List UInt8) (t : τ) :
    Prod.map Prod.fst id ((copyEntry dir bufs relative rounds s).run read t) =
      (Script.readToEnd retryInterrupted bufs (fun e => some (.error (Error.ofIo e)))
        (fun _ => some (.ok true)) none rounds bytes).run read t := by
  induction rounds generalizing s data bytes t with
  | zero => rfl
  | succ rounds ih =>
      rw [copyEntry, Script.run, Script.readToEnd, Script.run]
      rcases read (bufs rounds + 1) t with ⟨answer, t₁⟩
      rcases answer with e | _ | ⟨byte, more⟩
      · dsimp only
        split
        · simp only [← ih hfile bytes t₁]
          rfl
        · rfl
      · obtain ⟨s', hflush⟩ := hobliges.flush hfile
        simp only [hflush]
        rfl
      · obtain ⟨s', hwrite⟩ := hobliges.write (byte :: more) hfile
        obtain ⟨data', hput, -⟩ := hkeeps.write hfile hwrite
        have hfile' : tree s' relative = some (.file data') := by
          rw [hput, FileTree.put_self]
        simp only [hwrite, ← ih hfile' (bytes ++ byte :: more) t₁]
        rfl

end

/-- The entries of the archive, with these contents, are what there is in the tree, each at its
path. -/
structure Archive.Represents (archive : Archive) (content : Nat → List UInt8)
    (whole : FileTree Component) : Prop where
  rooted : whole.Rooted
  entries : ∀ {i : Nat} {file : ArchiveEntry}, archive.files[i]? = some file →
    file.hasStream = (!file.isDirectory) ∧ ∃ path, path ≠ [] ∧
      safeJoin .unix [] file.name = .ok path ∧ whole path = some (file.node (content i))
  covers : ∀ {path : PathBuf} {node : Node}, path ≠ [] → whole path = some node →
    ∃ (i : Nat) (file : ArchiveEntry), archive.files[i]? = some file ∧
      safeJoin .unix [] file.name = .ok path

def Archive.visitNode (archive : Archive) (visit : Visit) : Option (PathBuf × Node) :=
  archive.files[visit.fileIndex]?.bind fun entry =>
    entry.target.map fun target => (target.1, entry.node (delivered visit.records))

theorem foldl_placeVisit (archive : Archive) (visits : List Visit) (tree : FileTree Component) :
    visits.foldl archive.placeVisit tree = tree.placeAll (visits.filterMap archive.visitNode) := by
  induction visits generalizing tree with
  | nil => rfl
  | cons visit visits ih =>
      rw [List.foldl_cons, ih, List.filterMap_cons, Archive.visitNode, Archive.placeVisit]
      cases archive.files[visit.fileIndex]? with
      | none => rfl
      | some entry =>
          dsimp only [Option.bind_some]
          rw [ArchiveEntry.placeIn]
          cases entry.target with
          | none => rfl
          | some target => rfl

theorem ArchiveEntry.node_kind (entry : ArchiveEntry) (data data' : List UInt8) :
    (entry.node data).kind = (entry.node data').kind := by
  unfold node
  split <;> rfl

namespace Archive.Represents

variable {archive : Archive} {content : Nat → List UInt8} {whole : FileTree Component}
  {visits : List Visit} (h : archive.Represents content whole)
include h

theorem visitNode_eq {visit : Visit} {file : ArchiveEntry}
    (hfile : archive.files[visit.fileIndex]? = some file) (hreturns : visit.Returns content) :
    ∃ path, path ≠ [] ∧ whole path = some (file.node (content visit.fileIndex)) ∧
      safeJoin .unix [] file.name = .ok path ∧
      archive.visitNode visit = some (path, file.node (content visit.fileIndex)) := by
  obtain ⟨-, path, hne, hjoin, hnode⟩ := h.entries hfile
  refine ⟨path, hne, hnode, hjoin, ?_⟩
  rw [visitNode, hfile, Option.bind_some, ArchiveEntry.target, hjoin, hreturns.2]
  rfl

theorem placeVisits (hreturns : ∀ visit ∈ visits, visit.Returns content)
    (hfiles : ∀ visit ∈ visits, visit.fileIndex < archive.files.length)
    (hall : ∀ i < archive.files.length, i ∈ visitedFiles visits) (tree : FileTree Component)
    {path : PathBuf} (hpath : path ≠ []) :
    visits.foldl archive.placeVisit tree path = (whole path).or (tree path) := by
  rw [foldl_placeVisit]
  refine FileTree.placeAll_eq h.rooted ?_ hpath ?_
  · intro node hnode
    obtain ⟨visit, hvisit, heq⟩ := List.mem_filterMap.mp hnode
    have hfile := List.getElem?_eq_getElem (hfiles visit hvisit)
    obtain ⟨q, -, hwhole, -, hsome⟩ := h.visitNode_eq hfile (hreturns visit hvisit)
    rw [hsome] at heq
    cases heq
    exact hwhole
  · intro node hnode
    obtain ⟨i, file, hfile, hjoin⟩ := h.covers hpath hnode
    have hi := (List.getElem?_eq_some_iff.mp hfile).1
    obtain ⟨visit, hvisit, rfl⟩ := List.mem_map.mp (hall i hi)
    obtain ⟨q, -, hwhole, hjoin', hsome⟩ := h.visitNode_eq hfile (hreturns visit hvisit)
    rw [hjoin] at hjoin'
    cases hjoin'
    rw [hnode] at hwhole
    cases hwhole
    exact .inl (List.mem_filterMap.mpr ⟨visit, hvisit, hsome⟩)

end Archive.Represents

section

variable {σ : Type} {dir : DirHandle Component IoError σ} {tree : σ → FileTree Component}
  {r : ArchiveReader} {content : Nat → List UInt8} {whole : FileTree Component} {s : σ}

theorem extractEntry_ready (hkeeps : dir.Keeps tree) (hobliges : dir.Obliges tree)
    (hrepresents : r.archive.Represents content whole) (hfits : (tree s).Fits whole) {i : Nat}
    {file : ArchiveEntry} (hfile : r.archive.files[i]? = some file) :
    ∃ path s', safeJoin .unix [] file.name = .ok path ∧
      openEntry dir file path s = (.ok (!file.isDirectory), s') := by
  obtain ⟨-, path, hne, hjoin, hnode⟩ := hrepresents.entries hfile
  obtain ⟨base, name, rfl⟩ := (List.eq_nil_or_concat' path).resolve_left hne
  have hpassable : (tree s).Passable base :=
    hfits.passable hrepresents.rooted (List.cons_ne_nil name []) hnode
  obtain ⟨s', hopen⟩ := openEntry_ok hkeeps hobliges hpassable fun old hold =>
    (hfits hne hnode hold).trans (file.node_kind _ _)
  exact ⟨_, s', hjoin, hopen⟩

theorem extractAll_follows (hkeeps : dir.Keeps tree) (hobliges : dir.Obliges tree)
    (hrepresents : r.archive.Represents content whole) (hfits : (tree s).Fits whole) :
    (extractAll dir r.codecs r.archive s).Follows r content fun visits =>
      (tree (stateAfter dir r.codecs r.archive s visits)).Fits whole where
  init := hfits
  streamed {visits i file} hgood hfile hstream τ read t := by
    obtain ⟨path, s', hjoin, hopen⟩ :=
      extractEntry_ready hkeeps hobliges hrepresents hgood hfile
    have hdirectory : file.isDirectory = false := by
      have hnot := (hrepresents.entries hfile).1
      rw [hstream] at hnot
      simpa using hnot.symm
    have hne : path ≠ [] := by
      obtain ⟨-, q, hne, hjoin', -⟩ := hrepresents.entries hfile
      rw [hjoin] at hjoin'
      cases hjoin'
      exact hne
    have hplaced := (openEntry_cases hkeeps hne hopen).2 _ rfl
    have hnew : tree s' path = some (.file []) := by
      rw [hplaced.2.2, FileTree.place_self, ArchiveEntry.node, if_neg (by simp [hdirectory])]
    rw [hdirectory] at hopen
    rw [extractAll, Script.run_map, extractEntry, hjoin]
    dsimp only
    rw [extractInRoot, hopen]
    exact copyEntry_drains hkeeps hobliges read _ _ hnew [] t
  empty {visits i file} hgood hfile hstream := by
    obtain ⟨path, s', hjoin, hopen⟩ :=
      extractEntry_ready hkeeps hobliges hrepresents hgood hfile
    have hdirectory : file.isDirectory = true := by
      have hnot := (hrepresents.entries hfile).1
      rw [hstream] at hnot
      simpa using hnot.symm
    rw [hdirectory] at hopen
    refine ⟨[], ?_, rfl⟩
    rw [extractAll, Script.run_map, extractEntry, hjoin]
    dsimp only
    rw [extractInRoot, hopen]
    rfl
  next {visits visit} hgood hcall hreturns := by
    have hcall' := hcall
    obtain ⟨visit', file, hvisits, hfile, -⟩ := hcall'
    cases List.append_cancel_left hvisits
    obtain ⟨visit', hvisits', -, hplaced⟩ := extractAll_calls hkeeps hcall
    cases List.append_cancel_left hvisits'
    obtain ⟨-, htree⟩ := hplaced ⟨true, hreturns.1⟩
    obtain ⟨path, hne, hwhole, hjoin, -⟩ := hrepresents.visitNode_eq hfile hreturns
    rw [htree, Archive.placeVisit, hfile]
    dsimp only
    rw [ArchiveEntry.placeIn, ArchiveEntry.target, hjoin, hreturns.2]
    dsimp only
    exact FileTree.Fits.place hgood hrepresents.rooted hwhole

end

namespace DirListing

variable {listing : DirListing} {path : List (List Char)}

theorem node_of_tree {q : List Component} {node : Node} (h : listing.tree q = some node) :
    node = .dir ∨ ∃ data, node = .file data := by
  induction listing generalizing q with
  | file name metadata source rest ih =>
      rw [tree] at h
      split at h
      · cases h
        exact .inr ⟨_, rfl⟩
      · exact ih h
  | folder name metadata inside rest ihInside ihRest =>
      cases q with
      | nil => cases h
      | cons first q =>
          rw [tree] at h
          split at h
          · split at h
            · cases h
              exact .inl rfl
            · exact ihInside h
          · exact ihRest h
  | other name rest ih => exact ih h
  | _ => cases h

theorem plain_of_entry (hproper : listing.Proper) {p : List (List Char)} {node : Node}
    (h : listing.tree (p.map .normal) = some node) :
    p ≠ [] ∧ ∀ name ∈ p, Plain name ∧ '\x00' ∉ name := by
  obtain ⟨rest, hne, hrest, hplain⟩ := plain_of_tree hproper h
  obtain rfl : p = rest :=
    List.map_injective_iff.mpr (fun _ _ heq => Component.normal.inj heq) hrest
  exact ⟨hne, hplain⟩

theorem safeJoin_entry (hproper : listing.Proper)
    (hdrive : ∀ name ∈ listing.names, namesADrive name = false) {p : List (List Char)}
    {node : Node} (h : listing.tree (p.map .normal) = some node) :
    p ≠ [] ∧ safeJoin .unix [] (relativeName p) = .ok (p.map .normal) := by
  obtain ⟨hne, hplain⟩ := plain_of_entry hproper h
  refine ⟨hne, safeJoin_relativeName hne hplain fun name hname => ?_⟩
  obtain ⟨first, hfirst, hhead⟩ := names_of_tree h
  rw [List.head?_map, Option.mem_def.mp hname] at hhead
  cases hhead
  exact hdrive _ hfirst

/-- The names of the files have no NUL, and those without a stream are directories. -/
theorem readable_of_recorded (hproper : listing.Proper) {writer : ArchiveWriter}
    (hcrcs : writer.packInfo.CrcsAlike)
    (hfiles : List.Forall₂ Recorded writer.files (listing.entries [])) : writer.Readable := by
  have hall := (ArchiveReader.exists_of_mem_forall₂ hfiles).1
  refine ⟨hcrcs, ⟨.inl ?_, .inl ?_⟩, fun file hfile c hc hnul => ?_⟩
  · rw [lastBit_eq_zero_iff]
    intro bit hbit
    obtain ⟨file, hfile, rfl⟩ := List.mem_map.mp hbit
    obtain ⟨hmem, hstream⟩ := List.mem_filter.mp hfile
    obtain ⟨entry, -, hrecorded⟩ := hall file hmem
    have hdirectory := hrecorded.isDirectory
    rw [hrecorded.hasStream] at hstream
    simp_all
  · rw [lastBit_eq_zero_iff]
    intro bit hbit
    obtain ⟨file, hfile, rfl⟩ := List.mem_map.mp hbit
    obtain ⟨entry, -, hrecorded⟩ := hall file (List.mem_of_mem_filter hfile)
    exact hrecorded.isAntiItem
  · obtain ⟨entry, hentry, hrecorded⟩ := hall file hfile
    obtain ⟨below, hpath, hnode⟩ := (mem_entries_iff hproper).mp hentry
    have hplain := (plain_of_entry hproper hnode).2
    rw [hrecorded.name, hpath, List.nil_append] at hc
    have hzero : c = '\x00' := Char.toNat_inj.mp hnul
    subst hzero
    obtain hslash | ⟨name, hname, hmem⟩ := mem_relativeName hc
    · cases hslash
    · exact (hplain name hname).2 hmem

theorem represents (hproper : listing.Proper)
    (hdrive : ∀ name ∈ listing.names, namesADrive name = false) {files : List ArchiveEntry}
    {archive : Archive} (hfiles : List.Forall₂ Recorded files (listing.entries []))
    (hsame : List.Forall₂ ArchiveWriter.SameFile files archive.files) :
    archive.Represents
      (contentAt ((listing.entries []).map fun entry => content entry.2)) listing.tree := by
  have hlength : archive.files.length = (listing.entries []).length :=
    hsame.length_eq.symm.trans hfiles.length_eq
  have hentry : ∀ {i : Nat} {p : List (List Char)} {node : Node},
      (listing.entries [])[i]? = some (p, node) → ∃ file, archive.files[i]? = some file ∧
        file.name = relativeName p ∧ file.hasStream = (!file.isDirectory) ∧
          file.isDirectory = decide (node = .dir) := by
    intro i p node hi
    obtain ⟨hlt, heq⟩ := List.getElem?_eq_some_iff.mp hi
    have hlt' : i < archive.files.length := hlength ▸ hlt
    have hrecorded := hfiles.get (hfiles.length_eq ▸ hlt) hlt
    obtain ⟨hname, hstream, hdirectory⟩ := hsame.get (hfiles.length_eq ▸ hlt) hlt'
    simp only [List.get_eq_getElem, heq] at hrecorded hname hstream hdirectory
    refine ⟨_, List.getElem?_eq_getElem hlt', hname.trans hrecorded.name, ?_, ?_⟩
    · rw [hstream, hdirectory, hrecorded.hasStream, hrecorded.isDirectory]
      by_cases hnode : node = .dir <;> simp [hnode]
    · rw [hdirectory, hrecorded.hasStream, hrecorded.isDirectory]
      by_cases hnode : node = .dir <;> simp [hnode]
  constructor
  · exact tree_rooted hproper
  · intro i file hfile
    have hlt : i < (listing.entries []).length :=
      hlength ▸ (List.getElem?_eq_some_iff.mp hfile).1
    obtain ⟨⟨p, node⟩, hi⟩ : ∃ entry, (listing.entries [])[i]? = some entry :=
      ⟨_, List.getElem?_eq_getElem hlt⟩
    obtain ⟨file', hfile', hname, hstream, hdirectory⟩ := hentry hi
    obtain rfl := Option.some.inj (hfile.symm.trans hfile')
    obtain ⟨below, hp, hnode⟩ := (mem_entries_iff hproper).mp (List.mem_of_getElem? hi)
    obtain rfl : p = below := hp
    obtain ⟨hne, hjoin⟩ := safeJoin_entry hproper hdrive hnode
    refine ⟨hstream, p.map .normal, by simpa using hne, hname ▸ hjoin, ?_⟩
    rw [hnode, ArchiveEntry.node, hdirectory, contentAt, List.getD_eq_getElem?_getD,
      List.getElem?_map, hi]
    obtain rfl | ⟨data, rfl⟩ := node_of_tree hnode
    · rfl
    · rfl
  · intro q node _ hnode
    obtain ⟨p, -, rfl, -⟩ := plain_of_tree hproper hnode
    have hmem : (p, node) ∈ listing.entries [] := (mem_entries_iff hproper).mpr ⟨p, rfl, hnode⟩
    obtain ⟨i, hi⟩ := List.mem_iff_getElem?.mp hmem
    obtain ⟨file, hfile, hname, -⟩ := hentry hi
    exact ⟨i, file, hfile, hname ▸ (safeJoin_entry hproper hdrive hnode).2⟩

end DirListing

/-- What was compressed is extracted: where the decoders undo the encoder and no operation of the
directory fails without a reason, an extraction of the file that `compress` made of a directory
succeeds over whatever is of the same kinds, and lays the tree that was compressed over it. -/
theorem decompressDefault_compress {σ : Type} {dir : DirHandle Component IoError σ}
    {tree : σ → FileTree Component} {openExtractRoot : Effect IoError σ Unit} {codecs : Codecs}
    {versions : CodecVersions} {encoder : ContentEncoder} {limits : ArchiveLimits}
    {passwordGiven : Bool} {root : List Char} {listing : DirListing} {session : Session}
    {file : List UInt8} {s s₁ : σ} (hproper : listing.Proper)
    (hdrive : ∀ name ∈ listing.names, namesADrive name = false)
    (hcompress : compress codecs.crc32 encoder root versions (.ok listing) = .ok file)
    (hrun : run (Session.step codecs.crc32) {} (listing.pushes encoder []) = some session)
    (hcrcs : session.writer.packInfo.CrcsAlike)
    (hundo : codecs.UndoContent file versions encoder [{ method := .lzma2 }])
    (hopens : codecs.Opens limits versions encoder session file)
    (hmemory : ∀ archive, readWithLimits codecs limits passwordGiven file = .ok archive →
      checkMemory limits archive = .ok ())
    (hkeeps : dir.Keeps tree) (hobliges : dir.Obliges tree)
    (hroot : openExtractRoot s = (.ok (), s₁)) (hfits : (tree s₁).Fits listing.tree) :
    ∃ s', decompressDefault dir codecs openExtractRoot limits passwordGiven file s = (.ok (), s') ∧
      ∀ path, path ≠ [] → tree s' path = (listing.tree path).or (tree s₁ path) := by
  obtain ⟨writer, hpath, hfinish⟩ := Result.bind_eq_ok.mp hcompress
  obtain ⟨session', hrun', rfl, -, hsteps⟩ := @compressPath_run _ _ _ _ _ {} _ hpath
  obtain rfl := Option.some.inj (hrun.symm.trans hrun')
  obtain ⟨files, hfiles, hrecorded⟩ := compressPath_files hpath
  obtain rfl : session.writer.files = files := hfiles
  have hclean : EveryStep (Session.step codecs.crc32) {} (listing.pushes encoder [])
      fun _ push before _ => push.Succeeds codecs.crc32 before.writer ∧ push.Flagged ∧
        ∀ encoder methods, push.encoding before.writer = some (encoder, methods) →
          codecs.UndoContent file versions encoder methods := by
    intro before push after hpushes t t' hbefore hstep
    obtain ⟨hsucceeds, hmethods⟩ := hsteps before push after hpushes t t' hbefore hstep
    obtain ⟨hflagged, entry, reader, rfl⟩ :=
      DirListing.mem_pushes hproper (hpushes ▸ List.mem_append_right _ List.mem_cons_self)
    refine ⟨hsucceeds, hflagged, fun encoder' methods hencoding => ?_⟩
    have hdefault : t.writer.contentMethods = [{ method := .lzma2 }] := hmethods
    cases reader with
    | none => cases hencoding
    | some source =>
        rw [Push.encoding, hdefault] at hencoding
        split at hencoding
        · cases hencoding
        · cases hencoding
          exact hundo
  have hfiled := Session.filed_of_run hrun hclean
  rw [DirListing.owned_pushes] at hfiled
  obtain ⟨archive, htaken, ht⟩ := hfiled.taken
    (DirListing.readable_of_recorded hproper hcrcs hrecorded) hfinish hopens passwordGiven
  have hrepresents := DirListing.represents hproper hdrive hrecorded ht.files
  have hreader : ArchiveReader.withLimits codecs file passwordGiven limits =
      .ok { codecs, limits, verifyChecksums := true, passwordGiven, archive } := by
    rw [ArchiveReader.withLimits, Result.bind_of_ok htaken, Result.bind_of_ok (hmemory _ htaken)]
    rfl
  generalize hr : ({ codecs, limits, verifyChecksums := true, passwordGiven, archive } :
    ArchiveReader) = r at hreader
  have hfollows : (extractAll dir r.codecs r.archive s₁).Follows r _ _ :=
    extractAll_follows hkeeps hobliges (by rw [← hr]; exact hrepresents) hfits
  obtain ⟨log, hwalk, honce, hreturns, -⟩ :=
    ht.forEachEntries_eq_ok hfiled hfinish hopens true passwordGiven hr.symm hfollows
  subst hr
  have hcalls := (ArchiveReader.forEachEntries_walks
    { codecs, limits, verifyChecksums := true, passwordGiven, archive }
    (extractAll dir codecs archive s₁)).calls
  rw [hwalk] at hcalls
  refine ⟨stateAfter dir codecs archive s₁ log.visits, ?_, fun path hne => ?_⟩
  · rw [decompressDefault, hreader]
    dsimp only
    rw [hroot]
    dsimp only
    rw [hwalk]
  · rw [(stateAfter_placed hkeeps hcalls fun visit hvisit => ⟨true, (hreturns visit hvisit).1⟩).2]
    refine hrepresents.placeVisits hreturns (Callback.fileIndex_lt hcalls) (fun i hi => ?_) _ hne
    exact List.count_pos_iff.mp (by rw [honce i hi]; exact Nat.one_pos)

def smallListing : DirListing :=
  .folder ['d'] ⟨false, true, none, none, none⟩
    (.file ['f'] ⟨true, false, none, none, none⟩ [.ok [7]] .done)
    (.file ['g'] ⟨true, false, none, none, none⟩ [.ok [1, 2], .ok [3]] .done)

def smallSession : Session :=
  (run (Session.step crc32) {} (smallListing.pushes storingEncoder [])).getD {}

theorem smallListing_proper : smallListing.Proper := by
  have hplain : ∀ c : Char, c ≠ '.' → c ≠ '/' → c ≠ '\\' → Plain [c] := fun c hdot hslash hback =>
    ⟨by simp, by simp [hdot], by simp, by simp [hslash.symm], by simp [hback.symm]⟩
  refine ⟨⟨hplain 'd' (by decide) (by decide) (by decide), by decide⟩, by decide,
    ⟨⟨hplain 'f' (by decide) (by decide) (by decide), by decide⟩, by decide, by decide, trivial⟩,
    ⟨⟨hplain 'g' (by decide) (by decide) (by decide), by decide⟩, by decide, by decide, trivial⟩⟩

theorem compressPath_smallListing :
    compressPath crc32 storingEncoder [] [] smallListing .new = .ok smallSession.writer := by
  have hholds : (compressPath crc32 storingEncoder [] [] smallListing .new).holds
      (fun _ => true) = true := by
    decide +kernel
  obtain ⟨writer, hpath, -⟩ := Result.exists_of_holds hholds
  obtain ⟨session, hrun, rfl, -⟩ := @compressPath_run _ _ _ _ _ {} _ hpath
  rw [hpath, smallSession, hrun]
  rfl

theorem smallSession_within : smallSession.writer.WithinLimits anyVersions {} := by
  have hone : ∀ block ∈ smallSession.writer.unpackInfo.blocks,
      block.methods = [{ method := .lzma2 }] := by
    intro block hblock
    obtain rfl | rfl := by simpa using (show block ∈ [_, _] from hblock)
    · rfl
    · rfl
  refine ⟨⟨by decide +kernel, fun block hblock => ?_, by decide +kernel⟩, by decide +kernel,
    by decide +kernel, by decide +kernel, rfl, by decide +kernel, fun block hblock => ?_⟩
  · rw [hone block hblock]
    constructor <;> decide +kernel
  · rw [hone block hblock]
    rfl

theorem decompressDefault_compress_small : ∃ file s',
    compress crc32 storingEncoder [] anyVersions (.ok smallListing) = .ok file ∧
      decompressDefault (.inMemory (.other "not found") (.other "refused")) (unstoring file)
        (pure ()) {} false file (fun _ => none) = (.ok (), s') ∧
      ∀ path, path ≠ [] → s' path = (smallListing.tree path).or none := by
  have hencryption : smallSession.writer.headerEncryption = none := by
    decide +kernel
  have hfinish := smallSession.writer.finish_copy anyVersions crc32 hencryption
  rw [ArchiveWriter.finish, ← ArchiveWriter.writeEncodedHeader_storing _ _ hencryption,
    ← ArchiveWriter.finish] at hfinish
  generalize hfile : archiveFile crc32 (smallSession.writer.output.drop signatureHeaderSize)
    (smallSession.writer.writeHeader anyVersions) = file at hfinish
  have hheader : (smallSession.writer.writeHeader anyVersions).length < 2 ^ 20 := by
    decide +kernel
  have hlength : file.length < 2 ^ 64 ∧ signatureHeaderSize +
      (smallSession.writer.writeHeader anyVersions).length ≤ file.length := by
    have hpacked : (smallSession.writer.output.drop signatureHeaderSize).length = 18 := by
      decide +kernel
    have hstart : signatureHeaderSize = 32 := rfl
    rw [← hfile, archiveFile_length, hpacked]
    omega
  have hstored : ∀ block ∈ smallSession.stored,
      block.contents.flatten.length < signatureHeaderSize := by
    decide +kernel
  have hcopied : smallSession.writer.HeaderWithinLimits anyVersions crc32 copyEncoder {} :=
    ArchiveWriter.headerWithinLimits_copy crc32 hencryption (by decide +kernel)
      ⟨by decide, by decide +kernel, by constructor <;> decide +kernel, by decide +kernel, rfl⟩
  have hrounds : (unstoring file).rounds = file.length + 1 := rfl
  have hopens : (unstoring file).Opens {} anyVersions storingEncoder smallSession file := {
    within := smallSession_within
    header := ⟨fun header hresult => hcopied.endHeader header
      (by rwa [← ArchiveWriter.writeEncodedHeader_storing _ _ hencryption]), hcopied.encoded⟩
    raw := fun _ => by omega
    undo := unstoring_undo _ _
    seek := fun _ => rfl
    folds := Codecs.foldsPieces_of_not_engaged fun _ => rfl
    machine := hlength.1
    headerRounds := by omega
    rounds := fun block hblock => by
      have := hstored block hblock
      omega }
  have hcompress : compress crc32 storingEncoder [] anyVersions (.ok smallListing) = .ok file :=
    (Result.bind_of_ok compressPath_smallListing).trans hfinish
  have hcrcs : smallSession.writer.packInfo.crcs.all (· != 0) = true := by
    decide +kernel
  have hdrives : smallListing.names.all (fun name => !namesADrive name) = true := by
    decide
  have hdistinct : IoError.other "refused" ≠ .other "not found" := by
    decide
  obtain ⟨s', hextract⟩ : ∃ s', decompressDefault (.inMemory (.other "not found")
        (.other "refused")) (unstoring file) (pure ()) {} false file (fun _ => none) =
          (.ok (), s') ∧ ∀ path, path ≠ [] → s' path = (smallListing.tree path).or none :=
    decompressDefault_compress smallListing_proper
      (fun name hname => by simpa using List.all_eq_true.mp hdrives name hname) hcompress rfl
      (.inl fun crc hcrc => bne_iff_ne.mp (List.all_eq_true.mp hcrcs crc hcrc))
      (unstoring_undoContent file anyVersions) hopens (fun _ _ => rfl)
      (DirHandle.inMemory_keeps hdistinct) DirHandle.inMemory_obliges rfl
      (FileTree.fits_of_empty fun _ _ => rfl)
  exact ⟨file, s', hcompress, hextract⟩

end Sevenz
