import Sevenz.Extract.SafeJoin
import Sevenz.Lib.FileTree
import Sevenz.Lib.Replay
import Sevenz.Reader.MemoryEstimate
import Sevenz.Reader.WalkRuns

/-!
# Extracting an archive

`decompress_default` (`util/decompress.rs`), on Unix: each entry is put below the root by
`extract_in_root`, through the handle of the open root.
-/

namespace Sevenz

open Lib

section

variable {σ : Type} (dir : DirHandle Component IoError σ)

def checkLinks (base : PathBuf) : List Component → Effect Error σ Unit
  | [] => pure ()
  | part :: parts => fun s =>
      match dir.symlinkMetadata (base ++ [part]) s with
      | .ok .link => (.error (.other "symbolic link in extraction path"), s)
      | .ok _ => checkLinks (base ++ [part]) parts s
      | .error e =>
          if dir.isNotFound e then checkLinks (base ++ [part]) parts s
          else (.error (.ofIo e), s)

def makeParent (relative : PathBuf) : Effect Error σ Unit :=
  if relative.dropLast ≠ [] then (dir.createDirAll relative.dropLast).mapError .ofIo else pure ()

def removeOld (relative : PathBuf) : Effect Error σ Unit := fun s =>
  match dir.removeFile relative s with
  | (.ok (), s) => (.ok (), s)
  | (.error e, s) => if dir.isNotFound e then (.ok (), s) else (.error (.ofIo e), s)

def openEntry (entry : ArchiveEntry) (relative : PathBuf) : Effect Error σ Bool := do
  checkLinks dir [] relative
  if entry.isDirectory then
    (dir.createDirAll relative).mapError .ofIo
    pure false
  else
    makeParent dir relative
    removeOld dir relative
    (dir.createNew relative).mapError .ofIo
    pure true

/-- `io::copy` into the new file, and the flush.  The last component is the state after it. -/
def copyEntry (bufs : Nat → Nat) (relative : PathBuf) :
    Nat → σ → Script IoError (Option (Except Error Bool) × σ)
  | 0, s => .finish (none, s)
  | rounds + 1, s =>
      .read (bufs rounds + 1) fun answer =>
        match answer with
        | .ok [] =>
            match dir.flush relative s with
            | (.ok (), s) => .finish (some (.ok true), s)
            | (.error e, s) => .finish (some (.error (.ofIo e)), s)
        | .ok (byte :: bytes) =>
            match dir.write relative (byte :: bytes) s with
            | (.ok (), s) => copyEntry bufs relative rounds s
            | (.error e, s) => .finish (some (.error (.ofIo e)), s)
        | .error e =>
            if retryInterrupted e then copyEntry bufs relative rounds s
            else .finish (some (.error (.ofIo e)), s)

/-- `extract_in_root`.  The times of the file are not modelled: failing to set them is no error. -/
def extractInRoot (bufs : Nat → Nat) (rounds : Nat) (entry : ArchiveEntry) (relative : PathBuf)
    (s : σ) : Script IoError (Option (Except Error Bool) × σ) :=
  match openEntry dir entry relative s with
  | (.error e, s) => .finish (some (.error e), s)
  | (.ok false, s) => .finish (some (.ok true), s)
  | (.ok true, s) => copyEntry dir bufs relative rounds s

variable (codecs : Codecs)

def extractEntry (entry : ArchiveEntry) (s : σ) :
    Script IoError (Option (Except Error Bool) × σ) :=
  match safeJoin .unix [] entry.name with
  | .ok relative => extractInRoot dir codecs.bufferLength codecs.rounds entry relative s
  | .error (.error e) => .finish (some (.error e), s)
  | .error _ => .finish (none, s)

def stateAfter (archive : Archive) (s : σ) (visits : List Visit) : σ :=
  visits.foldl
    (fun s visit =>
      match archive.files[visit.fileIndex]? with
      | none => s
      | some entry =>
          (((extractEntry dir codecs entry s).replay visit.records).map Prod.snd).getD s)
    s

def extractAll (archive : Archive) (s : σ) : Callback := fun visits _ entry =>
  (extractEntry dir codecs entry (stateAfter dir codecs archive s visits)).map Prod.fst

def decompressDefault (openExtractRoot : Effect IoError σ Unit) (limits : ArchiveLimits)
    (passwordGiven : Bool) (bytes : List UInt8) (s : σ) : Result Unit × σ :=
  match ArchiveReader.withLimits codecs bytes passwordGiven limits with
  | .error fault => (.error fault, s)
  | .ok seven =>
      match openExtractRoot s with
      | (.error e, s) => (Result.fail (.ofIo e), s)
      | (.ok (), s) =>
          let (result, log) := seven.forEachEntries (extractAll dir codecs seven.archive s)
          (result, stateAfter dir codecs seven.archive s log.visits)

end

def ArchiveEntry.node (entry : ArchiveEntry) (data : List UInt8) : Node :=
  if entry.isDirectory then .dir else .file data

section

variable {σ : Type} {dir : DirHandle Component IoError σ} {tree : σ → FileTree Component}
  {codecs : Codecs} {entry : ArchiveEntry} {relative : PathBuf} {s s' : σ}

theorem checkLinks_cases (hkeeps : dir.Keeps tree) {base : PathBuf} {parts : List Component}
    {r : Except Error Unit} (h : checkLinks dir base parts s = (r, s')) :
    s' = s ∧ (r = .ok () → (tree s).Linkless base → (tree s).Linkless (base ++ parts)) := by
  induction parts generalizing base with
  | nil =>
      cases h
      exact ⟨rfl, fun _ hbase => by rwa [List.append_nil]⟩
  | cons part parts ih =>
      rw [checkLinks] at h
      dsimp only at h
      split at h
      · cases h
        exact ⟨rfl, nofun⟩
      · rename_i kind hkind hmeta
        obtain ⟨rfl, hlinkless⟩ := ih h
        refine ⟨rfl, fun hok hbase => ?_⟩
        rw [List.append_cons]
        refine hlinkless hok (hbase.concat fun target hlink => ?_)
        have hfound := hkeeps.metadata hbase hmeta
        rw [hlink] at hfound
        exact hkind (Option.some.inj hfound).symm
      · rename_i e hmeta
        split at h
        · rename_i hmissing
          obtain ⟨rfl, hlinkless⟩ := ih h
          refine ⟨rfl, fun hok hbase => ?_⟩
          rw [List.append_cons]
          refine hlinkless hok (hbase.concat fun target hlink => ?_)
          rw [hkeeps.metadata_missing hbase hmeta hmissing] at hlink
          cases hlink
        · cases h
          exact ⟨rfl, nofun⟩

theorem removeOld_cases (hkeeps : dir.Keeps tree) {r : Except Error Unit}
    (hlinkless : (tree s).Linkless relative) (h : removeOld dir relative s = (r, s')) :
    (tree s' = tree s ∧ (r = .ok () → tree s relative = none)) ∨
      (∃ data, tree s relative = some (.file data)) ∧ tree s' = (tree s).put relative none := by
  unfold removeOld at h
  split at h
  · rename_i s₁ hremove
    cases h
    exact .inr (hkeeps.removeFile hlinkless hremove)
  · rename_i e s₁ hremove
    obtain ⟨hsame, hmissing⟩ := hkeeps.removeFile_error hlinkless hremove
    split at h
    · rename_i hnotFound
      cases h
      exact .inl ⟨hsame, fun _ => hmissing hnotFound⟩
    · cases h
      exact .inl ⟨hsame, fun hok => by cases hok⟩

theorem createDirAll_cases (hkeeps : dir.Keeps tree) {path : PathBuf} {r : Except Error Unit}
    (hlinkless : (tree s).Linkless path)
    (h : (dir.createDirAll path).mapError Error.ofIo s = (r, s')) :
    ∃ made, made <+: path ∧ (tree s).Passable made ∧ tree s' = (tree s).makeDirs made ∧
      (r = .ok () → made = path) := by
  obtain ⟨e, hcreate, rfl⟩ | ⟨_, hcreate, rfl⟩ := Effect.mapError_cases h
  · obtain ⟨made, hpre, hpass, hmade, -⟩ := hkeeps.createDirAll hlinkless hcreate
    exact ⟨made, hpre, hpass, hmade, nofun⟩
  · obtain ⟨made, hpre, hpass, hmade, hall⟩ := hkeeps.createDirAll hlinkless hcreate
    exact ⟨made, hpre, hpass, hmade, fun _ => hall rfl⟩

theorem makeParent_cases (hkeeps : dir.Keeps tree) {base : PathBuf} {name : Component}
    {r : Except Error Unit} (hlinkless : (tree s).Linkless base)
    (h : makeParent dir (base ++ [name]) s = (r, s')) :
    ∃ made, made <+: base ∧ (tree s).Passable made ∧ tree s' = (tree s).makeDirs made ∧
      (r = .ok () → made = base) := by
  rw [makeParent, List.dropLast_concat] at h
  split at h
  · exact createDirAll_cases hkeeps hlinkless h
  · rename_i hnil
    obtain rfl := not_not.mp hnil
    cases h
    refine ⟨[], List.prefix_rfl, ?_, (FileTree.makeDirs_nil _).symm, fun _ => rfl⟩
    exact fun q hq hpre => absurd (List.prefix_nil.mp hpre) hq

theorem replace_cases (hkeeps : dir.Keeps tree) {r : Except Error Bool} (hne : relative ≠ [])
    (hlinkless : (tree s).Linkless relative)
    (h : (do removeOld dir relative
             (dir.createNew relative).mapError Error.ofIo
             pure true : Effect Error σ Bool) s = (r, s')) :
    FileTree.Grows [(relative, false)] (tree s) (tree s') ∧
      ∀ copies, r = .ok copies → copies = true ∧
        tree s' = (tree s).put relative (some (.file [])) := by
  have hremoved : ∀ {r : Except Error Unit} {s₁ : σ}, removeOld dir relative s = (r, s₁) →
      FileTree.Grows [(relative, false)] (tree s) (tree s₁) ∧
        ((tree s₁ = tree s ∧ (r = .ok () → tree s relative = none)) ∨
          tree s₁ = (tree s).put relative none) := by
    intro r s₁ hremove
    obtain ⟨hsame, hmissing⟩ | ⟨⟨data, hfile⟩, hgone⟩ := removeOld_cases hkeeps hlinkless hremove
    · exact ⟨hsame ▸ .refl _ _, .inl ⟨hsame, hmissing⟩⟩
    · refine ⟨hgone ▸ .put hlinkless hne ?_ nofun, .inr hgone⟩
      rw [hfile]
      simp
  obtain ⟨e, hremove, rfl⟩ | ⟨_, s₁, hremove, h⟩ := Effect.bind_cases h
  · exact ⟨(hremoved hremove).1, nofun⟩
  obtain ⟨hgrows, hgone⟩ := hremoved hremove
  have hlinkless₁ : (tree s₁).Linkless relative := hgrows.linkless_iff.mpr hlinkless
  obtain ⟨e, hcreate, rfl⟩ | ⟨_, s₂, hcreate, h⟩ := Effect.bind_cases h
  · obtain ⟨e, hcreate, -⟩ | ⟨_, -, hok⟩ := Effect.mapError_cases hcreate
    · rw [hkeeps.createNew_error hlinkless₁ hcreate]
      exact ⟨hgrows, nofun⟩
    · cases hok
  · obtain ⟨e, -, herror⟩ | ⟨_, hcreate, -⟩ := Effect.mapError_cases hcreate
    · cases herror
    · cases h
      obtain ⟨hnone, hnew⟩ := hkeeps.createNew hlinkless₁ hcreate
      refine ⟨hgrows.trans (hnew ▸ .put hlinkless₁ hne ?_ nofun), ?_⟩
      · rw [hnone]
        simp
      · rintro _ ⟨⟩
        refine ⟨rfl, ?_⟩
        obtain ⟨hsame, -⟩ | hput := hgone
        · rw [hnew, hsame]
        · rw [hnew, hput, FileTree.put_put]

/-- Everything up to the data: what is done of it makes the tree grow towards the entry, and once
all is done the entry stands at its path, without data yet. -/
theorem openEntry_cases (hkeeps : dir.Keeps tree) (hne : relative ≠ []) {r : Except Error Bool}
    (h : openEntry dir entry relative s = (r, s')) :
    FileTree.Grows [(relative, entry.isDirectory)] (tree s) (tree s') ∧
      ∀ copies, r = .ok copies → copies = !entry.isDirectory ∧ (tree s).Linkless relative ∧
        tree s' = (tree s).place relative (entry.node []) := by
  obtain ⟨base, name, rfl⟩ := (List.eq_nil_or_concat' relative).resolve_left hne
  obtain ⟨e, hcheck, rfl⟩ | ⟨_, s₁, hcheck, hrest⟩ := Effect.bind_cases h
  · obtain ⟨rfl, -⟩ := checkLinks_cases hkeeps hcheck
    exact ⟨.refl _ _, nofun⟩
  obtain ⟨rfl, hchecked⟩ := checkLinks_cases hkeeps hcheck
  have hlinkless : (tree s₁).Linkless (base ++ [name]) :=
    hchecked rfl fun q hq hpre => absurd (List.prefix_nil.mp hpre) hq
  clear h hcheck
  cases hdirectory : entry.isDirectory with
  | true =>
      rw [if_pos hdirectory] at hrest
      obtain ⟨e, hcreate, rfl⟩ | ⟨_, s₂, hcreate, hdone⟩ := Effect.bind_cases hrest
      · obtain ⟨made, hpre, hpass, hmade, -⟩ := createDirAll_cases hkeeps hlinkless hcreate
        exact ⟨hmade ▸ .makeDirs hpre hlinkless hpass, nofun⟩
      · obtain ⟨made, hpre, hpass, hmade, hall⟩ := createDirAll_cases hkeeps hlinkless hcreate
        cases hdone
        obtain rfl := hall rfl
        refine ⟨hmade ▸ .makeDirs hpre hlinkless hpass, ?_⟩
        rintro _ ⟨⟩
        refine ⟨rfl, hlinkless, ?_⟩
        rw [hmade, ArchiveEntry.node, if_pos hdirectory, FileTree.place_dir _ hne]
  | false =>
      rw [if_neg (by rw [hdirectory]; exact Bool.false_ne_true)] at hrest
      have hbase := hlinkless.mono (List.prefix_append base [name])
      obtain ⟨e, hparent, rfl⟩ | ⟨_, s₂, hparent, hreplace⟩ := Effect.bind_cases hrest
      · obtain ⟨made, hpre, hpass, hmade, -⟩ := makeParent_cases hkeeps hbase hparent
        exact ⟨hmade ▸ .makeDirs (hpre.trans (List.prefix_append _ _)) hlinkless hpass, nofun⟩
      · obtain ⟨made, hpre, hpass, hmade, hall⟩ := makeParent_cases hkeeps hbase hparent
        obtain rfl := hall rfl
        have hgrows : FileTree.Grows [(made ++ [name], false)] (tree s₁) (tree s₂) :=
          hmade ▸ .makeDirs (List.prefix_append _ _) hlinkless hpass
        obtain ⟨hnew, hplaced⟩ :=
          replace_cases hkeeps hne (hgrows.linkless_iff.mpr hlinkless) hreplace
        refine ⟨hgrows.trans hnew, fun copies hok => ?_⟩
        obtain ⟨rfl, hput⟩ := hplaced copies hok
        refine ⟨rfl, hlinkless, ?_⟩
        rw [hput, hmade, ArchiveEntry.node, if_neg (by rw [hdirectory]; exact Bool.false_ne_true),
          FileTree.place_file]

section

variable {τ : Type} {read : ReadFn IoError τ} {t t' : τ} {records : List (ReadRecord IoError)}
  {answer : Option (Except Error Bool)}

theorem copyEntry_run (hkeeps : dir.Keeps tree) {bufs : Nat → Nat} {rounds : Nat}
    {data : List UInt8} (hfile : tree s relative = some (.file data))
    (h : (copyEntry dir bufs relative rounds s).run read t = ((answer, s'), records, t')) :
    ∃ data', tree s' = (tree s).put relative (some (.file data')) ∧
      ∀ goOn, answer = some (.ok goOn) → goOn = true ∧ data' = data ++ delivered records := by
  have hself : (tree s).put relative (some (.file data)) = tree s := FileTree.put_eq_self hfile
  induction rounds generalizing s t data records with
  | zero =>
      cases h
      exact ⟨data, hself.symm, fun goOn hok => by cases hok⟩
  | succ rounds ih =>
      rw [copyEntry, Script.run] at h
      rcases hread : read (bufs rounds + 1) t with ⟨e | _ | ⟨byte, bytes⟩, t₁⟩
      · rw [hread] at h
        dsimp only at h
        split at h
        · rcases hrest : (copyEntry dir bufs relative rounds s).run read t₁ with
            ⟨⟨answer₁, s₂⟩, records₁, t₂⟩
          rw [hrest] at h
          cases h
          obtain ⟨data', hput', hdone⟩ := ih hfile hrest hself
          exact ⟨data', hput', fun goOn hok => by
            simpa using hdone goOn hok⟩
        · cases h
          exact ⟨data, hself.symm, fun goOn hok => by cases hok⟩
      · rw [hread] at h
        dsimp only at h
        split at h
        · rename_i s₁ hflush
          obtain ⟨data', hput, hsame⟩ := hkeeps.flush hfile hflush
          cases h
          refine ⟨data', hput, ?_⟩
          rintro _ ⟨⟩
          exact ⟨rfl, (hsame rfl).trans (List.append_nil data).symm⟩
        · rename_i e s₁ hflush
          obtain ⟨data', hput, -⟩ := hkeeps.flush hfile hflush
          cases h
          exact ⟨data', hput, fun goOn hok => by cases hok⟩
      · rw [hread] at h
        dsimp only at h
        split at h
        · rename_i s₁ hwrite
          obtain ⟨data₁, hput, hsame⟩ := hkeeps.write hfile hwrite
          obtain rfl := hsame rfl
          have hfile₁ : tree s₁ relative = some (.file (data ++ byte :: bytes)) := by
            rw [hput, FileTree.put_self]
          rcases hrest : (copyEntry dir bufs relative rounds s₁).run read t₁ with
            ⟨⟨answer₁, s₂⟩, records₁, t₂⟩
          rw [hrest] at h
          cases h
          obtain ⟨data', hput', hdone⟩ := ih hfile₁ hrest (by rw [hput, FileTree.put_put])
          refine ⟨data', by rw [hput', hput, FileTree.put_put], fun goOn hok => ?_⟩
          obtain ⟨hgoOn, hdata⟩ := hdone goOn hok
          exact ⟨hgoOn, by rw [hdata, delivered_cons_ok, List.append_assoc]⟩
        · rename_i e s₁ hwrite
          obtain ⟨data', hput, -⟩ := hkeeps.write hfile hwrite
          cases h
          exact ⟨data', hput, fun goOn hok => by cases hok⟩

theorem extractInRoot_run (hkeeps : dir.Keeps tree) (hne : relative ≠ []) {bufs : Nat → Nat}
    {rounds : Nat}
    (h : (extractInRoot dir bufs rounds entry relative s).run read t =
      ((answer, s'), records, t')) :
    FileTree.Grows [(relative, entry.isDirectory)] (tree s) (tree s') ∧
      ∀ goOn, answer = some (.ok goOn) → goOn = true ∧
        tree s' = (tree s).place relative (entry.node (delivered records)) := by
  unfold extractInRoot at h
  split at h
  · rename_i e s₁ hopen
    cases h
    exact ⟨(openEntry_cases hkeeps hne hopen).1, fun goOn hok => by cases hok⟩
  · rename_i s₁ hopen
    obtain ⟨hgrows, hplaced⟩ := openEntry_cases hkeeps hne hopen
    obtain ⟨-, -, hplace⟩ := hplaced false rfl
    cases h
    refine ⟨hgrows, ?_⟩
    rintro _ ⟨⟩
    exact ⟨rfl, hplace⟩
  · rename_i s₁ hopen
    obtain ⟨hgrows, hplaced⟩ := openEntry_cases hkeeps hne hopen
    obtain ⟨hcopies, hlinkless, hplace⟩ := hplaced true rfl
    have hfiled : entry.isDirectory = false := by simpa using hcopies.symm
    have hnode : ∀ data, entry.node data = .file data := fun data =>
      if_neg (by rw [hfiled]; exact Bool.false_ne_true)
    rw [hnode] at hplace
    have hfile : tree s₁ relative = some (.file []) := by
      rw [hplace, FileTree.place, FileTree.put_self]
    obtain ⟨data', hput, hdone⟩ := copyEntry_run hkeeps hfile h
    rw [hfiled] at hgrows ⊢
    constructor
    · refine hgrows.trans (hput ▸ .put (hgrows.linkless_iff.mpr hlinkless) hne ?_
        fun target hlink => by cases hlink)
      rw [hfile]
      simp
    · intro goOn hok
      obtain ⟨hgoOn, rfl⟩ := hdone goOn hok
      refine ⟨hgoOn, ?_⟩
      rw [hput, hplace, FileTree.place, FileTree.put_put, hnode]
      rfl

end

end

end Sevenz
