import Sevenz.Lib.FileTree
import Sevenz.Lib.Path
import Sevenz.Writer.Records

/-!
# Compressing a directory

`compress` (`util/compress.rs`) on Unix: the entries of the directory are pushed one after the
other, each directory before what is in it.
-/

namespace Sevenz

open Lib

/-- What `read_dir` gives of a directory, with what is behind each name, up to the first call that
fails: `unread` is a directory that cannot be read, `unopened` a file that cannot be opened. -/
inductive DirListing where
  | done
  | broken (error : IoError)
  | unread (name : List Char) (metadata : ArchiveEntry.PathMetadata) (error : IoError)
  | unopened (name : List Char) (error : IoError)
  | file (name : List Char) (metadata : ArchiveEntry.PathMetadata) (source : Source)
      (rest : DirListing)
  | folder (name : List Char) (metadata : ArchiveEntry.PathMetadata) (inside rest : DirListing)
  | other (name : List Char) (rest : DirListing)

def relativeName (path : List (List Char)) : List Char := List.intercalate ['/'] path

def pathText (root : List Char) (path : List (List Char)) : List Char :=
  if root = [] ∨ root.getLast? = some '/' then root ++ relativeName path
  else root ++ '/' :: relativeName path

def folderEntry (path : List (List Char)) (metadata : ArchiveEntry.PathMetadata) : ArchiveEntry :=
  .fromPath { metadata with isFile := false, isDir := true } (relativeName path)

def fileEntry (path : List (List Char)) (metadata : ArchiveEntry.PathMetadata) : ArchiveEntry :=
  .fromPath { metadata with isFile := true, isDir := false } (relativeName path)

def ArchiveWriter.pushed (writer : ArchiveWriter) (call : Emits Fault ArchiveWriter) :
    Result ArchiveWriter :=
  call.result.map fun _ => writer.after call

section

variable (crc32 : List UInt8 → UInt32) (encoder : ContentEncoder) (root : List Char)

def compressPath (path : List (List Char)) : DirListing → ArchiveWriter → Result ArchiveWriter
  | .done, writer => pure writer
  | .broken error, _ => Result.fail (.ofIo error)
  | .unread name metadata error, writer => do
      let _ ← writer.pushed
        (writer.pushArchiveEntry crc32 encoder (folderEntry (path ++ [name]) metadata) none)
      Result.fail (.io error "error read dir")
  | .unopened name error, _ =>
      Result.fail (.io error (String.ofList (pathText root (path ++ [name]))))
  | .file name metadata source rest, writer => do
      let writer ← writer.pushed (writer.pushArchiveEntry crc32 encoder
        (fileEntry (path ++ [name]) metadata) (some source))
      compressPath path rest writer
  | .folder name metadata inside rest, writer => do
      let writer ← writer.pushed
        (writer.pushArchiveEntry crc32 encoder (folderEntry (path ++ [name]) metadata) none)
      let writer ← compressPath (path ++ [name]) inside writer
      compressPath path rest writer
  | .other _ rest, writer => compressPath path rest writer

/-- `compress`.  A file is compressed as a directory is in which there is nothing else. -/
def compress (versions : CodecVersions) (listing : Except IoError DirListing) :
    Result (List UInt8) :=
  match listing with
  | .error error => Result.fail (.io error "error read dir")
  | .ok listing => do
      let writer ← compressPath crc32 encoder root [] listing .new
      writer.finish versions crc32 encoder

end

namespace DirListing

def pushes (encoder : ContentEncoder) (path : List (List Char)) : DirListing → List Push
  | .file name metadata source rest =>
      .archiveEntry encoder (fileEntry (path ++ [name]) metadata) (some source) ::
        pushes encoder path rest
  | .folder name metadata inside rest =>
      .archiveEntry encoder (folderEntry (path ++ [name]) metadata) none ::
        (pushes encoder (path ++ [name]) inside ++ pushes encoder path rest)
  | .other _ rest => pushes encoder path rest
  | _ => []

def entries (path : List (List Char)) : DirListing → List (List (List Char) × Node)
  | .file name _ source rest => (path ++ [name], .file source.content) :: entries path rest
  | .folder name _ inside rest =>
      (path ++ [name], .dir) :: (entries (path ++ [name]) inside ++ entries path rest)
  | .other _ rest => entries path rest
  | _ => []

/-- What there is in the directory, by the paths from it: only files and directories count. -/
def tree : DirListing → FileTree Component
  | .file name _ source rest, path =>
      if path = [.normal name] then some (.file source.content) else tree rest path
  | .folder name _ inside rest, path =>
      match path with
      | [] => none
      | first :: path =>
          if first = .normal name then if path = [] then some .dir else tree inside path
          else tree rest (first :: path)
  | .other _ rest, path => tree rest path
  | _, _ => none

def names : DirListing → List (List Char)
  | .file name _ _ rest => name :: names rest
  | .folder name _ _ rest => name :: names rest
  | .other _ rest => names rest
  | _ => []

/-- Names that are different from each other, and each one component without a backslash and a
NUL, and files that a verifying reader can count. -/
def Proper : DirListing → Prop
  | .file name _ source rest =>
      (Path.Plain name ∧ '\x00' ∉ name) ∧ name ∉ rest.names ∧ source.content.length < 2 ^ 63 ∧
        Proper rest
  | .folder name _ inside rest =>
      (Path.Plain name ∧ '\x00' ∉ name) ∧ name ∉ rest.names ∧ Proper inside ∧ Proper rest
  | .other _ rest => Proper rest
  | _ => True

variable {listing : DirListing} {path : List (List Char)}

theorem names_of_tree {q : List Component} {node : Node} (h : listing.tree q = some node) :
    ∃ name ∈ listing.names, q.head? = some (.normal name) := by
  induction listing with
  | file name metadata source rest ih =>
      rw [tree] at h
      split at h
      · rename_i hq
        exact ⟨name, List.mem_cons_self, by rw [hq]; rfl⟩
      · obtain ⟨other, hother, hhead⟩ := ih h
        exact ⟨other, List.mem_cons_of_mem _ hother, hhead⟩
  | folder name metadata inside rest _ ih =>
      cases q with
      | nil => cases h
      | cons first q =>
          rw [tree] at h
          split at h
          · rename_i hfirst
            exact ⟨name, List.mem_cons_self, congrArg some hfirst⟩
          · obtain ⟨other, hother, hhead⟩ := ih h
            exact ⟨other, List.mem_cons_of_mem _ hother, hhead⟩
  | other name rest ih => exact ih h
  | _ => cases h

theorem tree_of_not_mem {name : List Char} (h : name ∉ listing.names) (q : List Component) :
    listing.tree (.normal name :: q) = none := by
  rw [Option.eq_none_iff_forall_ne_some]
  intro node hnode
  obtain ⟨other, hother, hhead⟩ := names_of_tree hnode
  cases hhead
  exact h hother

theorem plain_of_tree (hproper : listing.Proper) {q : List Component} {node : Node}
    (h : listing.tree q = some node) : ∃ rest : List (List Char), rest ≠ [] ∧
      q = rest.map .normal ∧ ∀ name ∈ rest, Path.Plain name ∧ '\x00' ∉ name := by
  induction listing generalizing q with
  | file name metadata source rest ih =>
      rw [tree] at h
      split at h
      · rename_i hq
        exact ⟨[name], List.cons_ne_nil _ _, hq, List.forall_mem_singleton.mpr hproper.1⟩
      · exact ih hproper.2.2.2 h
  | folder name metadata inside rest ihInside ihRest =>
      cases q with
      | nil => cases h
      | cons first q =>
          rw [tree] at h
          split at h
          · rename_i hfirst
            split at h
            · rename_i hq
              refine ⟨[name], List.cons_ne_nil _ _, ?_, List.forall_mem_singleton.mpr hproper.1⟩
              rw [hfirst, hq]
              rfl
            · obtain ⟨below, -, hbelow, hplain⟩ := ihInside hproper.2.2.1 h
              refine ⟨name :: below, List.cons_ne_nil _ _, ?_,
                List.forall_mem_cons.mpr ⟨hproper.1, hplain⟩⟩
              rw [hfirst, hbelow]
              rfl
          · exact ihRest hproper.2.2.2 h
  | other name rest ih => exact ih hproper h
  | _ => cases h

theorem tree_rooted (hproper : listing.Proper) : listing.tree.Rooted := by
  intro base below node hbase hbelow h
  induction listing generalizing base with
  | file name metadata source rest ih =>
      rw [tree] at h ⊢
      split at h
      · rename_i hpath
        rcases List.append_eq_singleton_iff.mp hpath with ⟨hnil, -⟩ | ⟨-, hnil⟩
        · exact absurd hnil hbase
        · exact absurd hnil hbelow
      · rw [if_neg, ih hproper.2.2.2 hbase h]
        rintro rfl
        rw [List.singleton_append, tree_of_not_mem hproper.2.1] at h
        cases h
  | folder name metadata inside rest ihInside ihRest =>
      cases base with
      | nil => exact absurd rfl hbase
      | cons first base =>
          rw [List.cons_append, tree] at h
          rw [tree]
          split at h
          · rename_i hfirst
            rw [if_pos hfirst]
            rw [if_neg (by simp [hbelow])] at h
            split
            · rfl
            · rename_i hne
              exact ihInside hproper.2.2.1 hne h
          · rename_i hfirst
            rw [if_neg hfirst]
            exact ihRest hproper.2.2.2 hbase h
  | other name rest ih => exact ih hproper hbase h
  | _ => cases h

theorem mem_entries_iff (hproper : listing.Proper) {p : List (List Char)} {node : Node} :
    (p, node) ∈ listing.entries path ↔
      ∃ below, p = path ++ below ∧ listing.tree (below.map .normal) = some node := by
  induction listing generalizing path with
  | file name metadata source rest ih =>
      rw [entries, List.mem_cons, ih hproper.2.2.2, Prod.mk.injEq]
      constructor
      · rintro (⟨rfl, rfl⟩ | ⟨below, rfl, h⟩)
        · exact ⟨[name], rfl, if_pos rfl⟩
        · refine ⟨below, rfl, ?_⟩
          rw [tree, if_neg, h]
          intro hbelow
          rw [hbelow, tree_of_not_mem hproper.2.1] at h
          cases h
      · rintro ⟨below, rfl, h⟩
        rw [tree] at h
        split at h
        · rename_i hbelow
          cases h
          obtain rfl : below = [name] := by
            apply List.map_injective_iff.mpr (fun _ _ heq => Component.normal.inj heq) hbelow
          exact .inl ⟨rfl, rfl⟩
        · exact .inr ⟨below, rfl, h⟩
  | folder name metadata inside rest ihInside ihRest =>
      rw [entries, List.mem_cons, List.mem_append, ihInside hproper.2.2.1, ihRest hproper.2.2.2,
        Prod.mk.injEq]
      constructor
      · rintro (⟨rfl, rfl⟩ | ⟨below, rfl, h⟩ | ⟨below, rfl, h⟩)
        · exact ⟨[name], rfl, by simp [tree]⟩
        · refine ⟨name :: below, List.append_assoc .., ?_⟩
          rw [List.map_cons, tree, if_pos rfl, if_neg, h]
          rintro hnil
          obtain ⟨other, -, hhead⟩ := names_of_tree h
          rw [hnil] at hhead
          cases hhead
        · refine ⟨below, rfl, ?_⟩
          cases below with
          | nil =>
              obtain ⟨other, -, hhead⟩ := names_of_tree h
              cases hhead
          | cons first below =>
              rw [List.map_cons, tree, if_neg]
              · exact h
              · intro hfirst
                rw [List.map_cons, hfirst, tree_of_not_mem hproper.2.1] at h
                cases h
      · rintro ⟨below, rfl, h⟩
        cases below with
        | nil => cases h
        | cons first below =>
            rw [List.map_cons, tree] at h
            split at h
            · rename_i hfirst
              cases hfirst
              split at h
              · rename_i hnil
                cases h
                obtain rfl := List.map_eq_nil_iff.mp hnil
                exact .inl ⟨rfl, rfl⟩
              · exact .inr (.inl ⟨below, List.append_cons .., h⟩)
            · exact .inr (.inr ⟨first :: below, rfl, h⟩)
  | other name rest ih => exact ih hproper
  | _ =>
      simp only [entries, tree, List.not_mem_nil, false_iff]
      rintro ⟨below, -, ⟨⟩⟩

def content : Node → Option (List UInt8)
  | .file data => some data
  | _ => none

theorem owned_pushes (encoder : ContentEncoder) (path : List (List Char)) (listing : DirListing) :
    (listing.pushes encoder path).flatMap Push.owned =
      (listing.entries path).map fun entry => content entry.2 := by
  induction listing generalizing path with
  | file name metadata source rest ih => exact congrArg (some source.content :: ·) (ih path)
  | folder name metadata inside rest ihInside ihRest =>
      rw [pushes, entries, List.flatMap_cons, List.flatMap_append, List.map_cons, List.map_append,
        ihInside, ihRest]
      rfl
  | other name rest ih => exact ih path
  | _ => rfl

theorem mem_pushes (hproper : listing.Proper) {encoder : ContentEncoder} {push : Push}
    (h : push ∈ listing.pushes encoder path) :
    push.Flagged ∧ ∃ entry reader, push = .archiveEntry encoder entry reader := by
  induction listing generalizing path with
  | file name metadata source rest ih =>
      rcases List.mem_cons.mp h with rfl | h
      · refine ⟨⟨List.forall_mem_nil _, List.forall_mem_nil _, ?_, Nat.two_pow_pos 64⟩, _, _, rfl⟩
        rintro _ ⟨⟩
        simpa using hproper.2.2.1
      · exact ih hproper.2.2.2 h
  | folder name metadata inside rest ihInside ihRest =>
      rcases List.mem_cons.mp h with rfl | h
      · exact ⟨⟨List.forall_mem_nil _, List.forall_mem_nil _, nofun, Nat.two_pow_pos 64⟩, _, _, rfl⟩
      · rcases List.mem_append.mp h with h | h
        · exact ihInside hproper.2.2.1 h
        · exact ihRest hproper.2.2.2 h
  | other name rest ih => exact ih hproper h
  | _ => cases h

structure Recorded (file : ArchiveEntry) (entry : List (List Char) × Node) : Prop where
  name : file.name = relativeName entry.1
  hasStream : file.hasStream = decide (entry.2 ≠ .dir)
  isDirectory : file.isDirectory = decide (entry.2 = .dir)
  isAntiItem : file.isAntiItem = false

end DirListing

namespace ArchiveWriter

variable {crc32 : List UInt8 → UInt32} {encoder : ContentEncoder} {writer writer' : ArchiveWriter}

theorem pushed_eq_ok {call : Emits Fault ArchiveWriter} :
    writer.pushed call = .ok writer' ↔ call.result.isOk = true ∧ writer' = writer.after call := by
  cases hresult : call.result <;>
    simp [pushed, hresult, Except.map, Except.isOk, Except.toBool, eq_comm]

theorem after_pushArchiveEntry {entry : ArchiveEntry} {reader : Option Source}
    (h : (writer.pushArchiveEntry crc32 encoder entry reader).result.isOk = true) :
    (writer.after (writer.pushArchiveEntry crc32 encoder entry reader)).contentMethods =
        writer.contentMethods ∧
      ∃ file, (writer.after (writer.pushArchiveEntry crc32 encoder entry reader)).files =
          writer.files ++ [file] ∧
        file.name = entry.name ∧ file.hasStream = (!entry.isDirectory && reader.isSome) ∧
          file.isDirectory = entry.isDirectory ∧ file.isAntiItem = entry.isAntiItem := by
  rcases writer.pushArchiveEntry_eq crc32 encoder entry reader with
    ⟨heq, hcontents⟩ | ⟨source, hcontents, heq⟩
  · rw [heq]
    refine ⟨rfl, _, rfl, rfl, ?_, rfl, rfl⟩
    cases reader with
    | none => cases entry.isDirectory <;> rfl
    | some source =>
        cases hdirectory : entry.isDirectory with
        | true => rfl
        | false => simp [Push.contents, hdirectory] at hcontents
  · rw [heq] at h ⊢
    dsimp only [after] at h ⊢
    cases hresult : (encoder.encodeContent crc32 (.entry entry.name) writer.contentMethods
        [.new source]).result with
    | error e =>
        rw [hresult] at h
        cases h
    | ok encoded =>
        refine ⟨rfl, _, rfl, rfl, ?_, rfl, rfl⟩
        cases reader with
        | none => cases hcontents
        | some source =>
            cases hdirectory : entry.isDirectory with
            | true => simp [Push.contents, hdirectory] at hcontents
            | false => rfl

end ArchiveWriter

section

variable {crc32 : List UInt8 → UInt32} {encoder : ContentEncoder} {root : List Char}
  {path : List (List Char)} {listing : DirListing}

theorem compressPath_files {writer writer' : ArchiveWriter}
    (h : compressPath crc32 encoder root path listing writer = .ok writer') :
    ∃ files, writer'.files = writer.files ++ files ∧
      List.Forall₂ DirListing.Recorded files (listing.entries path) := by
  induction listing generalizing path writer writer' with
  | done =>
      cases h
      exact ⟨[], (List.append_nil _).symm, .nil⟩
  | broken error => cases h
  | unopened name error => cases h
  | unread name metadata error =>
      obtain ⟨_, -, h⟩ := Result.bind_eq_ok.mp h
      cases h
  | file name metadata source rest ih =>
      obtain ⟨pushed, hpush, hrest⟩ := Result.bind_eq_ok.mp h
      obtain ⟨hok, rfl⟩ := ArchiveWriter.pushed_eq_ok.mp hpush
      obtain ⟨-, file, hfile, hname, hstream, hdirectory, hanti⟩ :=
        ArchiveWriter.after_pushArchiveEntry hok
      obtain ⟨files, hfiles, hall⟩ := ih hrest
      refine ⟨file :: files, ?_, .cons ⟨hname, hstream, hdirectory, hanti⟩ hall⟩
      rw [hfiles, hfile, List.append_assoc]
      rfl
  | folder name metadata inside rest ihInside ihRest =>
      obtain ⟨pushed, hpush, h⟩ := Result.bind_eq_ok.mp h
      obtain ⟨below, hinside, hrest⟩ := Result.bind_eq_ok.mp h
      obtain ⟨hok, rfl⟩ := ArchiveWriter.pushed_eq_ok.mp hpush
      obtain ⟨-, file, hfile, hname, hstream, hdirectory, hanti⟩ :=
        ArchiveWriter.after_pushArchiveEntry hok
      obtain ⟨files, hfiles, hall⟩ := ihInside hinside
      obtain ⟨files', hfiles', hall'⟩ := ihRest hrest
      refine ⟨file :: (files ++ files'), ?_,
        .cons ⟨hname, hstream, hdirectory, hanti⟩ (List.rel_append hall hall')⟩
      rw [hfiles', hfiles, hfile, List.append_assoc, List.append_assoc]
      rfl
  | other name rest ih => exact ih h

theorem Session.step_writer (crc32 : List UInt8 → UInt32) (session : Session) (push : Push) :
    ∃ session', Session.step crc32 session push = some session' ∧
      session'.writer = session.writer.after (push.perform crc32 session.writer) :=
  ⟨_, rfl, rfl⟩

theorem compressPath_run {session : Session} {writer' : ArchiveWriter}
    (h : compressPath crc32 encoder root path listing session.writer = .ok writer') :
    ∃ session', run (Session.step crc32) session (listing.pushes encoder path) = some session' ∧
      session'.writer = writer' ∧ writer'.contentMethods = session.writer.contentMethods ∧
      EveryStep (Session.step crc32) session (listing.pushes encoder path)
        fun _ push before _ => push.Succeeds crc32 before.writer ∧
          before.writer.contentMethods = session.writer.contentMethods := by
  induction listing generalizing path session writer' with
  | done =>
      cases h
      exact ⟨session, rfl, rfl, rfl, .nil⟩
  | broken error => cases h
  | unopened name error => cases h
  | unread name metadata error =>
      obtain ⟨_, -, h⟩ := Result.bind_eq_ok.mp h
      cases h
  | file name metadata source rest ih =>
      obtain ⟨pushed, hpush, hrest⟩ := Result.bind_eq_ok.mp h
      obtain ⟨hok, rfl⟩ := ArchiveWriter.pushed_eq_ok.mp hpush
      obtain ⟨hmethods, -⟩ := ArchiveWriter.after_pushArchiveEntry hok
      obtain ⟨session₁, hstep, hwriter⟩ := session.step_writer crc32
        (.archiveEntry encoder (fileEntry (path ++ [name]) metadata) (some source))
      have hsame : session₁.writer.contentMethods = session.writer.contentMethods :=
        hwriter ▸ hmethods
      replace hrest : compressPath crc32 encoder root path rest session₁.writer = .ok writer' :=
        hwriter ▸ hrest
      obtain ⟨session', hrun, hend, hmethods', hsteps⟩ := ih hrest
      rw [hsame] at hmethods' hsteps
      refine ⟨session', ?_, hend, hmethods', .cons hstep ⟨hok, rfl⟩ hsteps⟩
      rw [DirListing.pushes, run_cons, hstep]
      exact hrun
  | folder name metadata inside rest ihInside ihRest =>
      obtain ⟨pushed, hpush, h⟩ := Result.bind_eq_ok.mp h
      obtain ⟨below, hinside, hrest⟩ := Result.bind_eq_ok.mp h
      obtain ⟨hok, rfl⟩ := ArchiveWriter.pushed_eq_ok.mp hpush
      obtain ⟨hmethods, -⟩ := ArchiveWriter.after_pushArchiveEntry hok
      obtain ⟨session₁, hstep, hwriter⟩ := session.step_writer crc32
        (.archiveEntry encoder (folderEntry (path ++ [name]) metadata) none)
      have hsame : session₁.writer.contentMethods = session.writer.contentMethods :=
        hwriter ▸ hmethods
      replace hinside : compressPath crc32 encoder root (path ++ [name]) inside session₁.writer =
        .ok below := hwriter ▸ hinside
      obtain ⟨session₂, hrun, rfl, hmethods₂, hsteps⟩ := ihInside hinside
      obtain ⟨session', hrun', hend, hmethods', hsteps'⟩ := ihRest hrest
      rw [hmethods₂, hsame] at hmethods' hsteps'
      rw [hsame] at hsteps
      refine ⟨session', ?_, hend, hmethods',
        .cons hstep ⟨hok, rfl⟩ (.append hrun hsteps hsteps')⟩
      rw [DirListing.pushes, run_cons, hstep, Option.bind_some, run_append, hrun]
      exact hrun'
  | other name rest ih => exact ih h

end

end Sevenz
