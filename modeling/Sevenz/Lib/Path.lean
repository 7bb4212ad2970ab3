import Mathlib.Data.List.Basic

/-!
# Paths

A path is what its components are (`Path::components`), by which paths are compared, on Unix and
on Windows.
-/

namespace Sevenz.Lib

inductive PathStyle where
  | unix
  | windows
  deriving DecidableEq, Repr

inductive PathPrefix where
  | drive (letter : Char)
  | share (server share : List Char)
  | verbatim (name : List Char)
  deriving DecidableEq, Repr

inductive Component where
  | prefixed (start : PathPrefix)
  | rootDir
  | curDir
  | parentDir
  | normal (part : List Char)
  deriving DecidableEq, Repr

abbrev PathBuf := List Component

def PathStyle.isSep : PathStyle → Char → Bool
  | .unix, c => c == '/'
  | .windows, c => c == '/' || c == '\\'

namespace Path

def driveLetter : List Char → Option Char
  | letter :: ':' :: _ => if letter.isAlpha then some letter.toUpper else none
  | _ => none

def component (part : List Char) : Option Component :=
  if part = [] ∨ part = ['.'] then none
  else if part = ['.', '.'] then some .parentDir
  else some (.normal part)

/-- A path without a root.  A dot in front is a component, a dot further on is none. -/
def relative (style : PathStyle) (path : List Char) : List Component :=
  let parts := path.splitOnP style.isSep
  (if parts.head? = some ['.'] then [.curDir] else []) ++ parts.filterMap component

def rooted (style : PathStyle) : List Char → List Component
  | [] => []
  | c :: path =>
      if style.isSep c then .rootDir :: (path.splitOnP style.isSep).filterMap component
      else relative style (c :: path)

/-- `Path::components`.  Of what a path on Windows may begin with only a drive is read: all else
begins with two separators. -/
def components (style : PathStyle) (path : List Char) : List Component :=
  match style, driveLetter path with
  | .windows, some letter => .prefixed (.drive letter) :: rooted .windows (path.drop 2)
  | style, _ => rooted style path

def append (base path : PathBuf) : PathBuf :=
  if base = [] then path else base ++ path.filter (· ≠ .curDir)

def IsVerbatim : PathBuf → Prop
  | .prefixed (.verbatim _) :: _ => True
  | _ => False

instance : DecidablePred IsVerbatim := fun base =>
  match base with
  | [] => .isFalse id
  | .prefixed (.verbatim _) :: _ => .isTrue trivial
  | .prefixed (.drive _) :: _ => .isFalse id
  | .prefixed (.share _ _) :: _ => .isFalse id
  | .rootDir :: _ => .isFalse id
  | .curDir :: _ => .isFalse id
  | .parentDir :: _ => .isFalse id
  | .normal _ :: _ => .isFalse id

def addVerbatim (base : PathBuf) : Component → PathBuf
  | .rootDir => base.take 1 ++ [.rootDir]
  | .curDir => base
  | .parentDir =>
      match base.getLast? with
      | some (.normal _) => base.dropLast
      | _ => base
  | c => base ++ [c]

/-- `PathBuf::push`.  A path with a root replaces the one it is pushed on, up to a drive on
Windows, where a path with a drive replaces the other whole. -/
def push : PathStyle → PathBuf → PathBuf → PathBuf
  | .unix, _, .rootDir :: path => .rootDir :: path
  | .unix, base, path => append base path
  | .windows, _, .prefixed start :: path => .prefixed start :: path
  | .windows, base, path =>
      if IsVerbatim base then path.foldl addVerbatim base
      else if path.head? = some .rootDir then
        base.takeWhile (fun c => match c with | .prefixed _ => true | _ => false) ++ path
      else append base path

structure Plain (part : List Char) : Prop where
  ne_nil : part ≠ []
  ne_dot : part ≠ ['.']
  ne_dots : part ≠ ['.', '.']
  no_slash : '/' ∉ part
  no_backslash : '\\' ∉ part

theorem Plain.component {part : List Char} (h : Plain part) :
    component part = some (.normal part) := by
  rw [Path.component, if_neg (by simp [h.ne_nil, h.ne_dot]), if_neg h.ne_dots]

theorem Plain.isSep {part : List Char} (h : Plain part) (style : PathStyle) :
    ∀ c ∈ part, style.isSep c = false := by
  intro c hc
  have hslash : c ≠ '/' := fun heq => h.no_slash (heq ▸ hc)
  have hbackslash : c ≠ '\\' := fun heq => h.no_backslash (heq ▸ hc)
  cases style with
  | unix => simpa [PathStyle.isSep] using hslash
  | windows => simp [PathStyle.isSep, hslash, hbackslash]

theorem Plain.rooted {part : List Char} (h : Plain part) (style : PathStyle) :
    rooted style part = [.normal part] := by
  have hsplit : part.splitOnP style.isSep = [part] := List.splitOnP_eq_singleton (h.isSep style)
  match part, h, hsplit with
  | [], h, _ => exact absurd rfl h.ne_nil
  | c :: rest, h, hsplit =>
      have hsep := h.isSep style c List.mem_cons_self
      have hdot : (some (c :: rest) = some ['.']) = False := by simpa using h.ne_dot
      rw [Path.rooted, hsep, if_neg Bool.false_ne_true, relative, hsplit]
      simp [h.component, h.ne_dot]

theorem components_of_driveless {path : List Char} (h : driveLetter path = none)
    (style : PathStyle) : components style path = rooted style path := by
  unfold components
  rw [h]
  cases style with
  | unix => rfl
  | windows => rfl

theorem push_normal (style : PathStyle) (base : PathBuf) (part : List Char) :
    push style base [.normal part] = base ++ [.normal part] := by
  have happend : append base [.normal part] = base ++ [.normal part] := by
    rw [append]
    split
    · rename_i hnil
      rw [hnil]
      rfl
    · simp
  cases style with
  | unix => exact happend
  | windows =>
      rw [push]
      · split
        · rfl
        · simpa using happend
      · simp

theorem push_drive (base : PathBuf) {part : List Char} {letter : Char}
    (h : driveLetter part = some letter) :
    push .windows base (components .windows part) = components .windows part := by
  unfold components
  rw [h]
  rfl

end Path

end Sevenz.Lib
