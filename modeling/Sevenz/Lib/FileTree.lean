import Mathlib.Data.List.Infix

/-!
# Trees of files

What a directory holds, by the paths from it, and what the operations of an open directory do to
that.  An operation may fail at any time; what it did before stays.
-/

namespace Sevenz.Lib

def Effect (ε σ α : Type) := σ → Except ε α × σ

namespace Effect

variable {ε ε' σ α β : Type}

instance : Monad (Effect ε σ) where
  pure a := fun s => (.ok a, s)
  bind x f := fun s =>
    match x s with
    | (.ok a, s) => f a s
    | (.error e, s) => (.error e, s)

def fail (e : ε) : Effect ε σ α := fun s => (.error e, s)

def mapError (f : ε → ε') (x : Effect ε σ α) : Effect ε' σ α := fun s =>
  Prod.map (Except.mapError f) id (x s)

theorem bind_of_ok {x : Effect ε σ α} {s s' : σ} {a : α} (h : x s = (.ok a, s'))
    (f : α → Effect ε σ β) : (x >>= f) s = f a s' := by
  change (match x s with | (.ok a, s) => f a s | (.error e, s) => (.error e, s)) = f a s'
  rw [h]

theorem bind_cases {x : Effect ε σ α} {f : α → Effect ε σ β} {s s' : σ} {r : Except ε β}
    (h : (x >>= f) s = (r, s')) :
    (∃ e, x s = (.error e, s') ∧ r = .error e) ∨
      ∃ a s₁, x s = (.ok a, s₁) ∧ f a s₁ = (r, s') := by
  change (match x s with | (.ok a, s) => f a s | (.error e, s) => (.error e, s)) = (r, s') at h
  match hx : x s with
  | (.ok a, s₁) =>
      rw [hx] at h
      exact .inr ⟨a, s₁, rfl, h⟩
  | (.error e, s₁) =>
      rw [hx] at h
      cases h
      exact .inl ⟨e, rfl, rfl⟩

theorem mapError_cases {f : ε → ε'} {x : Effect ε σ α} {s s' : σ} {r : Except ε' α}
    (h : x.mapError f s = (r, s')) :
    (∃ e, x s = (.error e, s') ∧ r = .error (f e)) ∨ ∃ a, x s = (.ok a, s') ∧ r = .ok a := by
  unfold mapError at h
  match hx : x s with
  | (.ok a, s₁) =>
      rw [hx] at h
      cases h
      exact .inr ⟨a, rfl, rfl⟩
  | (.error e, s₁) =>
      rw [hx] at h
      cases h
      exact .inl ⟨e, rfl, rfl⟩

theorem mapError_of_ok {x : Effect ε σ α} {s s' : σ} {a : α} (h : x s = (.ok a, s'))
    (f : ε → ε') : x.mapError f s = (.ok a, s') := by
  rw [mapError, h]
  rfl

end Effect

inductive NodeKind where
  | dir
  | file
  | link
  deriving DecidableEq

inductive Node where
  | dir
  | file (data : List UInt8)
  | link (target : List Char)
  deriving DecidableEq

def Node.kind : Node → NodeKind
  | dir => .dir
  | file _ => .file
  | link _ => .link

theorem Node.kind_eq_dir {node : Node} (h : node.kind = .dir) : node = .dir := by
  cases node with
  | dir => rfl
  | file => cases h
  | link => cases h

/-- A path is the names on the way, and the empty one is the directory itself. -/
abbrev FileTree (ν : Type) := List ν → Option Node

namespace FileTree

variable {ν : Type}

def Linkless (tree : FileTree ν) (path : List ν) : Prop :=
  ∀ q, q ≠ [] → q <+: path → ∀ target, tree q ≠ some (.link target)

def Passable (tree : FileTree ν) (path : List ν) : Prop :=
  ∀ q, q ≠ [] → q <+: path → tree q = none ∨ tree q = some .dir

def passes (tree : FileTree ν) (path : List ν) : Bool :=
  path.inits.all fun q => q.isEmpty || tree q == none || tree q == some .dir

theorem passes_iff {tree : FileTree ν} {path : List ν} :
    tree.passes path = true ↔ tree.Passable path := by
  simp only [passes, List.all_eq_true, List.mem_inits, Bool.or_eq_true, List.isEmpty_iff,
    beq_iff_eq, Passable]
  constructor
  · intro h q hq hpre
    simpa [hq] using h q hpre
  · intro h q hpre
    by_cases hq : q = []
    · exact .inl (.inl hq)
    · exact or_assoc.mpr (.inr (h q hq hpre))

section

variable [DecidableEq ν]

def makeDirs (tree : FileTree ν) (path : List ν) : FileTree ν := fun q =>
  if q ≠ [] ∧ q <+: path then some .dir else tree q

def put (tree : FileTree ν) (path : List ν) (node : Option Node) : FileTree ν := fun q =>
  if q = path then node else tree q

def place (tree : FileTree ν) (path : List ν) (node : Node) : FileTree ν :=
  (tree.makeDirs path).put path (some node)

@[simp] theorem makeDirs_nil (tree : FileTree ν) : tree.makeDirs [] = tree := by
  funext q
  simp [makeDirs]

@[simp] theorem put_self (tree : FileTree ν) (path : List ν) (node : Option Node) :
    tree.put path node path = node := if_pos rfl

theorem put_of_ne {tree : FileTree ν} {path q : List ν} (h : q ≠ path) (node : Option Node) :
    tree.put path node q = tree q := if_neg h

theorem put_eq_self {tree : FileTree ν} {path : List ν} {node : Option Node}
    (h : tree path = node) : tree.put path node = tree := by
  funext q
  by_cases hq : q = path
  · rw [hq, put_self, h]
  · exact put_of_ne hq _

theorem makeDirs_on_way {tree : FileTree ν} {path q : List ν} (hq : q ≠ []) (h : q <+: path) :
    tree.makeDirs path q = some .dir := if_pos ⟨hq, h⟩

theorem makeDirs_off_way {tree : FileTree ν} {path q : List ν} (h : ¬ q <+: path) :
    tree.makeDirs path q = tree q := if_neg fun hboth => h hboth.2

@[simp] theorem put_put (tree : FileTree ν) (path : List ν) (node node' : Option Node) :
    (tree.put path node).put path node' = tree.put path node' := by
  funext q
  by_cases h : q = path <;> simp [put, h]

theorem place_dir (tree : FileTree ν) {path : List ν} (h : path ≠ []) :
    tree.place path .dir = tree.makeDirs path := by
  funext q
  by_cases hq : q = path
  · subst hq
    simp [place, makeDirs, h]
  · exact put_of_ne hq _

theorem place_file (tree : FileTree ν) (base : List ν) (name : ν) (data : List UInt8) :
    tree.place (base ++ [name]) (.file data) =
      (tree.makeDirs base).put (base ++ [name]) (some (.file data)) := by
  funext q
  by_cases hq : q = base ++ [name]
  · subst hq
    simp [place]
  · simp only [place, put_of_ne hq, makeDirs, List.prefix_concat_iff, hq, false_or]

end

variable {tree : FileTree ν} {path base : List ν}

theorem Linkless.mono (h : tree.Linkless path) (hbase : base <+: path) : tree.Linkless base :=
  fun q hq hpre => h q hq (hpre.trans hbase)

theorem Linkless.concat {name : ν} (h : tree.Linkless base)
    (hlast : ∀ target, tree (base ++ [name]) ≠ some (.link target)) :
    tree.Linkless (base ++ [name]) := by
  intro q hq hpre
  rcases List.prefix_concat_iff.mp hpre with rfl | hpre
  · exact hlast
  · exact h q hq hpre

theorem Passable.linkless (h : tree.Passable path) : tree.Linkless path := by
  intro q hq hpre target hlink
  rcases h q hq hpre with hnone | hdir
  · rw [hnone] at hlink
    cases hlink
  · rw [hdir] at hlink
    cases hlink

theorem Passable.mono (h : tree.Passable path) (hbase : base <+: path) : tree.Passable base :=
  fun q hq hpre => h q hq (hpre.trans hbase)

/-- What came of putting files and directories at paths, whether all of it was done or not: links
are as they were and lead nowhere, directories are still there, and what changed is a directory
that was made on the way to one of the paths, or what stands at the path of a file. -/
structure Grows (targets : List (List ν × Bool)) (tree tree' : FileTree ν) : Prop where
  links : ∀ p target, tree' p = some (.link target) ↔ tree p = some (.link target)
  dirs : ∀ p, tree p = some .dir → tree' p = some .dir
  changed : ∀ p, tree' p ≠ tree p → ∃ target ∈ targets, tree.Linkless target.1 ∧
    ((p ≠ [] ∧ p <+: target.1 ∧ tree p = none ∧ tree' p = some .dir) ∨
      (p = target.1 ∧ target.2 = false))

namespace Grows

variable {targets targets' : List (List ν × Bool)} {tree' tree'' : FileTree ν}

theorem refl (targets : List (List ν × Bool)) (tree : FileTree ν) : Grows targets tree tree where
  links _ _ := Iff.rfl
  dirs _ h := h
  changed _ h := absurd rfl h

theorem linkless_iff (h : Grows targets tree tree') : tree'.Linkless path ↔ tree.Linkless path := by
  simp [Linkless, h.links]

theorem mono (h : Grows targets tree tree') (hsub : targets ⊆ targets') :
    Grows targets' tree tree' where
  links := h.links
  dirs := h.dirs
  changed p hp := by
    obtain ⟨target, hmem, hrest⟩ := h.changed p hp
    exact ⟨target, hsub hmem, hrest⟩

theorem trans (h : Grows targets tree tree') (h' : Grows targets tree' tree'') :
    Grows targets tree tree'' where
  links p target := (h'.links p target).trans (h.links p target)
  dirs p hdir := h'.dirs p (h.dirs p hdir)
  changed p hp := by
    by_cases hsame : tree' p = tree p
    · obtain ⟨target, hmem, hlinkless, hchange⟩ := h'.changed p (hsame ▸ hp)
      refine ⟨target, hmem, h.linkless_iff.mp hlinkless, ?_⟩
      rwa [hsame] at hchange
    · obtain ⟨target, hmem, hlinkless, hmade | hfile⟩ := h.changed p hsame
      · -- a directory that was made stays one
        exact ⟨target, hmem, hlinkless, .inl ⟨hmade.1, hmade.2.1, hmade.2.2.1,
          h'.dirs p hmade.2.2.2⟩⟩
      · exact ⟨target, hmem, hlinkless, .inr hfile⟩

variable [DecidableEq ν]

theorem makeDirs {isDir : Bool} {made : List ν} (hpre : made <+: path)
    (hlinkless : tree.Linkless path) (hpass : tree.Passable made) :
    Grows [(path, isDir)] tree (tree.makeDirs made) := by
  have hcases : ∀ p, p ≠ [] ∧ p <+: made ∧ tree.makeDirs made p = some .dir ∨
      tree.makeDirs made p = tree p := by
    intro p
    by_cases hp : p ≠ [] ∧ p <+: made
    · exact .inl ⟨hp.1, hp.2, if_pos hp⟩
    · exact .inr (if_neg hp)
  constructor
  · intro p target
    rcases hcases p with ⟨hne, hp, hdir⟩ | hsame
    · rw [hdir]
      exact iff_of_false (by simp) (hlinkless p hne (hp.trans hpre) target)
    · rw [hsame]
  · intro p hdir
    rcases hcases p with ⟨-, -, hmade⟩ | hsame
    · exact hmade
    · rw [hsame, hdir]
  · intro p hp
    rcases hcases p with ⟨hne, hon, hdir⟩ | hsame
    · have hnone : tree p = none :=
        (hpass p hne hon).resolve_right fun hold => hp (hdir.trans hold.symm)
      exact ⟨_, List.mem_singleton_self _, hlinkless, .inl ⟨hne, hon.trans hpre, hnone, hdir⟩⟩
    · exact absurd hsame hp

theorem put {node : Option Node} (hlinkless : tree.Linkless path) (hne : path ≠ [])
    (hdir : tree path ≠ some .dir) (hnode : ∀ target, node ≠ some (.link target)) :
    Grows [(path, false)] tree (tree.put path node) := by
  constructor
  · intro p target
    by_cases hp : p = path
    · subst hp
      rw [put_self]
      exact iff_of_false (hnode target) (hlinkless p hne List.prefix_rfl target)
    · rw [put_of_ne hp]
  · intro p hold
    have hp : p ≠ path := by
      rintro rfl
      exact hdir hold
    rw [put_of_ne hp, hold]
  · intro p hchanged
    have hp : p = path := by
      by_contra hp
      exact hchanged (put_of_ne hp _)
    exact ⟨_, List.mem_singleton_self _, hlinkless, .inr ⟨hp, rfl⟩⟩

end Grows

def Rooted (tree : FileTree ν) : Prop :=
  ∀ ⦃base rest node⦄, base ≠ [] → rest ≠ [] → tree (base ++ rest) = some node →
    tree base = some .dir

def Fits (tree whole : FileTree ν) : Prop :=
  ∀ ⦃path node old⦄, path ≠ [] → whole path = some node → tree path = some old →
    old.kind = node.kind

theorem fits_of_empty {tree whole : FileTree ν} (h : ∀ path, path ≠ [] → tree path = none) :
    tree.Fits whole := by
  intro path node old hne _ hold
  rw [h path hne] at hold
  cases hold

section

variable {tree whole : FileTree ν} {base rest path : List ν} {node : Node}

theorem Fits.passable (h : tree.Fits whole) (hrooted : whole.Rooted) (hrest : rest ≠ [])
    (hnode : whole (base ++ rest) = some node) : tree.Passable base := by
  rintro q hq ⟨between, rfl⟩
  rw [List.append_assoc] at hnode
  have hdir := hrooted hq (by simp [hrest]) hnode
  cases hold : tree q with
  | none => exact .inl rfl
  | some old => exact .inr (congrArg some (Node.kind_eq_dir (h hq hdir hold)))

variable [DecidableEq ν]

theorem place_self : tree.place path node path = some node := put_self _ _ _

theorem place_on_way {q : List ν} (hne : q ≠ path) (hq : q ≠ []) (h : q <+: path) :
    tree.place path node q = some .dir := by
  rw [place, put_of_ne hne, makeDirs_on_way hq h]

theorem place_off_way {q : List ν} (h : ¬ q <+: path) :
    tree.place path node q = tree q := by
  have hne : q ≠ path := by
    rintro rfl
    exact h List.prefix_rfl
  rw [place, put_of_ne hne, makeDirs_off_way h]

variable (tree) in
/-- A node placed where it stands in the other tree: there and above the trees are the same, and
elsewhere nothing changed. -/
theorem place_cases (hrooted : whole.Rooted) (hnode : whole path = some node) {q : List ν}
    (hq : q ≠ []) : tree.place path node q = whole q ∧ whole q ≠ none ∨
      tree.place path node q = tree q ∧ ¬ q <+: path := by
  by_cases hpre : q <+: path
  · left
    obtain ⟨rest, rfl⟩ := hpre
    by_cases hrest : rest = []
    · subst hrest
      rw [List.append_nil] at hnode ⊢
      rw [place_self, hnode]
      simp
    · rw [hrooted hq hrest hnode, place_on_way (by simpa using hrest) hq
        (List.prefix_append q rest)]
      simp
  · exact .inr ⟨place_off_way hpre, hpre⟩

theorem Fits.place (h : tree.Fits whole) (hrooted : whole.Rooted) (hnode : whole path = some node) :
    (tree.place path node).Fits whole := by
  intro q node' old hq hnode' hold
  rcases place_cases tree hrooted hnode hq with ⟨hsame, -⟩ | ⟨hsame, -⟩
  · rw [hsame, hnode'] at hold
    cases hold
    rfl
  · exact h hq hnode' (hsame ▸ hold)

def placeAll (tree : FileTree ν) (nodes : List (List ν × Node)) : FileTree ν :=
  nodes.foldl (fun tree node => tree.place node.1 node.2) tree

theorem placeAll_eq (hrooted : whole.Rooted) {nodes : List (List ν × Node)}
    (hnodes : ∀ node ∈ nodes, whole node.1 = some node.2) {q : List ν} (hq : q ≠ [])
    (hall : ∀ node, whole q = some node → (q, node) ∈ nodes ∨ tree q = some node) :
    tree.placeAll nodes q = (whole q).or (tree q) := by
  induction nodes generalizing tree with
  | nil =>
      cases hwhole : whole q with
      | none => rfl
      | some node => exact (hall node hwhole).resolve_left List.not_mem_nil
  | cons first nodes ih =>
      obtain ⟨hfirst, hrest⟩ := List.forall_mem_cons.mp hnodes
      have hplaced := place_cases tree hrooted hfirst hq
      rw [placeAll, List.foldl_cons, ← placeAll, ih hrest]
      · rcases hplaced with ⟨hsame, hsome⟩ | ⟨hsame, -⟩
        · obtain ⟨node, hnode⟩ := Option.ne_none_iff_exists'.mp hsome
          rw [hnode]
          rfl
        · rw [hsame]
      · intro node hnode
        rcases hplaced with ⟨hsame, -⟩ | ⟨hsame, hpre⟩
        · exact .inr (hsame.trans hnode)
        · rcases hall node hnode with hmem | hold
          · rcases List.mem_cons.mp hmem with rfl | hmem
            · exact absurd List.prefix_rfl hpre
            · exact .inl hmem
          · exact .inr (hsame.trans hold)

end

end FileTree

/-- The operations of an open directory and of the files that are created in it, on the state of
the file system.  What the buffer of a file holds counts as written. -/
structure DirHandle (ν ε σ : Type) where
  symlinkMetadata : List ν → σ → Except ε NodeKind
  createDirAll : List ν → Effect ε σ Unit
  removeFile : List ν → Effect ε σ Unit
  createNew : List ν → Effect ε σ Unit
  write : List ν → List UInt8 → Effect ε σ Unit
  flush : List ν → Effect ε σ Unit
  isNotFound : ε → Bool

namespace DirHandle

variable {ν ε σ : Type} [DecidableEq ν]

/-- What the operations do to the tree, where no link is on the way. -/
structure Keeps (dir : DirHandle ν ε σ) (tree : σ → FileTree ν) : Prop where
  metadata : ∀ {base name s kind}, (tree s).Linkless base →
    dir.symlinkMetadata (base ++ [name]) s = .ok kind →
    (tree s (base ++ [name])).map Node.kind = some kind
  metadata_missing : ∀ {base name s e}, (tree s).Linkless base →
    dir.symlinkMetadata (base ++ [name]) s = .error e → dir.isNotFound e = true →
    tree s (base ++ [name]) = none
  createDirAll : ∀ {path s s' r}, (tree s).Linkless path → dir.createDirAll path s = (r, s') →
    ∃ made, made <+: path ∧ (tree s).Passable made ∧ tree s' = (tree s).makeDirs made ∧
      (r = .ok () → made = path)
  removeFile : ∀ {path s s'}, (tree s).Linkless path → dir.removeFile path s = (.ok (), s') →
    (∃ data, tree s path = some (.file data)) ∧ tree s' = (tree s).put path none
  removeFile_error : ∀ {path s s' e}, (tree s).Linkless path →
    dir.removeFile path s = (.error e, s') →
    tree s' = tree s ∧ (dir.isNotFound e = true → tree s path = none)
  createNew : ∀ {path s s'}, (tree s).Linkless path → dir.createNew path s = (.ok (), s') →
    tree s path = none ∧ tree s' = (tree s).put path (some (.file []))
  createNew_error : ∀ {path s s' e}, (tree s).Linkless path →
    dir.createNew path s = (.error e, s') → tree s' = tree s
  write : ∀ {path data bytes s s' r}, tree s path = some (.file data) →
    dir.write path bytes s = (r, s') → ∃ data', tree s' = (tree s).put path (some (.file data')) ∧
      (r = .ok () → data' = data ++ bytes)
  flush : ∀ {path data s s' r}, tree s path = some (.file data) → dir.flush path s = (r, s') →
    ∃ data', tree s' = (tree s).put path (some (.file data')) ∧ (r = .ok () → data' = data)

/-- The operations fail for no reason but what stands in the tree. -/
structure Obliges (dir : DirHandle ν ε σ) (tree : σ → FileTree ν) : Prop where
  metadata : ∀ {base name s node}, (tree s).Passable base → tree s (base ++ [name]) = some node →
    dir.symlinkMetadata (base ++ [name]) s = .ok node.kind
  metadata_missing : ∀ {base name s}, (tree s).Passable base → tree s (base ++ [name]) = none →
    ∃ e, dir.symlinkMetadata (base ++ [name]) s = .error e ∧ dir.isNotFound e = true
  createDirAll : ∀ {path s}, (tree s).Passable path → ∃ s', dir.createDirAll path s = (.ok (), s')
  removeFile : ∀ {base name s data}, (tree s).Passable base →
    tree s (base ++ [name]) = some (.file data) →
    ∃ s', dir.removeFile (base ++ [name]) s = (.ok (), s')
  removeFile_missing : ∀ {base name s}, (tree s).Passable base → tree s (base ++ [name]) = none →
    ∃ e s', dir.removeFile (base ++ [name]) s = (.error e, s') ∧ dir.isNotFound e = true
  createNew : ∀ {base name s}, (tree s).Passable base → (base = [] ∨ tree s base = some .dir) →
    tree s (base ++ [name]) = none → ∃ s', dir.createNew (base ++ [name]) s = (.ok (), s')
  write : ∀ {path data s} bytes, tree s path = some (.file data) →
    ∃ s', dir.write path bytes s = (.ok (), s')
  flush : ∀ {path data s}, tree s path = some (.file data) →
    ∃ s', dir.flush path s = (.ok (), s')

section

variable [DecidableEq ε] (missing refused : ε)

/-- A directory whose files are in memory, with the errors for a path where nothing stands and
for one where the wrong thing does. -/
def inMemory : DirHandle ν ε (FileTree ν) where
  symlinkMetadata path tree :=
    match tree path with
    | some node => .ok node.kind
    | none => .error missing
  createDirAll path tree :=
    if tree.passes path then (.ok (), tree.makeDirs path) else (.error refused, tree)
  removeFile path tree :=
    match tree path with
    | some (.file _) => (.ok (), tree.put path none)
    | some _ => (.error refused, tree)
    | none => (.error missing, tree)
  createNew path tree :=
    if tree path = none ∧ (path.dropLast = [] ∨ tree path.dropLast = some .dir) then
      (.ok (), tree.put path (some (.file [])))
    else (.error refused, tree)
  write path bytes tree :=
    match tree path with
    | some (.file data) => (.ok (), tree.put path (some (.file (data ++ bytes))))
    | _ => (.error refused, tree)
  flush _ tree := (.ok (), tree)
  isNotFound e := e == missing

variable {missing refused}

theorem inMemory_keeps (h : refused ≠ missing) :
    (inMemory missing refused : DirHandle ν ε (FileTree ν)).Keeps id where
  metadata {base name tree kind} _ hmeta := by
    simp only [inMemory] at hmeta
    split at hmeta <;> simp_all
  metadata_missing {base name tree e} _ hmeta _ := by
    simp only [inMemory] at hmeta
    split at hmeta <;> simp_all
  createDirAll {path tree tree' r} _ hcreate := by
    simp only [inMemory] at hcreate
    split at hcreate
    · rename_i hpass
      cases hcreate
      exact ⟨path, List.prefix_rfl, FileTree.passes_iff.mp hpass, rfl, fun _ => rfl⟩
    · cases hcreate
      refine ⟨[], List.nil_prefix, ?_, (FileTree.makeDirs_nil _).symm, nofun⟩
      exact fun q hq hpre => absurd (List.prefix_nil.mp hpre) hq
  removeFile {path tree tree'} _ hremove := by
    simp only [inMemory] at hremove
    split at hremove
    · rename_i data hfile
      cases hremove
      exact ⟨⟨data, hfile⟩, rfl⟩
    · cases hremove
    · cases hremove
  removeFile_error {path tree tree' e} _ hremove := by
    simp only [inMemory] at hremove
    split at hremove
    · cases hremove
    · cases hremove
      exact ⟨rfl, fun hmissing => absurd (beq_iff_eq.mp hmissing) h⟩
    · rename_i hnone
      cases hremove
      exact ⟨rfl, fun _ => hnone⟩
  createNew {path tree tree'} _ hcreate := by
    simp only [inMemory] at hcreate
    split at hcreate
    · rename_i hfree
      cases hcreate
      exact ⟨hfree.1, rfl⟩
    · cases hcreate
  createNew_error {path tree tree' e} _ hcreate := by
    simp only [inMemory] at hcreate
    split at hcreate <;> cases hcreate
    rfl
  write {path data bytes tree tree' r} hfile hwrite := by
    simp only [inMemory, show tree path = some (.file data) from hfile] at hwrite
    cases hwrite
    exact ⟨_, rfl, fun _ => rfl⟩
  flush {path data tree tree' r} hfile hflush := by
    cases hflush
    exact ⟨data, (FileTree.put_eq_self hfile).symm, fun _ => rfl⟩

theorem inMemory_obliges :
    (inMemory missing refused : DirHandle ν ε (FileTree ν)).Obliges id where
  metadata {base name tree node} _ hnode := by
    simp only [inMemory, show tree (base ++ [name]) = some node from hnode]
  metadata_missing {base name tree} _ hnone := by
    simp only [inMemory, show tree (base ++ [name]) = none from hnone]
    exact ⟨_, rfl, beq_self_eq_true _⟩
  createDirAll {path tree} hpass := by
    exact ⟨_, if_pos (FileTree.passes_iff.mpr hpass)⟩
  removeFile {base name tree data} _ hfile := by
    simp only [inMemory, show tree (base ++ [name]) = some (.file data) from hfile]
    exact ⟨_, rfl⟩
  removeFile_missing {base name tree} _ hnone := by
    simp only [inMemory, show tree (base ++ [name]) = none from hnone]
    exact ⟨_, _, rfl, beq_self_eq_true _⟩
  createNew {base name tree} _ hbase hnone := by
    simp only [inMemory, List.dropLast_concat]
    rw [if_pos ⟨hnone, hbase⟩]
    exact ⟨_, rfl⟩
  write {path data tree} bytes hfile := by
    simp only [inMemory, show tree path = some (.file data) from hfile]
    exact ⟨_, rfl⟩
  flush _ := ⟨_, rfl⟩

end

end DirHandle

end Sevenz.Lib
