import Sevenz.Lib.Parser

/-!
# Errors

The error values of the crate, the bounds a limit error names, and the two ways a step
can stop: with an `Error`, or with a panic.
-/

namespace Sevenz

/-- The I/O failures the reader raises or passes on.  `io::Error::other` carries either a
message or the checksum error of the verifying reader. -/
inductive IoError where
  | unexpectedEof
  | interrupted
  | checksumVerificationFailed
  | other (message : String)
  deriving DecidableEq, Repr

inductive Limit where
  | endHeaderBytes
  | headerUnpackedBytes
  | headerDepth
  | entries
  | nameBytes
  | totalNameBytes
  | codersPerBlock
  | streamsPerCoder
  | totalCoders
  | memoryBytes
  | unpackBytes
  | unpackRatio
  | aesCyclesPower
  | aesKdfRounds
  | archiveBytes
  deriving DecidableEq, Repr

inductive BlockErrorKind where
  | corrupted
  | checksumMismatch
  | unsupportedMethod
  | io
  | password
  deriving DecidableEq, Repr

/-- `blockDecode` keeps the error it wraps where the source keeps its rendering. -/
inductive Error where
  | badSignature (signature : List UInt8)
  | unsupportedVersion (major minor : UInt8)
  | checksumVerificationFailed
  | nextHeaderCrcMismatch
  | io (error : IoError) (context : String)
  | fileOpen (error : IoError) (filename : String)
  | other (message : String)
  | badTerminatedStreamsInfo (nid : UInt8)
  | badTerminatedUnpackInfo
  | badTerminatedPackInfo (nid : UInt8)
  | badTerminatedSubStreamsInfo
  | badTerminatedHeader (nid : UInt8)
  | externalUnsupported
  | unsupportedCompressionMethod (method : String)
  | maxMemLimited (maxKb actualKb : Nat)
  | passwordRequired
  | unsupported (message : String)
  | maybeBadPassword (error : IoError)
  | fileNotFound
  | endHeaderTooLarge (limitBytes declaredBytes : Nat)
  | memoryLimited (limitBytes requiredBytes : Nat)
  | limitExceeded (what : Limit) (limit requested : Nat)
  | unsafeEntryName (name : List Char) (reason : String)
  | blockDecode (blockIndex packedOffset : Nat) (kind : BlockErrorKind) (source : Error)
  deriving DecidableEq, Repr

namespace Error

/-- `From<io::Error>`: the `?` operator adds no context of its own. -/
def ofIo (error : IoError) : Error := .io error ""

def badPassword (error : IoError) (encrypted : Bool) : Error :=
  if encrypted then .maybeBadPassword error else .ofIo error

def maybeBadPasswordIf (encrypted : Bool) (error : Error) : Error :=
  match encrypted, error with
  | true, .io e "" => .maybeBadPassword e
  | _, e => e

def blockKind : Error → BlockErrorKind
  | .io _ _ | .fileOpen _ _ => .io
  | .unsupportedCompressionMethod _ | .unsupported _ | .externalUnsupported => .unsupportedMethod
  | .checksumVerificationFailed | .nextHeaderCrcMismatch => .checksumMismatch
  | .passwordRequired | .maybeBadPassword _ => .password
  | _ => .corrupted

/-- Adds block context.  A located error and a limit keep their own shape. -/
def inBlock (error : Error) (blockIndex packedOffset : Nat) : Error :=
  match error with
  | .blockDecode _ _ _ _ => error
  | .limitExceeded _ _ _ => error
  | _ => .blockDecode blockIndex packedOffset error.blockKind error

end Error

inductive Panic where
  | indexOutOfBounds
  | attemptToSubtractWithOverflow
  | attemptToAddWithOverflow
  | expectOnNone
  | assertionFailed
  deriving DecidableEq, Repr

/-- A step that does not return `Ok` returns an error or panics.  `outOfFuel` marks a loop
of the model that was given too few rounds, which no loop is. -/
inductive Fault where
  | error (error : Error)
  | panic (panic : Panic)
  | outOfFuel
  deriving DecidableEq, Repr

abbrev Result (α : Type) := Except Fault α

namespace Result

variable {α : Type}

def fail (error : Error) : Result α := .error (.error error)

def rejectIf (bad : Prop) [Decidable bad] (error : Error) : Result Unit :=
  if bad then fail error else .ok ()

def okOr (error : Error) : Option α → Result α
  | some a => .ok a
  | none => fail error

def expect : Option α → Result α
  | some a => .ok a
  | none => .error (.panic .expectOnNone)

def index (xs : List α) (i : Nat) : Result α :=
  match xs[i]? with
  | some a => .ok a
  | none => .error (.panic .indexOutOfBounds)

def setIndex (xs : List α) (i : Nat) (a : α) : Result (List α) :=
  if i < xs.length then .ok (xs.set i a) else .error (.panic .indexOutOfBounds)

def sliceCheck (b : Nat) (xs : List α) : Result Unit :=
  if b ≤ xs.length then .ok () else .error (.panic .indexOutOfBounds)

def mapErr (f : Error → Error) : Result α → Result α
  | .error (.error e) => fail (f e)
  | x => x

def holds (p : α → Bool) : Result α → Bool
  | .ok a => p a
  | .error _ => false

def NoPanic (x : Result α) : Prop := ∀ p, x ≠ .error (.panic p)

@[simp] theorem fail_ne_ok {e : Error} {a : α} : (fail e = Except.ok a) ↔ False := by
  simp [fail]

theorem rejectIf_eq_ok {bad : Prop} [Decidable bad] {e : Error} {u : Unit} :
    rejectIf bad e = .ok u ↔ ¬ bad := by
  unfold rejectIf
  split <;> simp_all

theorem okOr_eq_ok {e : Error} {o : Option α} {a : α} : okOr e o = .ok a ↔ o = some a := by
  cases o <;> simp [okOr]

theorem expect_eq_ok {o : Option α} {a : α} : expect o = .ok a ↔ o = some a := by
  cases o <;> simp [expect]

theorem index_eq_ok {xs : List α} {i : Nat} {a : α} : index xs i = .ok a ↔ xs[i]? = some a := by
  unfold index
  split <;> simp_all

theorem index_of_lt {xs : List α} {i : Nat} (h : i < xs.length) : index xs i = .ok xs[i] :=
  index_eq_ok.mpr (List.getElem?_eq_getElem h)

theorem setIndex_eq_ok {xs ys : List α} {i : Nat} {a : α} :
    setIndex xs i a = .ok ys ↔ i < xs.length ∧ ys = xs.set i a := by
  unfold setIndex
  split
  · rename_i h
    simp [h, eq_comm]
  · rename_i h
    simp [h]

theorem setIndex_of_lt {xs : List α} {i : Nat} {a : α} (h : i < xs.length) :
    setIndex xs i a = .ok (xs.set i a) :=
  setIndex_eq_ok.mpr ⟨h, rfl⟩

theorem sliceCheck_eq_ok {b : Nat} {xs : List α} {u : Unit} :
    sliceCheck b xs = .ok u ↔ b ≤ xs.length := by
  unfold sliceCheck
  split <;> simp_all

theorem exists_of_holds {p : α → Bool} {x : Result α} (h : x.holds p = true) :
    ∃ a, x = .ok a ∧ p a = true := by
  cases x with
  | error e => cases h
  | ok a => exact ⟨a, rfl, h⟩

variable {β : Type}

theorem bind_eq_ok {x : Result α} {f : α → Result β} {b : β} :
    (x >>= f) = .ok b ↔ ∃ a, x = .ok a ∧ f a = .ok b := by
  cases x with
  | error e => simp [bind, Except.bind]
  | ok a => simp [bind, Except.bind]

theorem bind_eq_error {x : Result α} {f : α → Result β} {e : Fault} :
    (x >>= f) = .error e ↔ x = .error e ∨ ∃ a, x = .ok a ∧ f a = .error e := by
  cases x with
  | error e' => simp [bind, Except.bind]
  | ok a => simp [bind, Except.bind]

theorem index_ne_outOfFuel {xs : List α} {i : Nat} : index xs i ≠ .error .outOfFuel := by
  unfold index
  split <;> simp

theorem rejectIf_ne_outOfFuel {bad : Prop} [Decidable bad] {e : Error} :
    rejectIf bad e ≠ .error .outOfFuel := by
  unfold rejectIf
  split <;> simp [fail]

theorem expect_ne_outOfFuel {o : Option α} : expect o ≠ .error .outOfFuel := by
  cases o <;> simp [expect]

theorem setIndex_ne_outOfFuel {xs : List α} {i : Nat} {a : α} :
    setIndex xs i a ≠ .error .outOfFuel := by
  unfold setIndex
  split <;> simp

theorem pure_eq_ok {a b : α} : (pure a : Result α) = .ok b ↔ b = a := by
  change Except.ok a = .ok b ↔ b = a
  rw [Except.ok.injEq, eq_comm]

theorem bind_of_ok {x : Result α} {f : α → Result β} {a : α} (h : x = .ok a) :
    (x >>= f) = f a := by
  rw [h]
  rfl

@[simp] theorem noPanic_ok (a : α) : NoPanic (.ok a) := by
  intro p h
  cases h

@[simp] theorem noPanic_fail (e : Error) : NoPanic (fail e : Result α) := by
  intro p h
  cases h

theorem noPanic_rejectIf (bad : Prop) [Decidable bad] (e : Error) : NoPanic (rejectIf bad e) := by
  unfold rejectIf
  split <;> simp

theorem noPanic_okOr (e : Error) (o : Option α) : NoPanic (okOr e o) := by
  cases o <;> simp [okOr]

theorem noPanic_index {xs : List α} {i : Nat} : NoPanic (index xs i) ↔ i < xs.length := by
  constructor
  · intro h
    by_contra hge
    refine h .indexOutOfBounds ?_
    simp [index, List.getElem?_eq_none (Nat.le_of_not_lt hge)]
  · intro h
    rw [index_of_lt h]
    exact noPanic_ok _

theorem noPanic_sliceCheck {b : Nat} {xs : List α} :
    NoPanic (sliceCheck b xs) ↔ b ≤ xs.length := by
  unfold sliceCheck
  split
  · rename_i h
    simp [h]
  · rename_i h
    simp only [h, iff_false]
    exact fun hp => hp _ rfl

theorem mapErr_eq_ok {f : Error → Error} {x : Result α} {a : α} :
    mapErr f x = .ok a ↔ x = .ok a := by
  unfold mapErr
  split
  · simp
  · rfl

theorem noPanic_mapErr {f : Error → Error} {x : Result α} : NoPanic (mapErr f x) ↔ NoPanic x := by
  unfold mapErr
  split
  · exact iff_of_true (noPanic_fail _) fun p hp => by cases hp
  · rfl

theorem NoPanic.bind {x : Result α} {f : α → Result β} (hx : NoPanic x)
    (hf : ∀ a, x = .ok a → NoPanic (f a)) : NoPanic (x >>= f) := by
  cases h : x with
  | error e =>
      intro p hp
      cases hp
      exact hx p h
  | ok a => exact hf a h

theorem noPanic_bind_iff {x : Result α} {f : α → Result β}
    (hf : ∀ a, x = .ok a → NoPanic (f a)) : NoPanic (x >>= f) ↔ NoPanic x := by
  refine ⟨fun h p hp => h p ?_, fun h => h.bind hf⟩
  rw [hp]
  rfl

def Raises (p : Error → Prop) (x : Result α) : Prop := ∀ e, x = .error (.error e) → p e

section

variable {p q : Error → Prop}

@[simp] theorem raises_ok (a : α) : Raises p (.ok a) := by
  intro e h
  cases h

@[simp] theorem raises_pure (a : α) : Raises p (pure a : Result α) := raises_ok a

@[simp] theorem raises_panic (panic : Panic) : Raises p (.error (.panic panic) : Result α) := by
  intro e h
  cases h

@[simp] theorem raises_fail {e : Error} : Raises p (fail e : Result α) ↔ p e :=
  ⟨fun h => h e rfl, fun h e' heq => by cases heq; exact h⟩

theorem Raises.bind {x : Result α} {f : α → Result β} (hx : Raises p x)
    (hf : ∀ a, x = .ok a → Raises p (f a)) : Raises p (x >>= f) := by
  cases h : x with
  | error fault =>
      intro e he
      cases he
      exact hx e h
  | ok a => exact hf a h

theorem raises_rejectIf {bad : Prop} [Decidable bad] {e : Error} (h : p e) :
    Raises p (rejectIf bad e) := by
  unfold rejectIf
  split <;> simp [h]

theorem raises_okOr {e : Error} {o : Option α} (h : p e) : Raises p (okOr e o) := by
  cases o <;> simp [okOr, h]

@[simp] theorem raises_index {xs : List α} {i : Nat} : Raises p (index xs i) := by
  unfold index
  split <;> simp

@[simp] theorem raises_sliceCheck {b : Nat} {xs : List α} : Raises p (sliceCheck b xs) := by
  unfold sliceCheck
  split <;> simp

theorem Raises.mapErr {f : Error → Error} {x : Result α} (hx : Raises q x)
    (hf : ∀ e, q e → p (f e)) : Raises p (mapErr f x) := by
  unfold Result.mapErr
  split
  · exact raises_fail.mpr (hf _ (hx _ rfl))
  · rename_i hne
    intro e he
    exact absurd he (hne e)

end

end Result

def checkedAdd (a b : Nat) : Option Nat :=
  if a + b < 2 ^ 64 then some (a + b) else none

theorem checkedAdd_eq_some {a b c : Nat} :
    checkedAdd a b = some c ↔ a + b < 2 ^ 64 ∧ c = a + b := by
  unfold checkedAdd
  by_cases h : a + b < 2 ^ 64
  · rw [if_pos h, Option.some.injEq, eq_comm]
    exact (and_iff_right h).symm
  · rw [if_neg h]
    exact iff_of_false (fun hnone => by cases hnone) fun hc => h hc.1

end Sevenz
