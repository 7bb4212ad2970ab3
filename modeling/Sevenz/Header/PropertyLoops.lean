import Sevenz.Header.PropertyBodies
import Sevenz.Header.Read
import Sevenz.Lib.Cursor

/-!
# Termination of the property loops

`read_archive_properties` and the loop of `read_files_info` over a cursor.  Their rounds seek over
the properties they do not decode, by sizes that are numbers of the header converted to `usize` and
then to `i64`.  `HeaderBounds::size` keeps the seek from going back, so each round that goes on has
moved forward; the parsers of the header read what these loops read.
-/

namespace Sevenz

open Lib Lib.Parser

/-- The buffer a header is read out of.  No slice has more than `isize::MAX` bytes. -/
structure HeaderBuffer where
  data : List UInt8
  length_lt : data.length < 2 ^ 63

def HeaderBuffer.bounds (header : HeaderBuffer) (limits : ArchiveLimits) : HeaderBounds :=
  ⟨header.data.length, limits⟩

def invalidSeek : Fault :=
  .error (.ofIo (.other "invalid seek to a negative or overflowing position"))

def seekProperty (bounds : HeaderBounds) (size : Nat) : CursorReader Fault Unit := do
  let skip ← bounds.size size
  Cursor.seekCurrent invalidSeek (asI64 (UInt64.ofNat skip))

def filePropertyAt (bounds : HeaderBounds) (propType : UInt8) (size : Nat)
    (props : FileProperties) : CursorReader Fault FileProperties :=
  if propType ∈ recognisedProperties then
    Cursor.read (readFileProperty bounds propType size props)
  else if propType = kStartPos then
    throw (.error (.other "kStartPos is unsupported, please report"))
  else do
    seekProperty bounds size
    pure props

def filePropertyRound (bounds : HeaderBounds) (props : FileProperties) :
    CursorReader Fault (FileProperties ⊕ FileProperties) := do
  let propType ← Cursor.read readU8
  if propType = 0 then pure (.inl props)
  else do
    let size ← Cursor.read readNumber
    let props ← filePropertyAt bounds propType size props
    pure (.inr props)

def archivePropertyRound (bounds : HeaderBounds) (nid : UInt8) :
    CursorReader Fault (Unit ⊕ UInt8) :=
  if nid = kEnd then pure (.inl ())
  else do
    let size ← Cursor.read readVariableU64
    seekProperty bounds size.toNat
    let nid ← Cursor.read readU8
    pure (.inr nid)

section Seeks

variable {header : HeaderBuffer} {limits : ArchiveLimits} {size : Nat} {c c' : Cursor}

theorem asI64_ofNat {n : Nat} (h : n < 2 ^ 63) : asI64 (UInt64.ofNat n) = n := by
  have hvalue : (UInt64.ofNat n).toNat = n := UInt64.toNat_ofNat_of_lt' (Nat.lt_trans h (by decide))
  rw [asI64, hvalue, if_pos h]

theorem seekProperty_eq (hsize : size ≤ header.data.length) (c : Cursor) :
    seekProperty (header.bounds limits) size c = Cursor.seekCurrent invalidSeek size c := by
  have hlen := header.length_lt
  have hskip : (header.bounds limits).size size = .ok size :=
    HeaderBounds.size_eq_ok.mpr ⟨rfl, hsize⟩
  rw [seekProperty, hskip, ← asI64_ofNat (by omega : size < 2 ^ 63)]
  rfl

theorem seekProperty_of_gt (hsize : header.data.length < size) (c : Cursor) :
    seekProperty (header.bounds limits) size c =
      .error (.error (.limitExceeded .archiveBytes header.data.length size)) := by
  have hreject : Result.rejectIf (size > header.data.length)
      (.limitExceeded .archiveBytes header.data.length size) =
        .error (.error (.limitExceeded .archiveBytes header.data.length size)) := if_pos hsize
  have hskip : (header.bounds limits).size size =
      .error (.error (.limitExceeded .archiveBytes header.data.length size)) := by
    change (Result.rejectIf (size > header.data.length)
      (.limitExceeded .archiveBytes header.data.length size) >>= fun _ => pure size) = _
    rw [hreject]
    rfl
  rw [seekProperty, hskip]
  rfl

theorem seekProperty_of_le (hsize : size ≤ header.data.length)
    (hpos : c.pos ≤ header.data.length) :
    seekProperty (header.bounds limits) size c = .ok ((), { c with pos := c.pos + size }) := by
  have hlen := header.length_lt
  have hnew : (c.pos : Int) + size = ((c.pos + size : Nat) : Int) := by omega
  rw [seekProperty_eq hsize, Cursor.seekCurrent, hnew, if_pos (by omega), Int.toNat_natCast]

theorem seekProperty_eq_ok (h : seekProperty (header.bounds limits) size c = .ok ((), c')) :
    size ≤ header.data.length ∧ c'.data = c.data ∧ c'.pos = c.pos + size := by
  by_cases hsize : size ≤ header.data.length
  · rw [seekProperty_eq hsize, Cursor.seekCurrent] at h
    split at h
    · cases h
      refine ⟨hsize, rfl, ?_⟩
      change ((c.pos : Int) + size).toNat = _
      omega
    · cases h
  · rw [seekProperty_of_gt (Nat.lt_of_not_le hsize)] at h
    cases h

end Seeks

def Fault.IsErr (fault : Fault) : Prop := ∃ error, fault = .error error

theorem isErr_unexpectedEof : unexpectedEof.IsErr := ⟨_, rfl⟩

theorem isErr_of_rejectIf {bad : Prop} [Decidable bad] {error : Error} (fault : Fault)
    (h : Result.rejectIf bad error = .error fault) : fault.IsErr := by
  unfold Result.rejectIf at h
  split at h
  · cases h
    exact ⟨error, rfl⟩
  · cases h

theorem isErr_of_okOr {α : Type} {error : Error} {o : Option α} (fault : Fault)
    (h : Result.okOr error o = .error fault) : fault.IsErr := by
  cases o with
  | none =>
      cases h
      exact ⟨error, rfl⟩
  | some a => cases h

theorem isErr_of_count {bounds : HeaderBounds} {value : Nat} {what : Limit} (fault : Fault)
    (h : bounds.count value what = .error fault) : fault.IsErr := by
  rcases Result.bind_eq_error.mp h with h | ⟨_, -, h⟩
  · exact isErr_of_rejectIf fault h
  · rcases Result.bind_eq_error.mp h with h | ⟨_, -, h⟩
    · exact isErr_of_rejectIf fault h
    · cases h

theorem isErr_of_size {bounds : HeaderBounds} {value : Nat} (fault : Fault)
    (h : bounds.size value = .error fault) : fault.IsErr := by
  rcases Result.bind_eq_error.mp h with h | ⟨_, -, h⟩
  · exact isErr_of_rejectIf fault h
  · cases h

abbrev OnlyErrs {α : Type} (p : HeaderReader α) : Prop := FailsOnly p Fault.IsErr

theorem onlyErrs_readU8 : OnlyErrs readU8 := .byte isErr_unexpectedEof

theorem onlyErrs_readU64 : OnlyErrs readU64 :=
  (FailsOnly.le isErr_unexpectedEof 8).bind fun _ => .pure _

theorem onlyErrs_readU32 : OnlyErrs readU32 :=
  (FailsOnly.le isErr_unexpectedEof 4).bind fun _ => .pure _

theorem onlyErrs_readVariableU64 : OnlyErrs readVariableU64 := by
  have hloop (first n i mask value : Nat) : OnlyErrs (readVariableLoop first n i mask value) := by
    induction n generalizing i mask value with
    | zero => exact .pure _
    | succ n ih =>
        unfold readVariableLoop
        split
        · exact .pure _
        · exact onlyErrs_readU8.bind fun b => ih (i + 1) _ _
  exact onlyErrs_readU8.bind fun first => (hloop _ _ _ _ _).bind fun _ => .pure _

theorem onlyErrs_readNumber : OnlyErrs readNumber :=
  onlyErrs_readVariableU64.bind fun _ => .pure _

theorem onlyErrs_readBits (n : Nat) : OnlyErrs (readBits n) := by
  have hloop (n i mask cache : Nat) (set : BitSet) :
      OnlyErrs (readBitsLoop n i mask cache set) := by
    induction n generalizing i mask cache set with
    | zero => exact .pure _
    | succ n ih =>
        have hrefill : OnlyErrs (refill mask cache) := by
          unfold refill
          split
          · exact onlyErrs_readU8.bind fun _ => .pure _
          · exact .pure _
        exact hrefill.bind fun _ => ih _ _ _ _
  exact hloop _ _ _ _ _

theorem onlyErrs_readAllOrBits (n : Nat) : OnlyErrs (readAllOrBits n) := by
  refine onlyErrs_readU8.bind fun all => ?_
  split
  · exact .pure _
  · exact onlyErrs_readBits n

theorem onlyErrs_readDefined (property : String)
    {update : Bool → ArchiveEntry → HeaderReader ArchiveEntry}
    (h : ∀ defined file, OnlyErrs (update defined file)) (files : List ArchiveEntry) :
    OnlyErrs (readDefined property update files) :=
  (onlyErrs_readAllOrBits _).bind fun _ => onlyErrs_readU8.bind fun _ =>
    (FailsOnly.lift isErr_of_rejectIf).bind fun _ => .mapM fun _ _ => h _ _

theorem onlyErrs_readNameUnits (maxNameBytes n : Nat) (cache : List UInt16) :
    OnlyErrs (readNameUnits maxNameBytes n cache) := by
  induction n generalizing cache with
  | zero => exact .pure _
  | succ n ih =>
      refine ((FailsOnly.le isErr_unexpectedEof 2).bind fun _ => .pure _).bind fun u => ?_
      split
      · exact .pure _
      · exact (FailsOnly.lift isErr_of_rejectIf).bind fun _ => ih _

theorem onlyErrs_readNames (maxNameBytes : Nat) (files : List ArchiveEntry) (units : Nat) :
    OnlyErrs (readNames maxNameBytes files units) := by
  induction files generalizing units with
  | nil =>
      cases units with
      | zero => exact .pure _
      | succ units => exact .throw ⟨_, rfl⟩
  | cons file files ih =>
      cases units with
      | zero => exact .throw ⟨_, rfl⟩
      | succ units =>
          exact (onlyErrs_readNameUnits _ _ _).bind fun _ =>
            (FailsOnly.lift isErr_of_okOr).bind fun _ => (ih _).bind fun _ => .pure _

theorem onlyErrs_readNamesProperty (bounds : HeaderBounds) (size : Nat)
    (files : List ArchiveEntry) : OnlyErrs (readNamesProperty bounds size files) :=
  onlyErrs_readU8.bind fun _ => (FailsOnly.lift isErr_of_rejectIf).bind fun _ =>
    (FailsOnly.lift isErr_of_rejectIf).bind fun _ => (FailsOnly.lift isErr_of_count).bind fun _ =>
      onlyErrs_readNames _ _ _

theorem onlyErrs_readFileProperty (bounds : HeaderBounds) (propType : UInt8) (size : Nat)
    (props : FileProperties) : OnlyErrs (readFileProperty bounds propType size props) := by
  have hempty (set : Option BitSet) : OnlyErrs (readEmptyBits set) :=
    (FailsOnly.lift isErr_of_okOr).bind fun _ => onlyErrs_readBits _
  have hskip (size : Nat) : OnlyErrs (skip size : HeaderReader Unit) := by
    intro s fault h
    cases h
  unfold readFileProperty
  repeat' split
  · exact (onlyErrs_readBits _).bind fun _ => .pure _
  · exact (hempty _).bind fun _ => .pure _
  · exact (hempty _).bind fun _ => .pure _
  · exact (onlyErrs_readNamesProperty _ _ _).bind fun _ => .pure _
  · refine (onlyErrs_readDefined _ (fun defined file => ?_) _).bind fun _ => .pure _
    cases defined <;> [exact .pure _; exact onlyErrs_readU64.bind fun _ => .pure _]
  · refine (onlyErrs_readDefined _ (fun defined file => ?_) _).bind fun _ => .pure _
    cases defined <;> [exact .pure _; exact onlyErrs_readU64.bind fun _ => .pure _]
  · refine (onlyErrs_readDefined _ (fun defined file => ?_) _).bind fun _ => .pure _
    cases defined <;> [exact .pure _; exact onlyErrs_readU64.bind fun _ => .pure _]
  · refine (onlyErrs_readDefined _ (fun defined file => ?_) _).bind fun _ => .pure _
    cases defined <;> [exact .pure _; exact onlyErrs_readU32.bind fun _ => .pure _]
  · exact .throw ⟨_, rfl⟩
  · exact (FailsOnly.lift isErr_of_size).bind fun _ => (hskip _).bind fun _ => .pure _

section Rounds

variable {header : HeaderBuffer} {limits : ArchiveLimits} {c c' : Cursor}

theorem read_readU8_of_le (h : c.data.length ≤ c.pos) :
    Cursor.read readU8 c = .error unexpectedEof := by
  rw [Cursor.read_eq_error, Cursor.remaining_of_le h]
  rfl

theorem read_readVariableU64_of_le (h : c.data.length ≤ c.pos) :
    Cursor.read readVariableU64 c = .error unexpectedEof := by
  rw [Cursor.read_eq_error, Cursor.remaining_of_le h]
  rfl

theorem filePropertyRound_of_le (bounds : HeaderBounds) (props : FileProperties)
    (h : c.data.length ≤ c.pos) : filePropertyRound bounds props c = .error unexpectedEof :=
  Cursor.bind_apply_error (read_readU8_of_le h)

theorem archivePropertyRound_of_le (bounds : HeaderBounds) {nid : UInt8} (hnid : nid ≠ kEnd)
    (h : c.data.length ≤ c.pos) : archivePropertyRound bounds nid c = .error unexpectedEof := by
  rw [archivePropertyRound, if_neg hnid]
  exact Cursor.bind_apply_error (read_readVariableU64_of_le h)

theorem consumes_readFileProperty {bounds : HeaderBounds} {propType : UInt8} {size : Nat}
    {props : FileProperties} (hid : propType ∈ recognisedProperties) :
    Consumes (readFileProperty bounds propType size props) 0 := by
  intro s props' s' h
  obtain ⟨body, rfl, -, -⟩ := laidOut_readFileProperty hid s props' s' h
  rw [List.length_append]
  omega

theorem filePropertyAt_moves {propType : UInt8} {size : Nat} {props props' : FileProperties}
    (h : filePropertyAt (header.bounds limits) propType size props c = .ok (props', c')) :
    c'.data = c.data ∧ c.pos ≤ c'.pos := by
  unfold filePropertyAt at h
  split at h
  · rename_i hid
    obtain ⟨hdata, hpos, -⟩ := Cursor.read_moves (consumes_readFileProperty hid) h
    exact ⟨hdata, hpos⟩
  · split at h
    · cases h
    · obtain ⟨_, c₁, hseek, hend⟩ := Cursor.bind_eq_ok.mp h
      obtain ⟨-, hdata, hpos⟩ := seekProperty_eq_ok hseek
      obtain ⟨-, rfl⟩ := Cursor.pure_eq_ok.mp hend
      exact ⟨hdata, by omega⟩

theorem filePropertyRound_advances :
    Cursor.Advances (filePropertyRound (header.bounds limits)) header.data := by
  intro props c props' c' hdata h
  obtain ⟨propType, c₁, htype, h₁⟩ := Cursor.bind_eq_ok.mp h
  obtain ⟨hdata₁, hpos₁, hle₁⟩ := Cursor.read_moves consumes_readU8 htype
  have hle := hle₁ Nat.one_pos
  split at h₁
  · obtain ⟨hne, -⟩ := Cursor.pure_eq_ok.mp h₁
    cases hne
  · obtain ⟨size, c₂, hsize, h₂⟩ := Cursor.bind_eq_ok.mp h₁
    obtain ⟨props₁, c₃, hbody, h₃⟩ := Cursor.bind_eq_ok.mp h₂
    obtain ⟨-, rfl⟩ := Cursor.pure_eq_ok.mp h₃
    obtain ⟨hdata₂, hpos₂, -⟩ := Cursor.read_moves consumes_readNumber hsize
    obtain ⟨hdata₃, hpos₃⟩ := filePropertyAt_moves hbody
    rw [hdata] at hle hdata₁
    exact ⟨by omega, by omega, hdata₃.trans (hdata₂.trans hdata₁)⟩

theorem archivePropertyRound_advances :
    Cursor.Advances (archivePropertyRound (header.bounds limits)) header.data := by
  intro nid c nid' c' hdata h
  unfold archivePropertyRound at h
  split at h
  · obtain ⟨hne, -⟩ := Cursor.pure_eq_ok.mp h
    cases hne
  · obtain ⟨size, c₁, hsize, h₁⟩ := Cursor.bind_eq_ok.mp h
    obtain ⟨_, c₂, hseek, h₂⟩ := Cursor.bind_eq_ok.mp h₁
    obtain ⟨nid₁, c₃, hnid, h₃⟩ := Cursor.bind_eq_ok.mp h₂
    obtain ⟨-, rfl⟩ := Cursor.pure_eq_ok.mp h₃
    obtain ⟨hdata₁, hpos₁, hle₁⟩ := Cursor.read_moves consumes_readVariableU64 hsize
    obtain ⟨-, hdata₂, hpos₂⟩ := seekProperty_eq_ok hseek
    obtain ⟨hdata₃, hpos₃, -⟩ := Cursor.read_moves consumes_readU8 hnid
    have hle := hle₁ Nat.one_pos
    rw [hdata] at hle hdata₁
    exact ⟨by omega, by omega, hdata₃.trans (hdata₂.trans hdata₁)⟩

theorem isErr_of_seekProperty {size : Nat} {fault : Fault}
    (h : seekProperty (header.bounds limits) size c = .error fault) : fault.IsErr := by
  by_cases hsize : size ≤ header.data.length
  · rw [seekProperty_eq hsize, Cursor.seekCurrent] at h
    split at h
    · cases h
    · cases h
      exact ⟨_, rfl⟩
  · rw [seekProperty_of_gt (Nat.lt_of_not_le hsize)] at h
    cases h
    exact ⟨_, rfl⟩

theorem isErr_of_filePropertyRound {props : FileProperties} {fault : Fault}
    (h : filePropertyRound (header.bounds limits) props c = .error fault) : fault.IsErr := by
  rcases Cursor.bind_eq_error.mp h with h | ⟨propType, c₁, -, h⟩
  · exact onlyErrs_readU8 _ _ (Cursor.read_eq_error.mp h)
  split at h
  · cases h
  rcases Cursor.bind_eq_error.mp h with h | ⟨size, c₂, -, h⟩
  · exact onlyErrs_readNumber _ _ (Cursor.read_eq_error.mp h)
  rcases Cursor.bind_eq_error.mp h with h | ⟨props', c₃, -, h⟩
  · unfold filePropertyAt at h
    split at h
    · exact onlyErrs_readFileProperty _ _ _ _ _ _ (Cursor.read_eq_error.mp h)
    · split at h
      · cases h
        exact ⟨_, rfl⟩
      · rcases Cursor.bind_eq_error.mp h with h | ⟨_, _, -, h⟩
        · exact isErr_of_seekProperty h
        · cases h
  · cases h

theorem isErr_of_archivePropertyRound {nid : UInt8} {fault : Fault}
    (h : archivePropertyRound (header.bounds limits) nid c = .error fault) : fault.IsErr := by
  unfold archivePropertyRound at h
  split at h
  · cases h
  rcases Cursor.bind_eq_error.mp h with h | ⟨size, c₁, -, h⟩
  · exact onlyErrs_readVariableU64 _ _ (Cursor.read_eq_error.mp h)
  rcases Cursor.bind_eq_error.mp h with h | ⟨_, c₂, -, h⟩
  · exact isErr_of_seekProperty h
  rcases Cursor.bind_eq_error.mp h with h | ⟨_, _, -, h⟩
  · exact onlyErrs_readU8 _ _ (Cursor.read_eq_error.mp h)
  · cases h

end Rounds

section Loops

variable {header : HeaderBuffer} {limits : ArchiveLimits} {c : Cursor}

theorem seekProperty_mirrors (size : Nat) (hpos : c.pos ≤ header.data.length) :
    Cursor.Mirrors (seekProperty (header.bounds limits) size)
      (do let size ← (header.bounds limits).size size; skip size) c := by
  by_cases hsize : size ≤ header.data.length
  · have hskip : (header.bounds limits).size size = .ok size :=
      HeaderBounds.size_eq_ok.mpr ⟨rfl, hsize⟩
    unfold Cursor.Mirrors
    rw [seekProperty_of_le hsize hpos, hskip]
    change Except.ok ((), c.data.drop (c.pos + size)) = .ok ((), (c.data.drop c.pos).drop size)
    rw [List.drop_drop]
  · have hskip : ∃ fault, (header.bounds limits).size size = .error fault := by
      cases h : (header.bounds limits).size size with
      | error fault => exact ⟨fault, rfl⟩
      | ok n => exact absurd (HeaderBounds.size_eq_ok.mp h).2 hsize
    obtain ⟨fault, hskip⟩ := hskip
    unfold Cursor.Mirrors seekProperty
    rw [hskip]
    rfl

theorem filePropertyAt_mirrors (propType : UInt8) (size : Nat) (props : FileProperties)
    (hpos : c.pos ≤ header.data.length) :
    Cursor.Mirrors (filePropertyAt (header.bounds limits) propType size props)
      (readFileProperty (header.bounds limits) propType size props) c := by
  unfold filePropertyAt
  by_cases hid : propType ∈ recognisedProperties
  · rw [if_pos hid]
    exact .read (laidOut_readFileProperty hid) c
  · rw [if_neg hid, readFileProperty_of_skipped hid]
    split
    · exact .throw _ c
    · exact (seekProperty_mirrors size hpos).bind fun _ c' _ => .pure props c'

theorem filePropertyLoop_succ (bounds : HeaderBounds) (fuel : Nat) (props : FileProperties) :
    Cursor.loop .outOfFuel (filePropertyRound bounds) (fuel + 1) props = (do
      let propType ← Cursor.read readU8
      if propType = 0 then pure props
      else do
        let size ← Cursor.read readNumber
        let props ← filePropertyAt bounds propType size props
        Cursor.loop .outOfFuel (filePropertyRound bounds) fuel props) := by
  rw [Cursor.loop, filePropertyRound, bind_assoc]
  congr 1
  funext propType
  split
  · rw [pure_bind]
  · simp only [bind_assoc, pure_bind]

theorem filePropertyLoop_mirrors (fuel : Nat) (props : FileProperties)
    (hdata : c.data = header.data) :
    Cursor.Mirrors (Cursor.loop .outOfFuel (filePropertyRound (header.bounds limits)) fuel props)
      (readPropertyLoop (header.bounds limits) fuel props) c := by
  induction fuel generalizing props c with
  | zero => exact .throw _ c
  | succ fuel ih =>
      rw [filePropertyLoop_succ, readPropertyLoop]
      refine (Cursor.Mirrors.read laidOut_readU8 c).bind fun propType c₁ htype => ?_
      split
      · exact .pure props c₁
      refine (Cursor.Mirrors.read laidOut_readNumber c₁).bind fun size c₂ hsize => ?_
      obtain ⟨hdata₁, -, -⟩ := Cursor.read_moves consumes_readU8 htype
      obtain ⟨hdata₂, -, hle⟩ := Cursor.read_moves consumes_readNumber hsize
      have hin : c₂.pos ≤ header.data.length := by
        rw [← hdata, ← hdata₁]
        exact hle Nat.one_pos
      refine (filePropertyAt_mirrors propType size props hin).bind fun props' c₃ hbody => ?_
      obtain ⟨hdata₃, -⟩ := filePropertyAt_moves hbody
      exact ih props' (hdata₃.trans (hdata₂.trans (hdata₁.trans hdata)))

theorem archivePropertyLoop_succ (bounds : HeaderBounds) (fuel : Nat) (nid : UInt8) :
    Cursor.loop .outOfFuel (archivePropertyRound bounds) (fuel + 1) nid =
      (if nid = kEnd then pure ()
      else do
        let size ← Cursor.read readVariableU64
        seekProperty bounds size.toNat
        let nid ← Cursor.read readU8
        Cursor.loop .outOfFuel (archivePropertyRound bounds) fuel nid) := by
  rw [Cursor.loop, archivePropertyRound]
  split
  · rw [pure_bind]
  · simp only [bind_assoc, pure_bind]

theorem archivePropertyLoop_mirrors (fuel : Nat) (nid : UInt8) (hdata : c.data = header.data) :
    Cursor.Mirrors (Cursor.loop .outOfFuel (archivePropertyRound (header.bounds limits)) fuel nid)
      (archivePropertiesLoop (header.bounds limits) fuel nid) c := by
  induction fuel generalizing nid c with
  | zero => exact .throw _ c
  | succ fuel ih =>
      rw [archivePropertyLoop_succ, archivePropertiesLoop]
      split
      · exact .pure () c
      refine (Cursor.Mirrors.read laidOut_readVariableU64 c).bind fun size c₁ hsize => ?_
      obtain ⟨hdata₁, -, hle⟩ := Cursor.read_moves consumes_readVariableU64 hsize
      have hin : c₁.pos ≤ header.data.length := by
        rw [← hdata]
        exact hle Nat.one_pos
      have hskip := (@seekProperty_mirrors header limits c₁ size.toNat hin).bind
        fun _ c₂ hseek => (Cursor.Mirrors.read laidOut_readU8 c₂).bind fun nid' c₃ hnid => by
          obtain ⟨-, hdata₂, -⟩ := seekProperty_eq_ok hseek
          obtain ⟨hdata₃, -, -⟩ := Cursor.read_moves consumes_readU8 hnid
          exact ih nid' (hdata₃.trans (hdata₂.trans (hdata₁.trans hdata)))
      rw [bind_assoc] at hskip
      exact hskip

end Loops

/-- A loop over a header terminates: a round that goes on has moved the cursor forward, from a
place before the end, and with as many rounds as there are bytes left and one more the loop has
ended with a value or an error, whatever more it is given. -/
structure LoopTerminates {σ β : Type} (round : σ → CursorReader Fault (β ⊕ σ))
    (header : HeaderBuffer) : Prop where
  advances : Cursor.Advances round header.data
  settles : ∀ s c, c.data = header.data → ∃ outcome,
    ((∃ r, outcome = .ok r) ∨ ∃ error, outcome = .error (.error error)) ∧
      ∀ fuel, header.data.length - c.pos < fuel → Cursor.loop .outOfFuel round fuel s c = outcome

theorem loopTerminates {σ β : Type} {round : σ → CursorReader Fault (β ⊕ σ)}
    {header : HeaderBuffer} (hadvances : Cursor.Advances round header.data)
    (hfails : ∀ s c fault, round s c = .error fault → fault.IsErr) :
    LoopTerminates round header where
  advances := hadvances
  settles s c hdata := by
    obtain ⟨outcome, hend, hloop⟩ :=
      @Cursor.loop_settles _ _ _ .outOfFuel round header.data Fault.IsErr hadvances hfails s c hdata
    refine ⟨outcome, hend.imp id ?_, hloop⟩
    rintro ⟨_, ⟨error, rfl⟩, houtcome⟩
    exact ⟨error, houtcome⟩

/-- Over every header and with every limits both loops terminate.  A property is passed over by
its declared size, or refused when the header is shorter than that.  Past the end the next read
ends the loop, and the parsers of the header are these loops. -/
theorem propertyLoops_terminate (header : HeaderBuffer) (limits : ArchiveLimits) :
    LoopTerminates (filePropertyRound (header.bounds limits)) header ∧
    LoopTerminates (archivePropertyRound (header.bounds limits)) header ∧
    (∀ size c, (size ≤ header.data.length → c.pos ≤ header.data.length →
        seekProperty (header.bounds limits) size c = .ok ((), { c with pos := c.pos + size })) ∧
      (header.data.length < size → seekProperty (header.bounds limits) size c =
        .error (.error (.limitExceeded .archiveBytes header.data.length size))) ∧
      ∀ c', seekProperty (header.bounds limits) size c = .ok ((), c') → c.pos ≤ c'.pos) ∧
    (∀ c, c.data = header.data → header.data.length ≤ c.pos →
      (∀ props, filePropertyRound (header.bounds limits) props c = .error unexpectedEof) ∧
      ∀ nid, nid ≠ kEnd →
        archivePropertyRound (header.bounds limits) nid c = .error unexpectedEof) ∧
    (∀ c, c.data = header.data →
      (∀ numFiles, Cursor.Mirrors (Cursor.loop .outOfFuel (filePropertyRound (header.bounds limits))
          (c.remaining.length + 1) { files := List.replicate numFiles ArchiveEntry.new })
        (readFileProperties (header.bounds limits) numFiles) c) ∧
      Cursor.Mirrors (do
          let nid ← Cursor.read readU8
          Cursor.loop .outOfFuel (archivePropertyRound (header.bounds limits))
            (c.remaining.length + 1) nid)
        (readArchiveProperties (header.bounds limits)) c) := by
  refine ⟨loopTerminates filePropertyRound_advances fun _ _ _ => isErr_of_filePropertyRound,
    loopTerminates archivePropertyRound_advances fun _ _ _ => isErr_of_archivePropertyRound,
    fun size c => ⟨fun hsize hpos => seekProperty_of_le hsize hpos,
      fun hsize => seekProperty_of_gt hsize c, fun c' hseek => ?_⟩,
    fun c hdata hpos => ⟨fun props => filePropertyRound_of_le _ props (hdata ▸ hpos),
      fun nid hnid => archivePropertyRound_of_le _ hnid (hdata ▸ hpos)⟩,
    fun c hdata => ⟨fun numFiles => filePropertyLoop_mirrors _ _ hdata, ?_⟩⟩
  · obtain ⟨-, -, hpos⟩ := seekProperty_eq_ok hseek
    omega
  · refine (Cursor.Mirrors.read laidOut_readU8 c).bind (g := fun nid =>
      archivePropertiesLoop (header.bounds limits) (c.remaining.length + 1) nid)
        fun nid c₁ hnid => ?_
    obtain ⟨hdata₁, -, -⟩ := Cursor.read_moves consumes_readU8 hnid
    exact archivePropertyLoop_mirrors _ nid (hdata₁.trans hdata)

end Sevenz
