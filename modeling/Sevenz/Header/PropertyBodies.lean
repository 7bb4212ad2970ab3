import Sevenz.Header.FilesInfo
import Sevenz.Lib.Layout

/-!
# Bodies of the file properties

The property loop of `read_files_info` reads an id and a declared size before each body.  Here
each round records what it took.  Names and the properties passed over take their declared size;
the presence vectors, times and attributes are read by their own layout, with no use of it.
-/

namespace Sevenz

open Lib Lib.Parser

theorem laidOut_readU8 : LaidOut readU8 fun body b => body = [b] := LaidOut.byte _

theorem sized_readU8 : Sized readU8 1 := Sized.byte _

theorem sized_readU16 : Sized readU16 2 := (Sized.le _ 2).bind_pure _

theorem sized_readU32 : Sized readU32 4 := (Sized.le _ 4).bind_pure _

theorem sized_readU64 : Sized readU64 8 := (Sized.le _ 8).bind_pure _

abbrev anyLayout {α : Type} (_ : List UInt8) (_ : α) : Prop := True

theorem laidOut_readVariableLoop (first n i mask value : Nat) :
    LaidOut (readVariableLoop first n i mask value) anyLayout := by
  induction n generalizing i mask value with
  | zero => exact (LaidOut.pure value).mono fun _ _ _ => trivial
  | succ n ih =>
      unfold readVariableLoop
      split
      · exact (LaidOut.pure _).mono fun _ _ _ => trivial
      · exact (laidOut_readU8.bind fun b => ih (i + 1) _ _).mono fun _ _ _ => trivial

theorem laidOut_readVariableU64 : LaidOut readVariableU64 anyLayout := by
  have hloop (first : UInt8) :=
    (laidOut_readVariableLoop first.toNat 8 0 0x80 0).bind_pure UInt64.ofNat
  exact (laidOut_readU8.bind hloop).mono fun _ _ _ => trivial

theorem laidOut_readNumber : LaidOut readNumber anyLayout :=
  (laidOut_readVariableU64.bind_pure UInt64.toNat).mono fun _ _ _ => trivial

theorem sized_readBitsLoop {n i j mask cache : Nat} {set : BitSet} (hmask : mask = 2 ^ j >>> 1)
    (hj : j ≤ 8) : Sized (readBitsLoop n i mask cache set) ((n - j + 7) / 8) := by
  induction n generalizing i j mask cache set with
  | zero =>
      rw [Nat.zero_sub]
      exact Sized.pure set
  | succ n ih =>
      subst hmask
      cases j with
      | zero =>
          have hrefill : readBitsLoop (n + 1) i (2 ^ 0 >>> 1) cache set = readU8 >>= fun b =>
              readBitsLoop n (i + 1) (0x80 >>> 1) b.toNat
                (if b.toNat &&& 0x80 ≠ 0 then set.insert i else set) := by
            rw [readBitsLoop, refill, if_pos (by decide), bind_assoc]
            rfl
          have hsize : (n + 1 - 0 + 7) / 8 = 1 + (n - 7 + 7) / 8 := by omega
          rw [hrefill, hsize]
          exact sized_readU8.bind fun b => ih (j := 7) (by decide) (by decide)
      | succ j =>
          have hhalf : 2 ^ (j + 1) >>> 1 = 2 ^ j := by
            rw [Nat.shiftRight_one, Nat.pow_succ, Nat.mul_div_cancel _ (by decide)]
          have hkept : readBitsLoop (n + 1) i (2 ^ j) cache set =
              readBitsLoop n (i + 1) (2 ^ j >>> 1) cache
                (if cache &&& 2 ^ j ≠ 0 then set.insert i else set) := by
            rw [readBitsLoop, refill, if_neg (Nat.two_pow_pos j).ne', pure_bind]
          rw [hhalf, hkept, Nat.add_sub_add_right]
          exact ih rfl (Nat.le_of_succ_le hj)

theorem sized_readBits (n : Nat) : Sized (readBits n) ((n + 7) / 8) :=
  sized_readBitsLoop (j := 0) (by decide) (Nat.zero_le 8)

def definedBytes (n : Nat) (body : List UInt8) : Nat :=
  if body.head? = some 0 then 1 + (n + 7) / 8 else 1

theorem laidOut_readAllOrBits (n : Nat) :
    LaidOut (readAllOrBits n) fun body _ => body.length = definedBytes n body := by
  have hrest (all : UInt8) : Sized (if all ≠ 0 then pure (BitSet.full n) else readBits n)
      (if all ≠ 0 then 0 else (n + 7) / 8) := by
    split
    · exact Sized.pure _
    · exact sized_readBits n
  refine (laidOut_readU8.bind hrest).mono ?_
  rintro body set ⟨front, all, back, rfl, -, rfl, hback⟩
  rw [List.singleton_append, List.length_cons, hback, definedBytes, List.head?_cons]
  by_cases hall : all = 0
  · rw [if_neg (not_not.mpr hall), if_pos (by rw [hall]), Nat.add_comm]
  · rw [if_pos hall, if_neg fun h => hall (Option.some.inj h)]

/-- A vector of the files a value is defined for, the byte for data outside the header, and
`width` bytes for each of them. -/
def DefinedLayout (n width : Nat) (body : List UInt8) : Prop :=
  ∃ vector defined values, body = vector ++ 0 :: values ∧
    Decodes (readAllOrBits n) vector defined ∧ vector.length = definedBytes n vector ∧
    values.length = width * (List.range n).countP defined.contains

theorem sum_map_ite (width : Nat) (p : Nat → Bool) (xs : List Nat) :
    (xs.map fun x => if p x then width else 0).sum = width * xs.countP p := by
  induction xs with
  | nil => rfl
  | cons x xs ih =>
      rw [List.map_cons, List.sum_cons, ih, List.countP_cons, Nat.mul_add, Nat.add_comm]
      congr 1
      split <;> simp

theorem sized_updates {width : Nat} {update : Bool → ArchiveEntry → HeaderReader ArchiveEntry}
    (h : ∀ defined file, Sized (update defined file) (if defined then width else 0))
    (defined : Nat → Bool) (files : List ArchiveEntry) :
    Sized (files.zipIdx.mapM fun file => update (defined file.2) file.1)
      (width * (List.range files.length).countP defined) := by
  have hsum : (files.zipIdx.map fun file => if defined file.2 then width else 0).sum =
      width * (List.range files.length).countP defined := by
    rw [← sum_map_ite, List.range_eq_range', ← List.zipIdx_map_snd, List.map_map]
    rfl
  rw [← hsum]
  exact Sized.mapM fun file _ => h _ _

theorem laidOut_readDefined {width : Nat} (property : String)
    {update : Bool → ArchiveEntry → HeaderReader ArchiveEntry}
    (h : ∀ defined file, Sized (update defined file) (if defined then width else 0))
    (files : List ArchiveEntry) :
    LaidOut (readDefined property update files) fun body _ =>
      DefinedLayout files.length width body := by
  have hvalues (defined : BitSet) := laidOut_readU8.bind fun external =>
    LaidOut.lift_bind (x := Result.rejectIf (external ≠ 0)
      (.other s!"{property} Unimplemented:external={external}")) fun _ _ =>
        sized_updates h defined.contains files
  refine ((laidOut_readAllOrBits files.length).bind hvalues).mono ?_
  rintro body read ⟨vector, defined, back, rfl, hdecodes, hvector, -, external, values, rfl, -,
    rfl, _, hexternal, hlength⟩
  have hzero : external = 0 := not_not.mp (Result.rejectIf_eq_ok.mp hexternal)
  exact ⟨vector, defined, values, by rw [hzero]; rfl, hdecodes, hvector, hlength⟩

theorem laidOut_readNameUnits (maxNameBytes n : Nat) (cache : List UInt16) :
    LaidOut (readNameUnits maxNameBytes n cache) fun body r => body.length + 2 * r.2 = 2 * n := by
  induction n generalizing cache with
  | zero =>
      refine (LaidOut.pure _).mono ?_
      rintro body r ⟨rfl, rfl⟩
      rfl
  | succ n ih =>
      have hunit := LaidOut.bind (f := fun u => (if u = 0 then pure (cache, n) else do
          Result.rejectIf (cache.length * 2 ≥ maxNameBytes)
            (.limitExceeded .nameBytes maxNameBytes (maxNameBytes + 2))
          readNameUnits maxNameBytes n (cache ++ [u]) : HeaderReader (List UInt16 × Nat)))
        (M := fun _ body r => body.length + 2 * r.2 = 2 * n) sized_readU16 fun u => by
          split
          · refine (LaidOut.pure _).mono ?_
            rintro body r ⟨rfl, rfl⟩
            exact Nat.zero_add _
          · refine (LaidOut.lift_bind fun _ _ => ih (cache ++ [u])).mono ?_
            rintro body r ⟨_, -, h⟩
            exact h
      refine hunit.mono ?_
      rintro body r ⟨front, u, back, rfl, -, hfront, hback⟩
      rw [List.length_append, hfront]
      omega

theorem sized_readNames (maxNameBytes : Nat) (files : List ArchiveEntry) (units : Nat) :
    Sized (readNames maxNameBytes files units) (2 * units) := by
  induction files generalizing units with
  | nil =>
      cases units with
      | zero => exact Sized.pure []
      | succ units => exact Sized.throw _ _
  | cons file files ih =>
      cases units with
      | zero => exact Sized.throw _ _
      | succ units =>
          have hrest (r : List UInt16 × Nat) := LaidOut.lift_bind
            (x := Result.okOr (.other "invalid utf-16: lone surrogate found") (decodeUtf16 r.1))
              fun name _ => (ih r.2).bind_pure fun files => { file with name } :: files
          refine ((laidOut_readNameUnits maxNameBytes (units + 1) []).bind hrest).mono ?_
          rintro body named ⟨front, r, back, rfl, -, hfront, name, -, hback⟩
          rw [List.length_append, hback]
          exact hfront

/-- Only an odd size is taken: the byte for data outside the header, and whole units. -/
theorem sized_readNamesProperty (bounds : HeaderBounds) (size : Nat) (files : List ArchiveEntry) :
    Sized (readNamesProperty bounds size files) size := by
  intro s named s' h
  obtain ⟨external, s₁, hexternal, h₁⟩ := bind_eq_ok.mp h
  obtain ⟨_, hzero, h₂⟩ := lift_bind_eq_ok.mp h₁
  obtain ⟨_, hodd, h₃⟩ := lift_bind_eq_ok.mp h₂
  obtain ⟨counted, hcount, hnames⟩ := lift_bind_eq_ok.mp h₃
  have hsize : ¬ (size = 0 ∨ (size - 1) % 2 ≠ 0) := Result.rejectIf_eq_ok.mp hodd
  obtain ⟨rfl, -, -⟩ := HeaderBounds.count_eq_ok.mp hcount
  obtain ⟨front, rfl, hfront, rfl⟩ := laidOut_readU8 s external s₁ hexternal
  obtain ⟨back, rfl, hback, hlength⟩ := sized_readNames _ _ _ s₁ named s' hnames
  refine ⟨[external] ++ back, (List.append_assoc [external] back s').symm, ?_, ?_⟩
  · exact hfront.bind ((Decodes.lift hzero).bind_nil ((Decodes.lift hodd).bind_nil
      ((Decodes.lift hcount).bind_nil hback)))
  · change ([external] ++ back).length = counted
    rw [List.length_append, List.length_singleton, hlength]
    omega

def recognisedProperties : List UInt8 :=
  [kEmptyStream, kEmptyFile, kAnti, kName, kCTime, kATime, kMTime, kWinAttributes]

/-- How a property's body is laid out, after the properties before it. -/
inductive PropertyLayout (props : FileProperties) (size : Nat) (body : List UInt8) : UInt8 → Prop
  | emptyStream (h : body.length = (props.files.length + 7) / 8) :
      PropertyLayout props size body kEmptyStream
  | emptyBits {propType : UInt8} {set : BitSet} (hid : propType = kEmptyFile ∨ propType = kAnti)
      (hset : props.isEmptyStream = some set) (h : body.length = (set.len + 7) / 8) :
      PropertyLayout props size body propType
  | names (h : body.length = size) : PropertyLayout props size body kName
  | times {propType : UInt8} (hid : propType = kCTime ∨ propType = kATime ∨ propType = kMTime)
      (h : DefinedLayout props.files.length 8 body) : PropertyLayout props size body propType
  | attributes (h : DefinedLayout props.files.length 4 body) :
      PropertyLayout props size body kWinAttributes
  | skipped {propType : UInt8} (hid : propType ∉ recognisedProperties)
      (h : body.length = size) : PropertyLayout props size body propType

theorem laidOut_readEmptyBits (isEmptyStream : Option BitSet) :
    LaidOut (readEmptyBits isEmptyStream) fun body _ =>
      ∃ set, isEmptyStream = some set ∧ body.length = (set.len + 7) / 8 := by
  refine (LaidOut.lift_bind fun set _ => sized_readBits set.len).mono ?_
  rintro body bits ⟨set, hset, h⟩
  exact ⟨set, Result.okOr_eq_ok.mp hset, h⟩

theorem sized_readCreationDate (defined : Bool) (file : ArchiveEntry) :
    Sized (readCreationDate defined file) (if defined then 8 else 0) := by
  cases defined with
  | true => exact sized_readU64.bind_pure _
  | false => exact Sized.pure _

theorem sized_readAccessDate (defined : Bool) (file : ArchiveEntry) :
    Sized (readAccessDate defined file) (if defined then 8 else 0) := by
  cases defined with
  | true => exact sized_readU64.bind_pure _
  | false => exact Sized.pure _

theorem sized_readLastModifiedDate (defined : Bool) (file : ArchiveEntry) :
    Sized (readLastModifiedDate defined file) (if defined then 8 else 0) := by
  cases defined with
  | true => exact sized_readU64.bind_pure _
  | false => exact Sized.pure _

theorem sized_readWindowsAttributes (defined : Bool) (file : ArchiveEntry) :
    Sized (readWindowsAttributes defined file) (if defined then 4 else 0) := by
  cases defined with
  | true => exact sized_readU32.bind_pure _
  | false => exact Sized.pure _

theorem laidOut_readFileProperty {bounds : HeaderBounds} {propType : UInt8} {size : Nat}
    {props : FileProperties} (hid : propType ∈ recognisedProperties) :
    LaidOut (readFileProperty bounds propType size props) fun body _ =>
      PropertyLayout props size body propType := by
  have hfiles {L : List UInt8 → Prop} {files : HeaderReader (List ArchiveEntry)}
      (h : LaidOut files fun body _ => L body) :
      LaidOut (do let files ← files; pure { props with files }) fun body _ => L body :=
    (h.bind_pure _).mono fun body _ ⟨_, _, hL⟩ => hL
  unfold readFileProperty
  by_cases hstream : propType = kEmptyStream
  · subst hstream
    rw [if_pos rfl]
    exact ((sized_readBits _).bind_pure _).mono fun _ _ h => .emptyStream h
  rw [if_neg hstream]
  by_cases hfile : propType = kEmptyFile
  · subst hfile
    rw [if_pos rfl]
    refine ((laidOut_readEmptyBits _).bind_pure _).mono ?_
    rintro body _ ⟨_, -, set, hset, h⟩
    exact .emptyBits (.inl rfl) hset h
  rw [if_neg hfile]
  by_cases hanti : propType = kAnti
  · subst hanti
    rw [if_pos rfl]
    refine ((laidOut_readEmptyBits _).bind_pure _).mono ?_
    rintro body _ ⟨_, -, set, hset, h⟩
    exact .emptyBits (.inr rfl) hset h
  rw [if_neg hanti]
  by_cases hname : propType = kName
  · subst hname
    rw [if_pos rfl]
    exact (hfiles (sized_readNamesProperty bounds size props.files)).mono fun _ _ h => .names h
  rw [if_neg hname]
  by_cases hctime : propType = kCTime
  · rw [if_pos hctime]
    exact (hfiles (laidOut_readDefined _ sized_readCreationDate _)).mono
      fun _ _ h => .times (.inl hctime) h
  rw [if_neg hctime]
  by_cases hatime : propType = kATime
  · rw [if_pos hatime]
    exact (hfiles (laidOut_readDefined _ sized_readAccessDate _)).mono
      fun _ _ h => .times (.inr (.inl hatime)) h
  rw [if_neg hatime]
  by_cases hmtime : propType = kMTime
  · rw [if_pos hmtime]
    exact (hfiles (laidOut_readDefined _ sized_readLastModifiedDate _)).mono
      fun _ _ h => .times (.inr (.inr hmtime)) h
  rw [if_neg hmtime]
  by_cases hattributes : propType = kWinAttributes
  · subst hattributes
    rw [if_pos rfl]
    exact (hfiles (laidOut_readDefined _ sized_readWindowsAttributes _)).mono
      fun _ _ h => .attributes h
  simp [recognisedProperties, hstream, hfile, hanti, hname, hctime, hatime, hmtime,
    hattributes] at hid

theorem readFileProperty_size {bounds : HeaderBounds} {propType : UInt8} {props : FileProperties}
    (hid : propType ∈ recognisedProperties) (hname : propType ≠ kName) (size other : Nat) :
    readFileProperty bounds propType size props = readFileProperty bounds propType other props := by
  simp only [recognisedProperties, List.mem_cons, List.not_mem_nil, or_false] at hid
  rcases hid with rfl | rfl | rfl | rfl | rfl | rfl | rfl | rfl
  any_goals rfl
  exact absurd rfl hname

theorem readFileProperty_of_skipped {bounds : HeaderBounds} {propType : UInt8} {size : Nat}
    {props : FileProperties} (hid : propType ∉ recognisedProperties) :
    readFileProperty bounds propType size props =
      if propType = kStartPos then failWith (.other "kStartPos is unsupported, please report")
      else (do let size ← bounds.size size; skip size) >>= fun _ => pure props := by
  simp only [recognisedProperties, List.mem_cons, List.not_mem_nil, or_false, not_or] at hid
  obtain ⟨h₁, h₂, h₃, h₄, h₅, h₆, h₇, h₈⟩ := hid
  rw [readFileProperty, if_neg h₁, if_neg h₂, if_neg h₃, if_neg h₄, if_neg h₅, if_neg h₆,
    if_neg h₇, if_neg h₈]
  split
  · rfl
  · rw [bind_assoc]

theorem readFileProperty_skipped {bounds : HeaderBounds} {propType : UInt8} {size : Nat}
    {props props' : FileProperties} {s s' : List UInt8} (hid : propType ∉ recognisedProperties)
    (h : readFileProperty bounds propType size props s = .ok (props', s')) :
    props' = props ∧ s' = s.drop size ∧ (size ≤ s.length →
      Decodes (readFileProperty bounds propType size props) (s.take size) props) := by
  rw [readFileProperty_of_skipped hid] at h ⊢
  by_cases hpos : propType = kStartPos
  · rw [if_pos hpos] at h
    cases h
  · rw [if_neg hpos] at h ⊢
    obtain ⟨_, s₁, hrest, hend⟩ := bind_eq_ok.mp h
    obtain ⟨skipped, hsize, hskip⟩ := lift_bind_eq_ok.mp hrest
    cases pure_eq_ok.mp hend
    cases hskip
    obtain ⟨rfl, -⟩ := HeaderBounds.size_eq_ok.mp hsize
    refine ⟨rfl, rfl, fun hle => ?_⟩
    have hdecodes := Decodes.skip (ε := Fault) (s.take skipped)
    rw [List.length_take_of_le hle] at hdecodes
    exact ((Decodes.lift hsize).bind_nil hdecodes).bind_pure fun _ => props

structure PropertyRecord where
  propType : UInt8
  sizeText : List UInt8
  size : Nat
  body : List UInt8
  deriving DecidableEq, Repr

def PropertyRecord.text (record : PropertyRecord) : List UInt8 :=
  record.propType :: (record.sizeText ++ record.body)

def took {α : Type} (p : HeaderReader α) : HeaderReader (List UInt8 × α) := fun s => do
  let (a, s') ← p s
  pure ((s.take (s.length - s'.length), a), s')

def recordPropertyLoop (bounds : HeaderBounds) :
    Nat → FileProperties → HeaderReader (List PropertyRecord × FileProperties)
  | 0, _ => throw .outOfFuel
  | fuel + 1, props => do
      let propType ← readU8
      if propType = 0 then pure ([], props)
      else do
        let (sizeText, size) ← took readNumber
        let (body, props) ← took (readFileProperty bounds propType size props)
        let (records, props) ← recordPropertyLoop bounds fuel props
        pure (⟨propType, sizeText, size, body⟩ :: records, props)

def recordFileProperties (bounds : HeaderBounds) (numFiles : Nat) :
    HeaderReader (List PropertyRecord × FileProperties) := fun s =>
  recordPropertyLoop bounds (s.length + 1)
    { files := List.replicate numFiles ArchiveEntry.new } s

def recordFilesInfo (bounds : HeaderBounds) (archive : Archive) :
    HeaderReader (List PropertyRecord × Archive) := do
  let num ← readNumber
  let numFiles ← bounds.count num .entries
  let (records, props) ← recordFileProperties bounds numFiles
  let files ← assignEntries archive.subStreamsInfo props 0 props.files {}
  let archive ← calculateStreamMap { archive with files }
  pure (records, archive)

theorem took_eq_ok {α : Type} {p : HeaderReader α} {s s' body : List UInt8} {a : α} :
    took p s = .ok ((body, a), s') ↔
      p s = .ok (a, s') ∧ body = s.take (s.length - s'.length) := by
  unfold took
  cases h : p s with
  | error fault => simp [bind, Except.bind]
  | ok r =>
      obtain ⟨b, t⟩ := r
      simp only [bind, Except.bind, pure, Except.pure, Except.ok.injEq, Prod.mk.injEq]
      constructor
      · rintro ⟨⟨rfl, rfl⟩, rfl⟩
        exact ⟨⟨rfl, rfl⟩, rfl⟩
      · rintro ⟨⟨rfl, rfl⟩, rfl⟩
        exact ⟨⟨rfl, rfl⟩, rfl⟩

theorem take_front (body s' : List UInt8) :
    (body ++ s').take ((body ++ s').length - s'.length) = body := by
  rw [List.length_append, Nat.add_sub_cancel_right, List.take_left]

theorem recordPropertyLoop_of_read {bounds : HeaderBounds} {fuel : Nat}
    {props props' : FileProperties} {s s' : List UInt8}
    (h : readPropertyLoop bounds fuel props s = .ok (props', s')) :
    ∃ records, recordPropertyLoop bounds fuel props s = .ok ((records, props'), s') := by
  induction fuel generalizing props s with
  | zero => cases h
  | succ fuel ih =>
      rw [readPropertyLoop] at h
      obtain ⟨propType, s₁, htype, h₁⟩ := bind_eq_ok.mp h
      rw [recordPropertyLoop, bind_apply_ok htype]
      by_cases hend : propType = 0
      · rw [if_pos hend] at h₁ ⊢
        cases pure_eq_ok.mp h₁
        exact ⟨[], rfl⟩
      · rw [if_neg hend] at h₁ ⊢
        obtain ⟨size, s₂, hsize, h₂⟩ := bind_eq_ok.mp h₁
        obtain ⟨props₁, s₃, hbody, h₃⟩ := bind_eq_ok.mp h₂
        obtain ⟨records, hrecords⟩ := ih h₃
        have hsize' := took_eq_ok.mpr ⟨hsize, rfl⟩
        have hbody' := took_eq_ok.mpr ⟨hbody, rfl⟩
        rw [bind_apply_ok hsize']
        dsimp only
        rw [bind_apply_ok hbody']
        dsimp only
        rw [bind_apply_ok hrecords]
        exact ⟨_, rfl⟩

/-- A property list read in order, each body by the layout of its id and alone. -/
inductive PropertyRun (bounds : HeaderBounds) :
    FileProperties → List PropertyRecord → FileProperties → Prop
  | nil (props : FileProperties) : PropertyRun bounds props [] props
  | cons {props props₁ props₂ : FileProperties} {record : PropertyRecord}
      {records : List PropertyRecord} (hid : record.propType ≠ 0)
      (hsize : Decodes readNumber record.sizeText record.size)
      (hlayout : PropertyLayout props record.size record.body record.propType)
      (hbody : Decodes (readFileProperty bounds record.propType record.size props) record.body
        props₁)
      (hrest : PropertyRun bounds props₁ records props₂) :
      PropertyRun bounds props (record :: records) props₂

theorem length_pos_of_recordPropertyLoop {bounds : HeaderBounds} {fuel : Nat}
    {props props' : FileProperties} {records : List PropertyRecord} {s s' : List UInt8}
    (h : recordPropertyLoop bounds fuel props s = .ok ((records, props'), s')) : 0 < s.length := by
  cases fuel with
  | zero => cases h
  | succ fuel =>
      rw [recordPropertyLoop] at h
      obtain ⟨propType, s₁, htype, -⟩ := bind_eq_ok.mp h
      have := consumes_readU8 s propType s₁ htype
      omega

theorem took_readFileProperty {bounds : HeaderBounds} {propType : UInt8} {size : Nat}
    {props props' : FileProperties} {s s' body : List UInt8}
    (h : took (readFileProperty bounds propType size props) s = .ok ((body, props'), s'))
    (hpos : 0 < s'.length) :
    s = body ++ s' ∧ PropertyLayout props size body propType ∧
      Decodes (readFileProperty bounds propType size props) body props' := by
  obtain ⟨hread, hbody⟩ := took_eq_ok.mp h
  by_cases hid : propType ∈ recognisedProperties
  · obtain ⟨front, rfl, hdecodes, hlayout⟩ := laidOut_readFileProperty hid s props' s' hread
    rw [take_front] at hbody
    subst hbody
    exact ⟨rfl, hlayout, hdecodes⟩
  · obtain ⟨rfl, rfl, hdecodes⟩ := readFileProperty_skipped hid hread
    rw [List.length_drop] at hpos hbody
    have hle : size ≤ s.length := by omega
    have hsize : s.length - (s.length - size) = size := by omega
    rw [hsize] at hbody
    subst hbody
    exact ⟨(List.take_append_drop size s).symm,
      .skipped hid (List.length_take_of_le hle), hdecodes hle⟩

theorem recordPropertyLoop_run {bounds : HeaderBounds} {fuel : Nat}
    {props props' : FileProperties} {records : List PropertyRecord} {s s' : List UInt8}
    (h : recordPropertyLoop bounds fuel props s = .ok ((records, props'), s')) :
    s = records.flatMap PropertyRecord.text ++ 0 :: s' ∧
      PropertyRun bounds props records props' := by
  induction fuel generalizing props records s with
  | zero => cases h
  | succ fuel ih =>
      rw [recordPropertyLoop] at h
      obtain ⟨propType, s₁, htype, h₁⟩ := bind_eq_ok.mp h
      obtain rfl : s = propType :: s₁ := byte_eq_ok.mp htype
      by_cases hend : propType = 0
      · rw [if_pos hend] at h₁
        cases pure_eq_ok.mp h₁
        exact ⟨by rw [hend]; rfl, .nil _⟩
      · rw [if_neg hend] at h₁
        obtain ⟨⟨sizeText, size⟩, s₂, hsize, h₂⟩ := bind_eq_ok.mp h₁
        obtain ⟨⟨body, props₁⟩, s₃, hbody, h₃⟩ := bind_eq_ok.mp h₂
        obtain ⟨⟨records₁, props₂⟩, s₄, hrest, h₄⟩ := bind_eq_ok.mp h₃
        cases pure_eq_ok.mp h₄
        obtain ⟨hnumber, hsizeText⟩ := took_eq_ok.mp hsize
        obtain ⟨front, rfl, hdecodes, -⟩ := laidOut_readNumber s₁ size s₂ hnumber
        rw [take_front] at hsizeText
        subst hsizeText
        obtain ⟨rfl, hlayout, hproperty⟩ :=
          took_readFileProperty hbody (length_pos_of_recordPropertyLoop hrest)
        obtain ⟨rfl, hrun⟩ := ih hrest
        refine ⟨?_, .cons hend hdecodes hlayout hproperty hrun⟩
        simp only [List.flatMap_cons, PropertyRecord.text, List.cons_append, List.append_assoc]

/-- An accepted list of properties is the number of files and then, up to the zero byte, ids, sizes
and bodies with nothing between them.  Each body is laid out as its id says and read as it would be
alone, and only the names and the properties passed over are held to their declared size. -/
theorem readFilesInfo_bodies {bounds : HeaderBounds} {archive archive' : Archive}
    {s s' : List UInt8} (h : readFilesInfo bounds archive s = .ok (archive', s')) :
    ∃ numText numFiles records props,
      s = numText ++ (records.flatMap PropertyRecord.text ++ 0 :: s') ∧
      Decodes readNumber numText numFiles ∧
      recordFilesInfo bounds archive s = .ok ((records, archive'), s') ∧
      PropertyRun bounds { files := List.replicate numFiles ArchiveEntry.new } records props ∧
      ∀ propType ∈ recognisedProperties, propType ≠ kName → ∀ size other props,
        readFileProperty bounds propType size props =
          readFileProperty bounds propType other props := by
  obtain ⟨num, s₁, hnum, h₁⟩ := bind_eq_ok.mp h
  obtain ⟨numFiles, hcount, h₂⟩ := lift_bind_eq_ok.mp h₁
  obtain ⟨props, s₂, hprops, h₃⟩ := bind_eq_ok.mp h₂
  obtain ⟨files, hfiles, h₄⟩ := lift_bind_eq_ok.mp h₃
  obtain ⟨mapped, hmap, hend⟩ := monadLift_eq_ok.mp h₄
  cases hend
  obtain ⟨numText, rfl, hdecodes, -⟩ := laidOut_readNumber s num s₁ hnum
  obtain ⟨rfl, -, -⟩ := HeaderBounds.count_eq_ok.mp hcount
  obtain ⟨records, hrecords⟩ : ∃ records, recordFileProperties bounds numFiles s₁ =
      .ok ((records, props), s') := recordPropertyLoop_of_read hprops
  obtain ⟨rfl, hrun⟩ := recordPropertyLoop_run hrecords
  refine ⟨numText, numFiles, records, props, rfl, hdecodes, ?_, hrun,
    fun propType hid hname size other props => readFileProperty_size hid hname size other⟩
  rw [recordFilesInfo, bind_apply_ok hnum, bind_apply_ok (monadLift_eq_ok.mpr ⟨_, hcount, rfl⟩),
    bind_apply_ok hrecords]
  exact (bind_apply_ok (monadLift_eq_ok.mpr ⟨_, hfiles, rfl⟩)).trans
    (bind_apply_ok (monadLift_eq_ok.mpr ⟨_, hmap, rfl⟩))

/-- One empty file, whose presence vector declares three bytes and takes one: the other two are
read as a padding property. -/
def longPresenceVector : List UInt8 := [1, kEmptyStream, 3, 0x80, kDummy, 0, kEnd]

theorem longPresenceVector_bodies : ∃ archive' numText numFiles records props,
    readFilesInfo ⟨7, {}⟩ {} longPresenceVector = .ok (archive', []) ∧
      longPresenceVector = numText ++ (records.flatMap PropertyRecord.text ++ [0]) ∧
      PropertyRun ⟨7, {}⟩ { files := List.replicate numFiles ArchiveEntry.new } records props := by
  have hread : ∃ archive', readFilesInfo ⟨7, {}⟩ {} longPresenceVector = .ok (archive', []) :=
    ⟨_, rfl⟩
  obtain ⟨archive', hread⟩ := hread
  obtain ⟨numText, numFiles, records, props, htext, -, -, hrun, -⟩ := readFilesInfo_bodies hread
  exact ⟨archive', numText, numFiles, records, props, hread, htext, hrun⟩

/-- The body of a presence vector is not of its declared size. -/
theorem longPresenceVector_undersized :
    ¬ ∀ bounds archive s records archive' s',
      recordFilesInfo bounds archive s = .ok ((records, archive'), s') →
        ∀ record ∈ records, record.propType ∈ recognisedProperties →
          record.body.length = record.size := by
  intro h
  have hread : ∃ archive', recordFilesInfo ⟨7, {}⟩ {} longPresenceVector = .ok
      (([⟨kEmptyStream, [3], 3, [0x80]⟩, ⟨kDummy, [0], 0, []⟩], archive'), []) := ⟨_, rfl⟩
  obtain ⟨archive', hread⟩ := hread
  have hsize := h _ _ _ _ _ _ hread ⟨kEmptyStream, [3], 3, [0x80]⟩ (by simp) (by decide)
  cases hsize

end Sevenz
