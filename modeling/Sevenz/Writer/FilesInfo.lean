import Sevenz.Header.FilesInfo
import Sevenz.Header.StreamCounts

/-!
# The files info section, written

`ArchiveWriter::write_files_info` against `Archive::read_files_info`.  Three bit vectors say what
the entries without a stream are.  The first has a bit for each entry; the writer ends the other
two at their last set bit, the reader takes a bit for each entry without a stream.
-/

namespace Sevenz

open Lib Lib.Parser

def writeProperty (nid : UInt8) (temp : List UInt8) : List UInt8 :=
  nid :: (writeNumber temp.length ++ temp)

def writeFileEmptyStreams (files : List ArchiveEntry) : List UInt8 :=
  if files.any fun entry => !entry.hasStream then
    writeProperty kEmptyStream
      (writeBitSet (BitSet.ofBits (files.map fun entry => !entry.hasStream)))
  else []

def emptyEntries (files : List ArchiveEntry) : List ArchiveEntry :=
  files.filter fun entry => !entry.hasStream

/-- The bits of the entries without a stream: a new bit set that grows to the last one set. -/
def emptyBitSet (p : ArchiveEntry → Bool) (files : List ArchiveEntry) : BitSet :=
  BitSet.empty.insertFrom 0 ((emptyEntries files).map p)

def writeEmptyBits (nid : UInt8) (p : ArchiveEntry → Bool) (files : List ArchiveEntry) :
    List UInt8 :=
  if (emptyEntries files).any p then writeProperty nid (writeBitSet (emptyBitSet p files)) else []

def writeFileEmptyFiles : List ArchiveEntry → List UInt8 :=
  writeEmptyBits kEmptyFile fun entry => !entry.isDirectory

def writeFileAntiItems : List ArchiveEntry → List UInt8 :=
  writeEmptyBits kAnti ArchiveEntry.isAntiItem

def writeU16 (value : UInt16) : List UInt8 := leBytes 2 value.toNat

def writeFileNames (files : List ArchiveEntry) : List UInt8 :=
  writeProperty kName
    (0 :: files.flatMap fun file => (encodeUtf16 file.name).flatMap writeU16 ++ [0, 0])

def writeTimes (nid : UInt8) (hasTime : ArchiveEntry → Bool) (time : ArchiveEntry → List UInt8)
    (files : List ArchiveEntry) : List UInt8 :=
  let num := files.countP hasTime
  if num > 0 then
    let defined :=
      if num ≠ files.length then 0 :: writeBitSet (BitSet.ofBits (files.map hasTime)) else [1]
    writeProperty nid (defined ++ 0 :: (files.filter hasTime).flatMap time)
  else []

def writeFileCtimes : List ArchiveEntry → List UInt8 :=
  writeTimes kCTime ArchiveEntry.hasCreationDate fun file => writeU64Le file.creationDate

def writeFileAtimes : List ArchiveEntry → List UInt8 :=
  writeTimes kATime ArchiveEntry.hasAccessDate fun file => writeU64Le file.accessDate

def writeFileMtimes : List ArchiveEntry → List UInt8 :=
  writeTimes kMTime ArchiveEntry.hasLastModifiedDate fun file => writeU64Le file.lastModifiedDate

def writeFileWindowsAttrs : List ArchiveEntry → List UInt8 :=
  writeTimes kWinAttributes ArchiveEntry.hasWindowsAttributes fun file =>
    writeU32 file.windowsAttributes

def writeFileProperties (files : List ArchiveEntry) : List UInt8 :=
  writeFileEmptyStreams files ++ (writeFileEmptyFiles files ++ (writeFileAntiItems files ++
    (writeFileNames files ++ (writeFileCtimes files ++ (writeFileAtimes files ++
      (writeFileMtimes files ++ (writeFileWindowsAttrs files ++ [kEnd])))))))

def writeFilesInfoBody (files : List ArchiveEntry) : List UInt8 :=
  writeNumber files.length ++ writeFileProperties files

def writeFilesInfo (files : List ArchiveEntry) : List UInt8 :=
  kFilesInfo :: writeFilesInfoBody files

/-- The bits after the last one set begin no new byte, or no bit is set. -/
def SameBytes (bits : List Bool) : Prop :=
  lastBit bits = 0 ∨ (lastBit bits + 7) / 8 = (bits.length + 7) / 8

instance (bits : List Bool) : Decidable (SameBytes bits) :=
  inferInstanceAs (Decidable (_ ∨ _))

theorem packBits_take_lastBit {bits : List Bool}
    (h : (lastBit bits + 7) / 8 = (bits.length + 7) / 8) :
    packBits (bits.take (lastBit bits)) = packBits bits := by
  have hle := lastBit_le bits
  conv_rhs => rw [← take_lastBit_append bits]
  rw [packBits_append_false (by rw [List.length_take_of_le hle]; omega)]

/-- The bytes take the property loop from `props` to `props'`, whatever follows them. -/
def Advances (bounds : HeaderBounds) (bytes : List UInt8) (props props' : FileProperties) : Prop :=
  ∀ rest fuel, (bytes ++ rest).length < fuel → ∃ fuel', rest.length < fuel' ∧
    readPropertyLoop bounds fuel props (bytes ++ rest) = readPropertyLoop bounds fuel' props' rest

namespace Advances

variable {bounds : HeaderBounds} {props props' props'' : FileProperties}

theorem nil : Advances bounds [] props props := fun _ fuel h => ⟨fuel, h, rfl⟩

theorem append {bytes bytes' : List UInt8} (h : Advances bounds bytes props props')
    (h' : Advances bounds bytes' props' props'') :
    Advances bounds (bytes ++ bytes') props props'' := by
  intro rest fuel hfuel
  rw [List.append_assoc] at hfuel ⊢
  obtain ⟨fuel₁, hfuel₁, heq⟩ := h _ _ hfuel
  obtain ⟨fuel₂, hfuel₂, heq'⟩ := h' _ _ hfuel₁
  exact ⟨fuel₂, hfuel₂, heq.trans heq'⟩

theorem writeProperty {nid : UInt8} {temp : List UInt8} (hnid : nid ≠ 0)
    (hlength : temp.length < 2 ^ 64)
    (h : Decodes (readFileProperty bounds nid temp.length props) temp props') :
    Advances bounds (writeProperty nid temp) props props' := by
  intro rest fuel hfuel
  have hshort : (writeNumber temp.length ++ (temp ++ rest)).length + 1 < fuel := by
    simpa [Sevenz.writeProperty] using hfuel
  cases fuel with
  | zero => omega
  | succ fuel =>
      refine ⟨fuel, by simp only [List.length_append] at hshort; omega, ?_⟩
      rw [Sevenz.writeProperty, List.cons_append, List.append_assoc]
      conv_lhs => rw [readPropertyLoop]
      rw [bind_apply_ok (show readU8 (nid :: _) = .ok (nid, _) from rfl), if_neg hnid,
        bind_apply_ok (decodes_readNumber hlength _), bind_apply_ok (h rest)]

theorem loop_end {bytes : List UInt8} (h : Advances bounds bytes props props')
    (rest : List UInt8) :
    readPropertyLoop bounds ((bytes ++ kEnd :: rest).length + 1) props (bytes ++ kEnd :: rest) =
      .ok (props', rest) := by
  obtain ⟨fuel, hfuel, heq⟩ := h (kEnd :: rest) _ (Nat.lt_succ_self _)
  cases fuel with
  | zero => cases hfuel
  | succ fuel =>
      rw [heq, readPropertyLoop,
        bind_apply_ok (show readU8 (kEnd :: rest) = .ok (kEnd, rest) from rfl)]
      rfl

end Advances

def emptyStreamBits (files : List ArchiveEntry) : Option BitSet :=
  if files.any fun entry => !entry.hasStream then
    some (BitSet.ofBits (files.map fun entry => !entry.hasStream))
  else none

def emptyBits (p : ArchiveEntry → Bool) (files : List ArchiveEntry) : Option BitSet :=
  if (emptyEntries files).any p then some (BitSet.ofBits ((emptyEntries files).map p)) else none

theorem len_ofBits (bits : List Bool) : (BitSet.ofBits bits).len = bits.countP id := by
  have hmap : (List.range bits.length).map (BitSet.ofBits bits).contains = bits :=
    BitSet.toBits_ofBits bits
  rw [BitSet.len_eq_countP _ (Nat.le_of_eq (BitSet.bitCount_ofBits bits))]
  conv_rhs => rw [← hmap, List.countP_map]
  rfl

variable {bounds : HeaderBounds} {files : List ArchiveEntry} {props : FileProperties}

theorem advances_writeFileEmptyStreams (hlength : props.files.length = files.length)
    (hbytes : (files.length + 7) / 8 < 2 ^ 64) (hnone : props.isEmptyStream = none) :
    Advances bounds (writeFileEmptyStreams files) props
      { props with isEmptyStream := emptyStreamBits files } := by
  unfold writeFileEmptyStreams emptyStreamBits
  split
  · have hread := (decodes_readBits (files.map fun entry => !entry.hasStream)).bind_pure fun bits =>
      { props with isEmptyStream := some bits }
    rw [List.length_map, ← hlength] at hread
    rw [writeBitSet_eq, BitSet.bitCount_ofBits, BitSet.toBits_ofBits]
    exact .writeProperty (by decide) (by simpa [packBits_length] using hbytes) hread
  · rw [← hnone]
    exact .nil

theorem emptyEntries_any {p : ArchiveEntry → Bool} (h : (emptyEntries files).any p = true) :
    (files.any fun entry => !entry.hasStream) = true := by
  obtain ⟨entry, hmem, -⟩ := List.any_eq_true.mp h
  obtain ⟨hentry, hstream⟩ := List.mem_filter.mp hmem
  exact List.any_eq_true.mpr ⟨entry, hentry, hstream⟩

theorem decodes_readEmptyBits {p : ArchiveEntry → Bool} (hany : (emptyEntries files).any p = true) :
    Decodes (readEmptyBits (emptyStreamBits files)) (packBits ((emptyEntries files).map p))
      (BitSet.ofBits ((emptyEntries files).map p)) := by
  have hlen : (BitSet.ofBits (files.map fun entry => !entry.hasStream)).len =
      ((emptyEntries files).map p).length := by
    rw [len_ofBits, List.countP_map, List.length_map, emptyEntries, List.countP_eq_length_filter]
    rfl
  rw [emptyStreamBits, if_pos (emptyEntries_any hany)]
  refine Decodes.bind_nil (Decodes.lift (Result.okOr_eq_ok.mpr rfl)) ?_
  rw [hlen]
  exact decodes_readBits _

/-- A vector that is cut only within its last byte is read back whole. -/
theorem advances_writeEmptyBits {nid : UInt8} {p : ArchiveEntry → Bool}
    {update : Option BitSet → FileProperties} (hnid : nid ≠ 0)
    (hproperty : ∀ size, readFileProperty bounds nid size props = do
      let bits ← readEmptyBits props.isEmptyStream
      pure (update (some bits)))
    (hnone : update none = props) (hempty : props.isEmptyStream = emptyStreamBits files)
    (hsame : SameBytes ((emptyEntries files).map p))
    (hbytes : (files.length + 7) / 8 < 2 ^ 64) :
    Advances bounds (writeEmptyBits nid p files) props (update (emptyBits p files)) := by
  unfold writeEmptyBits emptyBits
  split
  · rename_i hany
    have hpack : (lastBit ((emptyEntries files).map p) + 7) / 8 =
        (((emptyEntries files).map p).length + 7) / 8 := by
      apply hsame.resolve_left
      rw [lastBit_eq_zero_iff]
      intro hclear
      obtain ⟨entry, hmem, hset⟩ := List.any_eq_true.mp hany
      rw [hclear (p entry) (List.mem_map_of_mem hmem)] at hset
      cases hset
    have hlength : (emptyEntries files).length ≤ files.length := List.length_filter_le _ _
    rw [emptyBitSet, writeBitSet_insertFrom, packBits_take_lastBit hpack]
    apply Advances.writeProperty hnid
    · rw [packBits_length, List.length_map]
      omega
    · rw [hproperty, hempty]
      exact (decodes_readEmptyBits hany).bind_pure fun bits => update (some bits)
  · rw [hnone]
    exact .nil

theorem decodes_readU16 (value : UInt16) : Decodes readU16 (writeU16 value) value := by
  have h := (Decodes.le unexpectedEof (show value.toNat < 256 ^ 2 from value.toNat_lt)).bind_pure
    UInt16.ofNat
  rwa [UInt16.ofNat_toNat] at h

@[simp] theorem writeU16_length (value : UInt16) : (writeU16 value).length = 2 := by
  simp [writeU16]

theorem flatMap_writeU16_length (units : List UInt16) :
    (units.flatMap writeU16).length = 2 * units.length := by
  induction units with
  | nil => rfl
  | cons u units ih =>
      rw [List.flatMap_cons, List.length_append, ih, writeU16_length, List.length_cons]
      omega

theorem decodes_readNameUnits {maxNameBytes more : Nat} {cache units : List UInt16}
    (hunits : ∀ u ∈ units, u ≠ 0) (hlimit : 2 * (cache.length + units.length) ≤ maxNameBytes) :
    Decodes (readNameUnits maxNameBytes (units.length + (1 + more)) cache)
      (units.flatMap writeU16 ++ [0, 0]) (cache ++ units, more) := by
  induction units generalizing cache with
  | nil =>
      rw [List.append_nil, List.length_nil, Nat.zero_add, Nat.add_comm 1, readNameUnits]
      exact (decodes_readU16 0).bind (Decodes.pure (cache, more))
  | cons u units ih =>
      have hlen : (u :: units).length + (1 + more) = units.length + (1 + more) + 1 := by
        rw [List.length_cons]
        omega
      rw [List.length_cons] at hlimit
      rw [hlen, readNameUnits, List.flatMap_cons, List.append_assoc]
      apply (decodes_readU16 u).bind
      rw [if_neg (hunits u List.mem_cons_self)]
      apply Decodes.bind_nil (Decodes.lift
        ((Result.rejectIf_eq_ok (u := ())).mpr (show ¬ cache.length * 2 ≥ maxNameBytes by omega)))
      have hrest := @ih (cache ++ [u]) (fun v hv => hunits v (List.mem_cons_of_mem u hv))
        (by rw [List.length_append, List.length_singleton]; omega)
      rwa [List.append_assoc, List.singleton_append] at hrest

def nameUnits (file : ArchiveEntry) : Nat := (encodeUtf16 file.name).length + 1

theorem decodes_readNames {maxNameBytes : Nat} (known : ArchiveEntry → ArchiveEntry)
    (hnul : ∀ file ∈ files, ∀ c ∈ file.name, c.toNat ≠ 0)
    (hlimit : ∀ file ∈ files, 2 * (encodeUtf16 file.name).length ≤ maxNameBytes) :
    Decodes (readNames maxNameBytes (files.map known) (files.map nameUnits).sum)
      (files.flatMap fun file => (encodeUtf16 file.name).flatMap writeU16 ++ [0, 0])
      (files.map fun file => { known file with name := file.name }) := by
  induction files with
  | nil => exact Decodes.pure []
  | cons file files ih =>
      obtain ⟨hnul₀, hnul⟩ := List.forall_mem_cons.mp hnul
      obtain ⟨hlimit₀, hlimit⟩ := List.forall_mem_cons.mp hlimit
      have hunits : Decodes
          (readNameUnits maxNameBytes
            ((encodeUtf16 file.name).length + (1 + (files.map nameUnits).sum)) [])
          ((encodeUtf16 file.name).flatMap writeU16 ++ [0, 0])
          (encodeUtf16 file.name, (files.map nameUnits).sum) :=
        decodes_readNameUnits (ne_zero_of_mem_encodeUtf16 hnul₀) (by simpa using hlimit₀)
      have hsum : ((file :: files).map nameUnits).sum =
          (encodeUtf16 file.name).length + (files.map nameUnits).sum + 1 := by
        rw [List.map_cons, List.sum_cons, nameUnits]
        omega
      rw [hsum, List.map_cons, readNames, List.flatMap_cons, Nat.add_assoc,
        Nat.add_comm _ 1]
      apply hunits.bind
      apply Decodes.bind_nil (Decodes.lift
        (Result.okOr_eq_ok.mpr (decodeUtf16_encodeUtf16 file.name)))
      rw [← List.append_nil (List.flatMap _ files)]
      exact (ih hnul hlimit).bind (Decodes.pure _)

structure WithinNameLimits (bounds : HeaderBounds) (files : List ArchiveEntry) : Prop where
  name : ∀ file ∈ files,
    2 * (encodeUtf16 file.name).length ≤ bounds.limits.maxNameBytes.toNat
  total : 2 * (files.map nameUnits).sum + 1 ≤ bounds.limits.maxTotalNameBytes.toNat

theorem flatMap_names_length (files : List ArchiveEntry) :
    (files.flatMap fun file => (encodeUtf16 file.name).flatMap writeU16 ++ [0, 0]).length =
      2 * (files.map nameUnits).sum := by
  induction files with
  | nil => rfl
  | cons file files ih =>
      rw [List.flatMap_cons, List.length_append, ih, List.length_append, flatMap_writeU16_length,
        List.map_cons, List.sum_cons, nameUnits]
      simp only [List.length_cons, List.length_nil]
      omega

theorem advances_writeFileNames {known : ArchiveEntry → ArchiveEntry}
    (hknown : props.files = files.map known)
    (hnul : ∀ file ∈ files, ∀ c ∈ file.name, c.toNat ≠ 0) (hlimit : WithinNameLimits bounds files)
    (hbytes : 2 * (files.map nameUnits).sum + 1 ≤ bounds.bytes) (hmachine : bounds.bytes < 2 ^ 64) :
    Advances bounds (writeFileNames files) props
      { props with files := files.map fun file => { known file with name := file.name } } := by
  have hlength : (0 :: files.flatMap fun file =>
      (encodeUtf16 file.name).flatMap writeU16 ++ [0, 0] : List UInt8).length =
      2 * (files.map nameUnits).sum + 1 := by
    rw [List.length_cons, flatMap_names_length]
  apply Advances.writeProperty (by decide) (by omega)
  rw [hlength]
  have hread : Decodes
      (readNamesProperty bounds (2 * (files.map nameUnits).sum + 1) props.files)
      (0 :: files.flatMap fun file => (encodeUtf16 file.name).flatMap writeU16 ++ [0, 0])
      (files.map fun file => { known file with name := file.name }) := by
    apply (decodes_readU8 0).bind
    apply Decodes.bind_nil (Decodes.lift ((Result.rejectIf_eq_ok (u := ())).mpr (by decide)))
    apply Decodes.bind_nil (Decodes.lift ((Result.rejectIf_eq_ok (u := ())).mpr (by omega)))
    apply Decodes.bind_nil
      (Decodes.lift ((@HeaderBounds.count_eq_ok bounds _ _ .totalNameBytes).mpr
        ⟨rfl, hbytes, hlimit.total⟩))
    rw [hknown, Nat.add_sub_cancel, Nat.mul_div_cancel_left _ (by decide)]
    exact decodes_readNames known hnul hlimit.name
  exact hread.bind_pure fun files => { props with files }

theorem flatMap_ite_filter {α β : Type} (p : α → Bool) (f : α → List β) (xs : List α) :
    (xs.flatMap fun x => if p x then f x else []) = (xs.filter p).flatMap f := by
  induction xs with
  | nil => rfl
  | cons x xs ih =>
      rw [List.flatMap_cons, ih, List.filter_cons]
      split <;> simp

theorem decodes_readDefinedValues {update : Bool → ArchiveEntry → HeaderReader ArchiveEntry}
    {hasTime : ArchiveEntry → Bool} {time : ArchiveEntry → List UInt8} {defined : BitSet}
    (known : ArchiveEntry → ArchiveEntry) (set : ArchiveEntry → ArchiveEntry → ArchiveEntry)
    (hdefined : ∀ i (h : i < files.length), defined.contains i = hasTime files[i])
    (hupdate : ∀ file entry, Decodes (update (hasTime file) entry)
      (if hasTime file then time file else []) (set file entry)) :
    Decodes ((files.map known).zipIdx.mapM fun entry => update (defined.contains entry.2) entry.1)
      ((files.filter hasTime).flatMap time) (files.map fun file => set file (known file)) := by
  have hzip : (files.map known).zipIdx =
      files.zipIdx.map fun entry => (known entry.1, entry.2) := by
    rw [List.zipIdx_map]
    rfl
  have hread : Decodes
      (files.zipIdx.mapM fun entry => update (defined.contains entry.2) (known entry.1))
      (files.zipIdx.flatMap fun entry => if hasTime entry.1 then time entry.1 else [])
      (files.zipIdx.map fun entry => set entry.1 (known entry.1)) := by
    apply Decodes.mapM
    intro entry hentry
    obtain ⟨hlt, hget⟩ := List.getElem?_eq_some_iff.mp (List.mem_zipIdx_iff_getElem?.mp hentry)
    rw [hdefined entry.2 hlt, hget]
    exact hupdate entry.1 (known entry.1)
  have hfst : files.zipIdx.map Prod.fst = files := List.zipIdx_map_fst 0 files
  rw [hzip, List.mapM_map]
  rw [← flatMap_ite_filter]
  conv => arg 2; rw [← hfst, List.flatMap_map]
  conv => arg 3; rw [← hfst, List.map_map]
  exact hread

theorem advances_writeTimes {nid : UInt8} {property : String}
    {update : Bool → ArchiveEntry → HeaderReader ArchiveEntry} {hasTime : ArchiveEntry → Bool}
    {time : ArchiveEntry → List UInt8} (known : ArchiveEntry → ArchiveEntry)
    (set : ArchiveEntry → ArchiveEntry → ArchiveEntry) (hnid : nid ≠ 0)
    (hknown : props.files = files.map known)
    (hproperty : ∀ size, readFileProperty bounds nid size props = do
      let files ← readDefined property update props.files
      pure { props with files })
    (hupdate : ∀ file entry, Decodes (update (hasTime file) entry)
      (if hasTime file then time file else []) (set file entry))
    (hskip : ∀ file, hasTime file = false → set file (known file) = known file)
    (hbytes : (writeTimes nid hasTime time files).length < 2 ^ 64) :
    Advances bounds (writeTimes nid hasTime time files) props
      { props with files := files.map fun file => set file (known file) } := by
  unfold writeTimes at hbytes ⊢
  by_cases hnum : files.countP hasTime > 0
  · rw [if_pos hnum] at hbytes ⊢
    apply Advances.writeProperty hnid
    · simp only [writeProperty, List.length_cons, List.length_append] at hbytes ⊢
      omega
    · rw [hproperty]
      suffices hread : Decodes (readDefined property update props.files) _
          (files.map fun file => set file (known file)) from
        hread.bind_pure fun files => { props with files }
      have hvalues : ∀ defined : BitSet,
          (∀ i (h : i < files.length), defined.contains i = hasTime files[i]) →
          Decodes (do
            let external ← readU8
            Result.rejectIf (external ≠ 0) (.other s!"{property} Unimplemented:external={external}")
            (files.map known).zipIdx.mapM fun file => update (defined.contains file.2) file.1)
          (0 :: (files.filter hasTime).flatMap time)
          (files.map fun file => set file (known file)) := by
        intro defined hdefined
        apply (decodes_readU8 0).bind
        apply Decodes.bind_nil (Decodes.lift ((Result.rejectIf_eq_ok (u := ())).mpr (by decide)))
        exact decodes_readDefinedValues known set hdefined hupdate
      rw [readDefined, hknown, List.length_map]
      split
      · apply Decodes.bind (a := BitSet.ofBits (files.map hasTime))
        · rw [writeBitSet_eq, BitSet.bitCount_ofBits, BitSet.toBits_ofBits]
          simpa using decodes_readAllOrBits_bits (files.map hasTime)
        · exact hvalues _ fun i hi => by simp [hi]
      · rename_i hall
        apply (decodes_readAllOrBits_all files.length).bind
        apply hvalues
        intro i hi
        rw [BitSet.contains_full,
          List.countP_eq_length.mp (not_not.mp hall) _ (List.getElem_mem hi)]
        simpa using hi
  · rw [if_neg hnum]
    have hsame : (files.map fun file => set file (known file)) = props.files := by
      rw [hknown]
      apply List.map_congr_left
      intro file hfile
      apply hskip
      have := List.countP_eq_zero.mp (Nat.eq_zero_of_not_pos hnum) file hfile
      simpa using this
    rw [hsame]
    exact .nil

namespace ArchiveEntry

def setCreationDate (entry file : ArchiveEntry) : ArchiveEntry :=
  { entry with
    hasCreationDate := file.hasCreationDate
    creationDate := if file.hasCreationDate then file.creationDate else entry.creationDate }

def setAccessDate (entry file : ArchiveEntry) : ArchiveEntry :=
  { entry with
    hasAccessDate := file.hasAccessDate
    accessDate := if file.hasAccessDate then file.accessDate else entry.accessDate }

def setLastModifiedDate (entry file : ArchiveEntry) : ArchiveEntry :=
  { entry with
    hasLastModifiedDate := file.hasLastModifiedDate
    lastModifiedDate :=
      if file.hasLastModifiedDate then file.lastModifiedDate else entry.lastModifiedDate }

def setWindowsAttributes (entry file : ArchiveEntry) : ArchiveEntry :=
  { entry with
    hasWindowsAttributes := file.hasWindowsAttributes
    windowsAttributes :=
      if file.hasWindowsAttributes then file.windowsAttributes else entry.windowsAttributes }

def described (file : ArchiveEntry) : ArchiveEntry :=
  (((({ new with name := file.name } : ArchiveEntry).setCreationDate file).setAccessDate
    file).setLastModifiedDate file).setWindowsAttributes file

end ArchiveEntry

theorem advances_writeFileEmptyFiles (hempty : props.isEmptyStream = emptyStreamBits files)
    (hnone : props.isEmptyFile = none)
    (hsame : SameBytes ((emptyEntries files).map fun entry => !entry.isDirectory))
    (hbytes : (files.length + 7) / 8 < 2 ^ 64) :
    Advances bounds (writeFileEmptyFiles files) props
      { props with isEmptyFile := emptyBits (fun entry => !entry.isDirectory) files } := by
  apply @advances_writeEmptyBits bounds files props kEmptyFile _
    (fun bits => { props with isEmptyFile := bits }) (by decide) (fun size => rfl) _ hempty hsame
    hbytes
  rw [← hnone]

theorem advances_writeFileAntiItems (hempty : props.isEmptyStream = emptyStreamBits files)
    (hnone : props.isAnti = none)
    (hsame : SameBytes ((emptyEntries files).map ArchiveEntry.isAntiItem))
    (hbytes : (files.length + 7) / 8 < 2 ^ 64) :
    Advances bounds (writeFileAntiItems files) props
      { props with isAnti := emptyBits ArchiveEntry.isAntiItem files } := by
  apply @advances_writeEmptyBits bounds files props kAnti _
    (fun bits => { props with isAnti := bits }) (by decide) (fun size => rfl) _ hempty hsame hbytes
  rw [← hnone]

theorem decodes_readCreationDate (file entry : ArchiveEntry) :
    Decodes (readCreationDate file.hasCreationDate entry)
      (if file.hasCreationDate then writeU64Le file.creationDate else [])
      (entry.setCreationDate file) := by
  cases hdefined : file.hasCreationDate with
  | false =>
      simpa [readCreationDate, ArchiveEntry.setCreationDate, hdefined] using
        Decodes.pure _
  | true =>
      simpa [readCreationDate, ArchiveEntry.setCreationDate, hdefined] using
        (decodes_readU64 file.creationDate).bind_pure fun creationDate =>
          { entry with hasCreationDate := true, creationDate }

theorem decodes_readAccessDate (file entry : ArchiveEntry) :
    Decodes (readAccessDate file.hasAccessDate entry)
      (if file.hasAccessDate then writeU64Le file.accessDate else [])
      (entry.setAccessDate file) := by
  cases hdefined : file.hasAccessDate with
  | false =>
      simpa [readAccessDate, ArchiveEntry.setAccessDate, hdefined] using
        Decodes.pure _
  | true =>
      simpa [readAccessDate, ArchiveEntry.setAccessDate, hdefined] using
        (decodes_readU64 file.accessDate).bind_pure fun accessDate =>
          { entry with hasAccessDate := true, accessDate }

theorem decodes_readLastModifiedDate (file entry : ArchiveEntry) :
    Decodes (readLastModifiedDate file.hasLastModifiedDate entry)
      (if file.hasLastModifiedDate then writeU64Le file.lastModifiedDate else [])
      (entry.setLastModifiedDate file) := by
  cases hdefined : file.hasLastModifiedDate with
  | false =>
      simpa [readLastModifiedDate, ArchiveEntry.setLastModifiedDate, hdefined] using
        Decodes.pure _
  | true =>
      simpa [readLastModifiedDate, ArchiveEntry.setLastModifiedDate, hdefined] using
        (decodes_readU64 file.lastModifiedDate).bind_pure fun lastModifiedDate =>
          { entry with hasLastModifiedDate := true, lastModifiedDate }

theorem decodes_readWindowsAttributes (file entry : ArchiveEntry) :
    Decodes (readWindowsAttributes file.hasWindowsAttributes entry)
      (if file.hasWindowsAttributes then writeU32 file.windowsAttributes else [])
      (entry.setWindowsAttributes file) := by
  cases hdefined : file.hasWindowsAttributes with
  | false =>
      simpa [readWindowsAttributes, ArchiveEntry.setWindowsAttributes, hdefined] using
        Decodes.pure _
  | true =>
      simpa [readWindowsAttributes, ArchiveEntry.setWindowsAttributes, hdefined] using
        (decodes_readU32 file.windowsAttributes).bind_pure fun windowsAttributes =>
          { entry with hasWindowsAttributes := true, windowsAttributes }

def writtenProperties (files : List ArchiveEntry) : FileProperties where
  files := files.map ArchiveEntry.described
  isEmptyStream := emptyStreamBits files
  isEmptyFile := emptyBits (fun entry => !entry.isDirectory) files
  isAnti := emptyBits ArchiveEntry.isAntiItem files

/-- The two vectors the writer ends early are cut only within their last byte. -/
def SameEmptyBytes (files : List ArchiveEntry) : Prop :=
  SameBytes ((emptyEntries files).map fun entry => !entry.isDirectory) ∧
    SameBytes ((emptyEntries files).map ArchiveEntry.isAntiItem)

instance (files : List ArchiveEntry) : Decidable (SameEmptyBytes files) :=
  inferInstanceAs (Decidable (_ ∧ _))

theorem length_le_sum_nameUnits (files : List ArchiveEntry) :
    files.length ≤ (files.map nameUnits).sum := by
  induction files with
  | nil => exact Nat.le_refl 0
  | cons file files ih =>
      rw [List.length_cons, List.map_cons, List.sum_cons, nameUnits]
      omega

theorem writeFileNames_length (files : List ArchiveEntry) :
    2 * (files.map nameUnits).sum + 1 ≤ (writeFileNames files).length := by
  rw [writeFileNames, writeProperty, List.length_cons, List.length_append, List.length_cons,
    flatMap_names_length]
  omega

structure FitsHeader (bounds : HeaderBounds) (files : List ArchiveEntry) : Prop where
  bytes : (writeFilesInfoBody files).length ≤ bounds.bytes
  machine : bounds.bytes < 2 ^ 64
  names : WithinNameLimits bounds files
  entries : files.length ≤ bounds.limits.maxEntries.toNat

theorem advances_writeFileTimes {known : ArchiveEntry → ArchiveEntry}
    (hknown : known = fun file => { ArchiveEntry.new with name := file.name })
    (hfiles : props.files = files.map known)
    (hbytes : (writeFileCtimes files ++ (writeFileAtimes files ++ (writeFileMtimes files ++
      writeFileWindowsAttrs files))).length < 2 ^ 64) :
    Advances bounds (writeFileCtimes files ++ (writeFileAtimes files ++ (writeFileMtimes files ++
      writeFileWindowsAttrs files))) props
      { props with files := files.map ArchiveEntry.described } := by
  subst hknown
  simp only [List.length_append] at hbytes
  apply Advances.append
  · apply advances_writeTimes _ (fun file entry => entry.setCreationDate file) (by decide) hfiles
      (fun size => rfl) (fun file entry => decodes_readCreationDate file entry) _
      (Nat.lt_of_le_of_lt (Nat.le_add_right _ _) hbytes)
    intro file hdate
    simp [ArchiveEntry.setCreationDate, ArchiveEntry.new, hdate]
  apply Advances.append
  · apply advances_writeTimes _ (fun file entry => entry.setAccessDate file) (by decide) rfl
      (fun size => rfl) (fun file entry => decodes_readAccessDate file entry) _
      (show (writeFileAtimes files).length < 2 ^ 64 by omega)
    intro file hdate
    simp [ArchiveEntry.setAccessDate, ArchiveEntry.setCreationDate, ArchiveEntry.new, hdate]
  apply Advances.append
  · apply advances_writeTimes _ (fun file entry => entry.setLastModifiedDate file) (by decide) rfl
      (fun size => rfl) (fun file entry => decodes_readLastModifiedDate file entry) _
      (show (writeFileMtimes files).length < 2 ^ 64 by omega)
    intro file hdate
    simp [ArchiveEntry.setLastModifiedDate, ArchiveEntry.setAccessDate,
      ArchiveEntry.setCreationDate, ArchiveEntry.new, hdate]
  · apply advances_writeTimes _ (fun file entry => entry.setWindowsAttributes file) (by decide) rfl
      (fun size => rfl) (fun file entry => decodes_readWindowsAttributes file entry) _
      (show (writeFileWindowsAttrs files).length < 2 ^ 64 by omega)
    intro file hattributes
    simp [ArchiveEntry.setWindowsAttributes, ArchiveEntry.setLastModifiedDate,
      ArchiveEntry.setAccessDate, ArchiveEntry.setCreationDate, ArchiveEntry.new, hattributes]

theorem advances_writeFileProperties (hfits : FitsHeader bounds files)
    (hnul : ∀ file ∈ files, ∀ c ∈ file.name, c.toNat ≠ 0) (hsame : SameEmptyBytes files) :
    Advances bounds
      (writeFileEmptyStreams files ++ (writeFileEmptyFiles files ++ (writeFileAntiItems files ++
        (writeFileNames files ++ (writeFileCtimes files ++ (writeFileAtimes files ++
          (writeFileMtimes files ++ writeFileWindowsAttrs files)))))))
      { files := List.replicate files.length ArchiveEntry.new } (writtenProperties files) := by
  have hbytes := hfits.bytes
  have hmachine := hfits.machine
  have hnames := writeFileNames_length files
  have hcount := length_le_sum_nameUnits files
  simp only [writeFilesInfoBody, writeFileProperties, List.length_append] at hbytes
  have hbits : (files.length + 7) / 8 < 2 ^ 64 := by omega
  apply (advances_writeFileEmptyStreams (by simp) hbits rfl).append
  apply (advances_writeFileEmptyFiles rfl rfl hsame.1 hbits).append
  apply (advances_writeFileAntiItems rfl rfl hsame.2 hbits).append
  apply (@advances_writeFileNames bounds files _ (fun _ => ArchiveEntry.new) (by simp) hnul
    hfits.names (by omega) hmachine).append
  exact advances_writeFileTimes rfl rfl (by simp only [List.length_append]; omega)

theorem decodes_readFileProperties (hfits : FitsHeader bounds files)
    (hnul : ∀ file ∈ files, ∀ c ∈ file.name, c.toNat ≠ 0) (hsame : SameEmptyBytes files) :
    Decodes (readFileProperties bounds files.length) (writeFileProperties files)
      (writtenProperties files) := by
  intro rest
  have hloop := (advances_writeFileProperties hfits hnul hsame).loop_end rest
  have hbytes : writeFileProperties files ++ rest =
      (writeFileEmptyStreams files ++ (writeFileEmptyFiles files ++ (writeFileAntiItems files ++
        (writeFileNames files ++ (writeFileCtimes files ++ (writeFileAtimes files ++
          (writeFileMtimes files ++ writeFileWindowsAttrs files))))))) ++ kEnd :: rest := by
    simp [writeFileProperties]
  rw [readFileProperties, hbytes]
  exact hloop

structure StreamDigest where
  crc : UInt64
  size : UInt64
  hasCrc : Bool

def SubStreamsInfo.subStream (info : SubStreamsInfo) (j : Nat) : StreamDigest where
  crc := info.crcs.getD j 0
  size := info.unpackSizes.getD j 0
  hasCrc := info.hasCrc.contains j

def ArchiveEntry.withStream (file : ArchiveEntry) (subStream : StreamDigest) : ArchiveEntry :=
  { file.described with
    hasStream := true, crc := subStream.crc, size := subStream.size, hasCrc := subStream.hasCrc }

def ArchiveEntry.withoutStream (file : ArchiveEntry) : ArchiveEntry :=
  { file.described with isDirectory := file.isDirectory, isAntiItem := file.isAntiItem }

/-- The entries as they are read back, those with a stream with the sub-streams from the `j`th
on. -/
def dealSubStreams (info : SubStreamsInfo) : Nat → List ArchiveEntry → List ArchiveEntry
  | _, [] => []
  | j, file :: files =>
      if file.hasStream then file.withStream (info.subStream j) :: dealSubStreams info (j + 1) files
      else file.withoutStream :: dealSubStreams info j files

theorem emptyStreamBits_hasStream {i : Nat} {file : ArchiveEntry} (h : files[i]? = some file) :
    ((emptyStreamBits files).map fun s => !s.contains i).getD true = file.hasStream := by
  obtain ⟨hlt, rfl⟩ := List.getElem?_eq_some_iff.mp h
  unfold emptyStreamBits
  split
  · simp [hlt]
  · rename_i hnone
    have := List.any_eq_false.mp (Bool.eq_false_iff.mpr hnone) files[i] (List.getElem_mem hlt)
    simpa using this

theorem emptyBits_contains {p : ArchiveEntry → Bool} {c : Nat} {file : ArchiveEntry}
    (h : (emptyEntries files)[c]? = some file) :
    ((emptyBits p files).map fun s => s.contains c).getD false = p file := by
  obtain ⟨hlt, rfl⟩ := List.getElem?_eq_some_iff.mp h
  unfold emptyBits
  split
  · simp [hlt]
  · rename_i hnone
    have := List.any_eq_false.mp (Bool.eq_false_iff.mpr hnone) _ (List.getElem_mem hlt)
    simpa using this

theorem getD_map_not {α : Type} (f : α → Bool) (o : Option α) :
    (o.map fun x => !f x).getD true = !(o.map f).getD false := by
  cases o <;> rfl

theorem assignEntries_written {info : SubStreamsInfo} {before after : List ArchiveEntry}
    (hcrcs : before.countP ArchiveEntry.hasStream + after.countP ArchiveEntry.hasStream ≤
      info.crcs.length)
    (hsizes : before.countP ArchiveEntry.hasStream + after.countP ArchiveEntry.hasStream ≤
      info.unpackSizes.length) :
    assignEntries (some info) (writtenProperties (before ++ after)) before.length
        (after.map ArchiveEntry.described)
        { nonEmptyFileCounter := before.countP ArchiveEntry.hasStream
          emptyFileCounter := (emptyEntries before).length } =
      .ok (dealSubStreams info (before.countP ArchiveEntry.hasStream) after) := by
  induction after generalizing before with
  | nil => rfl
  | cons file after ih =>
      have hbefore : before ++ file :: after = before ++ [file] ++ after := by simp
      have hstream : ((writtenProperties (before ++ file :: after)).isEmptyStream.map
          fun s => !s.contains before.length).getD true = file.hasStream :=
        emptyStreamBits_hasStream (by simp)
      have hnext := @ih (before ++ [file])
      rw [← hbefore] at hnext
      cases hfile : file.hasStream with
      | true =>
          have hcount : (before ++ [file]).countP ArchiveEntry.hasStream =
              before.countP ArchiveEntry.hasStream + 1 := by
            simp [List.countP_append, hfile]
          have hempty : emptyEntries (before ++ [file]) = emptyEntries before := by
            simp [emptyEntries, List.filter_append, hfile]
          rw [List.countP_cons_of_pos hfile] at hcrcs hsizes
          rw [hcount, hempty, List.length_append, List.length_singleton] at hnext
          have hrest := hnext (by omega) (by omega)
          have hcrc : info.crcs[before.countP ArchiveEntry.hasStream]? =
              some (info.subStream (before.countP ArchiveEntry.hasStream)).crc := by
            simp [SubStreamsInfo.subStream, show before.countP ArchiveEntry.hasStream <
              info.crcs.length by omega]
          have hsize : info.unpackSizes[before.countP ArchiveEntry.hasStream]? =
              some (info.subStream (before.countP ArchiveEntry.hasStream)).size := by
            simp [SubStreamsInfo.subStream, show before.countP ArchiveEntry.hasStream <
              info.unpackSizes.length by omega]
          have hassign : assignEntry (some info) (writtenProperties (before ++ file :: after))
              before.length file.described
              { nonEmptyFileCounter := before.countP ArchiveEntry.hasStream
                emptyFileCounter := (emptyEntries before).length } =
              .ok (file.withStream (info.subStream (before.countP ArchiveEntry.hasStream)),
                { nonEmptyFileCounter := before.countP ArchiveEntry.hasStream + 1
                  emptyFileCounter := (emptyEntries before).length }) := by
            unfold assignEntry
            rw [hstream, hfile, if_pos rfl, Result.okOr_eq_ok.mpr rfl]
            dsimp only [bind, Except.bind]
            rw [hcrc, hsize]
            rfl
          rw [List.map_cons, assignEntries, hassign]
          dsimp only [bind, Except.bind]
          rw [hrest, dealSubStreams, if_pos hfile]
          rfl
      | false =>
          have hcount : (before ++ [file]).countP ArchiveEntry.hasStream =
              before.countP ArchiveEntry.hasStream := by
            simp [List.countP_append, hfile]
          have hempty : emptyEntries (before ++ [file]) = emptyEntries before ++ [file] := by
            simp [emptyEntries, List.filter_append, hfile]
          rw [List.countP_cons_of_neg (by simp [hfile])] at hcrcs hsizes
          rw [hcount, hempty, List.length_append, List.length_append,
            List.length_singleton] at hnext
          have hrest := hnext (by omega) (by omega)
          have hget : (emptyEntries (before ++ file :: after))[(emptyEntries before).length]? =
              some file := by
            simp [emptyEntries, List.filter_append, hfile]
          have hdirectory : ((writtenProperties (before ++ file :: after)).isEmptyFile.map
              fun s => !s.contains (emptyEntries before).length).getD true = file.isDirectory := by
            rw [getD_map_not]
            exact Bool.not_eq_eq_eq_not.mpr
              (@emptyBits_contains _ (fun entry => !entry.isDirectory) _ _ hget)
          have hanti : ((writtenProperties (before ++ file :: after)).isAnti.map
              fun s => s.contains (emptyEntries before).length).getD false = file.isAntiItem :=
            emptyBits_contains hget
          have hassign : assignEntry (some info) (writtenProperties (before ++ file :: after))
              before.length file.described
              { nonEmptyFileCounter := before.countP ArchiveEntry.hasStream
                emptyFileCounter := (emptyEntries before).length } =
              .ok (file.withoutStream,
                { nonEmptyFileCounter := before.countP ArchiveEntry.hasStream
                  emptyFileCounter := (emptyEntries before).length + 1 }) := by
            unfold assignEntry
            rw [hstream, hfile, if_neg (by simp)]
            dsimp only
            rw [hdirectory, hanti]
            rfl
          rw [List.map_cons, assignEntries, hassign]
          dsimp only [bind, Except.bind]
          rw [hrest, dealSubStreams, if_neg (by simp [hfile])]
          rfl

@[simp] theorem dealSubStreams_length (info : SubStreamsInfo) (j : Nat)
    (files : List ArchiveEntry) : (dealSubStreams info j files).length = files.length := by
  induction files generalizing j with
  | nil => rfl
  | cons file files ih =>
      rw [dealSubStreams]
      split <;> simp [ih]

theorem countP_dealSubStreams (info : SubStreamsInfo) (j : Nat) (files : List ArchiveEntry) :
    (dealSubStreams info j files).countP ArchiveEntry.hasStream =
      files.countP ArchiveEntry.hasStream := by
  induction files generalizing j with
  | nil => rfl
  | cons file files ih =>
      rw [dealSubStreams]
      split
      · rename_i hstream
        rw [List.countP_cons_of_pos rfl, List.countP_cons_of_pos hstream, ih]
      · rename_i hstream
        rw [List.countP_cons_of_neg (by simp [ArchiveEntry.withoutStream,
          ArchiveEntry.described, ArchiveEntry.setWindowsAttributes,
          ArchiveEntry.setLastModifiedDate, ArchiveEntry.setAccessDate,
          ArchiveEntry.setCreationDate, ArchiveEntry.new]),
          List.countP_cons_of_neg hstream, ih]

/-- The streams sections that go with the entries: a sub-stream for each entry with a stream. -/
structure Archive.Matches (archive : Archive) (info : SubStreamsInfo)
    (files : List ArchiveEntry) : Prop where
  subStreamsInfo : archive.subStreamsInfo = some info
  crcs : info.crcs.length = files.countP ArchiveEntry.hasStream
  unpackSizes : info.unpackSizes.length = files.countP ArchiveEntry.hasStream
  counts : Archive.CountsMatch { archive with files }

theorem decodes_readFilesInfo {archive : Archive} {info : SubStreamsInfo}
    (hmatch : archive.Matches info files) (hfits : FitsHeader bounds files)
    (hnul : ∀ file ∈ files, ∀ c ∈ file.name, c.toNat ≠ 0) (hsame : SameEmptyBytes files) :
    ∃ result, calculateStreamMap { archive with files := dealSubStreams info 0 files } =
        .ok result ∧
      Decodes (readFilesInfo bounds archive) (writeFilesInfoBody files) result := by
  have hcounts : Archive.CountsMatch { archive with files := dealSubStreams info 0 files } :=
    { hmatch.counts with
      subStreams := hmatch.counts.subStreams.trans (countP_dealSubStreams info 0 files).symm
      files := by
        rw [dealSubStreams_length]
        exact hmatch.counts.files }
  obtain ⟨result, hmap⟩ := calculateStreamMap_isOk hcounts
  have hnames := writeFileNames_length files
  have hcount := length_le_sum_nameUnits files
  have hbytes := hfits.bytes
  have hmachine := hfits.machine
  simp only [writeFilesInfoBody, writeFileProperties, List.length_append] at hbytes
  have hassign : assignEntries archive.subStreamsInfo (writtenProperties files) 0
      (files.map ArchiveEntry.described) {} = .ok (dealSubStreams info 0 files) := by
    rw [hmatch.subStreamsInfo]
    exact @assignEntries_written info [] files (by simp [hmatch.crcs])
      (by simp [hmatch.unpackSizes])
  refine ⟨result, hmap, ?_⟩
  apply (decodes_readNumber (by omega)).bind
  apply Decodes.bind_nil (Decodes.lift ((@HeaderBounds.count_eq_ok bounds _ _ .entries).mpr
    ⟨rfl, by omega, hfits.entries⟩))
  rw [← List.append_nil (writeFileProperties files)]
  apply (decodes_readFileProperties hfits hnul hsame).bind
  exact Decodes.bind_nil (Decodes.lift hassign) (Decodes.lift hmap)

structure ArchiveEntry.ReadAs (file file' : ArchiveEntry) : Prop where
  name : file'.name = file.name
  hasStream : file'.hasStream = file.hasStream
  isDirectory : file'.isDirectory = file.isDirectory
  isAntiItem : file'.isAntiItem = file.isAntiItem
  hasCreationDate : file'.hasCreationDate = file.hasCreationDate
  creationDate : file.hasCreationDate = true → file'.creationDate = file.creationDate
  hasAccessDate : file'.hasAccessDate = file.hasAccessDate
  accessDate : file.hasAccessDate = true → file'.accessDate = file.accessDate
  hasLastModifiedDate : file'.hasLastModifiedDate = file.hasLastModifiedDate
  lastModifiedDate : file.hasLastModifiedDate = true →
    file'.lastModifiedDate = file.lastModifiedDate
  hasWindowsAttributes : file'.hasWindowsAttributes = file.hasWindowsAttributes
  windowsAttributes : file.hasWindowsAttributes = true →
    file'.windowsAttributes = file.windowsAttributes

theorem ArchiveEntry.ReadAs.congr {file file' file'' : ArchiveEntry} (h : file.ReadAs file')
    (hsame : file'.SameEntry file'') : file.ReadAs file'' := by
  rw [hsame]
  exact { h with }

theorem forall₂_trans_readAs {files files' files'' : List ArchiveEntry}
    (h : List.Forall₂ ArchiveEntry.ReadAs files files')
    (hsame : List.Forall₂ ArchiveEntry.SameEntry files' files'') :
    List.Forall₂ ArchiveEntry.ReadAs files files'' := by
  induction h generalizing files'' with
  | nil =>
      cases hsame
      exact .nil
  | cons hread _ ih =>
      cases hsame with
      | cons hsame hrest => exact .cons (hread.congr hsame) (ih hrest)

theorem forall₂_dealSubStreams (info : SubStreamsInfo) (j : Nat)
    (hkinds : ∀ file ∈ files, file.hasStream = true →
      file.isDirectory = false ∧ file.isAntiItem = false) :
    List.Forall₂ ArchiveEntry.ReadAs files (dealSubStreams info j files) := by
  induction files generalizing j with
  | nil => exact .nil
  | cons file files ih =>
      obtain ⟨hkind, hkinds⟩ := List.forall_mem_cons.mp hkinds
      rw [dealSubStreams]
      cases hstream : file.hasStream with
      | true =>
          obtain ⟨hdirectory, hanti⟩ := hkind hstream
          refine .cons ?_ (ih (j + 1) hkinds)
          exact ⟨rfl, hstream.symm, hdirectory.symm, hanti.symm, rfl, fun h => if_pos h, rfl,
            fun h => if_pos h, rfl, fun h => if_pos h, rfl, fun h => if_pos h⟩
      | false =>
          refine .cons ?_ (ih j hkinds)
          exact ⟨rfl, hstream.symm, rfl, rfl, rfl, fun h => if_pos h, rfl, fun h => if_pos h, rfl,
            fun h => if_pos h, rfl, fun h => if_pos h⟩

/-- The reader of a vector the writer ended early takes a byte of what follows the vector. -/
def ReadsPastEnd (p : ArchiveEntry → Bool) (files : List ArchiveEntry) : Prop :=
  (emptyEntries files).any p = true ∧ ∀ rest bits s,
    readEmptyBits (emptyStreamBits files) (writeBitSet (emptyBitSet p files) ++ rest) =
      .ok (bits, s) → s.length < rest.length

theorem readsPastEnd_of_not_sameBytes {p : ArchiveEntry → Bool}
    (h : ¬ SameBytes ((emptyEntries files).map p)) : ReadsPastEnd p files := by
  obtain ⟨hset, hbytes⟩ := not_or.mp h
  have hany : (emptyEntries files).any p = true := by
    by_contra hclear
    apply hset
    rw [lastBit_eq_zero_iff]
    intro b hb
    obtain ⟨entry, hentry, rfl⟩ := List.mem_map.mp hb
    simpa using List.any_eq_false.mp (Bool.eq_false_iff.mpr hclear) entry hentry
  refine ⟨hany, ?_⟩
  intro rest bits s hread
  obtain ⟨set, hset', hread⟩ := lift_bind_eq_ok.mp hread
  have hlen : set.len = ((emptyEntries files).map p).length := by
    rw [emptyStreamBits, if_pos (emptyEntries_any hany)] at hset'
    cases Result.okOr_eq_ok.mp hset'
    rw [len_ofBits, List.countP_map, List.length_map, emptyEntries, List.countP_eq_length_filter]
    rfl
  have hconsumed := consumes_readBits set.len _ _ _ hread
  have hle := lastBit_le ((emptyEntries files).map p)
  rw [hlen, emptyBitSet, writeBitSet_insertFrom, List.length_append, packBits_length,
    List.length_take_of_le hle] at hconsumed
  omega

theorem SameBytes.not_readsPastEnd {p : ArchiveEntry → Bool}
    (h : SameBytes ((emptyEntries files).map p)) : ¬ ReadsPastEnd p files := by
  intro hover
  obtain ⟨hany, hread⟩ := hover
  have hset : lastBit ((emptyEntries files).map p) ≠ 0 := by
    rw [ne_eq, lastBit_eq_zero_iff]
    intro hclear
    obtain ⟨entry, hmem, hp⟩ := List.any_eq_true.mp hany
    rw [hclear (p entry) (List.mem_map_of_mem hmem)] at hp
    cases hp
  have hbits := decodes_readEmptyBits hany []
  rw [← packBits_take_lastBit (h.resolve_left hset), ← writeBitSet_insertFrom] at hbits
  exact absurd (hread [] _ _ hbits) (Nat.lt_irrefl 0)

/-- The section is read back as the entries, and the two vectors the writer may end early are
read from just the bytes written for them. -/
structure RoundTrips (bounds : HeaderBounds) (archive : Archive) (files : List ArchiveEntry) :
    Prop where
  emptyFiles : ¬ ReadsPastEnd (fun entry => !entry.isDirectory) files
  antiItems : ¬ ReadsPastEnd ArchiveEntry.isAntiItem files
  readBack : ∃ result, Decodes (readFilesInfo bounds archive) (writeFilesInfoBody files) result ∧
    List.Forall₂ ArchiveEntry.ReadAs files result.files

/-- Entries come back exactly if no vector is ended a byte or more too early. -/
theorem writeFilesInfo_roundTrips_iff {archive : Archive} {info : SubStreamsInfo}
    (hkinds : ∀ file ∈ files, file.hasStream = true →
      file.isDirectory = false ∧ file.isAntiItem = false)
    (hnul : ∀ file ∈ files, ∀ c ∈ file.name, c.toNat ≠ 0) (hmatch : archive.Matches info files)
    (hfits : FitsHeader bounds files) :
    RoundTrips bounds archive files ↔ SameEmptyBytes files := by
  constructor
  · intro h
    constructor
    · exact by_contra fun hcut => h.emptyFiles (readsPastEnd_of_not_sameBytes hcut)
    · exact by_contra fun hcut => h.antiItems (readsPastEnd_of_not_sameBytes hcut)
  · intro hsame
    obtain ⟨result, hmap, hdecodes⟩ := decodes_readFilesInfo hmatch hfits hnul hsame
    obtain ⟨-, hfiles, -⟩ := calculateStreamMap_eq_ok hmap
    refine ⟨hsame.1.not_readsPastEnd, hsame.2.not_readsPastEnd, result, hdecodes, ?_⟩
    exact forall₂_trans_readAs (forall₂_dealSubStreams info 0 hkinds) hfiles

def entriesOfAllKinds : List ArchiveEntry :=
  [{ ArchiveEntry.newFile ['a'] with hasCreationDate := true, creationDate := 7 },
    ArchiveEntry.newDirectory ['b'], { ArchiveEntry.new with name := ['c'] },
    { ArchiveEntry.new with name := ['d'], isAntiItem := true }]

def oneStream : Archive :=
  { packSizes := [1]
    blocks := [{ packedStreams := [0], numUnpackSubStreams := 1 }]
    subStreamsInfo := some { unpackSizes := [1], hasCrc := BitSet.full 1, crcs := [9] } }

theorem entriesOfAllKinds_roundTrips_iff :
    RoundTrips { bytes := 128, limits := {} } oneStream entriesOfAllKinds ↔
      SameEmptyBytes entriesOfAllKinds :=
  writeFilesInfo_roundTrips_iff (by decide)
    (by simp [entriesOfAllKinds, ArchiveEntry.newFile, ArchiveEntry.newDirectory,
      ArchiveEntry.new])
    ⟨rfl, rfl, rfl, by constructor <;> decide⟩
    ⟨by decide, by decide, ⟨by decide, by decide⟩, by decide⟩

def emptyFileFirst : List ArchiveEntry :=
  { ArchiveEntry.new with name := ['f'] } ::
    (['1', '2', '3', '4', '5', '6', '7', '8'].map fun c => ArchiveEntry.newDirectory [c])

/-- Nine entries without a stream have nine bits, of which only the first is written. -/
theorem emptyFileFirst_not_readBack :
    ¬ ∃ result, Decodes
        (readFilesInfo { bytes := 128, limits := {} }
          { subStreamsInfo := some { unpackSizes := [], hasCrc := BitSet.empty, crcs := [] } })
        (writeFilesInfoBody emptyFileFirst) result ∧
      List.Forall₂ ArchiveEntry.ReadAs emptyFileFirst result.files := by
  intro h
  obtain ⟨result, hdecodes, -⟩ := h
  have hread := hdecodes []
  rw [List.append_nil] at hread
  have hleft : ((readFilesInfo { bytes := 128, limits := {} }
      { subStreamsInfo := some { unpackSizes := [], hasCrc := BitSet.empty, crcs := [] } }
      (writeFilesInfoBody emptyFileFirst)).toOption.all fun read => read.2.length = 34) = true := by
    decide +kernel
  rw [hread] at hleft
  exact absurd hleft (by simp [Except.toOption])

end Sevenz
