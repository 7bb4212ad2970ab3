import Mathlib.Data.List.Sort
import Sevenz.Header.Accepted

/-!
# Which sub-stream an entry is

`read_files_info` deals the sub-streams out to the files with a stream, one after the other,
and `calculate_stream_map` deals the same files out to the blocks.  Both count files, each with
a counter of its own, and they stay in step.
-/

namespace Sevenz

open Lib Lib.Parser

def streamsBefore (files : List ArchiveEntry) (i : Nat) : Nat :=
  (files.take i).countP ArchiveEntry.hasStream

@[simp] theorem streamsBefore_zero (files : List ArchiveEntry) : streamsBefore files 0 = 0 := rfl

theorem streamsBefore_cons_succ (file : ArchiveEntry) (files : List ArchiveEntry) (i : Nat) :
    streamsBefore (file :: files) (i + 1) =
      (if file.hasStream then 1 else 0) + streamsBefore files i := by
  rw [streamsBefore, List.take_succ_cons, List.countP_cons, Nat.add_comm]
  rfl

structure SubStreamsInfo.Gives (info : SubStreamsInfo) (j : Nat) (file : ArchiveEntry) : Prop where
  size : info.unpackSizes[j]? = some file.size
  crc : info.crcs[j]? = some file.crc
  hasCrc : file.hasCrc = info.hasCrc.contains j

/-- A file with a stream takes the next sub-stream, one without a stream takes none. -/
theorem assignEntry_eq_ok {info : Option SubStreamsInfo} {props : FileProperties} {i : Nat}
    {file file' : ArchiveEntry} {counters counters' : EntryCounters}
    (h : assignEntry info props i file counters = .ok (file', counters')) :
    counters'.nonEmptyFileCounter =
        (if file'.hasStream then 1 else 0) + counters.nonEmptyFileCounter ∧
      (file'.hasStream = true →
        ∃ subs, info = some subs ∧ subs.Gives counters.nonEmptyFileCounter file') := by
  unfold assignEntry at h
  dsimp only at h
  split at h
  · obtain ⟨subs, hinfo, h⟩ := Result.bind_eq_ok.mp h
    obtain ⟨crc, hcrc, h⟩ := Result.bind_eq_ok.mp h
    obtain ⟨size, hsize, h⟩ := Result.bind_eq_ok.mp h
    cases Result.pure_eq_ok.mp h
    refine ⟨Nat.add_comm _ _, fun _ => ⟨subs, Result.okOr_eq_ok.mp hinfo, ?_⟩⟩
    exact ⟨Result.okOr_eq_ok.mp hsize, Result.okOr_eq_ok.mp hcrc, rfl⟩
  · cases Result.pure_eq_ok.mp h
    exact ⟨(Nat.zero_add _).symm, fun hstream => Bool.noConfusion hstream⟩

theorem assignEntries_gives {info : Option SubStreamsInfo} {props : FileProperties} {i : Nat}
    {files files' : List ArchiveEntry} {counters : EntryCounters}
    (h : assignEntries info props i files counters = .ok files') {j : Nat} {file : ArchiveEntry}
    (hfile : files'[j]? = some file) (hstream : file.hasStream = true) :
    ∃ subs, info = some subs ∧
      subs.Gives (counters.nonEmptyFileCounter + streamsBefore files' j) file := by
  induction files generalizing i files' counters j with
  | nil =>
      cases Result.pure_eq_ok.mp h
      cases hfile
  | cons first files ih =>
      obtain ⟨⟨first', counters₁⟩, hentry, h⟩ := Result.bind_eq_ok.mp h
      obtain ⟨files₁, hentries, h⟩ := Result.bind_eq_ok.mp h
      cases Result.pure_eq_ok.mp h
      obtain ⟨hcount, hgives⟩ := assignEntry_eq_ok hentry
      cases j with
      | zero =>
          cases hfile
          exact hgives hstream
      | succ j =>
          obtain ⟨subs, hinfo, hsub⟩ := ih hentries hfile
          refine ⟨subs, hinfo, ?_⟩
          rw [streamsBefore_cons_succ, ← Nat.add_assoc,
            Nat.add_comm counters.nonEmptyFileCounter, ← hcount]
          exact hsub

namespace MapState

def taken (blocks : List Block) (st : MapState) : Nat :=
  offset (Block.subStreamCounts blocks) st.nextBlockIndex + st.nextBlockUnpackStreamIndex

def HasRoom (blocks : List Block) (st : MapState) : Prop :=
  st.nextBlockUnpackStreamIndex ≠ 0 →
    st.nextBlockUnpackStreamIndex < subStreamsOf blocks st.nextBlockIndex

end MapState

theorem subStreamCounts_getElem? {blocks : List Block} {b : Nat} {block : Block}
    (h : blocks[b]? = some block) :
    (Block.subStreamCounts blocks)[b]? = some block.numUnpackSubStreams := by
  rw [Block.subStreamCounts, List.getElem?_map, h]
  rfl

theorem seekBlock_taken {blocks : List Block} {i n : Nat} {st st' : MapState}
    (h : seekBlock blocks i n st = .ok st') :
    st'.taken blocks = st.taken blocks ∧
      st'.nextBlockUnpackStreamIndex = st.nextBlockUnpackStreamIndex ∧
      (blocks.length ≤ st.nextBlockIndex + n → st'.nextBlockIndex < blocks.length →
        0 < subStreamsOf blocks st'.nextBlockIndex) := by
  induction n generalizing st with
  | zero =>
      cases Result.pure_eq_ok.mp h
      exact ⟨rfl, rfl, fun hle hlt => absurd hle (Nat.not_le.mpr hlt)⟩
  | succ n ih =>
      obtain ⟨firsts, -, h⟩ := Result.bind_eq_ok.mp h
      obtain ⟨block, hblock, h⟩ := Result.bind_eq_ok.mp h
      have hblock := Result.index_eq_ok.mp hblock
      split at h
      · rename_i hpos
        cases Result.pure_eq_ok.mp h
        refine ⟨rfl, rfl, fun _ _ => ?_⟩
        rw [subStreamsOf_eq hblock]
        exact hpos
      · rename_i hzero
        obtain ⟨htaken, hkeeps, hpos⟩ := ih h
        refine ⟨htaken.trans ?_, hkeeps, fun hle => hpos (by dsimp only; omega)⟩
        rw [MapState.taken, MapState.taken, offset_succ (subStreamCounts_getElem? hblock)]
        dsimp only
        omega

theorem startBlock_taken {blocks : List Block} {i : Nat} {st st' : MapState}
    (h : startBlock blocks i st = .ok st') (hroom : st.HasRoom blocks) :
    st'.taken blocks = st.taken blocks ∧
      st'.nextBlockUnpackStreamIndex < subStreamsOf blocks st'.nextBlockIndex := by
  unfold startBlock at h
  split at h
  · rename_i hzero
    obtain ⟨st₁, hseek, h⟩ := Result.bind_eq_ok.mp h
    obtain ⟨_, hlt, h⟩ := Result.bind_eq_ok.mp h
    cases Result.pure_eq_ok.mp h
    obtain ⟨htaken, hkeeps, hpos⟩ := seekBlock_taken hseek
    have hlt := Nat.lt_of_not_le (Result.rejectIf_eq_ok.mp hlt)
    rw [hkeeps, hzero]
    exact ⟨htaken, hpos (by omega) hlt⟩
  · rename_i hne
    cases Result.pure_eq_ok.mp h
    exact ⟨rfl, hroom hne⟩

theorem takeSubStream_taken {blocks : List Block} {st : MapState} {block : Block}
    (hblock : blocks[st.nextBlockIndex]? = some block)
    (hlt : st.nextBlockUnpackStreamIndex < block.numUnpackSubStreams) :
    (st.takeSubStream block).taken blocks = st.taken blocks + 1 ∧
      (st.takeSubStream block).HasRoom blocks := by
  unfold MapState.takeSubStream
  split
  · refine ⟨?_, fun hne => absurd rfl hne⟩
    rw [MapState.taken, MapState.taken, offset_succ (subStreamCounts_getElem? hblock)]
    dsimp only
    omega
  · rename_i hmore
    refine ⟨rfl, fun _ => ?_⟩
    rw [subStreamsOf_eq hblock]
    exact Nat.lt_of_not_le hmore

theorem mapFile_owner {blocks : List Block} {packSizes : List UInt64} {firstPack : List Nat}
    {i : Nat} {file file' : ArchiveEntry} {x : Option Nat} {st st' : MapState}
    (h : mapFile blocks packSizes firstPack i file st = .ok (x, file', st'))
    (hroom : st.HasRoom blocks) :
    st'.HasRoom blocks ∧ st'.taken blocks = st.taken blocks + (if file.hasStream then 1 else 0) ∧
      (file.hasStream = true → x = (owners (Block.subStreamCounts blocks))[st.taken blocks]?) := by
  unfold mapFile at h
  split at h
  · rename_i hempty
    cases Result.pure_eq_ok.mp h
    simp [hempty.1, hroom]
  · obtain ⟨st₁, hstart, h⟩ := Result.bind_eq_ok.mp h
    obtain ⟨htaken, hlt⟩ := startBlock_taken hstart hroom
    split at h
    · rename_i hempty
      cases Result.pure_eq_ok.mp h
      refine ⟨fun _ => hlt, ?_, fun hstream => absurd hstream (by simp [hempty])⟩
      rw [htaken, hempty]
      rfl
    · rename_i hstream
      obtain ⟨file₁, -, h⟩ := Result.bind_eq_ok.mp h
      obtain ⟨block, hblock, h⟩ := Result.bind_eq_ok.mp h
      cases Result.pure_eq_ok.mp h
      have hblock := Result.index_eq_ok.mp hblock
      rw [subStreamsOf_eq hblock] at hlt
      obtain ⟨hnext, hroom'⟩ := takeSubStream_taken hblock hlt
      refine ⟨hroom', ?_, fun _ => ?_⟩
      · rw [hnext, htaken, if_pos (Bool.not_eq_false _ ▸ hstream)]
      · rw [← htaken]
        exact (owners_offset_add (subStreamCounts_getElem? hblock) hlt).symm

theorem mapFiles_owner {blocks : List Block} {packSizes : List UInt64} {firstPack : List Nat}
    {i : Nat} {indices : List (Option Nat)} {files files' : List ArchiveEntry}
    {st st' : MapState}
    (h : mapFiles blocks packSizes firstPack i files st = .ok (indices, files', st'))
    (hroom : st.HasRoom blocks) {j : Nat} {file : ArchiveEntry} (hfile : files[j]? = some file)
    (hstream : file.hasStream = true) :
    indices[j]? =
      some (owners (Block.subStreamCounts blocks))[st.taken blocks + streamsBefore files j]? := by
  induction files generalizing i indices files' st j with
  | nil => cases hfile
  | cons first files ih =>
      obtain ⟨⟨x, first', st₁⟩, hfirst, h⟩ := Result.bind_eq_ok.mp h
      obtain ⟨⟨xs, files₁, st₂⟩, hfiles, h⟩ := Result.bind_eq_ok.mp h
      cases Result.pure_eq_ok.mp h
      obtain ⟨hroom₁, htaken, howner⟩ := mapFile_owner hfirst hroom
      cases j with
      | zero =>
          cases hfile
          exact congrArg some (howner hstream)
      | succ j =>
          rw [streamsBefore_cons_succ, ← Nat.add_assoc, ← htaken]
          exact ih hfiles hroom₁ hfile

theorem MapState.HasRoom.fresh {blocks : List Block} {st : MapState} (hroom : st.HasRoom blocks)
    {m : Nat} (htaken : st.taken blocks = offset (Block.subStreamCounts blocks) m) :
    st.nextBlockUnpackStreamIndex = 0 := by
  by_contra hne
  have hlt := hroom hne
  cases hblock : blocks[st.nextBlockIndex]? with
  | none =>
      rw [subStreamsOf_of_length_le (List.getElem?_eq_none_iff.mp hblock)] at hlt
      exact Nat.not_lt_zero _ hlt
  | some block =>
      rw [subStreamsOf_eq hblock] at hlt
      have hnext := offset_succ (subStreamCounts_getElem? hblock)
      rw [MapState.taken] at htaken
      rcases Nat.lt_or_ge st.nextBlockIndex m with hafter | hbefore
      · have hle : st.nextBlockIndex + 1 ≤ m := hafter
        have := offset_mono (Block.subStreamCounts blocks) hle
        omega
      · have := offset_mono (Block.subStreamCounts blocks) hbefore
        omega

theorem mapFile_none {blocks : List Block} {packSizes : List UInt64} {firstPack : List Nat}
    {i : Nat} {file file' : ArchiveEntry} {x : Option Nat} {st st' : MapState}
    (h : mapFile blocks packSizes firstPack i file st = .ok (x, file', st'))
    (hstream : file.hasStream = false) (hfresh : st.nextBlockUnpackStreamIndex = 0) :
    x = none := by
  rw [mapFile, if_pos ⟨hstream, hfresh⟩] at h
  cases Result.pure_eq_ok.mp h
  rfl

theorem mapFiles_none {blocks : List Block} {packSizes : List UInt64} {firstPack : List Nat}
    {i m : Nat} {indices : List (Option Nat)} {files files' : List ArchiveEntry}
    {st st' : MapState}
    (h : mapFiles blocks packSizes firstPack i files st = .ok (indices, files', st'))
    (hroom : st.HasRoom blocks) {j : Nat} {file : ArchiveEntry} (hfile : files[j]? = some file)
    (hstream : file.hasStream = false)
    (hbetween : st.taken blocks + streamsBefore files j =
      offset (Block.subStreamCounts blocks) m) : indices[j]? = some none := by
  induction files generalizing i indices files' st j with
  | nil => cases hfile
  | cons first files ih =>
      obtain ⟨⟨x, first', st₁⟩, hfirst, h⟩ := Result.bind_eq_ok.mp h
      obtain ⟨⟨xs, files₁, st₂⟩, hfiles, h⟩ := Result.bind_eq_ok.mp h
      cases Result.pure_eq_ok.mp h
      obtain ⟨hroom₁, htaken, -⟩ := mapFile_owner hfirst hroom
      cases j with
      | zero =>
          cases hfile
          exact congrArg some (mapFile_none hfirst hstream (hroom.fresh hbetween))
      | succ j =>
          rw [streamsBefore_cons_succ, ← Nat.add_assoc, ← htaken] at hbetween
          exact ih hfiles hroom₁ hfile hbetween

theorem streamsBefore_sameEntry {files files' : List ArchiveEntry}
    (h : List.Forall₂ ArchiveEntry.SameEntry files files') (i : Nat) :
    streamsBefore files i = streamsBefore files' i := by
  induction h generalizing i with
  | nil => rfl
  | cons hsame _ ih =>
      cases i with
      | zero => rfl
      | succ i =>
          rw [streamsBefore_cons_succ, streamsBefore_cons_succ, ih, hsame]

namespace Archive

def isStreamed (archive : Archive) (i : Nat) : Bool :=
  archive.files[i]?.any ArchiveEntry.hasStream

def streamedFiles (archive : Archive) : List Nat :=
  (List.range archive.files.length).filter archive.isStreamed

def blockOf (archive : Archive) (i : Nat) : Option Nat :=
  archive.streamMap.fileBlockIndex.getD i none

def streamedEntries (archive : Archive) (b : Nat) : List Nat :=
  archive.streamedFiles.filter fun i => archive.blockOf i = some b

structure CountsAlike (archive : Archive) : Prop where
  gives : ∀ i file, archive.files[i]? = some file → file.hasStream = true →
    ∃ info, archive.subStreamsInfo = some info ∧
      info.Gives (streamsBefore archive.files i) file
  owner : ∀ i file, archive.files[i]? = some file → file.hasStream = true →
    archive.blockOf i =
      (owners (Block.subStreamCounts archive.blocks))[streamsBefore archive.files i]?

end Archive

/-- A file without a stream is in no block if the sub-streams before it fill whole blocks. -/
def Archive.LeavesGaps (archive : Archive) : Prop :=
  ∀ i m (file : ArchiveEntry), archive.files[i]? = some file → file.hasStream = false →
    streamsBefore archive.files i = offset (Block.subStreamCounts archive.blocks) m →
      archive.streamMap.fileBlockIndex[i]? = some none

theorem calculateStreamMap_leavesGaps {archive archive' : Archive}
    (h : calculateStreamMap archive = .ok archive') : archive'.LeavesGaps := by
  obtain ⟨-, hsame, -⟩ := calculateStreamMap_eq_ok h
  obtain ⟨firstPack, -, h⟩ := Result.bind_eq_ok.mp h
  obtain ⟨firstSub, -, h⟩ := Result.bind_eq_ok.mp h
  obtain ⟨offsets, -, h⟩ := Result.bind_eq_ok.mp h
  obtain ⟨⟨indices, files, st⟩, hfiles, h⟩ := Result.bind_eq_ok.mp h
  obtain ⟨_, -, h⟩ := Result.bind_eq_ok.mp h
  cases Result.pure_eq_ok.mp h
  intro i m file hfile hstream hbetween
  obtain ⟨hlt, rfl⟩ := List.getElem?_eq_some_iff.mp hfile
  have hlt₀ := hsame.length_eq ▸ hlt
  have heq : archive.files[i].SameEntry files[i] := hsame.get hlt₀ hlt
  have hstream₀ : archive.files[i].hasStream = false := by
    rw [heq] at hstream
    exact hstream
  apply mapFiles_none hfiles (fun hne => absurd rfl hne) (List.getElem?_eq_getElem hlt₀) hstream₀
    (m := m)
  rw [MapState.taken, offset_zero, Nat.zero_add, Nat.zero_add, streamsBefore_sameEntry hsame]
  exact hbetween

theorem calculateStreamMap_countsAlike {archive archive' : Archive}
    (h : calculateStreamMap archive = .ok archive') (hdealt : archive.Dealt) :
    archive'.CountsAlike := by
  obtain ⟨-, hsame, -⟩ := calculateStreamMap_eq_ok h
  obtain ⟨firstPack, -, h⟩ := Result.bind_eq_ok.mp h
  obtain ⟨firstSub, -, h⟩ := Result.bind_eq_ok.mp h
  obtain ⟨offsets, -, h⟩ := Result.bind_eq_ok.mp h
  obtain ⟨⟨indices, files, st⟩, hfiles, h⟩ := Result.bind_eq_ok.mp h
  obtain ⟨_, -, h⟩ := Result.bind_eq_ok.mp h
  cases Result.pure_eq_ok.mp h
  dsimp only at hsame
  have hbefore (i : Nat) : streamsBefore files i = streamsBefore archive.files i :=
    (streamsBefore_sameEntry hsame i).symm
  have hfile' {i : Nat} {file : ArchiveEntry} (hfile : files[i]? = some file) :
      ∃ file₀, archive.files[i]? = some file₀ ∧ file₀.SameEntry file := by
    obtain ⟨hlt, rfl⟩ := List.getElem?_eq_some_iff.mp hfile
    have hlt₀ := hsame.length_eq ▸ hlt
    exact ⟨_, List.getElem?_eq_getElem hlt₀, hsame.get hlt₀ hlt⟩
  constructor
  · intro i file hfile hstream
    obtain ⟨file₀, hfile₀, heq⟩ := hfile' hfile
    rw [hbefore]
    rcases hdealt with hempty | ⟨props, hassign⟩
    · rw [hempty] at hfile₀
      cases hfile₀
    · rw [heq] at hstream ⊢
      obtain ⟨subs, hinfo, hgives⟩ := assignEntries_gives hassign hfile₀ hstream
      rw [Nat.zero_add] at hgives
      exact ⟨subs, hinfo, hgives.size, hgives.crc, hgives.hasCrc⟩
  · intro i file hfile hstream
    obtain ⟨file₀, hfile₀, heq⟩ := hfile' hfile
    rw [heq] at hstream
    have howner := mapFiles_owner hfiles (fun hne => absurd rfl hne) hfile₀ hstream
    rw [MapState.taken, offset_zero, Nat.zero_add, Nat.zero_add] at howner
    rw [hbefore, Archive.blockOf, List.getD_eq_getElem?_getD, howner]
    rfl

theorem readWithLimits_countsAlike {codecs : Codecs} {limits : ArchiveLimits}
    {passwordGiven : Bool} {file : List UInt8} {archive : Archive}
    (h : readWithLimits codecs limits passwordGiven file = .ok archive) :
    archive.CountsAlike := by
  obtain ⟨header, startHeader, verifyCrc, buf, parsed, -, -, hparse, hcheck⟩ :=
    readWithLimits_readFrom h
  obtain ⟨-, s', hread⟩ := parseHeader_eq_ok hparse
  obtain ⟨described, hdealt, hmap⟩ := readHeader_dealt hread
  obtain ⟨-, -, rfl⟩ := checkArchive_eq_ok hcheck
  obtain ⟨hgives, howner⟩ := calculateStreamMap_countsAlike hmap hdealt
  exact ⟨hgives, howner⟩

theorem readWithLimits_leavesGaps {codecs : Codecs} {limits : ArchiveLimits}
    {passwordGiven : Bool} {file : List UInt8} {archive : Archive}
    (h : readWithLimits codecs limits passwordGiven file = .ok archive) : archive.LeavesGaps := by
  obtain ⟨header, startHeader, verifyCrc, buf, parsed, -, -, hparse, hcheck⟩ :=
    readWithLimits_readFrom h
  obtain ⟨-, s', hread⟩ := parseHeader_eq_ok hparse
  obtain ⟨described, -, hmap⟩ := readHeader_dealt hread
  obtain ⟨-, -, rfl⟩ := checkArchive_eq_ok hcheck
  have hgaps := calculateStreamMap_leavesGaps hmap
  exact hgaps

namespace Archive

variable {archive : Archive}

theorem isStreamed_eq {i : Nat} {file : ArchiveEntry} (h : archive.files[i]? = some file) :
    archive.isStreamed i = file.hasStream := by
  rw [isStreamed, h]
  rfl

theorem lt_of_isStreamed {i : Nat} (h : archive.isStreamed i = true) :
    i < archive.files.length := by
  by_contra hge
  rw [isStreamed, List.getElem?_eq_none (Nat.le_of_not_lt hge)] at h
  cases h

theorem countP_isStreamed {i : Nat} (hi : i ≤ archive.files.length) :
    (List.range i).countP archive.isStreamed = streamsBefore archive.files i := by
  induction i with
  | zero => rfl
  | succ i ih =>
      have hfile : archive.files[i]? = some archive.files[i] := List.getElem?_eq_getElem hi
      rw [List.range_succ, List.countP_append, ih (Nat.le_of_lt hi), streamsBefore, streamsBefore,
        List.take_add_one, hfile, List.countP_append, Option.toList_some, List.countP_singleton,
        List.countP_singleton, isStreamed_eq hfile]

theorem streamedFiles_getElem? {j i : Nat} (h : archive.streamedFiles[j]? = some i) :
    ∃ file, archive.files[i]? = some file ∧ file.hasStream = true ∧
      streamsBefore archive.files i = j := by
  obtain ⟨hlt, hstream, hcount⟩ := countP_of_getElem?_filter h
  have hfile : archive.files[i]? = some archive.files[i] := List.getElem?_eq_getElem hlt
  rw [countP_isStreamed (Nat.le_of_lt hlt)] at hcount
  exact ⟨_, hfile, (isStreamed_eq hfile).symm.trans hstream, hcount⟩

theorem CountsAlike.streamedEntries_eq (h : archive.CountsAlike) {b : Nat} {block : Block}
    (hblock : archive.blocks[b]? = some block) :
    archive.streamedEntries b =
      (archive.streamedFiles.drop (offset (Block.subStreamCounts archive.blocks) b)).take
        block.numUnpackSubStreams := by
  refine filter_owner (fun j i hi => ?_) (subStreamCounts_getElem? hblock)
  obtain ⟨file, hfile, hstream, rfl⟩ := streamedFiles_getElem? hi
  exact h.owner i file hfile hstream

theorem CountsAlike.streamedEntries_gives (h : archive.CountsAlike) {b : Nat} {block : Block}
    (hblock : archive.blocks[b]? = some block) {k i : Nat}
    (hi : (archive.streamedEntries b)[k]? = some i) :
    k < block.numUnpackSubStreams ∧
      ∃ info file, archive.subStreamsInfo = some info ∧ archive.files[i]? = some file ∧
        file.hasStream = true ∧
        info.Gives (offset (Block.subStreamCounts archive.blocks) b + k) file := by
  rw [h.streamedEntries_eq hblock, List.getElem?_take, Option.ite_none_right_eq_some,
    List.getElem?_drop] at hi
  obtain ⟨hk, hi⟩ := hi
  obtain ⟨file, hfile, hstream, hcount⟩ := streamedFiles_getElem? hi
  obtain ⟨info, hinfo, hgives⟩ := h.gives i file hfile hstream
  rw [hcount] at hgives
  exact ⟨hk, info, file, hinfo, hfile, hstream, hgives⟩

theorem mem_streamedEntries {b i : Nat} : i ∈ archive.streamedEntries b ↔
    archive.isStreamed i = true ∧ archive.blockOf i = some b := by
  rw [streamedEntries, List.mem_filter, streamedFiles, List.mem_filter, List.mem_range,
    decide_eq_true_iff]
  exact and_congr_left fun _ => and_iff_right_of_imp lt_of_isStreamed

theorem Mapped.block_of_mem_streamedEntries (h : archive.Mapped) {b i : Nat}
    (hi : i ∈ archive.streamedEntries b) : ∃ block, archive.blocks[b]? = some block := by
  have hblock := (mem_streamedEntries.mp hi).2
  rw [blockOf, List.getD_eq_getElem?_getD] at hblock
  have hindex : archive.streamMap.fileBlockIndex[i]? = some (some b) := by
    cases hx : archive.streamMap.fileBlockIndex[i]? with
    | none =>
        rw [hx] at hblock
        cases hblock
    | some x =>
        rw [hx] at hblock
        exact congrArg some hblock
  have hlt := (h.begun b (List.count_pos_iff.mpr (List.mem_of_getElem? hindex))).1
  exact ⟨_, List.getElem?_eq_getElem hlt⟩

theorem streamedEntries_pairwise (archive : Archive) (b : Nat) :
    (archive.streamedEntries b).Pairwise (· < ·) :=
  (List.pairwise_lt_range.filter _).filter _

theorem Mapped.range_eq_streamedEntries (h : archive.Mapped)
    (hgaps : ∀ (i : Nat) (file : ArchiveEntry), archive.files[i]? = some file →
      file.hasStream = false → archive.streamMap.fileBlockIndex[i]? = some none) (b : Nat) :
    List.range' (archive.streamMap.firstFile b) (archive.streamMap.fileCount b) =
      archive.streamedEntries b := by
  refine List.Pairwise.eq_of_mem_iff (r := (· < ·)) List.pairwise_lt_range'
    (archive.streamedEntries_pairwise b) fun i => ?_
  rw [List.mem_range'_1, ← h.spans b i, mem_streamedEntries, blockOf,
    List.getD_eq_getElem?_getD]
  constructor
  · intro hindex
    have hlt : i < archive.files.length :=
      h.fileBlock ▸ (List.getElem?_eq_some_iff.mp hindex).1
    have hfile : archive.files[i]? = some archive.files[i] := List.getElem?_eq_getElem hlt
    refine ⟨?_, by rw [hindex]; rfl⟩
    rw [isStreamed_eq hfile]
    by_contra hstream
    have hnone := hgaps i _ hfile (Bool.eq_false_iff.mpr hstream)
    rw [hindex] at hnone
    cases hnone
  · rintro ⟨-, hblock⟩
    cases hx : archive.streamMap.fileBlockIndex[i]? with
    | none =>
        rw [hx] at hblock
        cases hblock
    | some x =>
        rw [hx] at hblock
        exact congrArg some hblock

end Archive

end Sevenz
