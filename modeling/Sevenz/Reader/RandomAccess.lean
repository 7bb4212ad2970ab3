import Sevenz.Header.SingleFiles
import Sevenz.Reader.BlockHook
import Sevenz.Reader.Bounds
import Sevenz.Reader.VerifiedEntry

/-!
# One file against the walk

`read_file` decodes a solid block up to the file it is to return, and any other file alone.  A
walk that reads every entry to its end comes by the same data.
-/

namespace Sevenz

open Lib Result

namespace ArchiveReader

variable (r : ArchiveReader)

/-- The walk of the block that reads every entry hands this one out, with these data. -/
def DeliversFrom (b target : Nat) (data : List UInt8) : Prop :=
  ∃ opened before, (r.blockDecoder b).openBlock = .ok opened ∧
    before ++ [target] <+: r.archive.blockRange b ∧ opened.Arrives before target data

theorem not_mem_of_prefix {b target : Nat} {before : List Nat}
    (h : before ++ [target] <+: r.archive.blockRange b) : target ∉ before := by
  have hnodup : (before ++ [target]).Nodup := h.sublist.nodup List.nodup_range'
  intro hmem
  exact (List.nodup_append.mp hnodup).2.2 target hmem target List.mem_cons_self rfl

theorem readSolid_iff {b target : Nat} {data : List UInt8} :
    r.readSolid b target = .ok data ↔ r.DeliversFrom b target data := by
  have huntil : r.readUntil target = r.codecs.consume fun i => i != target := rfl
  constructor
  · intro h
    unfold readSolid at h
    rcases hwalk : (r.blockDecoder b).forEachEntries (r.readUntil target) {} with ⟨answer, log⟩
    rw [hwalk] at h
    obtain ⟨g, rfl, h⟩ := Result.bind_eq_ok.mp h
    have hdata := Result.okOr_eq_ok.mp h
    obtain ⟨opened, st', g₁, hopen, hsame, hentries, rfl⟩ := forEachEntries_eq_ok hwalk
    have hcodecs : opened.codecs = r.codecs := congrArg BlockDecoder.codecs hsame
    rw [huntil, ← hcodecs] at hentries
    change opened.walkEntries _ (r.archive.blockRange b) _ = _ at hentries
    have hmem : target ∈ r.archive.blockRange b := by
      by_contra hnot
      obtain ⟨visits, happend, hothers⟩ := opened.walkEntries_fileIndex hentries hnot
      obtain ⟨visit, hfind, -⟩ := Option.map_eq_some_iff.mp hdata
      rw [happend] at hfind
      exact hothers visit (List.mem_of_find?_eq_some hfind) (by simpa using List.find?_some hfind)
    obtain ⟨before, after, hsplit⟩ := List.append_of_mem hmem
    have hprefix : before ++ [target] <+: r.archive.blockRange b :=
      ⟨after, by rw [hsplit, List.append_assoc]; rfl⟩
    have hnot := r.not_mem_of_prefix hprefix
    have hgo : ∀ i ∈ before, (i != target) = true := by
      intro i hi
      simpa using fun heq : i = target => hnot (heq ▸ hi)
    refine ⟨opened, before, hopen, hprefix, ?_⟩
    rw [hsplit, ← List.singleton_append, ← List.append_assoc,
      OpenBlock.walkEntries_append] at hentries
    rcases hto : opened.walkEntries (opened.codecs.consume fun i => i != target)
      (before ++ [target]) (opened.initial {}) with ⟨answer, st⟩
    rw [hto] at hentries
    match answer, hentries with
    | .ok g, hentries =>
        obtain ⟨hg, data', hdata', harrives⟩ := opened.walkEntries_target hgo hnot hto
        obtain rfl : g = false := by simpa using hg
        cases hentries
        rw [hdata] at hdata'
        cases hdata'
        exact harrives
  · rintro ⟨opened, before, hopen, hprefix, harrives⟩
    obtain ⟨hsame, -, -, -, -⟩ := openBlock_eq_ok hopen
    have hnot := r.not_mem_of_prefix hprefix
    have hgo : ∀ i ∈ before, (i != target) = true := by
      intro i hi
      simpa using fun heq : i = target => hnot (heq ▸ hi)
    obtain ⟨st', hwalk, hdata⟩ := harrives.walkEntries opened hgo hnot
    obtain ⟨after, hsplit⟩ := hprefix
    have hrange : List.range' opened.start opened.block.numUnpackSubStreams =
        before ++ [target] ++ after := (openBlock_range hopen).trans hsplit.symm
    have hcodecs : opened.codecs = r.codecs := congrArg BlockDecoder.codecs hsame
    have hentries : opened.walk (r.readUntil target) {} = (.ok false, st'.log) := by
      rw [huntil, ← hcodecs, OpenBlock.walk, hrange, OpenBlock.walkEntries_append, hwalk]
      simp
    unfold readSolid BlockDecoder.forEachEntries
    rw [hopen]
    dsimp only
    rw [hentries]
    exact Result.okOr_eq_ok.mpr hdata

end ArchiveReader

theorem blockOffset_of_buildDecodeStack {archive : Archive} (h : archive.Described)
    {codecs : Codecs} {limits : ArchiveLimits} {b : Nat} {stack : DecodeStack}
    (hbuild : buildDecodeStack codecs limits archive b = .ok stack) :
    ∃ first position, archive.streamMap.blockFirstPackStreamIndex[b]? = some first ∧
      blockOffset archive first = .ok position := by
  obtain ⟨block, hblock, hbuild⟩ := Result.bind_eq_ok.mp hbuild
  obtain ⟨_, -, hbuild⟩ := Result.bind_eq_ok.mp hbuild
  have hb := Result.index_eq_ok.mp hblock
  split at hbuild
  · rename_i hmore
    have hparsed := h.parsed.blocks block (List.mem_of_getElem? hb)
    have hpos := hparsed.wellBound.packedStreams_pos hmore
    obtain ⟨block', hblock', hbuild⟩ := Result.bind_eq_ok.mp hbuild
    cases hblock.symm.trans hblock'
    obtain ⟨_, -, hbuild⟩ := Result.bind_eq_ok.mp hbuild
    obtain ⟨first, hfirst, hbuild⟩ := Result.bind_eq_ok.mp hbuild
    obtain ⟨startPos, hstart, hbuild⟩ := Result.bind_eq_ok.mp hbuild
    obtain ⟨_, -, hbuild⟩ := Result.bind_eq_ok.mp hbuild
    obtain ⟨sources, hsources, -⟩ := Result.bind_eq_ok.mp hbuild
    obtain ⟨n, hn⟩ := Nat.exists_eq_succ_of_ne_zero hpos.ne'
    rw [hn] at hsources
    obtain ⟨position, hposition, hsources⟩ := Result.bind_eq_ok.mp hsources
    obtain ⟨packSize, hpackSize, -⟩ := Result.bind_eq_ok.mp hsources
    have hlt : first < archive.streamMap.packStreamOffsets.length := by
      rw [h.packStreamOffsets_length]
      exact (List.getElem?_eq_some_iff.mp (Result.index_eq_ok.mp hpackSize)).1
    refine ⟨first, position, Result.index_eq_ok.mp hfirst, ?_⟩
    rw [blockOffset, Result.okOr_eq_ok.mp hstart]
    dsimp only
    rw [bind_of_ok (index_of_lt hlt)]
    rw [Nat.add_zero, List.getD_eq_getElem _ _ hlt] at hposition
    exact okOr_eq_ok.mpr (okOr_eq_ok.mp hposition)
  · obtain ⟨first, hfirst, hbuild⟩ := Result.bind_eq_ok.mp hbuild
    obtain ⟨position, hposition, -⟩ := Result.bind_eq_ok.mp hbuild
    exact ⟨first, position, Result.index_eq_ok.mp hfirst, hposition⟩

namespace ArchiveReader

variable {r : ArchiveReader}

theorem openAlone_eq_ok_iff (h : r.archive.Described)
    (hseek : ∀ position, r.codecs.seekError position = none) {b : Nat} {stack : DecodeStack} :
    r.openAlone b = .ok stack ↔ buildDecodeStack r.codecs r.limits r.archive b = .ok stack := by
  constructor
  · intro hopen
    obtain ⟨packIndex, -, hopen⟩ := Result.bind_eq_ok.mp hopen
    obtain ⟨packOffset, -, hopen⟩ := Result.bind_eq_ok.mp hopen
    obtain ⟨position, -, hopen⟩ := Result.bind_eq_ok.mp hopen
    obtain ⟨_, -, hopen⟩ := Result.bind_eq_ok.mp hopen
    exact hopen
  · intro hbuild
    obtain ⟨first, position, hfirst, hposition⟩ := blockOffset_of_buildDecodeStack h hbuild
    unfold blockOffset at hposition
    split at hposition
    · cases hposition
    · rename_i start hstart
      obtain ⟨packOffset, hpackOffset, hposition⟩ := Result.bind_eq_ok.mp hposition
      have hchecked := Result.okOr_eq_ok.mp hposition
      unfold openAlone
      rw [bind_of_ok (index_eq_ok.mpr hfirst), bind_of_ok hpackOffset, hstart]
      dsimp only [Option.bind_some]
      rw [hchecked, bind_of_ok (okOr_eq_ok.mpr rfl), Codecs.seek, hseek]
      exact hbuild

theorem openBlock_isOk_iff (h : r.archive.Described) {b : Nat}
    (hb : b < r.archive.blocks.length) {stack : DecodeStack} :
    buildDecodeStack r.codecs r.limits r.archive b = .ok stack ↔
      ∃ opened, (r.blockDecoder b).openBlock = .ok opened ∧ opened.stack = stack := by
  constructor
  · intro hbuild
    obtain ⟨splits, hsplits⟩ := checksumSplits_isOk (d := r.blockDecoder b) h hb
    have hstack : (buildDecodeStack r.codecs r.limits r.archive b).mapErr (fun e =>
        e.inBlock b (((blockPackStreams r.archive b).head?.map (·.offset)).getD 0)) =
          .ok stack := Result.mapErr_eq_ok.mpr hbuild
    have hstarts : b < r.archive.streamMap.blockFirstFileIndex.length :=
      h.mapped.firstFile.symm ▸ hb
    unfold BlockDecoder.openBlock
    rw [bind_of_ok hsplits]
    dsimp only [blockDecoder]
    rw [bind_of_ok hstack, bind_of_ok (index_of_lt hstarts), bind_of_ok (index_of_lt hb),
      bind_of_ok (index_of_lt (h.firstSubStream hb))]
    exact ⟨_, rfl, rfl⟩
  · rintro ⟨opened, hopen, rfl⟩
    exact (openBlock_eq_ok hopen).2.2.2.2

def wholeResult : Option (Except IoError (List UInt8)) → Result (List UInt8)
  | none => .error .outOfFuel
  | some (.error e) => Result.fail (Error.ofIo e)
  | some (.ok data) => pure data

theorem wholeResult_eq_ok {outcome : Option (Except IoError (List UInt8))} {data : List UInt8} :
    wholeResult outcome = .ok data ↔ outcome = some (.ok data) := by
  match outcome with
  | none => exact iff_of_false (by rintro ⟨⟩) (by rintro ⟨⟩)
  | some (.error e) => exact iff_of_false (by rintro ⟨⟩) (by rintro ⟨⟩)
  | some (.ok data') =>
      rw [wholeResult, Result.pure_eq_ok, Option.some.injEq, Except.ok.injEq, eq_comm]

theorem readAlone_iff (h : r.archive.Described)
    (hseek : ∀ position, r.codecs.seekError position = none) {b : Nat}
    (hb : b < r.archive.blocks.length) {file : ArchiveEntry} {data : List UInt8} :
    r.readAlone b file = .ok data ↔ ∃ opened, (r.blockDecoder b).openBlock = .ok opened ∧
      opened.readVerified file = some (.ok data) := by
  have hsame : ∀ opened, (r.blockDecoder b).openBlock = .ok opened →
      (r.runAlone opened.stack file).1 = wholeResult (opened.readVerified file) := by
    intro opened hopen
    have hcodecs : opened.codecs = r.codecs :=
      congrArg BlockDecoder.codecs (openBlock_eq_ok hopen).1
    unfold runAlone OpenBlock.readVerified OpenBlock.entryRead
    rw [hcodecs]
    exact congrArg Prod.fst (run_readToEnd_map wholeResult retryInterrupted r.codecs.bufferLength
      (fun e => some (.error e)) (fun data => some (.ok data)) none r.codecs.rounds [] _)
  constructor
  · intro hread
    obtain ⟨stack, hstack, hread⟩ := Result.bind_eq_ok.mp hread
    obtain ⟨opened, hopen, rfl⟩ :=
      (openBlock_isOk_iff h hb).mp ((openAlone_eq_ok_iff h hseek).mp hstack)
    rw [hsame opened hopen] at hread
    exact ⟨opened, hopen, wholeResult_eq_ok.mp hread⟩
  · rintro ⟨opened, hopen, hread⟩
    have hstack := (openAlone_eq_ok_iff h hseek).mpr ((openBlock_isOk_iff h hb).mpr
      ⟨opened, hopen, rfl⟩)
    unfold readAlone
    rw [bind_of_ok hstack, hsame opened hopen]
    exact wholeResult_eq_ok.mpr hread

theorem blockRange_singleton (h : r.archive.Described) (hone : r.archive.OneFileEach)
    (hsingle : ∀ block ∈ r.archive.blocks, block.numUnpackSubStreams ≤ 1) {i b : Nat}
    (hblock : r.archive.streamMap.fileBlockIndex[i]? = some (some b)) :
    r.archive.blockRange b = [i] := by
  have hspan := (h.mapped.spans b i).mp hblock
  obtain ⟨hb, hpos⟩ := h.mapped.begun b (by omega)
  have hget := List.getElem?_eq_getElem hb
  have hle := hsingle _ (List.getElem_mem hb)
  rw [subStreamsOf_eq hget] at hpos
  rw [Archive.blockRange, range_of_oneFileEach h.mapped hone hblock, subStreamsOf_eq hget,
    show r.archive.blocks[b].numUnpackSubStreams = 1 by omega]
  rfl

theorem deliversFrom_singleton {i b : Nat} (hrange : r.archive.blockRange b = [i])
    {file : ArchiveEntry} (hfile : r.archive.files[i]? = some file) {data : List UInt8} :
    r.DeliversFrom b i data ↔ ∃ opened, (r.blockDecoder b).openBlock = .ok opened ∧
      opened.Reads file (opened.initial {}) data := by
  constructor
  · rintro ⟨opened, before, hopen, hprefix, st, file', hwalk, hfile', hreads⟩
    have harchive : opened.archive = r.archive :=
      congrArg BlockDecoder.archive (openBlock_eq_ok hopen).1
    rw [hrange] at hprefix
    have hnil : before = [] := by
      have hlen := hprefix.length_le
      rw [List.length_append] at hlen
      exact List.eq_nil_of_length_eq_zero (by simpa using hlen)
    subst hnil
    cases hwalk
    rw [harchive, hfile] at hfile'
    cases hfile'
    exact ⟨opened, hopen, hreads⟩
  · rintro ⟨opened, hopen, hreads⟩
    have harchive : opened.archive = r.archive :=
      congrArg BlockDecoder.archive (openBlock_eq_ok hopen).1
    refine ⟨opened, [], hopen, ?_, opened.initial {}, file, rfl, ?_, hreads⟩
    · rw [hrange]
      exact List.prefix_rfl
    · rw [harchive]
      exact hfile

theorem readAlone_iff_deliversFrom (h : r.archive.Described) (hone : r.archive.OneFileEach)
    (hsingle : ∀ block ∈ r.archive.blocks, block.numUnpackSubStreams ≤ 1)
    (hseek : ∀ position, r.codecs.seekError position = none)
    (hfolds : r.codecs.FoldsExactly) {i b : Nat}
    (hblock : r.archive.streamMap.fileBlockIndex[i]? = some (some b)) {file : ArchiveEntry}
    (hfile : r.archive.files[i]? = some file) (hstream : file.hasStream = true)
    (halike : ∀ opened, (r.blockDecoder b).openBlock = .ok opened → opened.ChecksAlike file)
    {data : List UInt8} : r.readAlone b file = .ok data ↔ r.DeliversFrom b i data := by
  have hspan := (h.mapped.spans b i).mp hblock
  obtain ⟨hb, -⟩ := h.mapped.begun b (by omega)
  rw [readAlone_iff h hseek hb,
    deliversFrom_singleton (blockRange_singleton h hone hsingle hblock) hfile]
  apply exists_congr
  intro opened
  apply and_congr_right
  intro hopen
  have hcodecs : opened.codecs = r.codecs :=
    congrArg BlockDecoder.codecs (openBlock_eq_ok hopen).1
  have hengaged : opened.folding = true →
      opened.codecs.engaged opened.stack.decoder = true ∧ opened.splits ≠ [] := by
    intro hfolding
    obtain ⟨hengaged, hsplits, -⟩ := openBlock_folding_eq_true hopen hfolding
    exact ⟨hcodecs ▸ hengaged, hsplits⟩
  exact (OpenBlock.reads_iff_readVerified (hcodecs ▸ hfolds) hengaged hstream
    (halike opened hopen)).symm

end ArchiveReader

namespace OpenBlock

variable (d : OpenBlock)

theorem dataOf_walk {each : Callback} {files rest : List Nat} {st : BlockState} {log : WalkLog}
    (hrange : List.range' d.start d.block.numUnpackSubStreams = files ++ rest)
    (hwalk : d.walkEntries each files (d.initial log) = (.ok true, st)) {target : Nat}
    {data : List UInt8} (hdata : ArchiveReader.dataOf target st.log = some data) :
    ArchiveReader.dataOf target (d.walk each log).2 = some data := by
  have hlog : (d.walk each log).2 = (d.walkEntries each rest st).2.log := by
    rw [walk, hrange, walkEntries_append, hwalk]
    dsimp only
    rcases d.walkEntries each rest st with ⟨answer, st'⟩
    match answer with
    | .ok true => rfl
    | .ok false => rfl
    | .error _ => rfl
  obtain ⟨visits, hvisits⟩ := (d.walkEntries_extends each rest st).1
  obtain ⟨visit, hfind, hvisit⟩ := Option.map_eq_some_iff.mp hdata
  rw [ArchiveReader.dataOf, hlog, ← hvisits, List.find?_append, hfind]
  exact congrArg some hvisit

end OpenBlock

namespace ArchiveReader

variable (r : ArchiveReader)

def drain : Callback := r.codecs.consume fun _ => true

/-- The draining walk of a block gets past an entry without an error, and has handed out these
data for it. -/
def BlockDelivers (b target : Nat) (data : List UInt8) : Prop :=
  ∃ opened before st, (r.blockDecoder b).openBlock = .ok opened ∧
    before ++ [target] <+: r.archive.blockRange b ∧
    opened.walkEntries r.drain (before ++ [target]) (opened.initial {}) = (.ok true, st) ∧
    dataOf target st.log = some data

/-- The draining pass over the files of no block gets past an entry, with these data. -/
def EmptyDelivers (target : Nat) (data : List UInt8) : Prop :=
  ∃ log, r.walkEmptyFiles r.drain (List.range (target + 1)) {} = (.ok (), log) ∧
    dataOf target log = some data

/-- The draining walk of an entry's block, or the pass over the files of none, delivers it. -/
def Delivers (target : Nat) (data : List UInt8) : Prop :=
  match r.archive.streamMap.fileBlockIndex[target]? with
  | some (some b) => r.BlockDelivers b target data
  | some none => r.EmptyDelivers target data
  | none => False

theorem BlockDelivers.forEachEntries {r : ArchiveReader} {b target : Nat} {data : List UInt8}
    (h : r.BlockDelivers b target data) :
    dataOf target ((r.blockDecoder b).forEachEntries r.drain {}).2 = some data := by
  obtain ⟨opened, before, st, hopen, ⟨after, hsplit⟩, hwalk, hdata⟩ := h
  unfold BlockDecoder.forEachEntries
  rw [hopen]
  exact opened.dataOf_walk ((openBlock_range hopen).trans hsplit.symm) hwalk hdata

theorem blockDelivers_iff {b target : Nat} {data : List UInt8} :
    r.BlockDelivers b target data ↔ r.DeliversFrom b target data := by
  constructor
  · rintro ⟨opened, before, st, hopen, hprefix, hwalk, hdata⟩
    have hcodecs : opened.codecs = r.codecs :=
      congrArg BlockDecoder.codecs (openBlock_eq_ok hopen).1
    rw [drain, ← hcodecs] at hwalk
    obtain ⟨-, data', hdata', harrives⟩ :=
      opened.walkEntries_target (fun _ _ => rfl) (r.not_mem_of_prefix hprefix) hwalk
    cases hdata.symm.trans hdata'
    exact ⟨opened, before, hopen, hprefix, harrives⟩
  · rintro ⟨opened, before, hopen, hprefix, harrives⟩
    have hcodecs : opened.codecs = r.codecs :=
      congrArg BlockDecoder.codecs (openBlock_eq_ok hopen).1
    obtain ⟨st, hwalk, hdata⟩ :=
      harrives.walkEntries opened (fun _ _ => rfl)
        (r.not_mem_of_prefix hprefix)
    rw [hcodecs] at hwalk
    exact ⟨opened, before, st, hopen, hprefix, hwalk, hdata⟩

end ArchiveReader

section

variable {codecs : Codecs} (hrounds : 0 < codecs.rounds)
include hrounds

theorem Codecs.readWhole_empty : ∃ records,
    codecs.readWhole.run emptyRead () = (some (.ok []), records, ()) ∧ delivered records = [] := by
  have hended : ∀ buf, (emptyRead buf ()).1 = .ok [] := fun _ => rfl
  have hdata := codecs.readRest_ended hended codecs.rounds []
  rw [if_neg hrounds.ne'] at hdata
  rcases hrun : codecs.readWhole.run emptyRead () with ⟨outcome, records, s⟩
  have houtcome : outcome = some (.ok []) := by
    rw [← hdata]
    exact (congrArg Prod.fst hrun).symm
  rw [houtcome] at hrun ⊢
  exact ⟨records, rfl, Codecs.readWhole_delivered hrun⟩

theorem visitEmpty_consume (goOn : Nat → Bool) (b : Option Nat) (i : Nat) (file : ArchiveEntry)
    (log : WalkLog) : ∃ visit, visitEmpty (codecs.consume goOn) b i file log =
      (.ok (goOn i), { log with visits := log.visits ++ [visit] }) ∧
        visit.fileIndex = i ∧ visit.answer = some (.ok (goOn i)) ∧
          delivered visit.records = [] := by
  obtain ⟨records, hrun, hdelivered⟩ := Codecs.readWhole_empty hrounds
  refine ⟨emptyVisit (codecs.consume goOn) b i file log, ?_, rfl, ?_, ?_⟩
  · unfold visitEmpty emptyVisit
    rw [Codecs.run_consume, hrun]
    rfl
  · unfold emptyVisit
    rw [Codecs.run_consume, hrun]
    rfl
  · unfold emptyVisit
    rw [Codecs.run_consume, hrun]
    exact hdelivered

theorem OpenBlock.reads_empty {d : OpenBlock} (hcodecs : d.codecs = codecs) {file : ArchiveEntry}
    (hstream : file.hasStream = false) {st : BlockState} {data : List UInt8} :
    d.Reads file st data ↔ data = [] := by
  obtain ⟨records, hrun, -⟩ := Codecs.readWhole_empty hrounds
  have hempty : ¬ (file.hasStream = true ∧ file.size > 0) := by simp [hstream]
  rw [Reads, if_neg hempty, hcodecs, hrun, Option.some.injEq, Except.ok.injEq, eq_comm]

end

namespace ArchiveReader

variable {r : ArchiveReader}

theorem walkEmptyFiles_drain (hrounds : 0 < r.codecs.rounds) (h : r.archive.Mapped)
    {files : List Nat} (hfiles : ∀ i ∈ files, i < r.archive.files.length) (log : WalkLog) :
    ∃ visits, r.walkEmptyFiles r.drain files log =
        (.ok (), { log with visits := log.visits ++ visits }) ∧
      (∀ visit ∈ visits, visit.Continues ∧ delivered visit.records = []) ∧
      ∀ i ∈ files, r.archive.streamMap.fileBlockIndex[i]? = some none →
        ∃ visit ∈ visits, visit.fileIndex = i := by
  induction files generalizing log with
  | nil => exact ⟨[], by simp [walkEmptyFiles], by simp, by simp⟩
  | cons i files ih =>
      obtain ⟨hi, hrest⟩ := List.forall_mem_cons.mp hfiles
      have hfile := List.getElem?_eq_getElem hi
      obtain ⟨x, hx⟩ : ∃ x, r.archive.streamMap.fileBlockIndex[i]? = some x :=
        ⟨_, List.getElem?_eq_getElem (h.fileBlock.symm ▸ hi)⟩
      unfold walkEmptyFiles
      rw [hfile, hx]
      cases x with
      | none =>
          obtain ⟨visit, hvisit, hindex, hcontinues, hempty⟩ :=
            visitEmpty_consume hrounds (fun _ => true) none i r.archive.files[i] log
          obtain ⟨visits, hwalk, hall, hfound⟩ :=
            ih hrest { log with visits := log.visits ++ [visit] }
          refine ⟨visit :: visits, ?_, List.forall_mem_cons.mpr ⟨⟨hcontinues, hempty⟩, hall⟩, ?_⟩
          · dsimp only
            rw [drain, hvisit]
            dsimp only
            rw [← drain, hwalk, List.append_assoc]
            rfl
          · intro j hj hnone
            cases hj with
            | head => exact ⟨visit, List.mem_cons_self, hindex⟩
            | tail _ hj =>
                obtain ⟨visit', hmem, hindex'⟩ := hfound j hj hnone
                exact ⟨visit', List.mem_cons_of_mem _ hmem, hindex'⟩
      | some b =>
          obtain ⟨visits, hwalk, hall, hfound⟩ := ih hrest log
          refine ⟨visits, hwalk, hall, ?_⟩
          intro j hj hnone
          cases hj with
          | head =>
              rw [hx] at hnone
              cases hnone
          | tail _ hj => exact hfound j hj hnone

theorem emptyDelivers_iff (hrounds : 0 < r.codecs.rounds) (h : r.archive.Mapped) {i : Nat}
    (hnone : r.archive.streamMap.fileBlockIndex[i]? = some none) {data : List UInt8} :
    r.EmptyDelivers i data ↔ data = [] := by
  have hi : i < r.archive.files.length :=
    h.fileBlock ▸ (List.getElem?_eq_some_iff.mp hnone).1
  have hfiles : ∀ j ∈ List.range (i + 1), j < r.archive.files.length := by
    intro j hj
    have := List.mem_range.mp hj
    omega
  obtain ⟨visits, hwalk, hall, hfound⟩ := walkEmptyFiles_drain hrounds h hfiles {}
  obtain ⟨visit, hmem, hindex⟩ := hfound i (List.mem_range.mpr (Nat.lt_succ_self i)) hnone
  have hdata : dataOf i { visits := [] ++ visits } = some [] := by
    rw [dataOf, List.nil_append]
    cases hfind : visits.find? fun visit => visit.fileIndex == i with
    | none =>
        have hno := List.find?_eq_none.mp hfind visit hmem
        simp [hindex] at hno
    | some found => exact congrArg some (hall found (List.mem_of_find?_eq_some hfind)).2
  constructor
  · rintro ⟨log, hrun, hlog⟩
    cases hwalk.symm.trans hrun
    rw [hdata] at hlog
    cases hlog
    rfl
  · rintro rfl
    exact ⟨_, hwalk, hdata⟩

theorem findFile_unique {i : Nat} {file : ArchiveEntry} (hfile : r.archive.files[i]? = some file)
    (hunique : ∀ j file', r.archive.files[j]? = some file' → file'.name = file.name → j = i) :
    r.findFile file.name = some (i, file) := by
  cases hfind : r.findFile file.name with
  | none =>
      have hmem : (i, file) ∈ (r.archive.files.zipIdx.map fun file => (file.2, file.1)).reverse := by
        rw [List.mem_reverse, List.mem_map]
        exact ⟨(file, i), List.mem_zipIdx_iff_getElem?.mpr hfile, rfl⟩
      have hno := List.find?_eq_none.mp hfind (i, file) hmem
      simp at hno
  | some found =>
      obtain ⟨j, file'⟩ := found
      have hfile' := findFile_eq_some hfind
      have hname : file'.name = file.name := by simpa using List.find?_some hfind
      obtain rfl := hunique j file' hfile' hname
      cases hfile.symm.trans hfile'
      rfl

/-- A file that is decoded alone is checked as the walk over its block checks it. -/
def ChecksAlike (i : Nat) (file : ArchiveEntry) : Prop :=
  r.archive.isSolid = false → ∀ b opened,
    r.archive.streamMap.fileBlockIndex[i]? = some (some b) →
    (r.blockDecoder b).openBlock = .ok opened → opened.ChecksAlike file

theorem readFile_found {name : List Char} {i : Nat} {file : ArchiveEntry}
    (hfind : r.findFile name = some (i, file)) {data : List UInt8} :
    r.readFile name = .ok data ↔
      if file.hasStream = true then
        ∃ b, r.archive.streamMap.fileBlockIndex[i]? = some (some b) ∧
          if r.archive.isSolid = true then r.readSolid b i = .ok data
          else r.readAlone b file = .ok data
      else data = [] := by
  cases hstream : file.hasStream with
  | false =>
      unfold readFile
      rw [hfind, bind_of_ok (okOr_eq_ok.mpr rfl)]
      simp only [hstream, Bool.false_eq_true, not_false_eq_true, if_true, if_false]
      rw [Result.pure_eq_ok, eq_comm]
  | true =>
      constructor
      · exact fun hread => readFile_eq_ok hread hfind hstream
      · rintro ⟨b, hblock, hread⟩
        unfold readFile
        rw [hfind, bind_of_ok (okOr_eq_ok.mpr rfl)]
        simp only [hstream, not_true_eq_false, if_false]
        rw [bind_of_ok (index_eq_ok.mpr hblock), bind_of_ok (okOr_eq_ok.mpr rfl)]
        by_cases hsolid : r.archive.isSolid = true
        · rw [if_pos hsolid] at hread ⊢
          exact hread
        · rw [if_neg hsolid] at hread ⊢
          exact hread

end ArchiveReader

/-- `read_file` returns the data that the draining walk of the entry's block delivers for it,
where it delivers the entry, and for an entry without a stream also where it does not. -/
theorem readFile_delivers_iff {codecs : Codecs} {limits : ArchiveLimits} {passwordGiven : Bool}
    {bytes : List UInt8} {r : ArchiveReader}
    (haccepted : readWithLimits codecs limits passwordGiven bytes = .ok r.archive)
    (hrounds : 0 < r.codecs.rounds) (hseek : ∀ position, r.codecs.seekError position = none)
    (hfolds : r.codecs.FoldsExactly) {i : Nat} {file : ArchiveEntry}
    (hfile : r.archive.files[i]? = some file)
    (hunique : ∀ j file', r.archive.files[j]? = some file' → file'.name = file.name → j = i)
    (halike : r.ChecksAlike i file) (data : List UInt8) :
    r.readFile file.name = .ok data ↔ r.Delivers i data ∨
      (file.hasStream = false ∧ data = [] ∧
        ∃ b, r.archive.streamMap.fileBlockIndex[i]? = some (some b)) := by
  have hdescribed := readWithLimits_described haccepted
  have hmapped := hdescribed.mapped
  have hi := (List.getElem?_eq_some_iff.mp hfile).1
  obtain ⟨x, hx⟩ : ∃ x, r.archive.streamMap.fileBlockIndex[i]? = some x :=
    ⟨_, List.getElem?_eq_getElem (hmapped.fileBlock.symm ▸ hi)⟩
  rw [ArchiveReader.readFile_found (ArchiveReader.findFile_unique hfile hunique),
    ArchiveReader.Delivers, hx]
  cases hstream : file.hasStream with
  | false =>
      rw [if_neg Bool.false_ne_true]
      cases x with
      | none =>
          dsimp only
          rw [ArchiveReader.emptyDelivers_iff hrounds hmapped hx]
          simp
      | some b =>
          dsimp only
          rw [r.blockDelivers_iff]
          constructor
          · exact fun hdata => Or.inr ⟨rfl, hdata, b, rfl⟩
          · rintro (⟨opened, before, hopen, -, st, file', -, hfile', hreads⟩ | ⟨-, hdata, -⟩)
            · have hsame := (openBlock_eq_ok hopen).1
              have hcodecs : opened.codecs = r.codecs := congrArg BlockDecoder.codecs hsame
              have harchive : opened.archive = r.archive := congrArg BlockDecoder.archive hsame
              rw [harchive, hfile] at hfile'
              cases hfile'
              exact (OpenBlock.reads_empty hrounds hcodecs hstream).mp hreads
            · exact hdata
  | true =>
      rw [if_pos rfl]
      obtain ⟨hi', hgot⟩ := List.getElem?_eq_some_iff.mp hx
      have hsome := hmapped.streamed.get hi hi'
      rw [List.get_eq_getElem, List.get_eq_getElem, hgot,
        (List.getElem?_eq_some_iff.mp hfile).2] at hsome
      obtain ⟨b, rfl⟩ := Option.isSome_iff_exists.mp (hsome hstream)
      dsimp only
      have hread : (if r.archive.isSolid = true then r.readSolid b i = .ok data
          else r.readAlone b file = .ok data) ↔ r.BlockDelivers b i data := by
        rw [r.blockDelivers_iff]
        split
        · exact r.readSolid_iff
        · rename_i halone
          obtain ⟨hsingle, hone⟩ :=
            readWithLimits_oneFileEach haccepted (Bool.eq_false_iff.mpr halone)
          exact ArchiveReader.readAlone_iff_deliversFrom hdescribed hone hsingle hseek hfolds hx
            hfile hstream fun opened hopen =>
              halike (Bool.eq_false_iff.mpr halone) b opened hx hopen
      constructor
      · rintro ⟨b', hb', hdata⟩
        cases hb'
        exact Or.inl (hread.mp hdata)
      · rintro (hdelivers | ⟨hcontra, -⟩)
        · exact ⟨b, rfl, hread.mpr hdelivers⟩
        · cases hcontra

theorem name_unique {archive : Archive}
    (hnodup : (archive.files.map ArchiveEntry.name).Nodup) {i : Nat} {file : ArchiveEntry}
    (hfile : archive.files[i]? = some file) (j : Nat) (file' : ArchiveEntry)
    (hfile' : archive.files[j]? = some file') (hname : file'.name = file.name) : j = i := by
  have hj : j < (archive.files.map ArchiveEntry.name).length := by
    rw [List.length_map]
    exact (List.getElem?_eq_some_iff.mp hfile').1
  apply (List.getElem?_inj hj hnodup).mp
  rw [List.getElem?_map, List.getElem?_map, hfile, hfile', Option.map_some, Option.map_some, hname]

theorem copying_foldsExactly (bytes : List UInt8) : (Codecs.copying bytes).FoldsExactly where
  toFoldsPieces := Codecs.foldsPieces_of_not_engaged fun _ => rfl
  unread _ hengaged := by cases hengaged

/-- A block of two files of one byte with a directory listed between them.  The first file has
a wrong checksum. -/
def spoiltFile : List UInt8 :=
  archiveFile crc32 [0x41, 0x42]
    ([kHeader, kMainStreamsInfo,
      kPackInfo, 0, 1, kSize, 2, kEnd,
      kUnpackInfo, kFolder, 1, 0, 1, 1, 0, kCodersUnpackSize, 2, kEnd,
      kSubStreamsInfo, kNumUnpackStream, 2, kSize, 1, kCrc, 1, 1, 0, 0, 0] ++
      writeU32 (crc32 [0x42]) ++ [kEnd, kEnd,
      kFilesInfo, 3, kEmptyStream, 1, 0x40,
      kName, 13, 0, 0x61, 0, 0, 0, 0x64, 0, 0, 0, 0x62, 0, 0, 0, kEnd, kEnd])

/-- The directory can be read, although the walk of its block fails before it. -/
theorem spoiltFile_undelivered : ∃ archive,
    readWithLimits (.copying spoiltFile) {} false spoiltFile = .ok archive ∧
      (∃ file, archive.files[1]? = some file ∧ file.name = ['d'] ∧
        ∀ j file', archive.files[j]? = some file' → file'.name = file.name → j = 1) ∧
      (copyingReader spoiltFile archive).readFile ['d'] = .ok [] ∧
      ∀ data, ¬ (copyingReader spoiltFile archive).Delivers 1 data := by
  obtain ⟨archive, hread, hcheck⟩ := Result.exists_of_holds
    (show (readWithLimits (.copying spoiltFile) {} false spoiltFile).holds
      (fun archive =>
        let r := copyingReader spoiltFile archive
        decide ((archive.files.map ArchiveEntry.name).Nodup ∧
          archive.files[1]?.map ArchiveEntry.name = some ['d'] ∧
          archive.streamMap.fileBlockIndex[1]? = some (some 0) ∧
          r.readFile ['d'] = .ok [] ∧
          ArchiveReader.dataOf 1 ((r.blockDecoder 0).forEachEntries r.drain {}).2 = none)) =
            true by decide +kernel)
  obtain ⟨hnodup, hname, hblock, hfile, hnone⟩ := of_decide_eq_true hcheck
  obtain ⟨file, hget, heq⟩ := Option.map_eq_some_iff.mp hname
  refine ⟨archive, hread, ⟨file, hget, heq, name_unique hnodup hget⟩, hfile, ?_⟩
  intro data hdelivers
  have hindex : (copyingReader spoiltFile archive).archive.streamMap.fileBlockIndex[1]? =
      some (some 0) := hblock
  rw [ArchiveReader.Delivers, hindex] at hdelivers
  have hsome := hdelivers.forEachEntries
  rw [hnone] at hsome
  cases hsome

/-- The last file comes after the one that is spoilt, and neither reader gets to it. -/
theorem spoiltFile_delivers_iff : ∃ archive,
    readWithLimits (.copying spoiltFile) {} false spoiltFile = .ok archive ∧
      ∃ file, archive.files[2]? = some file ∧ ∀ data,
        (copyingReader spoiltFile archive).readFile file.name = .ok data ↔
          (copyingReader spoiltFile archive).Delivers 2 data ∨
            (file.hasStream = false ∧ data = [] ∧
              ∃ b, archive.streamMap.fileBlockIndex[2]? = some (some b)) := by
  obtain ⟨archive, hread, hcheck⟩ := Result.exists_of_holds
    (show (readWithLimits (.copying spoiltFile) {} false spoiltFile).holds
      (fun archive => decide ((archive.files.map ArchiveEntry.name).Nodup ∧
        archive.files[2]?.isSome ∧ archive.isSolid = true)) = true by decide +kernel)
  obtain ⟨hnodup, hsome, hsolid⟩ := of_decide_eq_true hcheck
  obtain ⟨file, hget⟩ := Option.isSome_iff_exists.mp hsome
  refine ⟨archive, hread, file, hget, ?_⟩
  apply readFile_delivers_iff (r := copyingReader spoiltFile archive) hread (Nat.succ_pos _)
    (fun _ => rfl) (copying_foldsExactly spoiltFile) hget (name_unique hnodup hget)
  intro halone
  exact absurd (hsolid.symm.trans halone) (by decide)

end Sevenz
