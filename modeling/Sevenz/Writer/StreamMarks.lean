import Sevenz.Writer.ReadBack

/-!
# Which entries have a stream

The reader deals the sub-streams out to the entries that say they have one.  A push of one entry
decides that by what it stores, a push of several leaves it as it was when the entry was made.
-/

namespace Sevenz

open Lib

namespace Push

/-- What is stored together are entries that have a stream from the start, as those that
`new_file` makes, and `from_path` of a file. -/
def Marked (push : Push) : Prop := ∀ entry ∈ push.solidEntries, entry.hasStream = true

instance (push : Push) : Decidable push.Marked :=
  inferInstanceAs (Decidable (∀ entry ∈ push.solidEntries, entry.hasStream = true))

/-- The readers were not read from before, and a verifying reader can count what is stored. -/
structure Fresh (push : Push) : Prop where
  unread : ∀ source ∈ push.solidSources, source.tally = {}
  counted : ∀ contents, push.contents = some contents → contents.flatten.length < 2 ^ 63
  machine : push.solidEntries.length < 2 ^ 64

variable {push : Push}

theorem Fresh.flagged (h : push.Fresh) (hmarked : push.Marked) : push.Flagged :=
  ⟨hmarked, h.unread, h.counted, h.machine⟩

theorem map_isSome_eq_marks_iff {entries : List ArchiveEntry} {contents : List (List UInt8)}
    (hlength : contents.length = entries.length) :
    (contents.map some).map Option.isSome = entries.map ArchiveEntry.hasStream ↔
      ∀ entry ∈ entries, entry.hasStream = true := by
  have hsome : (contents.map some).map Option.isSome = List.replicate entries.length true := by
    rw [List.map_map, ← hlength]
    exact List.map_const' ..
  rw [hsome, eq_comm, List.map_eq_replicate_iff]

/-- The files that a push adds have a stream exactly where there is content for them, if and only
if the push marks what it stores together. -/
theorem owned_marks {crc32 : List UInt8 → UInt32} {writer : ArchiveWriter}
    (h : push.Succeeds crc32 writer) :
    (push.owned.map Option.isSome).length = push.marks.length ∧
      (push.owned.map Option.isSome = push.marks ↔ push.Marked) := by
  obtain ⟨writer', hcall⟩ : ∃ writer', (push.perform crc32 writer).result = .ok writer' := by
    cases hresult : (push.perform crc32 writer).result with
    | error fault =>
        rw [Succeeds, hresult] at h
        cases h
    | ok writer' => exact ⟨writer', rfl⟩
  cases push with
  | archiveEntry encoder entry reader =>
      have hsame : (Push.archiveEntry encoder entry reader).owned.map Option.isSome =
          (Push.archiveEntry encoder entry reader).marks := by
        cases reader with
        | none => simp [owned, contents, marks]
        | some source => cases hdirectory : entry.isDirectory <;>
            simp [owned, contents, marks, hdirectory]
      exact ⟨congrArg List.length hsame, fun _ => List.forall_mem_nil _, fun _ => hsame⟩
  | archiveEntries encoder entries sources =>
      have hlength := ArchiveWriter.length_of_pushArchiveEntries hcall
      rw [owned_of_contents rfl, marks, List.length_map, List.length_map, List.length_map,
        List.length_map]
      exact ⟨hlength, map_isSome_eq_marks_iff (by rwa [List.length_map])⟩
  | preparedBlock encoder methods entries sources outputError =>
      rw [perform] at hcall
      cases hprepare : prepareBlock crc32 encoder methods entries sources with
      | error fault =>
          rw [hprepare] at hcall
          cases hcall
      | ok block =>
          obtain ⟨-, hlength, -⟩ := prepareBlock_eq_ok hprepare
          cases entries with
          | nil => exact ⟨rfl, fun _ => List.forall_mem_nil _, fun _ => rfl⟩
          | cons entry entries =>
              rw [owned_of_contents rfl, marks, List.length_map, List.length_map, List.length_map,
                List.length_map]
              exact ⟨hlength, map_isSome_eq_marks_iff (by rwa [List.length_map])⟩
  | contentMethods methods => exact ⟨rfl, fun _ => List.forall_mem_nil _, fun _ => rfl⟩
  | encryptHeader enabled => exact ⟨rfl, fun _ => List.forall_mem_nil _, fun _ => rfl⟩

end Push

theorem flatMap_eq_iff {α β : Type*} {f g : α → List β} {xs : List α}
    (hlength : ∀ x ∈ xs, (f x).length = (g x).length) :
    xs.flatMap f = xs.flatMap g ↔ ∀ x ∈ xs, f x = g x := by
  induction xs with
  | nil => simp
  | cons x xs ih =>
      obtain ⟨hfirst, hrest⟩ := List.forall_mem_cons.mp hlength
      rw [List.flatMap_cons, List.flatMap_cons, List.forall_mem_cons, ← ih hrest]
      exact ⟨fun h => List.append_inj h hfirst, fun ⟨hx, hxs⟩ => by rw [hx, hxs]⟩

theorem ownersOf_iff_map {files : List ArchiveEntry} {owned : List (Option (List UInt8))} :
    OwnersOf files owned ↔ files.map ArchiveEntry.hasStream = owned.map Option.isSome := by
  rw [← List.forall₂_eq_eq_eq, List.forall₂_map_left_iff, List.forall₂_map_right_iff]

section

variable {crc32 : List UInt8 → UInt32} {pushes : List Push} {session : Session}
  (hrun : run (Session.step crc32) {} pushes = some session)
  (hsucceeds : EveryStep (Session.step crc32) {} pushes fun _ push before _ =>
    push.Succeeds crc32 before.writer)

include hrun hsucceeds

theorem Session.ownersOf_iff_marked :
    OwnersOf session.writer.files (pushes.flatMap Push.owned) ↔ ∀ push ∈ pushes, push.Marked := by
  have hpushes : ∀ push ∈ pushes,
      (push.owned.map Option.isSome).length = push.marks.length ∧
        (push.owned.map Option.isSome = push.marks ↔ push.Marked) := by
    intro push hmem
    obtain ⟨before, t, t', h⟩ := hsucceeds.exists_of_mem hrun hmem
    exact Push.owned_marks h
  obtain ⟨-, hmarks⟩ := Session.files_of_run hrun hsucceeds
  have heach : pushes.flatMap (fun push => push.owned.map Option.isSome) =
      pushes.flatMap Push.marks ↔
        ∀ push ∈ pushes, push.owned.map Option.isSome = push.marks :=
    flatMap_eq_iff fun push hmem => (hpushes push hmem).1
  rw [ownersOf_iff_map, hmarks, List.map_flatMap, eq_comm]
  exact heach.trans (forall₂_congr fun push hmem => (hpushes push hmem).2)

theorem Session.filed_of_marked {uses : ContentEncoder → List EncoderConfiguration → Prop}
    (hfresh : ∀ push ∈ pushes, push.Fresh) (hmarked : ∀ push ∈ pushes, push.Marked)
    (huses : EveryStep (Session.step crc32) {} pushes fun _ push before _ =>
      ∀ encoder methods, push.encoding before.writer = some (encoder, methods) →
        uses encoder methods) : session.Filed crc32 uses (pushes.flatMap Push.owned) := by
  apply Session.filed_of_run hrun
  intro before push after hpushes t t' hbefore hstep
  have hmem : push ∈ pushes := hpushes ▸ List.mem_append_right _ List.mem_cons_self
  exact ⟨hsucceeds before push after hpushes t t' hbefore hstep,
    (hfresh push hmem).flagged (hmarked push hmem),
    huses before push after hpushes t t' hbefore hstep⟩

end

/-- After a run of calls that succeed, of fresh readers, the lists of the writer are in order
exactly where each call marks what it stores together.  Then what was pushed for each entry is
read back from the finished file. -/
theorem Session.inOrder_iff_marked {codecs : Codecs} {pushes : List Push} {session : Session}
    (hrun : run (Session.step codecs.crc32) {} pushes = some session)
    (hsucceeds : EveryStep (Session.step codecs.crc32) {} pushes fun _ push before _ =>
      push.Succeeds codecs.crc32 before.writer) (hfresh : ∀ push ∈ pushes, push.Fresh) :
    (session.InOrder codecs.crc32 (pushes.flatMap Push.owned) ↔ ∀ push ∈ pushes, push.Marked) ∧
      ∀ versions limits encoder file,
        session.writer.finish versions codecs.crc32 encoder = .ok file →
        (∀ push ∈ pushes, push.Marked) → session.writer.Readable →
        codecs.Opens limits versions encoder session file →
        (EveryStep (Session.step codecs.crc32) {} pushes fun _ push before _ =>
          ∀ encoder methods, push.encoding before.writer = some (encoder, methods) →
            codecs.UndoContent file versions encoder methods) →
        ∀ verifyChecksums passwordGiven,
          ∃ archive log, readWithLimits codecs limits passwordGiven file = .ok archive ∧
            OwnersOf archive.files (pushes.flatMap Push.owned) ∧
            (let r : ArchiveReader := { codecs, limits, verifyChecksums, passwordGiven, archive }
             r.forEachEntries r.drain = (.ok (), log)) ∧
            (∀ i < archive.files.length, (visitedFiles log.visits).count i = 1) ∧
            ∀ visit ∈ log.visits, visit.Continues ∧
              delivered visit.records = contentAt (pushes.flatMap Push.owned) visit.fileIndex := by
  refine ⟨⟨fun h => ?_, fun hmarked => ?_⟩, ?_⟩
  · apply (Session.ownersOf_iff_marked hrun hsucceeds).mp
    refine h.owners.imp fun file content howns => ?_
    cases content with
    | none => exact howns
    | some content => exact howns.1
  · have hfiled : session.Filed codecs.crc32 (fun _ _ => True) (pushes.flatMap Push.owned) :=
      Session.filed_of_marked hrun hsucceeds hfresh hmarked
        (hsucceeds.mono fun _ _ _ _ _ _ _ _ _ _ => trivial)
    exact hfiled.toInOrder
  · intro versions limits encoder file hfinish hmarked hreadable hopens hundo verifyChecksums
      passwordGiven
    obtain ⟨archive, log, htaken, -, hback⟩ :=
      (Session.filed_of_marked hrun hsucceeds hfresh hmarked hundo).readBack hfinish hreadable
        hopens verifyChecksums passwordGiven
    exact ⟨archive, log, htaken, hback⟩

theorem mixedPushes_inOrder_iff : ∃ file archive log,
    ((sessionAfter mixedPushes).InOrder crc32 (mixedPushes.flatMap Push.owned) ↔
      ∀ push ∈ mixedPushes, push.Marked) ∧
    (sessionAfter mixedPushes).writer.finish anyVersions crc32 copyEncoder = .ok file ∧
      readWithLimits (copyingAll file) {} false file = .ok archive ∧
      OwnersOf archive.files (mixedPushes.flatMap Push.owned) ∧
      (let r : ArchiveReader := { codecs := copyingAll file, limits := {}, verifyChecksums := true
                                  passwordGiven := false, archive }
       r.forEachEntries r.drain = (.ok (), log)) ∧
      (∀ i < archive.files.length, (visitedFiles log.visits).count i = 1) ∧
      ∀ visit ∈ log.visits, visit.Continues ∧ delivered visit.records =
        contentAt (mixedPushes.flatMap Push.owned) visit.fileIndex := by
  have hfinish := (sessionAfter mixedPushes).writer.finish_copy anyVersions crc32 rfl
  generalize archiveFile crc32 ((sessionAfter mixedPushes).writer.output.drop
    signatureHeaderSize) ((sessionAfter mixedPushes).writer.writeHeader anyVersions) = file
      at hfinish
  have hfresh : ∀ push ∈ mixedPushes, push.Fresh := by
    intro push hmem
    obtain ⟨-, -, -, -, hflagged, -⟩ := mixedPushes_steps.exists_of_mem rfl hmem
    exact ⟨hflagged.unread, hflagged.counted, hflagged.machine⟩
  obtain ⟨hiff, hback⟩ := @Session.inOrder_iff_marked (copyingAll file) mixedPushes
    (sessionAfter mixedPushes) rfl
    (mixedPushes_steps.mono fun _ _ _ _ _ _ hclean => hclean.1) hfresh
  obtain ⟨archive, log, h⟩ := hback anyVersions {} copyEncoder file hfinish (by decide)
    mixedPushes_readable (mixedPushes_opens hfinish) (mixedPushes_undo file) true false
  exact ⟨file, archive, log, hiff, hfinish, h⟩

/-- A directory that is stored with a byte, and a file after it. -/
def directoryWithByte : List Push :=
  [.contentMethods [{ method := .copy }],
    .archiveEntries copyEncoder [.newDirectory ['d']] [.new [.ok [7]]],
    .archiveEntry copyEncoder (.newFile ['a']) (some [.ok [8]])]

/-- The byte of the directory is what comes out for the file. -/
theorem directoryWithByte_shifted : ∃ file archive log,
    run (Session.step crc32) {} directoryWithByte = some (sessionAfter directoryWithByte) ∧
      (EveryStep (Session.step crc32) {} directoryWithByte fun _ push before _ =>
        push.Succeeds crc32 before.writer) ∧
      ¬ (sessionAfter directoryWithByte).InOrder crc32 (directoryWithByte.flatMap Push.owned) ∧
      directoryWithByte.flatMap Push.owned = [some [7], some [8]] ∧
      (sessionAfter directoryWithByte).writer.finish anyVersions crc32 copyEncoder = .ok file ∧
      readWithLimits (copyingAll file) {} false file = .ok archive ∧
      (let r : ArchiveReader := { codecs := copyingAll file, limits := {}, verifyChecksums := true
                                  passwordGiven := false, archive }
       r.forEachEntries r.drain = (.ok (), log)) ∧
      log.visits.map (fun visit => (visit.fileIndex, delivered visit.records)) =
        [(1, [7]), (0, []), (0, [])] := by
  have hfirst : Session.step crc32 {} (.contentMethods [{ method := .copy }]) =
      some (sessionAfter (directoryWithByte.take 1)) := rfl
  have hsecond : Session.step crc32 (sessionAfter (directoryWithByte.take 1))
      (.archiveEntries copyEncoder [.newDirectory ['d']] [.new [.ok [7]]]) =
        some (sessionAfter (directoryWithByte.take 2)) := rfl
  have hthird : Session.step crc32 (sessionAfter (directoryWithByte.take 2))
      (.archiveEntry copyEncoder (.newFile ['a']) (some [.ok [8]])) =
        some (sessionAfter directoryWithByte) := rfl
  have hnot : ¬ (sessionAfter directoryWithByte).InOrder crc32
      (directoryWithByte.flatMap Push.owned) := by
    intro h
    have hcount := congrArg List.length h.streams
    revert hcount
    decide
  have hfinish := (sessionAfter directoryWithByte).writer.finish_copy anyVersions crc32 rfl
  generalize hfile : archiveFile crc32 ((sessionAfter directoryWithByte).writer.output.drop
    signatureHeaderSize) ((sessionAfter directoryWithByte).writer.writeHeader anyVersions) = file
      at hfinish
  obtain ⟨archive, hread, hcheck⟩ := Result.exists_of_holds
    (show (readWithLimits (copyingAll file) {} false file).holds (fun archive =>
      let r : ArchiveReader := { codecs := copyingAll file, limits := {}, verifyChecksums := true
                                 passwordGiven := false, archive }
      let walk := r.forEachEntries r.drain
      decide (walk.1 = .ok () ∧ walk.2.visits.map (fun visit =>
        (visit.fileIndex, delivered visit.records)) = [(1, [7]), (0, []), (0, [])])) = true by
          rw [← hfile]
          decide +kernel)
  obtain ⟨hok, hvisits⟩ := of_decide_eq_true hcheck
  exact ⟨file, archive, _, rfl, .cons hfirst rfl (.cons hsecond rfl (.cons hthird rfl .nil)), hnot,
    rfl, hfinish, hread, Prod.ext hok rfl, hvisits⟩

end Sevenz
