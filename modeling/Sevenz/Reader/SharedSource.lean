import Sevenz.Lib.Delivery
import Sevenz.Reader.Codecs

/-!
# Readers over one source

`SharedBoundedReader`: the readers of a block with several packed streams share one source and
its cursor, and each seeks to its own place before it reads.
-/

namespace Sevenz

open Lib

structure SharedReader where
  cur : Nat
  bounds : Nat × Nat
  deriving DecidableEq, Repr

def SharedReader.new (bounds : Nat × Nat) : SharedReader := { cur := bounds.1, bounds }

/-- How the source answers a read: an error leaves its cursor anywhere, and otherwise it
delivers some number of bytes. -/
inductive SourceAnswer where
  | seekFails (e : IoError) (cursor : Nat)
  | readFails (e : IoError) (cursor : Nat)
  | bytes (n : Nat)

/-- `read` on the source: as many of the bytes at its cursor as it likes, but none only where
there is no room for any or none is left. -/
def sourceRead (content : List UInt8) (cursor bound n : Nat) : Option (List UInt8 × Nat) :=
  if n ≤ bound ∧ n ≤ content.length - cursor ∧ (n = 0 → bound = 0 ∨ content.length ≤ cursor) then
    some ((content.drop cursor).take n, cursor + n)
  else none

def SharedReader.read (content : List UInt8) (buf : Nat) (answer : SourceAnswer)
    (r : SharedReader) (cursor : Nat) : Option (ReadResult IoError × SharedReader × Nat) :=
  if r.bounds.2 ≤ r.cur then some (.ok [], r, cursor)
  else
    match answer with
    | .seekFails e cursor => some (.error e, r, cursor)
    | .readFails e cursor => some (.error e, r, cursor)
    | .bytes n =>
        -- the source is where another reader left it, and is sought first
        let cursor := r.cur
        let bound := min buf (r.bounds.2 - r.cur)
        (sourceRead content cursor bound n).map fun (bytes, cursor) =>
          (.ok bytes, { r with cur := r.cur + bytes.length }, cursor)

structure SharedSource where
  cursor : Nat
  readers : List SharedReader

structure SharedRead where
  reader : Nat
  buf : Nat
  answer : SourceAnswer

namespace SharedSource

def new (cursor : Nat) (ranges : List (Nat × Nat)) : SharedSource :=
  { cursor, readers := ranges.map SharedReader.new }

variable (content : List UInt8)

def read (call : SharedRead) (s : SharedSource) : Option (ReadResult IoError × SharedSource) := do
  let r ← s.readers[call.reader]?
  let (answer, r, cursor) ← r.read content call.buf call.answer s.cursor
  pure (answer, { cursor, readers := s.readers.set call.reader r })

def readAll : List SharedRead → SharedSource →
    Option (List (Nat × ReadRecord IoError) × SharedSource)
  | [], s => some ([], s)
  | call :: calls, s => do
      let (answer, s) ← read content call s
      let (log, s) ← readAll calls s
      pure ((call.reader, ⟨call.buf, answer⟩) :: log, s)

end SharedSource

def readsOf (i : Nat) (log : List (Nat × ReadRecord IoError)) : List (ReadRecord IoError) :=
  (log.filter fun entry => entry.1 == i).map Prod.snd

def rangeOf (content : List UInt8) (bounds : Nat × Nat) : List UInt8 :=
  (content.drop bounds.1).take (bounds.2 - bounds.1)

namespace SharedReader

variable {content : List UInt8} {buf cursor cursor' : Nat} {source : SourceAnswer}
  {answer : ReadResult IoError} {r r' : SharedReader}

def left (content : List UInt8) (r : SharedReader) : List UInt8 :=
  rangeOf content (r.cur, r.bounds.2)

theorem sourceRead_eq_some {bound n : Nat} {bytes : List UInt8}
    (h : sourceRead content cursor bound n = some (bytes, cursor')) :
    bytes = (content.drop cursor).take n ∧ bytes.length = n ∧ n ≤ bound ∧
      (n = 0 → bound = 0 ∨ content.length ≤ cursor) := by
  unfold sourceRead at h
  split at h
  · rename_i hallowed
    obtain ⟨hbound, havailable, hnone⟩ := hallowed
    cases h
    refine ⟨rfl, ?_, hbound, hnone⟩
    rw [List.length_take, List.length_drop]
    omega
  · cases h

theorem read_answers (h : r.read content buf source cursor = some (answer, r', cursor')) :
    Answers (fun _ => True) buf (r.left content) none answer (r'.left content) none := by
  unfold read at h
  split at h
  · rename_i hend
    cases h
    have hleft : r.left content = [] := by
      rw [left, rangeOf, Nat.sub_eq_zero_of_le hend, List.take_zero]
    rw [hleft]
    exact .finished
  · rename_i hmore
    cases source with
    | seekFails e c =>
        cases h
        exact .pass trivial
    | readFails e c =>
        cases h
        exact .pass trivial
    | bytes n =>
        dsimp only at h
        obtain ⟨⟨bytes, c⟩, hread, h⟩ := Option.map_eq_some_iff.mp h
        cases h
        obtain ⟨hbytes, hlength, hbound, hnone⟩ := sourceRead_eq_some hread
        have hsplit : r.left content =
            bytes ++ left content { r with cur := r.cur + bytes.length } := by
          unfold left rangeOf
          dsimp only
          rw [hlength, hbytes, ← List.drop_drop, Nat.sub_add_eq]
          have hcut := List.take_add (l := content.drop r.cur) (i := n)
            (j := r.bounds.2 - r.cur - n)
          rwa [Nat.add_sub_cancel' (by omega)] at hcut
        by_cases hzero : n = 0
        · have hnil : bytes = [] := List.eq_nil_of_length_eq_zero (hlength.trans hzero)
          subst hnil
          rcases hnone hzero with hroom | hend
          · rw [hsplit, List.nil_append]
            exact .idle (by omega)
          · have hempty : r.left content = [] := by
              rw [left, rangeOf, List.drop_eq_nil_of_le hend, List.take_nil]
            rw [List.nil_append] at hsplit
            rw [← hsplit, hempty]
            exact .finished
        · rw [hsplit]
          refine .piece ?_ (by omega)
          intro hnil
          rw [hnil] at hlength
          exact hzero hlength.symm

theorem read_cursor (h : r.read content buf source cursor = some (answer, r', cursor'))
    (other : Nat) : ∃ after, r.read content buf source other = some (answer, r', after) := by
  unfold read at h ⊢
  split at h
  · rename_i hend
    cases h
    exact ⟨other, by rw [if_pos hend]⟩
  · rename_i hmore
    rw [if_neg hmore]
    cases source with
    | seekFails e c =>
        cases h
        exact ⟨_, rfl⟩
    | readFails e c =>
        cases h
        exact ⟨_, rfl⟩
    | bytes n => exact ⟨cursor', h⟩

end SharedReader

namespace SharedSource

variable {content : List UInt8} {s s' : SharedSource}

theorem read_eq_some {call : SharedRead} {answer : ReadResult IoError}
    (h : read content call s = some (answer, s')) :
    ∃ r r', s.readers[call.reader]? = some r ∧
      r.read content call.buf call.answer s.cursor = some (answer, r', s'.cursor) ∧
      s'.readers = s.readers.set call.reader r' := by
  obtain ⟨r, hr, h⟩ := Option.bind_eq_some_iff.mp h
  obtain ⟨⟨answer', r', cursor⟩, hread, h⟩ := Option.bind_eq_some_iff.mp h
  cases h
  exact ⟨r, r', hr, hread, rfl⟩

theorem read_other {call : SharedRead} {answer : ReadResult IoError}
    (h : read content call s = some (answer, s')) {i : Nat} (hi : call.reader ≠ i) :
    s'.readers[i]? = s.readers[i]? := by
  obtain ⟨r, r', -, -, hreaders⟩ := read_eq_some h
  rw [hreaders, List.getElem?_set_ne hi]

theorem read_self {call : SharedRead} {answer : ReadResult IoError}
    (h : read content call s = some (answer, s')) {r : SharedReader}
    (hr : s.readers[call.reader]? = some r) :
    ∃ r', s'.readers[call.reader]? = some r' ∧
      r.read content call.buf call.answer s.cursor = some (answer, r', s'.cursor) := by
  obtain ⟨r₁, r', hr₁, hread, hreaders⟩ := read_eq_some h
  rw [hr] at hr₁
  cases hr₁
  have hlt : call.reader < s.readers.length := (List.getElem?_eq_some_iff.mp hr).1
  exact ⟨r', by rw [hreaders, List.getElem?_set_self hlt], hread⟩

theorem readAll_cons_eq_some {call : SharedRead} {calls : List SharedRead}
    {log : List (Nat × ReadRecord IoError)}
    (h : readAll content (call :: calls) s = some (log, s')) :
    ∃ answer s₁ rest, read content call s = some (answer, s₁) ∧
      readAll content calls s₁ = some (rest, s') ∧
      log = (call.reader, ⟨call.buf, answer⟩) :: rest := by
  obtain ⟨⟨answer, s₁⟩, hread, h⟩ := Option.bind_eq_some_iff.mp h
  obtain ⟨⟨rest, s₂⟩, hrest, h⟩ := Option.bind_eq_some_iff.mp h
  cases h
  exact ⟨answer, s₁, rest, hread, hrest, rfl⟩

theorem readsOf_cons (i j : Nat) (record : ReadRecord IoError)
    (log : List (Nat × ReadRecord IoError)) :
    readsOf i ((j, record) :: log) = if j = i then record :: readsOf i log else readsOf i log := by
  unfold readsOf
  rw [List.filter_cons]
  by_cases hij : j = i
  · rw [if_pos hij, if_pos (beq_iff_eq.mpr hij), List.map_cons]
  · rw [if_neg hij, if_neg (by simpa using hij)]

theorem readAll_delivery {calls : List SharedRead} {log : List (Nat × ReadRecord IoError)}
    (h : readAll content calls s = some (log, s')) {i : Nat} {r : SharedReader}
    (hr : s.readers[i]? = some r) :
    Delivery (fun _ => True) (r.left content) none (readsOf i log) := by
  induction calls generalizing s log r with
  | nil =>
      cases h
      exact .nil
  | cons call calls ih =>
      obtain ⟨answer, s₁, rest, hread, hrest, rfl⟩ := readAll_cons_eq_some h
      rw [readsOf_cons]
      by_cases hi : call.reader = i
      · subst hi
        obtain ⟨r', hr', hanswer⟩ := read_self hread hr
        rw [if_pos rfl]
        exact .cons (SharedReader.read_answers hanswer) (ih hrest hr')
      · rw [if_neg hi]
        exact ih hrest ((read_other hread hi).trans hr)

theorem readAll_alone {calls : List SharedRead} {log : List (Nat × ReadRecord IoError)}
    (h : readAll content calls s = some (log, s')) {i : Nat} {alone : SharedSource}
    (hsame : alone.readers[i]? = s.readers[i]?) :
    ∃ alone', readAll content (calls.filter fun call => call.reader == i) alone =
        some (log.filter fun entry => entry.1 == i, alone') ∧
      alone'.readers[i]? = s'.readers[i]? := by
  induction calls generalizing s log alone with
  | nil =>
      cases h
      exact ⟨alone, rfl, hsame⟩
  | cons call calls ih =>
      obtain ⟨answer, s₁, rest, hread, hrest, rfl⟩ := readAll_cons_eq_some h
      by_cases hi : call.reader = i
      · subst hi
        obtain ⟨r, r', hr, hanswer, hreaders⟩ := read_eq_some hread
        obtain ⟨cursor, halone⟩ := SharedReader.read_cursor hanswer alone.cursor
        rw [hr] at hsame
        have hlt : call.reader < s.readers.length := (List.getElem?_eq_some_iff.mp hr).1
        have hlt' : call.reader < alone.readers.length := (List.getElem?_eq_some_iff.mp hsame).1
        have hstep : read content call alone =
            some (answer, { cursor, readers := alone.readers.set call.reader r' }) := by
          rw [read, hsame]
          simp only [Option.bind_eq_bind, Option.bind_some, halone]
          rfl
        have hsame' : (alone.readers.set call.reader r')[call.reader]? =
            s₁.readers[call.reader]? := by
          rw [hreaders, List.getElem?_set_self hlt, List.getElem?_set_self hlt']
        obtain ⟨alone', hrun, hend⟩ := @ih _ _ hrest ⟨cursor, _⟩ hsame'
        have hcalls : (call :: calls).filter (fun other => other.reader == call.reader) =
            call :: calls.filter fun other => other.reader == call.reader :=
          List.filter_cons_of_pos (by simp)
        have hlog : ((call.reader, (⟨call.buf, answer⟩ : ReadRecord IoError)) :: rest).filter
            (fun entry => entry.1 == call.reader) = (call.reader, ⟨call.buf, answer⟩) ::
              rest.filter fun entry => entry.1 == call.reader :=
          List.filter_cons_of_pos (by simp)
        refine ⟨alone', ?_, hend⟩
        rw [hcalls, hlog, readAll, hstep]
        simp only [Option.bind_eq_bind, Option.bind_some, hrun]
        rfl
      · rw [List.filter_cons_of_neg (by simpa using hi),
          List.filter_cons_of_neg (by simpa using hi)]
        exact ih hrest (hsame.trans (read_other hread hi).symm)

end SharedSource

/-- The reads deliver a range in order, all of it if enough of them succeed, and end where all
of it has come. -/
structure DeliversRange (range : List UInt8) (records : List (ReadRecord IoError)) : Prop where
  inOrder : delivered records <+: range
  whole : range.length ≤ (goodReads records).length → delivered records = range
  atEnd : ∀ before record after, records = before ++ record :: after → record.result = .ok [] →
    record.buf = 0 ∨ delivered before = range
  afterEnd : ∀ before after, records = before ++ after → delivered before = range →
    delivered after = []

theorem deliversRange_of_delivery {range : List UInt8} {records : List (ReadRecord IoError)}
    (h : Delivery (fun _ => True) range none records) : DeliversRange range records where
  inOrder := h.delivered_prefix
  whole := h.delivered_eq
  atEnd _ _ _ := h.delivered_of_empty
  afterEnd before after hrecords hbefore := by
    have hprefix := h.delivered_prefix
    rw [hrecords, delivered_append, hbefore] at hprefix
    have hlength := hprefix.length_le
    rw [List.length_append] at hlength
    exact List.eq_nil_of_length_eq_zero (by omega)

/-- In every order of the calls, and whatever the source delivers at a time, each reader delivers
its own range and then ends, as it would if it were the only one. -/
theorem sharedReaders_deliver {content : List UInt8} {cursor : Nat} {ranges : List (Nat × Nat)}
    {calls : List SharedRead} {log : List (Nat × ReadRecord IoError)} {s' : SharedSource}
    (h : SharedSource.readAll content calls (.new cursor ranges) = some (log, s'))
    {i : Nat} {bounds : Nat × Nat} (hbounds : ranges[i]? = some bounds) :
    DeliversRange (rangeOf content bounds) (readsOf i log) ∧
      ∃ alone, SharedSource.readAll content (calls.filter fun call => call.reader == i)
          (.new cursor ranges) = some (log.filter fun entry => entry.1 == i, alone) ∧
        alone.readers[i]? = s'.readers[i]? := by
  have hreader : (SharedSource.new cursor ranges).readers[i]? = some (.new bounds) := by
    rw [SharedSource.new, List.getElem?_map, hbounds]
    rfl
  exact ⟨deliversRange_of_delivery (SharedSource.readAll_delivery h hreader),
    SharedSource.readAll_alone h rfl⟩

def takingTurns : List SharedRead :=
  [⟨0, 4, .bytes 2⟩, ⟨1, 4, .bytes 1⟩, ⟨0, 4, .readFails .interrupted 0⟩, ⟨1, 9, .bytes 1⟩,
    ⟨0, 4, .bytes 1⟩, ⟨1, 1, .bytes 0⟩, ⟨0, 4, .bytes 3⟩]

theorem takingTurns_deliver : ∃ log s',
    SharedSource.readAll [10, 11, 12, 13, 14, 15] takingTurns (.new 6 [(1, 4), (4, 9)]) =
        some (log, s') ∧
      delivered (readsOf 0 log) = [11, 12, 13] ∧ delivered (readsOf 1 log) = [14, 15] ∧
      DeliversRange [11, 12, 13] (readsOf 0 log) ∧ DeliversRange [14, 15] (readsOf 1 log) := by
  have hrun : ∃ log s', SharedSource.readAll [10, 11, 12, 13, 14, 15] takingTurns
      (.new 6 [(1, 4), (4, 9)]) = some (log, s') ∧
        delivered (readsOf 0 log) = [11, 12, 13] ∧ delivered (readsOf 1 log) = [14, 15] :=
    ⟨_, _, rfl, rfl, rfl⟩
  obtain ⟨log, s', hrun, hfirst, hsecond⟩ := hrun
  exact ⟨log, s', hrun, hfirst, hsecond, (sharedReaders_deliver hrun (i := 0) rfl).1,
    (sharedReaders_deliver hrun (i := 1) rfl).1⟩

end Sevenz
