import Sevenz.Lib.Stream

/-!
# Decompressors over a reader

Each read of a decompressor is a script over the reader below it.  `Decodes` says what it
restores from given bytes, however the reader serves them, and that it reads all of them.
-/

namespace Sevenz.Lib

variable {ε σ ρ : Type}

def Script.Roomy : Script ε ρ → Prop
  | .finish _ => True
  | .read buf next => 0 < buf ∧ ∀ answer, (next answer).Roomy

theorem Script.roomy_finish (result : ρ) : (Script.finish result : Script ε ρ).Roomy := trivial

/-- A source with given bytes answers each read of the script with some of the next of them,
and with none only once they are all read; what it has left in the end. -/
inductive Script.Served : Script ε ρ → List UInt8 → ρ → List UInt8 → Prop
  | finish {result : ρ} {bytes : List UInt8} : Served (.finish result) bytes result bytes
  | read {buf : Nat} {next : ReadResult ε → Script ε ρ} {piece rest left : List UInt8}
      {result : ρ} (hlength : piece.length ≤ buf) (hend : piece = [] → rest = [])
      (hnext : Served (next (.ok piece)) rest result left) :
      Served (.read buf next) (piece ++ rest) result left

/-- In a state that holds some bytes, a reader answers with some of the next of them, and with
none only once they are all read. -/
def Serves (read : ReadFn ε σ) (Holds : List UInt8 → σ → Prop) : Prop :=
  ∀ (buf : Nat) (bytes : List UInt8) (s : σ), 0 < buf → Holds bytes s →
    ∃ piece rest s', read buf s = (.ok piece, s') ∧ bytes = piece ++ rest ∧
      piece.length ≤ buf ∧ (piece = [] → rest = []) ∧ Holds rest s'

theorem take_serves {buf : Nat} (hbuf : 0 < buf) (bytes : List UInt8) :
    bytes = bytes.take buf ++ bytes.drop buf ∧ (bytes.take buf).length ≤ buf ∧
      (bytes.take buf = [] → bytes.drop buf = []) := by
  refine ⟨(List.take_append_drop buf bytes).symm, List.length_take_le _ _, fun hnil => ?_⟩
  have hempty := (List.take_eq_nil_iff.mp hnil).resolve_left (Nat.ne_of_gt hbuf)
  rw [hempty, List.drop_nil]

theorem Script.Roomy.served {read : ReadFn ε σ} {Holds : List UInt8 → σ → Prop}
    (hread : Serves read Holds) {script : Script ε ρ} (h : script.Roomy) {bytes : List UInt8}
    {s : σ} (hs : Holds bytes s) :
    ∃ result records bytes' s', script.run read s = (result, records, s') ∧ Holds bytes' s' ∧
      script.Served bytes result bytes' := by
  induction script generalizing bytes s with
  | finish result => exact ⟨result, [], bytes, s, rfl, hs, .finish⟩
  | read buf next ih =>
      obtain ⟨piece, rest, s₁, hpiece, hbytes, hlength, hend, hs₁⟩ := hread buf bytes s h.1 hs
      obtain ⟨result, records, bytes', s', hrun, hs', hserved⟩ := ih (.ok piece) (h.2 _) hs₁
      refine ⟨result, ⟨buf, .ok piece⟩ :: records, bytes', s', ?_, hs', ?_⟩
      · rw [Script.run, hpiece]
        simp only [hrun]
      · rw [hbytes]
        exact .read hlength hend hserved

structure Decompressor (ε σ : Type) where
  start : σ
  read : Nat → σ → Script ε (ReadResult ε × σ)
  roomy : ∀ n s, 0 < n → (read n s).Roomy

namespace Decompressor

/-- With `packed` still to come, a decompressor in one of these states restores `content`: each
read gives some of it, and none only where all of both is gone. -/
structure Restoring (d : Decompressor ε σ)
    (At : List UInt8 → σ → List UInt8 → Prop) : Prop where
  read : ∀ {content packed packed' : List UInt8} {s s' : σ} {n : Nat} {answer : ReadResult ε},
    At content s packed → 0 < n → (d.read n s).Served packed (answer, s') packed' →
    ∃ piece content', answer = .ok piece ∧ piece.length ≤ n ∧ content = piece ++ content' ∧
      (piece = [] → content' = [] ∧ packed' = []) ∧ At content' s' packed'

def Restores (d : Decompressor ε σ) (content : List UInt8) (s : σ) (packed : List UInt8) : Prop :=
  ∃ At, d.Restoring At ∧ At content s packed

def Decodes (d : Decompressor ε σ) (packed content : List UInt8) : Prop :=
  d.Restores content d.start packed

theorem restoring_restores (d : Decompressor ε σ) : d.Restoring d.Restores where
  read := by
    intro content packed packed' s s' n answer hs hn hserved
    obtain ⟨At, hd, hat⟩ := hs
    obtain ⟨piece, content', hanswer, hlength, happend, hend, hat'⟩ := hd.read hat hn hserved
    exact ⟨piece, content', hanswer, hlength, happend, hend, At, hd, hat'⟩

end Decompressor

structure Stored where
  header : List UInt8
  mark : List UInt8
  stop : List UInt8
  length_eq : stop.length = mark.length
  stop_ne : stop ≠ mark

namespace Stored

variable (format : Stored)

def body (content : List UInt8) : List UInt8 :=
  (content.flatMap fun byte => format.mark ++ [byte]) ++ format.stop

def pack (content : List UInt8) : List UInt8 := format.header ++ format.body content

inductive State where
  | header
  | blocks
  | done
  deriving DecidableEq

def readBytes (eof : Script ε ρ) : Nat → List UInt8 → (List UInt8 → Script ε ρ) → Script ε ρ
  | 0, got, next => next got
  | n + 1, got, next =>
      .read 1 fun answer =>
        match answer with
        | .ok (byte :: _) => readBytes eof n (got ++ [byte]) next
        | _ => eof

def readBlock (eof : ε) : Script ε (ReadResult ε × State) :=
  let fail := .finish (.error eof, .done)
  readBytes fail format.mark.length [] fun mark =>
    if mark = format.mark then
      readBytes fail 1 [] fun byte => .finish (.ok byte, .blocks)
    else .finish (.ok [], .done)

theorem roomy_readBytes {eof : Script ε ρ} (heof : eof.Roomy)
    {next : List UInt8 → Script ε ρ} (hnext : ∀ got, (next got).Roomy) (n : Nat)
    (got : List UInt8) : (readBytes eof n got next).Roomy := by
  induction n generalizing got with
  | zero => exact hnext got
  | succ n ih =>
      refine ⟨Nat.one_pos, fun answer => ?_⟩
      match answer with
      | .ok (byte :: _) => exact ih _
      | .ok [] => exact heof
      | .error _ => exact heof

theorem roomy_readBlock (eof : ε) : (format.readBlock eof).Roomy := by
  apply roomy_readBytes (Script.roomy_finish _)
  intro mark
  split
  · exact roomy_readBytes (Script.roomy_finish _) (fun _ => Script.roomy_finish _) _ _
  · exact Script.roomy_finish _

def decompressor (eof : ε) : Decompressor ε State where
  start := .header
  read _ s :=
    match s with
    | .header =>
        readBytes (.finish (.error eof, .done)) format.header.length [] fun _ =>
          format.readBlock eof
    | .blocks => format.readBlock eof
    | .done => .finish (.ok [], .done)
  roomy _ s _ := by
    cases s with
    | header =>
        exact roomy_readBytes (Script.roomy_finish _) (fun _ => format.roomy_readBlock eof) _ _
    | blocks => exact format.roomy_readBlock eof
    | done => exact Script.roomy_finish _

theorem served_readBytes (bytes : List UInt8) {eof : Script ε ρ}
    {next : List UInt8 → Script ε ρ} {got rest left : List UInt8} {result : ρ}
    (h : (readBytes eof bytes.length got next).Served (bytes ++ rest) result left) :
    (next (got ++ bytes)).Served rest result left := by
  induction bytes generalizing got with
  | nil => simpa [readBytes] using h
  | cons byte bytes ih =>
      rw [List.length_cons, readBytes] at h
      generalize hall : byte :: bytes ++ rest = all at h
      cases h with
      | @read _ _ piece rest' _ _ hlength hend hnext =>
          match piece with
          | [] =>
              rw [hend rfl] at hall
              simp at hall
          | [b] =>
              simp at hall
              obtain ⟨rfl, rfl⟩ := hall
              simpa using ih hnext
          | _ :: _ :: _ => simp at hlength

def At (content : List UInt8) (s : State) (packed : List UInt8) : Prop :=
  match s with
  | .header => packed = format.pack content
  | .blocks => packed = format.body content
  | .done => content = [] ∧ packed = []

theorem served_readBlock {eof : ε} {content packed' : List UInt8} {answer : ReadResult ε}
    {s' : State} (h : (format.readBlock eof).Served (format.body content) (answer, s') packed') :
    ∃ piece content', answer = .ok piece ∧ piece.length ≤ 1 ∧ content = piece ++ content' ∧
      (piece = [] → content' = [] ∧ packed' = []) ∧ format.At content' s' packed' := by
  cases content with
  | nil =>
      have hbody : format.body [] = format.stop ++ [] := by simp [body]
      rw [hbody, readBlock, ← format.length_eq] at h
      have h := served_readBytes _ h
      rw [List.nil_append, if_neg format.stop_ne] at h
      cases h
      exact ⟨[], [], rfl, Nat.zero_le _, rfl, fun _ => ⟨rfl, rfl⟩, rfl, rfl⟩
  | cons byte content =>
      have hbody : format.body (byte :: content) =
          format.mark ++ ([byte] ++ format.body content) := by simp [body]
      rw [hbody, readBlock] at h
      have h := served_readBytes _ h
      rw [List.nil_append, if_pos rfl] at h
      have h := served_readBytes [byte] h
      cases h
      exact ⟨[byte], content, rfl, Nat.le_refl _, rfl, by simp, rfl⟩

theorem restoring (eof : ε) : (format.decompressor eof).Restoring format.At where
  read := by
    intro content packed packed' s s' n answer hs hn h
    have hblock (h : (format.readBlock eof).Served (format.body content) (answer, s') packed') :=
      format.served_readBlock h
    cases s with
    | header =>
        obtain rfl : packed = format.pack content := hs
        obtain ⟨piece, content', hanswer, hlength, hrest⟩ := hblock (served_readBytes _ h)
        exact ⟨piece, content', hanswer, Nat.le_trans hlength hn, hrest⟩
    | blocks =>
        obtain rfl : packed = format.body content := hs
        obtain ⟨piece, content', hanswer, hlength, hrest⟩ := hblock h
        exact ⟨piece, content', hanswer, Nat.le_trans hlength hn, hrest⟩
    | done =>
        obtain ⟨rfl, rfl⟩ := hs
        cases h
        exact ⟨[], [], rfl, Nat.zero_le _, rfl, fun _ => ⟨rfl, rfl⟩, rfl, rfl⟩

theorem decodes_pack (eof : ε) (content : List UInt8) :
    (format.decompressor eof).Decodes (format.pack content) content :=
  ⟨format.At, format.restoring eof, rfl⟩

end Stored

/-- Reads into buffers with room give the content, and then its end. -/
def ReadsBack (retry : ε → Bool) (read : ReadFn ε σ) (s : σ) (content : List UInt8) : Prop :=
  ∀ (bufs : Nat → Nat) (rounds : Nat), content.length < rounds →
    ((Script.readToEnd retry bufs (fun e => some (.error e)) (fun data => some (.ok data)) none
      rounds []).run read s).1 = some (Except.ok (ε := ε) content)

/-- Each read gives some of what the state has left to give, and none only where that is
nothing. -/
def Yields (read : ReadFn ε σ) (Left : List UInt8 → σ → Prop) : Prop :=
  ∀ (buf : Nat) (content : List UInt8) (s : σ), 0 < buf → Left content s →
    (content = [] ∧ ∃ s', read buf s = (.ok [], s')) ∨
      ∃ piece content' s', piece ≠ [] ∧ content = piece ++ content' ∧
        read buf s = (.ok piece, s') ∧ Left content' s'

theorem Yields.readToEnd {read : ReadFn ε σ} {Left : List UInt8 → σ → Prop}
    (h : Yields read Left) {retry : ε → Bool} {bufs : Nat → Nat} {onError : ε → ρ}
    {onEnd : List UInt8 → ρ} {outOfRounds : ρ} {rounds : Nat} {content : List UInt8} {s : σ}
    (hs : Left content s) (hrounds : content.length < rounds) (data : List UInt8) :
    ((Script.readToEnd retry bufs onError onEnd outOfRounds rounds data).run read s).1 =
      onEnd (data ++ content) := by
  induction rounds generalizing content s data with
  | zero => exact absurd hrounds (Nat.not_lt_zero _)
  | succ rounds ih =>
      cases h _ content s (Nat.succ_pos (bufs rounds)) hs with
      | inl hnil =>
          obtain ⟨rfl, s', hread⟩ := hnil
          rw [Script.readToEnd, Script.run, hread, List.append_nil]
          rfl
      | inr hpiece =>
          obtain ⟨piece, content', s', hne, rfl, hread, hs'⟩ := hpiece
          obtain ⟨byte, rest, rfl⟩ := List.exists_cons_of_ne_nil hne
          have hlength : content'.length < rounds := by
            simp only [List.length_append, List.length_cons] at hrounds
            omega
          have hrest := ih hs' hlength (data ++ byte :: rest)
          rw [Script.readToEnd, Script.run, hread]
          simp only []
          rw [hrest, List.append_assoc]

theorem Serves.yields_boundedRead {read : ReadFn ε σ} {Holds : List UInt8 → σ → Prop}
    (h : Serves read Holds) :
    Yields (boundedRead read) fun content s => Holds content s.2 ∧ s.1 = content.length := by
  rintro buf content ⟨remain, s⟩ hbuf ⟨hs, rfl⟩
  by_cases hnil : content = []
  · subst hnil
    exact .inl ⟨rfl, _, rfl⟩
  · have hpos := List.length_pos_of_ne_nil hnil
    obtain ⟨piece, rest, s', hread, rfl, hlength, hend, hs'⟩ :=
      h (min buf content.length) content s (by omega) hs
    refine .inr ⟨piece, rest, (rest.length, s'), fun hpiece => hnil ?_, rfl, ?_, hs', rfl⟩
    · rw [hpiece, hend hpiece, List.append_nil]
    · rw [boundedRead, if_neg (Nat.ne_of_gt hpos), hread]
      dsimp only
      rw [List.length_append, Nat.add_sub_cancel_left]

theorem Serves.bounded {read : ReadFn ε σ} {Holds : List UInt8 → σ → Prop} (h : Serves read Holds)
    (rest : List UInt8) :
    Serves (boundedRead read) fun content s =>
      s.1 = content.length ∧ Holds (content ++ rest) s.2 := by
  rintro buf content ⟨remain, s⟩ hbuf ⟨hremain, hs⟩
  dsimp only at hremain hs
  subst hremain
  by_cases hnil : content = []
  · subst hnil
    exact ⟨[], [], (0, s), rfl, rfl, Nat.zero_le _, fun _ => rfl, rfl, hs⟩
  · have hpos := List.length_pos_of_ne_nil hnil
    obtain ⟨piece, left, s', hread, hcontent, hlength, hend, hs'⟩ :=
      h (min buf content.length) _ s (by omega) hs
    have hprefix : piece <+: content :=
      List.prefix_of_prefix_length_le ⟨left, hcontent.symm⟩ (List.prefix_append _ _) (by omega)
    obtain ⟨content', rfl⟩ := hprefix
    rw [List.append_assoc] at hcontent
    obtain rfl := List.append_cancel_left hcontent
    refine ⟨piece, content', (content'.length, s'), ?_, rfl, by omega, fun hpiece => ?_, rfl, hs'⟩
    · rw [boundedRead, if_neg (Nat.ne_of_gt hpos), hread]
      dsimp only
      rw [List.length_append, Nat.add_sub_cancel_left]
    · exact (List.append_eq_nil_iff.mp (hend hpiece)).1

theorem Serves.readToEnd {read : ReadFn ε σ} {Holds : List UInt8 → σ → Prop}
    (h : Serves read Holds) {retry : ε → Bool} {bufs : Nat → Nat} {onError : ε → ρ}
    {onEnd : List UInt8 → ρ} {outOfRounds : ρ} {rounds : Nat} {content : List UInt8} {s : σ}
    (hs : Holds content s) (hrounds : content.length < rounds) (data : List UInt8) :
    ∃ records s', (Script.readToEnd retry bufs onError onEnd outOfRounds rounds data).run read s =
      (onEnd (data ++ content), records, s') ∧ Holds [] s' := by
  induction rounds generalizing content s data with
  | zero => exact absurd hrounds (Nat.not_lt_zero _)
  | succ rounds ih =>
      obtain ⟨piece, rest, s₁, hread, rfl, -, hend, hs₁⟩ :=
        h _ content s (Nat.succ_pos (bufs rounds)) hs
      rw [Script.readToEnd, Script.run, hread]
      cases piece with
      | nil =>
          obtain rfl := hend rfl
          rw [List.append_nil, List.append_nil]
          exact ⟨_, s₁, rfl, hs₁⟩
      | cons byte piece =>
          simp only [List.cons_append, List.length_cons, List.length_append] at hrounds
          obtain ⟨records, s', hrun, hs'⟩ := ih hs₁ (by omega) (data ++ byte :: piece)
          refine ⟨⟨bufs rounds + 1, .ok (byte :: piece)⟩ :: records, s', ?_, hs'⟩
          dsimp only
          rw [hrun, List.append_assoc]

/-- A stream gives the content, some of it with each read into a buffer with room, and ends. -/
def Stream.Delivers (stream : Stream ε) (content : List UInt8) : Prop :=
  ∃ Holds, Serves stream.read Holds ∧ Holds content []

theorem Stream.ofContent_delivers (content : List UInt8) :
    (Stream.ofContent content : Stream ε).Delivers content := by
  refine ⟨fun rest history => rest = content.drop history.sum, ?_, rfl⟩
  rintro buf _ history hbuf rfl
  obtain ⟨happend, hlength, hend⟩ := take_serves hbuf (content.drop history.sum)
  refine ⟨_, _, history ++ [buf], ?_, happend, hlength, hend, ?_⟩
  · change (Except.ok (((content.drop history.sum).take buf).take buf), _) = _
    rw [List.take_take, Nat.min_self]
  · change List.drop buf _ = _
    rw [List.drop_drop, List.sum_append, List.sum_singleton]

theorem Yields.readsBack_iff {read : ReadFn ε σ} {Left : List UInt8 → σ → Prop}
    (h : Yields read Left) (retry : ε → Bool) {content : List UInt8} {s : σ}
    (hs : Left content s) (content' : List UInt8) :
    ReadsBack retry read s content' ↔ content' = content := by
  constructor
  · intro hback
    have hboth := hback (fun _ => 0) (max content'.length content.length + 1) (by omega)
    rw [h.readToEnd hs (by omega) []] at hboth
    simpa using hboth.symm
  · rintro rfl bufs rounds hrounds
    rw [h.readToEnd hs hrounds [], List.nil_append]

end Sevenz.Lib
