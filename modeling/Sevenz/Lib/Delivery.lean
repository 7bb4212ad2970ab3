import Sevenz.Lib.Decompressor

/-!
# What a stream answers, read by read

`Answers` is a stream as its caller sees it: it has some content left to deliver and then ends,
or first fails once.  An error from below may come at any read and changes nothing.  A reader
whose every read is such an answer delivers its content in order, all of it and nothing else.
-/

namespace Sevenz.Lib

variable {ε σ : Type}

/-- One answer into a buffer of a given length: what was left and how the stream was to end,
then the same after the answer.  Errors from below are those that `passing` tells. -/
inductive Answers (passing : ε → Prop) (buf : Nat) :
    List UInt8 → Option ε → ReadResult ε → List UInt8 → Option ε → Prop
  | idle {content : List UInt8} {ending : Option ε} (hbuf : buf = 0) :
      Answers passing buf content ending (.ok []) content ending
  | piece {piece content : List UInt8} {ending : Option ε} (hne : piece ≠ [])
      (hlength : piece.length ≤ buf) :
      Answers passing buf (piece ++ content) ending (.ok piece) content ending
  | pass {content : List UInt8} {ending : Option ε} {e : ε} (he : passing e) :
      Answers passing buf content ending (.error e) content ending
  | fail {e : ε} : Answers passing buf [] (some e) (.error e) [] none
  | finished : Answers passing buf [] none (.ok []) [] none

inductive Delivery (passing : ε → Prop) :
    List UInt8 → Option ε → List (ReadRecord ε) → Prop
  | nil {content : List UInt8} {ending : Option ε} : Delivery passing content ending []
  | cons {buf : Nat} {content content' : List UInt8} {ending ending' : Option ε}
      {answer : ReadResult ε} {records : List (ReadRecord ε)}
      (hanswer : Answers passing buf content ending answer content' ending')
      (hrest : Delivery passing content' ending' records) :
      Delivery passing content ending (⟨buf, answer⟩ :: records)

def readErrors (records : List (ReadRecord ε)) : List ε :=
  records.filterMap fun record =>
    match record.result with
    | .ok _ => none
    | .error e => some e

def roomyReads (records : List (ReadRecord ε)) : List (ReadRecord ε) :=
  records.filter fun record => 0 < record.buf

def goodReads (records : List (ReadRecord ε)) : List (ReadRecord ε) :=
  records.filter fun record => 0 < record.buf && record.result.isOk

namespace Delivery

variable {passing : ε → Prop} {content : List UInt8} {ending : Option ε}
  {records : List (ReadRecord ε)}

/-- Nothing is lost on the way, nothing comes twice and nothing out of order. -/
theorem delivered_prefix (h : Delivery passing content ending records) :
    delivered records <+: content := by
  induction h with
  | nil => exact List.nil_prefix
  | cons hanswer _ ih =>
      cases hanswer with
      | idle _ => exact ih
      | piece _ _ => exact (List.prefix_append_right_inj _).mpr ih
      | pass _ => exact ih
      | fail => exact ih
      | finished => exact ih

theorem delivered_nil (h : Delivery passing [] ending records) : delivered records = [] :=
  List.prefix_nil.mp h.delivered_prefix

theorem goodReads_cons_le (record : ReadRecord ε) (records : List (ReadRecord ε)) :
    (goodReads (record :: records)).length ≤ (goodReads records).length + 1 := by
  rw [goodReads, List.filter_cons]
  split
  · exact Nat.le_refl _
  · exact Nat.le_succ _

theorem goodReads_cons_error (buf : Nat) (e : ε) (records : List (ReadRecord ε)) :
    goodReads (⟨buf, .error e⟩ :: records) = goodReads records := by
  apply List.filter_cons_of_neg
  rw [Bool.and_eq_true]
  exact fun h => absurd h.2 Bool.false_ne_true

theorem delivered_eq (h : Delivery passing content ending records)
    (hreads : content.length ≤ (goodReads records).length) : delivered records = content := by
  induction h with
  | nil => exact (List.eq_nil_of_length_eq_zero (Nat.le_zero.mp hreads)).symm
  | @cons buf _ _ _ _ answer records hanswer hrest ih =>
      cases hanswer with
      | idle hbuf =>
          subst hbuf
          exact ih hreads
      | @piece piece _ _ hne _ =>
          have hpos := List.length_pos_of_ne_nil hne
          have hle := goodReads_cons_le ⟨buf, .ok piece⟩ records
          rw [List.length_append] at hreads
          rw [delivered_cons_ok, ih (by omega)]
      | pass _ =>
          rw [goodReads_cons_error] at hreads
          exact ih hreads
      | fail => exact hrest.delivered_nil
      | finished => exact hrest.delivered_nil

theorem passing_or_ending (h : Delivery passing content ending records) :
    ∀ e ∈ readErrors records, passing e ∨ ending = some e := by
  induction h with
  | nil => exact List.forall_mem_nil _
  | cons hanswer _ ih =>
      cases hanswer with
      | idle _ => exact ih
      | piece _ _ => exact ih
      | pass he => exact List.forall_mem_cons.mpr ⟨Or.inl he, ih⟩
      | fail =>
          refine List.forall_mem_cons.mpr ⟨Or.inr rfl, fun e he => Or.inl ?_⟩
          exact (ih e he).resolve_right nofun
      | finished => exact ih

theorem readErrors_eq_nil {content : List UInt8} {records : List (ReadRecord ε)}
    (h : Delivery (fun _ => False) content none records) : readErrors records = [] := by
  apply List.eq_nil_iff_forall_not_mem.mpr
  intro e he
  cases h.passing_or_ending e he with
  | inl hfalse => exact hfalse
  | inr hnone => cases hnone

theorem complete (h : Delivery (fun _ => False) content ending records)
    (hreads : content.length < (roomyReads records).length) :
    delivered records = content ∧ readErrors records = ending.toList := by
  induction h with
  | nil => exact absurd hreads (Nat.not_lt_zero _)
  | @cons buf _ _ _ _ answer records hanswer hrest ih =>
      cases hanswer with
      | idle hbuf =>
          subst hbuf
          exact ih hreads
      | @piece piece _ _ hne _ =>
          have hpos := List.length_pos_of_ne_nil hne
          have hle : (roomyReads (⟨buf, .ok piece⟩ :: records)).length ≤
              (roomyReads records).length + 1 := by
            rw [roomyReads, List.filter_cons]
            split
            · exact Nat.le_refl _
            · exact Nat.le_succ _
          rw [List.length_append] at hreads
          obtain ⟨hdelivered, herrors⟩ := ih (by omega)
          rw [delivered_cons_ok, hdelivered]
          exact ⟨rfl, herrors⟩
      | pass he => exact he.elim
      | @fail e => exact ⟨hrest.delivered_nil, congrArg (e :: ·) hrest.readErrors_eq_nil⟩
      | finished => exact ⟨hrest.delivered_nil, hrest.readErrors_eq_nil⟩

theorem delivered_of_empty (h : Delivery passing content none records)
    {before after : List (ReadRecord ε)} {record : ReadRecord ε}
    (hrecords : records = before ++ record :: after) (hempty : record.result = .ok []) :
    record.buf = 0 ∨ delivered before = content := by
  induction before generalizing content records with
  | nil =>
      subst hrecords
      cases h with
      | cons hanswer hrest =>
          dsimp only at hempty
          cases hanswer with
          | idle hbuf => exact Or.inl hbuf
          | piece hne _ => exact absurd (Except.ok.inj hempty) hne
          | pass _ => cases hempty
          | finished => exact Or.inr rfl
  | cons first before ih =>
      subst hrecords
      cases h with
      | cons hanswer hrest =>
          cases hanswer with
          | idle _ => exact ih hrest rfl
          | piece _ _ =>
              apply (ih hrest rfl).imp_right
              intro hbefore
              rw [delivered_cons_ok, hbefore]
          | pass _ => exact ih hrest rfl
          | finished => exact ih hrest rfl

theorem delivered_eq_of_ended (h : Delivery passing content none records)
    {record : ReadRecord ε} (hrecord : record ∈ records) (hbuf : 0 < record.buf)
    (hempty : record.result = .ok []) : delivered records = content := by
  obtain ⟨before, after, rfl⟩ := List.append_of_mem hrecord
  have hbefore := (h.delivered_of_empty rfl hempty).resolve_left (Nat.ne_of_gt hbuf)
  refine h.delivered_prefix.eq_of_length_le ?_
  rw [delivered_append, ← hbefore, List.length_append]
  exact Nat.le_add_right _ _

theorem append {records' : List (ReadRecord ε)}
    (h : Delivery passing content none (records ++ records')) :
    ∃ rest, content = delivered records ++ rest ∧ Delivery passing content none records ∧
      Delivery passing rest none records' := by
  induction records generalizing content with
  | nil => exact ⟨content, rfl, .nil, h⟩
  | cons record records ih =>
      cases h with
      | cons hanswer hrest =>
          cases hanswer with
          | idle hbuf =>
              obtain ⟨rest, hcontent, hfirst, hlater⟩ := ih hrest
              exact ⟨rest, hcontent, .cons (.idle hbuf) hfirst, hlater⟩
          | piece hne hlength =>
              obtain ⟨rest, hcontent, hfirst, hlater⟩ := ih hrest
              refine ⟨rest, ?_, .cons (.piece hne hlength) hfirst, hlater⟩
              rw [delivered_cons_ok, List.append_assoc, ← hcontent]
          | pass he =>
              obtain ⟨rest, hcontent, hfirst, hlater⟩ := ih hrest
              exact ⟨rest, hcontent, .cons (.pass he) hfirst, hlater⟩
          | finished =>
              obtain ⟨rest, hcontent, hfirst, hlater⟩ := ih hrest
              exact ⟨rest, hcontent, .cons .finished hfirst, hlater⟩

end Delivery

/-- The reads were made one after the other, each in a state and with a buffer that `Safe`
admits. -/
inductive TraceWhere (Safe : Nat → σ → Prop) (read : ReadFn ε σ) :
    σ → List (ReadRecord ε) → σ → Prop
  | nil {s : σ} : TraceWhere Safe read s [] s
  | cons {s s₁ s' : σ} {buf : Nat} {answer : ReadResult ε} {records : List (ReadRecord ε)}
      (hsafe : Safe buf s) (hread : read buf s = (answer, s₁))
      (hrest : TraceWhere Safe read s₁ records s') :
      TraceWhere Safe read s (⟨buf, answer⟩ :: records) s'

theorem Trace.traceWhere {read : ReadFn ε σ} {s s' : σ} {records : List (ReadRecord ε)}
    (h : Trace read s records s') : TraceWhere (fun _ _ => True) read s records s' := by
  induction h with
  | nil => exact .nil
  | cons hread _ ih => exact .cons trivial hread ih

/-- Each safe read is an answer of a stream that has left what `Left` says of the state. -/
def AnswersWhere (passing : ε → Prop) (Safe : Nat → σ → Prop) (read : ReadFn ε σ)
    (Left : List UInt8 → Option ε → σ → Prop) : Prop :=
  ∀ ⦃buf : Nat⦄ ⦃content : List UInt8⦄ ⦃ending : Option ε⦄ ⦃s s' : σ⦄ ⦃answer : ReadResult ε⦄,
    Safe buf s → Left content ending s → read buf s = (answer, s') →
      ∃ content' ending', Answers passing buf content ending answer content' ending' ∧
        Left content' ending' s'

theorem Answers.content_eq {passing : ε → Prop} {buf : Nat} {content content' : List UInt8}
    {ending ending' : Option ε} {answer : ReadResult ε}
    (h : Answers passing buf content ending answer content' ending') :
    content = answer.bytes ++ content' := by
  cases h with
  | idle _ => rfl
  | piece _ _ => rfl
  | pass _ => rfl
  | fail => rfl
  | finished => rfl

/-- A run of safe reads delivers what the first state has left, but for what the last state has
left. -/
theorem AnswersWhere.delivery {passing : ε → Prop} {Safe : Nat → σ → Prop} {read : ReadFn ε σ}
    {Left : List UInt8 → Option ε → σ → Prop} (h : AnswersWhere passing Safe read Left)
    {content : List UInt8} {ending : Option ε} {s s' : σ} {records : List (ReadRecord ε)}
    (hs : Left content ending s) (htrace : TraceWhere Safe read s records s') :
    Delivery passing content ending records ∧
      ∃ content' ending', Left content' ending' s' ∧ content = delivered records ++ content' := by
  induction htrace generalizing content ending with
  | nil => exact ⟨.nil, content, ending, hs, rfl⟩
  | @cons _ _ _ buf answer records hsafe hread _ ih =>
      obtain ⟨content₁, ending₁, hanswer, hleft⟩ := h hsafe hs hread
      obtain ⟨hdelivery, content', ending', hleft', hcontent⟩ := ih hleft
      refine ⟨.cons hanswer hdelivery, content', ending', hleft', ?_⟩
      rw [hanswer.content_eq, hcontent, delivered_cons, List.append_assoc]

def readInTurn (read : ReadFn ε σ) : List Nat → σ → List (ReadRecord ε) × σ
  | [], s => ([], s)
  | buf :: bufs, s =>
      let (answer, s) := read buf s
      let (records, s) := readInTurn read bufs s
      (⟨buf, answer⟩ :: records, s)

theorem readInTurn_traceWhere {Safe : Nat → σ → Prop} (read : ReadFn ε σ) {bufs : List Nat}
    (h : ∀ buf ∈ bufs, ∀ s, Safe buf s) (s : σ) :
    TraceWhere Safe read s (readInTurn read bufs s).1 (readInTurn read bufs s).2 := by
  induction bufs generalizing s with
  | nil => exact .nil
  | cons buf bufs ih =>
      obtain ⟨hbuf, hbufs⟩ := List.forall_mem_cons.mp h
      exact .cons (hbuf s) rfl (ih hbufs _)

theorem readInTurn_trace (read : ReadFn ε σ) (bufs : List Nat) (s : σ) :
    Trace read s (readInTurn read bufs s).1 (readInTurn read bufs s).2 := by
  induction bufs generalizing s with
  | nil => exact .nil
  | cons buf bufs ih => exact .cons rfl (ih _)

/-- In a state that holds some bytes, a reader answers with some of the next of them, and with
none only once they are all read; or it fails, and holds them still. -/
def ServesUnless (fails : ε → Prop) (read : ReadFn ε σ) (Holds : List UInt8 → σ → Prop) : Prop :=
  ∀ (buf : Nat) (bytes : List UInt8) (s : σ), 0 < buf → Holds bytes s →
    (∃ e s', read buf s = (.error e, s') ∧ fails e ∧ Holds bytes s') ∨
      ∃ piece rest s', read buf s = (.ok piece, s') ∧ bytes = piece ++ rest ∧
        piece.length ≤ buf ∧ (piece = [] → rest = []) ∧ Holds rest s'

theorem Serves.unless {read : ReadFn ε σ} {Holds : List UInt8 → σ → Prop}
    (h : Serves read Holds) : ServesUnless (fun _ => False) read Holds :=
  fun buf bytes s hbuf hs => Or.inr (h buf bytes s hbuf hs)

theorem ServesUnless.serves {read : ReadFn ε σ} {Holds : List UInt8 → σ → Prop}
    (h : ServesUnless (fun _ => False) read Holds) : Serves read Holds := by
  intro buf bytes s hbuf hs
  cases h buf bytes s hbuf hs with
  | inl hfails =>
      obtain ⟨_, _, _, hfalse, _⟩ := hfails
      exact hfalse.elim
  | inr hpiece => exact hpiece

def scriptedRead : ReadFn ε (List (ReadResult ε)) := fun buf s =>
  match s with
  | [] => (.ok [], [])
  | .error e :: answers => (.error e, answers)
  | .ok bytes :: answers =>
      let rest := bytes.drop buf
      (.ok (bytes.take buf), if rest = [] then answers else .ok rest :: answers)

/-- An answer that does not end a script: some bytes, or one of the errors told. -/
def Told (fails : ε → Prop) : ReadResult ε → Prop
  | .ok bytes => bytes ≠ []
  | .error e => fails e

instance Told.decidable (fails : ε → Prop) [DecidablePred fails] (answer : ReadResult ε) :
    Decidable (Told fails answer) :=
  match answer with
  | .ok bytes => inferInstanceAs (Decidable (bytes ≠ []))
  | .error e => inferInstanceAs (Decidable (fails e))

structure Scripted (fails : ε → Prop) (bytes : List UInt8) (s : List (ReadResult ε)) : Prop where
  bytes_eq : s.flatMap ReadResult.bytes = bytes
  told : ∀ answer ∈ s, Told fails answer

theorem scriptedRead_serves (fails : ε → Prop) :
    ServesUnless fails (scriptedRead (ε := ε)) (Scripted fails) := by
  intro buf bytes s hbuf hs
  match s, hs with
  | [], hs =>
      exact Or.inr ⟨[], [], [], rfl, hs.bytes_eq.symm, Nat.zero_le _, fun _ => rfl, rfl, hs.told⟩
  | .error e :: answers, hs =>
      obtain ⟨hfirst, htold⟩ := List.forall_mem_cons.mp hs.told
      exact Or.inl ⟨e, answers, rfl, hfirst, hs.bytes_eq, htold⟩
  | .ok piece :: answers, hs =>
      obtain ⟨hfirst, htold⟩ := List.forall_mem_cons.mp hs.told
      have hbytes : bytes = piece ++ answers.flatMap ReadResult.bytes := hs.bytes_eq.symm
      obtain ⟨hsplit, hlength, -⟩ := take_serves hbuf piece
      have hne : piece.take buf ≠ [] := by
        intro hnil
        have hpiece := (List.take_eq_nil_iff.mp hnil).resolve_left (Nat.ne_of_gt hbuf)
        exact hfirst hpiece
      refine Or.inr ⟨piece.take buf, piece.drop buf ++ answers.flatMap ReadResult.bytes, _, rfl, ?_,
        hlength, fun hnil => absurd hnil hne, ?_⟩
      · rw [hbytes, ← List.append_assoc, ← hsplit]
      · by_cases hrest : piece.drop buf = []
        · rw [if_pos hrest, hrest]
          exact ⟨rfl, htold⟩
        · rw [if_neg hrest]
          exact ⟨rfl, List.forall_mem_cons.mpr ⟨hrest, htold⟩⟩

end Sevenz.Lib
