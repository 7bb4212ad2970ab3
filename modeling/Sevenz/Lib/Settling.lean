import Sevenz.Lib.Decompressor
import Sevenz.Lib.Bytes

/-!
# Results that do not depend on how the input is cut

`Independent` is a decompressor whose content, and whose end, are a matter of the packed bytes
alone, however the reader below serves them.  A reader `Gives` what it has left in the same
sense: some of it with each read into a buffer with room, and then its end or an error.
-/

namespace Sevenz.Lib

variable {ε σ τ α β ρ : Type}

/-- How a decompressor ends: well, with some packed bytes it has not read, or with an error. -/
inductive Ending where
  | ended (left : List UInt8)
  | failed
  deriving DecidableEq

namespace Decompressor

/-- In these states, and with `packed` still to come, each read gives some of the content, or
comes to the end there is. -/
structure Settling (d : Decompressor ε σ)
    (At : List UInt8 → Ending → σ → List UInt8 → Prop) : Prop where
  read : ∀ {content packed packed' : List UInt8} {ending : Ending} {s s' : σ} {n : Nat}
    {answer : ReadResult ε}, At content ending s packed → 0 < n →
      (d.read n s).Served packed (answer, s') packed' →
        (∃ piece content', answer = .ok piece ∧ piece ≠ [] ∧ content = piece ++ content' ∧
          At content' ending s' packed') ∨
        (content = [] ∧ ending = .ended packed' ∧ answer = .ok []) ∨
        (content = [] ∧ ending = .failed ∧ ∃ e, answer = .error e)

def Settles (d : Decompressor ε σ) (content : List UInt8) (ending : Ending) (s : σ)
    (packed : List UInt8) : Prop :=
  ∃ At, d.Settling At ∧ At content ending s packed

theorem settling_settles (d : Decompressor ε σ) : d.Settling d.Settles where
  read := by
    intro content packed packed' ending s s' n answer hs hn hserved
    obtain ⟨At, hd, hat⟩ := hs
    refine (hd.read hat hn hserved).imp_left ?_
    rintro ⟨piece, content', hanswer, hne, happend, hat'⟩
    exact ⟨piece, content', hanswer, hne, happend, At, hd, hat'⟩

/-- Of the same packed bytes, a new decompressor always gives the same content and the same
end. -/
def Independent (d : Decompressor ε σ) : Prop :=
  ∀ packed, ∃ content ending, d.Settles content ending d.start packed

theorem Restores.settles {d : Decompressor ε σ} {content packed : List UInt8} {s : σ}
    (h : d.Restores content s packed) : d.Settles content (.ended []) s packed := by
  refine ⟨fun content ending s packed => d.Restores content s packed ∧ ending = .ended [],
    ⟨?_⟩, h, rfl⟩
  rintro content packed packed' ending s s' n answer ⟨hs, rfl⟩ hn hserved
  obtain ⟨piece, content', rfl, -, rfl, hend, hs'⟩ := d.restoring_restores.read hs hn hserved
  by_cases hpiece : piece = []
  · obtain ⟨rfl, rfl⟩ := hend hpiece
    exact .inr (.inl ⟨by rw [hpiece, List.nil_append], rfl, by rw [hpiece]⟩)
  · exact .inl ⟨piece, content', rfl, hpiece, rfl, hs', rfl⟩

theorem Settles.read {d : Decompressor ε σ} {content packed : List UInt8} {ending : Ending} {s : σ}
    (hs : d.Settles content ending s packed) {read : ReadFn ε τ} {Holds : List UInt8 → τ → Prop}
    (hread : Serves read Holds) {t : τ} (ht : Holds packed t) {n : Nat} (hn : 0 < n) :
    ∃ answer s' records packed' t', (d.read n s).run read t = ((answer, s'), records, t') ∧
      Holds packed' t' ∧
      ((∃ piece content', answer = .ok piece ∧ piece ≠ [] ∧ content = piece ++ content' ∧
          d.Settles content' ending s' packed') ∨
        (content = [] ∧ ending = .ended packed' ∧ answer = .ok []) ∨
        (content = [] ∧ ending = .failed ∧ ∃ e, answer = .error e)) := by
  obtain ⟨⟨answer, s'⟩, records, packed', t', hrun, ht', hserved⟩ :=
    (d.roomy n s hn).served hread ht
  exact ⟨answer, s', records, packed', t', hrun, ht', d.settling_settles.read hs hn hserved⟩

end Decompressor

/-- Reads into buffers of the given sizes, up to an error or to an answer with no bytes into a
buffer with room: what came of it, if it came to that. -/
def readUntilEnd (read : ReadFn ε σ) : List Nat → σ → Option (Except ε (List UInt8))
  | [], _ => none
  | buf :: bufs, s =>
      match read buf s with
      | (.error e, _) => some (.error e)
      | (.ok piece, s) =>
          if piece = [] ∧ 0 < buf then some (.ok [])
          else (readUntilEnd read bufs s).map fun result => result.map (piece ++ ·)

theorem readUntilEnd_end {read : ReadFn ε σ} {buf : Nat} (hbuf : 0 < buf) {s s' : σ}
    (hread : read buf s = (.ok [], s')) (bufs : List Nat) :
    readUntilEnd read (buf :: bufs) s = some (.ok []) := by
  rw [readUntilEnd, hread]
  exact if_pos ⟨rfl, hbuf⟩

theorem readUntilEnd_noRoom {read : ReadFn ε σ} {piece : List UInt8} {s s' : σ}
    (hread : read 0 s = (.ok piece, s')) (bufs : List Nat) :
    readUntilEnd read (0 :: bufs) s =
      (readUntilEnd read bufs s').map fun result => result.map (piece ++ ·) := by
  rw [readUntilEnd, hread]
  exact if_neg fun h => Nat.lt_irrefl 0 h.2

theorem readUntilEnd_noRooms {read : ReadFn ε σ} {bufs : List Nat} (hbufs : ∀ buf ∈ bufs, buf = 0)
    {s : σ} {result : Except ε (List UInt8)} (h : readUntilEnd read bufs s = some result) :
    result.toOption = none := by
  induction bufs generalizing s result with
  | nil => cases h
  | cons buf bufs ih =>
      obtain ⟨rfl, hrest⟩ := List.forall_mem_cons.mp hbufs
      rcases hread : read 0 s with ⟨e | piece, s'⟩
      · rw [readUntilEnd, hread] at h
        cases h
        rfl
      · rw [readUntilEnd_noRoom hread] at h
        obtain ⟨rest, hrun, rfl⟩ := Option.map_eq_some_iff.mp h
        have := ih hrest hrun
        cases rest with
        | error e => rfl
        | ok bytes => cases this

/-- Each read into a buffer with room gives some of what the state has left, and an error or no
bytes only once that is nothing. -/
def Gives (read : ReadFn ε σ) (Left : List UInt8 → Bool → σ → Prop) : Prop :=
  ∀ ⦃buf : Nat⦄ ⦃content : List UInt8⦄ ⦃fails : Bool⦄ ⦃s : σ⦄, 0 < buf → Left content fails s →
    (∃ piece content' s', piece ≠ [] ∧ content = piece ++ content' ∧
      read buf s = (.ok piece, s') ∧ Left content' fails s') ∨
    (content = [] ∧ fails = false ∧ ∃ s', read buf s = (.ok [], s')) ∨
    (content = [] ∧ fails = true ∧ ∃ e s', read buf s = (.error e, s'))

theorem Gives.yields {read : ReadFn ε σ} {Left : List UInt8 → Bool → σ → Prop}
    (h : Gives read Left) : Yields read fun content s => Left content false s := by
  intro buf content s hbuf hs
  rcases h hbuf hs with hpiece | ⟨hnil, -, hend⟩ | ⟨-, hfails, -⟩
  · exact .inr hpiece
  · exact .inl ⟨hnil, hend⟩
  · cases hfails

def told (content : List UInt8) (fails : Bool) : Option (List UInt8) :=
  if fails then none else some content

theorem Gives.result {read : ReadFn ε σ} {Left : List UInt8 → Bool → σ → Prop}
    (h : Gives read Left) {bufs : List Nat} (hbufs : ∀ buf ∈ bufs, 0 < buf)
    {content : List UInt8} {fails : Bool} {s : σ} (hs : Left content fails s) :
    (∀ result, readUntilEnd read bufs s = some result →
        result.toOption = told content fails) ∧
      (content.length < bufs.length → (readUntilEnd read bufs s).isSome) := by
  induction bufs generalizing content s with
  | nil => exact ⟨nofun, fun hlt => absurd hlt (Nat.not_lt_zero _)⟩
  | cons buf bufs ih =>
      obtain ⟨hbuf, hbufs⟩ := List.forall_mem_cons.mp hbufs
      unfold readUntilEnd
      rcases h hbuf hs with ⟨piece, content', s', hne, rfl, hread, hs'⟩ |
        ⟨rfl, rfl, s', hread⟩ | ⟨rfl, rfl, e, s', hread⟩
      · obtain ⟨hresult, hends⟩ := ih hbufs hs'
        rw [hread]
        dsimp only
        rw [if_neg fun hnil => hne hnil.1]
        constructor
        · intro result hmap
          obtain ⟨rest, hrest, rfl⟩ := Option.map_eq_some_iff.mp hmap
          have := hresult rest hrest
          cases fails with
          | true =>
              cases rest with
              | error e => rfl
              | ok bytes => cases this
          | false =>
              cases rest with
              | error e => cases this
              | ok bytes =>
                  cases this
                  rfl
        · intro hlt
          rw [Option.isSome_map]
          apply hends
          have := List.length_pos_of_ne_nil hne
          rw [List.length_append, List.length_cons] at hlt
          omega
      · rw [hread]
        dsimp only
        rw [if_pos ⟨rfl, hbuf⟩]
        refine ⟨?_, fun _ => rfl⟩
        rintro result ⟨⟩
        rfl
      · rw [hread]
        refine ⟨?_, fun _ => rfl⟩
        rintro result ⟨⟩
        rfl

/-- A reader over given bytes: each read into a buffer with room gives some of the next of them,
and none only at their end. -/
structure Source (ε : Type) (bytes : List UInt8) where
  State : Type
  read : ReadFn ε State
  Holds : List UInt8 → State → Prop
  serves : Serves read Holds
  start : State
  holds : Holds bytes start

def Source.upTo (ε : Type) (bytes : List UInt8) {most : Nat} (hmost : 0 < most) :
    Source ε bytes where
  State := List UInt8
  read buf s := (.ok (s.take (min most buf)), s.drop (min most buf))
  Holds bytes s := s = bytes
  serves := by
    rintro buf _ s hbuf rfl
    obtain ⟨happend, hlength, hend⟩ := take_serves (show 0 < min most buf by omega) s
    exact ⟨_, _, _, rfl, happend, Nat.le_trans hlength (Nat.min_le_right _ _), hend, rfl⟩
  start := bytes
  holds := rfl

def Source.firstRead {bytes : List UInt8} (source : Source ε bytes) (buf : Nat) : Nat :=
  (source.read buf source.start).1.bytes.length

def readExactLoop (eof : ε) (retry : ε → Bool) (input : ReadFn ε τ) :
    Nat → Nat → List UInt8 → τ → Except ε (List UInt8) × τ
  | _, 0, got, s => (.ok got, s)
  | 0, _ + 1, _, s => (.error eof, s)
  | rounds + 1, want + 1, got, s =>
      match input (want + 1) s with
      | (.ok [], s) => (.error eof, s)
      | (.ok (b :: bytes), s) =>
          readExactLoop eof retry input rounds (want - bytes.length) (got ++ b :: bytes) s
      | (.error e, s) =>
          if retry e then readExactLoop eof retry input rounds (want + 1) got s
          else (.error e, s)

theorem Serves.readExact {input : ReadFn ε τ} {Holds : List UInt8 → τ → Prop}
    (h : Serves input Holds) (eof : ε) (retry : ε → Bool) {rounds want : Nat}
    (hrounds : want ≤ rounds) (got : List UInt8) {bytes : List UInt8} {s : τ} (hs : Holds bytes s) :
    (want ≤ bytes.length ∧ ∃ s', Holds (bytes.drop want) s' ∧
      readExactLoop eof retry input rounds want got s = (.ok (got ++ bytes.take want), s')) ∨
    (bytes.length < want ∧
      ∃ s', readExactLoop eof retry input rounds want got s = (.error eof, s')) := by
  induction rounds generalizing want got bytes s with
  | zero =>
      obtain rfl := Nat.le_zero.mp hrounds
      refine .inl ⟨Nat.zero_le _, s, hs, ?_⟩
      rw [List.take_zero, List.append_nil]
      rfl
  | succ rounds ih =>
      cases want with
      | zero =>
          refine .inl ⟨Nat.zero_le _, s, hs, ?_⟩
          rw [List.take_zero, List.append_nil]
          rfl
      | succ want =>
          obtain ⟨piece, rest, s₁, hread, rfl, hlength, hend, hs₁⟩ :=
            h (want + 1) bytes s (Nat.succ_pos want) hs
          unfold readExactLoop
          rw [hread]
          cases piece with
          | nil =>
              obtain rfl := hend rfl
              exact .inr ⟨Nat.succ_pos want, s₁, rfl⟩
          | cons b piece =>
              rw [List.length_cons] at hlength
              have hsub : want + 1 - (b :: piece).length = want - piece.length := by
                rw [List.length_cons]
                omega
              rw [List.take_append, List.drop_append, hsub, List.length_append, List.length_cons,
                List.take_of_length_le (by rw [List.length_cons]; omega),
                List.drop_of_length_le (by rw [List.length_cons]; omega), List.nil_append,
                ← List.append_assoc]
              have hwant : want - piece.length ≤ rounds := by omega
              have hrest := ih hwant (got ++ b :: piece) hs₁
              exact hrest.imp (And.imp_left fun hle => by omega) (And.imp_left fun hlt => by omega)

abbrev Reading (ε τ α : Type) := ExceptT ε (StateM τ) α

def Reading.run (m : Reading ε τ α) (s : τ) : Except ε α × τ := StateT.run (ExceptT.run m) s

theorem Reading.run_bind (m : Reading ε τ α) (f : α → Reading ε τ β) (s : τ) :
    Reading.run (m >>= f) s = match m.run s with
      | (.ok a, s') => (f a).run s'
      | (.error e, s') => (.error e, s') := by
  have hbind : Reading.run (m >>= f) s = ExceptT.bindCont f (m.run s).1 (m.run s).2 := rfl
  rw [hbind]
  rcases m.run s with ⟨_ | _, _⟩ <;> rfl

/-- `read_exact`.  An interrupted read is tried again, up to `patience` times in a row of such
reads. -/
def readExact (eof : ε) (retry : ε → Bool) (patience : Nat) (input : ReadFn ε τ) (want : Nat) :
    Reading ε τ (List UInt8) :=
  ExceptT.mk fun s => readExactLoop eof retry input (want + patience) want [] s

def readLeFrom (eof : ε) (retry : ε → Bool) (patience : Nat) (input : ReadFn ε τ) (width : Nat) :
    Reading ε τ Nat := do
  let bs ← readExact eof retry patience input width
  pure (leValue bs)

/-- On a state that holds some bytes, the step does what the parser does on these. -/
def ReadsAs (Holds : List UInt8 → τ → Prop) (m : Reading ε τ α) (p : Parser ε α) : Prop :=
  ∀ ⦃bytes : List UInt8⦄ ⦃s : τ⦄, Holds bytes s →
    (∃ a rest s', p bytes = .ok (a, rest) ∧ m.run s = (.ok a, s') ∧ Holds rest s') ∨
    (∃ e s', p bytes = .error e ∧ m.run s = (.error e, s'))

namespace ReadsAs

variable {Holds : List UInt8 → τ → Prop}

theorem pure (a : α) : ReadsAs Holds (Pure.pure a : Reading ε τ α) (Pure.pure a) :=
  fun bytes s hs => .inl ⟨a, bytes, s, rfl, rfl, hs⟩

theorem bind {m : Reading ε τ α} {p : Parser ε α} {f : α → Reading ε τ β} {g : α → Parser ε β}
    (h : ReadsAs Holds m p) (hnext : ∀ a, ReadsAs Holds (f a) (g a)) :
    ReadsAs Holds (m >>= f) (p >>= g) := by
  intro bytes s hs
  rw [Reading.run_bind]
  rcases h hs with ⟨a, rest, s', hp, hm, hs'⟩ | ⟨e, s', hp, hm⟩
  · rw [hm, Parser.bind_apply_ok hp]
    exact hnext a hs'
  · rw [hm, Parser.bind_apply_error hp]
    exact .inr ⟨e, s', rfl, rfl⟩

theorem readExact {input : ReadFn ε τ} (h : Serves input Holds) (eof : ε) (retry : ε → Bool)
    (patience want : Nat) :
    ReadsAs Holds (readExact eof retry patience input want) (Parser.bytes eof want) := by
  intro bytes s hs
  unfold Parser.bytes
  rcases h.readExact eof retry (Nat.le_add_right want patience) [] hs with
    ⟨hle, s', hs', hrun⟩ | ⟨hlt, s', hrun⟩
  · rw [if_pos hle]
    exact .inl ⟨_, _, s', rfl, hrun, hs'⟩
  · rw [if_neg (Nat.not_le.mpr hlt)]
    exact .inr ⟨eof, s', rfl, hrun⟩

theorem readLeFrom {input : ReadFn ε τ} (h : Serves input Holds) (eof : ε) (retry : ε → Bool)
    (patience width : Nat) :
    ReadsAs Holds (readLeFrom eof retry patience input width) (Parser.le eof width) :=
  (ReadsAs.readExact h eof retry patience width).bind fun bs => .pure (leValue bs)

end ReadsAs

namespace Stored

theorem served_readBytes_cases {eof : Script ε ρ} {next : List UInt8 → Script ε ρ} {n : Nat}
    {got packed left : List UInt8} {result : ρ}
    (h : (readBytes eof n got next).Served packed result left) :
    (n ≤ packed.length ∧ (next (got ++ packed.take n)).Served (packed.drop n) result left) ∨
      (packed.length < n ∧ eof.Served [] result left) := by
  induction n generalizing got packed with
  | zero =>
      rw [readBytes] at h
      refine .inl ⟨Nat.zero_le _, ?_⟩
      rwa [List.take_zero, List.append_nil, List.drop_zero]
  | succ n ih =>
      rw [readBytes] at h
      cases h with
      | @read _ _ piece rest _ _ hlength hend hnext =>
          rcases piece with _ | ⟨byte, _ | ⟨second, piece⟩⟩
          · obtain rfl := hend rfl
            exact .inr ⟨Nat.succ_pos n, hnext⟩
          · have htaken := ih hnext
            rw [List.append_assoc] at htaken
            exact htaken.imp (And.imp_left Nat.succ_le_succ) (And.imp_left Nat.succ_lt_succ)
          · simp at hlength

variable (format : Stored)

inductive Blocks : List UInt8 → List UInt8 → Ending → Prop
  | tooShort {packed : List UInt8} (hshort : packed.length < format.mark.length) :
      Blocks packed [] .failed
  | stopped {packed : List UInt8} (hlong : format.mark.length ≤ packed.length)
      (hmark : packed.take format.mark.length ≠ format.mark) :
      Blocks packed [] (.ended (packed.drop format.mark.length))
  | cut {packed : List UInt8} (hlong : format.mark.length ≤ packed.length)
      (hmark : packed.take format.mark.length = format.mark)
      (hnil : packed.drop format.mark.length = []) : Blocks packed [] .failed
  | block {packed rest content : List UInt8} {byte : UInt8} {ending : Ending}
      (hlong : format.mark.length ≤ packed.length)
      (hmark : packed.take format.mark.length = format.mark)
      (hbyte : packed.drop format.mark.length = byte :: rest) (hrest : Blocks rest content ending) :
      Blocks packed (byte :: content) ending

theorem exists_blocks (packed : List UInt8) :
    ∃ content ending, format.Blocks packed content ending := by
  induction hn : packed.length using Nat.strong_induction_on generalizing packed with
  | _ n ih =>
      subst hn
      by_cases hshort : packed.length < format.mark.length
      · exact ⟨[], _, .tooShort hshort⟩
      · have hlong := Nat.le_of_not_lt hshort
        by_cases hmark : packed.take format.mark.length = format.mark
        · cases hrest : packed.drop format.mark.length with
          | nil => exact ⟨[], _, .cut hlong hmark hrest⟩
          | cons byte rest =>
              have hlength : rest.length < packed.length := by
                have := congrArg List.length hrest
                rw [List.length_drop, List.length_cons] at this
                omega
              obtain ⟨content, ending, hblocks⟩ := ih rest.length hlength rest rfl
              exact ⟨byte :: content, ending, .block hlong hmark hrest hblocks⟩
        · exact ⟨[], _, .stopped hlong hmark⟩

def Tells (content : List UInt8) (ending : Ending) (s : State) (packed : List UInt8) : Prop :=
  match s with
  | .header =>
      (format.header.length ≤ packed.length ∧
          format.Blocks (packed.drop format.header.length) content ending) ∨
        (packed.length < format.header.length ∧ content = [] ∧ ending = .failed)
  | .blocks => format.Blocks packed content ending
  | .done => content = [] ∧ ending = .ended packed

theorem Blocks.read {eof : ε} {packed packed' content : List UInt8} {ending : Ending}
    {answer : ReadResult ε} {s' : State} (hblocks : format.Blocks packed content ending)
    (h : (format.readBlock eof).Served packed (answer, s') packed') :
    (∃ piece content', answer = .ok piece ∧ piece ≠ [] ∧ content = piece ++ content' ∧
        format.Tells content' ending s' packed') ∨
      (content = [] ∧ ending = .ended packed' ∧ answer = .ok []) ∨
      (content = [] ∧ ending = .failed ∧ ∃ e, answer = .error e) := by
  rw [readBlock] at h
  rcases served_readBytes_cases h with ⟨hlong, h⟩ | ⟨hshort, h⟩
  · rw [List.nil_append] at h
    cases hblocks with
    | tooShort hshort => exact absurd hlong (Nat.not_le.mpr hshort)
    | stopped _ hmark =>
        rw [if_neg hmark] at h
        cases h
        exact .inr (.inl ⟨rfl, rfl, rfl⟩)
    | cut _ hmark hnil =>
        rw [if_pos hmark, hnil] at h
        rcases served_readBytes_cases h with ⟨hone, -⟩ | ⟨-, h⟩
        · exact absurd hone (Nat.not_succ_le_zero 0)
        · cases h
          exact .inr (.inr ⟨rfl, rfl, eof, rfl⟩)
    | block _ hmark hbyte hrest =>
        rw [if_pos hmark, hbyte] at h
        rcases served_readBytes_cases h with ⟨-, h⟩ | ⟨hnone, -⟩
        · cases h
          exact .inl ⟨[_], _, rfl, List.cons_ne_nil _ _, rfl, hrest⟩
        · exact absurd hnone (Nat.not_lt.mpr (Nat.succ_le_succ (Nat.zero_le _)))
  · cases h
    cases hblocks with
    | tooShort _ => exact .inr (.inr ⟨rfl, rfl, eof, rfl⟩)
    | stopped hlong _ => exact absurd hlong (Nat.not_le.mpr hshort)
    | cut hlong _ _ => exact absurd hlong (Nat.not_le.mpr hshort)
    | block hlong _ _ _ => exact absurd hlong (Nat.not_le.mpr hshort)

theorem settling (eof : ε) : (format.decompressor eof).Settling format.Tells where
  read := by
    intro content packed packed' ending s s' n answer hs hn h
    cases s with
    | header =>
        rcases served_readBytes_cases h with ⟨hlong, h⟩ | ⟨hshort, h⟩
        · rcases hs with ⟨-, hblocks⟩ | ⟨hshort, -⟩
          · exact hblocks.read format h
          · exact absurd hlong (Nat.not_le.mpr hshort)
        · rcases hs with ⟨hlong, -⟩ | ⟨-, rfl, rfl⟩
          · exact absurd hlong (Nat.not_le.mpr hshort)
          · cases h
            exact .inr (.inr ⟨rfl, rfl, eof, rfl⟩)
    | blocks => exact Blocks.read format hs h
    | done =>
        obtain ⟨rfl, rfl⟩ := hs
        cases h
        exact .inr (.inl ⟨rfl, rfl, rfl⟩)

theorem independent (eof : ε) : (format.decompressor eof).Independent := by
  intro packed
  by_cases hlong : format.header.length ≤ packed.length
  · obtain ⟨content, ending, hblocks⟩ := format.exists_blocks (packed.drop format.header.length)
    exact ⟨content, ending, format.Tells, format.settling eof, .inl ⟨hlong, hblocks⟩⟩
  · exact ⟨[], .failed, format.Tells, format.settling eof,
      .inr ⟨Nat.not_le.mp hlong, rfl, rfl⟩⟩

end Stored

/-- Wants so many bytes first, and then has one reply to give.  A read into no room does
nothing. -/
def Decompressor.wanting (eof : ε) (wanted : Nat) (reply : List UInt8) : Decompressor ε Bool where
  start := false
  read n replied :=
    if replied then .finish (.ok [], true)
    else if n = 0 then .finish (.ok [], false)
    else
      Stored.readBytes (.finish (.error eof, true)) wanted [] fun _ => .finish (.ok reply, true)
  roomy n replied hn := by
    rw [if_neg (Nat.ne_of_gt hn)]
    split
    · exact Script.roomy_finish _
    · exact Stored.roomy_readBytes (Script.roomy_finish _) (fun _ => Script.roomy_finish _) _ _

namespace Decompressor

def WantingTells (wanted : Nat) (reply content : List UInt8) (ending : Ending) (replied : Bool)
    (packed : List UInt8) : Prop :=
  match replied with
  | true => content = [] ∧ ending = .ended packed
  | false =>
      (wanted ≤ packed.length ∧ content = reply ∧ ending = .ended (packed.drop wanted)) ∨
        (packed.length < wanted ∧ content = [] ∧ ending = .failed)

theorem wanting_settling (eof : ε) (wanted : Nat) (reply : List UInt8) :
    (wanting eof wanted reply).Settling (WantingTells wanted reply) where
  read := by
    intro content packed packed' ending replied replied' n answer hs hn h
    cases replied with
    | true =>
        obtain ⟨rfl, rfl⟩ := hs
        cases h
        exact .inr (.inl ⟨rfl, rfl, rfl⟩)
    | false =>
        have hread : (wanting eof wanted reply).read n false =
            Stored.readBytes (.finish (.error eof, true)) wanted []
              fun _ => .finish (.ok reply, true) := if_neg (Nat.ne_of_gt hn)
        rw [hread] at h
        rcases Stored.served_readBytes_cases h with ⟨hlong, h⟩ | ⟨hshort, h⟩
        · obtain ⟨-, rfl, rfl⟩ := hs.resolve_right fun hshort =>
            absurd hlong (Nat.not_le.mpr hshort.1)
          cases h
          by_cases hreply : content = []
          · subst hreply
            exact .inr (.inl ⟨rfl, rfl, rfl⟩)
          · exact .inl ⟨content, [], rfl, hreply, (List.append_nil _).symm, rfl, rfl⟩
        · obtain ⟨-, rfl, rfl⟩ := hs.resolve_left fun hlong =>
            absurd hlong.1 (Nat.not_le.mpr hshort)
          cases h
          exact .inr (.inr ⟨rfl, rfl, eof, rfl⟩)

theorem wanting_independent (eof : ε) (wanted : Nat) (reply : List UInt8) :
    (wanting eof wanted reply).Independent := by
  intro packed
  by_cases hlong : wanted ≤ packed.length
  · exact ⟨reply, .ended (packed.drop wanted), _, wanting_settling eof wanted reply,
      .inl ⟨hlong, rfl, rfl⟩⟩
  · exact ⟨[], .failed, _, wanting_settling eof wanted reply,
      .inr ⟨Nat.not_le.mp hlong, rfl, rfl⟩⟩

end Decompressor

end Sevenz.Lib
