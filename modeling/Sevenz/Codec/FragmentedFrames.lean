import Sevenz.Codec.Lz4
import Mathlib.Data.Set.Basic

/-!
# The framed decoders over readers that cut the input

What two readers over the same bytes make of a decoder: the first read decides how it begins, and
after that only what is read matters, not in which pieces.
-/

namespace Sevenz

open Lib InnerReader

variable {σ τ : Type}

inductive Opening where
  | refused
  | framed
  | native
  deriving DecidableEq

def opening (format : FrameFormat) (header : List UInt8) : Opening :=
  if header.length < 4 then .refused
  else
    if leValue (header.take 4) = skippableFrameMagic ∧ 8 + format.skippableSize ≤ header.length then
      if leValue ((header.drop 4).take 4) = format.skippableSize ∧
          format.codecMagic.all (fun magic => leValue ((header.drop 12).take 2) = magic) then
        .framed
      else .refused
    else .native

def openingOf (format : FrameFormat) {bytes : List UInt8} (source : Source IoError bytes) :
    Opening :=
  opening format (bytes.take (source.firstRead (8 + format.skippableSize)))

def firstFrameSize (bytes : List UInt8) : Nat := leValue ((bytes.drop 8).take 4)

namespace FramedDecoder

def Opens (format : FrameFormat) (d : Decompressor IoError σ) (Holds : List UInt8 → τ → Prop)
    (bytes : List UInt8) : Opening → Except Error (FramedDecoder σ τ) → Prop
  | .refused, decoder => ∃ e, decoder = .error e
  | .framed, decoder => ∃ reader,
      decoder = .ok (some (d.start, .newSkippable reader (firstFrameSize bytes))) ∧
        Holds (bytes.drop (8 + format.skippableSize)) reader ∧
        8 + format.skippableSize ≤ bytes.length
  | .native, decoder => ∃ reader header rest,
      decoder = .ok (some (d.start, .newStandard reader header)) ∧ Holds rest reader ∧
        bytes = header ++ rest

theorem opens_new (format : FrameFormat) (d : Decompressor IoError σ) {bytes : List UInt8}
    (source : Source IoError bytes) :
    Opens format d source.Holds bytes (openingOf format source)
      (new format d source.read source.start) := by
  obtain ⟨header, rest, reader, hread, hbytes, hlength, -, hrest⟩ :=
    source.serves (8 + format.skippableSize) bytes source.start (by omega) source.holds
  have hfirst : source.firstRead (8 + format.skippableSize) = header.length := by
    rw [Source.firstRead, hread]
    rfl
  have htake : bytes.take header.length = header := by
    rw [hbytes, List.take_left]
  rw [openingOf, hfirst, htake, opening, new]
  simp only [hread]
  by_cases hshort : header.length < 4
  · rw [if_pos hshort, if_pos hshort]
    exact ⟨_, rfl⟩
  · rw [if_neg hshort, if_neg hshort]
    by_cases hlooks : leValue (header.take 4) = skippableFrameMagic ∧
        8 + format.skippableSize ≤ header.length
    · have hfull : header.length = 8 + format.skippableSize := Nat.le_antisymm hlength hlooks.2
      have hframed : Opens format d source.Holds bytes .framed
          (.ok (some (d.start, .newSkippable reader (leValue ((header.drop 8).take 4))))) := by
        have hskippable : 4 ≤ format.skippableSize := by
          rw [format.skippableSize_eq]
          split <;> decide
        have hsize : (bytes.drop 8).take 4 = (header.drop 8).take 4 := by
          have hfour : 4 ≤ (header.drop 8).length := by
            rw [List.length_drop]
            omega
          rw [hbytes, List.drop_append_of_le_length (by omega),
            List.take_append_of_le_length hfour]
        refine ⟨reader, ?_, ?_, ?_⟩
        · rw [firstFrameSize, hsize]
        · have hdrop : bytes.drop (8 + format.skippableSize) = rest := by
            rw [hbytes, ← hfull, List.drop_left]
          rwa [hdrop]
        · rw [hbytes, List.length_append]
          omega
      rw [if_pos hlooks, if_pos hlooks]
      by_cases hsize : leValue ((header.drop 4).take 4) = format.skippableSize
      · rw [if_neg (not_not.mpr hsize)]
        cases hcodec : format.codecMagic with
        | none =>
            rw [if_pos ⟨hsize, rfl⟩]
            exact hframed
        | some codecMagic =>
            dsimp only
            by_cases hmagic : leValue ((header.drop 12).take 2) = codecMagic
            · rw [if_pos ⟨hsize, decide_eq_true hmagic⟩, if_neg (not_not.mpr hmagic)]
              exact hframed
            · rw [if_neg fun h => hmagic (of_decide_eq_true h.2), if_pos hmagic]
              exact ⟨_, rfl⟩
      · rw [if_neg fun h => hsize h.1, if_pos hsize]
        exact ⟨_, rfl⟩
    · rw [if_neg hlooks, if_neg hlooks]
      exact ⟨reader, header, rest, rfl, hrest, hbytes⟩

def Outcome (format : FrameFormat) (d : Decompressor IoError σ) (bytes : List UInt8) :
    Opening → List UInt8 → Bool → Prop
  | .refused, content, fails => content = [] ∧ fails = true
  | .framed, content, fails =>
      ∃ first ending behind,
        d.Settles first ending d.start
          ((bytes.drop (8 + format.skippableSize)).take (firstFrameSize bytes)) ∧
        BehindFrame format d (firstFrameSize bytes) ending
          ((bytes.drop (8 + format.skippableSize)).drop (firstFrameSize bytes)) behind fails ∧
        content = first ++ behind
  | .native, content, fails =>
      ∃ ending, d.Settles content ending d.start bytes ∧ fails = decide (ending = .failed)

theorem exists_outcome (format : FrameFormat) {d : Decompressor IoError σ} (hd : d.Independent)
    (bytes : List UInt8) (o : Opening) :
    ∃ content fails, Outcome format d bytes o content fails := by
  cases o with
  | refused => exact ⟨[], true, rfl, rfl⟩
  | framed =>
      obtain ⟨first, ending, hfirst⟩ := hd
        ((bytes.drop (8 + format.skippableSize)).take (firstFrameSize bytes))
      obtain ⟨behind, fails, hbehind⟩ := exists_behindFrame format hd (firstFrameSize bytes) ending
        ((bytes.drop (8 + format.skippableSize)).drop (firstFrameSize bytes))
      exact ⟨first ++ behind, fails, first, ending, behind, hfirst, hbehind, rfl⟩
  | native =>
      obtain ⟨content, ending, hcontent⟩ := hd bytes
      exact ⟨content, _, ending, hcontent, rfl⟩

theorem toOption_mapError {ε ε' α : Type} (f : ε → ε') (x : Except ε α) :
    (x.mapError f).toOption = x.toOption := by
  cases x <;> rfl

theorem decode_gives {input : ReadFn IoError τ}
    {Left : List UInt8 → Bool → FramedDecoder σ τ → Prop}
    {format : FrameFormat} {d : Decompressor IoError σ} {patience : Nat}
    (h : Gives (FramedDecoder.read format d patience input) Left) {reader : τ}
    {decoder : FramedDecoder σ τ} (hnew : new format d input reader = .ok decoder)
    {content : List UInt8} {fails : Bool} (hleft : Left content fails decoder) {bufs : List Nat}
    (hbufs : ∀ buf ∈ bufs, 0 < buf) :
    (∀ result, decode format d patience input reader bufs = some result →
        result.toOption = told content fails) ∧
      (content.length < bufs.length → (decode format d patience input reader bufs).isSome) := by
  obtain ⟨hresult, hends⟩ := h.result hbufs hleft
  simp only [FramedDecoder.decode, hnew]
  constructor
  · intro result hmap
    obtain ⟨result, hrun, rfl⟩ := Option.map_eq_some_iff.mp hmap
    rw [toOption_mapError]
    exact hresult result hrun
  · intro hlt
    rw [Option.isSome_map]
    exact hends hlt

theorem decode_outcome {format : FrameFormat} {d : Decompressor IoError σ} {bytes : List UInt8}
    (source : Source IoError bytes) (patience : Nat) {content : List UInt8} {fails : Bool}
    (houtcome : Outcome format d bytes (openingOf format source) content fails) (bufs : List Nat)
    (hbufs : openingOf format source ≠ .refused → ∀ buf ∈ bufs, 0 < buf) :
    (∀ result, decode format d patience source.read source.start bufs = some result →
        result.toOption = told content fails) ∧
      (content.length < bufs.length →
        (decode format d patience source.read source.start bufs).isSome) := by
  have hopens := opens_new format d source
  revert houtcome hbufs hopens
  generalize openingOf format source = o
  intro houtcome hbufs hopens
  cases o with
  | refused =>
      obtain ⟨rfl, rfl⟩ := houtcome
      obtain ⟨e, hnew⟩ := hopens
      simp only [decode, hnew]
      refine ⟨?_, fun _ => rfl⟩
      rintro result ⟨⟩
      rfl
  | framed =>
      obtain ⟨reader, hnew, hreader, -⟩ := hopens
      obtain ⟨first, ending, behind, hfirst, hbehind, rfl⟩ := houtcome
      apply decode_gives (gives_frames source.serves patience) hnew _ (hbufs nofun)
      exact ⟨_, _, _, first, behind, ending, holdsFrame_new hreader _, hfirst, hbehind, rfl⟩
  | native =>
      obtain ⟨reader, header, rest, hnew, hreader, hbytes⟩ := hopens
      obtain ⟨ending, hcontent, hfails⟩ := houtcome
      apply decode_gives (gives_plain source.serves patience) hnew _ (hbufs nofun)
      exact ⟨bytes, ending, ⟨rest, hreader, hbytes⟩, hcontent, hfails⟩

end FramedDecoder

/-- Over the two readers a decoder gives the same: its runs into buffers of the given sizes come
to the same bytes, or all to an error, and all of them end. -/
structure SameResult (format : FrameFormat) {bytes : List UInt8}
    (source₁ source₂ : Source IoError bytes) (sizes : Set Nat) : Prop where
  agree : ∀ {σ : Type} (d : Decompressor IoError σ), d.Independent → ∀ (patience : Nat)
    {bufs₁ bufs₂ : List Nat}, (∀ buf ∈ bufs₁, buf ∈ sizes) → (∀ buf ∈ bufs₂, buf ∈ sizes) →
    ∀ {result₁ result₂ : Except Error (List UInt8)},
      FramedDecoder.decode format d patience source₁.read source₁.start bufs₁ = some result₁ →
      FramedDecoder.decode format d patience source₂.read source₂.start bufs₂ = some result₂ →
        result₁.toOption = result₂.toOption
  ends : ∀ {σ : Type} (d : Decompressor IoError σ), d.Independent → ∃ rounds, ∀ (patience : Nat)
    {bufs : List Nat}, (∀ buf ∈ bufs, buf ∈ sizes) → rounds ≤ bufs.countP (0 < ·) →
      (FramedDecoder.decode format d patience source₁.read source₁.start bufs).isSome ∧
        (FramedDecoder.decode format d patience source₂.read source₂.start bufs).isSome

namespace SameResult

open FramedDecoder

variable {format : FrameFormat} {bytes : List UInt8} {source₁ source₂ : Source IoError bytes}
  {sizes : Set Nat}

theorem outcome (h : SameResult format source₁ source₂ sizes) {n : Nat} (hn : 0 < n)
    (hmem : n ∈ sizes) {d : Decompressor IoError σ} (hd : d.Independent)
    {content₁ content₂ : List UInt8} {fails₁ fails₂ : Bool}
    (h₁ : Outcome format d bytes (openingOf format source₁) content₁ fails₁)
    (h₂ : Outcome format d bytes (openingOf format source₂) content₂ fails₂) :
    told content₁ fails₁ = told content₂ fails₂ := by
  have hroomy (k : Nat) : ∀ buf ∈ List.replicate k n, 0 < buf := fun buf hbuf =>
    List.eq_of_mem_replicate hbuf ▸ hn
  have hsizes (k : Nat) : ∀ buf ∈ List.replicate k n, buf ∈ sizes := fun buf hbuf =>
    List.eq_of_mem_replicate hbuf ▸ hmem
  obtain ⟨hresult₁, hends₁⟩ :=
    decode_outcome source₁ 0 h₁ (List.replicate (content₁.length + 1) n) fun _ => hroomy _
  obtain ⟨hresult₂, hends₂⟩ :=
    decode_outcome source₂ 0 h₂ (List.replicate (content₂.length + 1) n) fun _ => hroomy _
  obtain ⟨result₁, hrun₁⟩ := Option.isSome_iff_exists.mp (hends₁ (by simp))
  obtain ⟨result₂, hrun₂⟩ := Option.isSome_iff_exists.mp (hends₂ (by simp))
  rw [← hresult₁ result₁ hrun₁, ← hresult₂ result₂ hrun₂]
  exact h.agree d hd 0 (hsizes _) (hsizes _) hrun₁ hrun₂

theorem outcome_reply (format : FrameFormat) (bytes reply : List UInt8) {o : Opening}
    (ho : o ≠ .refused) : Outcome format (.wanting .unexpectedEof 0 reply) bytes o reply false := by
  have hsettles (packed : List UInt8) : (Decompressor.wanting IoError.unexpectedEof 0 reply).Settles
      reply (.ended packed) false packed :=
    ⟨_, Decompressor.wanting_settling _ 0 reply, .inl ⟨Nat.zero_le _, rfl, rfl⟩⟩
  cases o with
  | refused => exact absurd rfl ho
  | framed =>
      exact ⟨reply, _, [], hsettles _, .last (FrameFormat.nextFrame_whole _ _ _),
        (List.append_nil _).symm⟩
  | native => exact ⟨_, hsettles bytes, rfl⟩

theorem outcome_nothing (format : FrameFormat) (bytes : List UInt8) (o : Opening) :
    Outcome format (.wanting .unexpectedEof 0 []) bytes o [] (o = .refused) := by
  cases o with
  | refused => exact ⟨rfl, rfl⟩
  | framed => exact outcome_reply format bytes [] nofun
  | native => exact outcome_reply format bytes [] nofun

theorem outcome_all (format : FrameFormat) {bytes : List UInt8} {o : Opening} (ho : o ≠ .refused)
    (hlength : o = .framed → 8 + format.skippableSize ≤ bytes.length) :
    Outcome format (.wanting .unexpectedEof bytes.length []) bytes o [] (o = .framed) := by
  have hsettling := Decompressor.wanting_settling IoError.unexpectedEof bytes.length []
  cases o with
  | refused => exact absurd rfl ho
  | framed =>
      have hlong := hlength rfl
      have hshort : ((bytes.drop (8 + format.skippableSize)).take (firstFrameSize bytes)).length <
          bytes.length := by
        rw [List.length_take, List.length_drop]
        omega
      exact ⟨[], .failed, [], ⟨_, hsettling, .inr ⟨hshort, rfl, rfl⟩⟩, .failed, rfl⟩
  | native => exact ⟨.ended _, ⟨_, hsettling, .inl ⟨Nat.le_refl _, rfl, rfl⟩⟩, rfl⟩

theorem opening_eq (h : SameResult format source₁ source₂ sizes) {n : Nat} (hn : 0 < n)
    (hmem : n ∈ sizes) : openingOf format source₁ = openingOf format source₂ := by
  have hlength (source : Source IoError bytes) (hframed : openingOf format source = .framed) :
      8 + format.skippableSize ≤ bytes.length := by
    have hopens := opens_new format (.wanting .unexpectedEof 0 []) source
    rw [hframed] at hopens
    obtain ⟨-, -, -, hle⟩ := hopens
    exact hle
  have hrefused := h.outcome hn hmem (Decompressor.wanting_independent .unexpectedEof 0 [])
    (outcome_nothing format bytes _) (outcome_nothing format bytes _)
  have hframed (h₁ : openingOf format source₁ ≠ .refused)
      (h₂ : openingOf format source₂ ≠ .refused) :=
    h.outcome hn hmem (Decompressor.wanting_independent .unexpectedEof bytes.length [])
      (outcome_all format h₁ (hlength source₁)) (outcome_all format h₂ (hlength source₂))
  revert hrefused hframed
  generalize openingOf format source₁ = o₁
  generalize openingOf format source₂ = o₂
  cases o₁ <;> cases o₂ <;> simp [told]

theorem read_noRoom {input : ReadFn IoError τ} {r r' : InnerReader τ} (patience : Nat)
    (reply : List UInt8)
    (hnext : r.readNextFrameHeader input format patience = (.ok false, r')) :
    FramedDecoder.read format (.wanting .unexpectedEof 0 reply) patience input 0 (some (false, r)) =
      (.ok [], none) := by
  have hrun : (((Decompressor.wanting IoError.unexpectedEof 0 reply).read 0 false).run
      (InnerReader.read input) r) = ((.ok [], false), [], r) := rfl
  rw [read_end hrun, hnext]

theorem decode_emptyFirst (source : Source IoError bytes)
    (ho : openingOf format source ≠ .refused) (reply : List UInt8) {n : Nat} (hn : 0 < n) :
    FramedDecoder.decode format (.wanting .unexpectedEof 0 reply) 0 source.read source.start [0, n] =
      some (.ok []) := by
  have hopens := opens_new format (.wanting .unexpectedEof 0 reply) source
  revert ho hopens
  generalize openingOf format source = o
  intro ho hopens
  obtain ⟨r, hnew, hnext⟩ : ∃ r, new format (.wanting .unexpectedEof 0 reply) source.read
      source.start = .ok (some (false, r)) ∧
        r.readNextFrameHeader source.read format 0 = (.ok false, r) := by
    cases o with
    | refused => exact absurd rfl ho
    | framed =>
        obtain ⟨reader, hnew, -⟩ := hopens
        exact ⟨_, hnew, rfl⟩
    | native =>
        obtain ⟨reader, header, rest, hnew, -⟩ := hopens
        exact ⟨_, hnew, rfl⟩
  have hempty := read_noRoom 0 reply hnext
  have hend : FramedDecoder.read format (.wanting .unexpectedEof 0 reply) 0 source.read n none =
      (.ok [], none) := rfl
  simp only [decode, hnew]
  rw [readUntilEnd_noRoom hempty, readUntilEnd_end hn hend]
  rfl

theorem refused_of_empty (h : SameResult format source₁ source₂ sizes) {n : Nat} (hn : 0 < n)
    (hmem : n ∈ sizes) (hempty : 0 ∈ sizes) : openingOf format source₁ = .refused := by
  by_contra ho
  have ho₂ : openingOf format source₂ ≠ .refused := h.opening_eq hn hmem ▸ ho
  have hindependent := Decompressor.wanting_independent IoError.unexpectedEof 0 [0]
  obtain ⟨hresult, hends⟩ := decode_outcome source₂ 0 (outcome_reply format bytes [0] ho₂)
    [n, n] fun _ => by simp [hn]
  obtain ⟨result, hrun⟩ := Option.isSome_iff_exists.mp (hends (by simp))
  have hsizes : ∀ buf ∈ [0, n], buf ∈ sizes := by simp [hempty, hmem]
  have hagree := h.agree _ hindependent 0 hsizes (by simp [hmem])
    (decode_emptyFirst source₁ ho [0] hn) hrun
  rw [hresult result hrun] at hagree
  cases hagree

theorem of_opening (heq : openingOf format source₁ = openingOf format source₂)
    (hempty : 0 ∈ sizes → openingOf format source₁ = .refused) :
    SameResult format source₁ source₂ sizes := by
  have hbufs₁ {bufs : List Nat} (hsizes : ∀ buf ∈ bufs, buf ∈ sizes)
      (ho : openingOf format source₁ ≠ .refused) : ∀ buf ∈ bufs, 0 < buf := by
    intro buf hbuf
    apply Nat.pos_of_ne_zero
    rintro rfl
    exact ho (hempty (hsizes 0 hbuf))
  have hbufs₂ {bufs : List Nat} (hsizes : ∀ buf ∈ bufs, buf ∈ sizes)
      (ho : openingOf format source₂ ≠ .refused) : ∀ buf ∈ bufs, 0 < buf :=
    hbufs₁ hsizes fun hrefused => ho (heq ▸ hrefused)
  constructor
  · intro σ d hd patience bufs₁ bufs₂ hsizes₁ hsizes₂ result₁ result₂ hrun₁ hrun₂
    obtain ⟨content, fails, houtcome⟩ := exists_outcome format hd bytes (openingOf format source₁)
    obtain ⟨hresult₁, -⟩ := decode_outcome source₁ patience houtcome bufs₁ (hbufs₁ hsizes₁)
    obtain ⟨hresult₂, -⟩ :=
      decode_outcome source₂ patience (heq ▸ houtcome) bufs₂ (hbufs₂ hsizes₂)
    rw [hresult₁ result₁ hrun₁, hresult₂ result₂ hrun₂]
  · intro σ d hd
    obtain ⟨content, fails, houtcome⟩ := exists_outcome format hd bytes (openingOf format source₁)
    refine ⟨content.length + 1, fun patience bufs hsizes hrounds => ?_⟩
    have hlt : content.length < bufs.length := Nat.lt_of_lt_of_le hrounds List.countP_le_length
    obtain ⟨-, hends₁⟩ := decode_outcome source₁ patience houtcome bufs (hbufs₁ hsizes)
    obtain ⟨-, hends₂⟩ := decode_outcome source₂ patience (heq ▸ houtcome) bufs (hbufs₂ hsizes)
    exact ⟨hends₁ hlt, hends₂ hlt⟩

theorem of_noRoom (hsizes : ∀ n ∈ sizes, n = 0) : SameResult format source₁ source₂ sizes := by
  have hnone {σ : Type} {d : Decompressor IoError σ} {patience : Nat}
      {source : Source IoError bytes} {bufs : List Nat} (hbufs : ∀ buf ∈ bufs, buf ∈ sizes)
      {result : Except Error (List UInt8)}
      (hrun : FramedDecoder.decode format d patience source.read source.start bufs = some result) :
      result.toOption = none := by
    unfold FramedDecoder.decode at hrun
    split at hrun
    · cases hrun
      rfl
    · obtain ⟨result, hread, rfl⟩ := Option.map_eq_some_iff.mp hrun
      rw [toOption_mapError]
      exact readUntilEnd_noRooms (fun buf hbuf => hsizes buf (hbufs buf hbuf)) hread
  constructor
  · intro σ d _ patience bufs₁ bufs₂ hbufs₁ hbufs₂ result₁ result₂ hrun₁ hrun₂
    rw [hnone hbufs₁ hrun₁, hnone hbufs₂ hrun₂]
  · intro σ d _
    refine ⟨1, fun patience bufs hbufs hrounds => ?_⟩
    obtain ⟨buf, hbuf, hpos⟩ := List.countP_pos_iff.mp hrounds
    exact absurd (hsizes buf (hbufs buf hbuf)) (Nat.ne_of_gt (of_decide_eq_true hpos))

end SameResult

/-- Where buffers with room are used at all, two readers over the same bytes give the same exactly
if their first reads lead `new` down the same branch, and no buffer is empty unless that branch
refuses the input. -/
theorem sameResult_iff (format : FrameFormat) {bytes : List UInt8}
    (source₁ source₂ : Source IoError bytes) (sizes : Set Nat) :
    SameResult format source₁ source₂ sizes ↔
      ((∃ n ∈ sizes, 0 < n) →
        openingOf format source₁ = openingOf format source₂ ∧
          (0 ∈ sizes → openingOf format source₁ = .refused)) := by
  constructor
  · rintro h ⟨n, hmem, hn⟩
    exact ⟨h.opening_eq hn hmem, h.refused_of_empty hn hmem⟩
  · intro h
    by_cases hroom : ∃ n ∈ sizes, 0 < n
    · exact .of_opening (h hroom).1 (h hroom).2
    · exact .of_noRoom fun n hmem => Nat.eq_zero_of_not_pos fun hn => hroom ⟨n, hmem, hn⟩

/-- Three bytes in the first read, of an LZ4 stream of one byte, are too few for `new`; and a read
into an empty buffer ends the stream before that byte. -/
theorem storedLz4_cut :
    ¬ SameResult lz4Format (Source.upTo IoError (storedLz4.pack [7]) (show 0 < 3 by decide))
        (Source.upTo IoError (storedLz4.pack [7]) (show 0 < 64 by decide)) {n | 0 < n} ∧
      ¬ SameResult lz4Format (Source.upTo IoError (storedLz4.pack [7]) (show 0 < 64 by decide))
        (Source.upTo IoError (storedLz4.pack [7]) (show 0 < 64 by decide)) Set.univ := by
  constructor
  · intro h
    have hindependent := storedLz4.independent IoError.unexpectedEof
    have hsizes : ∀ buf ∈ [1, 1], buf ∈ {n | 0 < n} := by decide
    have hagree := h.agree (storedLz4.decompressor .unexpectedEof) hindependent 0 hsizes hsizes
      (show _ = some (.error (.other "Input too short")) from rfl)
      (show _ = some (.ok [7]) from rfl)
    cases hagree
  · intro h
    have hindependent := Decompressor.wanting_independent IoError.unexpectedEof 4 [7]
    have hsizes (bufs : List Nat) : ∀ buf ∈ bufs, buf ∈ (Set.univ : Set Nat) := by simp
    have hagree := h.agree (.wanting .unexpectedEof 4 [7]) hindependent 0 (hsizes [1, 1])
      (hsizes [0, 1]) (show _ = some (.ok [7]) from rfl) (show _ = some (.ok []) from rfl)
    cases hagree

end Sevenz
