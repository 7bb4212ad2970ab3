import Sevenz.Lib.Settling
import Sevenz.Error

/-!
# The framed decoders

`Lz4Decoder` (`codec/lz4.rs`) and `BrotliDecoder` (`codec/brotli.rs`), over any reader: each read
of the one below may bring as little as one byte.  Both read a native stream, or compressed frames
each after a skippable frame that gives its size.  The two differ in what the skippable frame
holds.
-/

namespace Sevenz

open Lib

def skippableFrameMagic : Nat := 0x184D2A50

/-- What tells the frames of a codec apart: the size of the skippable frame, and a magic number
of the codec in it, which a hint follows. -/
structure FrameFormat where
  skippableSize : Nat
  codecMagic : Option Nat
  /-- the texts of the errors -/
  invalidSize : String
  invalidMagic : String
  skippableSize_eq : skippableSize = if codecMagic.isSome then 8 else 4
  codecMagic_lt : ∀ magic ∈ codecMagic, magic < 2 ^ 16

def lz4Format : FrameFormat where
  skippableSize := 4
  codecMagic := none
  invalidSize := "Invalid lz4 skippable frame size"
  invalidMagic := ""
  skippableSize_eq := rfl
  codecMagic_lt := by simp

def brotliFormat : FrameFormat where
  skippableSize := 8
  codecMagic := some 0x5242
  invalidSize := "Invalid brotli skippable frame size"
  invalidMagic := "Invalid brotli magic value"
  skippableSize_eq := rfl
  codecMagic_lt := by simp

def FrameFormat.codecFields (format : FrameFormat) (hint : Nat) : List UInt8 :=
  match format.codecMagic with
  | none => []
  | some magic => leBytes 2 magic ++ leBytes 2 hint

def FrameFormat.header (format : FrameFormat) (hint compressedSize : Nat) : List UInt8 :=
  leBytes 4 skippableFrameMagic ++ (leBytes 4 format.skippableSize ++
    (leBytes 4 compressedSize ++ format.codecFields hint))

def FrameFormat.frame (format : FrameFormat) (hint : Nat) (packed : List UInt8) : List UInt8 :=
  format.header hint packed.length ++ packed

variable {σ τ : Type}

inductive InnerReader (τ : Type) where
  | empty
  | standard (reader : τ) (headerBuffer : List UInt8) (headerFinished : Bool)
  | skippable (reader : τ) (remainingInFrame : Nat) (frameFinished : Bool)

namespace InnerReader

def newStandard (reader : τ) (header : List UInt8) : InnerReader τ := .standard reader header false

def newSkippable (reader : τ) (remainingInFrame : Nat) : InnerReader τ :=
  .skippable reader remainingInFrame false

section

variable (input : ReadFn IoError τ)

def read : ReadFn IoError (InnerReader τ)
  | _, .empty => (.ok [], .empty)
  | buf, .standard reader headerBuffer headerFinished =>
      if headerFinished = false ∧ headerBuffer.take buf ≠ [] then
        (.ok (headerBuffer.take buf), .standard reader (headerBuffer.drop buf) false)
      else
        let (answer, reader) := input buf reader
        (answer, .standard reader headerBuffer true)
  | buf, .skippable reader remaining finished =>
      if finished || remaining = 0 then (.ok [], .skippable reader remaining finished)
      else
        match input (min remaining buf) reader with
        | (.error e, reader) => (.error e, .skippable reader remaining finished)
        | (.ok bytes, reader) =>
            if bytes = [] then (.ok [], .skippable reader remaining true)
            else
              let remaining := remaining - bytes.length
              (.ok bytes, .skippable reader remaining (remaining = 0))

def readLe (patience width : Nat) : Reading IoError τ Nat :=
  readLeFrom .unexpectedEof (fun e => e = .interrupted) patience input width

def frameSize (format : FrameFormat) (patience : Nat) : Reading IoError τ (Option Nat) := do
  let skippableSize ← readLe input patience 4
  if skippableSize ≠ format.skippableSize then pure none
  else
    let compressedSize ← readLe input patience 4
    match format.codecMagic with
    | none => pure (some compressedSize)
    | some codecMagic =>
        let magic ← readLe input patience 2
        if magic ≠ codecMagic then pure none
        else
          let _ ← readLe input patience 2
          pure (some compressedSize)

def readNextFrameHeader (format : FrameFormat) (patience : Nat) :
    InnerReader τ → Except IoError Bool × InnerReader τ
  | .empty => (.ok false, .empty)
  | .standard reader headerBuffer finished => (.ok false, .standard reader headerBuffer finished)
  | .skippable reader remaining frameFinished =>
      if !frameFinished then (.ok false, .skippable reader remaining frameFinished)
      else
        match (readLe input patience 4).run reader with
        | (.error .unexpectedEof, reader) => (.ok false, .skippable reader remaining frameFinished)
        | (.error e, reader) => (.error e, .skippable reader remaining frameFinished)
        | (.ok magic, reader) =>
            if magic ≠ skippableFrameMagic then
              (.ok false, .skippable reader remaining frameFinished)
            else
              match (frameSize input format patience).run reader with
              | (.error e, reader) => (.error e, .skippable reader remaining frameFinished)
              | (.ok none, reader) => (.ok false, .skippable reader remaining frameFinished)
              | (.ok (some compressedSize), reader) =>
                  (.ok true, newSkippable reader compressedSize)

end

end InnerReader

abbrev FramedDecoder (σ τ : Type) := Option (σ × InnerReader τ)

namespace FramedDecoder

def new (format : FrameFormat) (d : Decompressor IoError σ) (input : ReadFn IoError τ)
    (reader : τ) : Except Error (FramedDecoder σ τ) :=
  let headerSize := 8 + format.skippableSize
  match input headerSize reader with
  | (.error e, _) => .error (.ofIo e)
  | (.ok header, reader) =>
      if header.length < 4 then .error (.other "Input too short")
      else
        if leValue (header.take 4) = skippableFrameMagic ∧ headerSize ≤ header.length then
          if leValue ((header.drop 4).take 4) ≠ format.skippableSize then
            .error (.other format.invalidSize)
          else
            let compressedSize := leValue ((header.drop 8).take 4)
            match format.codecMagic with
            | none => .ok (some (d.start, .newSkippable reader compressedSize))
            | some codecMagic =>
                if leValue ((header.drop 12).take 2) ≠ codecMagic then
                  .error (.other format.invalidMagic)
                else .ok (some (d.start, .newSkippable reader compressedSize))
        else .ok (some (d.start, .newStandard reader header))

def read (format : FrameFormat) (d : Decompressor IoError σ) (patience : Nat)
    (input : ReadFn IoError τ) : ReadFn IoError (FramedDecoder σ τ)
  | _, none => (.ok [], none)
  | buf, some (s, inner) =>
      match (d.read buf s).run (InnerReader.read input) inner with
      | ((.ok [], s), _, inner) =>
          match inner.readNextFrameHeader input format patience with
          | (.error e, inner) => (.error e, some (s, inner))
          | (.ok false, _) => (.ok [], none)
          | (.ok true, inner) =>
              let ((answer, s), _, inner) := (d.read buf d.start).run (InnerReader.read input) inner
              (answer, some (s, inner))
      | ((answer, s), _, inner) => (answer, some (s, inner))

def decode (format : FrameFormat) (d : Decompressor IoError σ) (patience : Nat)
    (input : ReadFn IoError τ) (reader : τ) (bufs : List Nat) :
    Option (Except Error (List UInt8)) :=
  match new format d input reader with
  | .error e => some (.error e)
  | .ok decoder =>
      (readUntilEnd (read format d patience input) bufs decoder).map fun result =>
        result.mapError Error.ofIo

end FramedDecoder

def parseLe (width : Nat) : Parser IoError Nat := Parser.le .unexpectedEof width

namespace FrameFormat

variable (format : FrameFormat)

/-- The fields of a header after the magic number: the compressed size, if they are a frame's. -/
def parseSize : Parser IoError (Option Nat) := do
  let skippableSize ← parseLe 4
  if skippableSize ≠ format.skippableSize then pure none
  else
    let compressedSize ← parseLe 4
    match format.codecMagic with
    | none => pure (some compressedSize)
    | some codecMagic =>
        let magic ← parseLe 2
        if magic ≠ codecMagic then pure none
        else
          let _ ← parseLe 2
          pure (some compressedSize)

def parseHeader (bytes : List UInt8) : Except IoError (Option (Nat × List UInt8)) :=
  match parseLe 4 bytes with
  | .error .unexpectedEof => .ok none
  | .error e => .error e
  | .ok (magic, bytes) =>
      if magic ≠ skippableFrameMagic then .ok none
      else
        match format.parseSize bytes with
        | .error e => .error e
        | .ok (none, _) => .ok none
        | .ok (some compressedSize, bytes) => .ok (some (compressedSize, bytes))

/-- What follows a frame of the given size, of which some bytes are left: the frame after it only
where all of them were read. -/
def nextFrame (size : Nat) (left after : List UInt8) : Except IoError (Option (Nat × List UInt8)) :=
  if 0 < size ∧ left = [] then format.parseHeader after else .ok none

theorem nextFrame_of_left {format : FrameFormat} {size : Nat} {left : List UInt8}
    (h : ¬ (0 < size ∧ left = [])) (after : List UInt8) :
    format.nextFrame size left after = .ok none :=
  if_neg h

theorem nextFrame_whole (size : Nat) (rest : List UInt8) :
    format.nextFrame size (rest.take size) (rest.drop size) = .ok none := by
  by_cases hleft : 0 < size ∧ rest.take size = []
  · obtain ⟨hsize, hnil⟩ := hleft
    obtain rfl := (List.take_eq_nil_iff.mp hnil).resolve_left (Nat.ne_of_gt hsize)
    rw [nextFrame, if_pos ⟨hsize, hnil⟩, List.drop_nil]
    rfl
  · exact nextFrame_of_left hleft _

theorem consumes_parseSize : Parser.Consumes format.parseSize 0 := by
  have hle (width : Nat) : Parser.Consumes (parseLe width) 0 :=
    (Parser.Consumes.le _ width).mono (Nat.zero_le _)
  apply (hle 4).bind (k := 0)
  intro skippableSize
  split
  · exact .pure _
  · apply (hle 4).bind (k := 0)
    intro compressedSize
    cases format.codecMagic with
    | none => exact .pure _
    | some codecMagic =>
        apply (hle 2).bind (k := 0)
        intro magic
        split
        · exact .pure _
        · exact (hle 2).bind fun _ => .pure _

theorem nextFrame_eq_some {format : FrameFormat} {size size' : Nat} {left after rest : List UInt8}
    (h : format.nextFrame size left after = .ok (some (size', rest))) :
    rest.length + 4 ≤ after.length := by
  unfold nextFrame at h
  split at h
  · unfold parseHeader at h
    split at h
    · cases h
    · cases h
    · rename_i hmagic
      have hfour := Parser.Consumes.le _ _ _ _ _ hmagic
      split at h
      · cases h
      · split at h
        · cases h
        · cases h
        · rename_i hsize
          cases h
          have := format.consumes_parseSize _ _ _ hsize
          omega
  · cases h

end FrameFormat

namespace InnerReader

section

variable {input : ReadFn IoError τ} {Holds : List UInt8 → τ → Prop} (hinput : Serves input Holds)

def HoldsPlain (Holds : List UInt8 → τ → Prop) (bytes : List UInt8) : InnerReader τ → Prop
  | .standard reader headerBuffer false =>
      ∃ rest, Holds rest reader ∧ bytes = headerBuffer ++ rest
  | .standard reader _ true => Holds bytes reader
  | _ => False

/-- In a frame of the given size, of which `packed` is left, with `after` behind it.  A frame may
be cut off by the end of the input. -/
def HoldsFrame (Holds : List UInt8 → τ → Prop) (size : Nat) (after packed : List UInt8) :
    InnerReader τ → Prop
  | .skippable reader remaining finished =>
      Holds (packed ++ after) reader ∧ packed.length ≤ remaining ∧ remaining ≤ size ∧
        (packed.length < remaining → after = []) ∧ (remaining = 0 → 0 < size → finished = true) ∧
        (finished = true → packed = [] ∧ 0 < size)
  | _ => False

include hinput

theorem serves_plain : Serves (read input) (HoldsPlain Holds) := by
  intro buf bytes r hbuf hr
  match r with
  | .standard reader headerBuffer true =>
      obtain ⟨piece, rest, reader', hread, hbytes, hlength, hend, hrest⟩ :=
        hinput buf bytes reader hbuf hr
      refine ⟨piece, rest, .standard reader' headerBuffer true, ?_, hbytes, hlength, hend, hrest⟩
      simp [read, hread]
  | .standard reader headerBuffer false =>
      obtain ⟨left, hleft, rfl⟩ := hr
      by_cases hheader : headerBuffer.take buf = []
      · have hempty := (List.take_eq_nil_iff.mp hheader).resolve_left (Nat.ne_of_gt hbuf)
        obtain ⟨piece, rest, reader', hread, hbytes, hlength, hend, hrest⟩ :=
          hinput buf left reader hbuf hleft
        refine ⟨piece, rest, .standard reader' headerBuffer true, ?_, ?_, hlength, hend, hrest⟩
        · simp [read, hheader, hread]
        · rw [hempty, List.nil_append, hbytes]
      · refine ⟨headerBuffer.take buf, headerBuffer.drop buf ++ left,
          .standard reader (headerBuffer.drop buf) false, ?_, ?_, List.length_take_le _ _,
          fun hnil => absurd hnil hheader, left, hleft, rfl⟩
        · simp [read, hheader]
        · rw [← List.append_assoc, List.take_append_drop]

theorem serves_frame (size : Nat) (after : List UInt8) :
    Serves (read input) (HoldsFrame Holds size after) := by
  intro buf packed r hbuf hr
  match r with
  | .skippable reader remaining finished =>
      obtain ⟨hholds, hle, hsize, hcut, hzero, hfinished⟩ := hr
      by_cases hdone : finished = true ∨ remaining = 0
      · have hpacked : packed = [] := by
          rcases hdone with hfin | hremaining
          · exact (hfinished hfin).1
          · exact List.eq_nil_of_length_eq_zero (Nat.le_zero.mp (hremaining ▸ hle))
        subst hpacked
        refine ⟨[], [], .skippable reader remaining finished, ?_, rfl, Nat.zero_le _, fun _ => rfl,
          hholds, hle, hsize, hcut, hzero, hfinished⟩
        simp [read, hdone]
      · obtain ⟨hfin, hremaining⟩ := not_or.mp hdone
        obtain ⟨piece, rest, reader', hread, hbytes, hlength, hend, hrest⟩ :=
          hinput (min remaining buf) (packed ++ after) reader (by omega) hholds
        have hnot : (finished || decide (remaining = 0)) = false := by
          simp [hfin, hremaining]
        by_cases hpiece : piece = []
        · subst hpiece
          obtain rfl := hend rfl
          obtain ⟨rfl, rfl⟩ := List.append_eq_nil_iff.mp hbytes
          refine ⟨[], [], .skippable reader' remaining true, ?_, rfl, Nat.zero_le _, fun _ => rfl,
            hrest, hle, hsize, fun _ => rfl, fun _ _ => rfl, fun _ => ⟨rfl, by omega⟩⟩
          simp [read, hnot, hread]
        · -- the piece is within the frame
          have hprefix : piece.length ≤ packed.length := by
            by_cases hshort : packed.length < remaining
            · have := congrArg List.length hbytes
              rw [hcut hshort, List.append_nil, List.length_append] at this
              omega
            · omega
          obtain ⟨packed', rfl, rfl⟩ : ∃ packed', packed = piece ++ packed' ∧
              rest = packed' ++ after := by
            obtain ⟨packed', rfl⟩ := List.prefix_of_prefix_length_le ⟨rest, hbytes.symm⟩
              (List.prefix_append packed after) hprefix
            rw [List.append_assoc] at hbytes
            exact ⟨packed', rfl, (List.append_cancel_left hbytes).symm⟩
          have hpos := List.length_pos_of_ne_nil hpiece
          rw [List.length_append] at hle hcut
          refine ⟨piece, packed', .skippable reader' (remaining - piece.length)
            (remaining - piece.length = 0), ?_, rfl, by omega, fun hnil => absurd hnil hpiece,
            hrest, by omega, by omega, fun hlt => hcut (by omega),
            fun hnil _ => by simpa using hnil, fun hnil => ⟨?_, by omega⟩⟩
          · simp [read, hnot, hread, hpiece]
          · have := of_decide_eq_true hnil
            exact List.eq_nil_of_length_eq_zero (by omega)

theorem readLe_readsAs (patience width : Nat) :
    ReadsAs Holds (readLe input patience width) (parseLe width) :=
  ReadsAs.readLeFrom hinput _ _ patience width

theorem frameSize_readsAs (format : FrameFormat) (patience : Nat) :
    ReadsAs Holds (frameSize input format patience) format.parseSize := by
  apply (readLe_readsAs hinput patience 4).bind
  intro skippableSize
  by_cases hsize : skippableSize = format.skippableSize
  · rw [if_neg (not_not.mpr hsize), if_neg (not_not.mpr hsize)]
    apply (readLe_readsAs hinput patience 4).bind
    intro compressedSize
    cases format.codecMagic with
    | none => exact .pure _
    | some codecMagic =>
        apply (readLe_readsAs hinput patience 2).bind
        intro magic
        by_cases hmagic : magic = codecMagic
        · rw [if_neg (not_not.mpr hmagic), if_neg (not_not.mpr hmagic)]
          apply (readLe_readsAs hinput patience 2).bind
          intro hint
          exact .pure _
        · rw [if_pos hmagic, if_pos hmagic]
          exact .pure _
  · rw [if_pos hsize, if_pos hsize]
    exact .pure _

omit hinput in
theorem holdsFrame_new {rest : List UInt8} {reader : τ} (h : Holds rest reader) (size : Nat) :
    HoldsFrame Holds size (rest.drop size) (rest.take size) (newSkippable reader size) := by
  refine ⟨?_, List.length_take_le _ _, Nat.le_refl _, fun hlt => ?_, fun hnil hpos => ?_, nofun⟩
  · rwa [List.take_append_drop]
  · rw [List.length_take] at hlt
    exact List.drop_of_length_le (by omega)
  · exact absurd hpos (by omega)

theorem readNextFrameHeader_cases (format : FrameFormat) (patience : Nat) {size : Nat}
    {left after : List UInt8} {r : InnerReader τ} (h : HoldsFrame Holds size after left r) :
    (∃ e r', format.nextFrame size left after = .error e ∧
        r.readNextFrameHeader input format patience = (.error e, r')) ∨
      (∃ r', format.nextFrame size left after = .ok none ∧
        r.readNextFrameHeader input format patience = (.ok false, r')) ∨
      (∃ rest size' r', format.nextFrame size left after = .ok (some (size', rest)) ∧
        r.readNextFrameHeader input format patience = (.ok true, r') ∧
        HoldsFrame Holds size' (rest.drop size') (rest.take size') r') := by
  match r with
  | .skippable reader remaining false =>
      obtain ⟨-, hle, -, hcut, hzero, -⟩ := h
      refine .inr (.inl ⟨_, ?_, rfl⟩)
      by_cases hleft : 0 < size ∧ left = []
      · obtain ⟨hsize, rfl⟩ := hleft
        have hremaining : remaining ≠ 0 := fun hnil => by simpa using hzero hnil hsize
        obtain rfl := hcut (Nat.pos_of_ne_zero hremaining)
        rw [FrameFormat.nextFrame, if_pos ⟨hsize, rfl⟩]
        rfl
      · exact FrameFormat.nextFrame_of_left hleft after
  | .skippable reader remaining true =>
      obtain ⟨hholds, -, -, -, -, hfinished⟩ := h
      obtain ⟨rfl, hsize⟩ := hfinished rfl
      rw [List.nil_append] at hholds
      rw [FrameFormat.nextFrame, if_pos ⟨hsize, rfl⟩]
      simp only [readNextFrameHeader, FrameFormat.parseHeader, Bool.not_true, Bool.false_eq_true,
        if_false]
      rcases readLe_readsAs hinput patience 4 hholds with
        ⟨magic, rest, reader', hp, hm, hrest⟩ | ⟨e, reader', hp, hm⟩
      · rw [hp, hm]
        dsimp only
        by_cases hmagic : magic = skippableFrameMagic
        · rw [if_neg (not_not.mpr hmagic), if_neg (not_not.mpr hmagic)]
          rcases frameSize_readsAs hinput format patience hrest with
            ⟨compressedSize, rest', reader₂, hp', hm', hrest'⟩ | ⟨e, reader₂, hp', hm'⟩
          · rw [hp', hm']
            cases compressedSize with
            | none => exact .inr (.inl ⟨_, rfl, rfl⟩)
            | some size' =>
                exact .inr (.inr ⟨rest', size', _, rfl, rfl, holdsFrame_new hrest' size'⟩)
          · rw [hp', hm']
            exact .inl ⟨e, _, rfl, rfl⟩
        · rw [if_pos hmagic, if_pos hmagic]
          exact .inr (.inl ⟨_, rfl, rfl⟩)
      · rw [hp, hm]
        cases e with
        | unexpectedEof => exact .inr (.inl ⟨_, rfl, rfl⟩)
        | interrupted => exact .inl ⟨_, _, rfl, rfl⟩
        | checksumVerificationFailed => exact .inl ⟨_, _, rfl, rfl⟩
        | other message => exact .inl ⟨_, _, rfl, rfl⟩

end

end InnerReader

open InnerReader

/-- What the frames behind one of the given size give, where the decompressor has come to the
given end of that one, and whether they end with an error. -/
inductive BehindFrame (format : FrameFormat) (d : Decompressor IoError σ) :
    Nat → Ending → List UInt8 → List UInt8 → Bool → Prop
  | failed {size : Nat} {after : List UInt8} : BehindFrame format d size .failed after [] true
  | last {size : Nat} {left after : List UInt8}
      (hnext : format.nextFrame size left after = .ok none) :
      BehindFrame format d size (.ended left) after [] false
  | broken {size : Nat} {left after : List UInt8} {e : IoError}
      (hnext : format.nextFrame size left after = .error e) :
      BehindFrame format d size (.ended left) after [] true
  /-- A frame without content is the end: an answer with no bytes says so. -/
  | blank {size size' : Nat} {left after rest : List UInt8} {ending : Ending}
      (hnext : format.nextFrame size left after = .ok (some (size', rest)))
      (hframe : d.Settles [] ending d.start (rest.take size')) :
      BehindFrame format d size (.ended left) after [] (ending = .failed)
  | frame {size size' : Nat} {left after rest content behind : List UInt8} {ending : Ending}
      {fails : Bool}
      (hnext : format.nextFrame size left after = .ok (some (size', rest)))
      (hframe : d.Settles content ending d.start (rest.take size')) (hcontent : content ≠ [])
      (hbehind : BehindFrame format d size' ending (rest.drop size') behind fails) :
      BehindFrame format d size (.ended left) after (content ++ behind) fails

theorem exists_behindFrame (format : FrameFormat) {d : Decompressor IoError σ} (hd : d.Independent)
    (size : Nat) (ending : Ending) (after : List UInt8) :
    ∃ behind fails, BehindFrame format d size ending after behind fails := by
  induction hn : after.length using Nat.strong_induction_on generalizing size ending after with
  | _ n ih =>
      subst hn
      cases ending with
      | failed => exact ⟨[], true, .failed⟩
      | ended left =>
          match hnext : format.nextFrame size left after with
          | .error e => exact ⟨[], true, .broken hnext⟩
          | .ok none => exact ⟨[], false, .last hnext⟩
          | .ok (some (size', rest)) =>
              have hrest := FrameFormat.nextFrame_eq_some hnext
              obtain ⟨content, ending', hframe⟩ := hd (rest.take size')
              by_cases hcontent : content = []
              · subst hcontent
                exact ⟨[], _, .blank hnext hframe⟩
              · have hlt : (rest.drop size').length < after.length := by
                  rw [List.length_drop]
                  omega
                obtain ⟨behind, fails, hbehind⟩ := ih _ hlt size' ending' _ rfl
                exact ⟨content ++ behind, fails, .frame hnext hframe hcontent hbehind⟩

namespace BehindFrame

variable {format : FrameFormat} {d : Decompressor IoError σ} {size : Nat}
  {left after behind : List UInt8} {fails : Bool}

theorem of_error {e : IoError} (h : BehindFrame format d size (.ended left) after behind fails)
    (hnext : format.nextFrame size left after = .error e) : behind = [] ∧ fails = true := by
  cases h with
  | last hnext' => cases hnext.symm.trans hnext'
  | broken _ => exact ⟨rfl, rfl⟩
  | blank hnext' _ => cases hnext.symm.trans hnext'
  | frame hnext' _ _ _ => cases hnext.symm.trans hnext'

theorem of_none (h : BehindFrame format d size (.ended left) after behind fails)
    (hnext : format.nextFrame size left after = .ok none) : behind = [] ∧ fails = false := by
  cases h with
  | last _ => exact ⟨rfl, rfl⟩
  | broken hnext' => cases hnext.symm.trans hnext'
  | blank hnext' _ => cases hnext.symm.trans hnext'
  | frame hnext' _ _ _ => cases hnext.symm.trans hnext'

theorem of_some {rest : List UInt8} {size' : Nat}
    (h : BehindFrame format d size (.ended left) after behind fails)
    (hnext : format.nextFrame size left after = .ok (some (size', rest))) :
    ∃ content ending, d.Settles content ending d.start (rest.take size') ∧
      ((content = [] ∧ behind = [] ∧ fails = decide (ending = .failed)) ∨
        (content ≠ [] ∧ ∃ behind', behind = content ++ behind' ∧
          BehindFrame format d size' ending (rest.drop size') behind' fails)) := by
  cases h with
  | last hnext' => cases hnext.symm.trans hnext'
  | broken hnext' => cases hnext.symm.trans hnext'
  | blank hnext' hframe =>
      cases hnext.symm.trans hnext'
      exact ⟨[], _, hframe, .inl ⟨rfl, rfl, rfl⟩⟩
  | frame hnext' hframe hcontent hbehind =>
      cases hnext.symm.trans hnext'
      exact ⟨_, _, hframe, .inr ⟨hcontent, _, rfl, hbehind⟩⟩

end BehindFrame

section

variable {input : ReadFn IoError τ} {Holds : List UInt8 → τ → Prop} (hinput : Serves input Holds)
  {format : FrameFormat} {d : Decompressor IoError σ}

namespace FramedDecoder

def LeftFrames (format : FrameFormat) (d : Decompressor IoError σ) (Holds : List UInt8 → τ → Prop)
    (left : List UInt8) (fails : Bool) : FramedDecoder σ τ → Prop
  | some (s, r) => ∃ size after packed content behind ending,
      HoldsFrame Holds size after packed r ∧ d.Settles content ending s packed ∧
        BehindFrame format d size ending after behind fails ∧ left = content ++ behind
  | none => False

def LeftPlain (d : Decompressor IoError σ) (Holds : List UInt8 → τ → Prop) (left : List UInt8)
    (fails : Bool) : FramedDecoder σ τ → Prop
  | some (s, r) => ∃ packed ending, HoldsPlain Holds packed r ∧ d.Settles left ending s packed ∧
      fails = decide (ending = .failed)
  | none => False

section

variable {patience buf : Nat} {s s' : σ} {r r' : InnerReader τ}
  {records : List (ReadRecord IoError)}

theorem read_piece {piece : List UInt8} (hpiece : piece ≠ [])
    (hrun : (d.read buf s).run (InnerReader.read input) r = ((.ok piece, s'), records, r')) :
    read format d patience input buf (some (s, r)) = (.ok piece, some (s', r')) := by
  obtain ⟨byte, bytes, rfl⟩ := List.exists_cons_of_ne_nil hpiece
  simp only [read, hrun]

theorem read_error {e : IoError}
    (hrun : (d.read buf s).run (InnerReader.read input) r = ((.error e, s'), records, r')) :
    read format d patience input buf (some (s, r)) = (.error e, some (s', r')) := by
  simp only [read, hrun]

theorem read_end
    (hrun : (d.read buf s).run (InnerReader.read input) r = ((.ok [], s'), records, r')) :
    read format d patience input buf (some (s, r)) =
      match r'.readNextFrameHeader input format patience with
      | (.error e, r) => (.error e, some (s', r))
      | (.ok false, _) => (.ok [], none)
      | (.ok true, r) =>
          let ((answer, s), _, r) := (d.read buf d.start).run (InnerReader.read input) r
          (answer, some (s, r)) := by
  simp only [read, hrun]

end

include hinput

theorem gives_plain (patience : Nat) :
    Gives (read format d patience input) (LeftPlain d Holds) := by
  intro buf left fails decoder hbuf hleft
  match decoder with
  | some (s, r) =>
      obtain ⟨packed, ending, hr, hs, rfl⟩ := hleft
      obtain ⟨answer, s', records, packed', r', hrun, hr', hcases⟩ :=
        hs.read (serves_plain hinput) hr hbuf
      rcases hcases with ⟨piece, content', rfl, hpiece, rfl, hs'⟩ | ⟨rfl, rfl, rfl⟩ |
        ⟨rfl, rfl, e, rfl⟩
      · exact .inl ⟨piece, content', _, hpiece, rfl, read_piece hpiece hrun, packed', ending, hr',
          hs', rfl⟩
      · match r' with
        | .standard _ _ _ => exact .inr (.inl ⟨rfl, rfl, _, read_end hrun⟩)
      · exact .inr (.inr ⟨rfl, rfl, e, _, read_error hrun⟩)

theorem gives_frames (patience : Nat) :
    Gives (read format d patience input) (LeftFrames format d Holds) := by
  intro buf left fails decoder hbuf hleft
  match decoder with
  | some (s, r) =>
      obtain ⟨size, after, packed, content, behind, ending, hr, hs, hbehind, rfl⟩ := hleft
      obtain ⟨answer, s', records, packed', r', hrun, hr', hcases⟩ :=
        hs.read (serves_frame hinput size after) hr hbuf
      rcases hcases with ⟨piece, content', rfl, hpiece, rfl, hs'⟩ | ⟨rfl, rfl, rfl⟩ |
        ⟨rfl, rfl, e, rfl⟩
      · exact .inl ⟨piece, content' ++ behind, _, hpiece, List.append_assoc _ _ _,
          read_piece hpiece hrun, size, after, packed', content', behind, ending, hr', hs',
          hbehind, rfl⟩
      · have hread : read format d patience input buf (some (s, r)) = _ := read_end hrun
        rw [hread, List.nil_append]
        rcases readNextFrameHeader_cases hinput format patience hr' with
          ⟨e, r₁, hnext, hheader⟩ | ⟨r₁, hnext, hheader⟩ | ⟨rest, size', r₁, hnext, hheader, hr₁⟩
        · obtain ⟨rfl, rfl⟩ := hbehind.of_error hnext
          rw [hheader]
          exact .inr (.inr ⟨rfl, rfl, e, _, rfl⟩)
        · obtain ⟨rfl, rfl⟩ := hbehind.of_none hnext
          rw [hheader]
          exact .inr (.inl ⟨rfl, rfl, _, rfl⟩)
        · obtain ⟨content, ending, hframe, hcontent⟩ := hbehind.of_some hnext
          obtain ⟨answer, s₁, records₁, packed₁, r₂, hrun₁, hr₂, hcases⟩ :=
            hframe.read (serves_frame hinput size' (rest.drop size')) hr₁ hbuf
          rw [hheader]
          dsimp only
          rw [hrun₁]
          rcases hcases with ⟨piece, content', rfl, hpiece, rfl, hs₁⟩ | ⟨rfl, rfl, rfl⟩ |
            ⟨rfl, rfl, e, rfl⟩
          · rcases hcontent with ⟨hnil, -⟩ | ⟨-, behind', rfl, hbehind'⟩
            · exact absurd (List.append_eq_nil_iff.mp hnil).1 hpiece
            · exact .inl ⟨piece, content' ++ behind', _, hpiece, List.append_assoc _ _ _, rfl,
                size', rest.drop size', packed₁, content', behind', ending, hr₂, hs₁, hbehind', rfl⟩
          · rcases hcontent with ⟨-, rfl, rfl⟩ | ⟨hne, -⟩
            · exact .inr (.inl ⟨rfl, rfl, _, rfl⟩)
            · exact absurd rfl hne
          · rcases hcontent with ⟨-, rfl, rfl⟩ | ⟨hne, -⟩
            · exact .inr (.inr ⟨rfl, rfl, e, _, rfl⟩)
            · exact absurd rfl hne
      · cases hbehind
        exact .inr (.inr ⟨rfl, rfl, e, _, read_error hrun⟩)

end FramedDecoder

end

end Sevenz
