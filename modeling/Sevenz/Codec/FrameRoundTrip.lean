import Sevenz.Codec.FrameDecoder

/-!
# What a framed decoder reads back

Of bytes in memory: whole frames up to the first without content, and native streams that do not
look framed.
-/

namespace Sevenz

open Lib

variable {σ : Type}

def sliceRead : ReadFn IoError (List UInt8) := fun buf bytes =>
  (.ok (bytes.take buf), bytes.drop buf)

theorem serves_slice : Serves sliceRead fun bytes reader => reader = bytes := by
  rintro buf _ bytes hbuf rfl
  obtain ⟨happend, hlength, hend⟩ := take_serves hbuf bytes
  exact ⟨_, _, _, rfl, happend, hlength, hend, rfl⟩

theorem parseLe_leBytes {width value : Nat} (h : value < 256 ^ width) (rest : List UInt8) :
    parseLe width (leBytes width value ++ rest) = .ok (value, rest) := by
  have hdecodes : Parser.Decodes (parseLe width) (leBytes width value) value :=
    Parser.Decodes.le _ h
  exact hdecodes rest

theorem leValue_take {width value : Nat} (h : value < 256 ^ width) (rest : List UInt8) :
    leValue ((leBytes width value ++ rest).take width) = value := by
  rw [List.take_left' (leBytes_length width value), leValue_leBytes_of_lt h]

theorem drop_leBytes (width value : Nat) (rest : List UInt8) :
    (leBytes width value ++ rest).drop width = rest :=
  List.drop_left' (leBytes_length width value)

namespace FrameFormat

variable (format : FrameFormat)

theorem skippableSize_lt : format.skippableSize < 2 ^ 32 := by
  rw [format.skippableSize_eq]
  split <;> decide

theorem header_length (hint compressedSize : Nat) :
    (format.header hint compressedSize).length = 8 + format.skippableSize := by
  rw [format.skippableSize_eq, header, codecFields]
  cases format.codecMagic <;> simp

theorem parseSize_fields {hint size : Nat} (hhint : hint < 2 ^ 16) (hsize : size < 2 ^ 32)
    (rest : List UInt8) :
    format.parseSize (leBytes 4 format.skippableSize ++ (leBytes 4 size ++
      (format.codecFields hint ++ rest))) = .ok (some size, rest) := by
  have hskippable := format.skippableSize_lt
  have hmagic := format.codecMagic_lt
  rw [parseSize, Parser.bind_apply_ok (parseLe_leBytes (by omega) _), if_neg (not_not.mpr rfl),
    Parser.bind_apply_ok (parseLe_leBytes (by omega) _)]
  unfold codecFields
  cases hcodec : format.codecMagic with
  | none => rfl
  | some magic =>
      have hlt := hmagic magic hcodec
      simp only [List.append_assoc]
      rw [Parser.bind_apply_ok (parseLe_leBytes (by omega) _), if_neg (not_not.mpr rfl),
        Parser.bind_apply_ok (parseLe_leBytes (by omega) _)]
      rfl

theorem nextFrame_frame {size : Nat} (hsize : 0 < size) {hint : Nat} (hhint : hint < 2 ^ 16)
    {packed : List UInt8} (hfits : packed.length < 2 ^ 32) (more : List UInt8) :
    format.nextFrame size [] (format.frame hint packed ++ more) =
      .ok (some (packed.length, packed ++ more)) := by
  have hmagic : parseLe 4 (format.frame hint packed ++ more) = .ok (skippableFrameMagic,
      leBytes 4 format.skippableSize ++ (leBytes 4 packed.length ++
        (format.codecFields hint ++ (packed ++ more)))) := by
    simp only [FrameFormat.frame, FrameFormat.header, List.append_assoc]
    exact parseLe_leBytes (by decide) _
  rw [nextFrame, if_pos ⟨hsize, rfl⟩, parseHeader, hmagic]
  simp only [format.parseSize_fields hhint hfits]
  rfl

end FrameFormat

structure CodecFrame where
  hint : Nat
  packed : List UInt8
  content : List UInt8

namespace CodecFrame

structure Sound (d : Decompressor IoError σ) (frame : CodecFrame) : Prop where
  hint : frame.hint < 2 ^ 16
  packed : frame.packed ≠ []
  fits : frame.packed.length < 2 ^ 32
  decodes : d.Decodes frame.packed frame.content

def bytes (format : FrameFormat) (frames : List CodecFrame) : List UInt8 :=
  frames.flatMap fun frame => format.frame frame.hint frame.packed

@[simp] theorem bytes_nil (format : FrameFormat) : bytes format [] = [] := rfl

theorem bytes_cons (format : FrameFormat) (frame : CodecFrame) (frames : List CodecFrame) :
    bytes format (frame :: frames) =
      format.frame frame.hint frame.packed ++ bytes format frames := rfl

theorem bytes_append (format : FrameFormat) (xs ys : List CodecFrame) :
    bytes format (xs ++ ys) = bytes format xs ++ bytes format ys := List.flatMap_append

def yielded (frames : List CodecFrame) : List UInt8 :=
  (frames.takeWhile fun frame => !frame.content.isEmpty).flatMap content

@[simp] theorem yielded_nil : yielded [] = [] := rfl

theorem yielded_cons_of_nil {frame : CodecFrame} (h : frame.content = [])
    (frames : List CodecFrame) :
    yielded (frame :: frames) = [] := by
  simp [yielded, h]

theorem yielded_cons_of_ne {frame : CodecFrame} (h : frame.content ≠ [])
    (frames : List CodecFrame) :
    yielded (frame :: frames) = frame.content ++ yielded frames := by
  simp [yielded, h]

/-- All of the content is read exactly if what comes after a frame without content has none
either. -/
theorem yielded_eq_iff (frames : List CodecFrame) :
    yielded frames = (frames.map content).flatten ↔
      (frames.map content).Pairwise fun earlier later => earlier = [] → later = [] := by
  induction frames with
  | nil => simp
  | cons frame frames ih =>
      rw [List.map_cons, List.pairwise_cons, List.flatten_cons]
      by_cases hempty : frame.content = []
      · rw [yielded_cons_of_nil hempty, hempty, List.nil_append, eq_comm, List.flatten_eq_nil_iff]
        constructor
        · intro hall
          refine ⟨fun later hlater _ => hall later hlater, List.pairwise_of_forall_mem_list ?_⟩
          exact fun _ _ later hlater _ => hall later hlater
        · rintro ⟨hall, -⟩ later hlater
          exact hall later hlater rfl
      · rw [yielded_cons_of_ne hempty, List.append_cancel_left_eq, ih]
        simp [hempty]

theorem length_yielded_le (frames : List CodecFrame) :
    (yielded frames).length ≤ (frames.map content).flatten.length := by
  induction frames with
  | nil => simp
  | cons frame frames ih =>
      by_cases hempty : frame.content = []
      · simp [yielded_cons_of_nil hempty]
      · rw [yielded_cons_of_ne hempty]
        simpa using ih

end CodecFrame

theorem CodecFrame.behindFrame (format : FrameFormat) {d : Decompressor IoError σ}
    {frames : List CodecFrame} (hframes : ∀ frame ∈ frames, frame.Sound d) {size : Nat}
    (hsize : 0 < size) :
    BehindFrame format d size (.ended []) (bytes format frames) (yielded frames) false := by
  induction frames generalizing size with
  | nil =>
      apply BehindFrame.last
      rw [FrameFormat.nextFrame, if_pos ⟨hsize, rfl⟩]
      rfl
  | cons frame frames ih =>
      obtain ⟨hframe, hframes⟩ := List.forall_mem_cons.mp hframes
      have hpos := List.length_pos_of_ne_nil hframe.packed
      have hnext := format.nextFrame_frame hsize hframe.hint hframe.fits (bytes format frames)
      have hsettles : d.Settles frame.content (.ended []) d.start
          ((frame.packed ++ bytes format frames).take frame.packed.length) := by
        rw [List.take_left]
        exact hframe.decodes.settles
      rw [bytes_cons]
      by_cases hempty : frame.content = []
      · rw [yielded_cons_of_nil hempty]
        rw [hempty] at hsettles
        exact .blank hnext hsettles
      · rw [yielded_cons_of_ne hempty]
        apply BehindFrame.frame hnext hsettles hempty
        rw [List.drop_left]
        exact ih hframes hpos

namespace FramedDecoder

open InnerReader

variable {format : FrameFormat} {d : Decompressor IoError σ}

theorem new_frame (format : FrameFormat) (d : Decompressor IoError σ) (hint : Nat)
    {packed : List UInt8} (hfits : packed.length < 2 ^ 32)
    (more : List UInt8) :
    new format d sliceRead (format.frame hint packed ++ more) =
      .ok (some (d.start, .newSkippable (packed ++ more) packed.length)) := by
  have hlength := format.header_length hint packed.length
  have hskippable := format.skippableSize_lt
  have htake : (format.frame hint packed ++ more).take (8 + format.skippableSize) =
      format.header hint packed.length := by
    rw [FrameFormat.frame, List.append_assoc]
    exact List.take_left' hlength
  have hdrop : (format.frame hint packed ++ more).drop (8 + format.skippableSize) =
      packed ++ more := by
    rw [FrameFormat.frame, List.append_assoc]
    exact List.drop_left' hlength
  have hmagic : leValue ((format.header hint packed.length).take 4) = skippableFrameMagic :=
    leValue_take (by decide) _
  have hsize : leValue (((format.header hint packed.length).drop 4).take 4) =
      format.skippableSize := by
    rw [FrameFormat.header, drop_leBytes]
    exact leValue_take (by omega) _
  have hpackedSize : leValue (((format.header hint packed.length).drop 8).take 4) =
      packed.length := by
    rw [FrameFormat.header, ← List.drop_drop (i := 4) (j := 4), drop_leBytes, drop_leBytes]
    exact leValue_take (by omega) _
  have hcodec : ∀ magic, format.codecMagic = some magic →
      leValue (((format.header hint packed.length).drop 12).take 2) = magic := by
    intro magic hmagic
    have hlt := format.codecMagic_lt magic hmagic
    rw [FrameFormat.header, ← List.drop_drop (i := 8) (j := 4),
      ← List.drop_drop (i := 4) (j := 4), drop_leBytes, drop_leBytes, drop_leBytes,
      FrameFormat.codecFields, hmagic]
    exact leValue_take (by omega) _
  simp only [new, sliceRead, htake, hdrop, hlength]
  rw [if_neg (by omega), if_pos ⟨hmagic, Nat.le_refl _⟩, if_neg (not_not.mpr hsize),
    hpackedSize]
  cases hformat : format.codecMagic with
  | none => rfl
  | some magic =>
      simp only []
      rw [if_neg (not_not.mpr (hcodec magic hformat))]

/-- A decoder reads whole frames back up to the first without content, the very first apart. -/
theorem readsBack_frames (retry : IoError → Bool) (patience : Nat) {frame : CodecFrame}
    {frames : List CodecFrame} (hframes : ∀ f ∈ frame :: frames, f.Sound d)
    {decoder : FramedDecoder σ (List UInt8)}
    (hnew : new format d sliceRead (CodecFrame.bytes format (frame :: frames)) = .ok decoder)
    (content : List UInt8) :
    ReadsBack retry (read format d patience sliceRead) decoder content ↔
      content = frame.content ++ CodecFrame.yielded frames := by
  obtain ⟨hframe, hframes⟩ := List.forall_mem_cons.mp hframes
  have hpos := List.length_pos_of_ne_nil hframe.packed
  have hholds : HoldsFrame (fun bytes reader => reader = bytes) frame.packed.length
      (CodecFrame.bytes format frames) frame.packed
      (.newSkippable (frame.packed ++ CodecFrame.bytes format frames) frame.packed.length) := by
    have hat := @holdsFrame_new _ (fun bytes reader => reader = bytes) _ _
      (Eq.refl (frame.packed ++ CodecFrame.bytes format frames)) frame.packed.length
    rwa [List.drop_left, List.take_left] at hat
  rw [CodecFrame.bytes_cons, new_frame format d frame.hint hframe.fits] at hnew
  cases hnew
  have hleft : LeftFrames format d (fun bytes reader => reader = bytes)
      (frame.content ++ CodecFrame.yielded frames) false
      (some (d.start, .newSkippable (frame.packed ++ CodecFrame.bytes format frames)
        frame.packed.length)) :=
    ⟨_, _, _, _, _, _, hholds, hframe.decodes.settles,
      CodecFrame.behindFrame format hframes hpos, rfl⟩
  exact (gives_frames serves_slice patience).yields.readsBack_iff retry hleft content

def LooksFramed (format : FrameFormat) (bytes : List UInt8) : Prop :=
  leValue (bytes.take 4) = skippableFrameMagic ∧ 8 + format.skippableSize ≤ bytes.length

instance (format : FrameFormat) (bytes : List UInt8) : Decidable (LooksFramed format bytes) :=
  inferInstanceAs (Decidable (_ ∧ _))

def BeginsFrame (format : FrameFormat) (bytes : List UInt8) : Prop :=
  LooksFramed format bytes ∧ leValue ((bytes.drop 4).take 4) = format.skippableSize ∧
    ∀ magic ∈ format.codecMagic, leValue ((bytes.drop 12).take 2) = magic

theorem new_refused (d : Decompressor IoError σ) {bytes : List UInt8}
    (hlooks : LooksFramed format bytes) (hbegins : ¬ BeginsFrame format bytes) :
    ∃ e, new format d sliceRead bytes = .error e := by
  obtain ⟨hmagic, hle⟩ := hlooks
  have htake (i n : Nat) (h : i + n ≤ 8 + format.skippableSize) :
      (((bytes.take (8 + format.skippableSize)).drop i).take n) = (bytes.drop i).take n := by
    rw [List.drop_take, List.take_take, Nat.min_eq_left (by omega)]
  have hlength : (bytes.take (8 + format.skippableSize)).length = 8 + format.skippableSize := by
    rw [List.length_take, Nat.min_eq_left hle]
  have hfirst := htake 0 4 (by omega)
  rw [List.drop_zero, List.drop_zero] at hfirst
  have hskippable := format.skippableSize_eq
  simp only [new, sliceRead]
  rw [hlength, if_neg (by omega), hfirst, if_pos ⟨hmagic, Nat.le_refl _⟩]
  by_cases hsize : leValue ((bytes.drop 4).take 4) = format.skippableSize
  · cases hcodec : format.codecMagic with
    | none => exact absurd ⟨⟨hmagic, hle⟩, hsize, by simp [hcodec]⟩ hbegins
    | some magic =>
        have hdrop := htake 12 2 (by rw [hskippable, hcodec]; simp)
        have hne : leValue ((bytes.drop 12).take 2) ≠ magic := by
          intro heq
          exact hbegins ⟨⟨hmagic, hle⟩, hsize, by simpa [hcodec] using heq⟩
        refine ⟨.other format.invalidMagic, ?_⟩
        rw [htake 4 4 (by omega), if_neg (not_not.mpr hsize)]
        simp only [hdrop]
        rw [if_pos hne]
  · refine ⟨.other format.invalidSize, ?_⟩
    have hfour : 4 + 4 ≤ 8 + format.skippableSize := by omega
    rw [htake 4 4 hfour, if_pos hsize]

theorem new_plain {bytes : List UInt8} (hlength : 4 ≤ bytes.length)
    (hframed : ¬ LooksFramed format bytes) {content : List UInt8}
    (hdecodes : d.Decodes bytes content) :
    ∃ decoder, new format d sliceRead bytes = .ok decoder ∧
      LeftPlain d (fun bytes reader => reader = bytes) content false decoder := by
  have hheader : ((bytes.take (8 + format.skippableSize)).take 4) = bytes.take 4 := by
    rw [List.take_take, Nat.min_eq_left (by omega)]
  have hshort : ¬ (bytes.take (8 + format.skippableSize)).length < 4 := by
    rw [List.length_take]
    omega
  have hnot : ¬ (leValue ((bytes.take (8 + format.skippableSize)).take 4) = skippableFrameMagic ∧
      8 + format.skippableSize ≤ (bytes.take (8 + format.skippableSize)).length) := by
    rw [hheader, List.length_take]
    rintro ⟨hmagic, hle⟩
    exact hframed ⟨hmagic, by omega⟩
  refine ⟨some (d.start, .newStandard (bytes.drop (8 + format.skippableSize))
    (bytes.take (8 + format.skippableSize))), ?_, bytes, .ended [], ⟨_, rfl, ?_⟩,
    hdecodes.settles, rfl⟩
  · simp only [new, sliceRead]
    rw [if_neg hshort, if_neg hnot]
  · exact (List.take_append_drop _ bytes).symm

theorem new_short {bytes : List UInt8} (hlength : bytes.length < 4) :
    new format d sliceRead bytes = .error (.other "Input too short") := by
  have hshort : (bytes.take (8 + format.skippableSize)).length < 4 := by
    rw [List.length_take]
    omega
  simp only [new, sliceRead]
  rw [if_pos hshort]

end FramedDecoder

/-- A new decoder over the bytes gives back the content, and then its end. -/
def DecodesTo (format : FrameFormat) (d : Decompressor IoError σ)
    (bytes content : List UInt8) : Prop :=
  ∃ decoder, FramedDecoder.new format d sliceRead bytes = .ok decoder ∧ ∀ patience,
    ReadsBack (fun e => e = .interrupted) (FramedDecoder.read format d patience sliceRead) decoder
      content

/-- What whole frames hold, and something pending, is read back exactly if nothing is pending,
there is a frame, and of the frames after the first those after one without content have none
either. -/
theorem decodesTo_frames_iff (format : FrameFormat) {d : Decompressor IoError σ}
    {frames : List CodecFrame} (hframes : ∀ frame ∈ frames, frame.Sound d) (pending : List UInt8) :
    DecodesTo format d (CodecFrame.bytes format frames)
        ((frames.map CodecFrame.content).flatten ++ pending) ↔
      pending = [] ∧ frames.map CodecFrame.content ≠ [] ∧
        (frames.map CodecFrame.content).tail.Pairwise
          fun earlier later => earlier = [] → later = [] := by
  cases frames with
  | nil => simp [DecodesTo, FramedDecoder.new_short]
  | cons frame frames =>
      have hframe := hframes frame List.mem_cons_self
      have hnew := FramedDecoder.new_frame format d frame.hint hframe.fits
        (CodecFrame.bytes format frames)
      rw [← CodecFrame.bytes_cons] at hnew
      have hiff (patience : Nat) :=
        FramedDecoder.readsBack_frames (fun e => e = .interrupted) patience hframes hnew
      have hall := CodecFrame.yielded_eq_iff frames
      constructor
      · rintro ⟨decoder, hdecoder, hback⟩
        cases hnew.symm.trans hdecoder
        have hcontent := (hiff 0 _).mp (hback 0)
        rw [List.map_cons, List.flatten_cons, List.append_assoc, List.append_cancel_left_eq]
          at hcontent
        have hle := CodecFrame.length_yielded_le frames
        rw [← hcontent, List.length_append] at hle
        have hpending : pending = [] := List.eq_nil_of_length_eq_zero (by omega)
        rw [hpending, List.append_nil] at hcontent
        exact ⟨hpending, List.cons_ne_nil _ _, hall.mp hcontent.symm⟩
      · rintro ⟨rfl, -, hpairwise⟩
        refine ⟨_, hnew, fun patience => (hiff patience _).mpr ?_⟩
        rw [List.append_nil, List.map_cons, List.flatten_cons, hall.mpr hpairwise]

end Sevenz
