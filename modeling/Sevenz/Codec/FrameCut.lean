/-!
# Cutting what is written into frames

What the framing encoders of `codec/lz4.rs` and `codec/brotli.rs` do with the calls on them.
-/

namespace Sevenz

inductive FramingCall where
  | write (buf : List UInt8)
  | flush
  deriving DecidableEq

namespace FramingCall

def written (calls : List FramingCall) : List UInt8 :=
  calls.flatMap fun
    | .write buf => buf
    | .flush => []

@[simp] theorem written_nil : written [] = [] := rfl

@[simp] theorem written_cons_write (buf : List UInt8) (calls : List FramingCall) :
    written (.write buf :: calls) = buf ++ written calls := rfl

@[simp] theorem written_cons_flush (calls : List FramingCall) :
    written (.flush :: calls) = written calls := rfl

end FramingCall

/-- What is written, cut into frames of one size and at each flush; the last frame is still
open. -/
structure FrameCut (frameSize : Nat) where
  frames : List (List UInt8)
  pending : List UInt8
  short : pending.length < frameSize

namespace FrameCut

variable {frameSize : Nat}

def new (h : 0 < frameSize) : FrameCut frameSize := ⟨[], [], h⟩

def push (cut : FrameCut frameSize) (byte : UInt8) : FrameCut frameSize :=
  if h : (cut.pending ++ [byte]).length < frameSize then ⟨cut.frames, cut.pending ++ [byte], h⟩
  else ⟨cut.frames ++ [cut.pending ++ [byte]], [], Nat.zero_lt_of_lt cut.short⟩

def write (cut : FrameCut frameSize) (buf : List UInt8) : FrameCut frameSize := buf.foldl push cut

def flush (cut : FrameCut frameSize) : FrameCut frameSize :=
  ⟨cut.frames ++ [cut.pending], [], Nat.zero_lt_of_lt cut.short⟩

def call (cut : FrameCut frameSize) : FramingCall → FrameCut frameSize
  | .write buf => cut.write buf
  | .flush => cut.flush

def ofCalls (h : 0 < frameSize) (calls : List FramingCall) : FrameCut frameSize :=
  calls.foldl call (new h)

def content (cut : FrameCut frameSize) : List UInt8 := cut.frames.flatten ++ cut.pending

@[simp] theorem write_nil (cut : FrameCut frameSize) : cut.write [] = cut := rfl

theorem write_append (cut : FrameCut frameSize) (xs ys : List UInt8) :
    cut.write (xs ++ ys) = (cut.write xs).write ys := List.foldl_append ..

theorem write_of_lt (cut : FrameCut frameSize) (chunk : List UInt8)
    (h : (cut.pending ++ chunk).length < frameSize) :
    cut.write chunk = ⟨cut.frames, cut.pending ++ chunk, h⟩ := by
  induction chunk generalizing cut with
  | nil => simp
  | cons byte chunk ih =>
      have hbyte : (cut.pending ++ [byte]).length < frameSize := by
        simp only [List.length_append, List.length_cons, List.length_nil] at h ⊢
        omega
      have hpush : cut.push byte = ⟨cut.frames, cut.pending ++ [byte], hbyte⟩ := dif_pos hbyte
      rw [write, List.foldl_cons, hpush]
      have := ih ⟨cut.frames, cut.pending ++ [byte], hbyte⟩ (by simpa using h)
      simpa [write] using this

theorem write_of_eq (cut : FrameCut frameSize) (chunk : List UInt8)
    (h : (cut.pending ++ chunk).length = frameSize) :
    cut.write chunk =
      ⟨cut.frames ++ [cut.pending ++ chunk], [], Nat.zero_lt_of_lt cut.short⟩ := by
  have hne : chunk ≠ [] := by
    rintro rfl
    have := cut.short
    simp at h
    omega
  obtain ⟨chunk, byte, rfl⟩ := (List.eq_nil_or_concat chunk).resolve_left hne
  have hlt : (cut.pending ++ chunk).length < frameSize := by
    simp only [List.length_append, List.length_concat] at h ⊢
    omega
  rw [List.concat_eq_append] at h ⊢
  rw [write_append, write_of_lt cut chunk hlt]
  have hfull : ¬ (cut.pending ++ chunk ++ [byte]).length < frameSize := by
    rw [List.append_assoc]
    omega
  have hpush : (⟨cut.frames, cut.pending ++ chunk, hlt⟩ : FrameCut frameSize).push byte =
      ⟨cut.frames ++ [cut.pending ++ chunk ++ [byte]], [], Nat.zero_lt_of_lt cut.short⟩ :=
    dif_neg hfull
  rw [write, List.foldl_cons, hpush, List.foldl_nil, List.append_assoc]

theorem content_push (cut : FrameCut frameSize) (byte : UInt8) :
    (cut.push byte).content = cut.content ++ [byte] := by
  unfold push
  split <;> simp [content]

theorem content_write (cut : FrameCut frameSize) (buf : List UInt8) :
    (cut.write buf).content = cut.content ++ buf := by
  induction buf generalizing cut with
  | nil => simp
  | cons byte buf ih =>
      rw [write, List.foldl_cons]
      have := ih (cut.push byte)
      rw [write] at this
      rw [this, content_push, List.append_assoc, List.singleton_append]

@[simp] theorem content_flush (cut : FrameCut frameSize) : cut.flush.content = cut.content := by
  simp [flush, content]

theorem content_ofCalls (h : 0 < frameSize) (calls : List FramingCall) :
    (ofCalls h calls).content = FramingCall.written calls := by
  have hfold : ∀ cut : FrameCut frameSize,
      (calls.foldl call cut).content = cut.content ++ FramingCall.written calls := by
    induction calls with
    | nil => simp
    | cons first calls ih =>
        intro cut
        cases first <;> simp [call, ih, content_write]
  rw [ofCalls, hfold]
  rfl

end FrameCut

end Sevenz
