import Sevenz.Encryption.AesEncoder
import Sevenz.Writer.WrappedChain

/-!
# The running size of the AES encoder

`Aes256Sha256Encoder` adds the length of each block it writes to a `u32`.  A build that checks
arithmetic panics where the sum does not fit, and one that does not check it wraps.
-/

namespace Sevenz

open Lib

def addWriteSize (checks : Bool) (writeSize : UInt32) : Result UInt32 :=
  if checks = true ∧ 2 ^ 32 ≤ writeSize.toNat + 16 then
    .error (.panic .attemptToAddWithOverflow)
  else .ok (writeSize + 16)

namespace AesState

section

variable {σ : Type} (w : ByteSink Fault σ) (checks : Bool) (cipher : BlockCipher)

def writeBlockIn (block : List UInt8) (state : AesState) (s : σ) : Result (AesState × σ) :=
  match w.writeAll writeZero (cipher.encrypt state.blocks block) s with
  | .error fault => .error fault
  | .ok s =>
      match addWriteSize checks state.writeSize with
      | .error fault => .error fault
      | .ok writeSize => .ok ({ state with blocks := state.blocks ++ [block], writeSize }, s)

def writeChunksIn : Nat → List UInt8 → AesState → σ → Result (AesState × σ)
  | 0, _, state, s => .ok (state, s)
  | rounds + 1, buf, state, s =>
      if h : buf.length < 16 then .ok ({ state with buffer := buf, short := h }, s)
      else do
        let (state, s) ← state.writeBlockIn w checks cipher (buf.take 16) s
        writeChunksIn rounds (buf.drop 16) state s

def flushIn (state : AesState) (s : σ) : Result (AesState × σ) :=
  if state.buffer.isEmpty || !state.finished then .ok (state, s)
  else do
    let block := state.buffer ++ List.replicate (16 - state.buffer.length) 0
    let (state, s) ← state.writeBlockIn w checks cipher block s
    pure ({ state with buffer := [], short := AesState.short_nil }, s)

def writeIn (buf : List UInt8) (state : AesState) (s : σ) : Result (Nat × AesState × σ) :=
  if state.finished && !buf.isEmpty then .ok (0, state, s)
  else if buf.isEmpty then do
    let (state, s) ← { state with finished := true : AesState }.flushIn w checks cipher s
    let (taken, s) ← w.write [] s
    pure (taken, state, s)
  else if state.buffer.isEmpty then do
    let (state, s) ← state.writeChunksIn w checks cipher (buf.length + 1) buf s
    pure (buf.length, state, s)
  else if h : buf.length + state.buffer.length < 16 then
    .ok (buf.length,
      { state with
        buffer := state.buffer ++ buf
        short := AesState.short_append h }, s)
  else do
    let end_ := 16 - state.buffer.length
    let (state, s) ← state.writeBlockIn w checks cipher (state.buffer ++ buf.take end_) s
    let (state, s) ←
      { state with buffer := [], short := AesState.short_nil : AesState }.writeChunksIn w checks
        cipher (buf.length + 1) (buf.drop end_) s
    pure (buf.length, state, s)

def encodeIn : List (List UInt8) → AesState → σ → Result (AesState × σ)
  | [], state, s => do
      let (_, state, s) ← state.writeIn w checks cipher [] s
      pure (state, s)
  | buf :: bufs, state, s => do
      let (_, state, s) ← state.writeIn w checks cipher buf s
      encodeIn bufs state s

end

section

variable {σ : Type} (w : ByteSink Fault σ) (cipher : BlockCipher)

theorem writeBlockIn_false (block : List UInt8) (state : AesState) (s : σ) :
    state.writeBlockIn w false cipher block s = state.writeBlock w cipher block s := by
  unfold writeBlockIn writeBlock
  cases w.writeAll writeZero (cipher.encrypt state.blocks block) s <;> rfl

theorem writeChunksIn_false (rounds : Nat) (buf : List UInt8) (state : AesState) (s : σ) :
    state.writeChunksIn w false cipher rounds buf s = state.writeChunks w cipher rounds buf s := by
  induction rounds generalizing buf state s with
  | zero => rfl
  | succ rounds ih =>
      rw [writeChunksIn, writeChunks, writeBlockIn_false]
      simp only [ih]

theorem flushIn_false (state : AesState) (s : σ) :
    state.flushIn w false cipher s = state.flush w cipher s := by
  simp only [flushIn, flush, writeBlockIn_false]

theorem writeIn_false (buf : List UInt8) (state : AesState) (s : σ) :
    state.writeIn w false cipher buf s = state.write w cipher buf s := by
  simp only [writeIn, write, flushIn_false, writeChunksIn_false, writeBlockIn_false]

def encode : List (List UInt8) → AesState → σ → Result (AesState × σ)
  | [], state, s => do
      let (_, state, s) ← state.write w cipher [] s
      pure (state, s)
  | buf :: bufs, state, s => do
      let (_, state, s) ← state.write w cipher buf s
      encode bufs state s

theorem encodeIn_false (bufs : List (List UInt8)) (state : AesState) (s : σ) :
    encodeIn w false cipher bufs state s = encode w cipher bufs state s := by
  induction bufs generalizing state s with
  | nil => rw [encodeIn, encode, writeIn_false]
  | cons buf bufs ih =>
      rw [encodeIn, encode, writeIn_false]
      simp only [ih]

end

structure Took (checks : Bool) (state : AesState) (data : List UInt8) : Prop where
  data : state.blocks.flatten ++ state.buffer = data
  full : ∀ block ∈ state.blocks, block.length = 16
  count : checks = true → state.writeSize.toNat = 16 * state.blocks.length

theorem addWriteSize_eq_ok {checks : Bool} {writeSize after : UInt32}
    (h : addWriteSize checks writeSize = .ok after) :
    after = writeSize + 16 ∧ (checks = true → after.toNat = writeSize.toNat + 16) := by
  unfold addWriteSize at h
  split at h
  · cases h
  · rename_i hfits
    obtain rfl := Except.ok.inj h
    refine ⟨rfl, fun hchecks => ?_⟩
    have hlt : writeSize.toNat + 16 < 2 ^ 32 := by
      by_contra hlarge
      exact hfits ⟨hchecks, Nat.le_of_not_lt hlarge⟩
    rw [UInt32.toNat_add]
    exact Nat.mod_eq_of_lt hlt

section

variable {σ : Type} {w : ByteSink Fault σ} {checks : Bool} {cipher : BlockCipher}

theorem writeBlockIn_eq_ok {block : List UInt8} {state state' : AesState} {s s' : σ}
    (h : state.writeBlockIn w checks cipher block s = .ok (state', s')) :
    state'.blocks = state.blocks ++ [block] ∧ state'.buffer = state.buffer ∧
      state'.finished = state.finished ∧ state'.writeSize = state.writeSize + 16 ∧
      (checks = true → state'.writeSize.toNat = state.writeSize.toNat + 16) := by
  unfold writeBlockIn at h
  split at h
  · cases h
  · split at h
    · cases h
    · rename_i writeSize hsize
      cases h
      obtain ⟨hadd, hexact⟩ := addWriteSize_eq_ok hsize
      exact ⟨rfl, rfl, rfl, hadd, hexact⟩

theorem Took.writeBlock {block data : List UInt8} {state state' : AesState} {s s' : σ}
    (hfull : block.length = 16) (h : state.writeBlockIn w checks cipher block s = .ok (state', s'))
    (htook : state.Took checks data) :
    Took checks { state' with buffer := [], short := by decide }
      (state.blocks.flatten ++ block) := by
  obtain ⟨hblocks, -, -, -, hcount⟩ := writeBlockIn_eq_ok h
  refine ⟨?_, ?_, ?_⟩
  · simp only [hblocks, List.flatten_append, List.flatten_cons, List.flatten_nil, List.append_nil]
  · intro other hother
    simp only [hblocks] at hother
    rcases List.mem_append.mp hother with hother | hother
    · exact htook.full other hother
    · rw [List.mem_singleton.mp hother, hfull]
  · intro hchecks
    simp only [hblocks, List.length_append, List.length_cons, List.length_nil]
    rw [hcount hchecks, htook.count hchecks]
    omega

theorem Took.writeChunks {rounds : Nat} {buf data : List UInt8} {state state' : AesState}
    {s s' : σ} (hrounds : buf.length < rounds) (hempty : state.buffer = [])
    (htook : state.Took checks data)
    (h : state.writeChunksIn w checks cipher rounds buf s = .ok (state', s')) :
    state'.Took checks (data ++ buf) ∧ state'.finished = state.finished := by
  induction rounds generalizing buf data state s with
  | zero => exact absurd hrounds (Nat.not_lt_zero _)
  | succ rounds ih =>
      have hdata : state.blocks.flatten = data := by
        rw [← htook.data, hempty, List.append_nil]
      rw [writeChunksIn] at h
      split at h
      · cases h
        exact ⟨⟨by rw [← hdata], htook.full, htook.count⟩, rfl⟩
      · rename_i hlong
        obtain ⟨⟨state₁, s₁⟩, hblock, h⟩ := Result.bind_eq_ok.mp h
        obtain ⟨-, hbuffer₁, hfinished₁, -⟩ := writeBlockIn_eq_ok hblock
        have hfull : (buf.take 16).length = 16 := by
          rw [List.length_take]
          omega
        have hempty₁ : state₁.buffer = [] := hbuffer₁.trans hempty
        have htook₁ : state₁.Took checks (data ++ buf.take 16) := by
          have hwritten := htook.writeBlock hfull hblock
          rw [hdata] at hwritten
          exact ⟨by rw [hempty₁]; exact hwritten.data, hwritten.full, hwritten.count⟩
        obtain ⟨htook', hfinished'⟩ := ih (by rw [List.length_drop]; omega) hempty₁ htook₁ h
        rw [List.append_assoc, List.take_append_drop] at htook'
        exact ⟨htook', hfinished'.trans hfinished₁⟩

theorem Took.write {buf data : List UInt8} {state state' : AesState} {s s' : σ} {taken : Nat}
    (hne : buf ≠ []) (hfinished : state.finished = false) (htook : state.Took checks data)
    (h : state.writeIn w checks cipher buf s = .ok (taken, state', s')) :
    state'.Took checks (data ++ buf) ∧ state'.finished = false := by
  have hnonempty : ¬ buf.isEmpty = true := by simpa using hne
  rw [writeIn, if_neg (by simp [hfinished]), if_neg hnonempty] at h
  split at h
  · rename_i hbuffer
    obtain ⟨⟨state₁, s₁⟩, hchunks, h⟩ := Result.bind_eq_ok.mp h
    cases Result.pure_eq_ok.mp h
    obtain ⟨htook', hfinished'⟩ := htook.writeChunks (Nat.lt_succ_self _)
      (List.isEmpty_iff.mp hbuffer) hchunks
    exact ⟨htook', hfinished'.trans hfinished⟩
  · split at h
    · cases h
      exact ⟨⟨by rw [← htook.data, List.append_assoc], htook.full, htook.count⟩, hfinished⟩
    · rename_i hlong
      dsimp only at h
      obtain ⟨⟨state₁, s₁⟩, hblock, h⟩ := Result.bind_eq_ok.mp h
      obtain ⟨⟨state₂, s₂⟩, hchunks, h⟩ := Result.bind_eq_ok.mp h
      cases Result.pure_eq_ok.mp h
      have hroom := state.short
      have hfull : (state.buffer ++ buf.take (16 - state.buffer.length)).length = 16 := by
        rw [List.length_append, List.length_take]
        omega
      obtain ⟨-, -, hfinished₁, -⟩ := writeBlockIn_eq_ok hblock
      obtain ⟨htook', hfinished'⟩ := (htook.writeBlock hfull hblock).writeChunks
        (by rw [List.length_drop]; omega) rfl hchunks
      rw [← List.append_assoc, htook.data, List.append_assoc, List.take_append_drop] at htook'
      exact ⟨htook', hfinished'.trans (hfinished₁.trans hfinished)⟩

theorem Took.writeEnd {data : List UInt8} {state state' : AesState} {s s' : σ} {taken : Nat}
    (htook : state.Took checks data)
    (h : state.writeIn w checks cipher [] s = .ok (taken, state', s')) :
    state'.blocks.flatten = zeroPadded data ∧
      (checks = true → state'.writeSize.toNat = (zeroPadded data).length) := by
  rw [writeIn, if_neg (by simp), if_pos List.isEmpty_nil] at h
  obtain ⟨⟨state₁, s₁⟩, hflush, h⟩ := Result.bind_eq_ok.mp h
  obtain ⟨⟨taken', s₂⟩, -, h⟩ := Result.bind_eq_ok.mp h
  cases Result.pure_eq_ok.mp h
  -- what is left of the data is padded to a block, or there is nothing left
  have hpadded : ∃ n < aesBlockLen, state'.blocks.flatten = data ++ List.replicate n 0 ∧
      (∀ block ∈ state'.blocks, block.length = 16) ∧
      (checks = true → state'.writeSize.toNat = 16 * state'.blocks.length) := by
    unfold flushIn at hflush
    split at hflush
    · rename_i hempty
      obtain ⟨rfl, rfl⟩ := Prod.mk.inj (Except.ok.inj hflush)
      have hbuffer : state.buffer = [] := by simpa using hempty
      refine ⟨0, by decide, ?_, htook.full, htook.count⟩
      change state.blocks.flatten = data ++ List.replicate 0 0
      rw [List.replicate_zero, List.append_nil, ← htook.data, hbuffer, List.append_nil]
    · rename_i hbuffer
      dsimp only at hflush hbuffer
      obtain ⟨⟨state₂, s₃⟩, hblock, hflush⟩ := Result.bind_eq_ok.mp hflush
      cases Result.pure_eq_ok.mp hflush
      have hroom := state.short
      have hpos : 0 < state.buffer.length := by
        apply List.length_pos_of_ne_nil
        intro hnil
        exact hbuffer (by simp [hnil])
      have hfull : (state.buffer ++ List.replicate (16 - state.buffer.length) (0 : UInt8)).length =
          16 := by
        rw [List.length_append, List.length_replicate]
        omega
      have hopen : Took checks { state with finished := true } data :=
        ⟨htook.data, htook.full, htook.count⟩
      have hwritten := hopen.writeBlock hfull hblock
      refine ⟨16 - state.buffer.length, ?_, ?_, hwritten.full, hwritten.count⟩
      · unfold aesBlockLen
        omega
      · have hdata := hwritten.data
        rw [List.append_nil] at hdata
        rw [← htook.data, List.append_assoc]
        exact hdata
  obtain ⟨n, hn, hflatten, hfull, hcount⟩ := hpadded
  have hdvd : aesBlockLen ∣ (data ++ List.replicate n (0 : UInt8)).length := by
    refine ⟨state'.blocks.length, ?_⟩
    rw [← hflatten, flatten_length_of_forall hfull, Nat.mul_comm]
    rfl
  have hzero := zeroPadded_eq hn hdvd
  refine ⟨hflatten.trans hzero, fun hchecks => ?_⟩
  rw [hcount hchecks, ← hzero, ← hflatten, flatten_length_of_forall hfull, Nat.mul_comm]

theorem Took.encode {bufs : List (List UInt8)} (hne : ∀ buf ∈ bufs, buf ≠ []) {data : List UInt8}
    {state state' : AesState} {s s' : σ} (hfinished : state.finished = false)
    (htook : state.Took checks data)
    (h : state.encodeIn w checks cipher bufs s = .ok (state', s')) :
    state'.blocks.flatten = zeroPadded (data ++ bufs.flatten) ∧
      (checks = true → state'.writeSize.toNat = (zeroPadded (data ++ bufs.flatten)).length) := by
  induction bufs generalizing data state s with
  | nil =>
      rw [List.flatten_nil, List.append_nil]
      obtain ⟨⟨taken, state₁, s₁⟩, hend, h⟩ := Result.bind_eq_ok.mp h
      cases Result.pure_eq_ok.mp h
      exact htook.writeEnd hend
  | cons buf bufs ih =>
      obtain ⟨hbuf, hbufs⟩ := List.forall_mem_cons.mp hne
      obtain ⟨⟨taken, state₁, s₁⟩, hwrite, h⟩ := Result.bind_eq_ok.mp h
      obtain ⟨htook₁, hfinished₁⟩ := htook.write hbuf hfinished hwrite
      rw [List.flatten_cons, ← List.append_assoc]
      exact ih hbufs hfinished₁ htook₁ h

theorem took_new (checks : Bool) : Took checks {} [] :=
  ⟨rfl, List.forall_mem_nil _, fun _ => rfl⟩

theorem Took.size {state : AesState} {data : List UInt8} (h : state.Took true data) :
    state.writeSize.toNat + state.buffer.length = data.length := by
  rw [← h.data, List.length_append, flatten_length_of_forall h.full, h.count rfl, Nat.mul_comm]

theorem bind_congr_ok {α β : Type} {x : Result α} {f g : α → Result β}
    (h : ∀ a, x = .ok a → f a = g a) : (x >>= f) = (x >>= g) := by
  cases x with
  | error fault => rfl
  | ok a => exact h a rfl

theorem writeBlockIn_of_fits {state : AesState} (hfits : state.writeSize.toNat + 16 < 2 ^ 32)
    (block : List UInt8) (s : σ) :
    state.writeBlockIn w true cipher block s = state.writeBlockIn w false cipher block s := by
  have hadd : addWriteSize true state.writeSize = addWriteSize false state.writeSize := by
    rw [addWriteSize, addWriteSize, if_neg (by omega), if_neg (by simp)]
  rw [writeBlockIn, writeBlockIn, hadd]

theorem writeChunksIn_of_fits {rounds : Nat} {buf data : List UInt8} {state : AesState}
    (hempty : state.buffer = []) (htook : state.Took true data)
    (hfits : (data ++ buf).length < 2 ^ 32) (s : σ) :
    state.writeChunksIn w true cipher rounds buf s =
      state.writeChunksIn w false cipher rounds buf s := by
  induction rounds generalizing buf data state s with
  | zero => rfl
  | succ rounds ih =>
      rw [writeChunksIn, writeChunksIn]
      split
      · rfl
      · rename_i hlong
        have hsize := htook.size
        rw [List.length_append] at hfits
        rw [← writeBlockIn_of_fits (by omega)]
        apply bind_congr_ok
        rintro ⟨state₁, s₁⟩ hblock
        have hfull : (buf.take 16).length = 16 := by
          rw [List.length_take]
          omega
        obtain ⟨-, hbuffer₁, -⟩ := writeBlockIn_eq_ok hblock
        have hempty₁ := hbuffer₁.trans hempty
        have hwritten := htook.writeBlock hfull hblock
        have hdata : state.blocks.flatten = data := by
          rw [← htook.data, hempty, List.append_nil]
        rw [hdata] at hwritten
        have htook₁ : state₁.Took true (data ++ buf.take 16) :=
          ⟨by rw [hempty₁]; exact hwritten.data, hwritten.full, hwritten.count⟩
        apply ih hempty₁ htook₁
        rw [List.append_assoc, List.take_append_drop, List.length_append]
        exact hfits

theorem writeIn_of_fits {buf data : List UInt8} (hne : buf ≠ []) {state : AesState}
    (hfinished : state.finished = false) (htook : state.Took true data)
    (hfits : (data ++ buf).length < 2 ^ 32) (s : σ) :
    state.writeIn w true cipher buf s = state.writeIn w false cipher buf s := by
  have hrunning : ¬ (state.finished && !buf.isEmpty) = true := by simp [hfinished]
  have hnonempty : ¬ buf.isEmpty = true := by simpa using hne
  have hsize := htook.size
  rw [writeIn, writeIn, if_neg hrunning, if_neg hrunning, if_neg hnonempty, if_neg hnonempty]
  split
  · rename_i hbuffer
    rw [writeChunksIn_of_fits (List.isEmpty_iff.mp hbuffer) htook hfits]
  · split
    · rfl
    · rename_i hlong
      dsimp only
      have hroom := state.short
      rw [List.length_append] at hfits
      rw [← writeBlockIn_of_fits (by omega)]
      apply bind_congr_ok
      rintro ⟨state₁, s₁⟩ hblock
      have hfull : (state.buffer ++ buf.take (16 - state.buffer.length)).length = 16 := by
        rw [List.length_append, List.length_take]
        omega
      have hwritten := htook.writeBlock hfull hblock
      rw [← List.append_assoc, htook.data] at hwritten
      dsimp only
      rw [writeChunksIn_of_fits rfl hwritten]
      rw [List.append_assoc, List.take_append_drop, List.length_append]
      exact hfits

theorem writeEnd_of_fits {data : List UInt8} {state : AesState} (htook : state.Took true data)
    (hfits : (zeroPadded data).length < 2 ^ 32) (s : σ) :
    state.writeIn w true cipher [] s = state.writeIn w false cipher [] s := by
  have hrunning : ¬ (state.finished && !([] : List UInt8).isEmpty) = true := by simp
  have hsize := htook.size
  rw [writeIn, writeIn, if_neg hrunning, if_neg hrunning, if_pos List.isEmpty_nil,
    if_pos List.isEmpty_nil]
  congr 1
  rw [flushIn, flushIn]
  split
  · rfl
  · rename_i hbuffer
    dsimp only at hbuffer ⊢
    have hroom := state.short
    have hpos : 0 < state.buffer.length := by
      apply List.length_pos_of_ne_nil
      intro hnil
      exact hbuffer (by simp [hnil])
    have hwhole : state.writeSize.toNat = 16 * state.blocks.length := htook.count rfl
    rw [zeroPadded, List.length_append, List.length_replicate] at hfits
    unfold aesBlockLen at hfits
    rw [writeBlockIn_of_fits (by dsimp only; omega)]

theorem encodeIn_of_fits {bufs : List (List UInt8)} (hne : ∀ buf ∈ bufs, buf ≠ [])
    {data : List UInt8} {state : AesState} (hfinished : state.finished = false)
    (htook : state.Took true data) (hfits : (zeroPadded (data ++ bufs.flatten)).length < 2 ^ 32)
    (s : σ) : state.encodeIn w true cipher bufs s = state.encodeIn w false cipher bufs s := by
  induction bufs generalizing data state s with
  | nil =>
      rw [List.flatten_nil, List.append_nil] at hfits
      rw [encodeIn, encodeIn, writeEnd_of_fits htook hfits]
  | cons buf bufs ih =>
      obtain ⟨hbuf, hbufs⟩ := List.forall_mem_cons.mp hne
      have hlength : (data ++ buf).length < 2 ^ 32 := by
        have hle : (zeroPadded (data ++ (buf :: bufs).flatten)).length ≥
            (data ++ (buf ++ bufs.flatten)).length := by
          rw [zeroPadded, List.length_append, List.flatten_cons]
          exact Nat.le_add_right _ _
        rw [List.length_append] at hle ⊢
        rw [List.length_append] at hle
        omega
      rw [encodeIn, encodeIn, ← writeIn_of_fits hbuf hfinished htook hlength]
      apply bind_congr_ok
      rintro ⟨taken, state₁, s₁⟩ hwrite
      obtain ⟨htook₁, hfinished₁⟩ := htook.write hbuf hfinished hwrite
      rw [List.flatten_cons, ← List.append_assoc] at hfits
      exact ih hbufs hfinished₁ htook₁ hfits s₁

end

def OnlyOverflows {α : Type} (checks : Bool) (x : Result α) : Prop :=
  ∀ fault, x = .error fault → checks = true ∧ fault = .panic .attemptToAddWithOverflow

section

variable {α β : Type} {checks : Bool} {cipher : BlockCipher}

theorem onlyOverflows_ok (a : α) : OnlyOverflows checks (.ok a) := fun _ h => nomatch h

theorem OnlyOverflows.bind {x : Result α} {f : α → Result β} (hx : OnlyOverflows checks x)
    (hf : ∀ a, OnlyOverflows checks (f a)) : OnlyOverflows checks (x >>= f) := by
  intro fault h
  rcases Result.bind_eq_error.mp h with h | ⟨a, -, h⟩
  · exact hx fault h
  · exact hf a fault h

theorem writeBlockIn_onlyOverflows (block : List UInt8) (state : AesState)
    (received : List (List UInt8)) :
    OnlyOverflows checks (state.writeBlockIn takingAll checks cipher block received) := by
  obtain ⟨received', hwrite, -⟩ := takingAll_takesParts.delivers.writeAll writeZero
    (cipher.encrypt state.blocks block) (s := received) trivial
  intro fault h
  rw [writeBlockIn, hwrite] at h
  dsimp only at h
  unfold addWriteSize at h
  by_cases hlarge : checks = true ∧ 2 ^ 32 ≤ state.writeSize.toNat + 16
  · rw [if_pos hlarge] at h
    cases h
    exact ⟨hlarge.1, rfl⟩
  · rw [if_neg hlarge] at h
    cases h

theorem writeChunksIn_onlyOverflows (rounds : Nat) (buf : List UInt8) (state : AesState)
    (received : List (List UInt8)) :
    OnlyOverflows checks (state.writeChunksIn takingAll checks cipher rounds buf received) := by
  induction rounds generalizing buf state received with
  | zero => exact onlyOverflows_ok _
  | succ rounds ih =>
      rw [writeChunksIn]
      split
      · exact onlyOverflows_ok _
      · exact (writeBlockIn_onlyOverflows _ _ _).bind fun written => ih _ _ _

theorem writeIn_onlyOverflows (buf : List UInt8) (state : AesState)
    (received : List (List UInt8)) :
    OnlyOverflows checks (state.writeIn takingAll checks cipher buf received) := by
  unfold writeIn
  split
  · exact onlyOverflows_ok _
  · split
    · have hflush : ∀ state : AesState,
          OnlyOverflows checks (state.flushIn takingAll checks cipher received) := by
        intro state
        unfold flushIn
        split
        · exact onlyOverflows_ok _
        · exact (writeBlockIn_onlyOverflows _ _ _).bind fun written => onlyOverflows_ok _
      exact (hflush _).bind fun flushed => (onlyOverflows_ok _).bind fun _ => onlyOverflows_ok _
    · split
      · exact (writeChunksIn_onlyOverflows _ _ _ _).bind fun written => onlyOverflows_ok _
      · split
        · exact onlyOverflows_ok _
        · exact (writeBlockIn_onlyOverflows _ _ _).bind fun written =>
            (writeChunksIn_onlyOverflows _ _ _ _).bind fun written => onlyOverflows_ok _

theorem encodeIn_onlyOverflows (bufs : List (List UInt8)) (state : AesState)
    (received : List (List UInt8)) :
    OnlyOverflows checks (state.encodeIn takingAll checks cipher bufs received) := by
  induction bufs generalizing state received with
  | nil => exact (writeIn_onlyOverflows _ _ _).bind fun written => onlyOverflows_ok _
  | cons buf bufs ih => exact (writeIn_onlyOverflows _ _ _).bind fun written => ih _ _

theorem encodeIn_overflows {bufs : List (List UInt8)} (hne : ∀ buf ∈ bufs, buf ≠ [])
    (hlarge : 2 ^ 32 ≤ (zeroPadded bufs.flatten).length) :
    encodeIn takingAll true cipher bufs {} [] = .error (.panic .attemptToAddWithOverflow) := by
  cases hrun : encodeIn takingAll true cipher bufs {} [] with
  | error fault => rw [(encodeIn_onlyOverflows bufs {} [] fault hrun).2]
  | ok written =>
      obtain ⟨state, received⟩ := written
      have hcount := ((took_new true).encode hne rfl hrun).2 rfl
      have hlt := state.writeSize.toNat_lt
      rw [List.nil_append] at hcount
      omega

end

end AesState

/-- In no build does the running size overflow: a checked run never panics for it, whatever the
sink does, an unchecked one keeps the true count, and the padding is that of the length. -/
structure CountsExactly (cipher : BlockCipher) (bufs : List (List UInt8)) : Prop where
  checked : ∀ {σ : Type} (w : ByteSink Fault σ) (s : σ),
    AesState.encodeIn w true cipher bufs {} s = AesState.encode w cipher bufs {} s
  count : ∀ {σ : Type} (w : ByteSink Fault σ) (s : σ) {state : AesState} {s' : σ},
    AesState.encode w cipher bufs {} s = .ok (state, s') →
      state.writeSize.toNat = (zeroPadded bufs.flatten).length ∧
        state.blocks.flatten = zeroPadded bufs.flatten

theorem countsExactly_of_fits {cipher : BlockCipher} {bufs : List (List UInt8)}
    (hne : ∀ buf ∈ bufs, buf ≠ []) (hfits : (zeroPadded bufs.flatten).length < 2 ^ 32) :
    CountsExactly cipher bufs := by
  have hsame : ∀ {σ : Type} (w : ByteSink Fault σ) (s : σ),
      AesState.encodeIn w true cipher bufs {} s = AesState.encode w cipher bufs {} s := by
    intro σ w s
    rw [← AesState.encodeIn_false]
    exact AesState.encodeIn_of_fits hne rfl (AesState.took_new true) hfits s
  refine ⟨hsame, ?_⟩
  intro σ w s state s' h
  rw [← hsame] at h
  obtain ⟨hblocks, hcount⟩ := (AesState.took_new true).encode hne rfl h
  exact ⟨hcount rfl, hblocks⟩

theorem not_countsExactly {cipher : BlockCipher} {bufs : List (List UInt8)}
    (hne : ∀ buf ∈ bufs, buf ≠ []) (hlarge : 2 ^ 32 ≤ (zeroPadded bufs.flatten).length) :
    ¬ CountsExactly cipher bufs := by
  intro h
  have hsame := h.checked takingAll []
  rw [AesState.encodeIn_overflows hne hlarge, ← AesState.encodeIn_false] at hsame
  obtain ⟨hchecks, -⟩ := AesState.encodeIn_onlyOverflows bufs {} [] _ hsame.symm
  cases hchecks

/-- The running size is exact just for the plaintexts whose padded length is a `u32`. -/
theorem countsExactly_iff {cipher : BlockCipher} {bufs : List (List UInt8)}
    (hne : ∀ buf ∈ bufs, buf ≠ []) :
    CountsExactly cipher bufs ↔ (zeroPadded bufs.flatten).length < 2 ^ 32 := by
  constructor
  · intro h
    by_contra hlarge
    exact not_countsExactly hne (Nat.le_of_not_lt hlarge) h
  · exact countsExactly_of_fits hne

theorem length_copied (_ : List (List UInt8)) (block : List UInt8) :
    block.length = block.length := rfl

def blockCopy : BlockCipher where
  encrypt _ block := block
  length_encrypt := length_copied

theorem countsExactly_twoWrites : CountsExactly blockCopy [[1, 2, 3], List.replicate 14 4] ↔
    (zeroPadded [[1, 2, 3], List.replicate 14 4].flatten).length < 2 ^ 32 :=
  countsExactly_iff (by decide)

private theorem zeros_overflow {n : Nat} (hn : 2 ^ 32 ≤ n) :
    AesState.encodeIn takingAll true blockCopy [List.replicate n 0] {} [] =
        .error (.panic .attemptToAddWithOverflow) ∧
      ¬ CountsExactly blockCopy [List.replicate n 0] := by
  have hne : ∀ buf ∈ [List.replicate n (0 : UInt8)], buf ≠ [] := by
    intro buf hbuf
    rw [List.mem_singleton.mp hbuf]
    apply List.ne_nil_of_length_pos
    rw [List.length_replicate]
    omega
  have hlarge : 2 ^ 32 ≤ (zeroPadded [List.replicate n (0 : UInt8)].flatten).length := by
    rw [zeroPadded, List.length_append, List.flatten_cons, List.flatten_nil, List.append_nil,
      List.length_replicate]
    exact Nat.le_trans hn (Nat.le_add_right _ _)
  exact ⟨AesState.encodeIn_overflows hne hlarge, not_countsExactly hne hlarge⟩

theorem fourGib_overflows :
    AesState.encodeIn takingAll true blockCopy [List.replicate (2 ^ 32) 0] {} [] =
        .error (.panic .attemptToAddWithOverflow) ∧
      ¬ CountsExactly blockCopy [List.replicate (2 ^ 32) 0] :=
  zeros_overflow (Nat.le_refl _)

end Sevenz
