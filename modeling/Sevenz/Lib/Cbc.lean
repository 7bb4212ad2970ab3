import Mathlib.Logic.Equiv.Basic
import Sevenz.Lib.Stream

/-!
# Cipher block chaining

The CBC mode of a block cipher over bytes, one call for all of them or chunk by chunk.  A chunk
is deciphered under the last ciphertext block before it, which `chainAfter` picks out.
-/

namespace Sevenz.Lib

def xorBytes (xs ys : List UInt8) : List UInt8 := List.zipWith (· ^^^ ·) xs ys

@[simp] theorem xorBytes_length {xs ys : List UInt8} {n : Nat} (hxs : xs.length = n)
    (hys : ys.length = n) : (xorBytes xs ys).length = n := by
  rw [xorBytes, List.length_zipWith, hxs, hys, Nat.min_self]

theorem xorBytes_cancel {xs ys : List UInt8} (h : xs.length = ys.length) :
    xorBytes (xorBytes xs ys) ys = xs := by
  induction xs generalizing ys with
  | nil => rfl
  | cons x xs ih =>
      cases ys with
      | nil => cases h
      | cons y ys =>
          have htail := ih (Nat.succ.inj h)
          simp only [xorBytes, List.zipWith_cons_cons] at htail ⊢
          rw [htail, UInt8.xor_assoc, UInt8.xor_self, UInt8.xor_zero]

structure KeyedCipher (n : Nat) where
  encrypt : List UInt8 → List UInt8
  decrypt : List UInt8 → List UInt8
  encrypt_length : ∀ block, block.length = n → (encrypt block).length = n
  decrypt_length : ∀ block, block.length = n → (decrypt block).length = n
  decrypt_encrypt : ∀ block, block.length = n → decrypt (encrypt block) = block

def KeyedCipher.ofPerm {n : Nat} (perm : Equiv.Perm { block : List UInt8 // block.length = n }) :
    KeyedCipher n where
  encrypt block := if h : block.length = n then perm ⟨block, h⟩ else block
  decrypt block := if h : block.length = n then perm.symm ⟨block, h⟩ else block
  encrypt_length block h := by
    rw [dif_pos h]
    exact (perm ⟨block, h⟩).property
  decrypt_length block h := by
    rw [dif_pos h]
    exact (perm.symm ⟨block, h⟩).property
  decrypt_encrypt block h := by
    simp only [dif_pos h, dif_pos (perm ⟨block, h⟩).property, Subtype.coe_eta,
      Equiv.symm_apply_apply]

def takeBlocks (n : Nat) : Nat → List UInt8 → List (List UInt8)
  | 0, _ => []
  | k + 1, data => data.take n :: takeBlocks n k (data.drop n)

def blocks (n : Nat) (data : List UInt8) : List (List UInt8) :=
  takeBlocks n (data.length / n) data

theorem takeBlocks_append {n k : Nat} {xs : List UInt8} (h : xs.length = k * n) (j : Nat)
    (ys : List UInt8) :
    takeBlocks n (k + j) (xs ++ ys) = takeBlocks n k xs ++ takeBlocks n j ys := by
  induction k generalizing xs with
  | zero =>
      have hnil : xs = [] := List.eq_nil_of_length_eq_zero (by simpa using h)
      rw [hnil, Nat.zero_add]
      rfl
  | succ k ih =>
      rw [Nat.succ_mul] at h
      have hle : n ≤ xs.length := by omega
      have hrest : (xs.drop n).length = k * n := by
        rw [List.length_drop]
        omega
      rw [Nat.succ_add, takeBlocks, takeBlocks, List.take_append_of_le_length hle,
        List.drop_append_of_le_length hle, ih hrest, List.cons_append]

theorem takeBlocks_length {n k : Nat} {data : List UInt8} (h : k * n ≤ data.length) :
    ∀ block ∈ takeBlocks n k data, block.length = n := by
  induction k generalizing data with
  | zero => simp [takeBlocks]
  | succ k ih =>
      rw [Nat.succ_mul] at h
      have hrest : k * n ≤ (data.drop n).length := by
        rw [List.length_drop]
        omega
      intro block hblock
      cases hblock with
      | head =>
          rw [List.length_take]
          omega
      | tail _ hblock => exact ih hrest block hblock

theorem takeBlocks_flatten (n k : Nat) (data : List UInt8) :
    (takeBlocks n k data).flatten = data.take (k * n) := by
  induction k generalizing data with
  | zero => simp [takeBlocks]
  | succ k ih =>
      rw [takeBlocks, List.flatten_cons, ih, Nat.succ_mul, Nat.add_comm (k * n) n, List.take_add]

section

variable {n : Nat} (hn : 0 < n)
include hn

theorem blocks_append {xs : List UInt8} (h : n ∣ xs.length) (ys : List UInt8) :
    blocks n (xs ++ ys) = blocks n xs ++ blocks n ys := by
  obtain ⟨k, hk⟩ := h
  have hxs : xs.length = k * n := hk.trans (Nat.mul_comm n k)
  have hdiv : xs.length / n = k := by rw [hxs, Nat.mul_div_cancel k hn]
  have hdiv' : (xs ++ ys).length / n = k + ys.length / n := by
    rw [List.length_append, hxs, Nat.add_comm, Nat.add_mul_div_right _ _ hn, Nat.add_comm]
  rw [blocks, blocks, blocks, hdiv, hdiv', takeBlocks_append hxs]

omit hn in
theorem blocks_of_lt {data : List UInt8} (h : data.length < n) : blocks n data = [] := by
  rw [blocks, Nat.div_eq_of_lt h]
  rfl

theorem blocks_single {block : List UInt8} (h : block.length = n) : blocks n block = [block] := by
  rw [blocks, h, Nat.div_self hn, takeBlocks, takeBlocks, List.take_of_length_le (Nat.le_of_eq h)]

end

theorem blocks_length (n : Nat) (data : List UInt8) :
    ∀ block ∈ blocks n data, block.length = n :=
  takeBlocks_length (Nat.div_mul_le_self data.length n)

theorem blocks_flatten {n : Nat} {data : List UInt8} (h : n ∣ data.length) :
    (blocks n data).flatten = data := by
  rw [blocks, takeBlocks_flatten, Nat.div_mul_cancel h, List.take_length]

theorem blocks_of_flatten {n : Nat} (hn : 0 < n) {xs : List (List UInt8)}
    (h : ∀ block ∈ xs, block.length = n) : blocks n xs.flatten = xs := by
  induction xs with
  | nil => exact blocks_of_lt hn
  | cons x xs ih =>
      obtain ⟨hx, hxs⟩ := List.forall_mem_cons.mp h
      rw [List.flatten_cons, blocks_append hn (hx ▸ Nat.dvd_refl n), blocks_single hn hx, ih hxs]
      rfl

def cbcDecryptBlocks (decrypt : List UInt8 → List UInt8) :
    List UInt8 → List (List UInt8) → List (List UInt8)
  | _, [] => []
  | iv, block :: rest => xorBytes (decrypt block) iv :: cbcDecryptBlocks decrypt block rest

def cbcEncryptBlocks (encrypt : List UInt8 → List UInt8) :
    List UInt8 → List (List UInt8) → List (List UInt8)
  | _, [] => []
  | iv, block :: rest =>
      let cipher := encrypt (xorBytes block iv)
      cipher :: cbcEncryptBlocks encrypt cipher rest

def chainAfter (iv data : List UInt8) : List UInt8 := (iv ++ data).drop data.length

theorem chainAfter_append (iv xs ys : List UInt8) :
    chainAfter iv (xs ++ ys) = chainAfter (chainAfter iv xs) ys := by
  have hle : xs.length ≤ (iv ++ xs).length := by
    rw [List.length_append]
    omega
  rw [chainAfter, chainAfter, chainAfter, ← List.append_assoc, List.length_append,
    ← List.drop_drop, List.drop_append_of_le_length hle]

@[simp] theorem chainAfter_nil (iv : List UInt8) : chainAfter iv [] = iv := by
  simp [chainAfter]

theorem chainAfter_block {iv block : List UInt8} (h : block.length = iv.length) :
    chainAfter iv block = block := by
  rw [chainAfter, h, List.drop_left]

theorem cbcDecryptBlocks_append (decrypt : List UInt8 → List UInt8) {iv : List UInt8}
    {front : List (List UInt8)} (h : ∀ block ∈ front, block.length = iv.length)
    (rest : List (List UInt8)) :
    cbcDecryptBlocks decrypt iv (front ++ rest) =
      cbcDecryptBlocks decrypt iv front ++
        cbcDecryptBlocks decrypt (chainAfter iv front.flatten) rest := by
  induction front generalizing iv with
  | nil => simp [cbcDecryptBlocks]
  | cons block front ih =>
      obtain ⟨hblock, hfront⟩ := List.forall_mem_cons.mp h
      have hnext := ih (fun other hother => (hfront other hother).trans hblock.symm)
      rw [List.flatten_cons, chainAfter_append, chainAfter_block hblock, List.cons_append,
        cbcDecryptBlocks, cbcDecryptBlocks, hnext, List.cons_append]

theorem cbcDecryptBlocks_encrypt {n : Nat} (cipher : KeyedCipher n) {iv : List UInt8}
    (hiv : iv.length = n) {plain : List (List UInt8)} (h : ∀ block ∈ plain, block.length = n) :
    cbcDecryptBlocks cipher.decrypt iv (cbcEncryptBlocks cipher.encrypt iv plain) = plain := by
  induction plain generalizing iv with
  | nil => rfl
  | cons block plain ih =>
      obtain ⟨hblock, hplain⟩ := List.forall_mem_cons.mp h
      have hxor : (xorBytes block iv).length = n := xorBytes_length hblock hiv
      rw [cbcEncryptBlocks, cbcDecryptBlocks, cipher.decrypt_encrypt _ hxor,
        xorBytes_cancel (hblock.trans hiv.symm), ih (cipher.encrypt_length _ hxor) hplain]

theorem cbcEncryptBlocks_length {n : Nat} (cipher : KeyedCipher n) {iv : List UInt8}
    (hiv : iv.length = n) {plain : List (List UInt8)} (h : ∀ block ∈ plain, block.length = n) :
    ∀ block ∈ cbcEncryptBlocks cipher.encrypt iv plain, block.length = n := by
  induction plain generalizing iv with
  | nil => simp [cbcEncryptBlocks]
  | cons block plain ih =>
      obtain ⟨hblock, hplain⟩ := List.forall_mem_cons.mp h
      have hcipher := cipher.encrypt_length _ (xorBytes_length hblock hiv)
      exact List.forall_mem_cons.mpr ⟨hcipher, ih hcipher hplain⟩

def cbcDecrypt (n : Nat) (decrypt : List UInt8 → List UInt8) (iv data : List UInt8) :
    List UInt8 :=
  (cbcDecryptBlocks decrypt iv (blocks n data)).flatten

def cbcEncrypt (n : Nat) (encrypt : List UInt8 → List UInt8) (iv data : List UInt8) :
    List UInt8 :=
  (cbcEncryptBlocks encrypt iv (blocks n data)).flatten

section

variable {n : Nat} (hn : 0 < n) {iv : List UInt8} (hiv : iv.length = n)
include hn hiv

theorem cbcDecrypt_append (decrypt : List UInt8 → List UInt8) {xs : List UInt8}
    (h : n ∣ xs.length) (ys : List UInt8) :
    cbcDecrypt n decrypt iv (xs ++ ys) =
      cbcDecrypt n decrypt iv xs ++ cbcDecrypt n decrypt (chainAfter iv xs) ys := by
  have hfront : ∀ block ∈ blocks n xs, block.length = iv.length := by
    intro block hblock
    exact (blocks_length n xs block hblock).trans hiv.symm
  rw [cbcDecrypt, blocks_append hn h, cbcDecryptBlocks_append decrypt hfront, blocks_flatten h,
    List.flatten_append]
  rfl

omit hn hiv in
theorem cbcDecrypt_of_lt (decrypt : List UInt8 → List UInt8) {data : List UInt8}
    (h : data.length < n) : cbcDecrypt n decrypt iv data = [] := by
  rw [cbcDecrypt, blocks_of_lt h]
  rfl

end

theorem flatten_length_of_forall {n : Nat} {xs : List (List UInt8)}
    (h : ∀ block ∈ xs, block.length = n) : xs.flatten.length = xs.length * n := by
  induction xs with
  | nil => simp
  | cons block xs ih =>
      obtain ⟨hblock, hxs⟩ := List.forall_mem_cons.mp h
      rw [List.flatten_cons, List.length_append, hblock, ih hxs, List.length_cons, Nat.succ_mul,
        Nat.add_comm]

theorem cbcDecryptBlocks_length {decrypt : List UInt8 → List UInt8} {n : Nat}
    (hdecrypt : ∀ block, block.length = n → (decrypt block).length = n) {iv : List UInt8}
    (hiv : iv.length = n) {data : List (List UInt8)} (h : ∀ block ∈ data, block.length = n) :
    (cbcDecryptBlocks decrypt iv data).length = data.length ∧
      ∀ block ∈ cbcDecryptBlocks decrypt iv data, block.length = n := by
  induction data generalizing iv with
  | nil => simp [cbcDecryptBlocks]
  | cons block data ih =>
      obtain ⟨hblock, hdata⟩ := List.forall_mem_cons.mp h
      obtain ⟨hlength, hall⟩ := ih hblock hdata
      refine ⟨congrArg Nat.succ hlength, List.forall_mem_cons.mpr ⟨?_, hall⟩⟩
      exact xorBytes_length (hdecrypt block hblock) hiv

theorem cbcDecrypt_length {decrypt : List UInt8 → List UInt8} {n : Nat}
    (hdecrypt : ∀ block, block.length = n → (decrypt block).length = n) {iv : List UInt8}
    (hiv : iv.length = n) {data : List UInt8} (h : n ∣ data.length) :
    (cbcDecrypt n decrypt iv data).length = data.length := by
  have hblocks := blocks_length n data
  obtain ⟨hlength, hall⟩ := cbcDecryptBlocks_length hdecrypt hiv hblocks
  rw [cbcDecrypt, flatten_length_of_forall hall, hlength, ← flatten_length_of_forall hblocks,
    blocks_flatten h]

theorem cbcEncrypt_dvd {n : Nat} (cipher : KeyedCipher n) {iv : List UInt8} (hiv : iv.length = n)
    (data : List UInt8) : n ∣ (cbcEncrypt n cipher.encrypt iv data).length := by
  have hcipher := cbcEncryptBlocks_length cipher hiv (blocks_length n data)
  rw [cbcEncrypt, flatten_length_of_forall hcipher]
  exact Nat.dvd_mul_left _ _

theorem cbcDecrypt_encrypt {n : Nat} (hn : 0 < n) (cipher : KeyedCipher n) {iv : List UInt8}
    (hiv : iv.length = n) {data : List UInt8} (h : n ∣ data.length) :
    cbcDecrypt n cipher.decrypt iv (cbcEncrypt n cipher.encrypt iv data) = data := by
  have hblocks := blocks_length n data
  have hcut := blocks_of_flatten hn (cbcEncryptBlocks_length cipher hiv hblocks)
  rw [cbcDecrypt, cbcEncrypt, hcut, cbcDecryptBlocks_encrypt cipher hiv hblocks, blocks_flatten h]

section

variable {ε σ : Type} (step : σ → List UInt8 → ReadResult ε × σ)

def runChunks : σ → List (List UInt8) → List (ReadResult ε) × σ
  | s, [] => ([], s)
  | s, chunk :: chunks =>
      let (answer, s) := step s chunk
      let (answers, s) := runChunks s chunks
      (answer :: answers, s)

def wholeChunks (n : Nat) (chunks : List (List UInt8)) : List (List UInt8) :=
  chunks.filter fun chunk => n ∣ chunk.length

def Answered (n : Nat) (refusal : ε) (chunk : List UInt8) (answer : ReadResult ε) : Prop :=
  if n ∣ chunk.length then ∃ plain, answer = .ok plain ∧ plain.length = chunk.length
  else answer = .error refusal

/-- A decryptor that keeps the chaining value from call to call. -/
structure DecryptsCbc {n : Nat} (cipher : KeyedCipher n) (refusal : ε) (chain : σ → List UInt8)
    (Valid : σ → Prop) : Prop where
  chain_length : ∀ s, Valid s → (chain s).length = n
  whole : ∀ s data, Valid s → n ∣ data.length →
    ∃ s', step s data = (.ok (cbcDecrypt n cipher.decrypt (chain s) data), s') ∧
      chain s' = chainAfter (chain s) data ∧ Valid s'
  refused : ∀ s data, ¬ n ∣ data.length → step s data = (.error refusal, s)

/-- In this state, whatever chunks are refused in between, those of whole blocks are deciphered
as one from the chaining value. -/
structure DecryptsInChunks {n : Nat} (cipher : KeyedCipher n) (refusal : ε)
    (chain : σ → List UInt8) (s : σ) (chunks : List (List UInt8)) : Prop where
  output : (runChunks step s chunks).1.flatMap ReadResult.bytes =
    cbcDecrypt n cipher.decrypt (chain s) (wholeChunks n chunks).flatten
  chained : chain (runChunks step s chunks).2 =
    chainAfter (chain s) (wholeChunks n chunks).flatten
  answered : List.Forall₂ (Answered n refusal) chunks (runChunks step s chunks).1

variable {step}

theorem DecryptsCbc.inChunks {n : Nat} {cipher : KeyedCipher n} {refusal : ε}
    {chain : σ → List UInt8} {Valid : σ → Prop}
    (h : DecryptsCbc step cipher refusal chain Valid) (hn : 0 < n) {s : σ} (hs : Valid s)
    (chunks : List (List UInt8)) : DecryptsInChunks step cipher refusal chain s chunks := by
  induction chunks generalizing s with
  | nil =>
      constructor
      · exact (cbcDecrypt_of_lt cipher.decrypt hn).symm
      · exact (chainAfter_nil (chain s)).symm
      · exact List.Forall₂.nil
  | cons chunk chunks ih =>
      by_cases hwhole : n ∣ chunk.length
      · obtain ⟨s₁, hstep, hchain, hs₁⟩ := h.whole s chunk hs hwhole
        have hrest := ih hs₁
        have hfilter : wholeChunks n (chunk :: chunks) = chunk :: wholeChunks n chunks :=
          List.filter_cons_of_pos (decide_eq_true hwhole)
        have hrun : runChunks step s (chunk :: chunks) =
            (.ok (cbcDecrypt n cipher.decrypt (chain s) chunk) :: (runChunks step s₁ chunks).1,
              (runChunks step s₁ chunks).2) := by
          rw [runChunks, hstep]
        constructor
        · have houtput := hrest.output
          rw [hchain] at houtput
          rw [hrun, hfilter, List.flatten_cons,
            cbcDecrypt_append hn (h.chain_length s hs) cipher.decrypt hwhole, ← houtput]
          rfl
        · rw [hrun, hfilter, List.flatten_cons, chainAfter_append, ← hchain]
          exact hrest.chained
        · rw [hrun]
          refine List.Forall₂.cons ?_ hrest.answered
          rw [Answered, if_pos hwhole]
          exact ⟨_, rfl, cbcDecrypt_length cipher.decrypt_length (h.chain_length s hs) hwhole⟩
      · have hrest := ih hs
        have hfilter : wholeChunks n (chunk :: chunks) = wholeChunks n chunks :=
          List.filter_cons_of_neg (by simpa using hwhole)
        have hrun : runChunks step s (chunk :: chunks) =
            (.error refusal :: (runChunks step s chunks).1, (runChunks step s chunks).2) := by
          rw [runChunks, h.refused s chunk hwhole]
        constructor
        · rw [hrun, hfilter]
          exact hrest.output
        · rw [hrun, hfilter]
          exact hrest.chained
        · rw [hrun]
          refine List.Forall₂.cons ?_ hrest.answered
          rw [Answered, if_neg hwhole]

end

end Sevenz.Lib
