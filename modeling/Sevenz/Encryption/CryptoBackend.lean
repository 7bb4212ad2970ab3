import Sevenz.Lib.Cbc

/-!
# The AES-256-CBC backends

`crypto_backend.rs` and `hooks.rs`.  AWS-LC and the host decipher the whole blocks of one call;
the backend carries the chaining value from one call to the next.
-/

namespace Sevenz

open Lib

def aesBlockLen : Nat := 16

def aes256KeyLen : Nat := 32

inductive AesError where
  | keyLength
  | ivLength
  | blockAlignment
  | backend
  deriving DecidableEq, Repr

def AesError.message : AesError → String
  | keyLength => "an AES-256 key is 32 bytes"
  | ivLength => "an AES initialisation vector is 16 bytes"
  | blockAlignment => "AES-CBC ciphertext is a whole number of 16-byte blocks"
  | backend => "the AES backend refused the key or the ciphertext"

inductive HostAesError where
  | badKeyLength
  | badBlockLength
  | badIvLength
  deriving DecidableEq, Repr

/-- A host that breaks its contract, which the guest answers with a panic. -/
inductive ContractViolation where
  | noHooks
  | failed (error : HostAesError)
  | returned (length expected : Nat)
  deriving DecidableEq, Repr

inductive AesFault where
  | error (error : AesError)
  | panic (violation : ContractViolation)
  deriving DecidableEq, Repr

abbrev AesBlock := { bytes : List UInt8 // bytes.length = aesBlockLen }

abbrev Aes256Key := { bytes : List UInt8 // bytes.length = aes256KeyLen }

def tryIntoArray (n : Nat) (error : AesError) (bytes : List UInt8) :
    Except AesError { bytes : List UInt8 // bytes.length = n } :=
  if h : bytes.length = n then .ok ⟨bytes, h⟩ else .error error

@[simp] theorem tryIntoArray_val {n : Nat} (error : AesError)
    (bytes : { bytes : List UInt8 // bytes.length = n }) :
    tryIntoArray n error bytes.val = .ok bytes := by
  rw [tryIntoArray, dif_pos bytes.property]

def lastBlock (data : List UInt8) (hwhole : aesBlockLen ∣ data.length) (hne : data ≠ []) :
    AesBlock where
  val := data.drop (data.length - aesBlockLen)
  property := by
    have hle := Nat.le_of_dvd (List.length_pos_of_ne_nil hne) hwhole
    rw [List.length_drop]
    omega

theorem lastBlock_eq_chainAfter (iv : AesBlock) {data : List UInt8}
    (hwhole : aesBlockLen ∣ data.length) (hne : data ≠ []) :
    (lastBlock data hwhole hne).val = chainAfter iv.val data := by
  have hle := Nat.le_of_dvd (List.length_pos_of_ne_nil hne) hwhole
  have hsplit : data.length = iv.val.length + (data.length - aesBlockLen) := by
    rw [iv.property]
    omega
  rw [chainAfter, hsplit, ← List.drop_drop, List.drop_left]
  rfl

/-- The cipher of AWS-LC: the key schedule, and the unpadded CBC decryption of one call. -/
structure AwsLc where
  DecryptingKey : Type
  cbc : Aes256Key → Option DecryptingKey
  decrypt : DecryptingKey → AesBlock → List UInt8 → Option (List UInt8)

structure AwsLcAes256Cbc (awsLc : AwsLc) where
  key : awsLc.DecryptingKey
  iv : AesBlock

namespace AwsLcAes256Cbc

variable {awsLc : AwsLc}

def new (awsLc : AwsLc) (key iv : List UInt8) : Except AesError (AwsLcAes256Cbc awsLc) := do
  let key ← tryIntoArray aes256KeyLen .keyLength key
  let iv ← tryIntoArray aesBlockLen .ivLength iv
  match awsLc.cbc key with
  | some key => pure { key, iv }
  | none => .error .backend

def decrypt (cipher : AwsLcAes256Cbc awsLc) (data : List UInt8) :
    ReadResult AesFault × AwsLcAes256Cbc awsLc :=
  if hwhole : aesBlockLen ∣ data.length then
    if hempty : data = [] then (.ok data, cipher)
    else
      let nextIv := lastBlock data hwhole hempty
      match awsLc.decrypt cipher.key cipher.iv data with
      | none => (.error (.error .backend), cipher)
      | some plaintext => (.ok plaintext, { cipher with iv := nextIv })
  else (.error (.error .blockAlignment), cipher)

end AwsLcAes256Cbc

structure HostCryptoHooks where
  aesCbcDecrypt : List UInt8 → List UInt8 → List UInt8 → Except HostAesError (List UInt8)

structure HostAes256Cbc where
  key : Aes256Key
  iv : AesBlock

namespace HostAes256Cbc

def new (key iv : List UInt8) : Except AesError HostAes256Cbc := do
  let key ← tryIntoArray aes256KeyLen .keyLength key
  let iv ← tryIntoArray aesBlockLen .ivLength iv
  pure { key, iv }

def decrypt (hooks : Option HostCryptoHooks) (cipher : HostAes256Cbc) (data : List UInt8) :
    ReadResult AesFault × HostAes256Cbc :=
  if hwhole : aesBlockLen ∣ data.length then
    if hempty : data = [] then (.ok data, cipher)
    else
      let nextIv := lastBlock data hwhole hempty
      match hooks with
      | none => (.error (.panic .noHooks), cipher)
      | some hooks =>
          match hooks.aesCbcDecrypt cipher.key cipher.iv data with
          | .error error => (.error (.panic (.failed error)), cipher)
          | .ok plaintext =>
              if plaintext.length = data.length then (.ok plaintext, { cipher with iv := nextIv })
              else (.error (.panic (.returned plaintext.length data.length)), cipher)
  else (.error (.error .blockAlignment), cipher)

end HostAes256Cbc

/-- Under this key AWS-LC deciphers whole blocks as the cipher does in CBC mode. -/
def AwsLc.DecryptsUnder (awsLc : AwsLc) (key : awsLc.DecryptingKey)
    (cipher : KeyedCipher aesBlockLen) : Prop :=
  ∀ (iv : AesBlock) (data : List UInt8), aesBlockLen ∣ data.length →
    awsLc.decrypt key iv data = some (cbcDecrypt aesBlockLen cipher.decrypt iv data)

/-- AWS-LC takes every key, and deciphers with AES-256 under it. -/
def AwsLc.Decrypts (awsLc : AwsLc) (aes : Aes256Key → KeyedCipher aesBlockLen) : Prop :=
  ∀ key, ∃ decryptingKey, awsLc.cbc key = some decryptingKey ∧
    awsLc.DecryptsUnder decryptingKey (aes key)

def HostCryptoHooks.Decrypts (hooks : HostCryptoHooks)
    (aes : Aes256Key → KeyedCipher aesBlockLen) : Prop :=
  ∀ (key : Aes256Key) (iv : AesBlock) (data : List UInt8), aesBlockLen ∣ data.length →
    hooks.aesCbcDecrypt key iv data = .ok (cbcDecrypt aesBlockLen (aes key).decrypt iv data)

theorem aesBlockLen_pos : 0 < aesBlockLen := by decide

theorem AwsLcAes256Cbc.decrypt_misaligned {awsLc : AwsLc} (cipher : AwsLcAes256Cbc awsLc)
    {data : List UInt8} (h : ¬ aesBlockLen ∣ data.length) :
    cipher.decrypt data = (.error (.error .blockAlignment), cipher) := by
  rw [AwsLcAes256Cbc.decrypt, dif_neg h]

theorem HostAes256Cbc.decrypt_misaligned (hooks : Option HostCryptoHooks)
    (cipher : HostAes256Cbc) {data : List UInt8} (h : ¬ aesBlockLen ∣ data.length) :
    cipher.decrypt hooks data = (.error (.error .blockAlignment), cipher) := by
  rw [HostAes256Cbc.decrypt, dif_neg h]

theorem AwsLcAes256Cbc.decryptsCbc (awsLc : AwsLc) (cipher : KeyedCipher aesBlockLen) :
    DecryptsCbc (@AwsLcAes256Cbc.decrypt awsLc) cipher (.error .blockAlignment)
      (fun s => s.iv.val) (fun s => awsLc.DecryptsUnder s.key cipher) where
  chain_length s _ := s.iv.property
  refused s _ h := s.decrypt_misaligned h
  whole := by
    intro s data hs hwhole
    by_cases hempty : data = []
    · refine ⟨s, ?_, ?_, hs⟩
      · rw [AwsLcAes256Cbc.decrypt, dif_pos hwhole, dif_pos hempty, hempty,
          cbcDecrypt_of_lt cipher.decrypt aesBlockLen_pos]
      · rw [hempty, chainAfter_nil]
    · refine ⟨{ s with iv := lastBlock data hwhole hempty }, ?_,
        lastBlock_eq_chainAfter s.iv hwhole hempty, hs⟩
      rw [AwsLcAes256Cbc.decrypt, dif_pos hwhole, dif_neg hempty]
      dsimp only
      rw [hs s.iv data hwhole]

theorem HostAes256Cbc.decryptsCbc {hooks : HostCryptoHooks}
    {aes : Aes256Key → KeyedCipher aesBlockLen} (h : hooks.Decrypts aes) (key : Aes256Key) :
    DecryptsCbc (HostAes256Cbc.decrypt (some hooks)) (aes key) (.error .blockAlignment)
      (fun s => s.iv.val) (fun s => s.key = key) where
  chain_length s _ := s.iv.property
  refused s _ h := s.decrypt_misaligned (some hooks) h
  whole := by
    intro s data hs hwhole
    by_cases hempty : data = []
    · refine ⟨s, ?_, ?_, hs⟩
      · rw [HostAes256Cbc.decrypt, dif_pos hwhole, dif_pos hempty, hempty,
          cbcDecrypt_of_lt (aes key).decrypt aesBlockLen_pos]
      · rw [hempty, chainAfter_nil]
    · refine ⟨{ s with iv := lastBlock data hwhole hempty }, ?_,
        lastBlock_eq_chainAfter s.iv hwhole hempty, hs⟩
      have hlength := cbcDecrypt_length (aes key).decrypt_length s.iv.property hwhole
      rw [HostAes256Cbc.decrypt, dif_pos hwhole, dif_neg hempty]
      dsimp only
      rw [hs, h key s.iv data hwhole]
      dsimp only
      rw [if_pos hlength]

structure Aes256CbcLike where
  State : Type
  new : List UInt8 → List UInt8 → Except AesError State
  decrypt : State → List UInt8 → ReadResult AesFault × State

def AwsLc.backend (awsLc : AwsLc) : Aes256CbcLike where
  State := AwsLcAes256Cbc awsLc
  new := AwsLcAes256Cbc.new awsLc
  decrypt := AwsLcAes256Cbc.decrypt

def HostCryptoHooks.backend (hooks : HostCryptoHooks) : Aes256CbcLike where
  State := HostAes256Cbc
  new := HostAes256Cbc.new
  decrypt := HostAes256Cbc.decrypt (some hooks)

/-- Under every key and from every initialization vector the backend deciphers as AES-256 does in
CBC mode. -/
def Aes256CbcLike.Decrypts (backend : Aes256CbcLike)
    (aes : Aes256Key → KeyedCipher aesBlockLen) : Prop :=
  ∀ (key : Aes256Key) (iv : AesBlock), ∃ chain Valid s, backend.new key iv = .ok s ∧ Valid s ∧
    chain s = iv.val ∧
    DecryptsCbc backend.decrypt (aes key) (.error .blockAlignment) chain Valid

theorem AwsLc.backend_decrypts {awsLc : AwsLc} {aes : Aes256Key → KeyedCipher aesBlockLen}
    (h : awsLc.Decrypts aes) : awsLc.backend.Decrypts aes := by
  intro key iv
  obtain ⟨decryptingKey, hcbc, hunder⟩ := h key
  refine ⟨_, _, { key := decryptingKey, iv }, ?_, hunder, rfl,
    AwsLcAes256Cbc.decryptsCbc awsLc (aes key)⟩
  simp only [backend, AwsLcAes256Cbc.new, tryIntoArray_val, hcbc, bind, Except.bind, pure,
    Except.pure]

theorem HostCryptoHooks.backend_decrypts {hooks : HostCryptoHooks}
    {aes : Aes256Key → KeyedCipher aesBlockLen} (h : hooks.Decrypts aes) :
    hooks.backend.Decrypts aes := by
  intro key iv
  refine ⟨fun s : HostAes256Cbc => s.iv.val, fun s : HostAes256Cbc => s.key = key, { key, iv }, ?_,
    rfl, rfl, HostAes256Cbc.decryptsCbc h key⟩
  simp only [backend, HostAes256Cbc.new, tryIntoArray_val, bind, Except.bind, pure, Except.pure]

/-- Either backend deciphers chunks of whole blocks as one, from the initialization vector it
was built with, and a misaligned call in between leaves it as it was. -/
theorem decryptsInChunks {aes : Aes256Key → KeyedCipher aesBlockLen} {awsLc : AwsLc}
    {hooks : HostCryptoHooks} (hawsLc : awsLc.Decrypts aes) (hhooks : hooks.Decrypts aes)
    (key : Aes256Key) (iv : AesBlock) (chunks : List (List UInt8)) :
    (∃ s, AwsLcAes256Cbc.new awsLc key iv = .ok s ∧ s.iv = iv ∧
        DecryptsInChunks AwsLcAes256Cbc.decrypt (aes key) (.error .blockAlignment)
          (fun s => s.iv.val) s chunks) ∧
      (∃ s, HostAes256Cbc.new key iv = .ok s ∧ s.iv = iv ∧
        DecryptsInChunks (HostAes256Cbc.decrypt (some hooks)) (aes key) (.error .blockAlignment)
          (fun s => s.iv.val) s chunks) ∧
      ∀ data : List UInt8, ¬ aesBlockLen ∣ data.length →
        (∀ s : AwsLcAes256Cbc awsLc, s.decrypt data = (.error (.error .blockAlignment), s)) ∧
          ∀ s : HostAes256Cbc,
            s.decrypt (some hooks) data = (.error (.error .blockAlignment), s) := by
  refine ⟨?_, ?_, ?_⟩
  · obtain ⟨decryptingKey, hcbc, hunder⟩ := hawsLc key
    refine ⟨{ key := decryptingKey, iv }, ?_, rfl, ?_⟩
    · simp only [AwsLcAes256Cbc.new, tryIntoArray_val, hcbc, bind, Except.bind, pure, Except.pure]
    · exact (AwsLcAes256Cbc.decryptsCbc awsLc (aes key)).inChunks aesBlockLen_pos hunder chunks
  · refine ⟨{ key, iv }, ?_, rfl, ?_⟩
    · simp only [HostAes256Cbc.new, tryIntoArray_val, bind, Except.bind, pure, Except.pure]
    · exact (HostAes256Cbc.decryptsCbc hhooks key).inChunks aesBlockLen_pos rfl chunks
  · intro data h
    exact ⟨fun s => s.decrypt_misaligned h, fun s => s.decrypt_misaligned _ h⟩

/-! The vector that the tests of both backends decipher, its first two blocks. -/

namespace NistVector

def bytes (n value : Nat) : { bytes : List UInt8 // bytes.length = n } :=
  ⟨List.ofFn fun i : Fin n => UInt8.ofNat (value / 256 ^ (n - 1 - i)), List.length_ofFn⟩

def key : Aes256Key :=
  bytes aes256KeyLen 0x603deb1015ca71be2b73aef0857d77811f352c073b6108d72d9810a30914dff4

def iv : AesBlock := bytes aesBlockLen 0x000102030405060708090a0b0c0d0e0f

def ciphertext : List AesBlock :=
  [bytes aesBlockLen 0xf58c4c04d6e5f1ba779eabfb5f7bfbd6,
    bytes aesBlockLen 0x9cfc4e967edb808d679f777bc6702c7d]

def plaintext : List AesBlock :=
  [bytes aesBlockLen 0x6bc1bee22e409f96e93d7e117393172a,
    bytes aesBlockLen 0xae2d8a571e03ac9c9eb76fac45af8e51]

def inputs : List AesBlock :=
  [bytes aesBlockLen 0x6bc0bce12a459991e134741a7f9e1925,
    bytes aesBlockLen 0x5ba1c653c8e65d26e929c4571ad47587]

/-- A cipher that does with the two blocks what AES-256 does under the key. -/
def aes (_ : Aes256Key) : KeyedCipher aesBlockLen :=
  KeyedCipher.ofPerm
    ((inputs.zip ciphertext).foldr (fun pair perm => perm.trans (Equiv.swap pair.1 pair.2))
      (Equiv.refl AesBlock))

def awsLc : AwsLc where
  DecryptingKey := KeyedCipher aesBlockLen
  cbc key := some (aes key)
  decrypt cipher iv data := some (cbcDecrypt aesBlockLen cipher.decrypt iv data)

def hooks : HostCryptoHooks where
  aesCbcDecrypt _ iv data := .ok (cbcDecrypt aesBlockLen (aes key).decrypt iv data)

def chunks : List (List UInt8) := ciphertext.flatMap fun block => [[], [1], block.val]

def content : List UInt8 := plaintext.flatMap Subtype.val

end NistVector

theorem nistVector_decryptsInChunks :
    (∃ s, AwsLcAes256Cbc.new NistVector.awsLc NistVector.key NistVector.iv = .ok s ∧
        (runChunks AwsLcAes256Cbc.decrypt s NistVector.chunks).1.flatMap ReadResult.bytes =
          NistVector.content) ∧
      ∃ s, HostAes256Cbc.new NistVector.key NistVector.iv = .ok s ∧
        (runChunks (HostAes256Cbc.decrypt (some NistVector.hooks)) s NistVector.chunks).1.flatMap
          ReadResult.bytes = NistVector.content := by
  have hawsLc : NistVector.awsLc.Decrypts NistVector.aes := fun key => ⟨_, rfl, fun _ _ _ => rfl⟩
  have hhooks : NistVector.hooks.Decrypts NistVector.aes := fun _ _ _ _ => rfl
  have hplain : cbcDecrypt aesBlockLen (NistVector.aes NistVector.key).decrypt NistVector.iv.val
      (wholeChunks aesBlockLen NistVector.chunks).flatten = NistVector.content := by
    decide +kernel
  obtain ⟨⟨s, hs, hiv, hchunks⟩, ⟨s', hs', hiv', hchunks'⟩, -⟩ :=
    decryptsInChunks hawsLc hhooks NistVector.key NistVector.iv NistVector.chunks
  refine ⟨⟨s, hs, ?_⟩, s', hs', ?_⟩
  · rw [hchunks.output, hiv, hplain]
  · rw [hchunks'.output, hiv', hplain]

end Sevenz
