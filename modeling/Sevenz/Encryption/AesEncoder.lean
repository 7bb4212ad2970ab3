import Sevenz.Encryption.AesDecoder
import Sevenz.Reader.KeyBudget
import Sevenz.Writer.EndOfStream

/-!
# The AES encoder and what the decoder makes of it

`Aes256Sha256Encoder` of `encryption/aes.rs`, whose writes `Encoder` models, built from the
options of a method, and `Aes256Sha256Decoder` built from the properties those options emit.
-/

namespace Sevenz

open Lib

def newCipher {α : Type} (new : List UInt8 → List UInt8 → Except String α)
    (keyed : Result (List UInt8 × List UInt8) × KeyCache) : Result α × KeyCache :=
  match keyed with
  | (.error fault, cache) => (.error fault, cache)
  | (.ok (key, iv), cache) =>
      match new key iv with
      | .error message => (Result.fail (.other message), cache)
      | .ok cipher => (.ok cipher, cache)

def AesDecoder.new {σ : Type} (sha : Sha256) (backend : Aes256CbcLike) (input : σ)
    (properties password : List UInt8) (maxCyclesPower : UInt8) (maxKdfRounds : UInt64)
    (cache : KeyCache) : Result (AesDecoder backend.State σ) × KeyCache :=
  let new key iv := (backend.new key iv).mapError AesError.message
  let (cipher, cache) :=
    newCipher new (getAesKey sha password properties maxCyclesPower maxKdfRounds cache)
  (cipher.map fun cipher => { cipher, input }, cache)

def newFromSlices (encryptor : Aes256Key → AesBlock → BlockCipher) (key iv : List UInt8) :
    Except String BlockCipher :=
  if hkey : key.length = aes256KeyLen then
    if hiv : iv.length = aesBlockLen then .ok (encryptor ⟨key, hkey⟩ ⟨iv, hiv⟩)
    else .error "Invalid Length"
  else .error "Invalid Length"

def AesState.new (sha : Sha256) (encryptor : Aes256Key → AesBlock → BlockCipher)
    (options : AesEncoderOptions) (cache : KeyCache) : Result BlockCipher × KeyCache :=
  newCipher (newFromSlices encryptor)
    (getAesKey sha options.password options.properties (UInt8.ofNat maxAesCyclesPower)
      (UInt64.ofNat (2 ^ 64 - 1)) cache)

section

variable {σ : Type} (w : ByteSink Fault σ)

def AesState.writeInTurn (cipher : BlockCipher) :
    List (List UInt8) → AesState → σ → Result (List Nat × AesState × σ)
  | [], state, s => .ok ([], state, s)
  | buf :: bufs, state, s => do
      let (taken, state, s) ← state.write w cipher buf s
      let (counts, state, s) ← writeInTurn cipher bufs state s
      pure (taken :: counts, state, s)

end

def zeroPadded (data : List UInt8) : List UInt8 :=
  data ++ List.replicate ((aesBlockLen - data.length % aesBlockLen) % aesBlockLen) 0

def aesKeyOf (sha : Sha256) (password : List UInt8) (power : UInt8) (salt : List UInt8) :
    List UInt8 :=
  if power = 0x3F then rawKey salt password else deriveKey sha salt password power

theorem getAesKey_eq_ok {sha : Sha256} {password properties : List UInt8} {maxCyclesPower : UInt8}
    {maxKdfRounds : UInt64} {cache : KeyCache} (hsound : cache.Sound sha password)
    {power : UInt8} {salt iv key iv' : List UInt8}
    (hparts : aesKeyParts properties = .ok (power, salt, iv))
    (h : (getAesKey sha password properties maxCyclesPower maxKdfRounds cache).1 = .ok (key, iv')) :
    key = aesKeyOf sha password power salt ∧ iv' = iv := by
  unfold getAesKey at h
  rw [hparts] at h
  dsimp only at h
  unfold aesKeyOf
  split_ifs at h with hempty hraw hcap
  · cases h
  · cases h
    rw [if_pos hraw]
    exact ⟨rfl, rfl⟩
  · cases h
  · rw [if_neg hraw]
    have hadmitted : power.toNat ≤ maxAesCyclesPower :=
      Nat.le_trans (Nat.not_lt.mp hcap) (Nat.min_le_right _ _)
    have hobeys := KeyRequest.obeys hsound ⟨power, salt, maxKdfRounds, hadmitted⟩
    unfold KeyRequest.derive at hobeys
    cases hderive : (deriveKeyWithBudget sha password power salt maxKdfRounds cache).1 with
    | error fault =>
        rw [hderive] at h
        cases h
    | ok derived =>
        rw [hderive] at h
        cases h
        exact ⟨hobeys.key _ hderive, rfl⟩

def NamesSizes (power : UInt8) : Prop :=
  let first := (power &&& 0x3F) ||| 0xC0
  ((first >>> 6) &&& (1 : UInt8)) + ((0xFF : UInt8) &&& 15) = 16 ∧
    ((first >>> 7) &&& (1 : UInt8)) + ((0xFF : UInt8) >>> 4) = 16 ∧ first &&& 63 = power &&& 63

theorem namesSizes (power : UInt8) : NamesSizes power := by
  have h : ∀ n : Fin 256, NamesSizes (UInt8.ofNat n.val) := by
    unfold NamesSizes
    decide +kernel
  have hpower := h ⟨power.toNat, power.toNat_lt⟩
  rwa [UInt8.ofNat_toNat] at hpower

theorem aesKeyParts_properties (options : AesEncoderOptions) :
    aesKeyParts options.properties =
      .ok (options.numCyclesPower &&& 63, options.salt.toList, options.iv.toList) := by
  obtain ⟨hiv, hsalt, hpower⟩ := namesSizes options.numCyclesPower
  have hlength := options.properties_length
  unfold aesKeyParts
  have hhead : options.properties.head? = some ((options.numCyclesPower &&& 0x3F) ||| 0xC0) := rfl
  rw [Result.bind_of_ok (Result.okOr_eq_ok.mpr hhead)]
  dsimp only
  rw [if_neg (by rw [hlength]; decide)]
  have hsecond : options.properties.getD 1 0 = 0xFF := rfl
  rw [hsecond, hiv, hsalt, hpower]
  rw [Result.bind_of_ok ((Result.rejectIf_eq_ok (u := ())).mpr (by rw [hlength]; decide))]
  have hsaltLength : options.salt.toList.length = 16 := options.salt.length_toList
  have hivLength : options.iv.toList.length = 16 := options.iv.length_toList
  have hdrop : options.properties.drop 2 = options.salt.toList ++ options.iv.toList := rfl
  have hdrop' : options.properties.drop (2 + (16 : UInt8).toNat) = options.iv.toList := by
    rw [← List.drop_drop, hdrop]
    exact List.drop_left' hsaltLength
  have hsalt' : (options.properties.drop 2).take (16 : UInt8).toNat = options.salt.toList := by
    rw [hdrop]
    exact List.take_left' hsaltLength
  have hiv' : (options.properties.drop (2 + (16 : UInt8).toNat)).take (16 : UInt8).toNat =
      options.iv.toList := by
    rw [hdrop']
    exact List.take_of_length_le (Nat.le_of_eq hivLength)
  rw [hsalt', hiv']
  exact congrArg (fun iv => Except.ok (options.numCyclesPower &&& 63, options.salt.toList, iv))
    (List.append_nil _)

/-- The encryptor enciphers whole blocks as AES-256 does in CBC mode. -/
def EncryptsCbc (encryptor : Aes256Key → AesBlock → BlockCipher)
    (aes : Aes256Key → KeyedCipher aesBlockLen) : Prop :=
  ∀ (key : Aes256Key) (iv : AesBlock) (blocks : List (List UInt8)),
    (∀ block ∈ blocks, block.length = aesBlockLen) →
      (encryptor key iv).encryptAll blocks =
        cbcEncrypt aesBlockLen (aes key).encrypt iv blocks.flatten

theorem zeroPadded_dvd (data : List UInt8) : aesBlockLen ∣ (zeroPadded data).length := by
  rw [zeroPadded, List.length_append, List.length_replicate]
  exact Nat.dvd_of_mod_eq_zero (by unfold aesBlockLen; omega)

theorem zeroPadded_eq {data : List UInt8} {n : Nat} (hn : n < aesBlockLen)
    (hwhole : aesBlockLen ∣ (data ++ List.replicate n (0 : UInt8)).length) :
    data ++ List.replicate n 0 = zeroPadded data := by
  rw [List.length_append, List.length_replicate] at hwhole
  have hmod := Nat.mod_eq_zero_of_dvd hwhole
  have hcount : n = (aesBlockLen - data.length % aesBlockLen) % aesBlockLen := by
    unfold aesBlockLen at hn hmod ⊢
    omega
  rw [zeroPadded, ← hcount]

section

variable {σ : Type} {w : ByteSink Fault σ} {isOpen : σ → Prop}
  {received : σ → List (List UInt8)}

theorem AesState.writeInTurn_holds (hw : w.Delivers isOpen received) {cipher : BlockCipher}
    {chunks : List (List UInt8)} (hne : ∀ chunk ∈ chunks, chunk ≠ []) {state : AesState} {s : σ}
    {data : List UInt8} (hopen : isOpen s) (hfinished : state.finished = false)
    (h : state.Holds cipher data (received s).flatten) :
    ∃ state' s', AesState.writeInTurn w cipher chunks state s =
        .ok (chunks.map List.length, state', s') ∧
      isOpen s' ∧ state'.finished = false ∧
      state'.Holds cipher (data ++ chunks.flatten) (received s').flatten := by
  induction chunks generalizing state s data with
  | nil =>
      refine ⟨state, s, rfl, hopen, hfinished, ?_⟩
      rw [List.flatten_nil, List.append_nil]
      exact h
  | cons chunk chunks ih =>
      obtain ⟨hchunk, hchunks⟩ := List.forall_mem_cons.mp hne
      obtain ⟨state₁, s₁, hwrite, hopen₁, hfinished₁, h₁⟩ :=
        AesState.write_holds hw hchunk hopen hfinished h
      obtain ⟨state', s', hrest, hopen', hfinished', h'⟩ := ih hchunks hopen₁ hfinished₁ h₁
      refine ⟨state', s', ?_, hopen', hfinished', ?_⟩
      · rw [writeInTurn, Result.bind_of_ok hwrite]
        dsimp only
        rw [Result.bind_of_ok hrest]
        rfl
      · rw [List.flatten_cons, ← List.append_assoc]
        exact h'

theorem AesState.write_end (hw : w.Delivers isOpen received)
    (hend : ∀ s, isOpen s → ∃ taken s', w.write [] s = .ok (taken, s') ∧
      (received s').flatten = (received s).flatten)
    {cipher : BlockCipher} {state : AesState} {s : σ} {data : List UInt8} (hopen : isOpen s)
    (h : state.Holds cipher data (received s).flatten) :
    ∃ taken state' s' blocks, state.write w cipher [] s = .ok (taken, state', s') ∧
      (received s').flatten = cipher.encryptAll blocks ∧ blocks.flatten = zeroPadded data ∧
      ∀ block ∈ blocks, block.length = aesBlockLen := by
  have hholds : AesState.Holds cipher { state with finished := true } data (received s).flatten :=
    ⟨h.data, h.below, h.full⟩
  obtain ⟨state', s₁, hflush, hopen₁, hcomplete⟩ := AesState.flush_complete hw hopen rfl hholds
  obtain ⟨taken, s', hwrite, hreceived⟩ := hend s₁ hopen₁
  obtain ⟨n, hn, hdata⟩ := hcomplete.data
  refine ⟨taken, state', s', state'.blocks, ?_, ?_, ?_, hcomplete.full⟩
  · rw [write, if_neg (by simp), if_pos List.isEmpty_nil, Result.bind_of_ok hflush]
    dsimp only
    rw [Result.bind_of_ok hwrite]
    rfl
  · rw [hreceived, hcomplete.below]
  · rw [hdata]
    refine zeroPadded_eq hn ⟨state'.blocks.length, ?_⟩
    rw [← hdata, flatten_length_of_forall hcomplete.full, Nat.mul_comm]
    rfl

end

theorem getAesKey_properties {sha : Sha256} {options : AesEncoderOptions} {maxCyclesPower : UInt8}
    {maxKdfRounds : UInt64} {cache : KeyCache} (hsound : cache.Sound sha options.password)
    {key iv : List UInt8}
    (h : (getAesKey sha options.password options.properties maxCyclesPower maxKdfRounds cache).1 =
      .ok (key, iv)) :
    key = aesKeyOf sha options.password (options.numCyclesPower &&& 63) options.salt.toList ∧
      iv = options.iv.toList :=
  getAesKey_eq_ok hsound (aesKeyParts_properties options) h

theorem newCipher_eq_ok {α : Type} {new : List UInt8 → List UInt8 → Except String α}
    {keyed : Result (List UInt8 × List UInt8) × KeyCache} {cipher : α}
    (h : (newCipher new keyed).1 = .ok cipher) :
    ∃ key iv, keyed.1 = .ok (key, iv) ∧ new key iv = .ok cipher := by
  obtain ⟨answer, cache⟩ := keyed
  cases answer with
  | error fault => cases h
  | ok parts =>
      obtain ⟨key, iv⟩ := parts
      unfold newCipher at h
      dsimp only at h
      cases hnew : new key iv with
      | error message =>
          rw [hnew] at h
          cases h
      | ok built =>
          rw [hnew] at h
          cases h
          exact ⟨key, iv, rfl, hnew⟩

theorem AesDecoder.new_eq_ok {σ : Type} {sha : Sha256} {backend : Aes256CbcLike} {input : σ}
    {properties password : List UInt8} {maxCyclesPower : UInt8} {maxKdfRounds : UInt64}
    {cache : KeyCache} {d : AesDecoder backend.State σ}
    (h : (AesDecoder.new sha backend input properties password maxCyclesPower maxKdfRounds
      cache).1 = .ok d) :
    ∃ cipher key iv,
      (getAesKey sha password properties maxCyclesPower maxKdfRounds cache).1 = .ok (key, iv) ∧
        backend.new key iv = .ok cipher ∧ d = { cipher, input } := by
  unfold AesDecoder.new at h
  dsimp only at h
  cases hcipher : (newCipher (fun key iv => (backend.new key iv).mapError AesError.message)
      (getAesKey sha password properties maxCyclesPower maxKdfRounds cache)).1 with
  | error fault =>
      rw [hcipher] at h
      cases h
  | ok cipher =>
      rw [hcipher] at h
      cases h
      obtain ⟨key, iv, hkeyed, hnew⟩ := newCipher_eq_ok hcipher
      refine ⟨cipher, key, iv, hkeyed, ?_, rfl⟩
      cases hbuilt : backend.new key iv with
      | error error =>
          rw [hbuilt] at hnew
          cases hnew
      | ok built =>
          rw [hbuilt] at hnew
          cases hnew
          rfl

theorem newFromSlices_eq_ok {encryptor : Aes256Key → AesBlock → BlockCipher}
    {key iv : List UInt8} {cipher : BlockCipher}
    (h : newFromSlices encryptor key iv = .ok cipher) :
    ∃ (key' : Aes256Key) (iv' : AesBlock), key'.val = key ∧ iv'.val = iv ∧
      encryptor key' iv' = cipher := by
  unfold newFromSlices at h
  split_ifs at h with hkey hiv
  cases h
  exact ⟨⟨key, hkey⟩, ⟨iv, hiv⟩, rfl, rfl, rfl⟩

def AesEncoderOptions.ivBlock (options : AesEncoderOptions) : AesBlock :=
  ⟨options.iv.toList, options.iv.length_toList⟩

/-- Every decoder that is built from the properties of the options and their password, over a
reader with these bytes, delivers the content and ends. -/
def AesDecodes (sha : Sha256) (backend : Aes256CbcLike) (options : AesEncoderOptions)
    (sent content : List UInt8) : Prop :=
  ∀ {σ : Type} {read : ReadFn ReadFault σ} {Holds : List UInt8 → σ → Prop} {input : σ}
    {maxCyclesPower : UInt8} {maxKdfRounds : UInt64} {cache : KeyCache}
    {d d' : AesDecoder backend.State σ} {records : List (ReadRecord ReadFault)},
    Serves read Holds → Holds sent input → cache.Sound sha options.password →
      (AesDecoder.new sha backend input options.properties options.password maxCyclesPower
        maxKdfRounds cache).1 = .ok d →
      Trace (AesDecoder.readInto backend.decrypt read) d records d' →
      Delivery (fun _ => False) content none records ∧
        (content.length < (roomyReads records).length →
          delivered records = content ∧ readErrors records = [])

theorem aesDecodes {sha : Sha256} {aes : Aes256Key → KeyedCipher aesBlockLen}
    {backend : Aes256CbcLike} (hbackend : backend.Decrypts aes) {options : AesEncoderOptions}
    {key : Aes256Key}
    (hkey : key.val =
      aesKeyOf sha options.password (options.numCyclesPower &&& 63) options.salt.toList)
    {content : List UInt8} (hwhole : aesBlockLen ∣ content.length) :
    AesDecodes sha backend options
      (cbcEncrypt aesBlockLen (aes key).encrypt options.ivBlock content) content := by
  intro σ read Holds input maxCyclesPower maxKdfRounds cache d d' records hread hinput hsound hnew
    htrace
  obtain ⟨cipher, key', iv', hkeyed, hbuilt, rfl⟩ := AesDecoder.new_eq_ok hnew
  obtain ⟨rfl, rfl⟩ := getAesKey_properties hsound hkeyed
  obtain ⟨chain, Valid, s, hs, hvalid, hchain, hdecrypts⟩ := hbackend key options.ivBlock
  rw [← hkey, show options.iv.toList = options.ivBlock.val from rfl, hs] at hbuilt
  cases hbuilt
  have hplain := cbcDecrypt_encrypt aesBlockLen_pos (aes key) options.ivBlock.property hwhole
  have hending : AesDecoder.streamEnding
      (cbcEncrypt aesBlockLen (aes key).encrypt options.ivBlock content) = none := by
    rw [AesDecoder.streamEnding, if_pos (cbcEncrypt_dvd _ options.ivBlock.property content)]
  have hdelivers := AesDecoder.delivers hdecrypts hread hvalid hinput htrace
  rw [hchain, hplain, hending] at hdelivers
  exact hdelivers

/-- Over every cut of a plaintext into writes, and an empty write after them, the encoder sends
the encryption of the plaintext padded with zeros to whole blocks, under the key and from the
vector of its options.  Decoders built from the properties of the options and the same password
give the padded plaintext back, and one with the limits of the encoder is built. -/
theorem encodes_and_decodes {sha : Sha256} {aes : Aes256Key → KeyedCipher aesBlockLen}
    {encryptor : Aes256Key → AesBlock → BlockCipher} (hencryptor : EncryptsCbc encryptor aes)
    {backend : Aes256CbcLike} (hbackend : backend.Decrypts aes) {τ : Type} {w : ByteSink Fault τ}
    {isOpen : τ → Prop} {received : τ → List (List UInt8)} (hw : w.Delivers isOpen received)
    (hend : ∀ s, isOpen s → ∃ taken s', w.write [] s = .ok (taken, s') ∧
      (received s').flatten = (received s).flatten)
    {options : AesEncoderOptions} {cache : KeyCache} (hsound : cache.Sound sha options.password)
    {cipher : BlockCipher} (hencoder : (AesState.new sha encryptor options cache).1 = .ok cipher)
    {chunks : List (List UInt8)} (hne : ∀ chunk ∈ chunks, chunk ≠ []) {s : τ} (hopen : isOpen s)
    (hnone : received s = []) :
    ∃ (key : Aes256Key) (state₁ state' : AesState) (s₁ s' : τ) (taken : Nat),
      key.val = aesKeyOf sha options.password (options.numCyclesPower &&& 63)
        options.salt.toList ∧
      AesState.writeInTurn w cipher chunks {} s = .ok (chunks.map List.length, state₁, s₁) ∧
      state₁.write w cipher [] s₁ = .ok (taken, state', s') ∧
      (received s').flatten =
        cbcEncrypt aesBlockLen (aes key).encrypt options.ivBlock (zeroPadded chunks.flatten) ∧
      AesDecodes sha backend options (received s').flatten (zeroPadded chunks.flatten) ∧
      ∀ {σ : Type} (input : σ), ∃ d,
        (AesDecoder.new sha backend input options.properties options.password
          (UInt8.ofNat maxAesCyclesPower) (UInt64.ofNat (2 ^ 64 - 1)) cache).1 = .ok d := by
  obtain ⟨key', iv', hkeyed, hnew⟩ := newCipher_eq_ok hencoder
  obtain ⟨key, iv, hkeyVal, hivVal, rfl⟩ := newFromSlices_eq_ok hnew
  obtain ⟨hkey, hiv⟩ := getAesKey_properties hsound hkeyed
  obtain rfl : iv = options.ivBlock := Subtype.ext (hivVal.trans hiv)
  have hkeyOf := hkeyVal.trans hkey
  have hholds : AesState.Holds (encryptor key options.ivBlock) {} [] (received s).flatten := by
    rw [hnone]
    exact ⟨rfl, rfl, List.forall_mem_nil _⟩
  obtain ⟨state₁, s₁, hwrites, hopen₁, -, hholds₁⟩ :=
    AesState.writeInTurn_holds hw hne hopen rfl hholds
  obtain ⟨taken, state', s', blocks, hwrite, hreceived, hblocks, hfull⟩ :=
    AesState.write_end hw hend hopen₁ hholds₁
  rw [List.nil_append] at hblocks
  have hsent : (received s').flatten =
      cbcEncrypt aesBlockLen (aes key).encrypt options.ivBlock (zeroPadded chunks.flatten) := by
    rw [hreceived, hencryptor key options.ivBlock blocks hfull, hblocks]
  refine ⟨key, state₁, state', s₁, s', taken, hkeyOf, hwrites, hwrite, hsent, ?_, ?_⟩
  · rw [hsent]
    exact aesDecodes hbackend hkeyOf (zeroPadded_dvd _)
  · intro σ input
    obtain ⟨-, -, cipher, hcipher, -⟩ := hbackend key options.ivBlock
    refine ⟨{ cipher, input }, ?_⟩
    have hbuilt : (newCipher (fun key iv => (backend.new key iv).mapError AesError.message)
        (getAesKey sha options.password options.properties (UInt8.ofNat maxAesCyclesPower)
          (UInt64.ofNat (2 ^ 64 - 1)) cache)).1 = .ok cipher := by
      rw [← hkeyVal, hiv] at hkeyed
      obtain ⟨cache', hcall⟩ : ∃ cache', getAesKey sha options.password options.properties
          (UInt8.ofNat maxAesCyclesPower) (UInt64.ofNat (2 ^ 64 - 1)) cache =
            (.ok (key.val, options.ivBlock.val), cache') := ⟨_, Prod.ext hkeyed rfl⟩
      rw [hcall, newCipher]
      simp only [hcipher, Except.mapError]
    unfold AesDecoder.new
    dsimp only
    rw [hbuilt]
    rfl

/-! An encryptor over a block cipher, and the vector's two blocks written in pieces. -/

def chainBlock (cipher : KeyedCipher aesBlockLen) (iv : AesBlock) (block : List UInt8) : AesBlock :=
  if h : block.length = aesBlockLen then
    ⟨cipher.encrypt (xorBytes block iv), cipher.encrypt_length _ (xorBytes_length h iv.property)⟩
  else iv

def cbcEncryptor (aes : Aes256Key → KeyedCipher aesBlockLen) (key : Aes256Key) (iv : AesBlock) :
    BlockCipher where
  encrypt blocks block :=
    if block.length = aesBlockLen then
      (chainBlock (aes key) (blocks.foldl (chainBlock (aes key)) iv) block).val
    else block
  length_encrypt blocks block := by
    split
    · rename_i h
      rw [h]
      exact (chainBlock (aes key) (blocks.foldl (chainBlock (aes key)) iv) block).property
    · rfl

theorem cbcEncryptor_encrypts (aes : Aes256Key → KeyedCipher aesBlockLen) :
    EncryptsCbc (cbcEncryptor aes) aes := by
  intro key iv blocks hblocks
  have hfrom : ∀ before, (cbcEncryptor aes key iv).encryptFrom before blocks =
      (cbcEncryptBlocks (aes key).encrypt (before.foldl (chainBlock (aes key)) iv).val
        blocks).flatten := by
    induction blocks with
    | nil => exact fun _ => rfl
    | cons block blocks ih =>
        intro before
        obtain ⟨hblock, hrest⟩ := List.forall_mem_cons.mp hblocks
        have hchain : (chainBlock (aes key) (before.foldl (chainBlock (aes key)) iv) block).val =
            (aes key).encrypt (xorBytes block (before.foldl (chainBlock (aes key)) iv).val) := by
          rw [chainBlock, dif_pos hblock]
        have hencrypt : (cbcEncryptor aes key iv).encrypt before block =
            (aes key).encrypt (xorBytes block (before.foldl (chainBlock (aes key)) iv).val) := by
          rw [← hchain]
          exact if_pos hblock
        rw [BlockCipher.encryptFrom, ih hrest, hencrypt, List.foldl_append, cbcEncryptBlocks,
          List.flatten_cons]
        simp only [List.foldl_cons, List.foldl_nil, hchain]
  rw [cbcEncrypt, blocks_of_flatten aesBlockLen_pos hblocks]
  exact hfrom []

namespace NistVector

def options : AesEncoderOptions where
  password := key.val.drop 16
  salt := ⟨(key.val.take 16).toArray, by decide +kernel⟩
  iv := ⟨iv.val.toArray, by decide +kernel⟩
  numCyclesPower := 63

def sha : Sha256 where
  State := List UInt8
  new := []
  update bytes state := state ++ bytes
  finalize state := (state ++ List.replicate 32 0).take 32

def sink : ByteSink Fault (List (List UInt8)) where
  write buf received := .ok (buf.length, received ++ [buf])
  flush received := .ok received

theorem sink_delivers : sink.Delivers (fun _ => True) id where
  write received buf _ hne :=
    ⟨buf.length, received ++ [buf], rfl, List.length_pos_of_ne_nil hne, Nat.le_refl _, trivial,
      by rw [List.take_length]; rfl⟩
  flush received _ := ⟨received, rfl, trivial, rfl⟩

def writes : List (List UInt8) := [content.take 5, (content.drop 5).take 20, content.drop 25]

end NistVector

theorem nistVector_encodes_and_decodes :
    ∃ cipher state₁ state' s₁ s' taken,
      (AesState.new NistVector.sha (cbcEncryptor NistVector.aes) NistVector.options {}).1 =
        .ok cipher ∧
      AesState.writeInTurn NistVector.sink cipher NistVector.writes {} [] =
        .ok ([5, 20, 7], state₁, s₁) ∧
      state₁.write NistVector.sink cipher [] s₁ = .ok (taken, state', s') ∧
      s'.flatten = NistVector.ciphertextBytes ∧
      AesDecodes NistVector.sha NistVector.awsLc.backend NistVector.options s'.flatten
        NistVector.content := by
  have hend : ∀ s : List (List UInt8), True → ∃ taken s',
      NistVector.sink.write [] s = .ok (taken, s') ∧ (id s').flatten = (id s).flatten := by
    intro s _
    refine ⟨0, s ++ [[]], rfl, ?_⟩
    exact List.flatten_concat.trans (List.append_nil s.flatten)
  have hsound : KeyCache.Sound NistVector.sha NistVector.options.password {} := nofun
  have hdecrypts : NistVector.awsLc.backend.Decrypts NistVector.aes :=
    AwsLc.backend_decrypts fun key => ⟨_, rfl, fun _ _ _ => rfl⟩
  have hkeyed : (getAesKey NistVector.sha NistVector.options.password
      NistVector.options.properties (UInt8.ofNat maxAesCyclesPower) (UInt64.ofNat (2 ^ 64 - 1))
      {}).1 = .ok (NistVector.key.val, NistVector.iv.val) := by
    decide +kernel
  have hencoder : (AesState.new NistVector.sha (cbcEncryptor NistVector.aes) NistVector.options
      {}).1 = .ok (cbcEncryptor NistVector.aes NistVector.key NistVector.iv) := by
    obtain ⟨cache, hcall⟩ : ∃ cache, getAesKey NistVector.sha NistVector.options.password
        NistVector.options.properties (UInt8.ofNat maxAesCyclesPower) (UInt64.ofNat (2 ^ 64 - 1))
        {} = (.ok (NistVector.key.val, NistVector.iv.val), cache) := ⟨_, Prod.ext hkeyed rfl⟩
    rw [AesState.new, hcall, newCipher, newFromSlices, dif_pos NistVector.key.property,
      dif_pos NistVector.iv.property]
  have hsplit : NistVector.writes.flatten = NistVector.content ∧
      NistVector.writes.map List.length = [5, 20, 7] ∧
      zeroPadded NistVector.content = NistVector.content ∧
      cbcEncrypt aesBlockLen (NistVector.aes NistVector.key).encrypt NistVector.options.ivBlock
        NistVector.content = NistVector.ciphertextBytes := by
    decide +kernel
  obtain ⟨hflatten, hcounts, hpadded, hcipher⟩ := hsplit
  obtain ⟨key, state₁, state', s₁, s', taken, -, hwrites, hwrite, hsent, hdecodes, -⟩ :=
    encodes_and_decodes (cbcEncryptor_encrypts NistVector.aes) hdecrypts NistVector.sink_delivers
      hend hsound hencoder
      (show ∀ chunk ∈ NistVector.writes, chunk ≠ [] by decide +kernel) trivial rfl
  rw [hcounts] at hwrites
  rw [hflatten, hpadded] at hsent hdecodes
  refine ⟨_, state₁, state', s₁, s', taken, hencoder, hwrites, hwrite, ?_, hdecodes⟩
  exact hsent.trans hcipher

end Sevenz
