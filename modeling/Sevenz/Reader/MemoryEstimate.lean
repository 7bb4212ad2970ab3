import Sevenz.Codec.Dictionary
import Sevenz.Header.StartHeader
import Sevenz.Reader.ArchiveReader
import Sevenz.Reader.KeyBudget
import Sevenz.Reader.Lzma2Threads

/-!
# The memory of the decoders

`Archive::decoder_memory_estimate`, which an `ArchiveReader` is opened against, and
`add_decoder`, which checks the coders again as it builds them.
-/

namespace Sevenz

open Lib

/-- `EncoderMethod::by_id`, over `ENCODING_METHODS`. -/
def EncoderMethod.byId (id : List UInt8) : Option EncoderMethod :=
  [copy, lzma, lzma2, ppmd, bzip2, zstd, brotli, lz4, lzs, lizard, deflate, deflate64,
    aes256Sha256, bcjX86Filter, bcjPpcFilter, bcjIa64Filter, bcjArmFilter, bcjArm64Filter,
    bcjArmThumbFilter, bcjSparcFilter, bcjRiscvFilter, deltaFilter, bcj2Filter].find?
    fun item => item.id == id

theorem EncoderMethod.id_of_byId {id : List UInt8} {method : EncoderMethod}
    (h : byId id = some method) : method.id = id := by
  have hid := List.find?_some h
  exact beq_iff_eq.mp hid

def mib : Nat := 0x100000

structure UnsizedCoder where
  methodId : List UInt8
  reason : String
  deriving DecidableEq, Repr

def hexDebug (bytes : List UInt8) : String :=
  let digits := fun b : UInt8 =>
    String.ofList [Nat.digitChar (b.toNat / 16), Nat.digitChar (b.toNat % 16)]
  "[" ++ ", ".intercalate (bytes.map digits) ++ "]"

def UnsizedCoder.toString (unsizedCoder : UnsizedCoder) : String :=
  "coder " ++ hexDebug unsizedCoder.methodId ++ ": " ++ unsizedCoder.reason

def lzmaDictionaryBytes (methodId properties : List UInt8) : Except UnsizedCoder Nat :=
  if properties.length < 5 then
    .error { methodId, reason := "LZMA properties shorter than five bytes" }
  else .ok (leValue ((properties.drop 1).take 4))

def lzma2DictionaryBytes (methodId properties : List UInt8) : Except UnsizedCoder Nat :=
  match properties.head? with
  | none => .error { methodId, reason := "LZMA2 properties empty" }
  | some first =>
      let bits := first.toNat
      if bits &&& (2 ^ 64 - 1 - 0x3F) ≠ 0 then
        .error { methodId, reason := "LZMA2 property byte has reserved bits set" }
      else if bits > 40 then
        .error { methodId, reason := "LZMA2 dictionary larger than the 4 GiB maximum" }
      else
        let dict := if bits = 40 then 2 ^ 32 - 1 else (2 ||| (bits &&& 1)) <<< (bits / 2 + 11)
        .ok ((dict + 15) &&& (2 ^ 64 - 1 - 15))

def ppmdModelBytes (methodId properties : List UInt8) : Except UnsizedCoder Nat :=
  if properties.length < 5 then
    .error { methodId, reason := "PPMd properties shorter than five bytes" }
  else .ok (leValue ((properties.drop 1).take 4))

def filterIds : List (List UInt8) :=
  ([.aes256Sha256, .deltaFilter, .bcjX86Filter, .bcjArmFilter, .bcjArm64Filter,
    .bcjArmThumbFilter, .bcjPpcFilter, .bcjIa64Filter, .bcjSparcFilter,
    .bcjRiscvFilter] : List EncoderMethod).map EncoderMethod.id

def coderMemoryEstimate (coder : Coder) : Except UnsizedCoder Nat :=
  let methodId := coder.encoderMethodId
  let properties := coder.properties
  if methodId = EncoderMethod.copy.id then .ok 0
  else if methodId = EncoderMethod.lzma.id then
    (lzmaDictionaryBytes methodId properties).map (saturatingAdd · mib)
  else if methodId = EncoderMethod.lzma2.id then
    (lzma2DictionaryBytes methodId properties).map (saturatingAdd · mib)
  else if methodId = EncoderMethod.ppmd.id then
    (ppmdModelBytes methodId properties).map (saturatingAdd · mib)
  else if methodId = EncoderMethod.bzip2.id then .ok (8 * mib)
  else if methodId = EncoderMethod.deflate.id then .ok mib
  else if methodId = EncoderMethod.brotli.id then .ok (32 * mib)
  else if methodId = EncoderMethod.zstd.id then .ok (160 * mib)
  else if methodId = EncoderMethod.lz4.id then .ok (16 * mib)
  else if methodId = EncoderMethod.bcj2Filter.id then .ok (16 * mib)
  else if methodId ∈ filterIds then .ok mib
  else .error { methodId, reason := "no memory model for this coder" }

def chainMemoryEstimate : List Coder → Nat → Except UnsizedCoder Nat
  | [], chain => .ok chain
  | coder :: coders, chain => do
      let bytes ← coderMemoryEstimate coder
      chainMemoryEstimate coders (saturatingAdd chain bytes)

def largestBlock : List Block → Nat → Except UnsizedCoder Nat
  | [], largest => .ok largest
  | block :: blocks, largest => do
      let chain ← chainMemoryEstimate block.coders 0
      largestBlock blocks (max largest chain)

def Archive.decoderMemoryEstimate (archive : Archive) : Except UnsizedCoder Nat :=
  largestBlock archive.blocks 0

def checkMemory (limits : ArchiveLimits) (archive : Archive) : Result Unit :=
  if limits.memoryLimitBytes < 0xFFFFFFFFFFFFFFFF then
    match archive.decoderMemoryEstimate with
    | .ok requiredBytes =>
        Result.rejectIf (requiredBytes > limits.memoryLimitBytes.toNat)
          (.memoryLimited limits.memoryLimitBytes.toNat requiredBytes)
    | .error unsizedCoder =>
        Result.fail (.unsupportedCompressionMethod unsizedCoder.toString)
  else .ok ()

def ArchiveReader.withLimits (codecs : Codecs) (file : List UInt8) (passwordGiven : Bool)
    (limits : ArchiveLimits) : Result ArchiveReader := do
  let archive ← readWithLimits codecs limits passwordGiven file
  checkMemory limits archive
  pure { codecs, limits, verifyChecksums := true, passwordGiven, archive }

def ceilKb (bytes : Nat) : Nat := (bytes + 1023) / 1024

def ArchiveLimits.memoryLimitKb (limits : ArchiveLimits) : Nat :=
  ceilKb limits.memoryLimitBytes.toNat

/-- The decoders of other crates, as far as how building one fails and the bounds of a PPMd
model, and the implementation of SHA-256 with the last key derived for the password. -/
structure DecoderCrates where
  lzma : UInt64 → List UInt8 → UInt32 → Option IoError
  lzma2 : UInt8 → Lzma2Plan → Option IoError
  ppmd : Nat → Nat → Option String
  ppmd7MinOrder : Nat
  ppmd7MaxOrder : Nat
  ppmd7MinMemSize : Nat
  ppmd7MaxMemSize : Nat
  brotli : Option IoError
  lz4 : Option IoError
  zstd : Option IoError
  windowLogMax : Nat → Option IoError
  aes256Cbc : List UInt8 → List UInt8 → Option String
  sha256 : Sha256
  keyCache : KeyCache

structure DecoderOptions where
  limits : ArchiveLimits
  threads : Nat
  adaptiveLzma2 : Bool
  lzma2Control : Bool

inductive BuiltDecoder where
  | copy
  | lzma (dictSize : UInt32)
  | lzma2 (dictProp : UInt8) (plan : Lzma2Plan)
  | ppmd (order memorySize : Nat)
  | brotli
  | bzip2
  | deflate
  | lz4
  | zstd (windowLog : Nat)
  | bcj (method : EncoderMethod)
  | delta (distance : Nat)
  | aes256Sha256 (key iv : List UInt8)
  deriving DecidableEq

def Result.orFail {ε α : Type} (f : ε → Error) (failure : Option ε) (a : α) : Result α :=
  match failure with
  | some e => Result.fail (f e)
  | none => .ok a

def checkMemoryKb (maxMemLimitKb memSize : Nat) : Result Unit :=
  Result.rejectIf (memSize > maxMemLimitKb) (.maxMemLimited maxMemLimitKb memSize)

def getPpmdOrderMemorySize (crates : DecoderCrates) (coder : Coder) (maxMemLimitKb : Nat) :
    Result (Nat × Nat) := do
  Result.rejectIf (coder.properties.length < 5) (.other "PPMD properties too short")
  let order := (coder.properties.getD 0 0).toNat
  let memorySize := leValue ((coder.properties.drop 1).take 4)
  Result.rejectIf (order < crates.ppmd7MinOrder) (.other "PPMD order smaller than PPMD7_MIN_ORDER")
  Result.rejectIf (order > crates.ppmd7MaxOrder) (.other "PPMD order larger than PPMD7_MAX_ORDER")
  Result.rejectIf (memorySize < crates.ppmd7MinMemSize)
    (.other "PPMD memory size smaller than PPMD7_MIN_MEM_SIZE")
  Result.rejectIf (memorySize > crates.ppmd7MaxMemSize)
    (.other "PPMD memory size larger than PPMD7_MAX_MEM_SIZE")
  checkMemoryKb maxMemLimitKb (ceilKb memorySize)
  pure (order, memorySize)

section

variable (crates : DecoderCrates) (opts : DecoderOptions) (password : List UInt8)

def addLzma (uncompressedLen : UInt64) (coder : Coder) : Result BuiltDecoder := do
  Result.rejectIf (coder.properties.length < 5) (.other "LZMA properties too short")
  let declared ← lzmaDictionarySize coder.properties
  -- clamped before the check, so that a huge dictionary for a small stream is let through
  let dictSize := clampDictionary declared uncompressedLen
  checkMemoryKb opts.limits.memoryLimitKb (lzma2MemoryUsageKb dictSize)
  Result.orFail (Error.badPassword · (!password.isEmpty))
    (crates.lzma uncompressedLen coder.properties dictSize) (.lzma dictSize)

def addLzma2 (uncompressedLen : UInt64) (coder : Coder) : Result BuiltDecoder := do
  let dictProp ← Result.okOr (.other "LZMA2 properties too short") coder.properties.head?
  let dictProp := lzma2ClampedProp dictProp uncompressedLen
  let dictSize ← lzma2DictionarySize [dictProp]
  checkMemoryKb opts.limits.memoryLimitKb (lzma2MemoryUsageKb dictSize)
  let plan :=
    if opts.lzma2Control then
      Lzma2Plan.forBlock opts.threads opts.adaptiveLzma2 opts.limits.memoryLimitBytes
        dictSize.toNat
    else .singleThreaded
  Result.orFail (Error.badPassword · (!password.isEmpty)) (crates.lzma2 dictProp plan)
    (.lzma2 dictProp plan)

def addPpmd (coder : Coder) : Result BuiltDecoder := do
  let (order, memorySize) ← getPpmdOrderMemorySize crates coder opts.limits.memoryLimitKb
  Result.orFail Error.other (crates.ppmd order memorySize) (.ppmd order memorySize)

/-- The largest zstd window in the memory limit, or the reference decoder's own bound. -/
def zstdWindowLog (maxMemLimitKb : Nat) : Nat :=
  if maxMemLimitKb = 2 ^ 64 - 1 then 27
  else
    let bytes := max (min (maxMemLimitKb * 1024) (2 ^ 64 - 1)) 1024
    max 10 (min bytes.log2 27)

def addZstd : Result BuiltDecoder := do
  Result.orFail Error.ofIo crates.zstd ()
  let windowLog := zstdWindowLog opts.limits.memoryLimitKb
  Result.orFail Error.ofIo (crates.windowLogMax windowLog) (.zstd windowLog)

def addAes256Sha256 (coder : Coder) : Result BuiltDecoder := do
  Result.rejectIf (password.isEmpty = true) .passwordRequired
  let (key, iv) ←
    (getAesKey crates.sha256 password coder.properties opts.limits.maxAesCyclesPower
      opts.limits.maxAesKdfRounds crates.keyCache).1
  Result.orFail Error.other (crates.aes256Cbc key iv) (.aes256Sha256 key iv)

def addDecoder (uncompressedLen : UInt64) (coder : Coder) : Result BuiltDecoder :=
  match EncoderMethod.byId coder.encoderMethodId with
  | none => Result.fail (.unsupportedCompressionMethod s!"{coder.encoderMethodId}")
  | some method =>
      match method with
      | .copy => .ok .copy
      | .lzma => addLzma crates opts password uncompressedLen coder
      | .lzma2 => addLzma2 crates opts password uncompressedLen coder
      | .ppmd => addPpmd crates opts coder
      | .brotli => Result.orFail Error.ofIo crates.brotli .brotli
      | .bzip2 => .ok .bzip2
      | .deflate => .ok .deflate
      | .lz4 => Result.orFail Error.ofIo crates.lz4 .lz4
      | .zstd => addZstd crates opts
      | .bcjX86Filter | .bcjArmFilter | .bcjArm64Filter | .bcjArmThumbFilter | .bcjPpcFilter
      | .bcjIa64Filter | .bcjSparcFilter | .bcjRiscvFilter => .ok (.bcj method)
      | .deltaFilter =>
          .ok (.delta ((coder.properties.head?.map fun b => b.toNat + 1).getD 1))
      | .aes256Sha256 => addAes256Sha256 crates opts password coder
      | _ => Result.fail (.unsupportedCompressionMethod method.name)

end

namespace Result

def WithinMemory {α : Type} (x : Result α) : Prop :=
  ∀ maxKb actualKb, x ≠ fail (.maxMemLimited maxKb actualKb)

variable {α β : Type}

theorem withinMemory_ok (a : α) : WithinMemory (.ok a) := fun _ _ h => nomatch h

theorem withinMemory_panic (p : Panic) : WithinMemory (.error (.panic p) : Result α) :=
  fun _ _ h => nomatch h

theorem withinMemory_fail {e : Error} (he : ∀ maxKb actualKb, e ≠ .maxMemLimited maxKb actualKb) :
    WithinMemory (fail e : Result α) := by
  intro maxKb actualKb h
  cases h
  exact he maxKb actualKb rfl

theorem withinMemory_rejectIf {bad : Prop} [Decidable bad] {e : Error}
    (he : ∀ maxKb actualKb, e ≠ .maxMemLimited maxKb actualKb) :
    WithinMemory (rejectIf bad e) := by
  unfold rejectIf
  split
  · exact withinMemory_fail he
  · exact withinMemory_ok ()

theorem withinMemory_okOr {e : Error} (he : ∀ maxKb actualKb, e ≠ .maxMemLimited maxKb actualKb)
    (o : Option α) : WithinMemory (okOr e o) := by
  cases o with
  | none => exact withinMemory_fail he
  | some a => exact withinMemory_ok a

theorem withinMemory_index (xs : List α) (i : Nat) : WithinMemory (index xs i) := by
  unfold index
  split
  · exact withinMemory_ok _
  · exact withinMemory_panic _

theorem withinMemory_orFail {ε : Type} {f : ε → Error}
    (he : ∀ e maxKb actualKb, f e ≠ .maxMemLimited maxKb actualKb) (failure : Option ε) (a : α) :
    WithinMemory (orFail f failure a) := by
  cases failure with
  | none => exact withinMemory_ok a
  | some e => exact withinMemory_fail (he e)

theorem WithinMemory.bind {x : Result α} {f : α → Result β} (hx : WithinMemory x)
    (hf : ∀ a, x = .ok a → WithinMemory (f a)) : WithinMemory (x >>= f) := by
  intro maxKb actualKb h
  rcases bind_eq_error.mp h with h | ⟨a, ha, h⟩
  · exact hx _ _ h
  · exact hf a ha _ _ h

theorem WithinMemory.bind_eq_fail {x : Result α} {f : α → Result β} (hx : WithinMemory x)
    {maxKb actualKb : Nat} (h : (x >>= f) = fail (.maxMemLimited maxKb actualKb)) :
    ∃ a, x = .ok a ∧ f a = fail (.maxMemLimited maxKb actualKb) := by
  rcases bind_eq_error.mp h with h | h
  · exact absurd h (hx _ _)
  · exact h

end Result

open Result (WithinMemory withinMemory_ok withinMemory_fail withinMemory_rejectIf
  withinMemory_okOr withinMemory_index withinMemory_orFail)

theorem checkMemoryKb_bind_eq_fail {β : Type} {maxMemLimitKb memSize maxKb actualKb : Nat}
    {f : Unit → Result β}
    (h : (checkMemoryKb maxMemLimitKb memSize >>= f) =
      Result.fail (.maxMemLimited maxKb actualKb)) (hf : WithinMemory (f ())) :
    maxKb = maxMemLimitKb ∧ actualKb = memSize ∧ maxMemLimitKb < memSize := by
  rcases Result.bind_eq_error.mp h with h | ⟨u, -, h⟩
  · rw [checkMemoryKb, Result.rejectIf] at h
    split at h
    · rename_i hlarge
      obtain ⟨hmax, hactual⟩ := Error.maxMemLimited.inj (Fault.error.inj (Except.error.inj h))
      exact ⟨hmax.symm, hactual.symm, hlarge⟩
    · cases h
  · exact absurd h (hf _ _)

theorem badPassword_ne_maxMemLimited (e : IoError) (encrypted : Bool) (maxKb actualKb : Nat) :
    Error.badPassword e encrypted ≠ .maxMemLimited maxKb actualKb := by
  cases encrypted <;> exact fun h => nomatch h

theorem ofIo_ne_maxMemLimited (e : IoError) (maxKb actualKb : Nat) :
    Error.ofIo e ≠ .maxMemLimited maxKb actualKb := fun h => nomatch h

theorem limitExceeded_ne_maxMemLimited (what : Limit) (limit requested maxKb actualKb : Nat) :
    Error.limitExceeded what limit requested ≠ .maxMemLimited maxKb actualKb := fun h => nomatch h

theorem passwordRequired_ne_maxMemLimited (maxKb actualKb : Nat) :
    Error.passwordRequired ≠ .maxMemLimited maxKb actualKb := fun h => nomatch h

theorem other_ne_maxMemLimited (message : String) (maxKb actualKb : Nat) :
    Error.other message ≠ .maxMemLimited maxKb actualKb := fun h => nomatch h

theorem ceilKb_mono {a b : Nat} (h : a ≤ b) : ceilKb a ≤ ceilKb b :=
  Nat.div_le_div_right (Nat.add_le_add_right h _)

theorem lzma2MemoryUsageKb_eq (dictSize : UInt32) :
    lzma2MemoryUsageKb dictSize = ceilKb (saturatingAdd dictSize.toNat mib) := rfl

theorem saturatingAdd_mono {a b : Nat} (h : a ≤ b) (c : Nat) :
    saturatingAdd a c ≤ saturatingAdd b c := by
  unfold saturatingAdd
  omega

theorem saturatingAdd_lt (a b : Nat) : saturatingAdd a b < 2 ^ 64 := by
  unfold saturatingAdd
  omega

def Refuses (opts : DecoderOptions) (estimate : Except UnsizedCoder Nat)
    (maxKb actualKb : Nat) : Prop :=
  maxKb = opts.limits.memoryLimitKb ∧ maxKb < actualKb ∧
    ∃ bytes, estimate = .ok bytes ∧ actualKb ≤ ceilKb bytes

section

variable {crates : DecoderCrates} {opts : DecoderOptions} {password : List UInt8}
  {uncompressedLen : UInt64} {coder : Coder} {maxKb actualKb : Nat}

theorem lzmaDictionarySize_toNat {properties : List UInt8} {dictSize : UInt32}
    (h : lzmaDictionarySize properties = .ok dictSize) (methodId : List UInt8) :
    lzmaDictionaryBytes methodId properties = .ok dictSize.toNat := by
  obtain ⟨_, hlength, h⟩ := Result.bind_eq_ok.mp h
  obtain rfl := Result.pure_eq_ok.mp h
  have hshort := Result.rejectIf_eq_ok.mp hlength
  have hbytes : leValue ((properties.drop 1).take 4) < 2 ^ 32 := by
    have hlt := leValue_lt ((properties.drop 1).take 4)
    rwa [List.length_take, List.length_drop, Nat.min_eq_left (by omega)] at hlt
  rw [lzmaDictionaryBytes, if_neg hshort, UInt32.toNat_ofNat', Nat.mod_eq_of_lt hbytes]

theorem addLzma_refuses
    (h : addLzma crates opts password uncompressedLen coder =
      Result.fail (.maxMemLimited maxKb actualKb)) (methodId : List UInt8) :
    Refuses opts ((lzmaDictionaryBytes methodId coder.properties).map (saturatingAdd · mib))
      maxKb actualKb := by
  obtain ⟨_, -, h⟩ := (withinMemory_rejectIf (other_ne_maxMemLimited _)).bind_eq_fail h
  have hsize : WithinMemory (lzmaDictionarySize coder.properties) :=
    (withinMemory_rejectIf (other_ne_maxMemLimited _)).bind fun _ _ => withinMemory_ok _
  obtain ⟨declared, hdeclared, h⟩ := hsize.bind_eq_fail h
  dsimp only at h
  obtain ⟨rfl, rfl, hlarge⟩ := checkMemoryKb_bind_eq_fail h
    (withinMemory_orFail (badPassword_ne_maxMemLimited · _) _ _)
  refine ⟨rfl, hlarge, saturatingAdd declared.toNat mib, ?_, ?_⟩
  · rw [lzmaDictionarySize_toNat hdeclared]
    rfl
  · rw [lzma2MemoryUsageKb_eq]
    exact ceilKb_mono (saturatingAdd_mono
      (UInt32.le_iff_toNat_le.mp (clampDictionary_le declared uncompressedLen)) mib)

theorem lzma2DictionarySize_withinMemory (properties : List UInt8) :
    WithinMemory (lzma2DictionarySize properties) := by
  refine (withinMemory_okOr (other_ne_maxMemLimited _) _).bind fun bits _ => ?_
  refine (withinMemory_rejectIf (other_ne_maxMemLimited _)).bind fun _ _ => ?_
  refine (withinMemory_rejectIf (other_ne_maxMemLimited _)).bind fun _ _ => ?_
  split
  · exact withinMemory_ok _
  · exact withinMemory_ok _

theorem lzma2DictionaryBytes_table {properties : List UInt8} {prop : UInt8} {dict : UInt32}
    (hprop : properties.head? = some prop) (hdict : lzma2DictionarySize [prop] = .ok dict)
    (methodId : List UInt8) :
    ∃ bytes, lzma2DictionaryBytes methodId properties = .ok bytes ∧ dict.toNat ≤ bytes := by
  have htable : ∀ n < 41, n &&& (2 ^ 64 - 1 - 0x3F) = 0 ∧
      lzma2Table n ≤ ((if n = 40 then 2 ^ 32 - 1 else (2 ||| (n &&& 1)) <<< (n / 2 + 11)) + 15) &&&
        (2 ^ 64 - 1 - 15) := by
    decide +kernel
  obtain ⟨hlt, hsize⟩ := lzma2DictionarySize_eq_ok hdict
  obtain ⟨hbits, hle⟩ := htable prop.toNat hlt
  rw [hsize, lzma2DictionaryBytes, hprop]
  dsimp only
  rw [if_neg (not_not.mpr hbits), if_neg (by omega)]
  exact ⟨_, rfl, hle⟩

theorem addLzma2_refuses
    (h : addLzma2 crates opts password uncompressedLen coder =
      Result.fail (.maxMemLimited maxKb actualKb)) (methodId : List UInt8) :
    Refuses opts ((lzma2DictionaryBytes methodId coder.properties).map (saturatingAdd · mib))
      maxKb actualKb := by
  obtain ⟨dictProp, hprop, h⟩ := (withinMemory_okOr (other_ne_maxMemLimited _) _).bind_eq_fail h
  dsimp only at h
  obtain ⟨dictSize, hclamped, h⟩ := (lzma2DictionarySize_withinMemory _).bind_eq_fail h
  obtain ⟨rfl, rfl, hlarge⟩ := checkMemoryKb_bind_eq_fail h
    (withinMemory_orFail (badPassword_ne_maxMemLimited · _) _ _)
  obtain ⟨dict, hdict, hle⟩ := lzma2ClampedProp_declared hclamped
  obtain ⟨bytes, hbytes, hrounded⟩ :=
    lzma2DictionaryBytes_table (Result.okOr_eq_ok.mp hprop) hdict methodId
  refine ⟨rfl, hlarge, saturatingAdd bytes mib, ?_, ?_⟩
  · rw [hbytes]
    rfl
  · rw [lzma2MemoryUsageKb_eq]
    exact ceilKb_mono (saturatingAdd_mono (Nat.le_trans hle hrounded) mib)

theorem addPpmd_refuses
    (h : addPpmd crates opts coder = Result.fail (.maxMemLimited maxKb actualKb))
    (methodId : List UInt8) :
    Refuses opts ((ppmdModelBytes methodId coder.properties).map (saturatingAdd · mib))
      maxKb actualKb := by
  rcases Result.bind_eq_error.mp h with h | ⟨parts, -, h⟩
  · obtain ⟨_, hlength, h⟩ := (withinMemory_rejectIf (other_ne_maxMemLimited _)).bind_eq_fail h
    dsimp only at h
    obtain ⟨_, -, h⟩ := (withinMemory_rejectIf (other_ne_maxMemLimited _)).bind_eq_fail h
    obtain ⟨_, -, h⟩ := (withinMemory_rejectIf (other_ne_maxMemLimited _)).bind_eq_fail h
    obtain ⟨_, -, h⟩ := (withinMemory_rejectIf (other_ne_maxMemLimited _)).bind_eq_fail h
    obtain ⟨_, -, h⟩ := (withinMemory_rejectIf (other_ne_maxMemLimited _)).bind_eq_fail h
    obtain ⟨rfl, rfl, hlarge⟩ := checkMemoryKb_bind_eq_fail h (withinMemory_ok _)
    have hshort := Result.rejectIf_eq_ok.mp hlength
    have hbytes : leValue ((coder.properties.drop 1).take 4) < 2 ^ 32 := by
      have hlt := leValue_lt ((coder.properties.drop 1).take 4)
      rwa [List.length_take, List.length_drop, Nat.min_eq_left (by omega)] at hlt
    refine ⟨rfl, hlarge,
      saturatingAdd (leValue ((coder.properties.drop 1).take 4)) mib, ?_, ?_⟩
    · rw [ppmdModelBytes, if_neg hshort]
      rfl
    · apply ceilKb_mono
      unfold saturatingAdd
      omega
  · exact absurd h (withinMemory_orFail (f := Error.other) other_ne_maxMemLimited _ _ _ _)

theorem addZstd_withinMemory : WithinMemory (addZstd crates opts) :=
  (withinMemory_orFail ofIo_ne_maxMemLimited _ _).bind fun _ _ =>
    withinMemory_orFail ofIo_ne_maxMemLimited _ _

theorem aesKeyParts_withinMemory (properties : List UInt8) :
    WithinMemory (aesKeyParts properties) := by
  refine (withinMemory_okOr (other_ne_maxMemLimited _) _).bind fun first _ => ?_
  exact (withinMemory_rejectIf (other_ne_maxMemLimited _)).bind fun _ _ => withinMemory_ok _

theorem getAesKey_withinMemory (sha : Sha256) (properties : List UInt8) (maxCyclesPower : UInt8)
    (maxKdfRounds : UInt64) (cache : KeyCache) :
    WithinMemory (getAesKey sha password properties maxCyclesPower maxKdfRounds cache).1 := by
  have hparts := aesKeyParts_withinMemory properties
  unfold getAesKey
  cases hkey : aesKeyParts properties with
  | error fault =>
      rw [hkey] at hparts
      exact fun maxKb actualKb h => hparts maxKb actualKb (by cases h; rfl)
  | ok parts =>
      obtain ⟨power, salt, iv⟩ := parts
      dsimp only
      split_ifs with hempty hraw hcap
      · exact withinMemory_fail passwordRequired_ne_maxMemLimited
      · exact withinMemory_ok _
      · exact withinMemory_fail (limitExceeded_ne_maxMemLimited _ _ _)
      · unfold deriveKeyWithBudget
        cases cache.hit power salt with
        | some cached => exact withinMemory_ok _
        | none =>
            have hcharge : WithinMemory (cache.charge power maxKdfRounds) := by
              refine (withinMemory_okOr (other_ne_maxMemLimited _) _).bind fun rounds _ => ?_
              exact (withinMemory_rejectIf (limitExceeded_ne_maxMemLimited _ _ _)).bind
                fun _ _ => withinMemory_ok _
            dsimp only
            cases hrounds : cache.charge power maxKdfRounds with
            | ok rounds => exact withinMemory_ok _
            | error fault =>
                rw [hrounds] at hcharge
                exact fun maxKb actualKb h => hcharge maxKb actualKb (by cases h; rfl)

theorem addAes256Sha256_withinMemory : WithinMemory (addAes256Sha256 crates opts password coder) :=
  (withinMemory_rejectIf passwordRequired_ne_maxMemLimited).bind fun _ _ =>
    (getAesKey_withinMemory _ _ _ _ _).bind fun _ _ =>
      withinMemory_orFail other_ne_maxMemLimited _ _

theorem addDecoder_refuses
    (h : addDecoder crates opts password uncompressedLen coder =
      Result.fail (.maxMemLimited maxKb actualKb)) :
    Refuses opts (coderMemoryEstimate coder) maxKb actualKb := by
  unfold addDecoder at h
  cases hmethod : EncoderMethod.byId coder.encoderMethodId with
  | none =>
      rw [hmethod] at h
      cases h
  | some method =>
      rw [hmethod] at h
      have hid := EncoderMethod.id_of_byId hmethod
      dsimp only at h
      cases method with
      | lzma =>
          rw [coderMemoryEstimate, ← hid, if_neg (by decide), if_pos rfl]
          exact addLzma_refuses h _
      | lzma2 =>
          rw [coderMemoryEstimate, ← hid, if_neg (by decide), if_neg (by decide), if_pos rfl]
          exact addLzma2_refuses h _
      | ppmd =>
          rw [coderMemoryEstimate, ← hid, if_neg (by decide), if_neg (by decide),
            if_neg (by decide), if_pos rfl]
          exact addPpmd_refuses h _
      | brotli => exact absurd h (withinMemory_orFail ofIo_ne_maxMemLimited _ _ _ _)
      | lz4 => exact absurd h (withinMemory_orFail ofIo_ne_maxMemLimited _ _ _ _)
      | zstd => exact absurd h (addZstd_withinMemory _ _)
      | aes256Sha256 => exact absurd h (addAes256Sha256_withinMemory _ _)
      | _ => cases h

end

def FitsU64 (estimate : Except UnsizedCoder Nat) : Prop :=
  ∀ bytes, estimate = .ok bytes → bytes < 2 ^ 64

theorem fitsU64_ok {bytes : Nat} (h : bytes < 2 ^ 64) : FitsU64 (.ok bytes) := by
  intro bytes' hbytes
  rwa [← Except.ok.inj hbytes]

theorem fitsU64_saturatingAdd (x : Except UnsizedCoder Nat) :
    FitsU64 (x.map (saturatingAdd · mib)) := by
  cases x with
  | error e => exact fun _ h => nomatch h
  | ok bytes => exact fitsU64_ok (saturatingAdd_lt bytes mib)

theorem FitsU64.ite {c : Prop} [Decidable c] {x y : Except UnsizedCoder Nat} (hx : FitsU64 x)
    (hy : FitsU64 y) : FitsU64 (if c then x else y) := by
  split
  · exact hx
  · exact hy

theorem coderMemoryEstimate_fitsU64 (coder : Coder) : FitsU64 (coderMemoryEstimate coder) := by
  unfold coderMemoryEstimate
  apply FitsU64.ite (fitsU64_ok (by decide))
  apply FitsU64.ite (fitsU64_saturatingAdd _)
  apply FitsU64.ite (fitsU64_saturatingAdd _)
  apply FitsU64.ite (fitsU64_saturatingAdd _)
  apply FitsU64.ite (fitsU64_ok (by decide))
  apply FitsU64.ite (fitsU64_ok (by decide))
  apply FitsU64.ite (fitsU64_ok (by decide))
  apply FitsU64.ite (fitsU64_ok (by decide))
  apply FitsU64.ite (fitsU64_ok (by decide))
  apply FitsU64.ite (fitsU64_ok (by decide))
  apply FitsU64.ite (fitsU64_ok (by decide))
  exact fun _ h => nomatch h

theorem chainMemoryEstimate_covers {coders : List Coder} {chain total : Nat}
    (h : chainMemoryEstimate coders chain = .ok total) (hchain : chain < 2 ^ 64) :
    chain ≤ total ∧ ∀ coder ∈ coders, ∀ bytes, coderMemoryEstimate coder = .ok bytes →
      bytes ≤ total := by
  induction coders generalizing chain with
  | nil =>
      cases h
      exact ⟨Nat.le_refl _, fun _ hmem => nomatch hmem⟩
  | cons coder coders ih =>
      rw [chainMemoryEstimate] at h
      cases hcoder : coderMemoryEstimate coder with
      | error e =>
          rw [hcoder] at h
          cases h
      | ok bytes =>
          rw [hcoder] at h
          obtain ⟨htotal, hrest⟩ := ih h (saturatingAdd_lt chain bytes)
          have hbytes := coderMemoryEstimate_fitsU64 coder bytes hcoder
          unfold saturatingAdd at htotal
          refine ⟨by omega, ?_⟩
          rintro other hmem bytes' hother
          rcases List.mem_cons.mp hmem with rfl | hmem
          · rw [hcoder] at hother
            cases hother
            omega
          · exact hrest other hmem bytes' hother

theorem largestBlock_covers {blocks : List Block} {largest total : Nat}
    (h : largestBlock blocks largest = .ok total) :
    largest ≤ total ∧ ∀ block ∈ blocks, ∀ coder ∈ block.coders, ∀ bytes,
      coderMemoryEstimate coder = .ok bytes → bytes ≤ total := by
  induction blocks generalizing largest with
  | nil =>
      cases h
      exact ⟨Nat.le_refl _, fun _ hmem => nomatch hmem⟩
  | cons block blocks ih =>
      rw [largestBlock] at h
      cases hchain : chainMemoryEstimate block.coders 0 with
      | error e =>
          rw [hchain] at h
          cases h
      | ok chain =>
          rw [hchain] at h
          obtain ⟨htotal, hrest⟩ := ih h
          refine ⟨by omega, ?_⟩
          rintro other hmem coder hcoder bytes hbytes
          rcases List.mem_cons.mp hmem with rfl | hmem
          · have hle := (chainMemoryEstimate_covers hchain (by decide)).2 coder hcoder bytes hbytes
            omega
          · exact hrest other hmem coder hcoder bytes hbytes

theorem checkMemory_covers {limits : ArchiveLimits} {archive : Archive} {u : Unit}
    (h : checkMemory limits archive = .ok u) {block : Block} (hblock : block ∈ archive.blocks)
    {coder : Coder} (hcoder : coder ∈ block.coders) {bytes : Nat}
    (hbytes : coderMemoryEstimate coder = .ok bytes) : bytes ≤ limits.memoryLimitBytes.toNat := by
  unfold checkMemory at h
  split at h
  · cases htotal : archive.decoderMemoryEstimate with
    | error e =>
        rw [htotal] at h
        cases h
    | ok total =>
        rw [htotal] at h
        have hlimit := Result.rejectIf_eq_ok.mp h
        have hle := (largestBlock_covers htotal).2 block hblock coder hcoder bytes hbytes
        omega
  · rename_i hlimit
    have hlt := coderMemoryEstimate_fitsU64 coder bytes hbytes
    rw [UInt64.lt_iff_toNat_lt, show (0xFFFFFFFFFFFFFFFF : UInt64).toNat = 2 ^ 64 - 1 from rfl]
      at hlimit
    omega

theorem ArchiveReader.withLimits_eq_ok {codecs : Codecs} {file : List UInt8} {passwordGiven : Bool}
    {limits : ArchiveLimits} {reader : ArchiveReader}
    (h : withLimits codecs file passwordGiven limits = .ok reader) :
    readWithLimits codecs limits passwordGiven file = .ok reader.archive ∧
      checkMemory limits reader.archive = .ok () ∧ reader.limits = limits ∧
      reader.codecs = codecs := by
  obtain ⟨archive, harchive, h⟩ := Result.bind_eq_ok.mp h
  obtain ⟨u, hcheck, h⟩ := Result.bind_eq_ok.mp h
  obtain rfl := Result.pure_eq_ok.mp h
  exact ⟨harchive, hcheck, rfl, rfl⟩

theorem addDecoder_withinMemory {limits : ArchiveLimits} {archive : Archive} {u : Unit}
    (h : checkMemory limits archive = .ok u) {block : Block} (hblock : block ∈ archive.blocks)
    {coder : Coder} (hcoder : coder ∈ block.coders) (crates : DecoderCrates)
    {opts : DecoderOptions} (hopts : opts.limits = limits) (password : List UInt8)
    (uncompressedLen : UInt64) :
    WithinMemory (addDecoder crates opts password uncompressedLen coder) := by
  intro maxKb actualKb hrefused
  obtain ⟨rfl, hlarge, bytes, hbytes, hle⟩ := addDecoder_refuses hrefused
  have hcovered := ceilKb_mono (checkMemory_covers h hblock hcoder hbytes)
  rw [ArchiveLimits.memoryLimitKb, hopts] at hlarge
  omega

def Codecs.withDecoders (codecs : Codecs) (crates : Decoder → Stage → DecoderCrates)
    (opts : DecoderOptions) (password : List UInt8) : Codecs :=
  { codecs with
    refuses := fun input stage =>
      match Sevenz.addDecoder (crates input stage) opts password stage.uncompressedLen
          stage.coder with
      | .error (.error e) => some e
      | _ => none }

def Codecs.Affords (codecs : Codecs) (coders : List Coder) : Prop :=
  ∀ input stage, stage.coder ∈ coders → WithinMemory (codecs.addDecoder input stage)

theorem affords_withDecoders {limits : ArchiveLimits} {archive : Archive} {u : Unit}
    (h : checkMemory limits archive = .ok u) {block : Block} (hblock : block ∈ archive.blocks)
    (codecs : Codecs) (crates : Decoder → Stage → DecoderCrates) {opts : DecoderOptions}
    (hopts : opts.limits = limits) (password : List UInt8) :
    (codecs.withDecoders crates opts password).Affords block.coders := by
  intro input stage hstage
  have hadd := addDecoder_withinMemory h hblock hstage (crates input stage) hopts password
    stage.uncompressedLen
  unfold Codecs.addDecoder Codecs.withDecoders
  dsimp only
  cases hbuilt : addDecoder (crates input stage) opts password stage.uncompressedLen
      stage.coder with
  | ok decoder => exact withinMemory_ok _
  | error fault =>
      cases fault with
      | error e =>
          rw [hbuilt] at hadd
          apply withinMemory_fail
          rintro maxKb actualKb rfl
          exact hadd maxKb actualKb rfl
      | panic p => exact withinMemory_ok _
      | outOfFuel => exact withinMemory_ok _

theorem mem_orderedCoders {block : Block} {entry : Nat × Coder} {remaining : Nat} {i : Option Nat}
    (h : entry ∈ orderedCoders block remaining i) : entry.2 ∈ block.coders := by
  induction remaining generalizing i with
  | zero => cases h
  | succ remaining ih =>
      cases i with
      | none => cases h
      | some i =>
          rw [orderedCoders] at h
          cases hcoder : block.coders[i]? with
          | none =>
              rw [hcoder] at h
              cases h
          | some coder =>
              rw [hcoder] at h
              rcases List.mem_cons.mp h with rfl | h
              · exact List.mem_of_getElem? hcoder
              · exact ih h

section

variable {codecs : Codecs} {block : Block}

theorem addChain_withinMemory {unsupported : Error}
    (hunsupported : ∀ maxKb actualKb, unsupported ≠ .maxMemLimited maxKb actualKb)
    (haffords : codecs.Affords block.coders) {chain : List (Nat × Coder)}
    (hchain : ∀ entry ∈ chain, entry.2 ∈ block.coders) (decoder : Decoder) :
    WithinMemory (addChain codecs block unsupported chain decoder) := by
  induction chain generalizing decoder with
  | nil => exact withinMemory_ok decoder
  | cons entry chain ih =>
      obtain ⟨hentry, hchain⟩ := List.forall_mem_cons.mp hchain
      refine (withinMemory_rejectIf hunsupported).bind fun _ _ => ?_
      exact (haffords _ _ hentry).bind fun decoder _ => ih hchain decoder

theorem packSources_withinMemory (archive : Archive) (first startPos n i : Nat) :
    WithinMemory (packSources archive first startPos n i) := by
  induction n generalizing i with
  | zero => exact withinMemory_ok _
  | succ n ih =>
      refine (withinMemory_okOr (other_ne_maxMemLimited _) _).bind fun packPos _ => ?_
      refine (withinMemory_index _ _).bind fun packSize _ => ?_
      refine (withinMemory_okOr (other_ne_maxMemLimited _) _).bind fun _ _ => ?_
      exact (ih (i + 1)).bind fun sources _ => withinMemory_ok _

theorem checkOutIndices_withinMemory (bindPairs : List BindPair) :
    WithinMemory (checkOutIndices block bindPairs) := by
  induction bindPairs with
  | nil => exact withinMemory_ok _
  | cons bp bindPairs ih =>
      exact (withinMemory_rejectIf (other_ne_maxMemLimited _)).bind fun _ _ => ih

theorem getInStream_withinMemory {sources : List Decoder} {resolve : Nat → Result Decoder}
    (hresolve : ∀ index, WithinMemory (resolve index)) (inStreamIndex : Nat) :
    WithinMemory (getInStream block sources resolve inStreamIndex) := by
  unfold getInStream
  split
  · exact withinMemory_index _ _
  · exact (withinMemory_okOr (other_ne_maxMemLimited _) _).bind fun bp _ => hresolve bp.outIndex

theorem unsupported_ne_maxMemLimited (message : String) (maxKb actualKb : Nat) :
    Error.unsupported message ≠ .maxMemLimited maxKb actualKb := fun h => nomatch h

theorem getInStream2_withinMemory (haffords : codecs.Affords block.coders)
    (sources : List Decoder) (depthLeft index : Nat) :
    WithinMemory (getInStream2 codecs block sources depthLeft index) := by
  induction depthLeft generalizing index with
  | zero => exact withinMemory_fail (other_ne_maxMemLimited _)
  | succ depthLeft ih =>
      have hinput (inStreamIndex : Nat) : WithinMemory (getInStream block sources
          (getInStream2 codecs block sources depthLeft) inStreamIndex) :=
        getInStream_withinMemory ih inStreamIndex
      rw [getInStream2]
      refine (withinMemory_okOr (other_ne_maxMemLimited _) _).bind fun coder hcoder => ?_
      refine (withinMemory_okOr (other_ne_maxMemLimited _) _).bind fun uncompressedLen _ => ?_
      dsimp only
      have hmem : coder ∈ block.coders :=
        List.mem_of_getElem? (Result.okOr_eq_ok.mp hcoder)
      split
      · exact (hinput _).bind fun input _ => haffords _ _ hmem
      · split
        · refine (withinMemory_rejectIf (other_ne_maxMemLimited _)).bind fun _ _ => ?_
          refine (hinput _).bind fun main _ => ?_
          refine (hinput _).bind fun call _ => ?_
          refine (hinput _).bind fun jump _ => ?_
          exact (hinput _).bind fun range _ => withinMemory_ok _
        · exact withinMemory_fail (unsupported_ne_maxMemLimited _)

theorem lastUnboundSize_withinMemory (n : Nat) : WithinMemory (block.lastUnboundSize n) := by
  induction n with
  | zero => exact withinMemory_ok _
  | succ n ih =>
      rw [Block.lastUnboundSize]
      split
      · exact withinMemory_index _ _
      · exact ih

theorem withCheck_withinMemory (crc : Option UInt64) : WithinMemory (withCheck block crc) := by
  cases crc with
  | none => exact withinMemory_ok _
  | some crc =>
      have hsize : WithinMemory block.getUnpackSize := by
        unfold Block.getUnpackSize
        split
        · exact withinMemory_ok _
        · exact lastUnboundSize_withinMemory _
      exact hsize.bind fun size _ => withinMemory_ok _

theorem blockCrc_withinMemory (archive : Archive) (blockIndex : Nat) :
    WithinMemory (blockCrc archive block blockIndex) := by
  unfold blockCrc
  split
  · exact withinMemory_ok _
  · split
    · exact withinMemory_ok _
    · split
      · refine (withinMemory_index _ _).bind fun index _ => ?_
        split
        · exact (withinMemory_index _ _).bind fun crc _ => withinMemory_ok _
        · exact withinMemory_ok _
      · exact withinMemory_ok _

theorem blockOffset_withinMemory (archive : Archive) (first : Nat) :
    WithinMemory (blockOffset archive first) := by
  unfold blockOffset
  split
  · exact withinMemory_fail (other_ne_maxMemLimited _)
  · exact (withinMemory_index _ _).bind fun offset _ =>
      withinMemory_okOr (other_ne_maxMemLimited _) _

theorem checkAesCoders_withinMemory (limits : ArchiveLimits) (coders : List Coder) :
    WithinMemory (checkAesCoders limits coders) := by
  induction coders with
  | nil => exact withinMemory_ok _
  | cons coder coders ih =>
      have hcoder : WithinMemory (checkAesCoder limits coder) := by
        unfold checkAesCoder
        split
        · exact withinMemory_ok _
        · refine (withinMemory_okOr (other_ne_maxMemLimited _) _).bind fun first _ => ?_
          exact withinMemory_rejectIf (limitExceeded_ne_maxMemLimited _ _ _)
      exact hcoder.bind fun _ _ => ih

theorem seek_withinMemory (offset : Nat) : WithinMemory (codecs.seek offset) := by
  unfold Codecs.seek
  split
  · exact withinMemory_fail (ofIo_ne_maxMemLimited _)
  · exact withinMemory_ok _

theorem buildDecodeStack2_withinMemory {archive : Archive}
    (haffords : ∀ block ∈ archive.blocks, codecs.Affords block.coders) (blockIndex : Nat) :
    WithinMemory (buildDecodeStack2 codecs archive blockIndex) := by
  refine (withinMemory_index _ _).bind fun block hblock => ?_
  have hmem : block ∈ archive.blocks := List.mem_of_getElem? (Result.index_eq_ok.mp hblock)
  refine (withinMemory_rejectIf (unsupported_ne_maxMemLimited _)).bind fun _ _ => ?_
  refine (withinMemory_index _ _).bind fun first _ => ?_
  refine (withinMemory_okOr (other_ne_maxMemLimited _) _).bind fun startPos _ => ?_
  have hslice : WithinMemory (Result.sliceCheck (first + block.packedStreams.length)
      archive.streamMap.packStreamOffsets) := by
    unfold Result.sliceCheck
    split
    · exact withinMemory_ok _
    · exact Result.withinMemory_panic _
  refine hslice.bind fun _ _ => ?_
  refine (packSources_withinMemory _ _ _ _ _).bind fun sources _ => ?_
  refine (checkOutIndices_withinMemory _).bind fun _ _ => ?_
  refine (getInStream2_withinMemory (haffords block hmem) _ _ _).bind fun decoder _ => ?_
  refine (withCheck_withinMemory _).bind fun check _ => ?_
  exact (withinMemory_index _ _).bind fun packSize _ => withinMemory_ok _

theorem buildDecodeStack_withinMemory {archive : Archive} (limits : ArchiveLimits)
    (haffords : ∀ block ∈ archive.blocks, codecs.Affords block.coders) (blockIndex : Nat) :
    WithinMemory (buildDecodeStack codecs limits archive blockIndex) := by
  refine (withinMemory_index _ _).bind fun block hblock => ?_
  have hmem : block ∈ archive.blocks := List.mem_of_getElem? (Result.index_eq_ok.mp hblock)
  refine (checkAesCoders_withinMemory _ _).bind fun _ _ => ?_
  split
  · exact buildDecodeStack2_withinMemory haffords blockIndex
  · refine (withinMemory_index _ _).bind fun first _ => ?_
    refine (blockOffset_withinMemory _ _).bind fun offset _ => ?_
    refine (blockCrc_withinMemory _ _).bind fun crc _ => ?_
    refine (seek_withinMemory _).bind fun _ _ => ?_
    refine (withinMemory_index _ _).bind fun packSize _ => ?_
    refine (addChain_withinMemory (unsupported_ne_maxMemLimited _) (haffords block hmem)
      (fun entry hentry => mem_orderedCoders hentry) _).bind fun decoder _ => ?_
    exact (withCheck_withinMemory _).bind fun check _ => withinMemory_ok _

end

/-- What the decoders ask for is never more than the estimate an archive is opened against: a
refusal under any limits is for no more than the coder's estimate, and under the limits the
reader was opened with no coder of a block, and so no block, is refused. -/
theorem opened_addDecoder_withinMemory {codecs : Codecs} {file : List UInt8}
    {passwordGiven : Bool} {limits : ArchiveLimits} {reader : ArchiveReader}
    (h : ArchiveReader.withLimits codecs file passwordGiven limits = .ok reader) :
    (∀ crates opts password uncompressedLen coder maxKb actualKb,
        addDecoder crates opts password uncompressedLen coder =
            Result.fail (.maxMemLimited maxKb actualKb) →
          ∃ bytes, coderMemoryEstimate coder = .ok bytes ∧ actualKb ≤ ceilKb bytes) ∧
      ∀ opts : DecoderOptions, opts.limits = reader.limits → ∀ password : List UInt8,
        (∀ block ∈ reader.archive.blocks, ∀ coder ∈ block.coders, ∀ crates uncompressedLen,
          WithinMemory (addDecoder crates opts password uncompressedLen coder)) ∧
        ∀ crates blockIndex,
          WithinMemory (buildDecodeStack (reader.codecs.withDecoders crates opts password)
            reader.limits reader.archive blockIndex) := by
  obtain ⟨-, hcheck, hlimits, -⟩ := ArchiveReader.withLimits_eq_ok h
  constructor
  · intro crates opts password uncompressedLen coder maxKb actualKb hrefused
    exact (addDecoder_refuses hrefused).2.2
  · intro opts hopts password
    rw [hlimits] at hopts
    constructor
    · intro block hblock coder hcoder crates uncompressedLen
      exact addDecoder_withinMemory hcheck hblock hcoder crates hopts password uncompressedLen
    · intro crates blockIndex
      apply buildDecodeStack_withinMemory
      intro block hblock
      exact affords_withDecoders hcheck hblock reader.codecs crates hopts password

/-- An archive of one entry behind an LZMA2 coder, whose property names 16 MiB. -/
def lzma2File : List UInt8 :=
  archiveFile crc32 [1, 0, 4, 0x68, 0]
    [kHeader, kMainStreamsInfo, kPackInfo, 0, 1, kSize, 5, kEnd,
      kUnpackInfo, kFolder, 1, 0, 1, 0x21, 0x21, 1, 24, kCodersUnpackSize, 1, kEnd,
      kSubStreamsInfo, kEnd, kEnd,
      kFilesInfo, 1, kName, 5, 0, 0x61, 0, 0, 0, kEnd, kEnd]

theorem lzma2File_withinMemory : ∃ reader,
    ArchiveReader.withLimits (.copying lzma2File) lzma2File false
        { memoryLimitBytes := 17 * 0x100000 } = .ok reader ∧
      reader.archive.blocks.length = 1 ∧
      ∀ opts : DecoderOptions, opts.limits = reader.limits → ∀ password : List UInt8,
        ∀ block ∈ reader.archive.blocks, ∀ coder ∈ block.coders, ∀ crates uncompressedLen,
          WithinMemory (addDecoder crates opts password uncompressedLen coder) := by
  obtain ⟨reader, hopen, hblocks⟩ := Result.exists_of_holds
    (show (ArchiveReader.withLimits (.copying lzma2File) lzma2File false
      { memoryLimitBytes := 17 * 0x100000 }).holds
        (fun reader => reader.archive.blocks.length == 1) = true by decide +kernel)
  refine ⟨reader, hopen, beq_iff_eq.mp hblocks, ?_⟩
  intro opts hopts password
  exact ((opened_addDecoder_withinMemory hopen).2 opts hopts password).1

end Sevenz
