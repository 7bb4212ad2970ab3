import Sevenz.Archive

/-!
# Encoder methods

`EncoderMethod` with its ids, the options of a method, and `get_options_as_properties`, which
turns the options into the property bytes of the coder record.
-/

namespace Sevenz

/-- The methods of `archive.rs`, with the derived default, whose id is empty. -/
inductive EncoderMethod where
  | default | copy | lzma | lzma2 | ppmd | bzip2 | zstd | brotli | lz4 | lzs | lizard | deflate
  | deflate64 | aes256Sha256 | bcjX86Filter | bcjPpcFilter | bcjIa64Filter | bcjArmFilter
  | bcjArm64Filter | bcjArmThumbFilter | bcjSparcFilter | bcjRiscvFilter | deltaFilter
  | bcj2Filter
  deriving DecidableEq, Repr

def EncoderMethod.id : EncoderMethod → List UInt8
  | .default => []
  | .copy => [0x00]
  | .deltaFilter => [0x03]
  | .lzma => [0x03, 0x01, 0x01]
  | .bcjX86Filter => [0x03, 0x03, 0x01, 0x03]
  | .bcj2Filter => [0x03, 0x03, 0x01, 0x1B]
  | .bcjPpcFilter => [0x03, 0x03, 0x02, 0x05]
  | .bcjIa64Filter => [0x03, 0x03, 0x04, 0x01]
  | .bcjArmFilter => [0x03, 0x03, 0x05, 0x01]
  | .bcjArm64Filter => [0x0A]
  | .bcjArmThumbFilter => [0x03, 0x03, 0x07, 0x01]
  | .bcjSparcFilter => [0x03, 0x03, 0x08, 0x05]
  | .bcjRiscvFilter => [0x0B]
  | .ppmd => [0x03, 0x04, 0x01]
  | .lzma2 => [0x21]
  | .bzip2 => [0x04, 0x02, 0x02]
  | .zstd => [0x04, 0xF7, 0x11, 0x01]
  | .brotli => [0x04, 0xF7, 0x11, 0x02]
  | .lz4 => [0x04, 0xF7, 0x11, 0x04]
  | .lzs => [0x04, 0xF7, 0x11, 0x05]
  | .lizard => [0x04, 0xF7, 0x11, 0x06]
  | .deflate => [0x04, 0x01, 0x08]
  | .deflate64 => [0x04, 0x01, 0x09]
  | .aes256Sha256 => [0x06, 0xF1, 0x07, 0x01]

def EncoderMethod.name : EncoderMethod → String
  | .default => ""
  | .copy => "COPY"
  | .lzma => "LZMA"
  | .lzma2 => "LZMA2"
  | .ppmd => "PPMD"
  | .bzip2 => "BZIP2"
  | .zstd => "ZSTD"
  | .brotli => "BROTLI"
  | .lz4 => "LZ4"
  | .lzs => "LZS"
  | .lizard => "LIZARD"
  | .deflate => "DEFLATE"
  | .deflate64 => "DEFLATE64"
  | .aes256Sha256 => "AES256_SHA256"
  | .bcjX86Filter => "BCJ_X86"
  | .bcjPpcFilter => "BCJ_PPC"
  | .bcjIa64Filter => "BCJ_IA64"
  | .bcjArmFilter => "BCJ_ARM"
  | .bcjArm64Filter => "BCJ_ARM64"
  | .bcjArmThumbFilter => "BCJ_ARM_THUMB"
  | .bcjSparcFilter => "BCJ_SPARC"
  | .bcjRiscvFilter => "BCJ_RISCV"
  | .deltaFilter => "DELTA"
  | .bcj2Filter => "BCJ2"

theorem EncoderMethod.id_length (method : EncoderMethod) : method.id.length ≤ 4 := by
  cases method <;> decide

/-- `LzmaSettings`; `from_level` keeps the level below ten. -/
structure LzmaSettings where
  level : Fin 10
  dictSize : Option UInt32
  deriving DecidableEq

namespace LzmaSettings

def fromLevel (level : Nat) : LzmaSettings :=
  { level := ⟨min level 9, by omega⟩, dictSize := none }

def levelDictSize : Fin 10 → UInt32
  | 0 => 0x40000
  | 1 => 0x100000
  | 2 => 0x200000
  | 3 | 4 => 0x400000
  | 5 | 6 => 0x800000
  | 7 => 0x1000000
  | 8 => 0x2000000
  | 9 => 0x4000000

def dictionary (settings : LzmaSettings) : UInt32 :=
  settings.dictSize.getD (levelDictSize settings.level)

/-- Three literal context bits, no literal position bits and two position bits. -/
def propsByte : UInt8 := (2 * 5 + 0) * 9 + 3

end LzmaSettings

structure AesEncoderOptions where
  password : List UInt8
  iv : Vector UInt8 16
  salt : Vector UInt8 16
  numCyclesPower : UInt8
  deriving DecidableEq

def AesEncoderOptions.properties (options : AesEncoderOptions) : List UInt8 :=
  [(options.numCyclesPower &&& 0x3F) ||| 0xC0, 0xFF] ++ options.salt.toList ++ options.iv.toList

@[simp] theorem AesEncoderOptions.properties_length (options : AesEncoderOptions) :
    options.properties.length = 34 := by
  simp [properties]

inductive EncoderOptions where
  | lzma (settings : LzmaSettings)
  | lzma2 (settings : LzmaSettings)
  | bzip2 (level : UInt32)
  | brotli (quality window skippableFrameSize : UInt32)
  | delta (distance : UInt32)
  | deflate (level : UInt32)
  | lz4 (skippableFrameSize : UInt32)
  | ppmd (order memorySize : UInt32)
  | zstd (level : UInt32)
  | aes (options : AesEncoderOptions)
  deriving DecidableEq

structure EncoderConfiguration where
  method : EncoderMethod
  options : Option EncoderOptions := none
  deriving DecidableEq

/-- The version numbers of the linked codecs, which go into their properties. -/
structure CodecVersions where
  brotli : UInt8
  zstdMajor : UInt8
  zstdMinor : UInt8

def leU32 (value : UInt32) : List UInt8 :=
  [value.toUInt8, (value >>> 8).toUInt8, (value >>> 16).toUInt8, (value >>> 24).toUInt8]

def lzma2DictionarySize (properties : List UInt8) : Result UInt32 := do
  let bits ← Result.okOr (.other "LZMA2 properties too short") properties.head?
  Result.rejectIf (bits &&& 0xC0 ≠ 0) (.other "Unsupported LZMA2 property bits")
  Result.rejectIf (bits > 40) (.other "Dictionary larger than 4GiB maximum size")
  if bits = 40 then pure 0xFFFFFFFF
  else pure ((2 ||| (bits.toUInt32 &&& 1)) <<< (bits.toUInt32 / 2 + 11))

def lzma2PropertyFor (dictSize : UInt32) : UInt8 :=
  let names := fun n =>
    match lzma2DictionarySize [UInt8.ofNat n] with
    | .ok named => decide (dictSize ≤ named)
    | .error _ => false
  UInt8.ofNat (((List.range 41).find? names).getD 40)

/-- `get_options_as_properties`.  Options of another method count as none. -/
def getOptionsAsProperties (versions : CodecVersions) (method : EncoderMethod)
    (options : Option EncoderOptions) : List UInt8 :=
  match method with
  | .deltaFilter =>
      let distance := match options with
        | some (.delta distance) => distance
        | _ => 1
      [UInt8.ofNat (distance.toNat - 1)]
  | .lzma2 =>
      let settings := match options with
        | some (.lzma2 settings) => settings
        | _ => .fromLevel 6
      [lzma2PropertyFor settings.dictionary]
  | .lzma =>
      let settings := match options with
        | some (.lzma settings) => settings
        | _ => .fromLevel 6
      LzmaSettings.propsByte :: leU32 settings.dictionary
  | .ppmd =>
      let (order, memorySize) := match options with
        | some (.ppmd order memorySize) => (order, memorySize)
        | _ => (8, 0x2000000)
      order.toUInt8 :: leU32 memorySize
  | .brotli =>
      let quality := match options with
        | some (.brotli quality _ _) => quality
        | _ => 11
      [versions.brotli, 0, quality.toUInt8]
  | .lz4 => [1, 0, 3]
  | .zstd =>
      let level := match options with
        | some (.zstd level) => level
        | _ => 3
      [versions.zstdMajor, versions.zstdMinor, level.toUInt8]
  | .aes256Sha256 =>
      match options with
      | some (.aes options) => options.properties
      | _ => []
  | _ => []

theorem getOptionsAsProperties_length (versions : CodecVersions) (method : EncoderMethod)
    (options : Option EncoderOptions) :
    (getOptionsAsProperties versions method options).length < 128 := by
  cases method with
  | aes256Sha256 =>
      simp only [getOptionsAsProperties]
      split
      · simp
      · simp
  | _ => simp [getOptionsAsProperties, leU32]

end Sevenz
