import Sevenz.Header.StreamsInfo
import Sevenz.Writer.Methods

/-!
# The unpack info of a writer

`writer/unpack_info.rs`: what is recorded of each block, and the two sections written from it.
-/

namespace Sevenz

open Lib Lib.Parser

structure BlockInfo where
  methods : List EncoderConfiguration
  sizes : List UInt64
  crc : UInt32
  numSubUnpackStreams : UInt64
  subStreamSizes : List UInt64 := []
  subStreamCrcs : List UInt32 := []
  deriving DecidableEq

structure UnpackInfo where
  blocks : List BlockInfo := []
  deriving DecidableEq

def EncoderConfiguration.properties (versions : CodecVersions) (mc : EncoderConfiguration) :
    List UInt8 :=
  getOptionsAsProperties versions mc.method mc.options

namespace BlockInfo

variable (versions : CodecVersions)

def writeSingleCodec (mc : EncoderConfiguration) : List UInt8 :=
  let id := mc.method.id
  let props := mc.properties versions
  let codecFlags := UInt8.ofNat id.length
  if props.isEmpty then codecFlags :: id
  else ((codecFlags ||| 0x20) :: id) ++ (UInt8.ofNat props.length :: props)

def writeBindPair (i : Nat) : List UInt8 := writeNumber (i + 1) ++ writeNumber i

def writeTo (info : BlockInfo) : List UInt8 :=
  writeNumber info.methods.length ++ (info.methods.flatMap (writeSingleCodec versions) ++
    (List.range (info.methods.length - 1)).flatMap writeBindPair)

def crcsToWrite (info : BlockInfo) : List UInt32 :=
  if info.numSubUnpackStreams > 1 then info.subStreamCrcs
  else if info.numSubUnpackStreams = 1 then [info.subStreamCrcs.headD info.crc]
  else []

def sizesToWrite (info : BlockInfo) : List UInt64 :=
  if info.subStreamSizes.length > 1 then info.subStreamSizes.dropLast else []

end BlockInfo

namespace UnpackInfo

def add (info : UnpackInfo) (methods : List EncoderConfiguration) (sizes : List UInt64)
    (crc : UInt32) : UnpackInfo :=
  { info with blocks := info.blocks ++ [{ methods, sizes, crc, numSubUnpackStreams := 1 }] }

def addMultiple (info : UnpackInfo) (methods : List EncoderConfiguration) (sizes : List UInt64)
    (crc : UInt32) (numSubUnpackStreams : UInt64) (subStreamSizes : List UInt64)
    (subStreamCrcs : List UInt32) : UnpackInfo :=
  { info with
    blocks := info.blocks ++
      [{ methods, sizes, crc, numSubUnpackStreams, subStreamSizes, subStreamCrcs }] }

def writeBody (versions : CodecVersions) (info : UnpackInfo) : List UInt8 :=
  [kFolder] ++ (writeNumber info.blocks.length ++ ([0] ++
    (info.blocks.flatMap (BlockInfo.writeTo versions) ++ ([kCodersUnpackSize] ++
      (info.blocks.flatMap (fun block => block.sizes.flatMap writeU64) ++ [kEnd])))))

def writeTo (versions : CodecVersions) (info : UnpackInfo) : List UInt8 :=
  kUnpackInfo :: info.writeBody versions

def needsNumUnpackStream (info : UnpackInfo) : Bool :=
  info.blocks.any fun block => block.numSubUnpackStreams != 1

def needsSizes (info : UnpackInfo) : Bool :=
  info.blocks.any fun block => block.subStreamSizes.length > 1

def writeNumUnpackStreams (info : UnpackInfo) : List UInt8 :=
  if info.needsNumUnpackStream then
    kNumUnpackStream :: info.blocks.flatMap fun block => writeU64 block.numSubUnpackStreams
  else []

def writeSizes (info : UnpackInfo) : List UInt8 :=
  if info.needsSizes then
    kSize :: info.blocks.flatMap fun block => block.sizesToWrite.flatMap writeU64
  else []

def writeCrcs (info : UnpackInfo) : List UInt8 :=
  let crcs := info.blocks.flatMap BlockInfo.crcsToWrite
  if crcs.isEmpty then [] else kCrc :: 1 :: crcs.flatMap writeU32

def writeSubstreamsBody (info : UnpackInfo) : List UInt8 :=
  info.writeNumUnpackStreams ++ (info.writeSizes ++ (info.writeCrcs ++ [kEnd]))

def writeSubstreams (info : UnpackInfo) : List UInt8 :=
  kSubStreamsInfo :: info.writeSubstreamsBody

end UnpackInfo

end Sevenz
