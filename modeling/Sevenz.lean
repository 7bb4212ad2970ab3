import Sevenz.Lib.Parser
import Sevenz.Lib.Bytes
import Sevenz.Lib.Layout
import Sevenz.Lib.Cursor
import Sevenz.Lib.Offsets
import Sevenz.Lib.Chunks
import Sevenz.Lib.Cbc
import Sevenz.Lib.Crc32
import Sevenz.Lib.Sha256
import Sevenz.Lib.DepthFirst
import Sevenz.Lib.Utf16
import Sevenz.Lib.Stream
import Sevenz.Lib.Replay
import Sevenz.Lib.Decompressor
import Sevenz.Lib.Delivery
import Sevenz.Lib.LzWindow
import Sevenz.Lib.Settling
import Sevenz.Lib.Verdict
import Sevenz.Lib.Window
import Sevenz.Lib.Runs
import Sevenz.Lib.Path
import Sevenz.Lib.FileTree
import Sevenz.Lib.Process
import Sevenz.Lib.Writer
import Sevenz.Lib.Alike
import Sevenz.Lib.Emits
import Sevenz.Lib.Tracked
import Sevenz.Error
import Sevenz.BitSet
import Sevenz.Archive
import Sevenz.Header.Number
import Sevenz.Header.BitSetRuns
import Sevenz.Header.PackInfo
import Sevenz.Header.Block
import Sevenz.Header.CoderGraph
import Sevenz.Header.StreamsInfo
import Sevenz.Header.WellFormed
import Sevenz.Header.StreamMap
import Sevenz.Header.FilesInfo
import Sevenz.Header.PropertyBodies
import Sevenz.Header.FileSpans
import Sevenz.Header.StreamCounts
import Sevenz.Header.Read
import Sevenz.Header.PropertyLoops
import Sevenz.Header.Accepted
import Sevenz.Header.Reservations
import Sevenz.Header.ResourceBounds
import Sevenz.Header.Reserved
import Sevenz.Header.StartHeader
import Sevenz.Header.Recovery
import Sevenz.Header.SubStreamSizes
import Sevenz.Header.SubStreamDigests
import Sevenz.Header.SubStreamOrder
import Sevenz.Reader.Codecs
import Sevenz.Reader.DecodeStack
import Sevenz.Reader.Composition
import Sevenz.Reader.EntryReader
import Sevenz.Reader.BlockDecoder
import Sevenz.Reader.ArchiveReader
import Sevenz.Reader.Visits
import Sevenz.Reader.Bounds
import Sevenz.Reader.Pieces
import Sevenz.Reader.Integrity
import Sevenz.Reader.SubStreamHook
import Sevenz.Reader.BlockHook
import Sevenz.Reader.BlockSlices
import Sevenz.Header.SingleFiles
import Sevenz.Reader.DrainingWalk
import Sevenz.Reader.VerifiedEntry
import Sevenz.Reader.RandomAccess
import Sevenz.Reader.Restored
import Sevenz.Reader.WalkRuns
import Sevenz.Reader.Follows
import Sevenz.Reader.Failures
import Sevenz.Reader.Unchecked
import Sevenz.Reader.Attribution
import Sevenz.Reader.Lzma2Threads
import Sevenz.Reader.Lzma2Window
import Sevenz.Reader.Lzma2Faithful
import Sevenz.Reader.KeyBudget
import Sevenz.Reader.MemoryEstimate
import Sevenz.Reader.PackRanges
import Sevenz.Reader.SharedSource
import Sevenz.Writer.Methods
import Sevenz.Writer.UnpackInfo
import Sevenz.Writer.SubStreams
import Sevenz.Writer.Encoder
import Sevenz.Writer.CoderChain
import Sevenz.Writer.EndOfStream
import Sevenz.Writer.WrappedChain
import Sevenz.Writer.ShortWrites
import Sevenz.Writer.DecodedChain
import Sevenz.Writer.FilesInfo
import Sevenz.Writer.ArchiveWriter
import Sevenz.Writer.Pushes
import Sevenz.Writer.PreparedBlocks
import Sevenz.Writer.Records
import Sevenz.Writer.EncodedHeader
import Sevenz.Writer.Finish
import Sevenz.Writer.WrittenArchive
import Sevenz.Writer.TakenArchive
import Sevenz.Writer.ReadBack
import Sevenz.Writer.StreamMarks
import Sevenz.Writer.StoringEncoder
import Sevenz.Writer.CompressPath
import Sevenz.Writer.LzmaTurboWriter
import Sevenz.Writer.LzmaTurboFallback
import Sevenz.Codec.FrameDecoder
import Sevenz.Codec.FrameRoundTrip
import Sevenz.Codec.FrameCut
import Sevenz.Codec.Lz4
import Sevenz.Codec.Brotli
import Sevenz.Codec.FragmentedFrames
import Sevenz.Codec.Dictionary
import Sevenz.Codec.Bcj2
import Sevenz.Codec.Bcj2Decoding
import Sevenz.Codec.Bcj2Refinement
import Sevenz.Codec.Bcj2Reading
import Sevenz.Extract.SafeJoin
import Sevenz.Extract.ExtractInRoot
import Sevenz.Extract.Confinement
import Sevenz.Extract.TreeRoundTrip
import Sevenz.Encryption.CryptoBackend
import Sevenz.Encryption.AesDecoder
import Sevenz.Encryption.AesEncoder
import Sevenz.Encryption.WriteSize
import Sevenz.Encryption.KeyDerivation
