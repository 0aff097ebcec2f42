import Plz4.Lib.LittleEndian
import Plz4.Lib.Slice
import Plz4.Lib.Cut
import Plz4.Lib.Machine
import Plz4.Lib.Loop
import Plz4.Lib.Reads
import Plz4.Lib.Pool
import Plz4.Zerr
import Plz4.Io
import Plz4.Sparse
import Plz4.SparseContent
import Plz4.SparseFailures
import Plz4.Xxh32
import Plz4.Descriptor
import Plz4.Dict
import Plz4.Compress
import Plz4.Opts
import Plz4.Header
import Plz4.HeaderSpec
import Plz4.HeaderCodec
import Plz4.SkipSpec
import Plz4.Blk
import Plz4.BlkSpec
import Plz4.BlkParse
import Plz4.Calls
import Plz4.SyncWriter
import Plz4.SyncSpec
import Plz4.SyncCalls
import Plz4.SyncReadFrom
import Plz4.FailedOutput
import Plz4.SyncReader
import Plz4.Session
import Plz4.AsyncReader
import Plz4.AsyncReaderStep
import Plz4.AsyncReaderSpec
import Plz4.AsyncReaderLive
import Plz4.AsyncReaderClose
import Plz4.Reader
import Plz4.Stream
import Plz4.ReaderSpec
import Plz4.Frames
import Plz4.SkipFrames
import Plz4.BlkLimit
import Plz4.Truncation
import Plz4.Concat
import Plz4.Integrity
import Plz4.ReaderProgress
import Plz4.ReaderReturns
import Plz4.Verify
import Plz4.ReadOffset
import Plz4.Window
import Plz4.AsyncWriter
import Plz4.AsyncWriterStep
import Plz4.AsyncWriterPlaces
import Plz4.AsyncWriterPhases
import Plz4.AsyncWriterTasks
import Plz4.AsyncWriterOrder
import Plz4.AsyncWriterValues
import Plz4.AsyncWriterHash
import Plz4.AsyncWriterWritten
import Plz4.AsyncWriterProgress
import Plz4.AsyncWriterFuel
import Plz4.AsyncWriterLedger
import Plz4.AsyncWriterSpec
import Plz4.AsyncWriterPool
import Plz4.AsyncHashIdx
import Plz4.AsyncWriterRelease
import Plz4.AsyncWriterErrors
import Plz4.AsyncWriterCalm
import Plz4.AsyncWriterFrame
import Plz4.Reporting
import Plz4.AsyncWriterReporting
import Plz4.RoundTrip
import Plz4.RandomAccess
import Plz4.Endings
import Plz4.Lib.Lz77
import Plz4.Lib.Mem
import Plz4.Lz4.Block
import Plz4.Lz4.Compress
import Plz4.Lz4.CompressSpec
import Plz4.Lz4.CompressStream
import Plz4.Lz4.DecompressSafe
import Plz4.Lz4.Engine
import Plz4.Lz4.Codec
