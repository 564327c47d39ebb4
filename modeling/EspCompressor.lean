import EspCompressor.Proc
import EspCompressor.Types
import EspCompressor.LittleEndian
import EspCompressor.FoldChecksum
import EspCompressor.MemoryBuffer
import EspCompressor.EscFormat
import EspCompressor.LzSequence
import EspCompressor.Codec
import EspCompressor.LzLite
import EspCompressor.LzEncoder
import EspCompressor.LzDecoder
import EspCompressor.LzRoundTrip
import EspCompressor.CompressionIo
import EspCompressor.IoContracts
import EspCompressor.Compressor
import EspCompressor.Session
import EspCompressor.FileSystem
import EspCompressor.FileSink
import EspCompressor.FileReplace
import EspCompressor.FileJobs
import EspCompressor.FileHistory
import EspCompressor.Container
import EspCompressor.RunSteps
import EspCompressor.DecompressRun
import EspCompressor.BuiltinIo
import EspCompressor.Acceptance
import EspCompressor.CompressRun
import EspCompressor.RoundTrip
import EspCompressor.Accounting
import EspCompressor.SelfConsistency
import EspCompressor.OneBit
import EspCompressor.LzFraming
import EspCompressor.Lockstep
import EspCompressor.LzGrammar
import EspCompressor.LzAccess
import EspCompressor.Histories
import EspCompressor.RunPairs
import EspCompressor.CallProtocol
import EspCompressor.Cancellation
import EspCompressor.MemorySinks
import EspCompressor.BlockWrites
import EspCompressor.FixedOverflow
import EspCompressor.Transitions
import EspCompressor.JobControl
import EspCompressor.LifeCycle
import EspCompressor.Turns
import EspCompressor.Ownership
import EspCompressor.ResultOrder
import EspCompressor.FinishWindow
import EspCompressor.ContainerSize
import EspCompressor.LzNarrow
import EspCompressor.DirectoryTree
import EspCompressor.HeaderCodecs
import EspCompressor.WordBuffer
import EspCompressor.EarlyResults
import EspCompressor.FileRaces
import EspCompressor.FileWindows
import EspCompressor.ProgressReports
import EspCompressor.ProgressRuns
import EspCompressor.ProgressEnds
import EspCompressor.SerialJobs
import EspCompressor.CallsEnd
import EspCompressor.CancelLatency
import EspCompressor.CancelledRuns
import EspCompressor.Blocks
import EspCompressor.BufferOwnership
import EspCompressor.Faults
import EspCompressor.Salvage
import EspCompressor.Truthful
import EspCompressor.SizedRuns
import EspCompressor.BitFlips
import EspCompressor.CrcBursts
import EspCompressor.FileSource
import EspCompressor.Backups
import EspCompressor.FileTransfers
import EspCompressor.Amplification
import EspCompressor.PassThrough
import EspCompressor.SizedJobs
