import BinaryLog.Agreement
import BinaryLog.Args
import BinaryLog.Bounds
import BinaryLog.Buffering
import BinaryLog.CrashOrder
import BinaryLog.CrashRecovery
import BinaryLog.Decoding
import BinaryLog.DiskLoggers
import BinaryLog.DiskRecovery
import BinaryLog.EffectfulPrograms
import BinaryLog.Effects
import BinaryLog.FilePaths
import BinaryLog.Fwrites
import BinaryLog.IndexFormat
import BinaryLog.Inflation
import BinaryLog.KilledPrograms
import BinaryLog.Lib.BlockBuffer
import BinaryLog.Lib.Bytes
import BinaryLog.Lib.Delimited
import BinaryLog.Lib.Firsts
import BinaryLog.Lib.OpenFiles
import BinaryLog.Lib.Printing
import BinaryLog.Lib.Runs
import BinaryLog.Lib.Simulation
import BinaryLog.Lib.SpillBuffer
import BinaryLog.Lib.Window
import BinaryLog.Logger
import BinaryLog.Loggers
import BinaryLog.MaximalRuns
import BinaryLog.Output
import BinaryLog.OversizedEntries
import BinaryLog.Packer
import BinaryLog.PrintingPrograms
import BinaryLog.RecordedRows
import BinaryLog.Recovery
import BinaryLog.Repack
import BinaryLog.RingRuns
import BinaryLog.RingWindow
import BinaryLog.RingbufferPacker
import BinaryLog.RoundTrip
import BinaryLog.RowIds
import BinaryLog.RunFormat
import BinaryLog.RunlengthFile
import BinaryLog.Salvage
import BinaryLog.Session
import BinaryLog.SingleHeader
import BinaryLog.Snapshot
import BinaryLog.Streams
import BinaryLog.StringLengths
import BinaryLog.Template
import BinaryLog.TruncatedLogs
import BinaryLog.Unpacker
