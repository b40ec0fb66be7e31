import CkCore.Lib.Loop
import CkCore.Lib.Memory
import CkCore.Lib.System
import CkCore.Lib.Blocks
import CkCore.Lib.Census
import CkCore.Lib.Crc
import CkCore.Lib.Gf2
import CkCore.Model.Stream
import CkCore.Spec.Cursor
import CkCore.Model.BufferedStream
import CkCore.Proofs.BufferedIn
import CkCore.Proofs.BufferedOut
import CkCore.Spec.Streams
import CkCore.Proofs.OutRuns
import CkCore.Model.Copy
import CkCore.Proofs.Copy
import CkCore.Model.CrcStream
import CkCore.Spec.Crc
import CkCore.Proofs.Crc
import CkCore.Model.LineReader
import CkCore.Spec.Lines
import CkCore.Proofs.LineReader
import CkCore.Model.Process
import CkCore.Proofs.ProcessOutput
import CkCore.Model.ThreadPool
import CkCore.Proofs.PoolSteps
import CkCore.Proofs.PoolTasks
import CkCore.Proofs.PoolCount
import CkCore.Model.MemoryStream
import CkCore.Proofs.MemoryIn
import CkCore.Lib.Segments
import CkCore.Model.TString
import CkCore.Model.Path
import CkCore.Spec.Path
import CkCore.Proofs.Path
import CkCore.Proofs.PathEquality
import CkCore.Proofs.Directory
import CkCore.Spec.Fetching
import CkCore.Proofs.BufferedFetch
import CkCore.Proofs.BufferedReports
import CkCore.Model.Waiting
import CkCore.Proofs.WaitBalance
import CkCore.Model.WindowsWait
import CkCore.Proofs.Broadcast
import CkCore.Spec.Ledger
import CkCore.Proofs.PoolOrder
import CkCore.Proofs.PoolTurns
import CkCore.Proofs.PoolForce
import CkCore.Proofs.PoolReserve
import CkCore.Model.PoolWait
import CkCore.Proofs.PoolDrain
import CkCore.Model.Directory
import CkCore.Spec.Directory
import CkCore.Model.Canexstream
import CkCore.Proofs.Canexstream
import CkCore.Proofs.ShortWrites
import CkCore.Proofs.ProcessStart
import CkCore.Proofs.ExitCode
import CkCore.Model.ProcessMonitor
import CkCore.Proofs.LostExit
import CkCore.Proofs.SeekPastEnd
import CkCore.Lib.Runs
import CkCore.Proofs.ProcessBlocks
import CkCore.Proofs.MemoryOut
import CkCore.Proofs.CrcBursts
import CkCore.Model.CommandLine
import CkCore.Proofs.CommandLine
import CkCore.Model.DirectoryIterator
import CkCore.Proofs.DirectoryIterator
import CkCore.Model.FileStream
import CkCore.Proofs.FileStream
import CkCore.Model.WindowsProcess
import CkCore.Proofs.WindowsClose
import CkCore.Proofs.PathJoin
import CkCore.Proofs.Detection
import CkCore.Proofs.PathNames
import CkCore.Proofs.LineText
import CkCore.Proofs.MemoryLimit
import CkCore.Model.Progress
import CkCore.Spec.Progress
import CkCore.Proofs.Progress
import CkCore.Proofs.CopyReturns
import CkCore.Lib.Numeral
import CkCore.Model.Convert
import CkCore.Proofs.FileOffsets
import CkCore.Spec.Decimal
import CkCore.Proofs.Convert
import CkCore.Model.Strings
import CkCore.Proofs.Strings
import CkCore.Proofs.PoolFreed
import CkCore.Proofs.PoolCreation
import CkCore.Model.ProcessLife
import CkCore.Proofs.PidMap
import CkCore.Model.ProcessCreate
import CkCore.Proofs.FailedCreate
import CkCore.Lib.Refines
import CkCore.Spec.Simulates
import CkCore.Proofs.Layers
import CkCore.Spec.Towers
import CkCore.Proofs.InTowers
import CkCore.Proofs.OutTowers
import CkCore.Proofs.TowerCopy
import CkCore.Proofs.TowerEnds
import CkCore.Proofs.TowerLines
import CkCore.Model.FileLock
import CkCore.Proofs.FileLock
import CkCore.Proofs.FileOwners
import CkCore.Proofs.FileCopy
import CkCore.Model.Thread
import CkCore.Proofs.ThreadAlone
import CkCore.Proofs.ThreadWakeups
import CkCore.Proofs.ThreadReturns
import CkCore.Proofs.CrcTrailer
import CkCore.Proofs.TowerSized
import CkCore.Proofs.PoolToil
import CkCore.Proofs.PoolServes
import CkCore.Proofs.PoolReturns
import CkCore.Model.LockedWait
import CkCore.Proofs.WaitLocks
import CkCore.Proofs.WaitSections
