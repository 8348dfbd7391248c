import FluxThroughput.Lib.U64
import FluxThroughput.Lib.Pow2
import FluxThroughput.Lib.Transition
import FluxThroughput.Lib.WriteBehind
import FluxThroughput.Domain.Types
import FluxThroughput.Cache.WriteBehind
import FluxThroughput.Store.Mock
import FluxThroughput.Lsn.Authority
import FluxThroughput.Wal.Atomic
import FluxThroughput.Engine.Config
import FluxThroughput.Engine.Machine
import FluxThroughput.Engine.Refine
import FluxThroughput.Engine.NoLoss
import FluxThroughput.Engine.Events
import FluxThroughput.Engine.Checkpoint
import FluxThroughput.Engine.Floor
import FluxThroughput.Worker.FinalDrain
import FluxThroughput.Worker.Simulation
import FluxThroughput.Worker.Shutdown
import FluxThroughput.Ring.Machine
import FluxThroughput.Ring.Invariant
import FluxThroughput.Ring.Delivery
import FluxThroughput.Ring.Fifo
import FluxThroughput.Domain.Frame
import FluxThroughput.Wal.File
import FluxThroughput.Wal.Refine
import FluxThroughput.Wal.CheckpointFail
import FluxThroughput.Wal.Kills
import FluxThroughput.Domain.Decode
import FluxThroughput.Wal.Oversize
import FluxThroughput.Lib.Crc
import FluxThroughput.Domain.Damage
import FluxThroughput.Cache.History
import FluxThroughput.Cache.FailedFlush
import FluxThroughput.Worker.Agreement
import FluxThroughput.Wal.AppendFail
import FluxThroughput.Engine.Lifetimes
import FluxThroughput.Engine.Barrier
import FluxThroughput.Engine.Order
import FluxThroughput.Wal.Longest
import FluxThroughput.Lib.CrcPolynomial
import FluxThroughput.Domain.Checksum
import FluxThroughput.Lib.LastWriteWins
import FluxThroughput.Store.Converge
import FluxThroughput.Engine.Pending
import FluxThroughput.Engine.Deadline
import FluxThroughput.Lib.WrappingCounter
import FluxThroughput.Ring.Wrapping
import FluxThroughput.Ring.Answers
import FluxThroughput.Ring.Progress
import FluxThroughput.Cache.Portions
import FluxThroughput.Worker.FlushPass
import FluxThroughput.Engine.FlushNow
import FluxThroughput.Worker.Termination
import FluxThroughput.Lib.Sealed
import FluxThroughput.Store.DiskRecord
import FluxThroughput.Store.DiskKv
import FluxThroughput.Store.DiskDurable
import FluxThroughput.Engine.Exact
import FluxThroughput.Lib.Overwrite
import FluxThroughput.Store.Redis
import FluxThroughput.Engine.Redis
import FluxThroughput.Engine.OnDisk
import FluxThroughput.Engine.Crash
import FluxThroughput.Engine.Accounts
import FluxThroughput.Lib.AtomicObject
import FluxThroughput.Ring.Len
import FluxThroughput.Ring.Linear
