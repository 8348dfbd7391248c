import FluxThroughput.Lib.LastWriteWins
import FluxThroughput.Lib.U64

/-! # The values that travel through the pipeline

Machine words are `UInt64`, payloads are lists of bytes. -/

namespace FluxThroughput.Domain.Types

abbrev PlayerId := UInt64

/-- Log sequence numbers. -/
abbrev Lsn := UInt64

abbrev Bytes := List UInt8

/-- The persisted form of one player's state. -/
structure PlayerState where
  playerId : PlayerId
  version : UInt64
  blob : Bytes
  deriving DecidableEq, Repr

/-- States as versions of their players. -/
def stateVersioned : Lib.LastWriteWins.Versioned PlayerState PlayerId UInt64 where
  key := PlayerState.playerId
  version := PlayerState.version

/-- A write as it travels through the ring. `seq` is its LSN tag. -/
structure WriteRequest where
  playerId : PlayerId
  version : UInt64
  blob : Bytes
  seq : UInt64
  deriving DecidableEq, Repr

/-- The persisted state of a request, without `seq`. -/
def WriteRequest.toState (req : WriteRequest) : PlayerState :=
  { playerId := req.playerId, version := req.version, blob := req.blob }

/-- One logged write. -/
structure WalRecord where
  lsn : Lsn
  playerId : PlayerId
  version : UInt64
  blob : Bytes
  deriving DecidableEq, Repr

/-- A failure reported by the store. -/
inductive StoreError
  | unavailable
  | transient (msg : String)
  | fatal (msg : String)
  deriving DecidableEq, Repr

def StoreError.isRetryable : StoreError → Bool
  | .unavailable => true
  | .transient _ => true
  | .fatal _ => false

/-- A failure to decode a log frame. -/
inductive DecodeError
  | truncated
  | badCrc
  | badMagic
  deriving DecidableEq, Repr

end FluxThroughput.Domain.Types
