import FluxThroughput.Cache.WriteBehind
import FluxThroughput.Store.Mock
import FluxThroughput.Lsn.Authority
import FluxThroughput.Wal.Atomic
import FluxThroughput.Engine.Config
import FluxThroughput.Lib.Pow2
import FluxThroughput.Lib.Transition

/-! # The engine as a machine of threads

One worker and any number of clients share the ring, the cache, the log, the store's table, the LSN
authority and the stop flag. A thread's program counter `Pc` says which atomic call it makes next, with
the locals it carries; `Pc.step` makes that call. The ring is an atomic bounded FIFO and calls of the
log and the store are atomic. What a call may answer on its own (the order in which the hash set is
iterated, failures of the log and of the store, the clock) comes with the step as an `Env`. -/

namespace FluxThroughput.Engine.Machine

open FluxThroughput.Domain.Types FluxThroughput.Cache.WriteBehind FluxThroughput.Store.Mock
open FluxThroughput.Lsn.Authority FluxThroughput.Wal.Atomic FluxThroughput.Engine.Config
open FluxThroughput.Lib.Transition FluxThroughput.Lib.U64 FluxThroughput.Lib.Pow2

/-! ### The shared state -/

structure Shared where
  ring : List WriteRequest
  cache : WriteBehindCache
  wal : Log
  table : Table
  lsn : LsnState
  stop : Bool

/-- How a call of `append_batch` ends: a failed one may have left whole frames behind, and a torn
one. -/
inductive AppendOutcome
  | ok
  | failed (landed : ℕ) (torn : Bool)
  deriving DecidableEq, Repr

/-- How a call of `checkpoint` ends: it may fail before or after its rename. -/
inductive CheckpointOutcome
  | ok
  | failedBefore
  | failedAfter
  deriving DecidableEq, Repr

/-- The answers of the environment to one step. -/
structure Env where
  order : List PlayerId
  append : AppendOutcome
  persist : Option StoreError
  checkpoint : CheckpointOutcome
  timeReady : Bool

/-- Every call succeeds, and the dirty index is iterated as `order`. -/
def Env.fine (order : List PlayerId) : Env :=
  { order := order, append := .ok, persist := none, checkpoint := .ok, timeReady := true }

/-- The worker, or a client thread. -/
inductive Tid
  | worker
  | client (n : ℕ)
  deriving DecidableEq, Repr

/-! ### Program counters -/

/-- Who drains the ring, and what it does afterwards. -/
inductive DrainFor
  | steady
  | final (stalled : ℕ)
  | flushNow (total : ℕ) (inLoop : Bool)
  deriving DecidableEq, Repr

/-- Who flushes, and what it does afterwards. -/
inductive FlushFor
  | steady
  | final (stalled drained dirtyBefore : ℕ)
  | flushNow (total : ℕ)
  deriving DecidableEq, Repr

/-- What a thread does next. -/
inductive Pc
  | idle
  -- `submit`
  | submitAlloc (playerId : PlayerId) (version : UInt64) (blob : Bytes)
  | submitEnqueue (req : WriteRequest)
  -- `submit_durable`
  | durableAlloc (playerId : PlayerId) (version : UInt64) (blob : Bytes)
  | durableNote (rec : WalRecord)
  | durableAppend (rec : WalRecord)
  | durableClear (rec : WalRecord)
  | durableEnqueue (rec : WalRecord)
  -- `drain_into`, then `note_drained` and `apply` for each request
  | drainPop (k : DrainFor) (got : List WriteRequest)
  | drainNote (k : DrainFor) (moved : ℕ) (req : WriteRequest) (rest : List WriteRequest)
  | drainApply (k : DrainFor) (moved : ℕ) (req : WriteRequest) (rest : List WriteRequest)
  -- `flush_now`, `flush`, and one batch
  | flushNowCheck (total : ℕ)
  | takeDirty (k : FlushFor)
  | allocBlock (k : FlushFor) (states : List PlayerState)
  | appendBatch (k : FlushFor) (states : List PlayerState) (records : List WalRecord)
  | persistBatch (k : FlushFor) (states : List PlayerState) (last : Lsn) (attempt : ℕ)
  | watermark (k : FlushFor) (count : ℕ) (last : Lsn)
  | checkpoint (k : FlushFor) (count : ℕ) (safe : Lsn)
  | requeue (k : FlushFor) (states : List PlayerState)
  -- the worker's loop and its final drain
  | top
  | decide (drained : ℕ)
  | finalRing (stalled drained : ℕ)
  | finalDirty (stalled drained : ℕ) (ringEmpty : Bool)
  | finalAfter (stalled drained dirtyBefore : ℕ)
  | exited
  deriving DecidableEq, Repr

/-- What a step lets the outside see. -/
inductive Event
  | enqueued (req : WriteRequest)
  | submitReturned (req : WriteRequest) (enqueued : Bool)
  | durableLogged (rec : WalRecord)
  | durableReturned (rec : WalRecord) (ok : Bool)
  | logged (records : List WalRecord)
  | persisted (states : List PlayerState)
  | flushNowCalled
  | flushNowReturned (total : Option ℕ)
  deriving DecidableEq, Repr

/-! ### One atomic call -/

def shutdownMaxStalledAttempts : ℕ := 64

def drainMultiple : ℕ := 4

/-- `usize::saturating_mul`. -/
def saturatingMul (a b : ℕ) : ℕ := min (a * b) (2 ^ 64 - 1)

def ringCap (cfg : ValidConfig) : ℕ := nextPowerOfTwo (max cfg.ringCapacity 1)

/-- `try_enqueue` of an atomic bounded FIFO. -/
def Shared.tryEnqueue (cfg : ValidConfig) (sh : Shared) (req : WriteRequest) : Option Shared :=
  if sh.ring.length < ringCap cfg then some { sh with ring := sh.ring ++ [req] } else none

/-- How many requests one drain may move. -/
def drainMax (cfg : ValidConfig) : DrainFor → ℕ
  | .steady | .final _ => saturatingMul cfg.flushMaxBatch drainMultiple
  | .flushNow _ _ => cfg.flushMaxBatch

/-- Where a drain that moved `moved` requests continues. -/
def drainDone (cfg : ValidConfig) (moved : ℕ) : DrainFor → Pc
  | .steady => .decide moved
  | .final stalled => .finalRing stalled moved
  | .flushNow total inLoop =>
    if moved = 0 ∨ moved < cfg.flushMaxBatch then
      if inLoop then .takeDirty (.flushNow total) else .flushNowCheck total
    else .drainPop (.flushNow total inLoop) []

/-- The next request of the drained buffer, if any. -/
def drainNext (cfg : ValidConfig) (k : DrainFor) (moved : ℕ) : List WriteRequest → Pc
  | [] => drainDone cfg moved k
  | req :: rest => .drainNote k moved req rest

/-- Where a flush pass that found nothing dirty continues. -/
def flushEnd : FlushFor → Pc × List Event
  | .steady => (.top, [])
  | .final stalled drained dirtyBefore => (.finalAfter stalled drained dirtyBefore, [])
  | .flushNow total => (.idle, [.flushNowReturned (some total)])

/-- Where a flush continues after a persisted batch of `count` states. -/
def batchOk (count : ℕ) : FlushFor → Pc
  | .steady => .takeDirty .steady
  | .final stalled drained dirtyBefore => .takeDirty (.final stalled drained dirtyBefore)
  | .flushNow total => .flushNowCheck (total + count)

/-- Where a flush continues after a batch was put back. -/
def batchFailed : FlushFor → Pc × List Event
  | .steady => (.top, [])
  | .final stalled drained dirtyBefore => (.finalAfter stalled drained dirtyBefore, [])
  | .flushNow _ => (.idle, [.flushNowReturned none])

/-- The worker goes on after a failed checkpoint, `flush_now` returns its error. -/
def checkpointFailed (count : ℕ) : FlushFor → Pc × List Event
  | .flushNow _ => (.idle, [.flushNowReturned none])
  | k => (batchOk count k, [])

/-- The records of a batch, stamped with consecutive LSNs. -/
def stamp : Lsn → List PlayerState → List WalRecord
  | _, [] => []
  | lsn, st :: states =>
    { lsn := lsn, playerId := st.playerId, version := st.version, blob := st.blob } ::
      stamp (lsn + 1) states

/-- The LSN a flush proposes to checkpoint up to: the worker falls back to its own highest stamp
when the log confirms `0`. -/
def proposal (confirmed : Lsn) (records : List WalRecord) : FlushFor → Lsn
  | .flushNow _ => confirmed
  | _ => if confirmed ≠ 0 then confirmed else (records.getLast?.map WalRecord.lsn).getD 0

/-- The ring copy of a durable record, tagged with its LSN. -/
def toRequest (rec : WalRecord) : WriteRequest :=
  { playerId := rec.playerId, version := rec.version, blob := rec.blob, seq := rec.lsn }

/-- **One atomic step of a thread.** -/
def Pc.step (cfg : ValidConfig) (env : Env) (sh : Shared) :
    Pc → Option (Shared × Pc × List Event)
  | .idle => none
  | .submitAlloc playerId version blob =>
    let (seq, lsn) := sh.lsn.alloc
    some ({ sh with lsn := lsn }, .submitEnqueue ⟨playerId, version, blob, seq⟩, [])
  | .submitEnqueue req =>
    match sh.tryEnqueue cfg req with
    | some sh => some (sh, .idle, [.enqueued req, .submitReturned req true])
    | none => some (sh, .idle, [.submitReturned req false])
  | .durableAlloc playerId version blob =>
    let (lsn, lsnState) := sh.lsn.alloc
    some ({ sh with lsn := lsnState }, .durableNote ⟨lsn, playerId, version, blob⟩, [])
  | .durableNote rec =>
    some ({ sh with lsn := sh.lsn.notePending rec.lsn }, .durableAppend rec, [])
  | .durableAppend rec =>
    match env.append with
    | .ok =>
      some ({ sh with wal := (sh.wal.appendBatch [rec]).2 }, .durableEnqueue rec,
        [.durableLogged rec])
    | .failed landed torn =>
      some ({ sh with wal := sh.wal.appendFailed [rec] landed torn }, .durableClear rec, [])
  | .durableClear rec =>
    some ({ sh with lsn := sh.lsn.noteDrained rec.lsn }, .idle, [.durableReturned rec false])
  | .durableEnqueue rec =>
    match sh.tryEnqueue cfg (toRequest rec) with
    | some sh => some (sh, .idle, [.enqueued (toRequest rec), .durableReturned rec true])
    | none => some (sh, .idle, [.durableReturned rec true])
  | .drainPop k got =>
    if got.length < drainMax cfg k then
      match sh.ring with
      | req :: ring => some ({ sh with ring := ring }, .drainPop k (got ++ [req]), [])
      | [] => some (sh, drainNext cfg k got.length got, [])
    else some (sh, drainNext cfg k got.length got, [])
  | .drainNote k moved req rest =>
    some ({ sh with lsn := sh.lsn.noteDrained req.seq }, .drainApply k moved req rest, [])
  | .drainApply k moved req rest =>
    some ({ sh with cache := sh.cache.apply req }, drainNext cfg k moved rest, [])
  | .flushNowCheck total =>
    if 0 < sh.cache.dirtyLen then some (sh, .drainPop (.flushNow total true) [], [])
    else some (sh, .idle, [.flushNowReturned (some total)])
  | .takeDirty k =>
    if Inner.Enumerates env.order sh.cache.inner.dirty then
      let states := sh.cache.taken env.order cfg.flushMaxBatch
      let sh := { sh with cache := sh.cache.takeDirty env.order cfg.flushMaxBatch }
      if states = [] then some (sh, (flushEnd k).1, (flushEnd k).2)
      else some (sh, .allocBlock k states, [])
    else none
  | .allocBlock k states =>
    let (first, lsn) := sh.lsn.allocBlock (UInt64.ofNat states.length)
    some ({ sh with lsn := lsn }, .appendBatch k states (stamp first states), [])
  | .appendBatch k states records =>
    match env.append with
    | .ok =>
      let (last, wal) := sh.wal.appendBatch records
      some ({ sh with wal := wal }, .persistBatch k states (proposal last records k) 0,
        [.logged records])
    | .failed landed torn =>
      some ({ sh with wal := sh.wal.appendFailed records landed torn }, .requeue k states, [])
  | .persistBatch k states last attempt =>
    match env.persist with
    | none =>
      some ({ sh with table := upsert sh.table states }, .watermark k states.length last,
        [.persisted states])
    | some e =>
      if !e.isRetryable ∨ cfg.storeRetryLimit ≤ attempt + 1 then some (sh, .requeue k states, [])
      else some (sh, .persistBatch k states last (attempt + 1), [])
  | .watermark k count last =>
    match sh.lsn.checkpointWatermark last with
    | some safe => some (sh, .checkpoint k count safe, [])
    | none => some (sh, batchOk count k, [])
  | .checkpoint k count safe =>
    match env.checkpoint with
    | .ok => some ({ sh with wal := sh.wal.checkpoint safe }, batchOk count k, [])
    | .failedBefore =>
      some (sh, (checkpointFailed count k).1, (checkpointFailed count k).2)
    | .failedAfter =>
      some ({ sh with wal := sh.wal.checkpointFailedAfter safe },
        (checkpointFailed count k).1, (checkpointFailed count k).2)
  | .requeue k states =>
    some ({ sh with cache := sh.cache.requeueDirty states }, (batchFailed k).1, (batchFailed k).2)
  | .top =>
    if sh.stop then some (sh, .drainPop (.final 0) [], []) else some (sh, .drainPop .steady [], [])
  | .decide _ =>
    let dirty := sh.cache.dirtyLen
    if 0 < dirty ∧ (cfg.flushMaxBatch ≤ dirty ∨ env.timeReady) then
      some (sh, .takeDirty .steady, [])
    else some (sh, .top, [])
  | .finalRing stalled drained => some (sh, .finalDirty stalled drained sh.ring.isEmpty, [])
  | .finalDirty stalled drained ringEmpty =>
    let dirtyBefore := sh.cache.dirtyLen
    if ringEmpty ∧ dirtyBefore = 0 then some (sh, .exited, [])
    else if 0 < dirtyBefore then some (sh, .takeDirty (.final stalled drained dirtyBefore), [])
    else some (sh, .finalAfter stalled drained dirtyBefore, [])
  | .finalAfter stalled drained dirtyBefore =>
    if 0 < drained ∨ sh.cache.dirtyLen < dirtyBefore then some (sh, .drainPop (.final 0) [], [])
    else if shutdownMaxStalledAttempts ≤ stalled + 1 then some (sh, .exited, [])
    else some (sh, .drainPop (.final (stalled + 1)) [], [])
  | .exited => none

/-! ### The engine -/

/-- The calls a client can make. -/
inductive Call
  | submit (playerId : PlayerId) (version : UInt64) (blob : Bytes)
  | submitDurable (playerId : PlayerId) (version : UInt64) (blob : Bytes)
  | flushNow
  deriving DecidableEq, Repr

/-- Where a call begins. -/
def Call.entry : Call → Pc × List Event
  | .submit playerId version blob => (.submitAlloc playerId version blob, [])
  | .submitDurable playerId version blob => (.durableAlloc playerId version blob, [])
  | .flushNow => (.drainPop (.flushNow 0 false) [], [.flushNowCalled])

structure FluxEngine where
  sh : Shared
  pc : Tid → Pc

/-- What happens next: a client begins a call, a thread makes a step, or `shutdown` sets the stop
flag. -/
inductive Action
  | call (n : ℕ) (c : Call)
  | run (t : Tid) (env : Env)
  | shutdown

/-- Events are tagged with the thread they belong to. -/
def tagged (t : Tid) (es : List Event) : List (Tid × Event) := es.map (t, ·)

def FluxEngine.step (cfg : ValidConfig) (s : FluxEngine) :
    Action → Option (FluxEngine × List (Tid × Event))
  | .call n c =>
    match s.pc (.client n) with
    | .idle =>
      some ({ s with pc := Function.update s.pc (.client n) c.entry.1 },
        tagged (.client n) c.entry.2)
    | _ => none
  | .run t env =>
    match (s.pc t).step cfg env s.sh with
    | some (sh, pc, es) => some ({ sh := sh, pc := Function.update s.pc t pc }, tagged t es)
    | none => none
  | .shutdown => some ({ s with sh := { s.sh with stop := true } }, [])

/-! ### Start -/

/-- Replay the recovered records into the cache, in log order. -/
def replay (cache : WriteBehindCache) (records : List WalRecord) : WriteBehindCache :=
  (records.zipIdx).foldl
    (fun cache (rec, i) => cache.apply
      { playerId := rec.playerId, version := rec.version, blob := rec.blob,
        seq := UInt64.ofNat i }) cache

/-- `FluxEngine::start` on a log and a store as the last run left them. -/
def start (wal : Log) (table : Table) : FluxEngine where
  sh :=
    { ring := []
      cache := replay WriteBehindCache.new wal.recover.1
      wal := wal.recover.2
      table := table
      lsn := LsnState.new (saturatingSucc (wal.recover.1.foldl (fun h r => max h r.lsn) 0))
      stop := false }
  pc := fun
    | .worker => .top
    | .client _ => .idle

/-- The engine started on any log and any store. -/
def system (cfg : ValidConfig) : System FluxEngine Action (Tid × Event) where
  init s := ∃ wal table, s = start wal table
  step := FluxEngine.step cfg

/-- The engine started on the given log and store. -/
def systemFrom (cfg : ValidConfig) (wal : Log) (table : Table) :
    System FluxEngine Action (Tid × Event) where
  init s := s = start wal table
  step := FluxEngine.step cfg

/-- The log answers every call of this step with success. -/
def walHealthy : Action → Prop
  | .run _ env => env.append = .ok ∧ env.checkpoint = .ok
  | _ => True

instance : DecidablePred walHealthy := fun a =>
  match a with
  | .run _ env => inferInstanceAs (Decidable (env.append = .ok ∧ env.checkpoint = .ok))
  | .call _ _ => isTrue trivial
  | .shutdown => isTrue trivial

end FluxThroughput.Engine.Machine
