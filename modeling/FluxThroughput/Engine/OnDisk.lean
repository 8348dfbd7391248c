import FluxThroughput.Engine.Machine
import FluxThroughput.Wal.File

/-! # The engine on its files

The machine of `Engine.Machine`, with the calls of its log made on the files of `Wal.File`. What a process
has in memory is lost when it is killed, between two steps or inside a call of the log or inside
`FluxEngine::start`; the directory of the log and the store's table stay, and another process may start on
them. Checkpoints may fail at any step of theirs; appends that fail and let the process go on are the
subject of `Wal.AppendFail`. -/

namespace FluxThroughput.Engine.OnDisk

open FluxThroughput.Domain.Types FluxThroughput.Cache.WriteBehind FluxThroughput.Store.Mock
open FluxThroughput.Lsn.Authority FluxThroughput.Wal.Atomic FluxThroughput.Wal.Segment
open FluxThroughput.Wal.File FluxThroughput.Engine.Config FluxThroughput.Engine.Machine
open FluxThroughput.Lib.Transition FluxThroughput.Lib.U64

/-! ### A process -/

/-- What a process has in memory: the engine, and the writer of its `Wal`. -/
structure Memory where
  cfg : ValidConfig
  ring : List WriteRequest
  cache : WriteBehindCache
  lsn : LsnState
  stop : Bool
  pc : Tid → Pc
  inner : Wal.File.Inner

/-- The machine's shared state, with the given log and table. -/
def Memory.shared (m : Memory) (log : Log) (table : Table) : Shared :=
  { ring := m.ring, cache := m.cache, wal := log, table := table, lsn := m.lsn, stop := m.stop }

/-- The memory after a step of the machine. -/
def Memory.after (m : Memory) (t : Tid) (sh : Shared) (pc : Pc) : Memory :=
  { m with
    ring := sh.ring, cache := sh.cache, lsn := sh.lsn, stop := sh.stop
    pc := Function.update m.pc t pc }

/-- The memory after a call of the log. -/
def Memory.called (m : Memory) (t : Tid) (inner : Wal.File.Inner) (pc : Pc) : Memory :=
  { m with inner := inner, pc := Function.update m.pc t pc }

/-- The directory, the store's table, and the process if there is one. -/
structure Node where
  disk : Disk
  table : Table
  memory : Option Memory

/-- What a step may answer on its own: the machine's answers, where a checkpoint stops at a step of its. -/
structure DiskEnv where
  order : List PlayerId
  persist : Option StoreError
  timeReady : Bool
  stopped : Option Stop

/-- What a checkpoint answers that stops at a step. -/
def outcome : Option Stop → CheckpointOutcome
  | none => .ok
  | some stop => if stop.renamed then .failedAfter else .failedBefore

def DiskEnv.toEnv (env : DiskEnv) : Env :=
  { order := env.order, append := .ok, persist := env.persist, checkpoint := outcome env.stopped
    timeReady := env.timeReady }

/-- Every call succeeds, and the dirty index is iterated as `order`. -/
def DiskEnv.fine (order : List PlayerId) : DiskEnv :=
  { order := order, persist := none, timeReady := true, stopped := none }

/-! ### Steps of a thread -/

/-- The thread's next call is one of the log. -/
def callsLog : Pc → Bool
  | .durableAppend _ => true
  | .appendBatch _ _ _ => true
  | .checkpoint _ _ _ => true
  | _ => false

/-- A step that makes no call of the log is the machine's. -/
def Memory.plainStep (m : Memory) (d : Disk) (table : Table) (t : Tid) (env : DiskEnv) :
    Option (Node × List Event) :=
  ((m.pc t).step m.cfg env.toEnv (m.shared Log.empty table)).map fun (sh, pc, es) =>
    (⟨d, sh.table, some (m.after t sh pc)⟩, es)

/-- **One step of a thread**, with the log's calls made on its files. -/
def Memory.step (m : Memory) (d : Disk) (table : Table) (t : Tid) (env : DiskEnv) :
    Option (Node × List Event) :=
  match m.pc t with
  | .durableAppend rec =>
    let (_, d, inner) := Wal.File.appendBatch d m.inner [rec]
    some (⟨d, table, some (m.called t inner (.durableEnqueue rec))⟩, [.durableLogged rec])
  | .appendBatch k states records =>
    let (last, d, inner) := Wal.File.appendBatch d m.inner records
    some (⟨d, table, some (m.called t inner (.persistBatch k states (proposal last records k) 0))⟩,
      [.logged records])
  | .checkpoint k count safe =>
    match Wal.File.checkpoint d m.inner safe env.stopped with
    | (true, d, inner) => some (⟨d, table, some (m.called t inner (batchOk count k))⟩, [])
    | (false, d, inner) =>
      some (⟨d, table, some (m.called t inner (checkpointFailed count k).1)⟩, (checkpointFailed count k).2)
  | _ => m.plainStep d table t env

/-! ### Start and kill -/

/-- What `FluxEngine::start` makes of the recovered records: the replayed cache, and the seeded LSNs. -/
def Memory.start (cfg : ValidConfig) (records : List WalRecord) (inner : Wal.File.Inner) : Memory where
  cfg := cfg
  ring := []
  cache := replay WriteBehindCache.new records
  lsn := LsnState.new (saturatingSucc (records.foldl (fun h r => max h r.lsn) 0))
  stop := false
  pc := fun
    | .worker => .top
    | .client _ => .idle
  inner := inner

/-- **`FluxEngine::start` on a directory**: `open`, `recover`, and the replay. -/
def startOn (cfg : ValidConfig) (d : Disk) (table : Table) : Option Node := do
  let (d, inner) ← openWal d
  let (records, d, inner) ← Wal.File.recover d inner
  return ⟨d, table, some (Memory.start cfg records inner)⟩

/-- Where `start` is killed: when `n` bytes of the header are written, or inside `recover`. -/
inductive StartCut
  | opening (n : ℕ)
  | recovering (truncated : Bool)

def startKilled (d : Disk) : StartCut → Disk
  | .opening n => openKilled d n
  | .recovering truncated =>
    match openWal d with
    | some (d, inner) => recoverKilled d inner truncated
    | none => d

/-- The disk when a thread is killed inside its call of the log: `n` bytes of an append have reached the
file, or a checkpoint stops at a step. -/
def callKilled (d : Disk) (inner : Wal.File.Inner) (n : ℕ) (stop : Stop) : Pc → Option Disk
  | .durableAppend rec => some (appendKilled d inner [rec] n)
  | .appendBatch _ _ records => some (appendKilled d inner records n)
  | .checkpoint _ _ safe => some (Wal.File.checkpoint d inner safe (some stop)).2.1
  | _ => none

/-- A process starts, or is killed while it starts; one of its threads makes a step, or a client a call;
`shutdown` sets the stop flag; or the process is killed, inside a call of the log or anywhere else. -/
inductive Action
  | start (cfg : ValidConfig)
  | startKilled (cut : StartCut)
  | call (n : ℕ) (c : Call)
  | run (t : Tid) (env : DiskEnv)
  | shutdown
  | callKilled (t : Tid) (n : ℕ) (stop : Stop)
  | kill

def Node.step (s : Node) (a : OnDisk.Action) : Option (Node × List (Tid × Event)) :=
  match s.memory, a with
  | none, .start cfg => (startOn cfg s.disk s.table).map fun s' => (s', [])
  | none, .startKilled cut => some ({ s with disk := OnDisk.startKilled s.disk cut }, [])
  | some m, .call n c =>
    match m.pc (.client n) with
    | .idle =>
      some ({ s with memory := some { m with pc := Function.update m.pc (.client n) c.entry.1 } },
        tagged (.client n) c.entry.2)
    | _ => none
  | some m, .run t env => (m.step s.disk s.table t env).map fun x => (x.1, tagged t x.2)
  | some m, .shutdown => some ({ s with memory := some { m with stop := true } }, [])
  | some m, .callKilled t n stop =>
    (OnDisk.callKilled s.disk m.inner n stop (m.pc t)).map fun d => (⟨d, s.table, none⟩, [])
  | some _, .kill => some ({ s with memory := none }, [])
  | _, _ => none

/-- The engine on its files, from an empty directory and any store. -/
def system : System Node OnDisk.Action (Tid × Event) where
  init s := ∃ table, s = ⟨Disk.empty, table, none⟩
  step := Node.step

/-- The records of the log, as a later `recover` reads them. -/
def segmentRecords (d : Disk) : List WalRecord :=
  match d.readAll with
  | some bytes => (decodeSegment bytes).1
  | none => []

/-! ### The machine's steps and the log -/

/-- **A step that makes no call of the log does not look at it**, and leaves it. -/
theorem step_of_not_callsLog {cfg : ValidConfig} {env : Env} {pc : Pc} (hpc : callsLog pc = false)
    (sh : Shared) (log : Log) : pc.step cfg env { sh with wal := log } =
      (pc.step cfg env sh).map fun (sh', pc', es) => ({ sh' with wal := log }, pc', es) := by
  cases pc with
  | durableAppend | appendBatch | checkpoint => cases hpc
  | submitEnqueue | durableEnqueue =>
    simp only [Pc.step, Shared.tryEnqueue]
    split_ifs <;> rfl
  | drainPop k got =>
    obtain ⟨ring, cache, wal, table, lsn, stop⟩ := sh
    simp only [Pc.step]
    split_ifs
    · cases ring <;> rfl
    · rfl
  | flushNowCheck | top | decide | finalDirty | finalAfter =>
    simp only [Pc.step]
    split_ifs <;> rfl
  | takeDirty =>
    simp only [Pc.step]
    split_ifs <;> rfl
  | persistBatch =>
    simp only [Pc.step]
    cases env.persist with
    | none => rfl
    | some e =>
      simp only
      split_ifs <;> rfl
  | watermark k count last =>
    simp only [Pc.step]
    cases sh.lsn.checkpointWatermark last <;> rfl
  | _ => rfl

end FluxThroughput.Engine.OnDisk
