import FluxThroughput.Lib.Transition
import FluxThroughput.Store.Converge
import FluxThroughput.Store.DiskRecord

/-! # The store on disk

`DiskKvStore`: frames appended through a buffered writer to one data file, and an index in memory that is
rebuilt from the file when the store is opened. A call meets the file as it is: after some number of bytes a
write may fail, and so may the sync; a process may be killed after any number of bytes. The capacity of the
writer's buffer is a parameter. -/

namespace FluxThroughput.Store.DiskKv

open FluxThroughput.Domain.Types FluxThroughput.Lib.LastWriteWins FluxThroughput.Lib.Transition
open FluxThroughput.Store.DiskRecord

/-! ### The index -/

/-- A hash map of states: the entries, and the set of its keys. -/
structure Index where
  map : PlayerId → Option PlayerState
  keys : Finset PlayerId
  mem_keys : ∀ id, id ∈ keys ↔ (map id).isSome

namespace Index

def empty : Index := { map := fun _ => none, keys := ∅, mem_keys := fun id => by simp }

def insert (index : Index) (st : PlayerState) : Index where
  map := Function.update index.map st.playerId (some st)
  keys := Insert.insert st.playerId index.keys
  mem_keys id := by
    by_cases hid : id = st.playerId
    · subst hid
      simp
    · rw [Finset.mem_insert, Function.update_of_ne hid, index.mem_keys]
      exact or_iff_right hid

/-- One state under last-write-wins: a stale one is skipped. -/
def upsert (index : Index) (st : PlayerState) : Index :=
  match index.map st.playerId with
  | some existing => if st.version < existing.version then index else index.insert st
  | none => index.insert st

/-- `load`. -/
def load (index : Index) (id : PlayerId) : Option PlayerState := index.map id

/-- `count`. -/
def count (index : Index) : ℕ := index.keys.card

end Index

/-! ### The buffered writer -/

/-- The data file under a call. `room` is the number of bytes it still takes before a write fails. -/
structure Io where
  file : Bytes
  room : Option ℕ

/-- `write_all` to the file, opened for appending: whether it succeeds, and what it has written. -/
def Io.writeAll (io : Io) (data : Bytes) : Bool × Io :=
  match io.room with
  | none => (true, { io with file := io.file ++ data })
  | some room =>
    (decide (data.length ≤ room),
      { file := io.file ++ data.take room, room := some (room - data.length) })

/-- `BufWriter::flush_buf`. What was not written stays buffered. -/
def flushBuf (io : Io) (buffer : Bytes) : Bool × Io × Bytes :=
  match io.room with
  | none => ((io.writeAll buffer).1, (io.writeAll buffer).2, [])
  | some room => ((io.writeAll buffer).1, (io.writeAll buffer).2, buffer.drop room)

/-- `BufWriter::write_all`. Data as large as the buffer goes straight to the file. -/
def bufWriteAll (capacity : ℕ) (io : Io) (buffer data : Bytes) : Bool × Io × Bytes :=
  if data.length < capacity - buffer.length then (true, io, buffer ++ data)
  else
    let (ok, io, buffer) :=
      if capacity - buffer.length < data.length then flushBuf io buffer else (true, io, buffer)
    if !ok then (false, io, buffer)
    else if capacity ≤ data.length then ((io.writeAll data).1, (io.writeAll data).2, buffer)
    else (true, io, buffer ++ data)

/-! ### The store -/

/-- The process's part of the store: the writer's buffer, and the index. -/
structure Inner where
  buffer : Bytes
  index : Index

/-- What a call meets: a write that fails when some bytes have been written, and a sync that fails, each
with the system's message. -/
structure Faults where
  write : Option (ℕ × String)
  sync : Option String
  deriving DecidableEq, Repr

def Faults.none : Faults := { write := Option.none, sync := Option.none }

/-- The frames of the batch, up to the first that is not written. -/
def appendAll (capacity : ℕ) : Io → Bytes → List PlayerState → Bool × Io × Bytes
  | io, buffer, [] => (true, io, buffer)
  | io, buffer, st :: states =>
    match bufWriteAll capacity io buffer (encodeRecord st) with
    | (true, io, buffer) => appendAll capacity io buffer states
    | (false, io, buffer) => (false, io, buffer)

/-- **`persist_batch`**: the answer, the file and the process after it. The index is updated last. -/
def persistBatch (capacity : ℕ) (file : Bytes) (inner : Inner) (states : List PlayerState)
    (faults : Faults) : Except StoreError Unit × Bytes × Inner :=
  if states = [] then (.ok (), file, inner)
  else
    let err := (faults.write.map Prod.snd).getD ""
    match appendAll capacity ⟨file, faults.write.map Prod.fst⟩ inner.buffer states with
    | (false, io, buffer) =>
      (.error (.transient ("disk append failed: " ++ err)), io.file, { inner with buffer := buffer })
    | (true, io, buffer) =>
      match flushBuf io buffer, faults.sync with
      | (false, io, buffer), _ =>
        (.error (.transient ("disk flush failed: " ++ err)), io.file, { inner with buffer := buffer })
      | (true, io, buffer), some e =>
        (.error (.transient ("disk sync_data failed: " ++ e)), io.file, { inner with buffer := buffer })
      | (true, io, buffer), none =>
        (.ok (), io.file, { buffer := buffer, index := states.foldl Index.upsert inner.index })

/-! ### Opening -/

/-- The replay of the file from an offset on. A frame takes at least one byte, so the length of the file is
enough fuel. -/
def replay (bytes : Bytes) : ℕ → ℕ → Index → Index × ℕ
  | 0, offset, index => (index, offset)
  | fuel + 1, offset, index =>
    if offset < bytes.length then
      match decodeRecord (bytes.drop offset) with
      | .record st consumed => replay bytes fuel (offset + consumed) (index.upsert st)
      | .tornTail => (index, offset)
    else (index, offset)

/-- `rebuild_index`: the index, and the offset just past the last good frame. -/
def rebuildIndex : Option Bytes → Index × ℕ
  | none => (Index.empty, 0)
  | some bytes => replay bytes bytes.length 0 Index.empty

/-- **`open`**: the file without its torn tail, and the store. -/
def openStore (disk : Option Bytes) : Bytes × Inner :=
  let (index, goodLen) := rebuildIndex disk
  let bytes := disk.getD []
  (if goodLen < bytes.length then bytes.take goodLen else bytes, { buffer := [], index := index })

/-- Where `open` stops, by an error or by a kill. -/
inductive Stop
  | read
  | create
  | truncate
  deriving DecidableEq, Repr

/-- The data file when `open` has stopped. -/
def openStopped (disk : Option Bytes) : Stop → Option Bytes
  | .read => disk
  | .create => some (disk.getD [])
  | .truncate => some (openStore disk).1

/-! ### Runs -/

/-- The data file, if there is one, and the process that uses it, if there is one. -/
structure Node where
  disk : Option Bytes
  proc : Option Inner

/-- A call, a call that is cut, or the end of the process: closing the store flushes the writer's buffer as
far as the file takes it, a kill does not. -/
inductive Action
  | openStore
  | openStopped (stop : Stop)
  | persistBatch (states : List PlayerState) (faults : Faults)
  | persistKilled (states : List PlayerState) (written : ℕ)
  | close (room : Option ℕ)
  | kill

inductive Event
  | opened
  | down
  | persisted (states : List PlayerState)
  | failed (states : List PlayerState) (e : StoreError)
  | cut (states : List PlayerState)
  deriving DecidableEq

def Node.step (capacity : ℕ) (s : Node) (a : Action) : Option (Node × List Event) :=
  match s.proc, a with
  | none, .openStore =>
    some (⟨some (DiskKv.openStore s.disk).1, some (DiskKv.openStore s.disk).2⟩, [.opened])
  | none, .openStopped stop => some (⟨DiskKv.openStopped s.disk stop, none⟩, [.down])
  | some inner, .persistBatch states faults =>
    match DiskKv.persistBatch capacity (s.disk.getD []) inner states faults with
    | (.ok (), file, inner) => some (⟨some file, some inner⟩, [.persisted states])
    | (.error e, file, inner) => some (⟨some file, some inner⟩, [.failed states e])
  | some inner, .persistKilled states written =>
    let x := DiskKv.persistBatch capacity (s.disk.getD []) inner states ⟨some (written, ""), none⟩
    some (⟨some x.2.1, none⟩, [.cut states])
  | some inner, .close room =>
    some (⟨some (flushBuf ⟨s.disk.getD [], room⟩ inner.buffer).2.1.file, none⟩, [.down])
  | some _, .kill => some (⟨s.disk, none⟩, [.down])
  | _, _ => none

/-- A store that has never been opened. -/
def system (capacity : ℕ) : System Node Action Event where
  init s := s = ⟨none, none⟩
  step := Node.step capacity

end FluxThroughput.Store.DiskKv
