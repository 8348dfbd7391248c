import FluxThroughput.Wal.Atomic
import FluxThroughput.Wal.Segment

/-! # The log on disk

The directory of the log with its two names, the files behind them, and the writer that a `Wal` holds.
A writer writes to the file it was opened on, whatever name that file has now. What a call leaves on
disk when it is killed, or when one of its steps fails, is modelled by where it stops. -/

namespace FluxThroughput.Wal.File

open FluxThroughput.Domain.Types FluxThroughput.Domain.Frame FluxThroughput.Wal.Atomic
open FluxThroughput.Wal.Segment

/-! ### Files -/

/-- The directory: `wal-0.log` and `wal-0.log.tmp`, if they exist, and the files by number. -/
structure Disk where
  files : ℕ → Bytes
  /-- the number of the next file to be created -/
  next : ℕ
  active : Option ℕ
  temp : Option ℕ

/-- The file's bytes after a write at an offset. -/
def overwrite (bytes : Bytes) (pos : ℕ) (data : Bytes) : Bytes :=
  if data = [] then bytes
  else bytes.take pos ++ (List.replicate (pos - bytes.length) 0 ++ (data ++
    bytes.drop (pos + data.length)))

namespace Disk

def empty : Disk := { files := fun _ => [], next := 0, active := none, temp := none }

def setFile (d : Disk) (file : ℕ) (bytes : Bytes) : Disk :=
  { d with files := Function.update d.files file bytes }

def write (d : Disk) (file pos : ℕ) (data : Bytes) : Disk :=
  d.setFile file (overwrite (d.files file) pos data)

/-- The active segment opened with `create(true)`. -/
def openActive (d : Disk) : Disk × ℕ :=
  match d.active with
  | some file => (d, file)
  | none => ({ d.setFile d.next [] with next := d.next + 1, active := some d.next }, d.next)

/-- The temp segment opened with `create(true)` and `truncate(true)`, and then written. -/
def writeTemp (d : Disk) (bytes : Bytes) : Disk :=
  match d.temp with
  | some file => d.setFile file bytes
  | none => { d.setFile d.next bytes with next := d.next + 1, temp := some d.next }

/-- `rename` of the temp segment over the active one. -/
def rename (d : Disk) : Disk := { d with active := d.temp, temp := none }

/-- `read_all` of the active segment. -/
def readAll (d : Disk) : Option Bytes := d.active.map d.files

end Disk

/-! ### The writer -/

/-- The mutable interior of a `Wal`: its `BufWriter` over a file, and its bookkeeping. -/
structure Inner where
  file : ℕ
  cursor : ℕ
  buffer : Bytes
  writeOffset : ℕ
  lastLsn : Lsn
  deriving DecidableEq

/-- `BufWriter::new` over a file, positioned at `pos`. -/
def Inner.new (file pos : ℕ) (lastLsn : Lsn) : Inner :=
  { file := file, cursor := pos, buffer := [], writeOffset := pos, lastLsn := lastLsn }

/-- `BufWriter::flush`. -/
def flushWriter (d : Disk) (inner : Inner) : Disk × Inner :=
  (d.write inner.file inner.cursor inner.buffer,
    { inner with cursor := inner.cursor + inner.buffer.length, buffer := [] })

/-! ### Open -/

/-- `Wal::open`: fails on a file with another magic. -/
def openWal (d : Disk) : Option (Disk × Inner) :=
  let (d, file) := d.openActive
  let existingLen := (d.files file).length
  if existingLen < headerLen then
    some (d.write file 0 headerMagic, Inner.new file headerLen 0)
  else if (d.files file).take headerLen ≠ headerMagic then none
  else some (d, Inner.new file existingLen 0)

/-- `Wal::open` killed when `n` bytes of the header are written. -/
def openKilled (d : Disk) (n : ℕ) : Disk :=
  let (d, file) := d.openActive
  if (d.files file).length < headerLen then d.write file 0 (headerMagic.take n) else d

/-! ### Append -/

/-- `append_batch`: the highest LSN, and the disk and the writer after it. -/
def appendBatch (d : Disk) (inner : Inner) (records : List WalRecord) : Lsn × Disk × Inner :=
  if records = [] then (inner.lastLsn, d, inner)
  else
    let frames := codec.frames records
    let (d, inner) := flushWriter d { inner with buffer := inner.buffer ++ frames }
    let highLsn := Log.highLsn inner.lastLsn records
    (highLsn, d,
      { inner with writeOffset := inner.writeOffset + frames.length, lastLsn := highLsn })

/-- `append_batch` killed when `n` bytes have reached the file. -/
def appendKilled (d : Disk) (inner : Inner) (records : List WalRecord) (n : ℕ) : Disk :=
  d.write inner.file inner.cursor ((inner.buffer ++ codec.frames records).take n)

/-! ### Checkpoint -/

/-- The step of `checkpoint` at which it stops, by an error or by a kill. Writing the temp segment may
stop after any number of bytes. -/
inductive Stop
  | flush
  | read
  | openTemp
  | writeTemp (n : ℕ)
  | syncTemp
  | rename
  | syncDir
  | reopen
  | seek
  deriving DecidableEq, Repr

/-- The rename has been made when the later steps fail. -/
def Stop.renamed : Stop → Bool
  | .syncDir => true
  | .reopen => true
  | .seek => true
  | _ => false

/-- The records of the active segment that the checkpoint keeps. -/
def survivors (bytes : Bytes) (upToLsn : Lsn) : List WalRecord :=
  Log.survivors upToLsn (decodeSegment bytes).1

/-- The disk when the checkpoint stops at a step. -/
def checkpointStopped (d : Disk) (upToLsn : Lsn) (bytes : Bytes) : Stop → Disk
  | .flush => d
  | .read => d
  | .openTemp => d
  | .writeTemp n => d.writeTemp ((image (survivors bytes upToLsn)).take n)
  | .syncTemp => d.writeTemp (image (survivors bytes upToLsn))
  | .rename => d.writeTemp (image (survivors bytes upToLsn))
  | .syncDir => (d.writeTemp (image (survivors bytes upToLsn))).rename
  | .reopen => (d.writeTemp (image (survivors bytes upToLsn))).rename
  | .seek => (d.writeTemp (image (survivors bytes upToLsn))).rename

/-- `checkpoint`, failing at a step or not: whether it returns `Ok`, and the disk and the writer after
it. The writer is replaced at the end only. -/
def checkpoint (d : Disk) (inner : Inner) (upToLsn : Lsn) (stop : Option Stop) :
    Bool × Disk × Inner :=
  if stop = some .flush then (false, d, inner)
  else
    let (d, inner) := flushWriter d inner
    match d.readAll, stop with
    | none, _ => (false, d, inner)
    | some bytes, some stop => (false, checkpointStopped d upToLsn bytes stop, inner)
    | some bytes, none =>
      let survivors := survivors bytes upToLsn
      let d := (d.writeTemp (image survivors)).rename
      match d.active with
      | none => (false, d, inner)
      | some file =>
        let maxSurvivor := (survivors.map WalRecord.lsn).max?
        (true, d, Inner.new file (image survivors).length (max (maxSurvivor.getD upToLsn) upToLsn))

/-! ### Recover and flush -/

/-- `recover`: the records, and the disk and the writer after it. A torn tail is truncated away. -/
def recover (d : Disk) (inner : Inner) : Option (List WalRecord × Disk × Inner) :=
  let (d, inner) := flushWriter d inner
  match d.active with
  | none => none
  | some file =>
    let bytes := d.files file
    let (records, goodEnd) := decodeSegment bytes
    let lastLsn := (records.map WalRecord.lsn).max?.getD 0
    if goodEnd < bytes.length then
      some (records, d.setFile file (bytes.take goodEnd), Inner.new file goodEnd lastLsn)
    else some (records, d, { inner with writeOffset := goodEnd, lastLsn := lastLsn })

/-- `recover` killed before the truncation, or after it. -/
def recoverKilled (d : Disk) (inner : Inner) (truncated : Bool) : Disk :=
  if truncated then
    match recover d inner with
    | some (_, d, _) => d
    | none => d
  else (flushWriter d inner).1

/-- `flush`. -/
def flush (d : Disk) (inner : Inner) : Disk × Inner := flushWriter d inner

end FluxThroughput.Wal.File
