import FluxThroughput.Domain.Types

/-! # The log as the engine sees it

The write-ahead log with its calls taken as atomic: the records that recovery would read, oldest
first, and the highest LSN the log reports. While `attached` fails, what is appended goes where
recovery does not read it: behind a torn frame, or into a file that a rename has replaced. The next
successful checkpoint, or recovery, ends that. -/

namespace FluxThroughput.Wal.Atomic

open FluxThroughput.Domain.Types

structure Log where
  records : List WalRecord
  lastLsn : Lsn
  attached : Bool
  deriving DecidableEq, Repr

namespace Log

def empty : Log := { records := [], lastLsn := 0, attached := true }

/-- What becomes readable of the frames written now. -/
def landing (log : Log) (batch : List WalRecord) : List WalRecord :=
  if log.attached then batch else []

/-- The high-water mark after a batch. -/
def highLsn (last : Lsn) (batch : List WalRecord) : Lsn :=
  batch.foldl (fun high rec => if high < rec.lsn then rec.lsn else high) last

/-- `append_batch` returning `Ok`: the highest LSN, and the log with the batch at its end. -/
def appendBatch (log : Log) (batch : List WalRecord) : Lsn × Log :=
  if batch = [] then (log.lastLsn, log)
  else
    (highLsn log.lastLsn batch,
      { log with
        records := log.records ++ log.landing batch
        lastLsn := highLsn log.lastLsn batch })

/-- `append_batch` returning an error, with the first `landed` frames whole in the file and
possibly a torn one behind them. -/
def appendFailed (log : Log) (batch : List WalRecord) (landed : ℕ) (torn : Bool) : Log :=
  { log with
    records := log.records ++ log.landing (batch.take landed)
    attached := log.attached && !torn }

/-- The records a checkpoint keeps. -/
def survivors (upTo : Lsn) (records : List WalRecord) : List WalRecord :=
  records.filter fun rec => upTo < rec.lsn

/-- `checkpoint` returning `Ok`. -/
def checkpoint (log : Log) (upTo : Lsn) : Log :=
  { records := survivors upTo log.records
    lastLsn := max (((survivors upTo log.records).map WalRecord.lsn).max?.getD upTo) upTo
    attached := true }

/-- `checkpoint` returning an error after its rename: the writer still holds the replaced file. -/
def checkpointFailedAfter (log : Log) (upTo : Lsn) : Log :=
  { log with records := survivors upTo log.records, attached := false }

/-- `open` and `recover`: the records, and the high-water mark reset to theirs. -/
def recover (log : Log) : List WalRecord × Log :=
  (log.records,
    { log with lastLsn := (log.records.map WalRecord.lsn).max?.getD 0, attached := true })

theorem mem_survivors {upTo : Lsn} {records : List WalRecord} {rec : WalRecord} :
    rec ∈ survivors upTo records ↔ rec ∈ records ∧ upTo < rec.lsn := by
  simp [survivors]

@[simp] theorem records_appendBatch (log : Log) (batch : List WalRecord) :
    (log.appendBatch batch).2.records = log.records ++ log.landing batch := by
  unfold appendBatch landing
  split_ifs <;> simp_all

@[simp] theorem attached_appendBatch (log : Log) (batch : List WalRecord) :
    (log.appendBatch batch).2.attached = log.attached := by
  unfold appendBatch
  split_ifs <;> rfl

theorem landing_of_attached {log : Log} (h : log.attached = true) (batch : List WalRecord) :
    log.landing batch = batch := if_pos h

end Log

end FluxThroughput.Wal.Atomic
