import FluxThroughput.Wal.File

/-! # The log that a disk holds

`OnDisk`: the active segment is the image of a list of records, with a torn tail perhaps. `AtEnd`: a
writer stands at the end of the active segment. Each operation of the log is described on these terms.
The last section puts them together: while the writer is at the end, or is over a file that a rename
has replaced, the disk implements `Atomic.Log` (`Implements`). -/

namespace FluxThroughput.Wal.Refine

open FluxThroughput.Domain.Types FluxThroughput.Domain.Frame FluxThroughput.Lib.Frames
open FluxThroughput.Wal.Atomic FluxThroughput.Wal.Segment FluxThroughput.Wal.File

/-! ### Writing -/

section Overwrite
variable (bytes data : Bytes)

/-- A write at the end of a file appends. -/
theorem overwrite_end : overwrite bytes bytes.length data = bytes ++ data := by
  unfold overwrite
  split_ifs with h
  · rw [h, List.append_nil]
  · rw [List.take_length, Nat.sub_self, List.replicate_zero, List.nil_append,
      List.drop_eq_nil_of_le (Nat.le_add_right _ _), List.append_nil]

/-- A write at the start that covers the file replaces it. -/
theorem overwrite_start {bytes data : Bytes} (h : bytes.length ≤ data.length) (hne : data ≠ []) :
    overwrite bytes 0 data = data := by
  unfold overwrite
  rw [if_neg hne, List.take_zero, Nat.zero_sub, List.replicate_zero, List.nil_append,
    List.nil_append, List.drop_eq_nil_of_le (by omega), List.append_nil]

/-- A prefix written over another of the same string leaves the longer one. -/
theorem overwrite_take (bytes : Bytes) (m n : ℕ) :
    overwrite (bytes.take m) 0 (bytes.take n) = bytes.take (max m n) := by
  rcases le_total m n with hmn | hnm
  · rw [max_eq_right hmn]
    by_cases hne : bytes.take n = []
    · obtain ⟨t, ht⟩ := List.take_prefix_take_left (l := bytes) hmn
      rw [hne] at ht ⊢
      rw [(List.append_eq_nil_iff.mp ht).1]
      rfl
    · refine overwrite_start ?_ hne
      rw [List.length_take, List.length_take]
      omega
  · rw [max_eq_left hnm]
    obtain ⟨t, ht⟩ := List.take_prefix_take_left (l := bytes) hnm
    rw [← ht]
    unfold overwrite
    split_ifs with h
    · rfl
    · rw [List.take_zero, Nat.zero_sub, List.replicate_zero, List.nil_append, List.nil_append,
        Nat.zero_add, List.drop_left]

end Overwrite

/-! ### Images on disk -/

section OnDisk

/-- **The active segment is the image of `records`**, and then a tail that does not decode. -/
structure OnDisk (d : Disk) (file : ℕ) (records : List WalRecord) (torn : Bytes) : Prop where
  active : d.active = some file
  bytes : d.files file = image records ++ torn
  isTorn : codec.Torn torn
  fits : ∀ rec ∈ records, Fits rec
  used : file < d.next
  temp : ∀ tmp, d.temp = some tmp → tmp ≠ file ∧ tmp < d.next

/-- The writer stands at the end of a file, with nothing buffered. -/
structure AtEnd (d : Disk) (inner : Inner) (file : ℕ) : Prop where
  handle : inner.file = file
  cursor : inner.cursor = (d.files file).length
  buffer : inner.buffer = []

variable {d : Disk} {file : ℕ} {records : List WalRecord} {torn : Bytes} {inner : Inner}

theorem OnDisk.decode (h : OnDisk d file records torn) :
    decodeSegment (d.files file) = (records, (image records).length) := by
  rw [h.bytes]
  exact decodeSegment_image h.isTorn h.fits

/-- The active segment rewritten in place. -/
theorem OnDisk.setFile (h : OnDisk d file records torn) {records' : List WalRecord} {torn' : Bytes}
    (ht : codec.Torn torn') (hf : ∀ rec ∈ records', Fits rec) {bytes : Bytes}
    (hb : bytes = image records' ++ torn') : OnDisk (d.setFile file bytes) file records' torn' where
  active := h.active
  bytes := by rw [← hb]; exact Function.update_self ..
  isTorn := ht
  fits := hf
  used := h.used
  temp := h.temp

/-- Another file rewritten. -/
theorem OnDisk.setOther (h : OnDisk d file records torn) {other : ℕ} (hne : other ≠ file)
    (bytes : Bytes) : OnDisk (d.setFile other bytes) file records torn where
  active := h.active
  bytes := by rw [← h.bytes]; exact Function.update_of_ne hne.symm ..
  isTorn := h.isTorn
  fits := h.fits
  used := h.used
  temp := h.temp

/-- With nothing buffered there is nothing to flush. -/
theorem flushWriter_of_empty (hb : inner.buffer = []) : flushWriter d inner = (d, inner) := by
  unfold flushWriter Disk.write Disk.setFile overwrite
  rw [hb, if_pos rfl, Function.update_eq_self]
  cases inner
  cases hb
  rfl

/-- **Appending** frames to a whole segment. -/
theorem OnDisk.append (h : OnDisk d file records []) (hw : AtEnd d inner file)
    {batch : List WalRecord} (hf : ∀ rec ∈ batch, Fits rec) :
    OnDisk (d.write inner.file inner.cursor (codec.frames batch)) file (records ++ batch) [] := by
  rw [hw.handle, hw.cursor]
  refine h.setFile (Or.inl rfl) (fun rec hrec => ?_) ?_
  · exact (List.mem_append.mp hrec).elim (h.fits rec) (hf rec)
  · rw [overwrite_end, h.bytes, List.append_nil, List.append_nil, image_append]

/-- **A cut append** leaves the frames of the first records of the batch, and a torn one. -/
theorem OnDisk.appendCut (h : OnDisk d file records []) (hw : AtEnd d inner file)
    {batch : List WalRecord} (hf : ∀ rec ∈ batch, Fits rec) (n : ℕ) :
    ∃ m torn', OnDisk (appendKilled d inner batch n) file (records ++ batch.take m) torn' := by
  obtain ⟨m, t, htake, ht⟩ := Codec.exists_take_frames (C := codec) n hf
  refine ⟨m, t, ?_⟩
  unfold appendKilled
  rw [hw.buffer, List.nil_append, hw.handle, hw.cursor]
  refine h.setFile ht (fun rec hrec => ?_) ?_
  · exact (List.mem_append.mp hrec).elim (h.fits rec) fun hrec => hf rec (List.mem_of_mem_take hrec)
  · rw [overwrite_end, h.bytes, List.append_nil, htake, image_append, List.append_assoc]

/-! ### The temp segment -/

/-- Writing the temp segment leaves the active one. -/
theorem OnDisk.writeTemp (h : OnDisk d file records torn) (bytes : Bytes) :
    OnDisk (d.writeTemp bytes) file records torn := by
  have hused := h.used
  unfold Disk.writeTemp
  split
  · next tmp htmp => exact h.setOther (h.temp tmp htmp).1 bytes
  · refine ⟨h.active, ?_, h.isTorn, h.fits, h.used.trans (Nat.lt_succ_self _), ?_⟩
    · rw [← h.bytes]
      exact Function.update_of_ne hused.ne ..
    · intro tmp htmp
      obtain rfl := Option.some.inj htmp
      exact ⟨hused.ne', Nat.lt_succ_self _⟩

/-- The temp segment, written whole and renamed, is the active one. -/
theorem OnDisk.rename (h : OnDisk d file records torn) {records' : List WalRecord}
    (hf : ∀ rec ∈ records', Fits rec) : ∃ file', file' ≠ file ∧
    OnDisk (d.writeTemp (image records')).rename file' records' [] ∧
    (d.temp = some file' ∨ file' = d.next) := by
  have hnil : ∀ b : Bytes, b ++ [] = b := List.append_nil
  rcases htmp : d.temp with _ | tmp
  · refine ⟨d.next, h.used.ne', ⟨?_, ?_, Or.inl rfl, hf, ?_, ?_⟩, Or.inr rfl⟩
    · simp only [Disk.writeTemp, Disk.rename, htmp]
    · simp only [Disk.writeTemp, Disk.rename, Disk.setFile, htmp, Function.update_self, hnil]
    · simp only [Disk.writeTemp, Disk.rename, htmp]
      exact Nat.lt_succ_self _
    · intro tmp h1
      cases h1
  · obtain ⟨hne, hlt⟩ := h.temp tmp htmp
    refine ⟨tmp, hne, ⟨?_, ?_, Or.inl rfl, hf, ?_, ?_⟩, Or.inl rfl⟩
    · simp only [Disk.writeTemp, Disk.rename, Disk.setFile, htmp]
    · simp only [Disk.writeTemp, Disk.rename, Disk.setFile, htmp, Function.update_self, hnil]
    · simp only [Disk.writeTemp, Disk.rename, Disk.setFile, htmp]
      exact hlt
    · intro tmp h1
      cases h1

/-- Files are numbered upwards, and a temp segment is the old one or a new one. -/
structure Grows (d d' : Disk) : Prop where
  next : d.next ≤ d'.next
  temp : ∀ tmp, d'.temp = some tmp → d.temp = some tmp ∨ tmp = d.next

theorem grows_refl (d : Disk) : Grows d d := ⟨le_rfl, fun _ => Or.inl⟩

theorem grows_writeTemp (d : Disk) (bytes : Bytes) : Grows d (d.writeTemp bytes) := by
  unfold Disk.writeTemp
  split
  · exact ⟨le_rfl, fun _ => Or.inl⟩
  · exact ⟨Nat.le_succ _, fun tmp htmp => Or.inr (Option.some.inj htmp).symm⟩

theorem grows_rename (d : Disk) (bytes : Bytes) : Grows d (d.writeTemp bytes).rename :=
  ⟨(grows_writeTemp d bytes).next, fun tmp htmp => by cases htmp⟩

theorem grows_checkpointStopped (d : Disk) (k : Lsn) (bytes : Bytes) (stop : Stop) :
    Grows d (checkpointStopped d k bytes stop) := by
  cases stop with
  | flush | read | openTemp => exact grows_refl d
  | writeTemp n => exact grows_writeTemp d _
  | syncTemp | rename => exact grows_writeTemp d _
  | syncDir | reopen | seek => exact grows_rename d _

theorem fits_survivors (h : OnDisk d file records torn) (k : Lsn) :
    ∀ rec ∈ Log.survivors k records, Fits rec :=
  fun rec hrec => h.fits rec (Log.mem_survivors.mp hrec).1

theorem OnDisk.survivors_eq (h : OnDisk d file records torn) (k : Lsn) :
    File.survivors (d.files file) k = Log.survivors k records := by
  rw [File.survivors, h.decode]

end OnDisk

/-! ### The operations -/

section Operations
variable {d : Disk} {file : ℕ} {records batch : List WalRecord} {torn : Bytes} {inner : Inner} {k : Lsn}

theorem appendBatch_eq (hb : inner.buffer = []) (hne : batch ≠ []) :
    appendBatch d inner batch = (Log.highLsn inner.lastLsn batch,
      d.write inner.file inner.cursor (codec.frames batch),
      { inner with
        cursor := inner.cursor + (codec.frames batch).length
        writeOffset := inner.writeOffset + (codec.frames batch).length
        lastLsn := Log.highLsn inner.lastLsn batch }) := by
  unfold appendBatch flushWriter
  rw [if_neg hne, hb]
  rfl

/-- **`append_batch` at the end of a whole segment** adds the batch. -/
theorem OnDisk.appendBatch (h : OnDisk d file records []) (hw : AtEnd d inner file)
    (hf : ∀ rec ∈ batch, Fits rec) : OnDisk (appendBatch d inner batch).2.1 file (records ++ batch) [] ∧
      AtEnd (appendBatch d inner batch).2.1 (appendBatch d inner batch).2.2 file := by
  by_cases hne : batch = []
  · rw [hne, File.appendBatch, if_pos rfl, List.append_nil]
    exact ⟨h, hw⟩
  · rw [appendBatch_eq hw.buffer hne]
    refine ⟨h.append hw hf, hw.handle, ?_, hw.buffer⟩
    simp only [Disk.write, Disk.setFile, hw.handle, hw.cursor, Function.update_self, overwrite_end,
      List.length_append]

/-- **`append_batch` through the handle of another file** does not reach the segment. -/
theorem OnDisk.appendElsewhere (h : OnDisk d file records torn) (hb : inner.buffer = [])
    (hne : inner.file ≠ file) : OnDisk (File.appendBatch d inner batch).2.1 file records torn := by
  by_cases hnil : batch = []
  · rw [hnil, File.appendBatch, if_pos rfl]
    exact h
  · rw [appendBatch_eq hb hnil]
    exact h.setOther hne _

/-- **A successful `checkpoint`** leaves the surviving records, and the writer at their end. -/
theorem OnDisk.checkpoint (h : OnDisk d file records torn) (hb : inner.buffer = []) (k : Lsn) :
    ∃ d' file', File.checkpoint d inner k none = (true, d', Inner.new file' (d'.files file').length
        (max (((Log.survivors k records).map WalRecord.lsn).max?.getD k) k)) ∧
      OnDisk d' file' (Log.survivors k records) [] := by
  obtain ⟨file', -, h', -⟩ := h.rename (fits_survivors h k)
  refine ⟨_, file', ?_, h'⟩
  have hread : d.readAll = some (d.files file) := by rw [Disk.readAll, h.active]; rfl
  unfold File.checkpoint
  rw [if_neg (by simp), flushWriter_of_empty hb]
  simp only [hread, h.survivors_eq, h'.active, h'.bytes, List.append_nil]

/-- **A `checkpoint` that stops** before its rename leaves the log, and after it the survivors in another
file. The writer stays as it was. -/
theorem OnDisk.checkpointStopped (h : OnDisk d file records torn) (hb : inner.buffer = []) (k : Lsn)
    (stop : Stop) : ∃ d', File.checkpoint d inner k (some stop) = (false, d', inner) ∧ Grows d d' ∧
      if stop.renamed = true then
        ∃ file', file' ≠ file ∧ OnDisk d' file' (Log.survivors k records) [] ∧
          (d.temp = some file' ∨ file' = d.next)
      else OnDisk d' file records torn := by
  have hread : d.readAll = some (d.files file) := by rw [Disk.readAll, h.active]; rfl
  obtain ⟨file', hne, h', hfile⟩ := h.rename (fits_survivors h k)
  have hgrows := grows_checkpointStopped d k (d.files file) stop
  unfold File.checkpoint
  rw [flushWriter_of_empty hb]
  simp only [hread]
  cases stop <;> refine ⟨_, rfl, hgrows, ?_⟩ <;>
    simp only [Stop.renamed, if_true, Bool.false_eq_true, if_false, File.checkpointStopped,
      h.survivors_eq]
  · exact h
  · exact h
  · exact h
  · exact h.writeTemp _
  · exact h.writeTemp _
  · exact h.writeTemp _
  · exact ⟨file', hne, h', hfile⟩
  · exact ⟨file', hne, h', hfile⟩
  · exact ⟨file', hne, h', hfile⟩

/-- **`open`** on an existing segment changes nothing, and stands at its end. -/
theorem OnDisk.openWal (h : OnDisk d file records torn) :
    openWal d = some (d, Inner.new file (d.files file).length 0) := by
  have hlen := headerLen_le_image records
  have hge : ¬ (d.files file).length < headerLen := by
    rw [h.bytes, List.length_append]
    omega
  have hmagic : (d.files file).take headerLen = headerMagic := by
    rw [h.bytes, take_image]
  unfold File.openWal Disk.openActive
  simp only [h.active]
  rw [if_neg hge, if_neg (not_not.mpr hmagic)]

/-- `open` cut on a segment with a header changes nothing. -/
theorem OnDisk.openKilled (h : OnDisk d file records torn) (n : ℕ) : openKilled d n = d := by
  have hlen := headerLen_le_image records
  have hge : ¬ (d.files file).length < headerLen := by
    rw [h.bytes, List.length_append]
    omega
  unfold File.openKilled Disk.openActive
  simp only [h.active]
  rw [if_neg hge]

/-- On a whole segment `recover` sets the bookkeeping only. -/
theorem OnDisk.recoverWhole (h : OnDisk d file records []) (hb : inner.buffer = []) :
    recover d inner = some (records, d,
      { inner with
        writeOffset := (image records).length
        lastLsn := (records.map WalRecord.lsn).max?.getD 0 }) := by
  have hlen : ¬ (image records).length < (d.files file).length := by
    rw [h.bytes, List.append_nil]
    exact lt_irrefl _
  unfold recover
  rw [flushWriter_of_empty hb]
  simp only [h.active, h.decode]
  rw [if_neg hlen]

/-- **`recover`** returns the records and cuts off the torn tail. Again, it changes nothing. -/
theorem OnDisk.recover (h : OnDisk d file records torn) (hw : AtEnd d inner file) :
    ∃ d' inner', recover d inner = some (records, d', inner') ∧ OnDisk d' file records [] ∧
      AtEnd d' inner' file ∧ File.recover d' inner' = some (records, d', inner') := by
  by_cases ht : torn = []
  · subst ht
    refine ⟨d, _, h.recoverWhole hw.buffer, h, ⟨hw.handle, hw.cursor, hw.buffer⟩, ?_⟩
    exact h.recoverWhole hw.buffer
  · have hpos : 0 < torn.length := List.length_pos_iff.mpr ht
    have hlen : (image records).length < (d.files file).length := by
      rw [h.bytes, List.length_append]
      omega
    have htake : (d.files file).take (image records).length = image records := by
      rw [h.bytes, List.take_left]
    have h' : OnDisk (d.setFile file (image records)) file records [] :=
      h.setFile (Or.inl rfl) h.fits (List.append_nil _).symm
    refine ⟨d.setFile file (image records), Inner.new file (image records).length
      ((records.map WalRecord.lsn).max?.getD 0), ?_, h', ⟨rfl, ?_, rfl⟩, ?_⟩
    · unfold File.recover
      rw [flushWriter_of_empty hw.buffer]
      simp only [h.active, h.decode]
      rw [if_pos hlen, htake]
    · rw [h'.bytes, List.append_nil]
      rfl
    · rw [h'.recoverWhole rfl]
      rfl

/-- `recover` cut leaves the same records, with their torn tail or without. -/
theorem OnDisk.recoverKilled (h : OnDisk d file records torn) (hw : AtEnd d inner file)
    (truncated : Bool) : ∃ torn', OnDisk (recoverKilled d inner truncated) file records torn' := by
  obtain ⟨d', inner', hr, h', -⟩ := h.recover hw
  unfold File.recoverKilled
  cases truncated with
  | true =>
    rw [if_pos rfl, hr]
    exact ⟨[], h'⟩
  | false =>
    rw [if_neg (by simp), flushWriter_of_empty hw.buffer]
    exact ⟨torn, h⟩

/-- The segment that `open` creates in an empty directory. -/
theorem openWal_empty : ∃ d, openWal Disk.empty = some (d, Inner.new 0 (d.files 0).length 0) ∧
    OnDisk d 0 [] [] ∧ d.temp = none := by
  refine ⟨_, rfl, ⟨rfl, rfl, Or.inl rfl, fun rec hrec => ?_, Nat.zero_lt_one, fun tmp htmp => ?_⟩, rfl⟩
  · cases hrec
  · cases htmp

theorem atEnd_new {lsn : Lsn} : AtEnd d (Inner.new file (d.files file).length lsn) file :=
  ⟨rfl, rfl, rfl⟩

end Operations

/-! ### The atomic log -/

/-- **The disk implements the atomic log**: attached, the writer stands at the end of the active
segment; detached, it is over a file that the names no longer reach. -/
structure Implements (d : Disk) (inner : Inner) (log : Log) : Prop where
  stored : ∃ file, OnDisk d file log.records [] ∧
    (log.attached = true → AtEnd d inner file) ∧ (log.attached = false → inner.file ≠ file)
  buffer : inner.buffer = []
  lastLsn : inner.lastLsn = log.lastLsn
  used : inner.file < d.next
  temp : d.temp ≠ some inner.file

section Implements
variable {d : Disk} {inner : Inner} {log : Log} {batch : List WalRecord} {k : Lsn}

theorem implements_empty : ∃ d inner, openWal Disk.empty = some (d, inner) ∧
    Implements d inner Log.empty := by
  obtain ⟨d, hopen, h, htemp⟩ := openWal_empty
  refine ⟨d, _, hopen, ⟨0, h, fun _ => atEnd_new, fun h1 => by cases h1⟩, rfl, rfl, h.used, ?_⟩
  rw [htemp]
  exact (Option.some_ne_none _).symm

theorem Implements.appendBatch (h : Implements d inner log) (hf : ∀ rec ∈ batch, Fits rec) :
    (File.appendBatch d inner batch).1 = (log.appendBatch batch).1 ∧
    Implements (File.appendBatch d inner batch).2.1 (File.appendBatch d inner batch).2.2
      (log.appendBatch batch).2 := by
  obtain ⟨file, hd, hatt, hdet⟩ := h.stored
  by_cases hne : batch = []
  · subst hne
    exact ⟨h.lastLsn, h⟩
  · have hstored : ∃ file, OnDisk (File.appendBatch d inner batch).2.1 file
          (log.appendBatch batch).2.records [] ∧
        ((log.appendBatch batch).2.attached = true → AtEnd (File.appendBatch d inner batch).2.1
          (File.appendBatch d inner batch).2.2 file) ∧
        ((log.appendBatch batch).2.attached = false →
          (File.appendBatch d inner batch).2.2.file ≠ file) := by
      refine ⟨file, ?_⟩
      rw [Log.records_appendBatch, Log.attached_appendBatch]
      rcases ha : log.attached with _ | _
      · rw [Log.landing, ha, if_neg (by simp), List.append_nil]
        refine ⟨hd.appendElsewhere h.buffer (hdet ha), fun h1 => (by cases h1), fun _ => ?_⟩
        rw [appendBatch_eq h.buffer hne]
        exact hdet ha
      · rw [Log.landing_of_attached ha]
        obtain ⟨h1, h2⟩ := hd.appendBatch (hatt ha) hf
        exact ⟨h1, fun _ => h2, fun h3 => by cases h3⟩
    rw [appendBatch_eq h.buffer hne] at hstored ⊢
    unfold Log.appendBatch at hstored ⊢
    rw [if_neg hne] at hstored ⊢
    rw [h.lastLsn] at hstored ⊢
    exact ⟨rfl, hstored, h.buffer, rfl, h.used, h.temp⟩

theorem Implements.checkpoint (h : Implements d inner log) (k : Lsn) : ∃ d' inner',
    File.checkpoint d inner k none = (true, d', inner') ∧ Implements d' inner' (log.checkpoint k) := by
  obtain ⟨file, hd, -, -⟩ := h.stored
  obtain ⟨d', file', hc, hd'⟩ := hd.checkpoint h.buffer k
  refine ⟨d', _, hc, ⟨file', hd', fun _ => atEnd_new, fun h1 => by cases h1⟩, rfl, rfl, hd'.used, ?_⟩
  intro htemp
  exact (hd'.temp _ htemp).1 rfl

theorem Implements.checkpointStopped (h : Implements d inner log) (k : Lsn) (stop : Stop) :
    ∃ d', File.checkpoint d inner k (some stop) = (false, d', inner) ∧
      Implements d' inner (if stop.renamed then log.checkpointFailedAfter k else log) := by
  obtain ⟨file, hd, hatt, hdet⟩ := h.stored
  obtain ⟨d', hc, hg, hd'⟩ := hd.checkpointStopped h.buffer k stop
  have hused : inner.file < d'.next := h.used.trans_le hg.next
  have htemp : d'.temp ≠ some inner.file := fun h1 =>
    (hg.temp _ h1).elim h.temp fun h2 => h.used.ne h2
  refine ⟨d', hc, ?_⟩
  split_ifs with hr
  · rw [if_pos hr] at hd'
    obtain ⟨file', -, hd', hfile⟩ := hd'
    refine ⟨⟨file', hd', fun h1 => (by cases h1), fun _ h1 => ?_⟩, h.buffer, h.lastLsn, hused, htemp⟩
    rcases hfile with hfile | hfile
    · exact h.temp (h1 ▸ hfile)
    · exact h.used.ne (h1.trans hfile)
  · rw [if_neg hr] at hd'
    refine ⟨⟨file, hd', fun h1 => ?_, hdet⟩, h.buffer, h.lastLsn, hused, htemp⟩
    have hw := hatt h1
    refine ⟨hw.handle, ?_, hw.buffer⟩
    rw [hw.cursor, hd.bytes, hd'.bytes]

/-- What a later `open` and `recover` return. -/
theorem Implements.reopen (h : Implements d inner log) : ∃ d' inner' d'' inner'',
    openWal d = some (d', inner') ∧ recover d' inner' = some (log.records, d'', inner'') := by
  obtain ⟨file, hd, -, -⟩ := h.stored
  obtain ⟨d'', inner'', hr, -⟩ := hd.recover atEnd_new
  exact ⟨d, _, d'', inner'', hd.openWal, hr⟩

end Implements

end FluxThroughput.Wal.Refine
