import FluxThroughput.Domain.Decode
import FluxThroughput.Lib.Transition
import FluxThroughput.Wal.Refine

/-! # Appends that fail

A process appends, checkpoints and recovers, and any append may fail part-way. What it leaves is some bytes
more in the file, and perhaps more in the writer's buffer: a failed flush of the buffer keeps what it has
not written, a frame that is passed straight to the file is torn. What is in the file and in the buffer
together is `content`: the frames of a log, and then a tail that does not decode (`Holds`). While every
append that succeeds meets a content without such a tail, nothing acknowledged is lost
(`acknowledged_recovered`). -/

namespace FluxThroughput.Wal.AppendFail

open FluxThroughput.Domain.Types FluxThroughput.Domain.Frame FluxThroughput.Domain.Decode
open FluxThroughput.Lib.Frames FluxThroughput.Lib.LittleEndian FluxThroughput.Lib.Transition
open FluxThroughput.Wal.Atomic
open FluxThroughput.Wal.Segment FluxThroughput.Wal.File FluxThroughput.Wal.Refine

/-! ### Failing appends -/

/-- Where an append fails. Either flushing the buffer fails, when the frames of the first `accepted` records
are in it and `written` bytes of it have reached the file; or the next frame, as large as the buffer, is
passed straight to the file and `written` bytes of it reach it. A failing sync is the first case, with
everything accepted and written. -/
inductive Failure
  | flushing (accepted written : ℕ)
  | direct (accepted written : ℕ)
  deriving DecidableEq, Repr

/-- The writer's buffer written through, up to `written` bytes. What was not written stays buffered. -/
def flushPart (d : Disk) (inner : Inner) (written : ℕ) : Disk × Inner :=
  (d.write inner.file inner.cursor (inner.buffer.take written),
    { inner with
      cursor := inner.cursor + (inner.buffer.take written).length
      buffer := inner.buffer.drop written })

/-- `append_batch` returning an error. The bookkeeping is left as it was. -/
def appendFailed (d : Disk) (inner : Inner) (records : List WalRecord) : Failure → Disk × Inner
  | .flushing accepted written =>
    flushPart d { inner with buffer := inner.buffer ++ codec.frames (records.take accepted) } written
  | .direct accepted written =>
    let (d, inner) :=
      flushWriter d { inner with buffer := inner.buffer ++ codec.frames (records.take accepted) }
    let part := (codec.frames (records.drop accepted).head?.toList).take written
    (d.write inner.file inner.cursor part, { inner with cursor := inner.cursor + part.length })

/-! ### Runs -/

/-- A call, and the failure of an append. -/
inductive Call
  | append (batch : List WalRecord) (failure : Option Failure)
  | checkpoint (k : Lsn)
  | recover

inductive Event
  | appended (batch : List WalRecord)
  | appendFailed (batch : List WalRecord)
  | checkpointed (k : Lsn)
  | recovered (records : List WalRecord)
  deriving DecidableEq

def step (s : Disk × Inner) : Call → Option ((Disk × Inner) × List Event)
  | .append batch none => some ((appendBatch s.1 s.2 batch).2, [.appended batch])
  | .append batch (some failure) =>
    if batch = [] then none else some (appendFailed s.1 s.2 batch failure, [.appendFailed batch])
  | .checkpoint k =>
    match checkpoint s.1 s.2 k none with
    | (true, d, inner) => some ((d, inner), [.checkpointed k])
    | (false, _, _) => none
  | .recover => (recover s.1 s.2).map fun x => (x.2, [.recovered x.1])

/-- A `Wal` opened in an empty directory. -/
def system : System (Disk × Inner) Call Event where
  init s := openWal Disk.empty = some s
  step := step

/-- What is in the file, and then in the buffer. -/
def content (s : Disk × Inner) : Bytes := s.1.files s.2.file ++ s.2.buffer

/-- The content has no tail that does not decode. -/
def Whole (s : Disk × Inner) : Prop := (decodeSegment (content s)).2 = (content s).length

instance : DecidablePred Whole := fun s =>
  inferInstanceAs (Decidable ((decodeSegment (content s)).2 = (content s).length))

/-- The records appended have frames shorter than `2 ^ 32` bytes. -/
def Call.Fits : Call → Prop
  | .append batch _ => ∀ rec ∈ batch, Domain.Frame.Fits rec
  | _ => True

/-- **No append succeeds over a torn frame.** -/
def overWhole : Guard (Disk × Inner) Call Event := fun s _ c =>
  c.Fits ∧ ∀ batch, c = .append batch none → batch ≠ [] → Whole s

/-! ### What a write adds -/

/-- **The content grows**, in the same file and with the writer at its end. -/
structure Extends (s s' : Disk × Inner) (added : Bytes) : Prop where
  disk : ∃ bytes, s'.1 = s.1.setFile s.2.file bytes
  file : s'.2.file = s.2.file
  cursor : s'.2.cursor = (s'.1.files s'.2.file).length
  content : content s' = content s ++ added

section Extends
variable {s s' s'' : Disk × Inner} {added added' : Bytes}

theorem setFile_self (d : Disk) (file : ℕ) : d.setFile file (d.files file) = d := by
  unfold Disk.setFile
  rw [Function.update_eq_self]

theorem setFile_setFile (d : Disk) (file : ℕ) (a b : Bytes) :
    (d.setFile file a).setFile file b = d.setFile file b := by
  unfold Disk.setFile
  simp only [Function.update_idem]

theorem files_setFile (d : Disk) (file : ℕ) (bytes : Bytes) : (d.setFile file bytes).files file = bytes :=
  Function.update_self ..

theorem Extends.trans (h : Extends s s' added) (h' : Extends s' s'' added') :
    Extends s s'' (added ++ added') := by
  obtain ⟨a, ha⟩ := h.disk
  obtain ⟨b, hb⟩ := h'.disk
  refine ⟨⟨b, ?_⟩, h'.file.trans h.file, h'.cursor, ?_⟩
  · rw [hb, h.file, ha, setFile_setFile]
  · rw [h'.content, h.content, List.append_assoc]

/-- Frames go to the buffer first. -/
theorem extends_buffer (hc : s.2.cursor = (s.1.files s.2.file).length) (added : Bytes) :
    Extends s (s.1, { s.2 with buffer := s.2.buffer ++ added }) added := by
  refine ⟨⟨s.1.files s.2.file, (setFile_self _ _).symm⟩, rfl, hc, ?_⟩
  unfold AppendFail.content
  exact (List.append_assoc _ _ _).symm

/-- Part of the buffer goes to the file. -/
theorem extends_flushPart (hc : s.2.cursor = (s.1.files s.2.file).length) (written : ℕ) :
    Extends s (flushPart s.1 s.2 written) [] := by
  have hbytes : (s.1.write s.2.file s.2.cursor (s.2.buffer.take written)).files s.2.file =
      s.1.files s.2.file ++ s.2.buffer.take written := by
    unfold Disk.write
    rw [files_setFile, hc, overwrite_end]
  refine ⟨⟨_, rfl⟩, rfl, ?_, ?_⟩
  · show s.2.cursor + (s.2.buffer.take written).length = _
    rw [flushPart, hbytes, List.length_append, hc]
  · unfold AppendFail.content
    rw [flushPart, hbytes, List.append_assoc, List.take_append_drop, List.append_nil]

theorem flushWriter_eq (d : Disk) (inner : Inner) :
    flushWriter d inner = flushPart d inner inner.buffer.length := by
  unfold flushWriter flushPart
  rw [List.take_length, List.drop_length]

theorem extends_flushWriter (hc : s.2.cursor = (s.1.files s.2.file).length) :
    Extends s (flushWriter s.1 s.2) [] := by
  rw [flushWriter_eq]
  exact extends_flushPart hc _

/-- With an empty buffer, bytes may go straight to the file. -/
theorem extends_direct (hc : s.2.cursor = (s.1.files s.2.file).length) (hb : s.2.buffer = [])
    (part : Bytes) : Extends s
      (s.1.write s.2.file s.2.cursor part, { s.2 with cursor := s.2.cursor + part.length }) part := by
  have hbytes : (s.1.write s.2.file s.2.cursor part).files s.2.file = s.1.files s.2.file ++ part := by
    unfold Disk.write
    rw [files_setFile, hc, overwrite_end]
  refine ⟨⟨_, rfl⟩, rfl, ?_, ?_⟩
  · show s.2.cursor + part.length = _
    rw [hbytes, List.length_append, hc]
  · unfold AppendFail.content
    rw [hbytes, hb, List.append_nil, List.append_nil]

/-- **A successful append adds the frames of its batch.** -/
theorem extends_appendBatch (hc : s.2.cursor = (s.1.files s.2.file).length)
    {batch : List WalRecord} (hne : batch ≠ []) :
    Extends s (appendBatch s.1 s.2 batch).2 (codec.frames batch) := by
  have h1 := extends_buffer hc (codec.frames batch)
  have h2 := h1.trans (extends_flushWriter h1.cursor)
  rw [List.append_nil] at h2
  unfold appendBatch
  rw [if_neg hne]
  exact ⟨h2.disk, h2.file, h2.cursor, h2.content⟩

/-- **A failing append adds some bytes.** -/
theorem extends_appendFailed (hc : s.2.cursor = (s.1.files s.2.file).length)
    (batch : List WalRecord) : ∀ failure : Failure, Extends s (appendFailed s.1 s.2 batch failure)
      (match failure with
        | .flushing accepted _ => codec.frames (batch.take accepted)
        | .direct accepted written => codec.frames (batch.take accepted) ++
          (codec.frames (batch.drop accepted).head?.toList).take written)
  | .flushing accepted written => by
    have h1 := extends_buffer hc (codec.frames (batch.take accepted))
    have h2 := h1.trans (extends_flushPart h1.cursor written)
    rw [List.append_nil] at h2
    exact h2
  | .direct accepted written => by
    have h1 := extends_buffer hc (codec.frames (batch.take accepted))
    have h2 := h1.trans (extends_flushWriter h1.cursor)
    rw [List.append_nil] at h2
    exact h2.trans (extends_direct h2.cursor rfl _)

end Extends

/-! ### The log in the file and the buffer -/

/-- **The content is the image of a log**, and then a tail that does not decode. -/
structure Holds (s : Disk × Inner) (records : List WalRecord) (torn : Bytes) : Prop where
  disk : OnDisk (flushWriter s.1 s.2).1 s.2.file records torn
  cursor : s.2.cursor = (s.1.files s.2.file).length

section Holds
variable {s s' : Disk × Inner} {records batch : List WalRecord} {torn added : Bytes}

/-- The writer after a flush has nothing to flush. -/
theorem flushWriter_flushWriter (d : Disk) (inner : Inner) :
    flushWriter (flushWriter d inner).1 (flushWriter d inner).2 = flushWriter d inner :=
  flushWriter_of_empty rfl

theorem disk_flushWriter (hc : s.2.cursor = (s.1.files s.2.file).length) :
    (flushWriter s.1 s.2).1 = s.1.setFile s.2.file (content s) := by
  unfold flushWriter Disk.write content
  rw [hc, overwrite_end]

theorem Holds.content (h : Holds s records torn) : content s = image records ++ torn := by
  have hbytes := h.disk.bytes
  rw [disk_flushWriter h.cursor, files_setFile] at hbytes
  exact hbytes

theorem Holds.atEnd (h : Holds s records torn) :
    AtEnd (flushWriter s.1 s.2).1 (flushWriter s.1 s.2).2 s.2.file := by
  have hflush := extends_flushWriter h.cursor
  refine ⟨rfl, ?_, rfl⟩
  rw [hflush.cursor, hflush.file]

theorem holds_of_atEnd {file : ℕ} (hd : OnDisk s.1 file records torn) (hw : AtEnd s.1 s.2 file) :
    Holds s records torn := by
  have hfile := hw.handle
  subst hfile
  refine ⟨?_, hw.cursor⟩
  rw [flushWriter_of_empty hw.buffer]
  exact hd

theorem Holds.extends (h : Holds s records torn) (he : Extends s s' added)
    {records' : List WalRecord} {torn' : Bytes} (ht : codec.Torn torn')
    (hf : ∀ rec ∈ records', Fits rec)
    (hb : image records ++ (torn ++ added) = image records' ++ torn') : Holds s' records' torn' := by
  obtain ⟨bytes, hdisk⟩ := he.disk
  refine ⟨?_, he.cursor⟩
  have hset : (flushWriter s'.1 s'.2).1 =
      (flushWriter s.1 s.2).1.setFile s.2.file (AppendFail.content s') := by
    rw [disk_flushWriter he.cursor, disk_flushWriter h.cursor, he.file, hdisk, setFile_setFile,
      setFile_setFile]
  rw [hset, he.file]
  refine h.disk.setFile ht hf ?_
  rw [he.content, h.content, List.append_assoc, hb]

/-- **Whatever is added**, the log stays, with perhaps more records behind it. -/
theorem Holds.add (h : Holds s records torn) (he : Extends s s' added) :
    ∃ more torn', Holds s' (records ++ more) torn' := by
  obtain ⟨more, torn', hsplit, ht, hmore⟩ :=
    Codec.exists_frames (C := codec) codec_decode_inv _ (torn ++ added) le_rfl
  refine ⟨more, torn', h.extends he ht (fun rec hrec => ?_) ?_⟩
  · exact (List.mem_append.mp hrec).elim (h.disk.fits rec) (hmore rec)
  · rw [hsplit, image_append, List.append_assoc]

/-- **Frames added to a whole log** are records of it. -/
theorem Holds.addFrames (h : Holds s records []) (he : Extends s s' (codec.frames batch))
    (hf : ∀ rec ∈ batch, Fits rec) : Holds s' (records ++ batch) [] := by
  refine h.extends he (Or.inl rfl) (fun rec hrec => ?_) ?_
  · exact (List.mem_append.mp hrec).elim (h.disk.fits rec) (hf rec)
  · rw [List.nil_append, image_append, List.append_nil]

theorem Holds.torn_eq_nil (h : Holds s records torn) (hw : Whole s) : torn = [] := by
  have hdecode := decodeSegment_image h.disk.isTorn h.disk.fits
  unfold Whole at hw
  rw [h.content, hdecode, List.length_append] at hw
  exact List.length_eq_zero_iff.mp (by omega)

/-- **`recover` returns the log**, and leaves it whole. -/
theorem Holds.recover (h : Holds s records torn) :
    ∃ s', File.recover s.1 s.2 = some (records, s') ∧ Holds s' records [] := by
  obtain ⟨d', inner', hr, hd', hw', -⟩ := h.disk.recover h.atEnd
  have hflush : File.recover (flushWriter s.1 s.2).1 (flushWriter s.1 s.2).2 =
      File.recover s.1 s.2 := by
    unfold File.recover
    rw [flushWriter_flushWriter]
  rw [hflush] at hr
  exact ⟨(d', inner'), hr, holds_of_atEnd hd' hw'⟩

/-- **`checkpoint` leaves the survivors**, whole. -/
theorem Holds.checkpoint (h : Holds s records torn) (k : Lsn) :
    ∃ s', File.checkpoint s.1 s.2 k none = (true, s') ∧ Holds s' (Log.survivors k records) [] := by
  obtain ⟨d', file', hc, hd'⟩ := h.disk.checkpoint h.atEnd.buffer k
  have hflush : File.checkpoint (flushWriter s.1 s.2).1 (flushWriter s.1 s.2).2 k none =
      File.checkpoint s.1 s.2 k none := by
    unfold File.checkpoint
    rw [if_neg (by simp), if_neg (by simp), flushWriter_flushWriter]
  rw [hflush] at hc
  exact ⟨_, hc, holds_of_atEnd hd' atEnd_new⟩

end Holds

/-! ### Runs keep what they acknowledge -/

/-- **Every record acknowledged is among `records`**, unless a checkpoint called since covers it. -/
def Acked (h : List Event) (records : List WalRecord) : Prop :=
  ∀ pre batch post, h = pre ++ .appended batch :: post → ∀ rec ∈ batch,
    rec ∈ records ∨ ∃ k, .checkpointed k ∈ post ∧ rec.lsn ≤ k

section Acked
variable {h : List Event} {e : Event} {records records' : List WalRecord}

/-- An event keeps what is acknowledged, if it covers what it drops. -/
theorem Acked.push (ha : Acked h records)
    (hkeep : ∀ rec ∈ records, rec ∈ records' ∨ ∃ k, e = .checkpointed k ∧ rec.lsn ≤ k)
    (hnew : ∀ batch, e = .appended batch → ∀ rec ∈ batch, rec ∈ records') :
    Acked (h ++ [e]) records' := by
  intro pre batch post heq rec hrec
  rcases split_concat heq with ⟨post', hpre, rfl⟩ | ⟨-, hlast, -⟩
  · rcases ha pre batch post' hpre rec hrec with hmem | ⟨k, hk, hle⟩
    · rcases hkeep rec hmem with hmem | ⟨k, rfl, hle⟩
      · exact Or.inl hmem
      · exact Or.inr ⟨k, List.mem_append_right _ (List.mem_singleton_self _), hle⟩
    · exact Or.inr ⟨k, List.mem_append_left _ hk, hle⟩
  · exact Or.inl (hnew batch hlast rec hrec)

end Acked

section Run
variable {s s' : Disk × Inner} {h e : List Event} {c : Call}

/-- **One call** keeps a log in the file and the buffer, with what is acknowledged in it. -/
theorem step_holds {records : List WalRecord} {torn : Bytes} (hh : Holds s records torn)
    (ha : Acked h records) (hok : overWhole s h c) (hs : step s c = some (s', e)) :
    ∃ records' torn', Holds s' records' torn' ∧ Acked (h ++ e) records' := by
  obtain ⟨hfits, hwhole⟩ := hok
  rcases c with ⟨batch, _ | failure⟩ | k | _
  · obtain ⟨rfl, rfl⟩ := Prod.mk.inj (Option.some.inj hs)
    by_cases hne : batch = []
    · subst hne
      refine ⟨records, torn, hh, ha.push (fun rec => Or.inl) fun batch hb rec hrec => ?_⟩
      rw [← Event.appended.inj hb] at hrec
      cases hrec
    · obtain rfl := hh.torn_eq_nil (hwhole batch rfl hne)
      have hh' := hh.addFrames (extends_appendBatch hh.cursor hne) hfits
      refine ⟨records ++ batch, [], hh', ha.push (fun rec hrec => ?_) fun batch' hb rec hrec => ?_⟩
      · exact Or.inl (List.mem_append_left _ hrec)
      · rw [← Event.appended.inj hb] at hrec
        exact List.mem_append_right _ hrec
  · simp only [step] at hs
    split_ifs at hs with hne
    obtain ⟨rfl, rfl⟩ := Prod.mk.inj (Option.some.inj hs)
    obtain ⟨more, torn', hh'⟩ := hh.add (extends_appendFailed hh.cursor batch failure)
    refine ⟨records ++ more, torn', hh', ha.push (fun rec hrec => ?_) fun batch' hb => by cases hb⟩
    exact Or.inl (List.mem_append_left _ hrec)
  · obtain ⟨s1, hc, hh'⟩ := hh.checkpoint k
    simp only [step, hc] at hs
    obtain ⟨rfl, rfl⟩ := Prod.mk.inj (Option.some.inj hs)
    refine ⟨Log.survivors k records, [], hh', ha.push (fun rec hrec => ?_) fun batch hb => by cases hb⟩
    rcases Nat.lt_or_ge k.toNat rec.lsn.toNat with hlt | hge
    · exact Or.inl (Log.mem_survivors.mpr ⟨hrec, hlt⟩)
    · exact Or.inr ⟨k, rfl, hge⟩
  · obtain ⟨s1, hr, hh'⟩ := hh.recover
    simp only [step, hr, Option.map_some] at hs
    obtain ⟨rfl, rfl⟩ := Prod.mk.inj (Option.some.inj hs)
    exact ⟨records, [], hh', ha.push (fun rec => Or.inl) fun batch hb => by cases hb⟩

theorem holds_init (hi : system.init s) : Holds s [] [] := by
  obtain ⟨d, hopen, hd, -⟩ := openWal_empty
  obtain rfl := Option.some.inj (hopen.symm.trans hi)
  exact holds_of_atEnd hd atEnd_new

theorem run_holds (hr : Run system overWhole s h) :
    ∃ records torn, Holds s records torn ∧ Acked h records := by
  refine hr.invariant (I := fun s h => ∃ records torn, Holds s records torn ∧ Acked h records) ?_ ?_
  · intro s hi
    refine ⟨[], [], holds_init hi, fun pre batch post heq => ?_⟩
    have hlen := congrArg List.length heq
    simp only [List.length_nil, List.length_append, List.length_cons] at hlen
    omega
  · rintro s h c s' e - ⟨records, torn, hh, ha⟩ hok hs
    exact step_holds hh ha hok hs

end Run

/-! ### The result -/

/-- **Failed appends**: in every run whose appends succeed over whole contents only, `recover` returns every
record acknowledged, unless a checkpoint called after its append covers it. -/
theorem acknowledged_recovered {s : Disk × Inner} {h : List Event} (hr : Run system overWhole s h) :
    ∃ records s', step s .recover = some (s', [.recovered records]) ∧ Acked h records := by
  obtain ⟨records, torn, hh, ha⟩ := run_holds hr
  obtain ⟨s', hrec, -⟩ := hh.recover
  refine ⟨records, s', ?_, ha⟩
  simp only [step, hrec, Option.map_some]

/-- `overWhole` for a call. -/
def overWholeCheck (s : Disk × Inner) : Call → Bool
  | .append batch none => decide (∀ rec ∈ batch, Fits rec) && decide (Whole s)
  | .append batch (some _) => decide (∀ rec ∈ batch, Fits rec)
  | _ => true

theorem overWhole_of_check {s : Disk × Inner} {h : List Event} {c : Call}
    (hc : overWholeCheck s c = true) : overWhole s h c := by
  rcases c with ⟨batch, _ | failure⟩ | k | _
  · rw [overWholeCheck, Bool.and_eq_true, decide_eq_true_eq, decide_eq_true_eq] at hc
    exact ⟨hc.1, fun _ _ _ => hc.2⟩
  · rw [overWholeCheck, decide_eq_true_eq] at hc
    exact ⟨hc, fun batch' heq => by cases heq⟩
  · exact ⟨trivial, fun batch' heq => by cases heq⟩
  · exact ⟨trivial, fun batch' heq => by cases heq⟩

/-- A flush fails inside the second of three appended frames, and one more append succeeds. -/
theorem acknowledged_recovered_flush : ∃ s h, h = [.appended [zeros 1 1],
      .appendFailed [zeros 2 1, zeros 3 1], .appended [zeros 4 1]] ∧
    ∃ records s', step s .recover = some (s', [.recovered records]) ∧ Acked h records := by
  obtain ⟨d, hopen, -⟩ := openWal_empty
  obtain ⟨s, h, hr, hp⟩ := exists_run_of_exec system overWhole (fun s _ c => overWholeCheck s c)
    (fun s h c hc => overWhole_of_check hc) _
    [.append [zeros 1 1] none, .append [zeros 2 1, zeros 3 1] (some (.flushing 2 10)),
      .append [zeros 4 1] none]
    (fun x => decide (x.2 = [.appended [zeros 1 1], .appendFailed [zeros 2 1, zeros 3 1],
      .appended [zeros 4 1]])) (rfl : openWal Disk.empty = some _) (by decide +kernel)
  exact ⟨s, h, of_decide_eq_true hp, acknowledged_recovered hr⟩

/-! ### An append over a torn frame -/

/-- A frame of `8192` bytes, as large as the buffer. -/
def large : WalRecord := zeros 1 8152

theorem frameLen_large : frameLen large = 8192 := frameLen_zeros 1 8152

theorem fits_large : Fits large := by
  unfold Fits
  rw [frameLen_large]
  norm_num

/-- **The device is full after 10 bytes of a large frame.** The next append succeeds, and its record is
not recovered. -/
theorem append_over_torn_lost : ∃ s s1 s2 s3, system.init s ∧
    step s (.append [large] (some (.direct 0 10))) = some (s1, [.appendFailed [large]]) ∧
    step s1 (.append [zeros 2 1] none) = some (s2, [.appended [zeros 2 1]]) ∧
    step s2 .recover = some (s3, [.recovered []]) ∧
    ¬ Acked [.appendFailed [large], .appended [zeros 2 1]] [] := by
  obtain ⟨d, hopen, -⟩ := openWal_empty
  have hh := holds_init hopen
  have h1 := extends_appendFailed hh.cursor [large] (.direct 0 10)
  have h2 := h1.trans (extends_appendBatch h1.cursor (List.cons_ne_nil (zeros 2 1) []))
  have hadd : (codec.frames ([large].take 0) ++
      (codec.frames ([large].drop 0).head?.toList).take 10) ++ codec.frames [zeros 2 1] =
      (encode large).take 10 ++ encode (zeros 2 1) := by
    show ([] ++ (encode large ++ []).take 10) ++ (encode (zeros 2 1) ++ []) = _
    rw [List.append_nil, List.append_nil, List.nil_append]
  have hlen : ((encode large).take 10 ++ encode (zeros 2 1)).length < frameLen large := by
    have hsmall : frameLen (zeros 2 1) = 41 := frameLen_zeros 2 1
    rw [List.length_append, List.length_take, length_encode, length_encode, hsmall, frameLen_large]
    norm_num
  have htorn := torn_of_error (decode_short fits_large (k := 10) (by omega) (List.prefix_append _ _) hlen)
  have hh2 : Holds _ [] _ := hh.extends h2 htorn (fun rec hrec => by cases hrec) (by
    rw [hadd, List.nil_append])
  obtain ⟨s3, hrec, -⟩ := hh2.recover
  refine ⟨_, _, _, s3, hopen, rfl, rfl, ?_, fun ha => ?_⟩
  · simp only [step, hrec, Option.map_some]
  · rcases ha [.appendFailed [large]] [zeros 2 1] [] rfl (zeros 2 1) List.mem_cons_self with
      hmem | ⟨k, hk, -⟩
    · cases hmem
    · cases hk

end FluxThroughput.Wal.AppendFail
