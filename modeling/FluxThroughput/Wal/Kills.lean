import FluxThroughput.Lib.Transition
import FluxThroughput.Wal.Refine

/-! # The log across kills

A process opens the log, recovers, appends, checkpoints and flushes, and may be killed inside any of
these. `Logs` is the abstract log: what a history of completed and cut operations leaves, where a cut
append counts for some of its first records, and a cut checkpoint for all or nothing. The bytes on disk
refine it (`wal_refines_log`). -/

namespace FluxThroughput.Wal.Kills

open FluxThroughput.Domain.Types FluxThroughput.Domain.Frame FluxThroughput.Lib.Frames
open FluxThroughput.Lib.Transition FluxThroughput.Wal.Atomic FluxThroughput.Wal.Segment
open FluxThroughput.Wal.File FluxThroughput.Wal.Refine

/-! ### The abstract log -/

/-- What happens to the log: operations that complete, and operations cut by a kill. -/
inductive Event
  | opened
  | appended (batch : List WalRecord)
  | appendCut (batch : List WalRecord)
  | checkpointed (k : Lsn)
  | checkpointCut (k : Lsn)
  | flushed
  | recovered (records : List WalRecord)
  | killed
  deriving DecidableEq

/-- **The abstract log.** A history leaves a list of records, and each `recover` in it has returned the
list that it left until then. -/
inductive Logs : List Event → List WalRecord → Prop
  | start : Logs [] []
  | opened {h log} : Logs h log → Logs (h ++ [.opened]) log
  | appended {h log batch} : Logs h log → Logs (h ++ [.appended batch]) (log ++ batch)
  | appendCut {h log batch} (m : ℕ) :
      Logs h log → Logs (h ++ [.appendCut batch]) (log ++ batch.take m)
  | checkpointed {h log k} : Logs h log → Logs (h ++ [.checkpointed k]) (Log.survivors k log)
  | cutBefore {h log k} : Logs h log → Logs (h ++ [.checkpointCut k]) log
  | cutAfter {h log k} : Logs h log → Logs (h ++ [.checkpointCut k]) (Log.survivors k log)
  | flushed {h log} : Logs h log → Logs (h ++ [.flushed]) log
  | recovered {h log} : Logs h log → Logs (h ++ [.recovered log]) log
  | killed {h log} : Logs h log → Logs (h ++ [.killed]) log

/-! ### The process -/

/-- No process, a process that has opened the log and must recover, or one that uses it. -/
inductive Proc
  | down
  | opened (inner : Inner)
  | up (inner : Inner)

structure Node where
  disk : Disk
  proc : Proc

/-- An operation, or an operation with the point at which it is killed: the bytes it has written, or the
step at which it stops. -/
inductive Action
  | openWal
  | openKilled (n : ℕ)
  | append (batch : List WalRecord)
  | appendKilled (batch : List WalRecord) (n : ℕ)
  | checkpoint (k : Lsn)
  | checkpointKilled (k : Lsn) (stop : Stop)
  | flush
  | recover
  | recoverKilled (truncated : Bool)
  | kill

def Node.recover (s : Node) (inner : Inner) : Option (Node × List Event) :=
  (File.recover s.disk inner).map fun x => (⟨x.2.1, .up x.2.2⟩, [.recovered x.1])

def Node.step (s : Node) (a : Action) : Option (Node × List Event) :=
  match s.proc, a with
  | .down, .openWal => (openWal s.disk).map fun w => (⟨w.1, .opened w.2⟩, [.opened])
  | .down, .openKilled n => some (⟨openKilled s.disk n, .down⟩, [.killed])
  | .opened inner, .recover => s.recover inner
  | .opened inner, .recoverKilled truncated =>
    some (⟨recoverKilled s.disk inner truncated, .down⟩, [.killed])
  | .opened _, .kill => some (⟨s.disk, .down⟩, [.killed])
  | .up inner, .append batch =>
    let x := appendBatch s.disk inner batch
    some (⟨x.2.1, .up x.2.2⟩, [.appended batch])
  | .up inner, .appendKilled batch n =>
    some (⟨appendKilled s.disk inner batch n, .down⟩, [.appendCut batch])
  | .up inner, .checkpoint k =>
    match checkpoint s.disk inner k none with
    | (true, d, inner) => some (⟨d, .up inner⟩, [.checkpointed k])
    | (false, _, _) => none
  | .up inner, .checkpointKilled k stop =>
    some (⟨(checkpoint s.disk inner k (some stop)).2.1, .down⟩, [.checkpointCut k])
  | .up inner, .flush =>
    let x := flush s.disk inner
    some (⟨x.1, .up x.2⟩, [.flushed])
  | .up inner, .recover => s.recover inner
  | .up inner, .recoverKilled truncated =>
    some (⟨recoverKilled s.disk inner truncated, .down⟩, [.killed])
  | .up _, .kill => some (⟨s.disk, .down⟩, [.killed])
  | _, _ => none

/-- An empty directory, or a `Wal` just created in one. -/
def system : System Node Action Event where
  init s := s = ⟨Disk.empty, .down⟩ ∨
    ∃ w, openWal Disk.empty = some w ∧ s = ⟨w.1, .up w.2⟩
  step := Node.step

/-- The records written have frames shorter than `2 ^ 32` bytes. -/
def Action.Fits : Action → Prop
  | .append batch => ∀ rec ∈ batch, Domain.Frame.Fits rec
  | .appendKilled batch _ => ∀ rec ∈ batch, Domain.Frame.Fits rec
  | _ => True

instance : DecidablePred Action.Fits := fun a => by
  cases a <;> unfold Action.Fits <;> infer_instance

def fitting : Guard Node Action Event := fun _ _ a => a.Fits

/-! ### Before the header is whole -/

/-- The directory of a log whose header has not been written. -/
structure Blank (d : Disk) : Prop where
  active : ∀ file, d.active = some file →
    (∃ n < headerLen, d.files file = headerMagic.take n) ∧ file < d.next
  temp : d.temp = none

theorem blank_empty : Blank Disk.empty := ⟨fun _ h => (by cases h), rfl⟩

section Blank
variable {d : Disk}

/-- The active segment after opening it: a prefix of the header. -/
theorem Blank.openActive (h : Blank d) : ∃ n < headerLen,
    d.openActive.1.active = some d.openActive.2 ∧
    d.openActive.1.files d.openActive.2 = headerMagic.take n ∧
    d.openActive.2 < d.openActive.1.next ∧ d.openActive.1.temp = none := by
  unfold Disk.openActive
  rcases hact : d.active with _ | file
  · exact ⟨0, Nat.zero_lt_succ 7, rfl, Function.update_self .., Nat.lt_succ_self _, h.temp⟩
  · obtain ⟨⟨n, hn, hbytes⟩, hlt⟩ := h.active file hact
    exact ⟨n, hn, hact, hbytes, hlt, h.temp⟩

/-- Writing the header makes the segment of the empty log. -/
theorem Blank.openWal (h : Blank d) : ∃ d' inner file, openWal d = some (d', inner) ∧
    OnDisk d' file [] [] ∧ AtEnd d' inner file := by
  obtain ⟨n, hn, hact, hbytes, hlt, htemp⟩ := h.openActive
  have hlen : (d.openActive.1.files d.openActive.2).length < headerLen := by
    rw [hbytes, List.length_take]
    exact (Nat.min_le_left _ _).trans_lt hn
  have hover : overwrite (d.openActive.1.files d.openActive.2) 0 headerMagic = headerMagic :=
    overwrite_start hlen.le (by decide)
  refine ⟨d.openActive.1.write d.openActive.2 0 headerMagic,
    Inner.new d.openActive.2 headerLen 0, d.openActive.2, ?_, ?_, rfl, ?_, rfl⟩
  · exact if_pos hlen
  · refine ⟨hact, ?_, Or.inl rfl, fun rec hrec => (by cases hrec), hlt, fun tmp h1 => ?_⟩
    · rw [Disk.write, hover]
      exact Function.update_self ..
    · rw [Disk.write, Disk.setFile, htemp] at h1
      cases h1
  · rw [Disk.write, hover]
    simp only [Disk.setFile, Function.update_self]
    rfl

/-- Cut while it writes the header, `open` leaves a prefix of it, or all of it. -/
theorem Blank.openKilled (h : Blank d) (n : ℕ) :
    Blank (openKilled d n) ∨ ∃ file, OnDisk (openKilled d n) file [] [] := by
  obtain ⟨m, hm, hact, hbytes, hlt, htemp⟩ := h.openActive
  have hlen : (d.openActive.1.files d.openActive.2).length < headerLen := by
    rw [hbytes, List.length_take]
    exact (Nat.min_le_left _ _).trans_lt hm
  have heq : File.openKilled d n =
      d.openActive.1.setFile d.openActive.2 (headerMagic.take (max m n)) := by
    rw [← overwrite_take headerMagic m n, ← hbytes]
    exact if_pos hlen
  rw [heq]
  by_cases hn : max m n < headerLen
  · refine Or.inl ⟨fun file hfile => ?_, htemp⟩
    obtain rfl := Option.some.inj (hact.symm.trans hfile)
    exact ⟨⟨max m n, hn, Function.update_self ..⟩, hlt⟩
  · refine Or.inr ⟨d.openActive.2, hact, ?_, Or.inl rfl, fun rec hrec => (by cases hrec), hlt,
      fun tmp h1 => ?_⟩
    · rw [List.take_of_length_le (not_lt.mp hn)]
      exact Function.update_self ..
    · rw [Disk.setFile, htemp] at h1
      cases h1

end Blank

/-! ### The refinement -/

/-- **The node holds the log**: on disk, with a torn tail until it is recovered. -/
def Holds (s : Node) (log : List WalRecord) : Prop :=
  match s.proc with
  | .down => (∃ file torn, OnDisk s.disk file log torn) ∨ (log = [] ∧ Blank s.disk)
  | .opened inner => ∃ file torn, OnDisk s.disk file log torn ∧ AtEnd s.disk inner file
  | .up inner => ∃ file, OnDisk s.disk file log [] ∧ AtEnd s.disk inner file

section Refinement
variable {s s' : Node} {h e : List Event} {log : List WalRecord} {a : Action} {inner : Inner}

theorem holds_recover {file : ℕ} {torn : Bytes} (hd : OnDisk s.disk file log torn)
    (hw : AtEnd s.disk inner file) : ∃ s', s.recover inner = some (s', [.recovered log]) ∧
      Holds s' log := by
  obtain ⟨d', inner', hr, hd', hw', -⟩ := hd.recover hw
  refine ⟨⟨d', .up inner'⟩, ?_, file, hd', hw'⟩
  unfold Node.recover
  rw [hr]
  rfl

/-- Recovering returns the log, leaves its image, and again does the same. -/
theorem recover_twice {file : ℕ} {torn : Bytes} (hs : s.step .recover = s.recover inner)
    (hd : OnDisk s.disk file log torn) (hw : AtEnd s.disk inner file) :
    ∃ s', s.step .recover = some (s', [.recovered log]) ∧ s'.disk.readAll = some (image log) ∧
      s'.step .recover = some (s', [.recovered log]) := by
  obtain ⟨d', inner', hr, hd', -, hagain⟩ := hd.recover hw
  refine ⟨⟨d', .up inner'⟩, ?_, ?_, ?_⟩
  · rw [hs]
    unfold Node.recover
    rw [hr]
    rfl
  · rw [Disk.readAll, hd'.active, Option.map_some, hd'.bytes, List.append_nil]
  · change Node.recover ⟨d', .up inner'⟩ inner' = _
    unfold Node.recover
    rw [hagain]
    rfl

/-- Without a process, opening the log succeeds. -/
theorem holds_open (hp : s.proc = .down) (hh : Holds s log) : ∃ s',
    s.step .openWal = some (s', [.opened]) ∧ Holds s' log ∧ s'.proc ≠ .down := by
  obtain ⟨d, proc⟩ := s
  obtain rfl : proc = .down := hp
  rcases hh with ⟨file, torn, hd⟩ | ⟨rfl, hb⟩
  · refine ⟨⟨d, .opened (Inner.new file (d.files file).length 0)⟩, ?_, ⟨file, torn, hd, atEnd_new⟩,
      by simp⟩
    simp only [Node.step, hd.openWal, Option.map_some]
  · obtain ⟨d', inner, file, ho, hd, hw⟩ := hb.openWal
    refine ⟨⟨d', .opened inner⟩, ?_, ⟨file, [], hd, hw⟩, by simp⟩
    simp only [Node.step, ho, Option.map_some]

/-- A step without a process. -/
theorem step_down {d : Disk} (hs : Node.step ⟨d, .down⟩ a = some (s', e)) (hl : Logs h log)
    (hh : Holds ⟨d, .down⟩ log) : ∃ log', Logs (h ++ e) log' ∧ Holds s' log' := by
  cases a with
  | openWal =>
    obtain ⟨s1, hs1, hh1, -⟩ := holds_open rfl hh
    obtain ⟨rfl, rfl⟩ := Prod.mk.inj (Option.some.inj (hs1.symm.trans hs))
    exact ⟨log, hl.opened, hh1⟩
  | openKilled n =>
    obtain ⟨rfl, rfl⟩ := Prod.mk.inj (Option.some.inj hs)
    refine ⟨log, hl.killed, ?_⟩
    rcases hh with ⟨file, torn, hd⟩ | ⟨rfl, hb⟩
    · exact Or.inl ⟨file, torn, by rw [hd.openKilled]; exact hd⟩
    · exact (hb.openKilled n).symm.imp (fun ⟨file, hd⟩ => ⟨file, [], hd⟩) fun hb => ⟨rfl, hb⟩
  | _ => cases hs

/-- A step of a process that has not recovered yet. -/
theorem step_opened {d : Disk} (hs : Node.step ⟨d, .opened inner⟩ a = some (s', e)) (hl : Logs h log)
    (hh : Holds ⟨d, .opened inner⟩ log) : ∃ log', Logs (h ++ e) log' ∧ Holds s' log' := by
  obtain ⟨file, torn, hd, hw⟩ := hh
  cases a with
  | recover =>
    obtain ⟨s1, hs1, hh1⟩ := holds_recover (s := ⟨d, .opened inner⟩) hd hw
    obtain ⟨rfl, rfl⟩ := Prod.mk.inj (Option.some.inj (hs1.symm.trans hs))
    exact ⟨log, hl.recovered, hh1⟩
  | recoverKilled truncated =>
    obtain ⟨rfl, rfl⟩ := Prod.mk.inj (Option.some.inj hs)
    obtain ⟨torn', hd'⟩ := hd.recoverKilled hw truncated
    exact ⟨log, hl.killed, Or.inl ⟨file, torn', hd'⟩⟩
  | kill =>
    obtain ⟨rfl, rfl⟩ := Prod.mk.inj (Option.some.inj hs)
    exact ⟨log, hl.killed, Or.inl ⟨file, torn, hd⟩⟩
  | _ => cases hs

/-- A step of a process that uses the log. -/
theorem step_up {d : Disk} (hs : Node.step ⟨d, .up inner⟩ a = some (s', e)) (ha : a.Fits)
    (hl : Logs h log) (hh : Holds ⟨d, .up inner⟩ log) :
    ∃ log', Logs (h ++ e) log' ∧ Holds s' log' := by
  obtain ⟨file, hd, hw⟩ := hh
  cases a with
  | append batch =>
    obtain ⟨rfl, rfl⟩ := Prod.mk.inj (Option.some.inj hs)
    exact ⟨_, hl.appended, file, hd.appendBatch hw ha⟩
  | appendKilled batch n =>
    obtain ⟨rfl, rfl⟩ := Prod.mk.inj (Option.some.inj hs)
    obtain ⟨m, torn', hd'⟩ := hd.appendCut hw ha n
    exact ⟨_, hl.appendCut m, Or.inl ⟨file, torn', hd'⟩⟩
  | checkpoint k =>
    obtain ⟨d', file', hc, hd'⟩ := hd.checkpoint hw.buffer k
    simp only [Node.step, hc] at hs
    obtain ⟨rfl, rfl⟩ := Prod.mk.inj (Option.some.inj hs)
    exact ⟨_, hl.checkpointed, file', hd', atEnd_new⟩
  | checkpointKilled k stop =>
    obtain ⟨d', hc, -, hd'⟩ := hd.checkpointStopped hw.buffer k stop
    simp only [Node.step, hc] at hs
    obtain ⟨rfl, rfl⟩ := Prod.mk.inj (Option.some.inj hs)
    split_ifs at hd' with hr
    · obtain ⟨file', -, hd', -⟩ := hd'
      exact ⟨_, hl.cutAfter, Or.inl ⟨file', [], hd'⟩⟩
    · exact ⟨_, hl.cutBefore, Or.inl ⟨file, [], hd'⟩⟩
  | flush =>
    simp only [Node.step, flush, flushWriter_of_empty hw.buffer] at hs
    obtain ⟨rfl, rfl⟩ := Prod.mk.inj (Option.some.inj hs)
    exact ⟨log, hl.flushed, file, hd, hw⟩
  | recover =>
    obtain ⟨s1, hs1, hh1⟩ := holds_recover (s := ⟨d, .up inner⟩) hd hw
    obtain ⟨rfl, rfl⟩ := Prod.mk.inj (Option.some.inj (hs1.symm.trans hs))
    exact ⟨log, hl.recovered, hh1⟩
  | recoverKilled truncated =>
    obtain ⟨rfl, rfl⟩ := Prod.mk.inj (Option.some.inj hs)
    obtain ⟨torn', hd'⟩ := hd.recoverKilled hw truncated
    exact ⟨log, hl.killed, Or.inl ⟨file, torn', hd'⟩⟩
  | kill =>
    obtain ⟨rfl, rfl⟩ := Prod.mk.inj (Option.some.inj hs)
    exact ⟨log, hl.killed, Or.inl ⟨file, [], hd⟩⟩
  | openWal => cases hs
  | openKilled n => cases hs

/-- **Every step refines the abstract log.** -/
theorem step_holds (hs : s.step a = some (s', e)) (ha : a.Fits) (hl : Logs h log)
    (hh : Holds s log) : ∃ log', Logs (h ++ e) log' ∧ Holds s' log' := by
  obtain ⟨d, proc⟩ := s
  cases proc with
  | down => exact step_down hs hl hh
  | opened inner => exact step_opened hs hl hh
  | up inner => exact step_up hs ha hl hh

theorem run_holds (hr : Run system fitting s h) : ∃ log, Logs h log ∧ Holds s log := by
  refine hr.invariant (I := fun s h => ∃ log, Logs h log ∧ Holds s log) ?_ ?_
  · rintro s (rfl | ⟨w, hw, rfl⟩)
    · exact ⟨[], .start, Or.inr ⟨rfl, blank_empty⟩⟩
    · obtain ⟨d, hopen, hd, -⟩ := openWal_empty
      obtain rfl := Option.some.inj (hopen.symm.trans hw)
      exact ⟨[], .start, 0, hd, atEnd_new⟩
  · rintro s h a s' e - ⟨log, hl, hh⟩ ha hs
    exact step_holds hs ha hl hh

end Refinement

/-! ### The result -/

/-- **The log on disk refines the abstract log**, for every run with kills at any point: opening and
checkpointing succeed, `recover` returns the abstract log and leaves the segment its exact image, and
recovering again returns the same and changes nothing. -/
theorem wal_refines_log {s : Node} {h : List Event} (hr : Run system fitting s h) :
    ∃ log, Logs h log ∧
      (s.proc = .down → ∃ s', s.step .openWal = some (s', [.opened]) ∧ s'.proc ≠ .down) ∧
      (∀ inner k, s.proc = .up inner →
        ∃ s', s.step (.checkpoint k) = some (s', [.checkpointed k])) ∧
      (s.proc ≠ .down → ∃ s', s.step .recover = some (s', [.recovered log]) ∧
        s'.disk.readAll = some (image log) ∧
        s'.step .recover = some (s', [.recovered log])) := by
  obtain ⟨log, hl, hh⟩ := run_holds hr
  refine ⟨log, hl, fun hp => ?_, fun inner k hp => ?_, fun hp => ?_⟩
  · obtain ⟨s', hs, -, hne⟩ := holds_open hp hh
    exact ⟨s', hs, hne⟩
  · obtain ⟨d, proc⟩ := s
    obtain rfl : proc = .up inner := hp
    obtain ⟨file, hd, hw⟩ := hh
    obtain ⟨d', file', hc, -⟩ := hd.checkpoint hw.buffer k
    generalize Inner.new file' _ _ = inner' at hc
    exact ⟨⟨d', .up inner'⟩, by simp only [Node.step, hc]⟩
  · obtain ⟨d, proc⟩ := s
    cases proc with
    | down => exact absurd rfl hp
    | opened inner =>
      obtain ⟨file, torn, hd, hw⟩ := hh
      exact recover_twice (s := ⟨d, .opened inner⟩) rfl hd hw
    | up inner =>
      obtain ⟨file, hd, hw⟩ := hh
      exact recover_twice (s := ⟨d, .up inner⟩) rfl hd hw

/-- An append of two records is killed inside the second frame. -/
theorem wal_refines_log_torn : ∃ s h, h = [.opened, .recovered [], .appended [sample 1],
      .appendCut [sample 2, sample 3], .opened, .recovered [sample 1, sample 2]] ∧
    ∃ log, Logs h log ∧ ∃ s', Node.step s .recover = some (s', [.recovered log]) ∧
      s'.disk.readAll = some (image log) := by
  obtain ⟨s, h, hr, hp⟩ := exists_run_of_exec system fitting (fun _ _ a => decide a.Fits)
    (fun _ _ a ha => show a.Fits from of_decide_eq_true ha) ⟨Disk.empty, .down⟩
    [.openWal, .recover, .append [sample 1], .appendKilled [sample 2, sample 3] 60, .openWal,
      .recover]
    (fun x => decide (x.2 = [.opened, .recovered [], .appended [sample 1],
      .appendCut [sample 2, sample 3], .opened, .recovered [sample 1, sample 2]]) &&
      match x.1.proc with | .down => false | _ => true)
    (Or.inl rfl) (by decide +kernel)
  rw [Bool.and_eq_true, decide_eq_true_eq] at hp
  obtain ⟨log, hl, -, -, hrec⟩ := wal_refines_log hr
  have hup : s.proc ≠ .down := by
    intro hdown
    have := hp.2
    rw [hdown] at this
    cases this
  obtain ⟨s', hs, hread, -⟩ := hrec hup
  exact ⟨s, h, hp.1, log, hl, s', hs, hread⟩

end FluxThroughput.Wal.Kills
