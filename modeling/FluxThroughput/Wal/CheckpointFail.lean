import FluxThroughput.Lib.Transition
import FluxThroughput.Wal.Refine

/-! # Checkpoints that fail

A process appends batches and checkpoints, and each checkpoint may fail at any of its steps. A failure
after the rename leaves the writer over the replaced file: until a checkpoint succeeds, what is appended
is not read again. `readable_iff` says exactly when every acknowledged batch is returned. -/

namespace FluxThroughput.Wal.CheckpointFail

open FluxThroughput.Domain.Types FluxThroughput.Domain.Frame FluxThroughput.Lib.Transition
open FluxThroughput.Wal.Atomic FluxThroughput.Wal.Segment FluxThroughput.Wal.File
open FluxThroughput.Wal.Refine

/-! ### Calls -/

/-- A call on the log. A checkpoint fails at a step, or returns `Ok`. -/
inductive Call
  | append (batch : List WalRecord)
  | checkpoint (upToLsn : Lsn) (stop : Option Stop)

def Call.apply (w : Disk × Inner) : Call → Disk × Inner
  | .append batch => (appendBatch w.1 w.2 batch).2
  | .checkpoint upToLsn stop => (File.checkpoint w.1 w.2 upToLsn stop).2

/-- Calls on the `Wal` of an empty directory, and then `open` and `recover`: the records returned. -/
def returned (calls : List Call) : Option (List WalRecord) :=
  (openWal Disk.empty).bind fun w =>
    (openWal (calls.foldl Call.apply w).1).bind fun w => (recover w.1 w.2).map (·.1)

/-- The frames of all records appended are shorter than `2 ^ 32` bytes. -/
def CallsFit (calls : List Call) : Prop := ∀ batch, .append batch ∈ calls → ∀ rec ∈ batch, Fits rec

/-- A checkpoint at or above the record's LSN is among the calls. -/
def Covered (rec : WalRecord) (calls : List Call) : Prop :=
  ∃ k stop, .checkpoint k stop ∈ calls ∧ rec.lsn ≤ k

/-- **Every batch appended is returned**, but for records that a later checkpoint call covers. -/
def Readable (calls : List Call) : Prop :=
  ∃ records, returned calls = some records ∧
    ∀ pre batch post, calls = pre ++ .append batch :: post →
      ∀ rec ∈ batch, rec ∈ records ∨ Covered rec post

/-! ### The writer after the calls -/

/-- Whether the call leaves the writer over the active segment. -/
def Call.attached (before : Bool) : Call → Bool
  | .append _ => before
  | .checkpoint _ none => true
  | .checkpoint _ (some stop) => before && !stop.renamed

def attachedAfter (calls : List Call) : Bool := calls.foldl Call.attached true

/-- The checkpoint got past its rename: it has discarded what it covers. -/
def discards : Option Stop → Bool
  | none => true
  | some stop => stop.renamed

/-- An equal record was appended through the active segment, and not discarded since. -/
def Kept (rec : WalRecord) (calls : List Call) : Prop :=
  ∃ pre batch post, calls = pre ++ .append batch :: post ∧ attachedAfter pre = true ∧ rec ∈ batch ∧
    ∀ k stop, .checkpoint k stop ∈ post → discards stop = true → k < rec.lsn

theorem attachedAfter_append (calls : List Call) (c : Call) :
    attachedAfter (calls ++ [c]) = c.attached (attachedAfter calls) := by
  simp [attachedAfter]

/-- Failures before the rename leave the writer where it was. -/
theorem attachedAfter_of_not_renamed {calls : List Call}
    (h : ∀ k stop, .checkpoint k (some stop) ∈ calls → stop.renamed = false) :
    attachedAfter calls = true := by
  induction calls using List.reverseRecOn with
  | nil => rfl
  | append_singleton calls c ih =>
    rw [attachedAfter_append, ih fun k stop hc => h k stop (List.mem_append_left _ hc)]
    rcases c with batch | ⟨k, _ | stop⟩
    · rfl
    · rfl
    · have := h k stop (List.mem_append_right _ (List.mem_singleton_self _))
      simp [Call.attached, this]

/-! ### The log after the calls -/

def Call.applyLog (log : Log) : Call → Log
  | .append batch => (log.appendBatch batch).2
  | .checkpoint k none => log.checkpoint k
  | .checkpoint k (some stop) => if stop.renamed then log.checkpointFailedAfter k else log

def logAfter (calls : List Call) : Log := calls.foldl Call.applyLog Log.empty

/-- **Each call does on disk what it does to the log.** -/
theorem implements_apply {w : Disk × Inner} {log : Log} (h : Implements w.1 w.2 log) {c : Call}
    (hf : CallsFit [c]) : Implements (c.apply w).1 (c.apply w).2 (c.applyLog log) := by
  rcases c with batch | ⟨k, _ | stop⟩
  · exact (h.appendBatch (hf batch (List.mem_singleton_self _))).2
  · obtain ⟨d', inner', hc, h'⟩ := h.checkpoint k
    rw [Call.apply, hc]
    exact h'
  · obtain ⟨d', hc, h'⟩ := h.checkpointStopped k stop
    rw [Call.apply, hc]
    exact h'

theorem implements_foldl : ∀ {calls : List Call} {w : Disk × Inner} {log : Log},
    Implements w.1 w.2 log → CallsFit calls →
      Implements (calls.foldl Call.apply w).1 (calls.foldl Call.apply w).2
        (calls.foldl Call.applyLog log)
  | [], _, _, h, _ => h
  | c :: calls, w, log, h, hf => by
    rw [List.foldl_cons, List.foldl_cons]
    refine implements_foldl (implements_apply h fun batch hb => ?_) fun batch hb => ?_
    · exact hf batch (List.mem_cons.mpr (Or.inl (List.mem_singleton.mp hb)))
    · exact hf batch (List.mem_cons_of_mem c hb)

theorem returned_eq {calls : List Call} (hf : CallsFit calls) :
    returned calls = some (logAfter calls).records := by
  obtain ⟨d, inner, hopen, h⟩ := implements_empty
  obtain ⟨d1, inner1, d2, inner2, hopen', hrec⟩ := (implements_foldl h hf (w := (d, inner))).reopen
  unfold returned
  rw [hopen]
  simp only [Option.bind_some, hopen', hrec, Option.map_some]
  rfl

/-- The last call decides, or an earlier one has and the last does not discard the record. -/
theorem kept_append {rec : WalRecord} {calls : List Call} {c : Call} :
    Kept rec (calls ++ [c]) ↔
      (∃ batch, c = .append batch ∧ attachedAfter calls = true ∧ rec ∈ batch) ∨
      (Kept rec calls ∧ ∀ k stop, c = .checkpoint k stop → discards stop = true → k < rec.lsn) := by
  constructor
  · rintro ⟨pre, batch, post, heq, hatt, hmem, hpost⟩
    rcases split_concat heq with ⟨post', rfl, rfl⟩ | ⟨rfl, rfl, -⟩
    · refine Or.inr ⟨⟨pre, batch, post', rfl, hatt, hmem, fun k stop hk => ?_⟩, fun k stop hk => ?_⟩
      · exact hpost k stop (List.mem_append_left _ hk)
      · refine hpost k stop ?_
        rw [← hk]
        exact List.mem_append_right _ (List.mem_singleton_self _)
    · exact Or.inl ⟨batch, rfl, hatt, hmem⟩
  · rintro (⟨batch, rfl, hatt, hmem⟩ | ⟨⟨pre, batch, post, rfl, hatt, hmem, hpost⟩, hc⟩)
    · exact ⟨calls, batch, [], rfl, hatt, hmem, fun k stop hk => by cases hk⟩
    · refine ⟨pre, batch, post ++ [c], by simp, hatt, hmem, fun k stop hk => ?_⟩
      rcases List.mem_append.mp hk with hk | hk
      · exact hpost k stop hk
      · exact hc k stop (List.mem_singleton.mp hk).symm

theorem attached_logAfter (calls : List Call) :
    (logAfter calls).attached = attachedAfter calls := by
  induction calls using List.reverseRecOn with
  | nil => rfl
  | append_singleton calls c ih =>
    rw [attachedAfter_append, ← ih, logAfter, List.foldl_append]
    change (c.applyLog (logAfter calls)).attached = _
    rcases c with batch | ⟨k, _ | stop⟩
    · exact Log.attached_appendBatch _ _
    · rfl
    · rcases hr : stop.renamed <;> simp [Call.applyLog, Call.attached, hr, Log.checkpointFailedAfter]

/-- **The log holds what was appended through the active segment and not discarded.** -/
theorem mem_logAfter {calls : List Call} {rec : WalRecord} :
    rec ∈ (logAfter calls).records ↔ Kept rec calls := by
  induction calls using List.reverseRecOn with
  | nil =>
    constructor
    · intro h
      cases h
    · rintro ⟨pre, batch, post, heq, -⟩
      cases pre <;> cases heq
  | append_singleton calls c ih =>
    rw [kept_append, ← ih, logAfter, List.foldl_append]
    change rec ∈ (c.applyLog (logAfter calls)).records ↔ _
    rcases c with batch | ⟨k, _ | stop⟩
    · rw [Call.applyLog, Log.records_appendBatch, List.mem_append, Log.landing, attached_logAfter]
      rcases ha : attachedAfter calls <;> simp [or_comm]
    · rw [Call.applyLog, Log.checkpoint, Log.mem_survivors]
      simp [discards]
    · rw [Call.applyLog]
      rcases hr : stop.renamed <;>
        simp [Log.checkpointFailedAfter, Log.mem_survivors, discards, hr]

/-! ### The result -/

/-- A batch appended through the active segment is returned, unless a later checkpoint covers it. -/
theorem kept_or_covered {pre post : List Call} {batch : List WalRecord} {rec : WalRecord}
    (hatt : attachedAfter pre = true) (hmem : rec ∈ batch) :
    Kept rec (pre ++ .append batch :: post) ∨ Covered rec post := by
  by_cases hc : Covered rec post
  · exact Or.inr hc
  · refine Or.inl ⟨pre, batch, post, rfl, hatt, hmem, fun k stop hk _ => ?_⟩
    by_contra hlt
    exact hc ⟨k, stop, hk, not_lt.mp hlt⟩

/-- **Failed checkpoints**: every acknowledged batch is returned exactly when each record appended after
a checkpoint that failed past its rename, and before the next that succeeded, is covered by a later
checkpoint call, or is in the log anyway. -/
theorem readable_iff {calls : List Call} (hf : CallsFit calls) :
    Readable calls ↔ ∀ pre batch post, calls = pre ++ .append batch :: post →
      attachedAfter pre = false → ∀ rec ∈ batch, Covered rec post ∨ Kept rec calls := by
  unfold Readable
  rw [returned_eq hf]
  constructor
  · rintro ⟨records, hrec, h⟩ pre batch post heq - rec hmem
    obtain rfl := Option.some.inj hrec
    exact (h pre batch post heq rec hmem).symm.imp_right mem_logAfter.mp
  · intro h
    refine ⟨_, rfl, fun pre batch post heq rec hmem => ?_⟩
    rw [mem_logAfter]
    rcases ha : attachedAfter pre with _ | _
    · exact (h pre batch post heq ha rec hmem).symm
    · exact heq ▸ kept_or_covered ha hmem

/-- A checkpoint that fails at its rename, between two batches. -/
theorem readable_iff_rename : Readable
    [.append [sample 1], .checkpoint 1 (some .rename), .append [sample 2]] := by
  refine (readable_iff fun batch hb rec hmem => ?_).mpr fun pre batch post heq ha => ?_
  · simp only [List.mem_cons, Call.append.injEq, reduceCtorEq, List.not_mem_nil, or_false, false_or]
      at hb
    rcases hb with rfl | rfl <;> rw [List.mem_singleton.mp hmem] <;> decide
  · rw [attachedAfter_of_not_renamed] at ha
    · cases ha
    · intro k stop hc
      have hc' := heq ▸ List.mem_append_left (Call.append batch :: post) hc
      simp at hc'
      rw [hc'.2]
      rfl

/-- Syncing the directory fails, and the batch appended next is gone. -/
theorem append_after_failed_checkpoint_lost :
    CallsFit [.checkpoint 0 (some .syncDir), .append [sample 1]] ∧
    returned [.checkpoint 0 (some .syncDir), .append [sample 1]] = some [] ∧
    ¬ Readable [.checkpoint 0 (some .syncDir), .append [sample 1]] := by
  have hfit : CallsFit [.checkpoint 0 (some .syncDir), .append [sample 1]] := by
    intro batch hb rec hmem
    simp only [List.mem_cons, Call.append.injEq, reduceCtorEq, List.not_mem_nil, or_false, false_or]
      at hb
    subst hb
    rw [List.mem_singleton.mp hmem]
    decide
  have hret : returned [.checkpoint 0 (some .syncDir), .append [sample 1]] = some [] :=
    (returned_eq hfit).trans rfl
  refine ⟨hfit, hret, ?_⟩
  rintro ⟨records, hrec, h⟩
  obtain rfl := Option.some.inj (hret.symm.trans hrec)
  rcases h [.checkpoint 0 (some .syncDir)] [sample 1] [] rfl (sample 1) List.mem_cons_self with
    hmem | ⟨k, stop, hk, -⟩
  · cases hmem
  · cases hk

end FluxThroughput.Wal.CheckpointFail
