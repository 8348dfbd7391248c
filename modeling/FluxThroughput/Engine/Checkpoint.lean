import FluxThroughput.Engine.Floor

/-! # What a checkpoint may discard

A write is covered while the store or the log holds its player at its version or newer. No step but a
checkpoint ends that, and a checkpoint is called with a watermark that says nothing about the players
below it: it may remove the frame of a write that still waits, dirty or in a batch that another thread
has taken. So coverage fails in general. Where checkpoints remove no frame of a waiting write (`spares`),
a frame that is gone is one that the store has caught up with: of what flushes have logged and of what was
recovered this is all one has to ask. Of a durable write one has to ask it only once its ring copy has been
drained (`DrainedWaiting`); until then its LSN is pending, and the floor keeps its frame. -/

namespace FluxThroughput.Engine.Checkpoint

open FluxThroughput.Domain.Types FluxThroughput.Cache.WriteBehind FluxThroughput.Store.Mock
open FluxThroughput.Wal.Atomic FluxThroughput.Engine.Config FluxThroughput.Engine.Machine
open FluxThroughput.Engine.Refine FluxThroughput.Engine.NoLoss FluxThroughput.Engine.Events
open FluxThroughput.Engine.Floor FluxThroughput.Lib.Transition FluxThroughput.Lib.WriteBehind

/-! ### Coverage -/

/-- The log holds a record of the player with at least this version. -/
def WalHolds (s : FluxEngine) (id : PlayerId) (v : UInt64) : Prop :=
  ∃ rec ∈ s.sh.wal.records, rec.playerId = id ∧ v ≤ rec.version

/-- The store or the log answers for the write. -/
def Protected (s : FluxEngine) (rec : WalRecord) : Prop :=
  StoreHolds s rec.playerId rec.version ∨ WalHolds s rec.playerId rec.version

/-! ### The condition on checkpoints -/

/-- The write waits for the store: its player is dirty, or a thread has taken the player at this version or
newer and neither persisted nor put it back. -/
def Waiting (s : FluxEngine) (rec : WalRecord) : Prop :=
  rec.playerId ∈ s.sh.cache.inner.dirty ∨
    ∃ t, ∃ st ∈ batch (s.pc t), st.playerId = rec.playerId ∧ rec.version ≤ st.version

/-- The batch that the thread has persisted last. -/
def lastPersisted (h : List (Tid × Event)) (t : Tid) : List PlayerState :=
  ((h.filterMap fun
    | (u, .persisted states) => if u = t then some states else none
    | _ => none).getLast?).getD []

/-- The batch that the thread has persisted last has the player at this version or newer. -/
def InBatch (h : List (Tid × Event)) (t : Tid) (rec : WalRecord) : Prop :=
  ∃ st ∈ lastPersisted h t, st.playerId = rec.playerId ∧ rec.version ≤ st.version

/-- The writes a history tracks. -/
abbrev Tracked := List (Tid × Event) → List WalRecord

/-- **The condition on the schedule**: when a flush calls `wal.checkpoint(safe)`, no frame of a tracked write
that this removes is of a write that waits, those of the flush's own batch apart. -/
def spares (waits : FluxEngine → WalRecord → Prop) (tracked : Tracked) :
    Guard FluxEngine Action (Tid × Event) := fun s h a =>
  ∀ t env k count safe, a = .run t env → s.pc t = .checkpoint k count safe →
    ∀ rec ∈ tracked h, rec ∈ s.sh.wal.records → rec.lsn ≤ safe → waits s rec → InBatch h t rec

/-- The records of the durable writes that have been logged. -/
def durablyLogged : Tracked := fun h => h.filterMap fun
  | (_, .durableLogged rec) => some rec
  | _ => none

/-- The records of the batches that flushes have logged. -/
def batchLogged : Tracked := fun h => h.flatMap fun
  | (_, .logged records) => records
  | _ => []

/-- What is recovered from the log, as far as the store does not hold it already. -/
def unabsorbed (wal : Log) (table : Table) : List WalRecord :=
  wal.recover.1.filter fun rec =>
    match table rec.playerId with
    | some st => decide (st.version < rec.version)
    | none => true

variable {cfg : ValidConfig} {s s' : FluxEngine} {h e : List (Tid × Event)} {a : Action}
  {ok : Guard FluxEngine Action (Tid × Event)}

theorem mem_batchLogged {rec : WalRecord} :
    rec ∈ batchLogged h ↔ ∃ t records, (t, Event.logged records) ∈ h ∧ rec ∈ records := by
  unfold batchLogged
  rw [List.mem_flatMap]
  constructor
  · rintro ⟨⟨t, ev⟩, hev, hm⟩
    cases ev with
    | logged records => exact ⟨t, records, hev, hm⟩
    | _ => cases hm
  · rintro ⟨t, records, hev, hm⟩
    exact ⟨_, hev, hm⟩

theorem mem_unabsorbed {wal : Log} (table : Table) {rec : WalRecord} (hm : rec ∈ wal.recover.1) :
    rec ∈ unabsorbed wal table ∨ ∃ st, table rec.playerId = some st ∧ rec.version ≤ st.version := by
  unfold unabsorbed
  rw [List.mem_filter]
  rcases ht : table rec.playerId with _ | st
  · exact Or.inl ⟨hm, rfl⟩
  · rcases lt_or_ge st.version rec.version with hlt | hge
    · exact Or.inl ⟨hm, decide_eq_true hlt⟩
    · exact Or.inr ⟨st, rfl, hge⟩

/-- What has been persisted is in the store. -/
theorem persisted_stored (hr : Run (system cfg) ok s h) :
    ∀ t states, (t, Event.persisted states) ∈ h →
      ∀ st ∈ states, StoreHolds s st.playerId st.version := by
  refine hr.invariant (I := fun s h => ∀ t states, (t, Event.persisted states) ∈ h →
    ∀ st ∈ states, StoreHolds s st.playerId st.version) (by simp) ?_
  intro s h a s' e _ ih _ hs t states hev st hst
  rcases List.mem_append.mp hev with hev | hev
  · exact storeHolds_step hs (ih t states hev st hst)
  · rcases step_cases hs with ⟨n, c, -, -, rfl, -⟩ | ⟨u, env, sh, pc, es, -, hstep, rfl, rfl⟩ |
      ⟨-, rfl, -⟩
    · cases c <;> simp [tagged, Call.entry] at hev
    · obtain ⟨ev, hev, heq⟩ := List.mem_map.mp hev
      obtain ⟨rfl, rfl⟩ := Prod.mk.inj heq
      have htab : sh.table = upsert s.sh.table states := reported_step hstep _ hev
      have hreach : Reaches (versions sh.table) st.playerId st.version := by
        rw [htab, versions_upsert, reaches_foldl_raise]
        exact Or.inr ⟨_, List.mem_map_of_mem hst, rfl, le_rfl⟩
      exact (reaches_store (h := h)).mp hreach
    · simp at hev

/-- Under a healthy log, the log stays attached. -/
theorem attached_run (hok : ∀ s h a, ok s h a → walHealthy a) (hr : Run (system cfg) ok s h) :
    s.sh.wal.attached = true := by
  refine hr.invariant (I := fun s _ => s.sh.wal.attached = true) ?_ ?_
  · rintro _ ⟨wal, table, rfl⟩
    rfl
  · intro s h a s' e _ ih hoka hs
    rcases step_cases hs with ⟨n, c, -, -, -, rfl⟩ | ⟨u, env, sh, pc, es, rfl, hstep, -, rfl⟩ |
      ⟨-, -, rfl⟩
    · exact ih
    · obtain ⟨ha, hc⟩ := hok _ _ _ hoka
      exact attached_step ha hc hstep ih
    · exact ih

theorem persisted_of_inBatch {t : Tid} {rec : WalRecord} (hb : InBatch h t rec) :
    ∃ states, (t, Event.persisted states) ∈ h ∧
      ∃ st ∈ states, st.playerId = rec.playerId ∧ rec.version ≤ st.version := by
  obtain ⟨st, hst, hkey⟩ := hb
  unfold lastPersisted at hst
  rcases hlast : (h.filterMap fun
    | (u, .persisted states) => if u = t then some states else none
    | _ => none).getLast? with _ | states
  · rw [hlast] at hst
    cases hst
  · rw [hlast] at hst
    obtain ⟨⟨u, ev⟩, hev, heq⟩ := List.mem_filterMap.mp (List.mem_of_getLast? hlast)
    cases ev with
    | persisted states' =>
      simp only [Option.ite_none_right_eq_some, Option.some.injEq] at heq
      obtain ⟨rfl, rfl⟩ := heq
      exact ⟨states', hev, st, hst, hkey⟩
    | _ => cases heq

/-- What the flush has persisted last is in the store. -/
theorem InBatch.stored (hr : Run (system cfg) ok s h) {t : Tid} {rec : WalRecord} (hb : InBatch h t rec) :
    StoreHolds s rec.playerId rec.version := by
  obtain ⟨states, hev, st, hst, hid, hv⟩ := persisted_of_inBatch hb
  obtain ⟨cur, hcur, hle⟩ := persisted_stored hr t states hev st hst
  exact ⟨cur, hid ▸ hcur, hv.trans hle⟩

/-- **A write that has reached the cache and does not wait is in the store.** -/
theorem stored_of_not_waiting (hr : Run (system cfg) ok s h) {rec : WalRecord}
    (hc : CacheHolds s rec.playerId rec.version) (hno : ¬ Waiting s rec) :
    StoreHolds s rec.playerId rec.version := by
  have hset : Settled (pipe s h) (recKey rec) := by
    refine ⟨reaches_cached.mpr hc, fun hd => hno (Or.inl hd), fun u w hmem hid hle => hno ?_⟩
    obtain ⟨st, hst, rfl⟩ := List.mem_map.mp hmem
    exact Or.inr ⟨u, st, hst, hid, hle⟩
  exact reaches_store.mp ((run_inv hr).stored_of_settled hset)

/-- So is one whose frame a sparing checkpoint removes. -/
theorem stored_of_spared (hr : Run (system cfg) ok s h) {t : Tid} {rec : WalRecord}
    (hc : CacheHolds s rec.playerId rec.version) (hw : Waiting s rec → InBatch h t rec) :
    StoreHolds s rec.playerId rec.version := by
  by_cases hwait : Waiting s rec
  · exact (hw hwait).stored hr
  · exact stored_of_not_waiting hr hc hwait

section From
variable {wal : Log} {table : Table}

/-- What has been recovered stays cached. -/
theorem recovered_cached (hr : Run (systemFrom cfg wal table) ok s h) :
    ∀ rec ∈ wal.recover.1, CacheHolds s rec.playerId rec.version := by
  refine hr.invariant (I := fun s _ => ∀ rec ∈ wal.recover.1, CacheHolds s rec.playerId rec.version) ?_
    fun _ _ _ _ _ _ ih _ hs rec hrec => cacheHolds_step hs (ih rec hrec)
  rintro _ rfl
  exact replay_holds wal table

/-- What has been in the store from the start stays there. -/
theorem stored_from (hr : Run (systemFrom cfg wal table) ok s h) {id : PlayerId} {v : UInt64}
    (hst : ∃ st, table id = some st ∧ v ≤ st.version) : StoreHolds s id v := by
  refine hr.invariant (I := fun s _ => StoreHolds s id v) ?_
    fun _ _ _ _ _ _ ih _ hs => storeHolds_step hs ih
  rintro _ rfl
  exact hst

end From

/-! ### What flushes log has reached the cache -/

/-- A batch is about to be logged with the writes of its states. -/
theorem stamped_step {env : Env} {sh sh' : Shared} {pc : Pc} {es : List Event} {k : FlushFor}
    {states : List PlayerState} {records : List WalRecord}
    (hs : pc.step cfg env sh = some (sh', .appendBatch k states records, es)) :
    records.map recKey = states.map stateKey := by
  have hbare : ∀ {pc' : Pc}, isBare pc' = true → pc' ≠ .appendBatch k states records := by
    rintro _ hb rfl
    cases hb
  have hdrain : ∀ k' moved l, drainNext cfg k' moved l ≠ .appendBatch k states records := by
    intro k' moved l
    cases l with
    | nil => exact hbare (bare_drainDone cfg moved k')
    | cons => exact Pc.noConfusion
  cases pc with
  | allocBlock k' states' =>
    simp only [Pc.step, Option.some.injEq, Prod.mk.injEq, Pc.appendBatch.injEq] at hs
    obtain ⟨-, ⟨-, rfl, rfl⟩, -⟩ := hs
    exact recKey_stamp _ _
  | drainPop | drainApply | takeDirty | watermark | checkpoint | requeue =>
    simp only [Pc.step] at hs
    repeat' split at hs
    all_goals
      simp only [Option.some.injEq, Prod.mk.injEq, reduceCtorEq, false_and, and_false] at hs
    all_goals
      first
        | exact absurd hs.2.1 (hdrain _ _ _)
        | exact absurd hs.2.1 (hbare (bare_flushEnd _))
        | exact absurd hs.2.1 (hbare (bare_batchOk _ _))
        | exact absurd hs.2.1 (hbare (bare_checkpointFailed _ _))
        | exact absurd hs.2.1 (hbare (bare_batchFailed _))
  | _ =>
    simp only [Pc.step] at hs
    repeat' split at hs
    all_goals simp at hs

/-- **What is in a batch or has been logged by a flush has reached the cache.** -/
structure FlushesCached (s : FluxEngine) (h : List (Tid × Event)) : Prop where
  batches : BatchesCached (pipe s h)
  stamped : ∀ t k states records, s.pc t = .appendBatch k states records →
    records.map recKey = states.map stateKey
  logged : ∀ rec ∈ batchLogged h, CacheHolds s rec.playerId rec.version

theorem batchLogged_append (h e : List (Tid × Event)) :
    batchLogged (h ++ e) = batchLogged h ++ batchLogged e := List.flatMap_append

/-- What a thread is about to log has reached the cache. -/
theorem FlushesCached.records (hf : FlushesCached s h) {t : Tid} {k : FlushFor} {states : List PlayerState}
    {records : List WalRecord} (hpc : s.pc t = .appendBatch k states records) :
    ∀ rec ∈ records, CacheHolds s rec.playerId rec.version := by
  intro rec hrec
  have hmem : recKey rec ∈ states.map stateKey := by
    rw [← hf.stamped t k states records hpc]
    exact List.mem_map_of_mem hrec
  have hbatch : recKey rec ∈ ((pipe s h).hold t).batch := by
    change recKey rec ∈ (batch (s.pc t)).map stateKey
    rw [hpc]
    exact hmem
  exact reaches_cached.mp (hf.batches t _ hbatch)

theorem FlushesCached.step (hf : FlushesCached s h) (hs : s.step cfg a = some (s', e)) :
    FlushesCached s' (h ++ e) := by
  have hmove : Move (pipe s h) (pipe s' (h ++ e)) := step_move hs
  have hcached : ∀ rec ∈ batchLogged e, CacheHolds s rec.playerId rec.version := by
    intro rec hrec
    obtain ⟨t, records, hev, hmem⟩ := mem_batchLogged.mp hrec
    rcases step_cases hs with ⟨n, c, -, -, rfl, -⟩ | ⟨u, env, sh, pc, es, -, hstep, rfl, -⟩ | ⟨-, rfl, -⟩
    · cases c <;> simp [tagged, Call.entry] at hev
    · obtain ⟨ev, hev, heq⟩ := List.mem_map.mp hev
      obtain ⟨-, rfl⟩ := Prod.mk.inj heq
      obtain ⟨⟨k, states, hpc⟩, -⟩ := reported_step hstep _ hev
      exact hf.records hpc rec hmem
    · cases hev
  refine ⟨hmove.batchesCached hf.batches, fun t k states records hpc => ?_, fun rec hrec => ?_⟩
  · rcases step_cases hs with ⟨n, c, -, -, -, rfl⟩ | ⟨u, env, sh, pc, es, -, hstep, -, rfl⟩ | ⟨-, -, rfl⟩
    · by_cases ht : t = .client n
      · subst ht
        simp only [Function.update_self] at hpc
        cases c <;> cases hpc
      · simp only [Function.update_of_ne ht] at hpc
        exact hf.stamped t k states records hpc
    · by_cases ht : t = u
      · subst ht
        simp only [Function.update_self] at hpc
        subst hpc
        exact stamped_step hstep
      · simp only [Function.update_of_ne ht] at hpc
        exact hf.stamped t k states records hpc
    · exact hf.stamped t k states records hpc
  · rw [batchLogged_append] at hrec
    rcases List.mem_append.mp hrec with hold | hnew
    · exact cacheHolds_step hs (hf.logged rec hold)
    · exact cacheHolds_step hs (hcached rec hnew)

/-- The log has the record's own frame, or the store has caught up with the write. -/
def Kept (s : FluxEngine) (rec : WalRecord) : Prop :=
  rec ∈ s.sh.wal.records ∨ StoreHolds s rec.playerId rec.version

theorem Kept.protected {rec : WalRecord} (hk : Kept s rec) : Protected s rec := by
  rcases hk with hrec | hst
  · exact Or.inr ⟨rec, hrec, rfl, le_rfl⟩
  · exact Or.inl hst

/-- Frames that a step removes are of writes that the store has caught up with. -/
def RemovesStored (s : FluxEngine) (a : Action) (rec : WalRecord) : Prop :=
  ∀ t env k count safe, a = .run t env → s.pc t = .checkpoint k count safe →
    rec ∈ s.sh.wal.records → rec.lsn ≤ safe → StoreHolds s rec.playerId rec.version

theorem Kept.step {rec : WalRecord} (hk : Kept s rec) (hrem : RemovesStored s a rec)
    (hs : s.step cfg a = some (s', e)) : Kept s' rec := by
  rcases hk with hrec | hst
  · rcases step_cases hs with ⟨n, c, -, -, -, rfl⟩ | ⟨t, env, sh, pc, es, rfl, hstep, -, rfl⟩ | ⟨-, -, rfl⟩
    · exact Or.inl hrec
    · by_cases hck : isCheckpoint (s.pc t)
      · obtain ⟨k, count, safe, hpc⟩ := exists_of_isCheckpoint hck
        rw [hpc] at hstep
        obtain ⟨wal, rfl, -, -, hsurvive⟩ := step_checkpoint hstep
        by_cases hle : rec.lsn ≤ safe
        · exact Or.inr (storeHolds_step hs (hrem t env k count safe rfl hpc hrec hle))
        · refine Or.inl ?_
          rcases hsurvive with hsurvive | hsurvive <;> simp only [hsurvive]
          · exact Log.mem_survivors.mpr ⟨hrec, not_le.mp hle⟩
          · exact hrec
      · exact Or.inl (records_step hck hstep hrec)
    · exact Or.inl hrec
  · exact Or.inr (storeHolds_step hs hst)

/-- **Every tracked write is kept**, when its frame is there as it becomes tracked and checkpoints remove
only frames that the store has caught up with. -/
theorem kept_run (tracked : Tracked) {S : System FluxEngine Action (Tid × Event)}
    (hS : S.step = FluxEngine.step cfg) (hinit : ∀ s, S.init s → ∀ rec ∈ tracked [], Kept s rec)
    (hnew : ∀ s h a s' e, Run S ok s h → ok s h a → s.step cfg a = some (s', e) →
      ∀ rec ∈ tracked (h ++ e), rec ∈ tracked h ∨ rec ∈ s'.sh.wal.records)
    (hrem : ∀ s h a, Run S ok s h → ok s h a → ∀ rec ∈ tracked h, RemovesStored s a rec)
    (hr : Run S ok s h) : ∀ rec ∈ tracked h, Kept s rec := by
  refine hr.invariant (I := fun s h => ∀ rec ∈ tracked h, Kept s rec) hinit ?_
  intro s h a s' e hrun ih hok hs rec htr
  rw [hS] at hs
  rcases hnew s h a s' e hrun hok hs rec htr with hold | hland
  · exact (ih rec hold).step (hrem s h a hrun hok rec hold) hs
  · exact Or.inl hland

/-- Some state of the list is of the record's player, at its version or newer. -/
def holds (states : List PlayerState) (rec : WalRecord) : Bool :=
  states.any fun st => st.playerId == rec.playerId && decide (rec.version ≤ st.version)

theorem holds_iff {states : List PlayerState} {rec : WalRecord} :
    holds states rec = true ↔ ∃ st ∈ states, st.playerId = rec.playerId ∧ rec.version ≤ st.version := by
  unfold holds
  simp only [List.any_eq_true, Bool.and_eq_true, beq_iff_eq, decide_eq_true_eq]

/-- The check of `Waiting`, where the threads that are not listed are idle. -/
def waiting (threads : List Tid) (s : FluxEngine) (rec : WalRecord) : Bool :=
  decide (rec.playerId ∈ s.sh.cache.inner.dirty) || threads.any fun t => holds (batch (s.pc t)) rec

theorem waiting_of_others {threads : List Tid} {rec : WalRecord} (hj : OthersIdle threads s h)
    (hw : Waiting s rec) : waiting threads s rec = true := by
  unfold waiting
  rw [Bool.or_eq_true, decide_eq_true_eq, List.any_eq_true]
  refine hw.imp_right fun ⟨t, ht⟩ => ⟨t, ?_, holds_iff.mpr ht⟩
  by_contra hno
  obtain ⟨st, hst, -⟩ := ht
  rw [hj t hno] at hst
  cases hst

/-- A check that implies the condition. -/
def sparesCheck (waits : FluxEngine → WalRecord → Bool) (tracked : Tracked) (s : FluxEngine)
    (h : List (Tid × Event)) : Action → Bool
  | .run t _ =>
    match s.pc t with
    | .checkpoint _ _ safe => (tracked h).all fun rec =>
      decide (rec ∉ s.sh.wal.records) || decide (safe < rec.lsn) || !waits s rec ||
        holds (lastPersisted h t) rec
    | _ => true
  | _ => true

theorem spares_of_check {waits : FluxEngine → WalRecord → Prop} {waits' : FluxEngine → WalRecord → Bool}
    {tracked : Tracked} (hw : ∀ rec, waits s rec → waits' s rec = true)
    (hc : sparesCheck waits' tracked s h a = true) : spares waits tracked s h a := by
  rintro t env k count safe rfl hpc rec hrec hmem hle hwait
  simp only [sparesCheck, hpc, List.all_eq_true] at hc
  have hany := hc rec hrec
  simp only [hmem, not_true, decide_false, not_lt.mpr hle, hw rec hwait, Bool.not_true,
    Bool.false_or] at hany
  exact holds_iff.mp hany

/-- Nothing answers for a write once its player is not stored and the log is empty. -/
theorem not_protected (rec : WalRecord) (ht : s.sh.table rec.playerId = none)
    (hw : s.sh.wal.records = []) : ¬ Protected s rec := by
  rintro (⟨st, hst, -⟩ | ⟨r, hr, -⟩)
  · rw [ht] at hst; cases hst
  · rw [hw] at hr; cases hr

/-! ### The three promises -/

/-- **Recovery is itself crash-safe**, in every run from a log and a store whose checkpoints remove no frame
of a recovered write that waits, those apart which the store has held from the start. -/
theorem recovered_protected {wal : Log} {table : Table}
    (hr : Run (systemFrom cfg wal table) (spares Waiting fun _ => unabsorbed wal table) s h) :
    ∀ rec ∈ wal.recover.1, Protected s rec := by
  intro rec hrec
  rcases mem_unabsorbed table hrec with hnew | hheld
  · refine (kept_run (fun _ => unabsorbed wal table) (S := systemFrom cfg wal table) rfl ?_
      (fun _ _ _ _ _ _ _ _ _ hold => Or.inl hold) ?_ hr rec hnew).protected
    · rintro _ rfl rec hm
      exact Or.inl (List.mem_filter.mp hm).1
    · rintro s h a hrun hsp rec htr t env k count safe rfl hpc hmem hle
      exact stored_of_spared (run_system hrun) (recovered_cached hrun rec (List.mem_filter.mp htr).1)
        (hsp t env k count safe rfl hpc rec htr hmem hle)
  · exact Or.inl (stored_from hr hheld)

/-- A log with the records of two players. -/
def twoRecords : Log := ⟨[⟨1, 7, 1, []⟩, ⟨2, 8, 1, []⟩], 2, true⟩

/-- A store that holds the first of them. -/
def oneStored : Table := upsert (fun _ => none) [⟨7, 1, []⟩]

/-- Two records are recovered, one of them in the store already; the flush of the other removes both
frames. -/
theorem recovered_protected_flush : ∃ s h, Run
      (systemFrom oneByOne twoRecords oneStored)
      (spares Waiting fun _ => unabsorbed twoRecords oneStored) s h ∧
    s.sh.wal.records = [] ∧ Protected s ⟨1, 7, 1, []⟩ ∧ Protected s ⟨2, 8, 1, []⟩ := by
  obtain ⟨s, h, hr, -, hp⟩ := exists_run_of_exec_inv
    (systemFrom oneByOne twoRecords oneStored)
    (spares Waiting fun _ => unabsorbed twoRecords oneStored)
    (OthersIdle [.worker])
    (fun s h a => actsIn [.worker] a &&
      sparesCheck (waiting [.worker]) (fun _ => unabsorbed twoRecords oneStored) s h a)
    (fun _ _ _ _ _ hj hg => hj.step (Bool.and_eq_true _ _ ▸ hg).1)
    (fun _ _ _ hj hg => spares_of_check (fun _ => waiting_of_others hj) (Bool.and_eq_true _ _ ▸ hg).2)
    (start twoRecords oneStored)
    (List.replicate 9 (Machine.Action.run .worker (.fine [8, 7])))
    (fun x => decide (x.1.sh.wal.records = []))
    rfl (othersIdle_start _ (by decide) _ _) (by decide +kernel)
  exact ⟨s, h, hr, of_decide_eq_true hp, recovered_protected hr _ (by decide),
    recovered_protected hr _ (by decide)⟩

/-- Two records are recovered; the flush of the first batch checkpoints past the other's frame. -/
theorem recovered_lost : ¬ ∀ (cfg : ValidConfig) (wal : Log) (table : Table) (s : FluxEngine)
    (h : List (Tid × Event)), Run (systemFrom cfg wal table) (fun _ _ a => walHealthy a) s h →
      ∀ rec ∈ wal.recover.1, Protected s rec := by
  intro hall
  obtain ⟨s, h, hr, hp⟩ := exists_run_of_exec
    (systemFrom oneByOne ⟨[⟨1, 7, 1, []⟩, ⟨2, 8, 1, []⟩], 2, true⟩ fun _ => none)
    (fun _ _ a => walHealthy a)
    (fun _ _ a => decide (walHealthy a)) (fun _ _ _ => of_decide_eq_true)
    (start ⟨[⟨1, 7, 1, []⟩, ⟨2, 8, 1, []⟩], 2, true⟩ fun _ => none)
    (List.replicate 9 (Machine.Action.run .worker (.fine [8, 7])))
    (fun x => decide (x.1.sh.table 7 = none) && decide (x.1.sh.wal.records = []))
    rfl (by decide)
  simp only [Bool.and_eq_true, decide_eq_true_eq] at hp
  exact not_protected ⟨1, 7, 1, []⟩ hp.1 hp.2 (hall _ _ _ s h hr _ (by decide))

end FluxThroughput.Engine.Checkpoint
