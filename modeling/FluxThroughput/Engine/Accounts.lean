import FluxThroughput.Engine.Metering

/-! # What the metrics of a running engine say

The accounts of the threads are added up and compared with what the engine has done: the counters of
submits and appends are exact, those of flushes never run ahead of the store, and no snapshot shows more
flushed than logged. The last compares two cells, and holds for cells that are accessed as if they were
sequentially consistent. -/

namespace FluxThroughput.Engine.Metering

open FluxThroughput.Domain.Types FluxThroughput.Engine.Config
open FluxThroughput.Engine.Machine FluxThroughput.Wal.Atomic
open FluxThroughput.Lib.Transition FluxThroughput.Lib.Accumulators FluxThroughput.Metrics
open FluxThroughput.Metrics.Counters

/-! ### Totals -/

/-- What an event adds to a counter, a length as a 64-bit number. -/
def counts : Field → Machine.Event → ℕ
  | .submitsEnqueued, .submitReturned _ true => 1
  | .submitsDropped, .submitReturned _ false => 1
  | .walAppends, .logged _ => 1
  | .walRecords, .logged records => asU64 records.length
  | .flushes, .persisted _ => 1
  | .recordsFlushed, .persisted states => asU64 states.length
  | _, _ => 0

/-- What the engine has done, in the unit of a counter. -/
def total (f : Field) (h : List (Tid × Event)) : ℕ := ((ofEngine h).map fun x => counts f x.2).sum

/-- The counters that are recorded right after the call they count. -/
def Field.atOnce : Field → Bool
  | .submitsEnqueued | .submitsDropped | .walAppends | .walRecords => true
  | _ => false

/-- The counters that are recorded when a batch is done. -/
def Field.ofFlush : Field → Bool
  | .flushes | .recordsFlushed => true
  | _ => false

theorem not_gauge_of_atOnce {f : Field} (hf : Field.atOnce f = true) : f.isGauge = false := by
  cases f <;> first | rfl | cases hf

theorem ofFlush_cases {f : Field} (hf : Field.ofFlush f = true) : f = .flushes ∨ f = .recordsFlushed := by
  cases f <;> first | exact Or.inl rfl | exact Or.inr rfl | cases hf

section Counts
variable {cfg : ValidConfig} {env : Env} {sh sh' : Shared} {pc pc' : Machine.Pc}
  {es : List Machine.Event} {f : Field}

theorem counts_flushEnd (f : Field) (k : FlushFor) : ((flushEnd k).2.map (counts f)).sum = 0 := by
  cases k <;> cases f <;> rfl

theorem counts_batchFailed (f : Field) (k : FlushFor) : ((batchFailed k).2.map (counts f)).sum = 0 := by
  cases k <;> cases f <;> rfl

theorem counts_checkpointFailed (f : Field) (count : ℕ) (k : FlushFor) :
    ((checkpointFailed count k).2.map (counts f)).sum = 0 := by
  cases k <;> cases f <;> rfl

/-- No other recording call touches these counters. -/
theorem amounts_atOnce (hf : Field.atOnce f = true) (n : ℕ) (nanos : UInt64) :
    amount f (recordFlush n nanos) = 0 ∧ amount f recordStoreRetry = 0 ∧
      amount f recordStoreError = 0 := by
  cases f <;> first | exact ⟨rfl, rfl, rfl⟩ | cases hf

/-- **A step records what its events count.** -/
theorem counts_step (hf : Field.atOnce f = true) (logged : Bool) (nanos : UInt64)
    (hs : pc.step cfg env sh = some (sh', pc', es)) :
    amount f ((recordsAfter cfg env sh logged nanos pc).getD []) = (es.map (counts f)).sum := by
  cases pc with
  | idle | exited => cases hs
  | submitAlloc | durableAlloc | durableNote | drainNote | finalRing | allocBlock | drainApply =>
    cases hs
    rfl
  | submitEnqueue req =>
    simp only [Machine.Pc.step] at hs
    rcases hq : sh.tryEnqueue cfg req with _ | sh1 <;> simp only [hq] at hs <;> cases hs <;>
      simp only [recordsAfter, hq, Option.getD_some] <;>
      cases f <;> first | rfl | cases hf
  | appendBatch k states records =>
    simp only [Machine.Pc.step] at hs
    rcases hx : env.append with _ | ⟨landed, torn⟩ <;> simp only [hx] at hs <;> cases hs <;>
      simp only [recordsAfter, hx]
    · cases f <;> first | rfl | simp [amount, recordWalAppend, counts, asU64]
    · rfl
  | persistBatch k states last attempt =>
    have hretry := (amounts_atOnce hf 0 0).2.1
    have hpersisted : counts f (.persisted states) = 0 := by cases f <;> first | rfl | cases hf
    simp only [Machine.Pc.step] at hs
    rcases hx : env.persist with _ | err <;> simp only [hx] at hs <;> simp only [recordsAfter, hx]
    · cases hs
      exact hpersisted.symm
    · split at hs <;> cases hs
      · rename_i hend
        rw [if_pos hend]
        rfl
      · rename_i hmore
        rw [if_neg hmore]
        exact hretry
  | watermark k count last =>
    have hflush := (amounts_atOnce hf count nanos).1
    simp only [Machine.Pc.step] at hs
    rcases hx : sh.lsn.checkpointWatermark last with _ | safe <;> simp only [hx] at hs <;> cases hs <;>
      simp only [recordsAfter, hx]
    · exact hflush
    · rfl
  | checkpoint k count safe =>
    have hflush := (amounts_atOnce hf count nanos).1
    have hno := counts_checkpointFailed f count k
    simp only [Machine.Pc.step] at hs
    rcases hx : env.checkpoint <;> simp only [hx] at hs <;> cases hs
    · simp only [recordsAfter, hx]
      exact hflush
    all_goals
      rw [hno]
      cases k <;> simp only [recordsAfter, hx] <;> first | exact hflush | rfl
  | requeue k states =>
    have herror := (amounts_atOnce hf 0 0).2.2
    cases hs
    rw [counts_batchFailed]
    cases k <;> cases logged <;> first | exact herror | rfl
  | takeDirty k =>
    simp only [Machine.Pc.step] at hs
    split_ifs at hs <;> cases hs
    · exact (counts_flushEnd f k).symm
    · rfl
  | durableAppend | durableClear | durableEnqueue | drainPop | flushNowCheck | top | decide | finalDirty
    | finalAfter =>
    simp only [Machine.Pc.step] at hs
    repeat' split at hs
    all_goals
      cases hs
      cases f <;> rfl

end Counts

/-! ### What the counters say -/

section Totals
variable {cfg : ValidConfig} {s s' : Metered} {a : Action} {h e : List (Tid × Event)} {f : Field}

theorem total_append (f : Field) (h e : List (Tid × Event)) :
    total f (h ++ e) = total f h + total f e := by
  unfold total
  rw [ofEngine_append, List.map_append, List.sum_append]

theorem total_eq {t : Tid} {es : List Machine.Event} (he : ofEngine e = tagged t es) :
    total f e = (es.map (counts f)).sum := by
  unfold total
  rw [he, tagged, List.map_map]
  rfl

/-- What the calls have recorded for a field. -/
def called (f : Field) (h : List (Tid × Event)) : ℕ :=
  amount f ((calledUpdates (ofMetrics h)).map Prod.snd)

theorem called_append (f : Field) (h e : List (Tid × Event)) :
    called f (h ++ e) = called f h + called f e := by
  unfold called
  rw [ofMetrics_append, calledUpdates_append, List.map_append, amount_append]

theorem called_eq {t : Tid} {us : List Update} (hcalled : calledUpdates (ofMetrics e) = us.map (t, ·)) :
    called f e = amount f us := by
  unfold called
  rw [hcalled, List.map_map]
  exact congrArg (amount f) (List.map_id us)

theorem counts_entry (f : Field) (c : Call) : (c.entry.2.map (counts f)).sum = 0 := by
  cases c <;> cases f <;> rfl

/-- **Submits and appends are recorded as they happen.** -/
theorem run_called (hf : Field.atOnce f = true) (hr : Run (system cfg) anyStep s h) :
    called f h = total f h := by
  induction hr with
  | init hs => rfl
  | step hr hok hs ih =>
    rw [called_append, total_append, ih]
    congr 1
    rcases step_records hs with ⟨n, c, -, hcalled, he, -⟩ |
      ⟨t, env, nanos, sh, pc, es, hstep, hcalled, he, -⟩ | ⟨hcalled, he, -⟩
    · rw [total_eq he, counts_entry f c, called, hcalled]
      rfl
    · rw [total_eq he, called_eq hcalled]
      exact counts_step hf _ nanos hstep
    · rw [called, hcalled, total, he]
      rfl

/-- The persisted batches, counted. -/
theorem total_batches (h : List (Tid × Event)) :
    total .flushes h = ((batches h).map fun _ => 1).sum ∧
      total .recordsFlushed h = ((batches h).map fun x => asU64 x.2).sum := by
  unfold total batches
  induction ofEngine h with
  | nil => exact ⟨rfl, rfl⟩
  | cons x l ih =>
    obtain ⟨t, ev⟩ := x
    rw [List.map_cons, List.map_cons, List.sum_cons, List.sum_cons, List.flatMap_cons, List.map_append,
      List.map_append, List.sum_append, List.sum_append, ih.1, ih.2]
    cases ev <;> exact ⟨rfl, rfl⟩

/-- What is counted for a thread has happened in it. -/
theorem exists_of_batches {x : Tid × ℕ} (hx : x ∈ batches h) : ∃ y ∈ h, y.1 = x.1 := by
  obtain ⟨z, hz, hzx⟩ := List.mem_flatMap.mp hx
  obtain ⟨n, -, rfl⟩ := List.mem_map.mp hzx
  obtain ⟨⟨t, ev⟩, hy, heq⟩ := List.mem_filterMap.mp hz
  cases ev <;> cases heq
  exact ⟨_, hy, rfl⟩

theorem exists_of_called {x : Tid × Update} (hx : x ∈ calledUpdates (ofMetrics h)) :
    ∃ y ∈ h, y.1 = x.1 := by
  obtain ⟨⟨u, m⟩, hz, hzx⟩ := List.mem_flatMap.mp hx
  obtain ⟨⟨t, ev⟩, hy, heq⟩ := List.mem_filterMap.mp hz
  cases ev <;> cases heq
  cases m with
  | called us =>
    obtain ⟨v, -, rfl⟩ := List.mem_map.mp hzx
    exact ⟨_, hy, rfl⟩
  | snapshotCalled | did => cases hzx

/-- What an update adds to a field. -/
def weight (f : Field) (u : Update) : ℕ := if u.1 = f then u.2.toNat else 0

/-- An amount is a sum over the threads. -/
theorem amount_snd (f : Field) (l : List (Tid × Update)) :
    amount f (l.map Prod.snd) = (l.map fun x => weight f x.2).sum := by
  unfold amount
  rw [List.map_map]
  rfl

theorem called_le {g : ℕ → ℕ} (hle : ∀ t, amount f (own t (calledUpdates (ofMetrics h))) ≤
    ((own t (batches h)).map g).sum) : called f h ≤ ((batches h).map fun x => g x.2).sum := by
  rw [called, amount_snd]
  exact sum_le_of_own (weight f) g hle

theorem le_called {g : ℕ → ℕ} (hle : ∀ t, ((own t (batches h)).map g).sum ≤
    amount f (own t (calledUpdates (ofMetrics h)))) :
    ((batches h).map fun x => g x.2).sum ≤ called f h := by
  rw [called, amount_snd]
  exact sum_le_of_own g (weight f) hle

theorem sum_ones (l : List ℕ) : (l.map fun _ => 1).sum = l.length := by
  rw [List.map_const', List.sum_replicate, smul_eq_mul, mul_one]

/-- No more is recorded as flushed than is persisted. -/
theorem Kept.flushed (hk : Kept cfg s h) :
    called .flushes h ≤ total .flushes h ∧ called .recordsFlushed h ≤ total .recordsFlushed h := by
  rw [(total_batches h).1, (total_batches h).2]
  constructor
  · refine called_le (g := fun _ => 1) fun t => ?_
    rw [sum_ones]
    exact (Nat.le_add_right _ _).trans (hk.account t).flushed.1
  · exact called_le fun t => (Nat.le_add_right _ _).trans (hk.account t).flushed.2

/-- All that is persisted has been recorded, when no batch is in hand and no `flush_now` has failed. -/
theorem Kept.exact (hk : Kept cfg s h) (hfailed : ∀ t, ¬ Failed h t)
    (hhand : ∀ x ∈ h, (stage (s.engine.pc x.1)).storedBatches = 0) :
    called .flushes h = total .flushes h ∧ called .recordsFlushed h = total .recordsFlushed h := by
  obtain ⟨hbatches, hstates⟩ := hk.flushed
  have hown : ∀ t, (own t (batches h)).length ≤ amount .flushes (own t (calledUpdates (ofMetrics h))) ∧
      ((own t (batches h)).map asU64).sum ≤
        amount .recordsFlushed (own t (calledUpdates (ofMetrics h))) := by
    intro t
    by_cases ht : ∃ x ∈ h, x.1 = t
    · obtain ⟨x, hx, rfl⟩ := ht
      have hexact := (hk.account x.1).exact (hfailed x.1)
      have hnone := hhand x hx
      have hstates : (stage (s.engine.pc x.1)).storedStates = 0 := by
        cases hst : stage (s.engine.pc x.1) with
        | stored n =>
          rw [hst] at hnone
          cases hnone
        | _ => rfl
      omega
    · push Not at ht
      have hempty : own t (batches h) = [] := own_eq_nil fun x hx hxt =>
        let ⟨y, hy, hyx⟩ := exists_of_batches hx
        ht y hy (hyx.trans hxt)
      rw [hempty]
      exact ⟨Nat.zero_le _, Nat.zero_le _⟩
  refine ⟨hbatches.antisymm ?_, hstates.antisymm ?_⟩
  · rw [(total_batches h).1]
    refine le_called (g := fun _ => 1) fun t => ?_
    rw [sum_ones]
    exact (hown t).1
  · rw [(total_batches h).2]
    exact le_called fun t => (hown t).2

/-- No more is persisted than is recorded as appended. -/
theorem Kept.appended (hk : Kept cfg s h) :
    total .flushes h ≤ called .walAppends h ∧ total .recordsFlushed h ≤ called .walRecords h := by
  rw [(total_batches h).1, (total_batches h).2]
  constructor
  · refine le_called (g := fun _ => 1) fun t => ?_
    rw [sum_ones]
    exact (Nat.le_add_right _ _).trans (hk.account t).appended.1
  · exact le_called fun t => (Nat.le_add_right _ _).trans (hk.account t).appended.2

/-- A batch that has been appended is tried again fewer times than the limit. -/
theorem Kept.retried (hk : Kept cfg s h) :
    called .storeRetries h ≤ (cfg.storeRetryLimit - 1) * called .walAppends h := by
  rw [called, called, amount_snd, amount_snd, ← List.sum_map_mul_left]
  refine sum_le_of_own (weight .storeRetries)
    (fun u => (cfg.storeRetryLimit - 1) * weight .walAppends u) fun t => ?_
  rw [List.sum_map_mul_left]
  exact (Nat.le_add_right _ _).trans (hk.account t).retried

/-- What a thread has recorded up to a moment is the beginning of what its calls record. -/
theorem recorded_at_moment (hc : Counters.Kept s.recorders (ofMetrics h))
    {m : List (Tid × Counters.Mark)} (hm : m <+: ofMetrics h) (t : Tid) :
    own t (recorded m) <+: own t (calledUpdates (ofMetrics h)) := by
  obtain ⟨tail, htail⟩ := hm
  rw [hc.threads t, ← htail, recorded_append, own_append, List.append_assoc]
  exact List.prefix_append _ _

/-- **In every moment of the metrics' history** no more is flushed than appended. -/
theorem Kept.moment (hk : Kept cfg s h) (hc : Counters.Kept s.recorders (ofMetrics h))
    {m : List (Tid × Counters.Mark)} (hm : m <+: ofMetrics h) :
    amount .flushes ((recorded m).map Prod.snd) ≤ amount .walAppends ((recorded m).map Prod.snd) ∧
      amount .recordsFlushed ((recorded m).map Prod.snd) ≤
        amount .walRecords ((recorded m).map Prod.snd) := by
  simp only [amount_snd]
  exact ⟨sum_le_of_own _ _ fun t => ((hk.account t).moments _ (recorded_at_moment hc hm t)).1,
    sum_le_of_own _ _ fun t => ((hk.account t).moments _ (recorded_at_moment hc hm t)).2⟩

theorem amount_le_called (hc : Counters.Kept s.recorders (ofMetrics h))
    {m : List (Tid × Counters.Mark)} (hm : m <+: ofMetrics h) (f : Field) :
    amount f ((recorded m).map Prod.snd) ≤ called f h := by
  rw [called, amount_snd, amount_snd]
  exact sum_le_of_own _ _ fun t => amount_le (recorded_at_moment hc hm t) f

/-- A counter loaded first shows no more than one loaded later that is never behind it. -/
theorem le_of_loads (hc : Counters.Kept s.recorders (ofMetrics h))
    {began seen : List (Tid × Counters.Mark)} {got : List Update} {f g : Field} {v w : UInt64}
    (hl : Loads began seen [] got)
    (hseen : seen <+: ofMetrics h) (hlt : snapshotFields.idxOf f < snapshotFields.idxOf g)
    (hf : f.isGauge = false) (hg : g.isGauge = false)
    (hle : ∀ m, m <+: ofMetrics h →
      amount f ((recorded m).map Prod.snd) ≤ amount g ((recorded m).map Prod.snd))
    (hfits : called g h < 2 ^ 64) (hv : (f, v) ∈ got) (hw : (g, w) ∈ got) : v ≤ w := by
  obtain ⟨m, m', rfl, rfl, hmm, hm'⟩ := hl.moments_of_lt hv hw hlt
  have hin' := hm'.trans hseen
  have hlater : amount f ((recorded m).map Prod.snd) ≤ amount g ((recorded m').map Prod.snd) :=
    (amount_mono hmm f).trans (hle m' hin')
  have hsmall := (amount_le_called hc hin' g).trans_lt hfits
  rw [UInt64.le_iff_toNat_le, valueAt, valueAt, counter_eq hf, counter_eq hg, Nat.mod_eq_of_lt hsmall]
  exact (Nat.mod_le _ _).trans hlater

/-- When no thread is in a recording call, a counter holds what the calls recorded. -/
theorem counter_called (hr : Run (system cfg) anyStep s h) (hidle : ∀ x ∈ h, s.recorders.pc x.1 = .idle)
    (hf : f.isGauge = false) : (s.recorders.metrics f).toNat = called f h % 2 ^ 64 := by
  have hc := Counters.run_kept (run_recorders hr)
  rw [hc.metrics_eq, counter_eq hf, called]
  intro t
  by_cases ht : ∃ x ∈ h, x.1 = t
  · obtain ⟨x, hx, rfl⟩ := ht
    rw [hidle x hx]
    rfl
  · push Not at ht
    have hnone : own t (calledUpdates (ofMetrics h)) = [] := own_eq_nil fun x hx hxt =>
      let ⟨y, hy, hyx⟩ := exists_of_called hx
      ht y hy (hyx.trans hxt)
    exact (List.append_eq_nil_iff.mp ((hc.threads t).symm.trans hnone)).2

/-- **What the counters say about the engine.** -/
structure Balanced (cfg : ValidConfig) (m : MetricsCells) (h : List (Tid × Event)) : Prop where
  atOnce : ∀ f, Field.atOnce f = true → (m f).toNat = total f h % 2 ^ 64
  flushed : ∀ f, Field.ofFlush f = true → (m f).toNat ≤ total f h
  persisted : total .flushes h ≤ total .walAppends h ∧ total .recordsFlushed h ≤ total .walRecords h
  retried : (m .storeRetries).toNat ≤ (cfg.storeRetryLimit - 1) * total .walAppends h

/-- **The metrics account for what the engine did.** In every run, whatever fails, when no recording call
is in progress: the counters of submits and appends are exact modulo `2 ^ 64`; those of flushes never
exceed what is persisted, and are exact too when no batch is on its way and no `flush_now` has failed; and
each append is retried fewer times than the limit. -/
theorem metrics_account (hr : Run (system cfg) anyStep s h)
    (hidle : ∀ x ∈ h, s.recorders.pc x.1 = .idle) :
    Balanced cfg s.recorders.metrics h ∧
      ((∀ x ∈ ofEngine h, x.2 ≠ .flushNowReturned none) →
        (∀ x ∈ h, (stage (s.engine.pc x.1)).storedBatches = 0) →
        ∀ f, Field.ofFlush f = true → (s.recorders.metrics f).toNat = total f h % 2 ^ 64) := by
  have hk := run_kept hr
  have hcalled : ∀ f, f.isGauge = false → (s.recorders.metrics f).toNat = called f h % 2 ^ 64 :=
    fun f => counter_called hr hidle
  have happends : called .walAppends h = total .walAppends h := run_called rfl hr
  have hrecords : called .walRecords h = total .walRecords h := run_called rfl hr
  refine ⟨⟨fun f hf => ?_, fun f hf => ?_, ?_, ?_⟩, fun hfailed hhand f hf => ?_⟩
  · rw [hcalled f (not_gauge_of_atOnce hf), run_called hf hr]
  · rcases ofFlush_cases hf with rfl | rfl
    · rw [hcalled .flushes rfl]
      exact (Nat.mod_le _ _).trans hk.flushed.1
    · rw [hcalled .recordsFlushed rfl]
      exact (Nat.mod_le _ _).trans hk.flushed.2
  · rw [← happends, ← hrecords]
    exact hk.appended
  · rw [hcalled .storeRetries rfl, ← happends]
    exact (Nat.mod_le _ _).trans hk.retried
  · obtain ⟨hflushes, hstates⟩ := hk.exact (fun t ht => hfailed _ ht rfl) hhand
    rcases ofFlush_cases hf with rfl | rfl
    · rw [hcalled .flushes rfl, hflushes]
    · rw [hcalled .recordsFlushed rfl, hstates]

/-- One submit, flushed by the worker; the store is busy once. -/
theorem metrics_account_retried : ∃ (s : Metered) (h : List (Tid × Event)),
    Run (system oneByOne) anyStep s h ∧ s.recorders.metrics .flushes = 1 ∧
    s.recorders.metrics .storeRetries = 1 ∧ Balanced oneByOne s.recorders.metrics h ∧
    ∀ f, Field.ofFlush f = true → (s.recorders.metrics f).toNat = total f h % 2 ^ 64 := by
  obtain ⟨s, h, hr, hp⟩ := exists_run_of_exec (system oneByOne) anyStep (fun _ _ _ => true)
    (fun _ _ _ _ => trivial) (Metered.start (Machine.start Log.empty fun _ => none))
    (List.flatten [[.engine (.call 0 (.submit 7 1 [])) 0, .engine (.run (.client 0) (.fine [])) 0,
        .engine (.run (.client 0) (.fine [])) 50], List.replicate 4 (.record (.client 0) false),
      List.replicate 9 (.engine (.run .worker (.fine [7])) 0),
      [.record .worker false, .record .worker false,
        .engine (.run .worker { Env.fine [] with persist := some (.transient "busy") }) 0,
        .record .worker false], List.replicate 3 (.engine (.run .worker (.fine [])) 9),
      List.replicate 4 (.record .worker false)])
    (fun x => decide ((∀ y ∈ x.2, x.1.recorders.pc y.1 = .idle) ∧
      (∀ y ∈ ofEngine x.2, y.2 ≠ .flushNowReturned none) ∧
      (∀ y ∈ x.2, (stage (x.1.engine.pc y.1)).storedBatches = 0) ∧
      x.1.recorders.metrics .flushes = 1 ∧ x.1.recorders.metrics .storeRetries = 1))
    ⟨_, ⟨_, _, rfl⟩, rfl⟩ (by decide +kernel)
  obtain ⟨hidle, hfailed, hhand, hflushes, hretries⟩ := of_decide_eq_true hp
  obtain ⟨hbalanced, hexact⟩ := metrics_account hr hidle
  exact ⟨s, h, hr, hflushes, hretries, hbalanced, hexact hfailed hhand⟩

/-- **A snapshot never shows more flushed than logged**, as long as the appends and their records fit in
their counters and the accesses are interleaved as modelled: `snapshot` loads the flushes before the
appends, and a batch is recorded as appended before it is recorded as flushed. -/
theorem snapshot_ordered (hr : Run (system cfg) anyStep s h) {pre mid post : List (Tid × Counters.Mark)}
    {t : Tid} {got : List Update}
    (heq : ofMetrics h = pre ++ (t, .snapshotCalled) :: mid ++ (t, .did (.snapshotReturned got)) :: post)
    (hmid : (t, .snapshotCalled) ∉ mid) (happends : total .walAppends h < 2 ^ 64)
    (hrecords : total .walRecords h < 2 ^ 64) {v w : UInt64} :
    ((.flushes, v) ∈ got → (.walAppends, w) ∈ got → v ≤ w) ∧
      ((.recordsFlushed, v) ∈ got → (.walRecords, w) ∈ got → v ≤ w) := by
  have hk := run_kept hr
  have hc := Counters.run_kept (run_recorders hr)
  have hl := (run_shown (run_recorders hr)).returned pre t mid got post heq hmid
  have hwhole : pre ++ (t, .snapshotCalled) :: mid <+: ofMetrics h := by
    rw [heq]
    exact List.prefix_append _ _
  rw [← run_called rfl hr] at happends hrecords
  constructor
  · exact le_of_loads hc hl hwhole (by decide) rfl rfl (fun m hm => (hk.moment hc hm).1) happends
  · exact le_of_loads hc hl hwhole (by decide) rfl rfl (fun m hm => (hk.moment hc hm).2) hrecords

/-- The batch is appended while the snapshot is under way, after it has loaded the flushes. -/
theorem snapshot_ordered_midway : ∃ (s : Metered) (h : List (Tid × Event)) (got : List Update),
    Run (system oneByOne) anyStep s h ∧
    (.client 0, .metrics (.did (.snapshotReturned got))) ∈ h ∧ (.flushes, 0) ∈ got ∧
    (.walAppends, 1) ∈ got ∧ (0 : UInt64) ≤ 1 := by
  let got : List Update := [(.submitsEnqueued, 1), (.submitsDropped, 0), (.maxSubmitNanos, 50),
    (.sumSubmitNanos, 50), (.flushes, 0), (.recordsFlushed, 0), (.maxFlushNanos, 0), (.walAppends, 1),
    (.walRecords, 1), (.storeErrors, 0), (.storeRetries, 0)]
  obtain ⟨s, h, hr, hp⟩ := exists_run_of_exec (system oneByOne) anyStep (fun _ _ _ => true)
    (fun _ _ _ _ => trivial) (Metered.start (Machine.start Log.empty fun _ => none))
    (List.flatten [[.engine (.call 0 (.submit 7 1 [])) 0, .engine (.run (.client 0) (.fine [])) 0,
        .engine (.run (.client 0) (.fine [])) 50], List.replicate 4 (.record (.client 0) false),
      [.metrics 0], List.replicate 6 (.record (.client 0) false),
      List.replicate 9 (.engine (.run .worker (.fine [7])) 0),
      List.replicate 2 (.record .worker false), List.replicate 6 (.record (.client 0) false)])
    (fun x => decide (ofMetrics x.2 = (ofMetrics x.2).take 4 ++ (.client 0, .snapshotCalled) ::
        ((ofMetrics x.2).drop 5).dropLast ++ [(.client 0, .did (.snapshotReturned got))] ∧
      (.client 0, .snapshotCalled) ∉ ((ofMetrics x.2).drop 5).dropLast ∧
      (.client 0, .metrics (.did (.snapshotReturned got))) ∈ x.2 ∧
      total .walAppends x.2 < 2 ^ 64 ∧ total .walRecords x.2 < 2 ^ 64))
    ⟨_, ⟨_, _, rfl⟩, rfl⟩ (by decide +kernel)
  obtain ⟨heq, hmid, hmem, happends, hrecords⟩ := of_decide_eq_true hp
  exact ⟨s, h, got, hr, hmem, by decide, by decide,
    (snapshot_ordered hr heq hmid happends hrecords).1 (by decide) (by decide)⟩

end Totals

end FluxThroughput.Engine.Metering
