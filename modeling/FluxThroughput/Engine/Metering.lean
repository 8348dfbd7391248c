import FluxThroughput.Metrics.Counters
import FluxThroughput.Engine.Order

/-! # The metrics of a running engine

The engine with the recording calls its threads make between their atomic calls, and with clients that
call `metrics`. A batch is recorded when it is appended and again when the store has it and the log has
been checkpointed; a `flush_now` whose checkpoint fails does not record the flush. So each thread's flushes
never exceed the batches it has persisted, nor these its recorded appends, also while the counters of one
call are updated one by one. -/

namespace FluxThroughput.Engine.Metering

open FluxThroughput.Domain.Types FluxThroughput.Store.Mock FluxThroughput.Engine.Config
open FluxThroughput.Engine.Machine FluxThroughput.Engine.Events FluxThroughput.Engine.Order
open FluxThroughput.Lib.Transition FluxThroughput.Lib.Accumulators FluxThroughput.Metrics
open FluxThroughput.Metrics.Counters

/-! ### The system -/

structure Metered where
  engine : FluxEngine
  recorders : Recorders Tid
  /-- the batch a thread is flushing has been appended to the log -/
  logged : Tid → Bool

inductive Action
  | engine (a : Machine.Action) (nanos : UInt64)
  | record (t : Tid) (spurious : Bool)
  | metrics (n : ℕ)

inductive Event
  | engine (e : Machine.Event)
  | metrics (m : Counters.Mark)
  deriving DecidableEq, Repr

/-- The recording call that follows an atomic call, if any. -/
def recordsAfter (cfg : ValidConfig) (env : Env) (sh : Shared) (logged : Bool) (nanos : UInt64) :
    Machine.Pc → Option (List Update)
  | .submitEnqueue req =>
    match sh.tryEnqueue cfg req with
    | some _ => some (recordSubmitEnqueued nanos)
    | none => some recordSubmitDropped
  | .appendBatch _ _ records =>
    match env.append with
    | .ok => some (recordWalAppend records.length nanos)
    | .failed _ _ => none
  | .persistBatch _ _ _ attempt =>
    match env.persist with
    | none => none
    | some e =>
      if !e.isRetryable ∨ cfg.storeRetryLimit ≤ attempt + 1 then none else some recordStoreRetry
  | .watermark _ count last =>
    match sh.lsn.checkpointWatermark last with
    | some _ => none
    | none => some (recordFlush count nanos)
  | .checkpoint k count _ =>
    match env.checkpoint, k with
    | .ok, _ => some (recordFlush count nanos)
    -- `flush_now` returns the error before it records the flush
    | _, .flushNow _ => none
    | _, _ => some (recordFlush count nanos)
  -- `flush_now` counts a store error, the worker a failed append too
  | .requeue (.flushNow _) _ => if logged then some recordStoreError else none
  | .requeue _ _ => some recordStoreError
  | _ => none

/-- Whether the batch in hand has been appended, after an atomic call. -/
def loggedAfter (env : Env) (logged : Bool) : Machine.Pc → Bool
  | .appendBatch _ _ _ => env.append = .ok
  | _ => logged

/-- The recording call that follows a step of the engine. -/
def Metered.records (cfg : ValidConfig) (s : Metered) (nanos : UInt64) :
    Machine.Action → Option (Tid × List Update)
  | .run t env =>
    (recordsAfter cfg env s.engine.sh (s.logged t) nanos (s.engine.pc t)).map (t, ·)
  | _ => none

/-- The thread has finished its recording call. -/
def Metered.ready (s : Metered) : Machine.Action → Bool
  | .run t _ => s.recorders.pc t = .idle
  | .call n _ => s.recorders.pc (.client n) = .idle
  | .shutdown => true

def Metered.marks (s : Metered) : Machine.Action → Tid → Bool
  | .run t env => Function.update s.logged t (loggedAfter env (s.logged t) (s.engine.pc t))
  | _ => s.logged

def engineEvents (e : List (Tid × Machine.Event)) : List (Tid × Event) :=
  e.map fun x => (x.1, .engine x.2)

def metricEvents (e : List (Tid × Counters.Mark)) : List (Tid × Event) :=
  e.map fun x => (x.1, .metrics x.2)

def Metered.step (cfg : ValidConfig) (s : Metered) : Action → Option (Metered × List (Tid × Event))
  | .engine a nanos =>
    if s.ready a then
      match s.engine.step cfg a, s.records cfg nanos a with
      | none, _ => none
      | some (engine, e), none =>
        some ({ s with engine := engine, logged := s.marks a }, engineEvents e)
      | some (engine, e), some (t, us) =>
        (s.recorders.step (.record t us)).map fun x =>
          ({ engine := engine, recorders := x.1, logged := s.marks a },
            engineEvents e ++ metricEvents x.2)
    else none
  | .record t spurious =>
    (s.recorders.step (.run t spurious)).map fun x => ({ s with recorders := x.1 }, metricEvents x.2)
  | .metrics n =>
    if s.engine.pc (.client n) = .idle then
      (s.recorders.step (.snapshot (.client n))).map fun x =>
        ({ s with recorders := x.1 }, metricEvents x.2)
    else none

/-- An engine just started, with fresh metrics. -/
def Metered.start (engine : FluxEngine) : Metered where
  engine := engine
  recorders := { metrics := MetricsCells.new, pc := fun _ => .idle }
  logged _ := false

def system (cfg : ValidConfig) : System Metered Action (Tid × Event) where
  init s := ∃ engine, (Machine.system cfg).init engine ∧ s = Metered.start engine
  step := Metered.step cfg

/-! ### Its two parts -/

/-- What the engine did. -/
def ofEngine (h : List (Tid × Event)) : List (Tid × Machine.Event) :=
  h.filterMap fun x => match x.2 with
    | .engine e => some (x.1, e)
    | .metrics _ => none

/-- What was recorded and loaded. -/
def ofMetrics (h : List (Tid × Event)) : List (Tid × Counters.Mark) :=
  h.filterMap fun x => match x.2 with
    | .engine _ => none
    | .metrics m => some (x.1, m)

section Parts
variable {cfg : ValidConfig} {s s' : Metered} {a : Action} {h e : List (Tid × Event)}

theorem ofEngine_append (h e : List (Tid × Event)) : ofEngine (h ++ e) = ofEngine h ++ ofEngine e :=
  List.filterMap_append

theorem ofMetrics_append (h e : List (Tid × Event)) : ofMetrics (h ++ e) = ofMetrics h ++ ofMetrics e :=
  List.filterMap_append

theorem ofEngine_engine (e : List (Tid × Machine.Event)) : ofEngine (engineEvents e) = e := by
  induction e with
  | nil => rfl
  | cons x e ih => exact congrArg (x :: ·) ih

theorem ofEngine_metrics (e : List (Tid × Counters.Mark)) : ofEngine (metricEvents e) = [] := by
  induction e with
  | nil => rfl
  | cons x e ih => exact ih

theorem ofMetrics_engine (e : List (Tid × Machine.Event)) : ofMetrics (engineEvents e) = [] := by
  induction e with
  | nil => rfl
  | cons x e ih => exact ih

theorem ofMetrics_metrics (e : List (Tid × Counters.Mark)) : ofMetrics (metricEvents e) = e := by
  induction e with
  | nil => rfl
  | cons x e ih => exact congrArg (x :: ·) ih

/-- **What a step is**: one of the engine, with the recording call it begins, or one of the metrics. -/
theorem step_cases (hs : s.step cfg a = some (s', e)) :
    (∃ b nanos engine g, a = .engine b nanos ∧ s.ready b = true ∧
      s.engine.step cfg b = some (engine, g) ∧ s'.engine = engine ∧ s'.logged = s.marks b ∧
      ofEngine e = g ∧
      ((s.records cfg nanos b = none ∧ s'.recorders = s.recorders ∧ ofMetrics e = []) ∨
        ∃ t us, s.records cfg nanos b = some (t, us) ∧
          (Counters.system Tid).step s.recorders (.record t us) = some (s'.recorders, ofMetrics e))) ∨
    (s'.engine = s.engine ∧ s'.logged = s.logged ∧ ofEngine e = [] ∧ ∃ b, b.updates = [] ∧
      (Counters.system Tid).step s.recorders b = some (s'.recorders, ofMetrics e)) := by
  cases a with
  | engine b nanos =>
    simp only [Metered.step] at hs
    split_ifs at hs with hready
    rcases hstep : s.engine.step cfg b with _ | ⟨engine, g⟩ <;>
      rcases hrec : s.records cfg nanos b with _ | ⟨t, us⟩ <;> simp only [hstep, hrec] at hs
    · cases hs
    · cases hs
    · cases hs
      refine Or.inl ⟨b, nanos, engine, g, rfl, hready, hstep, rfl, rfl, ofEngine_engine g, Or.inl ?_⟩
      exact ⟨hrec, rfl, ofMetrics_engine g⟩
    · obtain ⟨x, hx, heq⟩ := Option.map_eq_some_iff.mp hs
      cases heq
      refine Or.inl ⟨b, nanos, engine, g, rfl, hready, hstep, rfl, rfl, ?_, Or.inr ⟨t, us, hrec, ?_⟩⟩
      · rw [ofEngine_append, ofEngine_engine, ofEngine_metrics, List.append_nil]
      · rw [ofMetrics_append, ofMetrics_engine, ofMetrics_metrics, List.nil_append]
        exact hx
  | record t spurious =>
    obtain ⟨x, hx, heq⟩ := Option.map_eq_some_iff.mp hs
    cases heq
    refine Or.inr ⟨rfl, rfl, ofEngine_metrics x.2, .run t spurious, rfl, ?_⟩
    rw [ofMetrics_metrics]
    exact hx
  | metrics n =>
    simp only [Metered.step] at hs
    split_ifs at hs
    obtain ⟨x, hx, heq⟩ := Option.map_eq_some_iff.mp hs
    cases heq
    refine Or.inr ⟨rfl, rfl, ofEngine_metrics x.2, .snapshot (.client n), rfl, ?_⟩
    rw [ofMetrics_metrics]
    exact hx

/-- The engine of a metered run makes a run of its own. -/
theorem run_engine (hr : Run (system cfg) anyStep s h) :
    Run (Machine.system cfg) anyStep s.engine (ofEngine h) := by
  induction hr with
  | init hs =>
    obtain ⟨engine, hinit, rfl⟩ := hs
    exact Run.init hinit
  | step hr hok hs ih =>
    rw [ofEngine_append]
    rcases step_cases hs with ⟨b, nanos, engine, g, -, -, hstep, rfl, -, rfl, -⟩ | ⟨hsame, -, hnil, -⟩
    · exact ih.step trivial hstep
    · rw [hsame, hnil, List.append_nil]
      exact ih

/-- So do its metrics. -/
theorem run_recorders (hr : Run (system cfg) anyStep s h) :
    Run (Counters.system Tid) anyStep s.recorders (ofMetrics h) := by
  induction hr with
  | init hs =>
    obtain ⟨engine, hinit, rfl⟩ := hs
    exact Run.init rfl
  | step hr hok hs ih =>
    rw [ofMetrics_append]
    rcases step_cases hs with
      ⟨b, nanos, engine, g, -, -, -, -, -, -, ⟨-, hsame, hnil⟩ | ⟨t, us, -, hstep⟩⟩ |
      ⟨-, -, -, b, -, hstep⟩
    · rw [hsame, hnil, List.append_nil]
      exact ih
    · exact ih.step trivial hstep
    · exact ih.step trivial hstep

/-- A thread makes its next access. -/
theorem run_record (hr : Run (system cfg) anyStep s h) {t : Tid} {m : MetricsCells} {pc : Counters.Pc}
    {es : List Counters.Event}
    (hacc : (s.recorders.pc t).step false s.recorders.metrics = some (m, pc, es)) :
    ∃ h', Run (system cfg) anyStep
      { s with recorders := ⟨m, Function.update s.recorders.pc t pc⟩ } h' ∧ ofEngine h' = ofEngine h := by
  have hstep : (system cfg).step s (.record t false) =
      some ({ s with recorders := ⟨m, Function.update s.recorders.pc t pc⟩ },
        metricEvents (es.map fun e => (t, .did e))) := by
    simp only [system, Metered.step, Recorders.step, hacc, Option.map_some]
  refine ⟨_, Run.step hr trivial hstep, ?_⟩
  rw [ofEngine_append, ofEngine_metrics, List.append_nil]

/-- A recording call can be finished before the engine goes on. -/
theorem run_finish {t : Tid} : ∀ (us : List Update) {s : Metered} {h : List (Tid × Event)},
    Run (system cfg) anyStep s h → s.recorders.pc t = next us →
    ∃ s' h', Run (system cfg) anyStep s' h' ∧ s'.engine = s.engine ∧ ofEngine h' = ofEngine h ∧
      s'.recorders.pc = Function.update s.recorders.pc t .idle
  | [], s, h, hr, hpc => by
    refine ⟨s, h, hr, rfl, rfl, ?_⟩
    have hidle : Counters.Pc.idle = s.recorders.pc t := hpc.symm
    rw [hidle, Function.update_eq_self]
  | (f, value) :: us, s, h, hr, hpc => by
    change s.recorders.pc t = .recording ((f, value) :: us) at hpc
    rcases step_update s.recorders.metrics f value us with ⟨m, es, hone⟩ | ⟨hone, m, es, htwo⟩
    · obtain ⟨h1, hr1, he1⟩ := run_record hr (hpc ▸ hone)
      obtain ⟨s', h', hr', heng, he, hdone⟩ := run_finish us hr1 (Function.update_self _ _ _)
      refine ⟨s', h', hr', heng, he.trans he1, ?_⟩
      rw [hdone, Function.update_idem]
    · -- the gauge has been read, and the second access raises it
      obtain ⟨h1, hr1, he1⟩ := run_record hr (hpc ▸ hone)
      have hraising : Function.update s.recorders.pc t (.raising f value (s.recorders.metrics f) us) t =
          .raising f value (s.recorders.metrics f) us := Function.update_self _ _ _
      obtain ⟨h2, hr2, he2⟩ := run_record hr1 (hraising ▸ htwo)
      obtain ⟨s', h', hr', heng, he, hdone⟩ := run_finish us hr2 (Function.update_self _ _ _)
      refine ⟨s', h', hr', heng, he.trans (he2.trans he1), ?_⟩
      rw [hdone, Function.update_idem, Function.update_idem]

/-- Every run of the engine can be metered. -/
theorem exists_metered {engine : FluxEngine} {g : List (Tid × Machine.Event)}
    (hr : Run (Machine.system cfg) anyStep engine g) :
    ∃ s h, Run (system cfg) anyStep s h ∧ s.engine = engine ∧ ofEngine h = g ∧
      ∀ t, s.recorders.pc t = .idle := by
  induction hr with
  | @init engine hinit =>
    exact ⟨Metered.start engine, [], Run.init ⟨engine, hinit, rfl⟩, rfl, rfl, fun _ => rfl⟩
  | @step engine engine' g e a _ _ hs ih =>
    obtain ⟨s, h, hrun, rfl, rfl, hidle⟩ := ih
    have hstep : s.engine.step cfg a = some (engine', e) := hs
    have hready : s.ready a = true := by
      cases a <;> simp [Metered.ready, hidle]
    rcases hrec : s.records cfg 0 a with _ | ⟨t, us⟩
    · have hmetered : (system cfg).step s (.engine a 0) =
          some ({ s with engine := engine', logged := s.marks a }, engineEvents e) := by
        simp only [system, Metered.step, hready, if_true, hstep, hrec]
      refine ⟨_, _, Run.step hrun trivial hmetered, rfl, ?_, hidle⟩
      rw [ofEngine_append, ofEngine_engine]
    · have hmetered : (system cfg).step s (.engine a 0) =
          some (⟨engine', { s.recorders with pc := Function.update s.recorders.pc t (next us) },
            s.marks a⟩, engineEvents e ++ metricEvents [(t, .called us)]) := by
        simp only [system, Metered.step, hready, if_true, hstep, hrec, Recorders.step, hidle t,
          Option.map_some]
      obtain ⟨s', h', hr', heng, he, hdone⟩ :=
        run_finish us (Run.step hrun trivial hmetered) (Function.update_self _ _ _)
      refine ⟨s', h', hr', heng, ?_, fun u => ?_⟩
      · rw [he, ofEngine_append, ofEngine_append, ofEngine_engine, ofEngine_metrics, List.append_nil]
      · rw [hdone, Function.update_idem]
        by_cases hu : u = t
        · rw [hu, Function.update_self]
        · rw [Function.update_of_ne hu]
          exact hidle u

end Parts

/-! ### The stages of a batch -/

/-- Where a thread stands with its batch: appended and not persisted, or persisted and not recorded. -/
inductive Stage
  | out
  | logged (n attempt : ℕ)
  | stored (n : ℕ)
  deriving DecidableEq, Repr

def stage : Machine.Pc → Stage
  | .persistBatch _ states _ attempt => .logged states.length attempt
  | .watermark _ count _ => .stored count
  | .checkpoint _ count _ => .stored count
  | _ => .out

/-- The sizes of the persisted batches. -/
def persistedSizes (es : List Machine.Event) : List ℕ :=
  es.filterMap fun e => match e with
    | .persisted states => some states.length
    | _ => none

/-- A batch to be appended has a record for each of its states. -/
def Sized : Machine.Pc → Prop
  | .appendBatch _ states records => records.length = states.length
  | _ => True

/-- The fields that account for batches. -/
def Field.ofBatches : Field → Bool
  | .flushes | .recordsFlushed | .walAppends | .walRecords | .storeRetries => true
  | _ => false

/-- The updates touch none of these fields. -/
def Neutral (us : List Update) : Prop := ∀ x ∈ us, Field.ofBatches x.1 = false

/-- **What a step does to the batch of its thread**, with the updates recorded after it and the batches
it persists. -/
inductive StageStep (limit : ℕ) (es : List Machine.Event) :
    Stage → Stage → List Update → List ℕ → Prop
  | other {us : List Update} : Neutral us → StageStep limit es .out .out us []
  | append (n : ℕ) (nanos : UInt64) :
      StageStep limit es .out (.logged n 0) (recordWalAppend n nanos) []
  | retry (n attempt : ℕ) : attempt + 1 < limit →
      StageStep limit es (.logged n attempt) (.logged n (attempt + 1)) recordStoreRetry []
  | giveUp (n attempt : ℕ) : StageStep limit es (.logged n attempt) .out [] []
  | persist (n attempt : ℕ) : StageStep limit es (.logged n attempt) (.stored n) [] [n]
  | await (n : ℕ) : StageStep limit es (.stored n) (.stored n) [] []
  | flush (n : ℕ) (nanos : UInt64) : StageStep limit es (.stored n) .out (recordFlush n nanos) []
  -- `flush_now` returns the error of the checkpoint
  | lost (n : ℕ) : .flushNowReturned none ∈ es → StageStep limit es (.stored n) .out [] []

section Steps
variable {cfg : ValidConfig} {env : Env} {sh sh' : Shared} {pc pc' : Machine.Pc}
  {es : List Machine.Event}

theorem length_stamp : ∀ (first : Lsn) (states : List PlayerState),
    (stamp first states).length = states.length
  | _, [] => rfl
  | first, _ :: states => congrArg (· + 1) (length_stamp (first + 1) states)

theorem stage_drainNext (cfg : ValidConfig) (k : DrainFor) (moved : ℕ) (l : List WriteRequest) :
    stage (drainNext cfg k moved l) = .out ∧ Sized (drainNext cfg k moved l) := by
  cases l with
  | cons => exact ⟨rfl, trivial⟩
  | nil =>
    unfold drainNext
    cases k with
    | steady => exact ⟨rfl, trivial⟩
    | final => exact ⟨rfl, trivial⟩
    | flushNow total inLoop =>
      simp only [drainDone]
      split_ifs <;> exact ⟨rfl, trivial⟩

theorem stage_batchOk (count : ℕ) (k : FlushFor) :
    stage (batchOk count k) = .out ∧ Sized (batchOk count k) := by
  cases k <;> exact ⟨rfl, trivial⟩

theorem stage_flushEnd (k : FlushFor) : stage (flushEnd k).1 = .out ∧ Sized (flushEnd k).1 ∧
    persistedSizes (flushEnd k).2 = [] := by
  cases k <;> exact ⟨rfl, trivial, rfl⟩

theorem stage_batchFailed (k : FlushFor) : stage (batchFailed k).1 = .out ∧
    Sized (batchFailed k).1 ∧ persistedSizes (batchFailed k).2 = [] := by
  cases k <;> exact ⟨rfl, trivial, rfl⟩

theorem neutral_nil : Neutral [] := fun _ hx => absurd hx List.not_mem_nil

theorem neutral_submit (nanos : UInt64) : Neutral (recordSubmitEnqueued nanos) := by
  intro x hx
  simp only [recordSubmitEnqueued, List.mem_cons, List.not_mem_nil, or_false] at hx
  rcases hx with rfl | rfl | rfl <;> rfl

theorem neutral_one {f : Field} (hf : Field.ofBatches f = false) (v : UInt64) : Neutral [(f, v)] := by
  intro x hx
  rw [List.mem_singleton.mp hx]
  exact hf

theorem stage_step (logged : Bool) (nanos : UInt64) (hz : Sized pc)
    (hs : pc.step cfg env sh = some (sh', pc', es)) : Sized pc' ∧
    StageStep cfg.storeRetryLimit es (stage pc) (stage pc')
      ((recordsAfter cfg env sh logged nanos pc).getD []) (persistedSizes es) := by
  cases pc with
  | idle | exited => cases hs
  | submitAlloc | durableAlloc | durableNote | durableClear | drainNote | finalRing =>
    cases hs
    exact ⟨trivial, .other neutral_nil⟩
  | allocBlock k states =>
    cases hs
    exact ⟨length_stamp _ _, .other neutral_nil⟩
  | drainApply k moved req rest =>
    cases hs
    obtain ⟨hout, hsized⟩ := stage_drainNext cfg k moved rest
    rw [hout]
    exact ⟨hsized, .other neutral_nil⟩
  | submitEnqueue req =>
    simp only [Machine.Pc.step] at hs
    rcases hq : sh.tryEnqueue cfg req with _ | sh1 <;> simp only [hq] at hs <;> cases hs <;>
      simp only [recordsAfter, hq, Option.getD_some]
    · exact ⟨trivial, .other (neutral_one rfl 1)⟩
    · exact ⟨trivial, .other (neutral_submit nanos)⟩
  | durableAppend rec =>
    simp only [Machine.Pc.step] at hs
    split at hs <;> cases hs <;> exact ⟨trivial, .other neutral_nil⟩
  | durableEnqueue rec =>
    simp only [Machine.Pc.step] at hs
    split at hs <;> cases hs <;> exact ⟨trivial, .other neutral_nil⟩
  | drainPop k got =>
    simp only [Machine.Pc.step] at hs
    obtain ⟨hout, hsized⟩ := stage_drainNext cfg k got.length got
    split_ifs at hs
    · split at hs <;> cases hs
      · exact ⟨trivial, .other neutral_nil⟩
      · rw [hout]
        exact ⟨hsized, .other neutral_nil⟩
    · cases hs
      rw [hout]
      exact ⟨hsized, .other neutral_nil⟩
  | takeDirty k =>
    simp only [Machine.Pc.step] at hs
    obtain ⟨hout, hsized, hnone⟩ := stage_flushEnd k
    split_ifs at hs <;> cases hs
    · rw [hout, hnone]
      exact ⟨hsized, .other neutral_nil⟩
    · exact ⟨trivial, .other neutral_nil⟩
  | appendBatch k states records =>
    simp only [Machine.Pc.step] at hs
    rcases hx : env.append with _ | ⟨landed, torn⟩ <;> simp only [hx] at hs <;> cases hs <;>
      simp only [recordsAfter, hx, Option.getD_some, Option.getD_none]
    · have hlen : records.length = states.length := hz
      rw [hlen]
      exact ⟨trivial, .append _ nanos⟩
    · exact ⟨trivial, .other neutral_nil⟩
  | persistBatch k states last attempt =>
    simp only [Machine.Pc.step] at hs
    rcases hx : env.persist with _ | err <;> simp only [hx] at hs <;>
      simp only [recordsAfter, hx]
    · cases hs
      exact ⟨trivial, .persist _ attempt⟩
    · split at hs <;> cases hs
      · rename_i hend
        rw [if_pos hend]
        exact ⟨trivial, .giveUp _ attempt⟩
      · rename_i hmore
        rw [if_neg hmore]
        exact ⟨trivial, .retry _ attempt (not_le.mp fun hle => hmore (Or.inr hle))⟩
  | watermark k count last =>
    simp only [Machine.Pc.step] at hs
    obtain ⟨hout, hsized⟩ := stage_batchOk count k
    rcases hx : sh.lsn.checkpointWatermark last with _ | safe <;> simp only [hx] at hs <;> cases hs <;>
      simp only [recordsAfter, hx, Option.getD_some, Option.getD_none]
    · rw [hout]
      exact ⟨hsized, .flush _ nanos⟩
    · exact ⟨trivial, .await _⟩
  | checkpoint k count safe =>
    obtain ⟨hout, hsized⟩ := stage_batchOk count k
    simp only [Machine.Pc.step] at hs
    rcases hx : env.checkpoint <;> simp only [hx] at hs <;> cases hs
    · simp only [recordsAfter, hx]
      rw [hout]
      exact ⟨hsized, .flush _ nanos⟩
    all_goals
      cases k with
      | flushNow total =>
        simp only [recordsAfter, hx]
        exact ⟨trivial, .lost _ List.mem_cons_self⟩
      | steady =>
        simp only [recordsAfter, hx]
        exact ⟨trivial, .flush _ nanos⟩
      | final stalled drained dirtyBefore =>
        simp only [recordsAfter, hx]
        exact ⟨trivial, .flush _ nanos⟩
  | requeue k states =>
    cases hs
    obtain ⟨hout, hsized, hnone⟩ := stage_batchFailed k
    rw [hout, hnone]
    refine ⟨hsized, .other ?_⟩
    cases k with
    | flushNow total =>
      cases logged
      · exact neutral_nil
      · exact neutral_one rfl 1
    | _ => exact neutral_one rfl 1
  | flushNowCheck | top | decide | finalDirty | finalAfter =>
    simp only [Machine.Pc.step] at hs
    repeat' split at hs
    all_goals
      cases hs
      exact ⟨trivial, .other neutral_nil⟩

end Steps

/-! ### The accounts of a thread -/

/-- A length, as it is added to a 64-bit counter. -/
def asU64 (n : ℕ) : ℕ := (UInt64.ofNat n).toNat

namespace Stage

/-- What is persisted and not recorded yet. -/
@[simp] def storedBatches : Stage → ℕ
  | .stored _ => 1
  | _ => 0

@[simp] def storedStates : Stage → ℕ
  | .stored n => asU64 n
  | _ => 0

/-- What is appended and not persisted. -/
@[simp] def loggedBatches : Stage → ℕ
  | .logged _ _ => 1
  | _ => 0

@[simp] def loggedStates : Stage → ℕ
  | .logged n _ => asU64 n
  | _ => 0

/-- The retries a batch has left. -/
@[simp] def retriesLeft (limit : ℕ) : Stage → ℕ
  | .logged _ attempt => limit - 1 - attempt
  | _ => 0

end Stage

/-- **The accounts of one thread**: its calls recorded `us`, it has persisted batches of the sizes
`sizes`, and `failed` says that one of its `flush_now` has returned an error. -/
structure Account (limit : ℕ) (st : Stage) (us : List Update) (sizes : List ℕ) (failed : Prop) :
    Prop where
  moments : ∀ us', us' <+: us → amount .flushes us' ≤ amount .walAppends us' ∧
    amount .recordsFlushed us' ≤ amount .walRecords us'
  flushed : amount .flushes us + st.storedBatches ≤ sizes.length ∧
    amount .recordsFlushed us + st.storedStates ≤ (sizes.map asU64).sum
  exact : ¬ failed → amount .flushes us + st.storedBatches = sizes.length ∧
    amount .recordsFlushed us + st.storedStates = (sizes.map asU64).sum
  appended : sizes.length + st.loggedBatches ≤ amount .walAppends us ∧
    (sizes.map asU64).sum + st.loggedStates ≤ amount .walRecords us
  retried : amount .storeRetries us + st.retriesLeft limit ≤ (limit - 1) * amount .walAppends us

section Accounts
variable {limit : ℕ} {st st' : Stage} {us vs : List Update} {sizes ns : List ℕ} {failed : Prop}
  {es : List Machine.Event}

theorem Account.new (limit : ℕ) (failed : Prop) : Account limit .out [] [] failed where
  moments us' hpre := by
    rw [List.prefix_nil.mp hpre]
    exact ⟨le_rfl, le_rfl⟩
  flushed := ⟨le_rfl, le_rfl⟩
  exact _ := ⟨rfl, rfl⟩
  appended := ⟨le_rfl, le_rfl⟩
  retried := Nat.zero_le _

theorem amount_le {us us' : List Update} (hpre : us' <+: us) (f : Field) :
    amount f us' ≤ amount f us := by
  obtain ⟨tail, rfl⟩ := hpre
  rw [amount_append]
  exact Nat.le_add_right _ _

theorem Neutral.amount_eq {f : Field} (hn : Neutral us) (hf : Field.ofBatches f = true) :
    amount f us = 0 := by
  refine List.sum_eq_zero fun n hn' => ?_
  obtain ⟨x, hx, rfl⟩ := List.mem_map.mp hn'
  have hfalse := hn x hx
  refine if_neg fun heq => ?_
  rw [heq, hf] at hfalse
  cases hfalse

/-- New updates keep every moment in order when the flushes among them are covered already. -/
theorem Account.moments_append (ha : Account limit st us sizes failed)
    (hbatches : amount .flushes (us ++ vs) ≤ amount .walAppends us)
    (hstates : amount .recordsFlushed (us ++ vs) ≤ amount .walRecords us) (us' : List Update)
    (hpre : us' <+: us ++ vs) : amount .flushes us' ≤ amount .walAppends us' ∧
      amount .recordsFlushed us' ≤ amount .walRecords us' := by
  rcases le_total us'.length us.length with hlen | hlen
  · exact ha.moments us' (List.prefix_of_prefix_length_le hpre (List.prefix_append us vs) hlen)
  · have hus := List.prefix_of_prefix_length_le (List.prefix_append us vs) hpre hlen
    exact ⟨((amount_le hpre _).trans hbatches).trans (amount_le hus _),
      ((amount_le hpre _).trans hstates).trans (amount_le hus _)⟩

/-- The amounts that the calls about batches record. -/
theorem amounts_walAppend (n : ℕ) (nanos : UInt64) :
    amount .flushes (recordWalAppend n nanos) = 0 ∧
      amount .recordsFlushed (recordWalAppend n nanos) = 0 ∧
      amount .walAppends (recordWalAppend n nanos) = 1 ∧
      amount .walRecords (recordWalAppend n nanos) = asU64 n ∧
      amount .storeRetries (recordWalAppend n nanos) = 0 := by
  simp [amount, recordWalAppend, asU64]

theorem amounts_flush (n : ℕ) (nanos : UInt64) :
    amount .flushes (recordFlush n nanos) = 1 ∧ amount .recordsFlushed (recordFlush n nanos) = asU64 n ∧
      amount .walAppends (recordFlush n nanos) = 0 ∧ amount .walRecords (recordFlush n nanos) = 0 ∧
      amount .storeRetries (recordFlush n nanos) = 0 := by
  simp [amount, recordFlush, asU64]

theorem amounts_storeRetry : amount .flushes recordStoreRetry = 0 ∧
    amount .recordsFlushed recordStoreRetry = 0 ∧ amount .walAppends recordStoreRetry = 0 ∧
    amount .walRecords recordStoreRetry = 0 ∧ amount .storeRetries recordStoreRetry = 1 := by
  simp [amount, recordStoreRetry]

/-- What a step moves between the accounts. -/
structure Moves (limit : ℕ) (st st' : Stage) (vs : List Update) (ns : List ℕ) (lost : Prop) : Prop where
  covered : amount .flushes vs ≤ st.storedBatches ∧ amount .recordsFlushed vs ≤ st.storedStates
  flushed : amount .flushes vs + st'.storedBatches ≤ st.storedBatches + ns.length ∧
    amount .recordsFlushed vs + st'.storedStates ≤ st.storedStates + (ns.map asU64).sum
  exact : ¬ lost → amount .flushes vs + st'.storedBatches = st.storedBatches + ns.length ∧
    amount .recordsFlushed vs + st'.storedStates = st.storedStates + (ns.map asU64).sum
  appended : ns.length + st'.loggedBatches ≤ st.loggedBatches + amount .walAppends vs ∧
    (ns.map asU64).sum + st'.loggedStates ≤ st.loggedStates + amount .walRecords vs
  retried : amount .storeRetries vs + st'.retriesLeft limit ≤
    st.retriesLeft limit + (limit - 1) * amount .walAppends vs

theorem StageStep.moves (hs : StageStep limit es st st' vs ns) :
    Moves limit st st' vs ns (.flushNowReturned none ∈ es) := by
  have hnil : ∀ f, amount f [] = 0 := fun _ => rfl
  cases hs with
  | other hn =>
    have h1 : amount .flushes vs = 0 := hn.amount_eq rfl
    have h2 : amount .recordsFlushed vs = 0 := hn.amount_eq rfl
    have h3 : amount .storeRetries vs = 0 := hn.amount_eq rfl
    constructor <;> simp [h1, h2, h3]
  | append n nanos =>
    obtain ⟨h1, h2, h3, h4, h5⟩ := amounts_walAppend n nanos
    constructor <;> simp [h1, h2, h3, h4, h5]
  | retry n attempt hlt =>
    obtain ⟨h1, h2, h3, h4, h5⟩ := amounts_storeRetry
    constructor
    case retried =>
      rw [h3, h5, Stage.retriesLeft, Stage.retriesLeft]
      omega
    all_goals simp [h1, h2, h3, h4]
  | giveUp n attempt => constructor <;> simp [hnil]
  | persist n attempt => constructor <;> simp [hnil]
  | await n => constructor <;> simp [hnil]
  | flush n nanos =>
    obtain ⟨h1, h2, h3, h4, h5⟩ := amounts_flush n nanos
    constructor <;> simp [h1, h2, h3, h4, h5]
  | lost n hlost => constructor <;> simp [hnil, hlost]

theorem Moves.stay (limit : ℕ) (st : Stage) (lost : Prop) : Moves limit st st [] [] lost := by
  have hnil : ∀ f, amount f [] = 0 := fun _ => rfl
  constructor <;> simp [hnil]

/-- **A step keeps the accounts.** -/
theorem Account.step {lost : Prop} (ha : Account limit st us sizes failed)
    (hm : Moves limit st st' vs ns lost) :
    Account limit st' (us ++ vs) (sizes ++ ns) (failed ∨ lost) := by
  have hflushed := ha.flushed
  have happended := ha.appended
  have hretried := ha.retried
  have hcovered := hm.covered
  have hsizes : ((sizes ++ ns).map asU64).sum = (sizes.map asU64).sum + (ns.map asU64).sum := by
    rw [List.map_append, List.sum_append]
  refine ⟨ha.moments_append ?_ ?_, ?_, fun hf => ?_, ?_, ?_⟩
  · rw [amount_append]
    omega
  · rw [amount_append]
    omega
  · have := hm.flushed
    rw [amount_append, amount_append, List.length_append, hsizes]
    omega
  · have hold := ha.exact fun h => hf (Or.inl h)
    have hnew := hm.exact fun h => hf (Or.inr h)
    rw [amount_append, amount_append, List.length_append, hsizes]
    omega
  · have := hm.appended
    rw [amount_append, amount_append, List.length_append, hsizes]
    omega
  · have := hm.retried
    rw [amount_append, amount_append, Nat.mul_add]
    omega

end Accounts

/-! ### Runs -/

/-- The batches that each thread has persisted, by their sizes. -/
def batches (h : List (Tid × Event)) : List (Tid × ℕ) :=
  (ofEngine h).flatMap fun x => (persistedSizes [x.2]).map (x.1, ·)

/-- A `flush_now` of the thread has returned an error. -/
def Failed (h : List (Tid × Event)) (t : Tid) : Prop := (t, .flushNowReturned none) ∈ ofEngine h

/-- **The accounts of all threads.** -/
structure Kept (cfg : ValidConfig) (s : Metered) (h : List (Tid × Event)) : Prop where
  sized : ∀ t, Sized (s.engine.pc t)
  account : ∀ t, Account cfg.storeRetryLimit (stage (s.engine.pc t))
    (own t (calledUpdates (ofMetrics h))) (own t (batches h)) (Failed h t)

section Runs
variable {cfg : ValidConfig} {s s' : Metered} {a : Action} {h e : List (Tid × Event)}

theorem batches_append (h e : List (Tid × Event)) : batches (h ++ e) = batches h ++ batches e := by
  unfold batches
  rw [ofEngine_append, List.flatMap_append]

theorem batches_eq {t : Tid} {es : List Machine.Event} (he : ofEngine e = tagged t es) :
    batches e = (persistedSizes es).map (t, ·) := by
  unfold batches
  rw [he, tagged]
  clear he
  induction es with
  | nil => rfl
  | cons ev es ih =>
    rw [List.map_cons, List.flatMap_cons, ih]
    cases ev <;> rfl

/-- A step in which the thread `t` records `us`, and the engine makes a step of `t`. -/
theorem Kept.move (hk : Kept cfg s h) (t : Tid) (us : List Update) (es : List Machine.Event)
    {pc' : Machine.Pc} (hsized : Sized pc')
    (hpc : ∀ u, s'.engine.pc u = Function.update s.engine.pc t pc' u)
    (hcalled : calledUpdates (ofMetrics e) = us.map (t, ·)) (he : ofEngine e = tagged t es)
    (hmove : Moves cfg.storeRetryLimit (stage (s.engine.pc t)) (stage pc') us (persistedSizes es)
      (.flushNowReturned none ∈ es)) : Kept cfg s' (h ++ e) := by
  have hfailed : ∀ u, Failed (h ++ e) u ↔ Failed h u ∨ (u, .flushNowReturned none) ∈ tagged t es := by
    intro u
    unfold Failed
    rw [ofEngine_append, List.mem_append, he]
  constructor
  · intro u
    rw [hpc u]
    by_cases hu : u = t
    · rw [hu, Function.update_self]
      exact hsized
    · rw [Function.update_of_ne hu]
      exact hk.sized u
  · intro u
    rw [hpc u, ofMetrics_append, calledUpdates_append, own_append, hcalled, batches_append, own_append,
      batches_eq he]
    by_cases hu : u = t
    · subst hu
      have hlost : (u, .flushNowReturned none) ∈ tagged u es ↔ .flushNowReturned none ∈ es := by
        simp [tagged]
      rw [Function.update_self, own_self, own_self]
      have hnew := (hk.account u).step hmove
      rwa [← hlost, ← hfailed] at hnew
    · rw [Function.update_of_ne hu, own_of_ne (Ne.symm hu), own_of_ne (Ne.symm hu), List.append_nil,
        List.append_nil]
      have hsame : Failed (h ++ e) u ↔ Failed h u := by
        rw [hfailed]
        simp [tagged, Ne.symm hu]
      rw [propext hsame]
      exact hk.account u

/-- A step in which no thread moves or records. -/
theorem Kept.stay (hk : Kept cfg s h) (hpc : s'.engine.pc = s.engine.pc)
    (hcalled : calledUpdates (ofMetrics e) = []) (he : ofEngine e = []) : Kept cfg s' (h ++ e) := by
  refine hk.move .worker [] [] (hk.sized .worker) (fun u => ?_) hcalled he
    (Moves.stay _ _ _)
  rw [hpc, Function.update_eq_self]

theorem stage_entry (c : Call) : stage c.entry.1 = .out ∧ Sized c.entry.1 ∧
    persistedSizes c.entry.2 = [] := by
  cases c <;> exact ⟨rfl, trivial, rfl⟩

/-- **What a step records and lets be seen**: a client begins a call, a thread makes a step and records
what follows from it, or no thread of the engine moves. -/
theorem step_records (hs : s.step cfg a = some (s', e)) :
    (∃ n, ∃ c : Call, s.engine.pc (.client n) = .idle ∧ calledUpdates (ofMetrics e) = [] ∧
      ofEngine e = tagged (.client n) c.entry.2 ∧
      s'.engine.pc = Function.update s.engine.pc (.client n) c.entry.1) ∨
    (∃ t env nanos sh pc es, (s.engine.pc t).step cfg env s.engine.sh = some (sh, pc, es) ∧
      calledUpdates (ofMetrics e) =
        ((recordsAfter cfg env s.engine.sh (s.logged t) nanos (s.engine.pc t)).getD []).map (t, ·) ∧
      ofEngine e = tagged t es ∧ s'.engine.pc = Function.update s.engine.pc t pc) ∨
    (calledUpdates (ofMetrics e) = [] ∧ ofEngine e = [] ∧ s'.engine.pc = s.engine.pc) := by
  rcases step_cases hs with ⟨b, nanos, engine, g, -, -, hstep, rfl, -, rfl, hrec⟩ |
    ⟨hsame, -, hnil, b, hb, hmetrics⟩
  · have hcalled : s.records cfg nanos b = none → calledUpdates (ofMetrics e) = [] := by
      intro hnone
      rcases hrec with ⟨-, -, hnil⟩ | ⟨t, us, hus, -⟩
      · rw [hnil]
        rfl
      · rw [hnone] at hus
        cases hus
    rcases NoLoss.step_cases hstep with ⟨n, c, rfl, hidle, he, heng⟩ |
      ⟨t, env, sh, pc, es, rfl, hpc, he, heng⟩ | ⟨rfl, he, heng⟩
    · exact Or.inl ⟨n, c, hidle, hcalled rfl, he, by rw [heng]⟩
    · refine Or.inr (Or.inl ⟨t, env, nanos, sh, pc, es, hpc, ?_, he, by rw [heng]⟩)
      rcases hrec with ⟨hus, -, hnil⟩ | ⟨u, us, hus, hmetrics⟩
      · rw [hnil, Option.map_eq_none_iff.mp hus]
        rfl
      · obtain ⟨vs, hvs, heq⟩ := Option.map_eq_some_iff.mp hus
        cases heq
        rw [hvs, calledUpdates_step hmetrics]
        rfl
    · exact Or.inr (Or.inr ⟨hcalled rfl, he, by rw [heng]⟩)
  · exact Or.inr (Or.inr ⟨(calledUpdates_step hmetrics).trans hb, hnil, by rw [hsame]⟩)

theorem Kept.step (hk : Kept cfg s h) (hs : s.step cfg a = some (s', e)) : Kept cfg s' (h ++ e) := by
  rcases step_records hs with ⟨n, c, hidle, hcalled, he, hpc⟩ |
    ⟨t, env, nanos, sh, pc, es, hstep, hcalled, he, hpc⟩ | ⟨hcalled, he, hpc⟩
  · obtain ⟨hout, hsized, hnone⟩ := stage_entry c
    refine hk.move _ [] _ hsized (fun u => by rw [hpc]) hcalled he ?_
    rw [hidle, hout, hnone]
    exact Moves.stay _ _ _
  · obtain ⟨hsized, hstage⟩ := stage_step (s.logged t) nanos (hk.sized t) hstep
    exact hk.move _ _ _ hsized (fun u => by rw [hpc]) hcalled he hstage.moves
  · exact hk.stay hpc hcalled he

theorem run_kept (hr : Run (system cfg) anyStep s h) : Kept cfg s h := by
  refine hr.invariant (I := Kept cfg) ?_ fun s h a s' e _ hk _ hs => hk.step hs
  rintro s ⟨engine, ⟨wal, table, rfl⟩, rfl⟩
  have hstart : ∀ t, stage ((Machine.start wal table).pc t) = .out ∧
      Sized ((Machine.start wal table).pc t) := by
    intro t
    cases t <;> exact ⟨rfl, trivial⟩
  refine ⟨fun t => (hstart t).2, fun t => ?_⟩
  rw [show stage ((Metered.start (Machine.start wal table)).engine.pc t) = .out from (hstart t).1]
  exact Account.new _ _

end Runs

end FluxThroughput.Engine.Metering
