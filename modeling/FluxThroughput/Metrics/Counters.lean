import FluxThroughput.Lib.U64
import FluxThroughput.Lib.Accumulators
import FluxThroughput.Lib.Transition

/-! # Metrics

Eleven 64-bit cells that any threads update without a lock: the counters with `fetch_add`, the gauges of
peaks with a compare-and-swap loop (`fetch_max`). A recording call is a sequence of such updates, and
`snapshot` loads the cells one after the other; between any two accesses other threads act.

The accesses are interleaved as if they were sequentially consistent, where the source makes them relaxed.
That is the same for each cell by itself; an order between two cells needs the interleaving. -/

namespace FluxThroughput.Metrics.Counters

open FluxThroughput.Lib.U64 FluxThroughput.Lib.Accumulators FluxThroughput.Lib.Transition

/-! ### The cells -/

inductive Field
  | submitsEnqueued
  | submitsDropped
  | maxSubmitNanos
  | sumSubmitNanos
  | flushes
  | recordsFlushed
  | maxFlushNanos
  | walAppends
  | walRecords
  | storeErrors
  | storeRetries
  deriving DecidableEq, Repr

/-- The fields that hold a peak. -/
def Field.isGauge : Field → Bool
  | .maxSubmitNanos => true
  | .maxFlushNanos => true
  | _ => false

/-- What an update does to a cell: `fetch_add` wraps, `fetch_max` keeps the larger value. -/
def cells : Cells Field UInt64 where
  op f a b := if f.isGauge then max a b else a + b
  comm f a b := by
    split
    · exact max_comm a b
    · exact UInt64.add_comm a b
  assoc f a b c := by
    split
    · exact max_assoc a b c
    · exact UInt64.add_assoc a b c

theorem op_counter {f : Field} (hf : f.isGauge = false) (a b : UInt64) : cells.op f a b = a + b := by
  simp only [cells, hf, Bool.false_eq_true, if_false]

theorem op_gauge {f : Field} (hf : f.isGauge = true) (a b : UInt64) : cells.op f a b = max a b := by
  simp only [cells, hf, if_true]

abbrev MetricsCells := Field → UInt64

def MetricsCells.new : MetricsCells := fun _ => 0

/-- A value for a field. -/
abbrev Update := Field × UInt64

/-! ### Recording calls -/

def recordSubmitEnqueued (submitNanos : UInt64) : List Update :=
  [(.submitsEnqueued, 1), (.sumSubmitNanos, submitNanos), (.maxSubmitNanos, submitNanos)]

def recordSubmitDropped : List Update := [(.submitsDropped, 1)]

def recordFlush (batchLen : ℕ) (flushNanos : UInt64) : List Update :=
  [(.flushes, 1), (.recordsFlushed, UInt64.ofNat batchLen), (.maxFlushNanos, flushNanos)]

def recordWalAppend (records : ℕ) (_nanos : UInt64) : List Update :=
  [(.walAppends, 1), (.walRecords, UInt64.ofNat records)]

def recordStoreError : List Update := [(.storeErrors, 1)]

def recordStoreRetry : List Update := [(.storeRetries, 1)]

/-- The fields in the order in which `snapshot` loads them. -/
def snapshotFields : List Field :=
  [.submitsEnqueued, .submitsDropped, .maxSubmitNanos, .sumSubmitNanos, .flushes, .recordsFlushed,
    .maxFlushNanos, .walAppends, .walRecords, .storeErrors, .storeRetries]

/-! ### Program counters -/

/-- What a thread does next in a recording call or a `snapshot`. -/
inductive Pc
  | idle
  | recording (todo : List Update)
  -- `fetch_max` has seen `current` below `value`
  | raising (f : Field) (value current : UInt64) (todo : List Update)
  | loading (todo : List Field) (got : List Update)
  deriving DecidableEq, Repr

/-- After an update of a recording call. -/
def next : List Update → Pc
  | [] => .idle
  | todo => .recording todo

/-- Updates that have taken effect, loads of `snapshot`, and what it returns. -/
inductive Event
  | recorded (x : Update)
  | loaded (x : Update)
  | snapshotReturned (got : List Update)
  deriving DecidableEq, Repr

/-- **One atomic access.** -/
def Pc.step (spurious : Bool) (m : MetricsCells) : Pc → Option (MetricsCells × Pc × List Event)
  | .idle => none
  | .recording [] => some (m, .idle, [])
  | .recording ((f, value) :: todo) =>
    if f.isGauge then
      if m f < value then some (m, .raising f value (m f) todo, [])
      else some (m, next todo, [.recorded (f, value)])
    else some (Function.update m f (m f + value), next todo, [.recorded (f, value)])
  | .raising f value current todo =>
    if spurious = false ∧ m f = current then
      some (Function.update m f value, next todo, [.recorded (f, value)])
    else if m f < value then some (m, .raising f value (m f) todo, [])
    else some (m, next todo, [.recorded (f, value)])
  | .loading (f :: todo) got => some (m, .loading todo (got ++ [(f, m f)]), [.loaded (f, m f)])
  | .loading [] got => some (m, .idle, [.snapshotReturned got])

/-! ### Many threads -/

variable {T : Type*}

structure Recorders (T : Type*) where
  metrics : MetricsCells
  pc : T → Pc

/-- A thread begins a recording call or a `snapshot`, or makes its next access. -/
inductive Action (T : Type*)
  | record (t : T) (us : List Update)
  | snapshot (t : T)
  | run (t : T) (spurious : Bool)

/-- The beginning of a call, or what happens in one. -/
inductive Mark
  | called (us : List Update)
  | snapshotCalled
  | did (e : Event)
  deriving DecidableEq, Repr

def Recorders.step [DecidableEq T] (s : Recorders T) :
    Action T → Option (Recorders T × List (T × Mark))
  | .record t us =>
    match s.pc t with
    | .idle => some ({ s with pc := Function.update s.pc t (next us) }, [(t, .called us)])
    | _ => none
  | .snapshot t =>
    match s.pc t with
    | .idle =>
      some ({ s with pc := Function.update s.pc t (.loading snapshotFields []) }, [(t, .snapshotCalled)])
    | _ => none
  | .run t spurious =>
    match (s.pc t).step spurious s.metrics with
    | some (m, pc, es) =>
      some ({ metrics := m, pc := Function.update s.pc t pc }, es.map fun e => (t, .did e))
    | none => none

/-- Any threads on a fresh collector. -/
def system (T : Type*) [DecidableEq T] : System (Recorders T) (Action T) (T × Mark) where
  init s := s = { metrics := MetricsCells.new, pc := fun _ => .idle }
  step := Recorders.step

/-! ### What has been recorded -/

/-- The updates of the calls that have begun. -/
def calledUpdates (h : List (T × Mark)) : List (T × Update) :=
  h.flatMap fun x => match x.2 with
    | .called us => us.map (x.1, ·)
    | _ => []

/-- The updates of the call that an action begins. -/
def Action.updates : Action T → List (T × Update)
  | .record t us => us.map (t, ·)
  | _ => []

/-- The updates that have taken effect. -/
def recorded (h : List (T × Mark)) : List (T × Update) :=
  h.filterMap fun x => match x.2 with
    | .did (.recorded u) => some (x.1, u)
    | _ => none

/-- The updates a thread has still to make in its call. -/
def remaining : Pc → List Update
  | .recording todo => todo
  | .raising f value _ todo => (f, value) :: todo
  | _ => []

/-- The sum of what was recorded for a field, as a number. -/
def amount (f : Field) (us : List Update) : ℕ := (us.map fun u => if u.1 = f then u.2.toNat else 0).sum

/-! ### One access -/

section Access

/-- `fetch_max` goes on only while its value is above what it has seen. -/
def PcOk : Pc → Prop
  | .raising f value current _ => f.isGauge = true ∧ current < value
  | _ => True

theorem pcOk_next (todo : List Update) : PcOk (next todo) := by
  cases todo <;> trivial

theorem remaining_next (todo : List Update) : remaining (next todo) = todo := by
  cases todo <;> rfl

/-- The updates that events say have taken effect. -/
def updatesOf (es : List Event) : List Update :=
  es.filterMap fun e => match e with
    | .recorded u => some u
    | _ => none

/-- A gauge that is not below the value stays. -/
theorem add_of_le {m : MetricsCells} {f : Field} {value : UInt64} (hf : f.isGauge = true)
    (hle : ¬ m f < value) : cells.add m (f, value) = m := by
  have hmax : max (m f) value = m f := max_eq_left (not_lt.mp hle)
  unfold Cells.add
  simp only [cells, hf, if_true, hmax, Function.update_eq_self]

/-- **What an access does**: it performs the next updates of the call, at most one, and nothing else. -/
theorem step_spec {b : Bool} {m m' : MetricsCells} {pc pc' : Pc} {es : List Event} (hok : PcOk pc)
    (hs : pc.step b m = some (m', pc', es)) :
    PcOk pc' ∧ remaining pc = updatesOf es ++ remaining pc' ∧ m' = cells.addAll m (updatesOf es) := by
  rcases pc with _ | todo | ⟨f, value, current, todo⟩ | ⟨todo, got⟩
  · cases hs
  · rcases todo with _ | ⟨⟨f, value⟩, todo⟩
    · cases hs
      exact ⟨trivial, rfl, rfl⟩
    · simp only [Pc.step] at hs
      split_ifs at hs with hf hlt <;> cases hs
      · exact ⟨⟨hf, hlt⟩, rfl, rfl⟩
      · refine ⟨pcOk_next todo, ?_, (add_of_le hf hlt).symm⟩
        rw [remaining_next]
        rfl
      · refine ⟨pcOk_next todo, ?_, ?_⟩
        · rw [remaining_next]
          rfl
        · simp [updatesOf, Cells.addAll, Cells.add, cells, hf]
  · obtain ⟨hf, hcur⟩ := hok
    simp only [Pc.step] at hs
    split_ifs at hs with hcas hlt <;> cases hs
    · obtain ⟨-, rfl⟩ := hcas
      refine ⟨pcOk_next todo, ?_, ?_⟩
      · rw [remaining_next]
        rfl
      · have hmax : max (m f) value = value := max_eq_right hcur.le
        simp [updatesOf, Cells.addAll, Cells.add, cells, hf, hmax]
    · exact ⟨⟨hf, hlt⟩, rfl, rfl⟩
    · refine ⟨pcOk_next todo, ?_, (add_of_le hf hlt).symm⟩
      rw [remaining_next]
      rfl
  · rcases todo with _ | ⟨f, todo⟩
    · cases hs
      exact ⟨trivial, rfl, rfl⟩
    · cases hs
      exact ⟨trivial, rfl, rfl⟩

/-- An update takes effect within two accesses, if no other thread acts between them. -/
theorem step_update (m : MetricsCells) (f : Field) (value : UInt64) (todo : List Update) :
    (∃ m' es, (Pc.recording ((f, value) :: todo)).step false m = some (m', next todo, es)) ∨
      ((Pc.recording ((f, value) :: todo)).step false m = some (m, .raising f value (m f) todo, []) ∧
        ∃ m' es, (Pc.raising f value (m f) todo).step false m = some (m', next todo, es)) := by
  by_cases hlt : f.isGauge = true ∧ m f < value
  · right
    exact ⟨by simp [Pc.step, hlt.1, hlt.2], _, _, if_pos ⟨rfl, rfl⟩⟩
  · left
    by_cases hf : f.isGauge = true
    · have hge : ¬ m f < value := fun h => hlt ⟨hf, h⟩
      simp [Pc.step, hf, hge]
    · simp [Pc.step, hf]

end Access

/-! ### Runs -/

section Histories

theorem calledUpdates_append (h e : List (T × Mark)) :
    calledUpdates (h ++ e) = calledUpdates h ++ calledUpdates e := List.flatMap_append

theorem recorded_append (h e : List (T × Mark)) : recorded (h ++ e) = recorded h ++ recorded e :=
  List.filterMap_append

theorem recorded_did (t : T) (es : List Event) :
    recorded (es.map fun e => (t, Mark.did e)) = (updatesOf es).map (t, ·) := by
  induction es with
  | nil => rfl
  | cons e es ih =>
    cases e
    · exact congrArg ((t, _) :: ·) ih
    · exact ih
    · exact ih

theorem calledUpdates_did (t : T) (es : List Event) :
    calledUpdates (es.map fun e => (t, Mark.did e)) = [] := by
  induction es with
  | nil => rfl
  | cons e es ih => exact ih

end Histories

section Runs
variable [DecidableEq T] {s s' : Recorders T} {a : Action T} {h e : List (T × Mark)}

/-- **What a step is**: the beginning of a call, or an access. -/
theorem step_cases (hs : s.step a = some (s', e)) :
    (∃ t us, s.pc t = .idle ∧ s' = { s with pc := Function.update s.pc t (next us) } ∧
      e = [(t, .called us)]) ∨
    (∃ t, s.pc t = .idle ∧
      s' = { s with pc := Function.update s.pc t (.loading snapshotFields []) } ∧
      e = [(t, .snapshotCalled)]) ∨
    ∃ t b m pc es, (s.pc t).step b s.metrics = some (m, pc, es) ∧
      s' = { metrics := m, pc := Function.update s.pc t pc } ∧ e = es.map fun x => (t, .did x) := by
  cases a with
  | record t us =>
    simp only [Recorders.step] at hs
    split at hs <;> cases hs
    rename_i hidle
    exact Or.inl ⟨t, us, hidle, rfl, rfl⟩
  | snapshot t =>
    simp only [Recorders.step] at hs
    split at hs <;> cases hs
    rename_i hidle
    exact Or.inr (Or.inl ⟨t, hidle, rfl, rfl⟩)
  | run t b =>
    simp only [Recorders.step] at hs
    split at hs <;> cases hs
    rename_i hacc
    exact Or.inr (Or.inr ⟨t, b, _, _, _, hacc, rfl, rfl⟩)

theorem calledUpdates_step (hs : (system T).step s a = some (s', e)) : calledUpdates e = a.updates := by
  change s.step a = some (s', e) at hs
  cases a with
  | record t us =>
    simp only [Recorders.step] at hs
    split at hs <;> cases hs
    exact List.append_nil _
  | snapshot t =>
    simp only [Recorders.step] at hs
    split at hs <;> cases hs
    rfl
  | run t b =>
    simp only [Recorders.step] at hs
    split at hs <;> cases hs
    exact calledUpdates_did t _

/-- The cells hold what has been recorded, and each thread has recorded its calls in order, up to what
remains of the one it is in. -/
structure Kept (s : Recorders T) (h : List (T × Mark)) : Prop where
  pcOk : ∀ t, PcOk (s.pc t)
  metrics : s.metrics = cells.addAll MetricsCells.new ((recorded h).map Prod.snd)
  threads : ∀ t, own t (calledUpdates h) = own t (recorded h) ++ remaining (s.pc t)

/-- A thread begins a call with the updates `us`, or performs the updates `rs` of the one it is in. -/
theorem Kept.move (hk : Kept s h) {t : T} {pc' : Pc} (us rs : List Update) (hpc : PcOk pc')
    (hcalled : calledUpdates e = us.map (t, ·)) (hrec : recorded e = rs.map (t, ·))
    (hrem : remaining (s.pc t) ++ us = rs ++ remaining pc') :
    Kept { metrics := cells.addAll s.metrics rs, pc := Function.update s.pc t pc' } (h ++ e) where
  pcOk u := by
    by_cases hu : u = t
    · rw [hu]
      simpa only [Function.update_self] using hpc
    · simpa only [Function.update_of_ne hu] using hk.pcOk u
  metrics := by
    have hsnd : (rs.map (t, ·)).map Prod.snd = rs := by
      rw [List.map_map]
      exact List.map_id rs
    rw [recorded_append, List.map_append, hrec, hsnd, hk.metrics]
    exact List.foldl_append.symm
  threads u := by
    rw [calledUpdates_append, recorded_append, own_append, own_append, hcalled, hrec, hk.threads u]
    by_cases hu : u = t
    · subst hu
      simp only [own_self, Function.update_self, List.append_assoc, hrem]
    · simp only [own_of_ne (Ne.symm hu), Function.update_of_ne hu, List.append_nil]

theorem Kept.step (hk : Kept s h) (hs : s.step a = some (s', e)) : Kept s' (h ++ e) := by
  rcases step_cases hs with ⟨t, us, hidle, rfl, rfl⟩ | ⟨t, hidle, rfl, rfl⟩ |
    ⟨t, b, m, pc, es, hacc, rfl, rfl⟩
  · refine hk.move us [] (pcOk_next us) (List.append_nil _) rfl ?_
    rw [hidle, remaining_next]
    rfl
  · refine hk.move [] [] trivial rfl rfl ?_
    rw [hidle]
    rfl
  · obtain ⟨hok, hrem, rfl⟩ := step_spec (hk.pcOk t) hacc
    refine hk.move [] _ hok (calledUpdates_did t es) (recorded_did t es) ?_
    rw [List.append_nil, hrem]

theorem run_kept {ok : Guard (Recorders T) (Action T) (T × Mark)} (hr : Run (system T) ok s h) :
    Kept s h := by
  refine hr.invariant (I := Kept) ?_ fun s h a s' e _ hk _ hs => hk.step hs
  rintro s rfl
  exact ⟨fun _ => trivial, rfl, fun _ => rfl⟩

end Runs

/-! ### What the cells hold -/

section Values
variable {f : Field} {us : List Update}

theorem amount_append (f : Field) (us vs : List Update) :
    amount f (us ++ vs) = amount f us + amount f vs := by
  unfold amount
  rw [List.map_append, List.sum_append]

/-- A counter holds the sum of what was recorded, modulo `2 ^ 64`. -/
theorem counter_eq (hf : f.isGauge = false) (us : List Update) :
    (cells.addAll MetricsCells.new us f).toNat = amount f us % 2 ^ 64 := by
  induction us using List.reverseRecOn with
  | nil => rfl
  | append_singleton us x ih =>
    obtain ⟨g, v⟩ := x
    rw [Cells.addAll_concat, amount_append]
    by_cases hg : f = g
    · subst hg
      have hone : amount f [(f, v)] = v.toNat := by simp [amount]
      rw [Cells.add_self, op_counter hf, UInt64.toNat_add, ih, hone]
      omega
    · rw [Cells.add_of_ne _ _ hg, ih]
      simp [amount, Ne.symm hg]

/-- A gauge holds the largest value recorded, or `0`. -/
theorem gauge_eq (hf : f.isGauge = true) (us : List Update) :
    (∀ v, (f, v) ∈ us → v ≤ cells.addAll MetricsCells.new us f) ∧
      (cells.addAll MetricsCells.new us f = 0 ∨ (f, cells.addAll MetricsCells.new us f) ∈ us) := by
  induction us using List.reverseRecOn with
  | nil => exact ⟨fun v hv => absurd hv List.not_mem_nil, Or.inl rfl⟩
  | append_singleton us x ih =>
    obtain ⟨hle, hmem⟩ := ih
    obtain ⟨g, v⟩ := x
    rw [Cells.addAll_concat]
    by_cases hg : f = g
    · subst hg
      rw [Cells.add_self, op_gauge hf]
      constructor
      · intro w hw
        rcases List.mem_append.mp hw with hw | hw
        · exact (hle w hw).trans (le_max_left _ _)
        · cases List.mem_singleton.mp hw
          exact le_max_right _ _
      · rcases le_total (cells.addAll MetricsCells.new us f) v with hv | hv
        · exact Or.inr (List.mem_append_right _ (List.mem_singleton.mpr (by rw [max_eq_right hv])))
        · rw [max_eq_left hv]
          exact hmem.imp id (List.mem_append_left _)
    · rw [Cells.add_of_ne _ _ hg]
      constructor
      · intro w hw
        rcases List.mem_append.mp hw with hw | hw
        · exact hle w hw
        · cases List.mem_singleton.mp hw
          exact absurd rfl hg
      · exact hmem.imp id (List.mem_append_left _)

/-- **What the cells hold**, for the updates of some calls. -/
structure Exact (m : MetricsCells) (us : List Update) : Prop where
  counter : ∀ f, f.isGauge = false → (m f).toNat = amount f us % 2 ^ 64
  gauge : ∀ f, f.isGauge = true → (∀ v, (f, v) ∈ us → v ≤ m f) ∧ (m f = 0 ∨ (f, m f) ∈ us)

/-- When no update remains to be made, the cells hold all that the calls recorded. -/
theorem Kept.metrics_eq [DecidableEq T] {s : Recorders T} {h : List (T × Mark)} (hk : Kept s h)
    (hdone : ∀ t, remaining (s.pc t) = []) :
    s.metrics = cells.addAll MetricsCells.new ((calledUpdates h).map Prod.snd) := by
  have hperm : (calledUpdates h).Perm (recorded h) := by
    refine perm_of_own fun t => ?_
    rw [hk.threads t, hdone t]
    exact List.append_nil _
  rw [hk.metrics]
  exact (Cells.addAll_perm _ _ (hperm.map _)).symm

/-- **No update is lost**: in every run of any threads, when no call is in progress, each counter is the
sum of what the calls recorded, modulo `2 ^ 64`, and each gauge their largest value. -/
theorem metrics_exact [DecidableEq T] {s : Recorders T} {h : List (T × Mark)}
    (hr : Run (system T) anyStep s h) (hidle : ∀ t, s.pc t = .idle) :
    Exact s.metrics ((calledUpdates h).map Prod.snd) := by
  have hm := (run_kept hr).metrics_eq fun t => by rw [hidle t]; rfl
  rw [hm]
  exact ⟨fun f hf => counter_eq hf _, fun f hf => gauge_eq hf _⟩

end Values

/-- Two submitters race for the peak: the one with the smaller latency loses its compare-and-swap and
finds the gauge above its value. -/
theorem metrics_exact_race : ∃ (s : Recorders Bool) (h : List (Bool × Mark)),
    Run (system Bool) anyStep s h ∧ s.metrics .maxSubmitNanos = 70 ∧
    (calledUpdates h).map Prod.snd = recordSubmitEnqueued 50 ++ recordSubmitEnqueued 70 ∧
    Exact s.metrics ((calledUpdates h).map Prod.snd) := by
  obtain ⟨s, h, hr, hp⟩ := exists_run_of_exec (system Bool) anyStep (fun _ _ _ => true)
    (fun _ _ _ _ => trivial) { metrics := MetricsCells.new, pc := fun _ => .idle }
    [.record false (recordSubmitEnqueued 50), .record true (recordSubmitEnqueued 70),
      .run false false, .run false false, .run true false, .run true false, .run false false,
      .run true false, .run true false, .run false false]
    (fun x => decide ((∀ t, x.1.pc t = .idle) ∧ x.1.metrics .maxSubmitNanos = 70 ∧
      (calledUpdates x.2).map Prod.snd = recordSubmitEnqueued 50 ++ recordSubmitEnqueued 70))
    rfl (by decide +kernel)
  obtain ⟨hidle, hmax, hcalls⟩ := of_decide_eq_true hp
  exact ⟨s, h, hr, hmax, hcalls, metrics_exact hr hidle⟩

/-! ### Snapshots -/

/-- What a field holds after a history. -/
def valueAt (h : List (T × Mark)) (f : Field) : UInt64 :=
  cells.addAll MetricsCells.new ((recorded h).map Prod.snd) f

/-- **What a `snapshot` has loaded**: each field at a moment since the call began, in this order. -/
structure Loads (began h : List (T × Mark)) (todo : List Field) (got : List Update) : Prop where
  fields : got.map Prod.fst ++ todo = snapshotFields
  moments : ∃ ms, List.Forall₂ (fun (x : Update) m => x.2 = valueAt m x.1) got ms ∧
    ms.Pairwise (· <+: ·) ∧ ∀ m ∈ ms, began <+: m ∧ m <+: h

section Snapshots
variable {h e began : List (T × Mark)} {todo : List Field} {got : List Update}

theorem Loads.append (hl : Loads began h todo got) (e : List (T × Mark)) :
    Loads began (h ++ e) todo got := by
  obtain ⟨ms, hvalue, hchain, hms⟩ := hl.moments
  exact ⟨hl.fields, ms, hvalue, hchain,
    fun m hm => ⟨(hms m hm).1, (hms m hm).2.trans (List.prefix_append h e)⟩⟩

theorem Loads.load {f : Field} (hl : Loads began h (f :: todo) got) (hpre : began <+: h) :
    Loads began h todo (got ++ [(f, valueAt h f)]) := by
  obtain ⟨ms, hvalue, hchain, hms⟩ := hl.moments
  refine ⟨?_, ms ++ [h], ?_, ?_, ?_⟩
  · rw [List.map_append, List.append_assoc]
    exact hl.fields
  · exact List.rel_append hvalue (List.Forall₂.cons rfl List.Forall₂.nil)
  · rw [List.pairwise_append]
    refine ⟨hchain, List.pairwise_singleton _ _, fun m hm m' hm' => ?_⟩
    rw [List.mem_singleton.mp hm']
    exact (hms m hm).2
  · intro m hm
    rcases List.mem_append.mp hm with hm | hm
    · exact hms m hm
    · rw [List.mem_singleton.mp hm]
      exact ⟨hpre, List.prefix_rfl⟩

end Snapshots

section SnapshotRuns
variable [DecidableEq T] {s s' : Recorders T} {a : Action T} {h e : List (T × Mark)}

/-- Every `snapshot`, in progress or returned, has loaded as `Loads` says. -/
structure Shown (s : Recorders T) (h : List (T × Mark)) : Prop where
  loading : ∀ t todo got, s.pc t = .loading todo got → ∀ pre mid,
    h = pre ++ (t, .snapshotCalled) :: mid → (t, .snapshotCalled) ∉ mid →
    Loads (pre ++ [(t, .snapshotCalled)]) h todo got
  returned : ∀ pre t mid got post,
    h = pre ++ (t, .snapshotCalled) :: mid ++ (t, .did (.snapshotReturned got)) :: post →
    (t, .snapshotCalled) ∉ mid →
    Loads (pre ++ [(t, .snapshotCalled)]) (pre ++ (t, .snapshotCalled) :: mid) [] got

omit [DecidableEq T] in
theorem Shown.loading_append (hs : Shown s h) {t : T} {todo : List Field} {got : List Update}
    (ht : s.pc t = .loading todo got) (hnew : (t, Mark.snapshotCalled) ∉ e) {pre mid : List (T × Mark)}
    (heq : h ++ e = pre ++ (t, .snapshotCalled) :: mid) (hmid : (t, .snapshotCalled) ∉ mid) :
    Loads (pre ++ [(t, .snapshotCalled)]) h todo got ∧ pre ++ [(t, .snapshotCalled)] <+: h := by
  rcases split_append heq with ⟨mid', hh, rfl⟩ | ⟨pre', -, he⟩
  · refine ⟨hs.loading t todo got ht pre mid' hh fun hm => hmid (List.mem_append_left _ hm), ?_⟩
    exact ⟨mid', by rw [hh, List.append_assoc]; rfl⟩
  · exact absurd (he ▸ List.mem_append_right _ List.mem_cons_self) hnew

omit [DecidableEq T] in
theorem Shown.returned_append (hs : Shown s h)
    (hnew : ∀ t got, (t, Mark.did (.snapshotReturned got)) ∉ e) {pre mid post : List (T × Mark)} {t : T}
    {got : List Update}
    (heq : h ++ e = pre ++ (t, .snapshotCalled) :: mid ++ (t, .did (.snapshotReturned got)) :: post)
    (hmid : (t, .snapshotCalled) ∉ mid) :
    Loads (pre ++ [(t, .snapshotCalled)]) (pre ++ (t, .snapshotCalled) :: mid) [] got := by
  rcases split_append heq with ⟨post', hh, -⟩ | ⟨pre', -, he⟩
  · exact hs.returned pre t mid got post' hh hmid
  · exact absurd (he ▸ List.mem_append_right _ List.mem_cons_self) (hnew t got)

/-- An access of a `snapshot`: the load of the next field, or the return. -/
theorem loading_step {b : Bool} {m m' : MetricsCells} {todo : List Field} {got : List Update} {pc' : Pc}
    {es : List Event} (hs : (Pc.loading todo got).step b m = some (m', pc', es)) : m' = m ∧
      ((∃ f todo', todo = f :: todo' ∧ pc' = .loading todo' (got ++ [(f, m f)]) ∧
          es = [.loaded (f, m f)]) ∨
        (todo = [] ∧ pc' = .idle ∧ es = [.snapshotReturned got])) := by
  cases todo <;> cases hs
  · exact ⟨rfl, Or.inr ⟨rfl, rfl, rfl⟩⟩
  · exact ⟨rfl, Or.inl ⟨_, _, rfl, rfl, rfl⟩⟩

/-- Any other access leaves the thread outside of `snapshot`. -/
theorem not_loading_step {b : Bool} {m m' : MetricsCells} {pc pc' : Pc} {es : List Event}
    (hpc : ∀ todo got, pc ≠ .loading todo got) (hs : pc.step b m = some (m', pc', es)) :
    (∀ todo got, pc' ≠ .loading todo got) ∧ ∀ got, Event.snapshotReturned got ∉ es := by
  have hnext : ∀ us todo got, next us ≠ .loading todo got := by
    intro us todo got
    cases us <;> exact fun heq => by cases heq
  rcases pc with _ | todo | ⟨f, value, current, todo⟩ | ⟨todo, got⟩
  · cases hs
  · rcases todo with _ | ⟨⟨f, value⟩, todo⟩
    · cases hs
      exact ⟨by simp, by simp⟩
    · simp only [Pc.step] at hs
      split_ifs at hs <;> cases hs
      · exact ⟨by simp, by simp⟩
      · exact ⟨hnext todo, by simp⟩
      · exact ⟨hnext todo, by simp⟩
  · simp only [Pc.step] at hs
    split_ifs at hs <;> cases hs
    · exact ⟨hnext todo, by simp⟩
    · exact ⟨by simp, by simp⟩
    · exact ⟨hnext todo, by simp⟩
  · exact absurd rfl (hpc todo got)

theorem Shown.step (hk : Kept s h) (hi : Shown s h) (hs : s.step a = some (s', e)) :
    Shown s' (h ++ e) := by
  have hvalue : ∀ f, valueAt h f = s.metrics f := fun f => (congrFun hk.metrics f).symm
  rcases step_cases hs with ⟨u, us, hidle, rfl, rfl⟩ | ⟨u, hidle, rfl, rfl⟩ |
    ⟨u, b, m, pc, es, hacc, rfl, rfl⟩
  · refine ⟨fun t todo got ht pre mid heq hmid => ?_, fun pre t mid got post =>
      hi.returned_append (by simp)⟩
    by_cases htu : t = u
    · rw [htu] at ht
      simp only [Function.update_self] at ht
      cases us <;> cases ht
    · simp only [Function.update_of_ne htu] at ht
      exact (hi.loading_append ht (by simp) heq hmid).1.append _
  · refine ⟨fun t todo got ht pre mid heq hmid => ?_, fun pre t mid got post =>
      hi.returned_append (by simp)⟩
    by_cases htu : t = u
    · subst htu
      simp only [Function.update_self] at ht
      cases ht
      exact ⟨rfl, [], List.Forall₂.nil, List.Pairwise.nil, fun m hm => absurd hm List.not_mem_nil⟩
    · simp only [Function.update_of_ne htu] at ht
      have hnew : (t, Mark.snapshotCalled) ∉ [(u, Mark.snapshotCalled)] := by
        simpa using htu
      exact (hi.loading_append ht hnew heq hmid).1.append _
  · have hcalled : ∀ t, (t, Mark.snapshotCalled) ∉ es.map fun x => (u, Mark.did x) := by simp
    by_cases hload : ∃ todo got, s.pc u = .loading todo got
    · obtain ⟨todo, got, hu⟩ := hload
      rw [hu] at hacc
      obtain ⟨rfl, ⟨f, todo', rfl, rfl, rfl⟩ | ⟨rfl, rfl, rfl⟩⟩ := loading_step hacc
      · refine ⟨fun t todo got' ht pre mid heq hmid => ?_, fun pre t mid got post =>
          hi.returned_append (by simp)⟩
        by_cases htu : t = u
        · subst htu
          simp only [Function.update_self] at ht
          cases ht
          obtain ⟨hl, hpre⟩ := hi.loading_append hu (hcalled t) heq hmid
          rw [← hvalue]
          exact (hl.load hpre).append _
        · simp only [Function.update_of_ne htu] at ht
          exact (hi.loading_append ht (hcalled t) heq hmid).1.append _
      · refine ⟨fun t todo got' ht pre mid heq hmid => ?_, fun pre t mid got' post heq hmid => ?_⟩
        · by_cases htu : t = u
          · rw [htu] at ht
            simp only [Function.update_self] at ht
            cases ht
          · simp only [Function.update_of_ne htu] at ht
            exact (hi.loading_append ht (hcalled t) heq hmid).1.append _
        · rcases split_concat heq with ⟨post', hh, -⟩ | ⟨rfl, hlast, -⟩
          · exact hi.returned pre t mid got' post' hh hmid
          · cases hlast
            exact hi.loading _ _ _ hu pre mid rfl hmid
    · push Not at hload
      obtain ⟨hpc, hret⟩ := not_loading_step hload hacc
      refine ⟨fun t todo got ht pre mid heq hmid => ?_, fun pre t mid got post =>
        hi.returned_append (by simpa using fun got => hret got)⟩
      by_cases htu : t = u
      · rw [htu] at ht
        simp only [Function.update_self] at ht
        exact absurd ht (hpc todo got)
      · simp only [Function.update_of_ne htu] at ht
        exact (hi.loading_append ht (hcalled t) heq hmid).1.append _

theorem run_shown {ok : Guard (Recorders T) (Action T) (T × Mark)} (hr : Run (system T) ok s h) :
    Shown s h := by
  refine hr.invariant (I := Shown) ?_ fun s h a s' e hr hi _ hs => hi.step (run_kept hr) hs
  rintro s rfl
  refine ⟨fun t todo got ht => ?_, fun pre t mid got post heq => ?_⟩
  · cases ht
  · exact absurd (congrArg List.length heq) (by simp)

end SnapshotRuns

/-! ### What a snapshot shows -/

section Shows
variable {began h : List (T × Mark)} {got : List Update} {f g : Field} {v w : UInt64}

theorem amount_mono {m m' : List (T × Mark)} (hpre : m <+: m') (f : Field) :
    amount f ((recorded m).map Prod.snd) ≤ amount f ((recorded m').map Prod.snd) := by
  obtain ⟨tail, rfl⟩ := hpre
  rw [recorded_append, List.map_append, amount_append]
  exact Nat.le_add_right _ _

/-- The moment at which a field was loaded. -/
theorem Loads.moment (hl : Loads began h [] got) (hv : (f, v) ∈ got) :
    ∃ m, v = valueAt m f ∧ began <+: m ∧ m <+: h := by
  obtain ⟨ms, hvalue, -, hms⟩ := hl.moments
  obtain ⟨i, hi, hx⟩ := List.mem_iff_getElem.mp hv
  have hlen := hvalue.length_eq
  have hget := (List.forall₂_iff_get.mp hvalue).2 i hi (hlen ▸ hi)
  simp only [List.get_eq_getElem, hx] at hget
  exact ⟨_, hget, hms _ (List.getElem_mem _)⟩

/-- A field that is loaded earlier was loaded at an earlier moment. -/
theorem Loads.moments_of_lt (hl : Loads began h [] got) (hv : (f, v) ∈ got) (hw : (g, w) ∈ got)
    (hlt : snapshotFields.idxOf f < snapshotFields.idxOf g) :
    ∃ m m', v = valueAt m f ∧ w = valueAt m' g ∧ m <+: m' ∧ m' <+: h := by
  obtain ⟨ms, hvalue, hchain, hms⟩ := hl.moments
  have hfields := hl.fields
  rw [List.append_nil] at hfields
  have hnodup : snapshotFields.Nodup := by decide
  obtain ⟨i, hi, hx⟩ := List.mem_iff_getElem.mp hv
  obtain ⟨j, hj, hy⟩ := List.mem_iff_getElem.mp hw
  have hlen := hvalue.length_eq
  have hindex : ∀ k (hk : k < got.length), snapshotFields.idxOf got[k].1 = k := by
    intro k hk
    have hk' : k < snapshotFields.length := by
      rwa [← hfields, List.length_map]
    have hfst : got[k].1 = snapshotFields[k] := by
      simp only [← hfields, List.getElem_map]
    rw [hfst, hnodup.idxOf_getElem]
  have hij : i < j := by
    have h1 := hindex i hi
    have h2 := hindex j hj
    simp only [hx] at h1
    simp only [hy] at h2
    omega
  have hgeti := (List.forall₂_iff_get.mp hvalue).2 i hi (hlen ▸ hi)
  have hgetj := (List.forall₂_iff_get.mp hvalue).2 j hj (hlen ▸ hj)
  simp only [List.get_eq_getElem, hx] at hgeti
  simp only [List.get_eq_getElem, hy] at hgetj
  exact ⟨_, _, hgeti, hgetj, List.pairwise_iff_getElem.mp hchain i j (hlen ▸ hi) (hlen ▸ hj) hij,
    (hms _ (List.getElem_mem _)).2⟩

/-- **What a `snapshot` shows** of a field, when it is called after `began` and returns after `h`. -/
structure Between (began h : List (T × Mark)) (f : Field) (v : UInt64) : Prop where
  gauge : f.isGauge = true → valueAt began f ≤ v ∧ v ≤ valueAt h f
  counter : f.isGauge = false → amount f ((recorded h).map Prod.snd) < 2 ^ 64 →
    amount f ((recorded began).map Prod.snd) ≤ v.toNat ∧ v.toNat ≤ amount f ((recorded h).map Prod.snd)

end Shows

end FluxThroughput.Metrics.Counters
