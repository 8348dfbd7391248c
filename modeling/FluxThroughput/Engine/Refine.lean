import FluxThroughput.Engine.Machine

/-! # The engine is a write-behind pipeline

`pipe` forgets blobs, LSNs and control flow: what is left of a state and its history is a pipeline of
`(player, version)` pairs. Every step of the engine is a move of that pipeline (`step_move`), so the
pipeline's invariant holds in every reachable state (`run_inv`), and no step except a checkpoint can
take a record out of the log (`step_act`). -/

namespace FluxThroughput.Engine.Refine

open FluxThroughput.Domain.Types FluxThroughput.Cache.WriteBehind FluxThroughput.Store.Mock
open FluxThroughput.Lsn.Authority FluxThroughput.Wal.Atomic FluxThroughput.Engine.Config
open FluxThroughput.Engine.Machine FluxThroughput.Lib.Transition FluxThroughput.Lib.WriteBehind

/-! ### The abstraction -/

abbrev Write := PlayerId × UInt64

def reqKey (req : WriteRequest) : Write := (req.playerId, req.version)
def stateKey (st : PlayerState) : Write := (st.playerId, st.version)
def recKey (rec : WalRecord) : Write := (rec.playerId, rec.version)

/-- The requests a thread has popped from the ring and not yet applied. -/
def buffer : Pc → List WriteRequest
  | .drainPop _ got => got
  | .drainNote _ _ req rest => req :: rest
  | .drainApply _ _ req rest => req :: rest
  | _ => []

/-- The states a thread has taken and neither persisted nor put back. -/
def batch : Pc → List PlayerState
  | .allocBlock _ states => states
  | .appendBatch _ states _ => states
  | .persistBatch _ states _ _ => states
  | .requeue _ states => states
  | _ => []

def hold (pc : Pc) : Hold PlayerId UInt64 where
  buf := (buffer pc).map reqKey
  batch := (batch pc).map stateKey

/-- The writes an event list accepts. -/
def acceptedBy (es : List Event) : Set Write := {w | ∃ req, .enqueued req ∈ es ∧ w = reqKey req}

/-- The writes whose enqueue has succeeded. -/
def accepted (h : List (Tid × Event)) : Set Write :=
  {w | ∃ t req, (t, .enqueued req) ∈ h ∧ w = reqKey req}

def core (acc : Set Write) (sh : Shared) : Core PlayerId UInt64 where
  accepted := acc
  queue := sh.ring.map reqKey
  cached := sh.cache.versions
  dirty := {id | id ∈ sh.cache.inner.dirty}
  store := versions sh.table
  log := {w | ∃ rec ∈ sh.wal.records, w = recKey rec}

/-- **The pipeline of a state and its history.** -/
def pipe (s : FluxEngine) (h : List (Tid × Event)) : Pipe Tid PlayerId UInt64 where
  core := core (accepted h) s.sh
  hold t := hold (s.pc t)

/-! ### Where control goes holds what it should -/

/-- The thread carries no request, no record and no state. -/
def isBare : Pc → Bool
  | .idle | .submitAlloc _ _ _ | .durableAlloc _ _ _ | .drainPop _ [] => true
  | .flushNowCheck _ | .takeDirty _ | .watermark _ _ _ | .checkpoint _ _ _ => true
  | .top | .decide _ | .finalRing _ _ | .finalDirty _ _ _ | .finalAfter _ _ _ | .exited => true
  | _ => false

theorem bare_entry (c : Call) : isBare c.entry.1 = true := by cases c <;> rfl

theorem bare_flushEnd (k : FlushFor) : isBare (flushEnd k).1 = true := by cases k <;> rfl

theorem bare_batchOk (n : ℕ) (k : FlushFor) : isBare (batchOk n k) = true := by cases k <;> rfl

theorem bare_batchFailed (k : FlushFor) : isBare (batchFailed k).1 = true := by cases k <;> rfl

theorem bare_checkpointFailed (n : ℕ) (k : FlushFor) : isBare (checkpointFailed n k).1 = true := by
  cases k <;> rfl

theorem bare_drainDone (cfg : ValidConfig) (moved : ℕ) (k : DrainFor) :
    isBare (drainDone cfg moved k) = true := by
  cases k with
  | steady | final => rfl
  | flushNow total inLoop =>
    simp only [drainDone]
    split_ifs <;> rfl

theorem hold_of_bare {pc : Pc} (hb : isBare pc = true) : hold pc = ⟨[], []⟩ := by
  cases pc with
  | drainPop k got =>
    cases got with
    | nil => rfl
    | cons => cases hb
  | submitEnqueue | durableNote | durableAppend | durableClear | durableEnqueue | drainNote | drainApply
    | allocBlock | appendBatch | persistBatch | requeue => cases hb
  | _ => rfl

@[simp] theorem hold_drainNext (cfg : ValidConfig) (k : DrainFor) (moved : ℕ)
    (l : List WriteRequest) :
    hold (drainNext cfg k moved l) = { buf := l.map reqKey, batch := [] } := by
  cases l with
  | cons => rfl
  | nil => exact hold_of_bare (bare_drainDone cfg moved k)

@[simp] theorem hold_flushEnd (k : FlushFor) : hold (flushEnd k).1 = ⟨[], []⟩ :=
  hold_of_bare (bare_flushEnd k)

@[simp] theorem hold_batchOk (n : ℕ) (k : FlushFor) : hold (batchOk n k) = ⟨[], []⟩ :=
  hold_of_bare (bare_batchOk n k)

@[simp] theorem hold_batchFailed (k : FlushFor) : hold (batchFailed k).1 = ⟨[], []⟩ :=
  hold_of_bare (bare_batchFailed k)

@[simp] theorem hold_checkpointFailed (n : ℕ) (k : FlushFor) :
    hold (checkpointFailed n k).1 = ⟨[], []⟩ :=
  hold_of_bare (bare_checkpointFailed n k)

/-- The records of a batch carry the writes of its states. -/
theorem recKey_stamp : ∀ (states : List PlayerState) (first : Lsn),
    (stamp first states).map recKey = states.map stateKey
  | [], _ => rfl
  | _ :: states, first => by
    simp only [stamp, List.map_cons, recKey_stamp states (first + 1)]
    rfl

@[simp] theorem acceptedBy_nil : acceptedBy [] = ∅ := by simp [acceptedBy]

@[simp] theorem acceptedBy_flushEnd (k : FlushFor) : acceptedBy (flushEnd k).2 = ∅ := by
  cases k <;> simp [acceptedBy, flushEnd]

@[simp] theorem acceptedBy_batchFailed (k : FlushFor) : acceptedBy (batchFailed k).2 = ∅ := by
  cases k <;> simp [acceptedBy, batchFailed]

@[simp] theorem acceptedBy_checkpointFailed (n : ℕ) (k : FlushFor) :
    acceptedBy (checkpointFailed n k).2 = ∅ := by
  cases k <;> simp [acceptedBy, checkpointFailed]

/-! ### The calls on the abstract state -/

theorem core_requeueOne (acc : Set Write) (sh : Shared) (st : PlayerState)
    {c : WriteBehindCache} (hc : c.inner = sh.cache.inner.requeueOne st) :
    core acc { sh with cache := c } = (core acc sh).stage (stateKey st) := by
  unfold core Core.stage WriteBehindCache.versions stateKey
  simp only [Core.mk.injEq, true_and, and_true]
  rw [hc, Inner.versions_requeueOne]
  refine ⟨rfl, ?_⟩
  ext id
  exact Inner.mem_dirty_requeueOne _ st id

theorem core_apply (acc : Set Write) (sh : Shared) (req : WriteRequest) :
    core acc { sh with cache := sh.cache.apply req } = (core acc sh).stage (reqKey req) :=
  core_requeueOne acc sh req.toState (Inner.apply_eq_requeueOne _ _)

theorem core_requeueDirty (acc : Set Write) (sh : Shared) (states : List PlayerState) :
    core acc { sh with cache := sh.cache.requeueDirty states } =
      (states.map stateKey).foldl Core.stage (core acc sh) := by
  induction states generalizing sh with
  | nil => rfl
  | cons st states ih =>
    have hone := core_requeueOne acc sh st (c := sh.cache.requeueDirty [st]) rfl
    rw [List.map_cons, List.foldl_cons, ← hone]
    exact ih { sh with cache := sh.cache.requeueDirty [st] }

theorem core_takeDirty (acc : Set Write) (sh : Shared) {order : List PlayerId}
    (ho : Inner.Enumerates order sh.cache.inner.dirty) (max : ℕ) :
    core acc { sh with cache := sh.cache.takeDirty order max } =
      { core acc sh with
        dirty := {k | k ∈ (core acc sh).dirty ∧
          ∀ w ∈ (sh.cache.taken order max).map stateKey, w.1 ≠ k} } := by
  have hinner : (sh.cache.takeDirty order max).inner = sh.cache.inner.clean (order.take max) := by
    simp only [WriteBehindCache.takeDirty, Inner.takeDirty_eq ho]
  unfold core WriteBehindCache.versions
  simp only [Core.mk.injEq, true_and, and_true]
  rw [hinner, Inner.versions_clean]
  refine ⟨rfl, ?_⟩
  ext id
  simp only [Set.mem_ofPred_eq, Inner.mem_dirty_clean]
  refine and_congr_right fun hid => ?_
  constructor
  · rintro hno w hw rfl
    obtain ⟨st, hst, rfl⟩ := List.mem_map.mp hw
    exact hno ((WriteBehindCache.mem_taken ho).mp hst).1
  · intro hno hmem
    obtain ⟨st, hst, rfl⟩ := WriteBehindCache.exists_of_dirty hid
    exact hno _ (List.mem_map_of_mem ((WriteBehindCache.mem_taken ho).mpr ⟨hmem, hst⟩)) rfl

/-- A state taken carries the cached version of its player. -/
theorem cached_of_mem_taken {c : WriteBehindCache} {order : List PlayerId}
    (ho : Inner.Enumerates order c.inner.dirty) {max : ℕ} {w : Write}
    (hw : w ∈ (c.taken order max).map stateKey) : c.versions w.1 = some w.2 := by
  obtain ⟨st, hst, rfl⟩ := List.mem_map.mp hw
  have hget := ((WriteBehindCache.mem_taken ho).mp hst).2
  have h := congrArg (Option.map PlayerState.version) hget
  rw [WriteBehindCache.get, Option.map_map] at h
  exact h

theorem core_upsert (acc : Set Write) (sh : Shared) (states : List PlayerState) :
    core acc { sh with table := upsert sh.table states } =
      { core acc sh with store := (states.map stateKey).foldl raise (core acc sh).store } := by
  simp only [core, versions_upsert]
  rfl

theorem core_append (acc : Set Write) (sh : Shared) {wal : Log} {landed : List WalRecord}
    (hw : wal.records = sh.wal.records ++ landed) :
    core acc { sh with wal := wal } =
      { core acc sh with log := (core acc sh).log ∪ {w | ∃ rec ∈ landed, w = recKey rec} } := by
  unfold core
  simp only [Core.mk.injEq, true_and]
  ext w
  simp only [hw, List.mem_append, Set.mem_ofPred_eq, Set.mem_union, or_and_right, exists_or]

theorem core_tryEnqueue {cfg : ValidConfig} {sh sh' : Shared} {req : WriteRequest}
    (h : sh.tryEnqueue cfg req = some sh') (acc : Set Write) :
    core (acc ∪ {reqKey req}) sh' =
      { core acc sh with
        accepted := insert (reqKey req) (core acc sh).accepted
        queue := (core acc sh).queue ++ [reqKey req] } := by
  unfold Shared.tryEnqueue at h
  split_ifs at h
  obtain rfl := Option.some.inj h
  simp [core]

/-! ### Every step is a move -/

/-- The call is the checkpoint itself. -/
def isCheckpoint : Pc → Prop
  | .checkpoint _ _ _ => True
  | _ => False

theorem exists_of_isCheckpoint {pc : Pc} (hck : isCheckpoint pc) :
    ∃ k count safe, pc = .checkpoint k count safe := by
  cases pc with
  | checkpoint k count safe => exact ⟨k, count, safe, rfl⟩
  | _ => exact hck.elim

/-- A step that changes nothing the pipeline knows of. -/
theorem act_stay {acc acc' : Set Write} {sh sh' : Shared} {pc pc' : Pc}
    (hc : core acc' sh' = core acc sh) (hh : hold pc' = hold pc) :
    Act (core acc sh) (hold pc) (core acc' sh') (hold pc') := by
  rw [hc, hh]
  exact Act.stay _ _

/-- A request accepted by the ring. -/
theorem act_enqueue {cfg : ValidConfig} {sh sh' : Shared} {pc pc' : Pc} {req : WriteRequest}
    {acc acc' : Set Write} (h : sh.tryEnqueue cfg req = some sh') (ha : acc' = acc ∪ {reqKey req})
    (hh : hold pc' = hold pc) : Act (core acc sh) (hold pc) (core acc' sh') (hold pc') := by
  rw [ha, core_tryEnqueue h, hh]
  exact Act.accept _ _ _

/-- Records landing in the log. -/
theorem act_append {acc acc' : Set Write} {sh : Shared} {pc pc' : Pc} {wal : Log}
    {landed : List WalRecord} (hw : wal.records = sh.wal.records ++ landed) (ha : acc' = acc)
    (hh : hold pc' = hold pc) :
    Act (core acc sh) (hold pc) (core acc' { sh with wal := wal }) (hold pc') := by
  rw [ha, core_append acc sh hw, hh]
  exact Act.append _ _ _

/-- **Each step of a thread, the checkpoint apart, is an act of the pipeline.** -/
theorem step_act {cfg : ValidConfig} {env : Env} {sh sh' : Shared} {pc pc' : Pc}
    {es : List Event} (hck : ¬ isCheckpoint pc) (hs : pc.step cfg env sh = some (sh', pc', es))
    (acc : Set Write) :
    Act (core acc sh) (hold pc) (core (acc ∪ acceptedBy es) sh') (hold pc') := by
  cases pc with
  | idle | exited => cases hs
  | checkpoint => exact absurd trivial hck
  | submitAlloc | durableAlloc | durableNote | durableClear | drainNote | allocBlock | finalRing =>
    simp only [Pc.step, Option.some.injEq, Prod.mk.injEq] at hs
    obtain ⟨rfl, rfl, rfl⟩ := hs
    exact act_stay (by simp [core, acceptedBy]) rfl
  | submitEnqueue req =>
    simp only [Pc.step] at hs
    rcases hq : sh.tryEnqueue cfg req with _ | sh1 <;>
      simp only [hq, Option.some.injEq, Prod.mk.injEq] at hs <;> obtain ⟨rfl, rfl, rfl⟩ := hs
    · exact act_stay (by simp [acceptedBy]) rfl
    · exact act_enqueue hq (by simp [acceptedBy]) rfl
  | durableEnqueue rec =>
    simp only [Pc.step] at hs
    rcases hq : sh.tryEnqueue cfg (toRequest rec) with _ | sh1 <;>
      simp only [hq, Option.some.injEq, Prod.mk.injEq] at hs <;> obtain ⟨rfl, rfl, rfl⟩ := hs
    · exact act_stay (by simp [acceptedBy]) rfl
    · exact act_enqueue hq (by simp [acceptedBy]) rfl
  | durableAppend rec =>
    simp only [Pc.step] at hs
    rcases hx : env.append with _ | ⟨landed, torn⟩ <;>
      simp only [hx, Option.some.injEq, Prod.mk.injEq] at hs <;> obtain ⟨rfl, rfl, rfl⟩ := hs
    · exact act_append (Log.records_appendBatch _ _) (by simp [acceptedBy]) rfl
    · exact act_append rfl (by simp) rfl
  | appendBatch k states records =>
    simp only [Pc.step] at hs
    rcases hx : env.append with _ | ⟨landed, torn⟩ <;>
      simp only [hx, Option.some.injEq, Prod.mk.injEq] at hs <;> obtain ⟨rfl, rfl, rfl⟩ := hs
    · exact act_append (Log.records_appendBatch _ _) (by simp [acceptedBy]) rfl
    · exact act_append rfl (by simp) rfl
  | drainPop k got =>
    simp only [Pc.step] at hs
    split at hs
    · rcases hr : sh.ring with _ | ⟨req, ring⟩ <;>
        simp only [hr, Option.some.injEq, Prod.mk.injEq] at hs <;> obtain ⟨rfl, rfl, rfl⟩ := hs
      · exact act_stay (by simp) (hold_drainNext _ _ _ _)
      · have hc : core (acc ∪ acceptedBy []) { sh with ring := ring } =
            { core acc sh with queue := ring.map reqKey } := by simp [core]
        have hh : hold (.drainPop k (got ++ [req])) =
            { hold (.drainPop k got) with buf := (hold (.drainPop k got)).buf ++ [reqKey req] } := by
          simp [hold, buffer, batch]
        rw [hc, hh]
        exact Act.pop _ _ _ _ (by simp [core, hr])
    · simp only [Option.some.injEq, Prod.mk.injEq] at hs
      obtain ⟨rfl, rfl, rfl⟩ := hs
      exact act_stay (by simp) (hold_drainNext _ _ _ _)
  | drainApply k moved req rest =>
    simp only [Pc.step, Option.some.injEq, Prod.mk.injEq] at hs
    obtain ⟨rfl, rfl, rfl⟩ := hs
    rw [acceptedBy_nil, Set.union_empty, core_apply, hold_drainNext]
    exact Act.apply _ _ _ _ rfl
  | flushNowCheck total =>
    simp only [Pc.step] at hs
    split at hs <;> simp only [Option.some.injEq, Prod.mk.injEq] at hs <;>
      obtain ⟨rfl, rfl, rfl⟩ := hs <;> exact act_stay (by simp [acceptedBy]) rfl
  | takeDirty k =>
    simp only [Pc.step] at hs
    split at hs
    · rename_i ho
      have hc := core_takeDirty acc sh ho cfg.flushMaxBatch
      have hb : ∀ w ∈ (sh.cache.taken env.order cfg.flushMaxBatch).map stateKey,
          (core acc sh).cached w.1 = some w.2 := fun w hw => cached_of_mem_taken ho hw
      split at hs <;> simp only [Option.some.injEq, Prod.mk.injEq] at hs <;>
        obtain ⟨rfl, rfl, rfl⟩ := hs
      · rename_i hnil
        rw [acceptedBy_flushEnd, Set.union_empty, hc, hold_flushEnd]
        rw [hnil] at hb ⊢
        exact Act.take _ (hold (.takeDirty k)) _ rfl hb
      · rw [acceptedBy_nil, Set.union_empty, hc]
        exact Act.take _ (hold (.takeDirty k)) _ rfl hb
    · cases hs
  | persistBatch k states last attempt =>
    simp only [Pc.step] at hs
    rcases hx : env.persist with _ | e
    · simp only [hx, Option.some.injEq, Prod.mk.injEq] at hs
      obtain ⟨rfl, rfl, rfl⟩ := hs
      have hacc : acceptedBy [.persisted states] = ∅ := by simp [acceptedBy]
      rw [hacc, Set.union_empty, core_upsert]
      exact Act.persist _ (hold (.persistBatch k states last attempt))
    · simp only [hx] at hs
      split at hs <;> simp only [Option.some.injEq, Prod.mk.injEq] at hs <;>
        obtain ⟨rfl, rfl, rfl⟩ := hs <;> exact act_stay (by simp) rfl
  | watermark k count last =>
    simp only [Pc.step] at hs
    split at hs <;> simp only [Option.some.injEq, Prod.mk.injEq] at hs <;>
      obtain ⟨rfl, rfl, rfl⟩ := hs
    · exact act_stay (by simp) rfl
    · exact act_stay (by simp) (hold_batchOk _ _)
  | requeue k states =>
    simp only [Pc.step, Option.some.injEq, Prod.mk.injEq] at hs
    obtain ⟨rfl, rfl, rfl⟩ := hs
    rw [acceptedBy_batchFailed, Set.union_empty, core_requeueDirty, hold_batchFailed]
    exact Act.requeue _ (hold (.requeue k states))
  | top | decide | finalAfter =>
    simp only [Pc.step] at hs
    repeat' split at hs
    all_goals
      simp only [Option.some.injEq, Prod.mk.injEq] at hs
      obtain ⟨rfl, rfl, rfl⟩ := hs
      exact act_stay (by simp) rfl
  | finalDirty stalled drained ringEmpty =>
    simp only [Pc.step] at hs
    repeat' split at hs
    all_goals
      simp only [Option.some.injEq, Prod.mk.injEq] at hs
      obtain ⟨rfl, rfl, rfl⟩ := hs
      exact act_stay (by simp) rfl

/-- **A checkpoint only takes records out of the log**, whatever its outcome. -/
theorem step_checkpoint {cfg : ValidConfig} {env : Env} {sh sh' : Shared} {pc' : Pc}
    {k : FlushFor} {count : ℕ} {safe : Lsn} {es : List Event}
    (hs : (Pc.checkpoint k count safe).step cfg env sh = some (sh', pc', es)) :
    ∃ wal : Log, sh' = { sh with wal := wal } ∧ hold pc' = ⟨[], []⟩ ∧ acceptedBy es = ∅ ∧
      (wal.records = Log.survivors safe sh.wal.records ∨ wal.records = sh.wal.records) := by
  simp only [Pc.step] at hs
  rcases hx : env.checkpoint <;> simp only [hx, Option.some.injEq, Prod.mk.injEq] at hs <;>
    obtain ⟨rfl, rfl, rfl⟩ := hs
  · exact ⟨_, rfl, by simp, by simp, Or.inl rfl⟩
  · exact ⟨sh.wal, rfl, by simp, by simp, Or.inr rfl⟩
  · exact ⟨_, rfl, by simp, by simp, Or.inl rfl⟩

end FluxThroughput.Engine.Refine
