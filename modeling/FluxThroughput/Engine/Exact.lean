import FluxThroughput.Store.Converge
import FluxThroughput.Worker.Shutdown

/-! # What the store holds in the end

The pipeline of `NoLoss` knows players and versions. Here the states themselves are followed, payloads
included: whatever the ring, the cache, the store or a thread holds was accepted by the ring, recovered from
the log, or stored before the start (`held_step`). Together with the pipeline's invariant this says what the
store is at rest: a newest one, for every player, of exactly these states (`store_exact`). -/

namespace FluxThroughput.Engine.Exact

open FluxThroughput.Domain.Types FluxThroughput.Cache.WriteBehind FluxThroughput.Store.Mock
open FluxThroughput.Wal.Atomic FluxThroughput.Engine.Config FluxThroughput.Engine.Machine
open FluxThroughput.Engine.Refine FluxThroughput.Engine.NoLoss FluxThroughput.Engine.Events
open FluxThroughput.Lib.Transition FluxThroughput.Lib.WriteBehind FluxThroughput.Lib.LastWriteWins

/-! ### The states held -/

/-- The states in the ring, in the cache and in the store. -/
def sharedHeld (sh : Shared) : Set PlayerState :=
  {st | (∃ req ∈ sh.ring, req.toState = st) ∨ (∃ id, sh.cache.get id = some st) ∨
    ∃ id, sh.table id = some st}

/-- The states in a thread's drain buffer and in its batch. -/
def threadHeld (pc : Pc) : Set PlayerState :=
  {st | (∃ req ∈ buffer pc, req.toState = st) ∨ st ∈ batch pc}

/-- The states that the ring accepts in a step. -/
def entered (es : List Event) : Set PlayerState := {st | ∃ req, .enqueued req ∈ es ∧ req.toState = st}

section Cache
variable {c : WriteBehindCache} {id : PlayerId} {st : PlayerState}

theorem get_requeueOne {c' : WriteBehindCache} {st' : PlayerState}
    (hc : c'.inner = c.inner.requeueOne st') (h : c'.get id = some st) :
    c.get id = some st ∨ st = st' := by
  unfold WriteBehindCache.get at h ⊢
  rw [hc] at h
  by_cases hs : Stale c.inner.versions (st'.playerId, st'.version)
  · rw [Inner.requeueOne_of_stale hs] at h
    exact Or.inl h
  · rw [Inner.requeueOne_of_not_stale hs, Inner.map_insertDirty] at h
    by_cases hid : id = st'.playerId
    · subst hid
      rw [Function.update_self] at h
      exact Or.inr (Option.some.inj h).symm
    · rw [Function.update_of_ne hid] at h
      exact Or.inl h

theorem get_apply {req : WriteRequest} (h : (c.apply req).get id = some st) :
    c.get id = some st ∨ st = req.toState :=
  get_requeueOne (Inner.apply_eq_requeueOne _ _) h

theorem get_requeueDirty : ∀ {states : List PlayerState} {c : WriteBehindCache},
    (c.requeueDirty states).get id = some st → c.get id = some st ∨ st ∈ states
  | [], _, h => Or.inl h
  | st' :: states, c, h => by
    have hrest : ((c.requeueDirty [st']).requeueDirty states).get id = some st := h
    rcases get_requeueDirty hrest with hfirst | hmem
    · rcases get_requeueOne (c := c) rfl hfirst with hold | rfl
      · exact Or.inl hold
      · exact Or.inr List.mem_cons_self
    · exact Or.inr (List.mem_cons_of_mem _ hmem)

theorem get_takeDirty {order : List PlayerId} (ho : Inner.Enumerates order c.inner.dirty) (max : ℕ)
    (id : PlayerId) : (c.takeDirty order max).get id = c.get id := by
  unfold WriteBehindCache.get WriteBehindCache.takeDirty
  simp only [Inner.takeDirty_eq ho]
  exact Inner.state_clean _ _ _

end Cache

/-- What a batch leaves in the table was there, or is in the batch. -/
theorem mem_upsert {id : PlayerId} {st : PlayerState} : ∀ {states : List PlayerState} {table : Table},
    upsert table states id = some st → table id = some st ∨ (st ∈ states ∧ st.playerId = id)
  | [], _, h => Or.inl h
  | st' :: states, table, h => by
    have hrest : upsert (upsertOne table st') states id = some st := h
    rcases mem_upsert hrest with hfirst | ⟨hmem, hid⟩
    · rw [Store.Converge.upsertOne_eq] at hfirst
      rcases put_cases stateVersioned table st' with ⟨cur, -, -, heq⟩ | ⟨-, heq⟩
      · rw [heq] at hfirst
        exact Or.inl hfirst
      · have hkey : stateVersioned.key st' = st'.playerId := rfl
        rw [heq, hkey] at hfirst
        by_cases hid : id = st'.playerId
        · subst hid
          rw [Function.update_self] at hfirst
          obtain rfl := Option.some.inj hfirst
          exact Or.inr ⟨List.mem_cons_self, rfl⟩
        · rw [Function.update_of_ne hid] at hfirst
          exact Or.inl hfirst
    · exact Or.inr ⟨List.mem_cons_of_mem _ hmem, hid⟩

/-! ### Where control goes holds nothing new -/

theorem threadHeld_of_bare {pc : Pc} (hb : isBare pc = true) : threadHeld pc = ∅ := by
  have hhold := hold_of_bare hb
  have hbuffer : buffer pc = [] := List.map_eq_nil_iff.mp (congrArg Hold.buf hhold)
  have hbatch : batch pc = [] := List.map_eq_nil_iff.mp (congrArg Hold.batch hhold)
  ext st
  simp [threadHeld, hbuffer, hbatch]

theorem threadHeld_drainNext (cfg : ValidConfig) (k : DrainFor) (moved : ℕ) (l : List WriteRequest) :
    threadHeld (drainNext cfg k moved l) = {st | ∃ req ∈ l, req.toState = st} := by
  cases l with
  | cons req rest =>
    ext st
    simp [threadHeld, drainNext, buffer, batch]
  | nil =>
    have hnone : threadHeld (drainNext cfg k moved []) = ∅ := threadHeld_of_bare (bare_drainDone cfg moved k)
    rw [hnone]
    simp

/-! ### Steps -/

section Step
variable {cfg : ValidConfig} {env : Env} {sh sh' : Shared} {pc pc' : Pc} {es : List Event} {st : PlayerState}

/-- A step that moves nothing in and keeps the ring, the cache and the store. -/
theorem held_of_frame (hring : sh'.ring = sh.ring) (hcache : sh'.cache = sh.cache)
    (htable : sh'.table = sh.table) (hthread : threadHeld pc' ⊆ threadHeld pc)
    (h : st ∈ sharedHeld sh' ∪ threadHeld pc') :
    st ∈ sharedHeld sh ∪ threadHeld pc ∪ entered es := by
  have hshared : sharedHeld sh' = sharedHeld sh := by
    unfold sharedHeld
    rw [hring, hcache, htable]
  rw [hshared] at h
  exact Or.inl (h.imp_right fun hmem => hthread hmem)

/-- A step into a place that holds nothing. -/
theorem held_of_bare (hring : sh'.ring = sh.ring) (hcache : sh'.cache = sh.cache)
    (htable : sh'.table = sh.table) (hb : isBare pc' = true)
    (h : st ∈ sharedHeld sh' ∪ threadHeld pc') :
    st ∈ sharedHeld sh ∪ threadHeld pc ∪ entered es := by
  refine held_of_frame hring hcache htable ?_ h
  rw [threadHeld_of_bare hb]
  exact Set.empty_subset _

/-- The enqueue at the end of `submit` and of `submit_durable`. -/
theorem held_tryEnqueue {req : WriteRequest} (hq : sh.tryEnqueue cfg req = some sh')
    (hev : .enqueued req ∈ es) (hb : isBare pc' = true)
    (h : st ∈ sharedHeld sh' ∪ threadHeld pc') :
    st ∈ sharedHeld sh ∪ threadHeld pc ∪ entered es := by
  rw [threadHeld_of_bare hb, Set.union_empty] at h
  unfold Shared.tryEnqueue at hq
  split_ifs at hq
  obtain rfl := Option.some.inj hq
  rcases h with ⟨req', hmem, rfl⟩ | hrest
  · rcases List.mem_append.mp hmem with hold | hnew
    · exact Or.inl (Or.inl (Or.inl ⟨req', hold, rfl⟩))
    · exact Or.inr ⟨req, hev, by rw [List.mem_singleton.mp hnew]⟩
  · exact Or.inl (Or.inl (Or.inr hrest))

/-- **A step holds what was held, or what the ring accepts in it.** -/
theorem held_step (hs : pc.step cfg env sh = some (sh', pc', es))
    (h : st ∈ sharedHeld sh' ∪ threadHeld pc') :
    st ∈ sharedHeld sh ∪ threadHeld pc ∪ entered es := by
  cases pc with
  | idle | exited => cases hs
  | submitAlloc | durableAlloc | durableNote | durableClear | finalRing | allocBlock | drainNote =>
    simp only [Pc.step, Option.some.injEq, Prod.mk.injEq] at hs
    obtain ⟨rfl, rfl, -⟩ := hs
    exact held_of_frame rfl rfl rfl (fun _ => id) h
  | submitEnqueue req =>
    simp only [Pc.step] at hs
    rcases hq : sh.tryEnqueue cfg req with _ | sh1 <;>
      simp only [hq, Option.some.injEq, Prod.mk.injEq] at hs <;> obtain ⟨rfl, rfl, rfl⟩ := hs
    · exact held_of_bare rfl rfl rfl rfl h
    · exact held_tryEnqueue hq List.mem_cons_self rfl h
  | durableEnqueue rec =>
    simp only [Pc.step] at hs
    rcases hq : sh.tryEnqueue cfg (toRequest rec) with _ | sh1 <;>
      simp only [hq, Option.some.injEq, Prod.mk.injEq] at hs <;> obtain ⟨rfl, rfl, rfl⟩ := hs
    · exact held_of_bare rfl rfl rfl rfl h
    · exact held_tryEnqueue hq List.mem_cons_self rfl h
  | durableAppend | appendBatch =>
    simp only [Pc.step] at hs
    rcases hx : env.append with _ | ⟨landed, torn⟩ <;>
      simp only [hx, Option.some.injEq, Prod.mk.injEq] at hs <;> obtain ⟨rfl, rfl, -⟩ := hs <;>
      exact held_of_frame rfl rfl rfl (fun _ => id) h
  | drainPop k got =>
    simp only [Pc.step] at hs
    split at hs
    · rcases hr : sh.ring with _ | ⟨req, ring⟩ <;>
        simp only [hr, Option.some.injEq, Prod.mk.injEq] at hs <;> obtain ⟨rfl, rfl, -⟩ := hs
      · refine held_of_frame rfl rfl rfl ?_ h
        rw [threadHeld_drainNext]
        exact fun st hst => Or.inl hst
      · -- the request moves from the ring to the buffer
        have hpop : ∀ req', req' ∈ got ++ [req] → req' ∈ got ∨ req' ∈ sh.ring := by
          intro req' hreq
          rw [hr]
          rcases List.mem_append.mp hreq with hreq | hreq
          · exact Or.inl hreq
          · exact Or.inr (List.mem_singleton.mp hreq ▸ List.mem_cons_self)
        rcases h with (⟨req', hreq, rfl⟩ | hrest) | ⟨req', hreq, rfl⟩ | hbatch
        · exact Or.inl (Or.inl (Or.inl ⟨req', by rw [hr]; exact List.mem_cons_of_mem _ hreq, rfl⟩))
        · exact Or.inl (Or.inl (Or.inr hrest))
        · rcases hpop req' hreq with hgot | hring
          · exact Or.inl (Or.inr (Or.inl ⟨req', hgot, rfl⟩))
          · exact Or.inl (Or.inl (Or.inl ⟨req', hring, rfl⟩))
        · cases hbatch
    · simp only [Option.some.injEq, Prod.mk.injEq] at hs
      obtain ⟨rfl, rfl, -⟩ := hs
      refine held_of_frame rfl rfl rfl ?_ h
      rw [threadHeld_drainNext]
      exact fun st hst => Or.inl hst
  | drainApply k moved req rest =>
    simp only [Pc.step, Option.some.injEq, Prod.mk.injEq] at hs
    obtain ⟨rfl, rfl, -⟩ := hs
    rw [threadHeld_drainNext] at h
    rcases h with (hring | ⟨id, hget⟩ | htable) | ⟨req', hreq, rfl⟩
    · exact Or.inl (Or.inl (Or.inl hring))
    · rcases get_apply hget with hold | rfl
      · exact Or.inl (Or.inl (Or.inr (Or.inl ⟨id, hold⟩)))
      · exact Or.inl (Or.inr (Or.inl ⟨req, List.mem_cons_self, rfl⟩))
    · exact Or.inl (Or.inl (Or.inr (Or.inr htable)))
    · exact Or.inl (Or.inr (Or.inl ⟨req', List.mem_cons_of_mem _ hreq, rfl⟩))
  | takeDirty k =>
    simp only [Pc.step] at hs
    split at hs
    · rename_i ho
      have hshared : ∀ st,
          st ∈ sharedHeld { sh with cache := sh.cache.takeDirty env.order cfg.flushMaxBatch } →
          st ∈ sharedHeld sh := by
        rintro st (hring | ⟨id, hget⟩ | htable)
        · exact Or.inl hring
        · rw [get_takeDirty ho] at hget
          exact Or.inr (Or.inl ⟨id, hget⟩)
        · exact Or.inr (Or.inr htable)
      split at hs <;> simp only [Option.some.injEq, Prod.mk.injEq] at hs <;> obtain ⟨rfl, rfl, -⟩ := hs
      · rw [threadHeld_of_bare (bare_flushEnd k), Set.union_empty] at h
        exact Or.inl (Or.inl (hshared st h))
      · rcases h with hmem | ⟨req, hreq, -⟩ | hbatch
        · exact Or.inl (Or.inl (hshared st hmem))
        · cases hreq
        · exact Or.inl (Or.inl (Or.inr (Or.inl ⟨_, ((WriteBehindCache.mem_taken ho).mp hbatch).2⟩)))
    · cases hs
  | persistBatch k states last attempt =>
    simp only [Pc.step] at hs
    rcases hx : env.persist with _ | e
    · simp only [hx, Option.some.injEq, Prod.mk.injEq] at hs
      obtain ⟨rfl, rfl, -⟩ := hs
      rcases h with (hring | hcache | ⟨id, htable⟩) | ⟨req, hreq, -⟩ | hbatch
      · exact Or.inl (Or.inl (Or.inl hring))
      · exact Or.inl (Or.inl (Or.inr (Or.inl hcache)))
      · rcases mem_upsert htable with hold | ⟨hmem, -⟩
        · exact Or.inl (Or.inl (Or.inr (Or.inr ⟨id, hold⟩)))
        · exact Or.inl (Or.inr (Or.inr hmem))
      · cases hreq
      · cases hbatch
    · simp only [hx] at hs
      split at hs <;> simp only [Option.some.injEq, Prod.mk.injEq] at hs <;> obtain ⟨rfl, rfl, -⟩ := hs <;>
        exact held_of_frame rfl rfl rfl (fun _ => id) h
  | watermark k count last =>
    simp only [Pc.step] at hs
    split at hs <;> simp only [Option.some.injEq, Prod.mk.injEq] at hs <;> obtain ⟨rfl, rfl, -⟩ := hs
    · exact held_of_bare rfl rfl rfl rfl h
    · exact held_of_bare rfl rfl rfl (bare_batchOk _ _) h
  | checkpoint k count safe =>
    simp only [Pc.step] at hs
    rcases hx : env.checkpoint <;> simp only [hx, Option.some.injEq, Prod.mk.injEq] at hs <;>
      obtain ⟨rfl, rfl, -⟩ := hs
    · exact held_of_bare rfl rfl rfl (bare_batchOk _ _) h
    · exact held_of_bare rfl rfl rfl (bare_checkpointFailed _ _) h
    · exact held_of_bare rfl rfl rfl (bare_checkpointFailed _ _) h
  | requeue k states =>
    simp only [Pc.step, Option.some.injEq, Prod.mk.injEq] at hs
    obtain ⟨rfl, rfl, -⟩ := hs
    rw [threadHeld_of_bare (bare_batchFailed k), Set.union_empty] at h
    rcases h with hring | ⟨id, hget⟩ | htable
    · exact Or.inl (Or.inl (Or.inl hring))
    · rcases get_requeueDirty hget with hold | hmem
      · exact Or.inl (Or.inl (Or.inr (Or.inl ⟨id, hold⟩)))
      · exact Or.inl (Or.inr (Or.inr hmem))
    · exact Or.inl (Or.inl (Or.inr (Or.inr htable)))
  | flushNowCheck | top | decide | finalDirty | finalAfter =>
    simp only [Pc.step] at hs
    repeat' split at hs
    all_goals
      simp only [Option.some.injEq, Prod.mk.injEq] at hs
      obtain ⟨rfl, rfl, -⟩ := hs
      exact held_of_bare rfl rfl rfl rfl h

end Step

/-- A step keeps the table, or upserts a batch. -/
theorem table_step {cfg : ValidConfig} {env : Env} {sh sh' : Shared} {pc pc' : Pc} {es : List Event}
    (hs : pc.step cfg env sh = some (sh', pc', es)) :
    sh'.table = sh.table ∨ ∃ states, sh'.table = upsert sh.table states := by
  by_cases hl : isLoud pc = false
  · exact Or.inl (quiet_step hl hs).table
  cases pc <;> simp only [isLoud, not_true] at hl
  case durableEnqueue rec =>
    simp only [Pc.step] at hs
    rcases hq : sh.tryEnqueue cfg (toRequest rec) with _ | sh1 <;>
      simp only [hq, Option.some.injEq, Prod.mk.injEq] at hs <;> obtain ⟨rfl, -, -⟩ := hs
    · exact Or.inl rfl
    · exact Or.inl (tryEnqueue_frame hq).2.1
  case persistBatch k states last attempt =>
    simp only [Pc.step] at hs
    rcases hx : env.persist with _ | e
    · simp only [hx, Option.some.injEq, Prod.mk.injEq] at hs
      obtain ⟨rfl, -, -⟩ := hs
      exact Or.inr ⟨states, rfl⟩
    · simp only [hx] at hs
      split at hs <;> simp only [Option.some.injEq, Prod.mk.injEq] at hs <;> obtain ⟨rfl, -, -⟩ := hs <;>
        exact Or.inl rfl
  case checkpoint k count safe =>
    obtain ⟨wal, rfl, -⟩ := step_checkpoint hs
    exact Or.inl rfl
  case durableNote | durableAppend | appendBatch | watermark =>
    simp only [Pc.step] at hs
    repeat' split at hs
    all_goals
      simp only [Option.some.injEq, Prod.mk.injEq] at hs
      obtain ⟨rfl, -, -⟩ := hs
      exact Or.inl rfl

/-! ### Runs -/

/-- The state that a logged write stands for. -/
def recState (rec : WalRecord) : PlayerState := ⟨rec.playerId, rec.version, rec.blob⟩

/-- **The states a run is given**: those accepted by the ring, recovered from the log, and persisted before
the start. -/
def sources (wal : Log) (old : List PlayerState) (h : List (Tid × Event)) : Set PlayerState :=
  {st | (∃ t req, (t, .enqueued req) ∈ h ∧ req.toState = st) ∨ (∃ rec ∈ wal.records, recState rec = st) ∨
    st ∈ old}

/-- A table into which some states have been persisted. -/
def tableOf (old : List PlayerState) : Table := upsert (fun _ => none) old

/-- **What a run keeps**: nothing is held that it was not given, and what it began with is still answered
for. -/
structure Kept (wal : Log) (old : List PlayerState) (s : FluxEngine) (h : List (Tid × Event)) : Prop where
  shared : sharedHeld s.sh ⊆ sources wal old h
  threads : ∀ t, threadHeld (s.pc t) ⊆ sources wal old h
  keyed : ∀ id st, s.sh.table id = some st → st.playerId = id
  recovered : ∀ rec ∈ wal.records, CacheHolds s rec.playerId rec.version
  stored : ∀ st ∈ old, StoreHolds s st.playerId st.version

section Runs
variable {cfg : ValidConfig} {wal : Log} {old : List PlayerState} {s s' : FluxEngine}
  {h e : List (Tid × Event)} {a : Machine.Action}

theorem sources_mono (e : List (Tid × Event)) : sources wal old h ⊆ sources wal old (h ++ e) := by
  rintro st (⟨t, req, hmem, rfl⟩ | hrest)
  · exact Or.inl ⟨t, req, List.mem_append_left _ hmem, rfl⟩
  · exact Or.inr hrest

theorem entered_sources {t : Tid} {es : List Event} :
    entered es ⊆ sources wal old (h ++ tagged t es) := by
  rintro st ⟨req, hmem, rfl⟩
  exact Or.inl ⟨t, req, List.mem_append_right _ (List.mem_map_of_mem hmem), rfl⟩

/-- What is in the cache after the replay was logged. -/
theorem get_replay {id : PlayerId} {st : PlayerState} : ∀ (records : List WalRecord) (n : ℕ)
    (c : WriteBehindCache), ((records.zipIdx n).foldl (fun cache (rec, i) => cache.apply
      { playerId := rec.playerId, version := rec.version, blob := rec.blob,
        seq := UInt64.ofNat i }) c).get id = some st →
      c.get id = some st ∨ ∃ rec ∈ records, recState rec = st
  | [], _, _, h => Or.inl h
  | rec :: records, n, c, h => by
    rw [List.zipIdx_cons, List.foldl_cons] at h
    rcases get_replay records (n + 1) _ h with hfirst | ⟨rec', hmem, heq⟩
    · rcases get_apply hfirst with hold | rfl
      · exact Or.inl hold
      · exact Or.inr ⟨rec, List.mem_cons_self, rfl⟩
    · exact Or.inr ⟨rec', List.mem_cons_of_mem _ hmem, heq⟩

theorem kept_start (wal : Log) (old : List PlayerState) : Kept wal old (start wal (tableOf old)) [] := by
  have hbare : ∀ t, isBare ((start wal (tableOf old)).pc t) = true := by
    intro t
    cases t <;> rfl
  refine ⟨?_, fun t => ?_, fun id st hst => ?_, replay_holds wal _, fun st hst => ?_⟩
  · rintro st (⟨req, hreq, -⟩ | ⟨id, hget⟩ | ⟨id, htable⟩)
    · cases hreq
    · rcases get_replay wal.recover.1 0 _ hget with hnew | ⟨rec, hrec, heq⟩
      · cases hnew
      · exact Or.inr (Or.inl ⟨rec, hrec, heq⟩)
    · rcases mem_upsert htable with hnone | ⟨hmem, -⟩
      · cases hnone
      · exact Or.inr (Or.inr hmem)
  · rw [threadHeld_of_bare (hbare t)]
    exact Set.empty_subset _
  · rcases mem_upsert hst with hnone | ⟨-, hid⟩
    · cases hnone
    · exact hid
  · have hreach : Reaches (versions (tableOf old)) st.playerId st.version := by
      rw [tableOf, versions_upsert, reaches_foldl_raise]
      exact Or.inr ⟨_, List.mem_map_of_mem hst, rfl, le_rfl⟩
    exact (reaches_store (s := start wal (tableOf old)) (h := [])).mp hreach

/-- **Every step keeps what the run was given.** -/
theorem Kept.step (hk : Kept wal old s h) (hs : s.step cfg a = some (s', e)) : Kept wal old s' (h ++ e) := by
  have hrecovered : ∀ rec ∈ wal.records, CacheHolds s' rec.playerId rec.version := fun rec hrec =>
    cacheHolds_step hs (hk.recovered rec hrec)
  have hstored : ∀ st ∈ old, StoreHolds s' st.playerId st.version := fun st hst =>
    storeHolds_step hs (hk.stored st hst)
  have hmono : sources wal old h ⊆ sources wal old (h ++ e) := sources_mono e
  rcases step_cases hs with ⟨n, c, -, hidle, -, rfl⟩ | ⟨t, env, sh, pc, es, -, hstep, rfl, rfl⟩ |
    ⟨-, -, rfl⟩
  · refine ⟨hk.shared.trans hmono, fun u => ?_, hk.keyed, hrecovered, hstored⟩
    by_cases hu : u = .client n
    · subst hu
      simp only [Function.update_self]
      rw [threadHeld_of_bare (bare_entry c)]
      exact Set.empty_subset _
    · simp only [Function.update_of_ne hu]
      exact (hk.threads u).trans hmono
  · have hheld : sharedHeld sh ∪ threadHeld pc ⊆ sources wal old (h ++ tagged t es) := by
      intro st hst
      rcases held_step hstep hst with (hmem | hmem) | hmem
      · exact hmono (hk.shared hmem)
      · exact hmono (hk.threads t hmem)
      · exact entered_sources hmem
    refine ⟨Set.subset_union_left.trans hheld, fun u => ?_, fun id st hst => ?_, hrecovered, hstored⟩
    · by_cases hu : u = t
      · subst hu
        simp only [Function.update_self]
        exact Set.subset_union_right.trans hheld
      · simp only [Function.update_of_ne hu]
        exact (hk.threads u).trans hmono
    · rcases table_step hstep with hsame | ⟨states, hup⟩
      · exact hk.keyed id st (hsame ▸ hst)
      · have htable : upsert s.sh.table states id = some st := hup ▸ hst
        rcases mem_upsert htable with hold | ⟨-, hid⟩
        · exact hk.keyed id st hold
        · exact hid
  · exact ⟨hk.shared.trans hmono, fun u => (hk.threads u).trans hmono, hk.keyed, hrecovered, hstored⟩

theorem run_kept (hr : Run (systemFrom cfg wal (tableOf old)) anyStep s h) : Kept wal old s h := by
  refine hr.invariant (I := fun s h => Kept wal old s h) ?_ fun s h a s' e _ hk _ hs => hk.step hs
  rintro s rfl
  exact kept_start wal old

/-- At rest, what was recovered has reached the store. -/
theorem Kept.recovered_stored (hk : Kept wal old s h) (hi : Inv (pipe s h)) (hq : Quiescent s)
    {rec : WalRecord} (hrec : rec ∈ wal.records) : StoreHolds s rec.playerId rec.version := by
  have hsettled : Settled (pipe s h) (recKey rec) := by
    refine ⟨reaches_cached.mpr (hk.recovered rec hrec), ?_, fun t r hr => ?_⟩
    · simp [pipe, core, hq.dirty]
    · simp [pipe, hold, hq.threads t] at hr
  exact reaches_store.mp (hi.stored_of_settled hsettled)

end Runs

/-! ### The result -/

/-- **The store in the end.** In every run, whatever fails, the cache and the store hold only states that the
ring accepted, that were recovered, or that were stored before, blobs included; and whenever nothing is under
way, the store holds for every player a newest one of exactly these states. -/
theorem store_exact {cfg : ValidConfig} {wal : Log} {old : List PlayerState} {s : FluxEngine}
    {h : List (Tid × Event)} (hr : Run (systemFrom cfg wal (tableOf old)) anyStep s h) :
    (∀ id st, s.sh.cache.get id = some st → st ∈ sources wal old h) ∧
      (∀ id st, s.sh.table id = some st → st ∈ sources wal old h ∧ st.playerId = id) ∧
      (Quiescent s → Newest stateVersioned s.sh.table (sources wal old h)) := by
  have hk := run_kept hr
  have hi := run_inv (run_system hr)
  have hmem : ∀ id st, s.sh.table id = some st → st ∈ sources wal old h ∧ st.playerId = id :=
    fun id st hst => ⟨hk.shared (Or.inr (Or.inr ⟨id, hst⟩)), hk.keyed id st hst⟩
  refine ⟨fun id st hst => hk.shared (Or.inr (Or.inl ⟨id, hst⟩)), hmem, fun hq => ?_⟩
  have hreach : ∀ st ∈ sources wal old h, StoreHolds s st.playerId st.version := by
    rintro st (⟨t, req, hreq, rfl⟩ | ⟨rec, hrec, rfl⟩ | hold)
    · exact hq.stored hi hreq
    · exact hk.recovered_stored hi hq hrec
    · exact hk.stored st hold
  refine ⟨fun id => ⟨fun hnone st hst hid => ?_, fun hno => ?_⟩, hmem, fun id st hst st' hst' hid => ?_⟩
  · obtain ⟨st', hst', -⟩ := hreach st hst
    rw [show st.playerId = id from hid, hnone] at hst'
    cases hst'
  · rcases hx : s.sh.table id with _ | st
    · rfl
    · exact absurd (hmem id st hx).2 (hno st (hmem id st hx).1)
  · obtain ⟨st'', hst'', hle⟩ := hreach st' hst'
    rw [show st'.playerId = id from hid, hst] at hst''
    obtain rfl := Option.some.inj hst''
    exact hle

/-- One player was stored, one is recovered, one is submitted, and the worker flushes what is dirty. -/
theorem store_exact_three : ∃ s h, Quiescent s ∧
    Newest stateVersioned s.sh.table (sources ⟨[⟨1, 8, 1, [8]⟩], 1, true⟩ [⟨9, 5, [9]⟩] h) ∧
    [7, 8, 9].map s.sh.table = [some ⟨7, 1, [1]⟩, some ⟨8, 1, [8]⟩, some ⟨9, 5, [9]⟩] := by
  obtain ⟨s, h, hr, hj, hp⟩ := exists_run_of_exec_inv
    (systemFrom oneByOne ⟨[⟨1, 8, 1, [8]⟩], 1, true⟩ (tableOf [⟨9, 5, [9]⟩])) anyStep
    (OthersIdle [.worker, .client 0]) (fun _ _ => actsIn [.worker, .client 0])
    (fun _ _ _ _ _ => OthersIdle.step) (fun _ _ _ _ _ => trivial)
    (start ⟨[⟨1, 8, 1, [8]⟩], 1, true⟩ (tableOf [⟨9, 5, [9]⟩]))
    ([Machine.Action.call 0 (.submit 7 1 [1]), .run (.client 0) (.fine []), .run (.client 0) (.fine [])] ++
      List.replicate 6 (Machine.Action.run .worker (.fine [])) ++
      List.replicate 6 (Machine.Action.run .worker (.fine [7, 8])) ++
      List.replicate 6 (Machine.Action.run .worker (.fine [8])) ++
      [Machine.Action.run .worker (.fine [])])
    (fun x => decide (x.1.pc .worker = .top) && decide (x.1.pc (.client 0) = .idle) &&
      decide (x.1.sh.ring = []) && decide (x.1.sh.cache.inner.dirty = ∅) &&
      decide ([7, 8, 9].map x.1.sh.table = [some ⟨7, 1, [1]⟩, some ⟨8, 1, [8]⟩, some ⟨9, 5, [9]⟩]))
    rfl (othersIdle_start _ (by decide) _ _) (by decide +kernel)
  simp only [Bool.and_eq_true, decide_eq_true_eq] at hp
  obtain ⟨⟨⟨⟨hworker, hclient⟩, hring⟩, hdirty⟩, htable⟩ := hp
  have hq : Quiescent s := by
    refine ⟨hring, fun t => ?_, hdirty⟩
    cases t with
    | worker => rw [hworker]; exact ⟨rfl, rfl⟩
    | client n =>
      have hidle : s.pc (.client n) = .idle := by
        by_cases hn : n = 0
        · rw [hn]; exact hclient
        · exact hj _ (by simpa using hn)
      rw [hidle]
      exact ⟨rfl, rfl⟩
  exact ⟨s, h, hq, (store_exact hr).2.2 hq, htable⟩

end FluxThroughput.Engine.Exact
