import FluxThroughput.Cache.Portions
import FluxThroughput.Engine.Checkpoint

/-! # The worker's functions, run alone

After `shutdown` only the worker runs, and what it computes is a function of the state and of what the
environment answers: the order in which each `take_dirty` call iterates the dirty index, and the
outcome of each call of the log and of the store. Loops without a bound of their own take fuel.

A pass of `final_drain` that makes no progress takes one batch, logs it, fails to persist it and puts
it back: everything but the log is as before (`finalPass_stalled`). -/

namespace FluxThroughput.Worker.FinalDrain

open FluxThroughput.Domain.Types FluxThroughput.Cache.WriteBehind FluxThroughput.Store.Mock
open FluxThroughput.Lsn.Authority FluxThroughput.Wal.Atomic FluxThroughput.Engine.Config
open FluxThroughput.Engine.Machine FluxThroughput.Engine.Refine FluxThroughput.Engine.NoLoss
open FluxThroughput.Lib.WriteBehind FluxThroughput.Cache.Portions

/-- What the environment answers: the iteration order of the dirty index at each call of `take_dirty`,
the outcome of `append_batch` and of `checkpoint` for the batch of that call, and the outcome of each
call of `persist_batch`. -/
structure Oracle where
  order : ℕ → Finset PlayerId → List PlayerId
  enumerates : ∀ n dirty, Inner.Enumerates (order n dirty) dirty
  append : ℕ → AppendOutcome
  checkpoint : ℕ → CheckpointOutcome
  persist : ℕ → Option StoreError

/-- The log's calls succeed. -/
structure Oracle.Healthy (o : Oracle) : Prop where
  append : ∀ n, o.append n = .ok
  checkpoint : ∀ n, o.checkpoint n = .ok

/-- The shared state, and how many calls of `take_dirty` and `persist_batch` have been made. -/
structure World where
  sh : Shared
  takes : ℕ
  calls : ℕ

/-- The order in which the next `take_dirty` iterates. -/
def Oracle.next (o : Oracle) (w : World) : List PlayerId := o.order w.takes w.sh.cache.inner.dirty

/-! ### The functions -/

def drainOne (sh : Shared) (req : WriteRequest) : Shared :=
  { sh with lsn := sh.lsn.noteDrained req.seq, cache := sh.cache.apply req }

/-- `drain_ring_into_cache`: how many requests were moved, and the state after. -/
def drainRingIntoCache (cfg : ValidConfig) (sh : Shared) : ℕ × Shared :=
  let max := saturatingMul cfg.flushMaxBatch drainMultiple
  let scratch := sh.ring.take max
  (scratch.length, scratch.foldl drainOne { sh with ring := sh.ring.drop max })

/-- `persist_with_retry` with `budget` attempts left, from call `n` on: whether the store took the
batch, and how many calls have been made. -/
def persistWithRetry (persist : ℕ → Option StoreError) : ℕ → ℕ → Bool × ℕ
  | 0, n => (false, n)
  | budget + 1, n =>
    match persist n with
    | none => (true, n + 1)
    | some e =>
      if !e.isRetryable ∨ budget = 0 then (false, n + 1)
      else persistWithRetry persist budget (n + 1)

/-- The checkpoint after a persisted batch, if there is anything safe to discard. -/
def checkpointed (outcome : CheckpointOutcome) (sh : Shared) (proposed : Lsn) : Shared :=
  match sh.lsn.checkpointWatermark proposed with
  | some safe =>
    match outcome with
    | .ok => { sh with wal := sh.wal.checkpoint safe }
    | .failedBefore => sh
    | .failedAfter => { sh with wal := sh.wal.checkpointFailedAfter safe }
  | none => sh

/-- `flush_batch`: log the batch, then persist it and checkpoint, or put it back. -/
def flushBatch (cfg : ValidConfig) (o : Oracle) (w : World) (states : List PlayerState) :
    Bool × World :=
  let (first, lsn) := w.sh.lsn.allocBlock (UInt64.ofNat states.length)
  let records := stamp first states
  match o.append w.takes with
  | .failed landed torn =>
    (false, { w with
      sh := { w.sh with
        lsn := lsn
        wal := w.sh.wal.appendFailed records landed torn
        cache := w.sh.cache.requeueDirty states } })
  | .ok =>
    let (confirmed, wal) := w.sh.wal.appendBatch records
    let sh := { w.sh with lsn := lsn, wal := wal }
    match persistWithRetry o.persist cfg.storeRetryLimit w.calls with
    | (true, calls) =>
      let sh := { sh with table := upsert sh.table states }
      let proposed := proposal confirmed records .steady
      (true, { w with sh := checkpointed (o.checkpoint w.takes) sh proposed, calls := calls })
    | (false, calls) =>
      (false, { w with sh := { sh with cache := sh.cache.requeueDirty states }, calls := calls })

/-- The batch that `take_dirty` hands out next, and the state after. -/
def takeBatch (cfg : ValidConfig) (o : Oracle) (w : World) : List PlayerState × World :=
  (w.sh.cache.taken (o.next w) cfg.flushMaxBatch,
    { w with
      sh := { w.sh with cache := w.sh.cache.takeDirty (o.next w) cfg.flushMaxBatch }
      takes := w.takes + 1 })

/-- `flush`: batch after batch until none is left or one is put back. -/
def flush (cfg : ValidConfig) (o : Oracle) : ℕ → World → Option World
  | 0, _ => none
  | fuel + 1, w =>
    match takeBatch cfg o w with
    | ([], w) => some w
    | (st :: states, w) =>
      match flushBatch cfg o w (st :: states) with
      | (true, w) => flush cfg o fuel w
      | (false, w) => some w

/-- How one pass of `final_drain` ends. -/
inductive Pass
  | clean (w : World)
  | progress (w : World)
  | stalled (w : World)

/-- The state after the ring has been drained. -/
def drainedWorld (cfg : ValidConfig) (w : World) : World :=
  { w with sh := (drainRingIntoCache cfg w.sh).2 }

def flushIfDirty (cfg : ValidConfig) (o : Oracle) (fuel : ℕ) (w : World) : Option World :=
  if 0 < w.sh.cache.dirtyLen then flush cfg o fuel w else some w

/-- One pass of `final_drain`. -/
def finalPass (cfg : ValidConfig) (o : Oracle) (fuel : ℕ) (w : World) : Option Pass :=
  let drained := (drainRingIntoCache cfg w.sh).1
  let w := drainedWorld cfg w
  let dirtyBefore := w.sh.cache.dirtyLen
  if w.sh.ring.isEmpty ∧ dirtyBefore = 0 then some (.clean w)
  else
    match flushIfDirty cfg o fuel w with
    | none => none
    | some w =>
      if 0 < drained ∨ w.sh.cache.dirtyLen < dirtyBefore then some (.progress w)
      else some (.stalled w)

/-- How `final_drain` ends. One that gave up also tells in which state its last run of stalled passes
began. -/
inductive Ending
  | clean (w : World)
  | gaveUp (since w : World)

def Ending.world : Ending → World
  | .clean w => w
  | .gaveUp _ w => w

/-- `final_drain`, after `stalled` stalled passes since the state `since`. -/
def finalDrain (cfg : ValidConfig) (o : Oracle) : ℕ → ℕ → World → World → Option Ending
  | 0, _, _, _ => none
  | fuel + 1, stalled, since, w =>
    match finalPass cfg o fuel w with
    | none => none
    | some (.clean w) => some (.clean w)
    | some (.progress w) => finalDrain cfg o fuel 0 w w
    | some (.stalled w) =>
      if shutdownMaxStalledAttempts ≤ stalled + 1 then some (.gaveUp since w)
      else finalDrain cfg o fuel (stalled + 1) since w

/-! ### Taking a batch and putting it back -/

variable {cfg : ValidConfig} {o : Oracle} {w w' : World} {acc : Set Write} {fuel : ℕ}

/-- The players whose states the next `take_dirty` hands out. -/
def picks (cfg : ValidConfig) (o : Oracle) (w : World) : List PlayerId :=
  (o.next w).take cfg.flushMaxBatch

theorem enumerates_next (o : Oracle) (w : World) :
    Inner.Enumerates (o.next w) w.sh.cache.inner.dirty := o.enumerates _ _

theorem mem_next {id : PlayerId} : id ∈ o.next w ↔ id ∈ w.sh.cache.inner.dirty := by
  rw [← (enumerates_next o w).2, List.mem_toFinset]

theorem dirty_takeBatch (id : PlayerId) : id ∈ (takeBatch cfg o w).2.sh.cache.inner.dirty ↔
    id ∈ w.sh.cache.inner.dirty ∧ id ∉ picks cfg o w := by
  simp only [takeBatch, WriteBehindCache.takeDirty, Inner.takeDirty_eq (enumerates_next o w)]
  exact Inner.mem_dirty_clean _ _ _

/-- Each dirty player picked has its cached version in the batch. -/
theorem mem_batch {id : PlayerId} {v : UInt64} :
    (id, v) ∈ (takeBatch cfg o w).1.map stateKey ↔
      id ∈ picks cfg o w ∧ w.sh.cache.versions id = some v := by
  constructor
  · intro hm
    obtain ⟨st, hst, heq⟩ := List.mem_map.mp hm
    obtain ⟨rfl, rfl⟩ := Prod.mk.inj heq
    exact ⟨((WriteBehindCache.mem_taken (enumerates_next o w)).mp hst).1,
      cached_of_mem_taken (enumerates_next o w) hm⟩
  · rintro ⟨hp, hv⟩
    obtain ⟨e, he, rfl⟩ := Option.map_eq_some_iff.mp hv
    have hid := w.sh.cache.lockstep.key id e he
    refine List.mem_map.mpr ⟨e.state, (WriteBehindCache.mem_taken (enumerates_next o w)).mpr ?_, ?_⟩
    · rw [hid]
      exact ⟨hp, by simp [WriteBehindCache.get, he]⟩
    · simp only [stateKey, hid]
      rfl

theorem takeBatch_eq_nil (cfg : ValidConfig) (o : Oracle) (w : World) :
    (takeBatch cfg o w).1 = [] ↔ w.sh.cache.dirtyLen = 0 := by
  rw [WriteBehindCache.dirtyLen, Finset.card_eq_zero]
  constructor
  · intro hnil
    exact WriteBehindCache.dirty_eq_empty_of_taken (enumerates_next o w) cfg.flushMaxBatch_pos hnil
  · intro hempty
    rw [List.eq_nil_iff_forall_not_mem]
    intro st hst
    have hp := ((WriteBehindCache.mem_taken (enumerates_next o w)).mp hst).1
    have := mem_next (o := o).mp (List.mem_of_mem_take hp)
    simp [hempty] at this

theorem dirtyLen_takeBatch (h : (takeBatch cfg o w).1 ≠ []) :
    (takeBatch cfg o w).2.sh.cache.dirtyLen < w.sh.cache.dirtyLen :=
  dirtyLen_takeDirty (enumerates_next o w) h

/-- **Putting a batch back restores the cache and its dirty set.** -/
theorem core_requeue_takeBatch (acc : Set Write) (w : World) :
    core acc { w.sh with cache :=
      (takeBatch cfg o w).2.sh.cache.requeueDirty (takeBatch cfg o w).1 } = core acc w.sh := by
  have hcached : ∀ x ∈ (takeBatch cfg o w).1.map stateKey,
      (core acc (takeBatch cfg o w).2.sh).cached x.1 = some x.2 := by
    intro x hx
    have hv := (mem_batch.mp hx).2
    have hc := congrArg Core.cached (core_takeDirty acc w.sh (enumerates_next o w) cfg.flushMaxBatch)
    exact (congrFun hc x.1).trans hv
  have h1 := core_requeueDirty acc (takeBatch cfg o w).2.sh (takeBatch cfg o w).1
  have h2 := core_takeDirty acc w.sh (enumerates_next o w) cfg.flushMaxBatch
  refine h1.trans ?_
  rw [foldl_stage_of_cached _ _ hcached]
  simp only [takeBatch] at h2 ⊢
  rw [h2]
  simp only [core, Core.mk.injEq, true_and, and_true]
  ext id
  simp only [Set.mem_ofPred_eq]
  constructor
  · rintro (⟨hd, -⟩ | ⟨x, hx, rfl⟩)
    · exact hd
    · exact mem_next.mp (List.mem_of_mem_take (mem_batch (v := x.2).mp hx).1)
  · intro hd
    by_cases hx : ∃ x ∈ (w.sh.cache.taken (o.next w) cfg.flushMaxBatch).map stateKey, x.1 = id
    · exact Or.inr hx
    · exact Or.inl ⟨hd, fun x hx' heq => hx ⟨x, hx', heq⟩⟩

/-! ### One batch -/

/-- **The two outcomes of a batch** with a healthy log: persisted, with the cache as it was; or logged and
put back, with the store as it was. -/
theorem flushBatch_cases (cfg : ValidConfig) {o : Oracle} (ho : o.Healthy) (w : World)
    (states : List PlayerState) :
    ((flushBatch cfg o w states).1 = true ∧ (flushBatch cfg o w states).2.sh.cache = w.sh.cache ∧
      (w.sh.wal.attached = true → (flushBatch cfg o w states).2.sh.wal.attached = true)) ∨
    ∃ wal lsn calls, flushBatch cfg o w states =
      (false, { w with
        sh := { w.sh with lsn := lsn, wal := wal, cache := w.sh.cache.requeueDirty states }
        calls := calls }) ∧
      wal.attached = w.sh.wal.attached ∧ ∃ first,
      wal.records = w.sh.wal.records ++ w.sh.wal.landing (stamp first states) := by
  unfold flushBatch
  rw [ho.append, ho.checkpoint]
  rcases hr : persistWithRetry o.persist cfg.storeRetryLimit w.calls with ⟨_ | _, calls⟩
  · exact Or.inr ⟨_, _, calls, rfl, Log.attached_appendBatch _ _, _, Log.records_appendBatch _ _⟩
  · refine Or.inl ⟨rfl, ?_⟩
    dsimp only [checkpointed]
    split
    · exact ⟨rfl, fun _ => rfl⟩
    · exact ⟨rfl, fun h => (Log.attached_appendBatch _ _).trans h⟩

/-- The state after a batch has been taken, logged and put back: only the log has changed. -/
structure Logged (cfg : ValidConfig) (o : Oracle) (w w' : World) : Prop where
  takes : w'.takes = w.takes + 1
  attached : w'.sh.wal.attached = true
  core : ∀ acc, core acc w'.sh = { core acc w.sh with
    log := (core acc w.sh).log ∪
      {x | x.1 ∈ picks cfg o w ∧ (core acc w.sh).cached x.1 = some x.2} }

/-- A batch that is not persisted is logged. -/
theorem logged_of_false (cfg : ValidConfig) {o : Oracle} (ho : o.Healthy) (hatt : w.sh.wal.attached = true)
    (hf : (flushBatch cfg o (takeBatch cfg o w).2 (takeBatch cfg o w).1).1 = false) :
    Logged cfg o w (flushBatch cfg o (takeBatch cfg o w).2 (takeBatch cfg o w).1).2 := by
  rcases flushBatch_cases cfg ho (takeBatch cfg o w).2 (takeBatch cfg o w).1 with
    ⟨ht, -⟩ | ⟨wal, lsn, calls, heq, hwal, first, hrec⟩
  · rw [ht] at hf; cases hf
  rw [heq]
  refine ⟨rfl, hwal.trans hatt, fun acc => ?_⟩
  have hatt' : (takeBatch cfg o w).2.sh.wal.attached = true := hatt
  rw [Log.landing_of_attached hatt'] at hrec
  have happ := core_append acc { w.sh with cache :=
    (takeBatch cfg o w).2.sh.cache.requeueDirty (takeBatch cfg o w).1 } hrec
  rw [core_requeue_takeBatch] at happ
  refine happ.trans ?_
  simp only [Core.mk.injEq, true_and]
  congr 1
  ext x
  have hstamp := congrArg (x ∈ ·) (recKey_stamp (takeBatch cfg o w).1 first)
  simp only [List.mem_map, eq_iff_iff] at hstamp
  simp only [Set.mem_ofPred_eq, eq_comm (a := x), hstamp]
  exact List.mem_map.symm.trans mem_batch

/-! ### One flush -/

/-- Logging a batch and putting it back keeps the dirty set. -/
theorem Logged.dirty (hl : Logged cfg o w w') :
    w'.sh.cache.inner.dirty = w.sh.cache.inner.dirty := by
  have hd := congrArg Core.dirty (hl.core ∅)
  ext id
  exact Set.ext_iff.mp hd id

/-- What one round of `flush` does. -/
theorem flush_succ (ho : o.Healthy) (hf : flush cfg o (fuel + 1) w = some w')
    (hatt : w.sh.wal.attached = true) :
    (w.sh.cache.dirtyLen = 0 ∧ w' = (takeBatch cfg o w).2) ∨
    (0 < w.sh.cache.dirtyLen ∧ Logged cfg o w w') ∨
    ∃ w1, flush cfg o fuel w1 = some w' ∧ w1.sh.wal.attached = true ∧
      w1.sh.cache.dirtyLen < w.sh.cache.dirtyLen := by
  unfold flush at hf
  rcases hb : takeBatch cfg o w with ⟨_ | ⟨st, states⟩, w0⟩ <;> simp only [hb] at hf
  · refine Or.inl ⟨(takeBatch_eq_nil cfg o w).mp (by rw [hb]), ?_⟩
    exact (Option.some.inj hf).symm
  · have hne : (takeBatch cfg o w).1 ≠ [] := by rw [hb]; exact List.cons_ne_nil _ _
    have hlt := dirtyLen_takeBatch hne
    have hlog := logged_of_false cfg ho hatt
    have hcase := flushBatch_cases cfg ho (takeBatch cfg o w).2 (takeBatch cfg o w).1
    rw [hb] at hlt hlog hcase
    rcases hfb : flushBatch cfg o w0 (st :: states) with ⟨_ | _, w1⟩ <;>
      simp only [hfb] at hf hlog hcase
    · obtain rfl := Option.some.inj hf
      exact Or.inr (Or.inl ⟨by omega, hlog trivial⟩)
    · rcases hcase with ⟨-, hcache, hatt'⟩ | ⟨wal, lsn, calls, heq, -⟩
      · have hatt0 : w0.sh.wal.attached = true := by
          have hwal : (takeBatch cfg o w).2.sh.wal = w.sh.wal := rfl
          rw [hb] at hwal
          rw [hwal]; exact hatt
        exact Or.inr (Or.inr ⟨w1, hf, hatt' hatt0, by rw [hcache]; exact hlt⟩)
      · cases (Prod.mk.inj heq).1

/-- **Run alone, a flush never leaves more dirty players than it found**, and the log stays
attached. -/
theorem flush_dirtyLen (ho : o.Healthy) : ∀ {fuel : ℕ} {w w' : World}, flush cfg o fuel w = some w' →
    w.sh.wal.attached = true →
      w'.sh.cache.dirtyLen ≤ w.sh.cache.dirtyLen ∧ w'.sh.wal.attached = true
  | 0, _, _, hf, _ => by cases hf
  | fuel + 1, w, w', hf, hatt => by
    rcases flush_succ ho hf hatt with ⟨h0, rfl⟩ | ⟨-, hl⟩ | ⟨w1, hf1, hatt1, hlt⟩
    · refine ⟨?_, hatt⟩
      rw [WriteBehindCache.dirtyLen, Finset.card_eq_zero.mpr]
      · exact Nat.zero_le _
      · rw [WriteBehindCache.dirtyLen, Finset.card_eq_zero] at h0
        rw [Finset.eq_empty_iff_forall_notMem]
        intro id hid
        have := (dirty_takeBatch id).mp hid |>.1
        simp [h0] at this
    · exact ⟨by rw [WriteBehindCache.dirtyLen, hl.dirty]; exact le_rfl, hl.attached⟩
    · obtain ⟨hle, hatt'⟩ := flush_dirtyLen ho hf1 hatt1
      exact ⟨by omega, hatt'⟩

/-- A flush that has not made the dirty set smaller has logged one batch and put it back. -/
theorem logged_of_flush (ho : o.Healthy) (hf : flush cfg o fuel w = some w')
    (hatt : w.sh.wal.attached = true)
    (hpos : 0 < w.sh.cache.dirtyLen) (hno : ¬ w'.sh.cache.dirtyLen < w.sh.cache.dirtyLen) :
    Logged cfg o w w' := by
  rcases fuel with _ | fuel
  · cases hf
  rcases flush_succ ho hf hatt with ⟨h0, -⟩ | ⟨-, hl⟩ | ⟨w1, hf1, hatt1, hlt⟩
  · omega
  · exact hl
  · have := (flush_dirtyLen ho hf1 hatt1).1
    omega

/-! ### One pass -/

theorem foldl_drainOne_frame : ∀ (reqs : List WriteRequest) (sh : Shared),
    (reqs.foldl drainOne sh).ring = sh.ring ∧ (reqs.foldl drainOne sh).wal = sh.wal ∧
      (reqs.foldl drainOne sh).table = sh.table
  | [], _ => ⟨rfl, rfl, rfl⟩
  | req :: reqs, sh => foldl_drainOne_frame reqs (drainOne sh req)

theorem drainMax_pos (cfg : ValidConfig) : 0 < saturatingMul cfg.flushMaxBatch drainMultiple := by
  have := cfg.flushMaxBatch_pos
  unfold saturatingMul drainMultiple
  omega

/-- Draining nothing means that the ring was empty, and changes nothing. -/
theorem drain_eq_zero {cfg : ValidConfig} {sh : Shared} (h : ¬ 0 < (drainRingIntoCache cfg sh).1) :
    sh.ring = [] ∧ (drainRingIntoCache cfg sh).2 = sh := by
  have hring : sh.ring = [] := by
    have hlen : (sh.ring.take (saturatingMul cfg.flushMaxBatch drainMultiple)).length = 0 :=
      Nat.eq_zero_of_not_pos h
    rw [List.length_eq_zero_iff, List.take_eq_nil_iff] at hlen
    exact hlen.resolve_left (drainMax_pos cfg).ne'
  refine ⟨hring, ?_⟩
  simp only [drainRingIntoCache, hring, List.take_nil, List.drop_nil, List.foldl_nil]
  rw [← hring]

/-- What a pass does: it drains, and unless nothing is left it flushes and compares. -/
theorem finalPass_cases {p : Pass} (hp : finalPass cfg o fuel w = some p) :
    ((drainedWorld cfg w).sh.ring = [] ∧ (drainedWorld cfg w).sh.cache.dirtyLen = 0 ∧
      p = .clean (drainedWorld cfg w)) ∨
    ∃ w', flushIfDirty cfg o fuel (drainedWorld cfg w) = some w' ∧
      ¬ ((drainedWorld cfg w).sh.ring = [] ∧ (drainedWorld cfg w).sh.cache.dirtyLen = 0) ∧
      ((p = .progress w' ∧ (0 < (drainRingIntoCache cfg w.sh).1 ∨
          w'.sh.cache.dirtyLen < (drainedWorld cfg w).sh.cache.dirtyLen)) ∨
        (p = .stalled w' ∧ ¬ 0 < (drainRingIntoCache cfg w.sh).1 ∧
          ¬ w'.sh.cache.dirtyLen < (drainedWorld cfg w).sh.cache.dirtyLen)) := by
  unfold finalPass at hp
  simp only [List.isEmpty_iff] at hp
  split_ifs at hp with hclean
  · exact Or.inl ⟨hclean.1, hclean.2, (Option.some.inj hp).symm⟩
  · rcases hf : flushIfDirty cfg o fuel (drainedWorld cfg w) with _ | w' <;> simp only [hf] at hp
    · cases hp
    · split_ifs at hp with hprog
      · exact Or.inr ⟨w', rfl, hclean, Or.inl ⟨(Option.some.inj hp).symm, hprog⟩⟩
      · rw [not_or] at hprog
        exact Or.inr ⟨w', rfl, hclean, Or.inr ⟨(Option.some.inj hp).symm, hprog⟩⟩

/-- **A stalled pass**: the ring is empty, and one batch of the dirty players has been logged and put
back. -/
theorem finalPass_stalled (ho : o.Healthy)
    (hp : finalPass cfg o fuel w = some (.stalled w'))
    (hatt : w.sh.wal.attached = true) : w.sh.ring = [] ∧ Logged cfg o w w' := by
  rcases finalPass_cases hp with ⟨-, -, h⟩ | ⟨w2, hf, hclean, ⟨h, -⟩ | ⟨h, hdr, hno⟩⟩
  · cases h
  · cases h
  · obtain rfl := Pass.stalled.inj h
    obtain ⟨hring, hsh⟩ := drain_eq_zero hdr
    have hw : drainedWorld cfg w = w := by
      unfold drainedWorld
      rw [hsh]
    rw [hw] at hf hclean hno
    have hpos : 0 < w.sh.cache.dirtyLen := Nat.pos_of_ne_zero fun h0 => hclean ⟨hring, h0⟩
    unfold flushIfDirty at hf
    rw [if_pos hpos] at hf
    exact ⟨hring, logged_of_flush ho hf hatt hpos hno⟩

/-- A pass keeps the log attached. -/
theorem finalPass_attached (ho : o.Healthy) (hatt : w.sh.wal.attached = true)
    (hp : finalPass cfg o fuel w = some (.progress w')) : w'.sh.wal.attached = true := by
  have hwal : (drainedWorld cfg w).sh.wal = w.sh.wal := (foldl_drainOne_frame _ _).2.1
  rcases finalPass_cases hp with ⟨-, -, h⟩ | ⟨w2, hf, -, ⟨h, -⟩ | ⟨h, -⟩⟩
  · cases h
  · obtain rfl := Pass.progress.inj h
    unfold flushIfDirty at hf
    split_ifs at hf
    · exact (flush_dirtyLen ho hf (by rw [hwal]; exact hatt)).2
    · obtain rfl := Option.some.inj hf
      rw [hwal]; exact hatt
  · cases h

/-! ### The last stretch -/

/-- `n` stalled passes in a row lead from `since` to `w`. -/
inductive Stretch (cfg : ValidConfig) (o : Oracle) (since : World) : ℕ → World → Prop
  | zero : Stretch cfg o since 0 since
  | succ {n : ℕ} {w w' : World} : Stretch cfg o since n w → w.sh.ring = [] → Logged cfg o w w' →
      Stretch cfg o since (n + 1) w'

/-- The player is picked by `take_dirty` in one of the `n` passes from `since` on, each of which finds
the same players dirty. -/
def PickedIn (cfg : ValidConfig) (o : Oracle) (since : World) (n : ℕ) (id : PlayerId) : Prop :=
  ∃ i < n, id ∈ (o.order (since.takes + i) since.sh.cache.inner.dirty).take cfg.flushMaxBatch

/-- **A stretch of stalled passes** changes nothing but the log, which gains the cached versions of
the players that were picked. -/
theorem Stretch.core {since : World} {n : ℕ} (hs : Stretch cfg o since n w) :
    w.takes = since.takes + n ∧ ∀ acc, core acc w.sh = { core acc since.sh with
      log := (core acc since.sh).log ∪
        {x | PickedIn cfg o since n x.1 ∧ (core acc since.sh).cached x.1 = some x.2} } := by
  induction hs with
  | zero => exact ⟨rfl, fun acc => by simp [PickedIn]⟩
  | @succ n w w' _ _ hl ih =>
    obtain ⟨ht, hc⟩ := ih
    refine ⟨by rw [hl.takes, ht]; omega, fun acc => ?_⟩
    have hdirty : w.sh.cache.inner.dirty = since.sh.cache.inner.dirty := by
      ext id
      exact Set.ext_iff.mp (congrArg Core.dirty (hc ∅)) id
    rw [hl.core acc, hc acc]
    simp only [Core.mk.injEq, true_and]
    rw [Set.union_assoc]
    congr 1
    ext x
    simp only [Set.mem_union, Set.mem_ofPred_eq, PickedIn, picks, Oracle.next, ht, hdirty]
    constructor
    · rintro (⟨⟨i, hi, hx⟩, hv⟩ | ⟨hx, hv⟩)
      · exact ⟨⟨i, by omega, hx⟩, hv⟩
      · exact ⟨⟨n, by omega, hx⟩, hv⟩
    · rintro ⟨⟨i, hi, hx⟩, hv⟩
      rcases Nat.lt_succ_iff_lt_or_eq.mp hi with hi | rfl
      · exact Or.inl ⟨⟨i, hi, hx⟩, hv⟩
      · exact Or.inr ⟨hx, hv⟩

theorem Stretch.attached {since : World} {n : ℕ} (hs : Stretch cfg o since n w)
    (hatt : since.sh.wal.attached = true) : w.sh.wal.attached = true := by
  cases hs with
  | zero => exact hatt
  | succ _ _ hl => exact hl.attached

/-- **A drain that gives up ends with the full number of stalled passes.** -/
theorem finalDrain_gaveUp (ho : o.Healthy) : ∀ {fuel stalled : ℕ} {since w since' w' : World},
    finalDrain cfg o fuel stalled since w = some (.gaveUp since' w') →
      since.sh.wal.attached = true → stalled < shutdownMaxStalledAttempts →
        Stretch cfg o since stalled w →
          Stretch cfg o since' shutdownMaxStalledAttempts w' ∧ w'.sh.ring = []
  | 0, _, _, _, _, _, hd, _, _, _ => by cases hd
  | fuel + 1, stalled, since, w, since', w', hd, hatt, hlt, hs => by
    unfold finalDrain at hd
    rcases hp : finalPass cfg o fuel w with _ | (w1 | w1 | w1) <;> simp only [hp] at hd
    · cases hd
    · cases hd
    · have hatt1 := finalPass_attached ho (hs.attached hatt) hp
      exact finalDrain_gaveUp ho hd hatt1 (by decide) Stretch.zero
    · obtain ⟨hring, hl⟩ := finalPass_stalled ho hp (hs.attached hatt)
      have hs1 := hs.succ hring hl
      split_ifs at hd with hmax
      · obtain ⟨rfl, rfl⟩ := Ending.gaveUp.inj (Option.some.inj hd)
        have hn : shutdownMaxStalledAttempts = stalled + 1 := by omega
        refine ⟨hn ▸ hs1, ?_⟩
        have hq := congrArg Core.queue (hl.core ∅)
        simpa [core, hring] using hq
      · exact finalDrain_gaveUp ho hd hatt (by omega) hs1

/-- A drain that ends clean leaves the ring empty and nothing dirty. -/
theorem finalDrain_clean : ∀ {fuel stalled : ℕ} {since w w' : World},
    finalDrain cfg o fuel stalled since w = some (.clean w') →
      w'.sh.ring = [] ∧ w'.sh.cache.inner.dirty = ∅
  | 0, _, _, _, _, hd => by cases hd
  | fuel + 1, stalled, since, w, w', hd => by
    unfold finalDrain at hd
    rcases hp : finalPass cfg o fuel w with _ | (w1 | w1 | w1) <;> simp only [hp] at hd
    · cases hd
    · obtain rfl := Ending.clean.inj (Option.some.inj hd)
      rcases finalPass_cases hp with ⟨hring, hdirty, h⟩ | ⟨w2, -, -, ⟨h, -⟩ | ⟨h, -⟩⟩
      · obtain rfl := Pass.clean.inj h
        exact ⟨hring, Finset.card_eq_zero.mp hdirty⟩
      · cases h
      · cases h
    · exact finalDrain_clean hd
    · split_ifs at hd
      · cases hd
      · exact finalDrain_clean hd

end FluxThroughput.Worker.FinalDrain
