import FluxThroughput.Worker.FinalDrain

/-! # The final drain ends

`final_drain` run alone, on any ring and any cache, with any answers of the log and the store. Each
iteration takes requests off the ring, or leaves fewer players dirty, or uses up one of the stalled
attempts in a row; so the drain ends (`exists_drain`). `finalDrainTrace` is the drain with a record of
what each iteration did, and the record tells why it has ended (`finalDrain_ends`). -/

namespace FluxThroughput.Worker.Termination

open FluxThroughput.Domain.Types FluxThroughput.Cache.WriteBehind FluxThroughput.Cache.History
open FluxThroughput.Cache.Portions FluxThroughput.Engine.Config FluxThroughput.Engine.Machine
open FluxThroughput.Worker.FinalDrain FluxThroughput.Lib.WriteBehind

variable {cfg : ValidConfig} {o : Oracle} {w w' : World} {fuel : ℕ}

/-! ### The drain with a record -/

/-- An `Ok` of `persist_batch`: the number of the call, and the batch. -/
abbrev Persisted := ℕ × List PlayerState

/-- `flush`, with the calls of `persist_batch` that have answered `Ok`. -/
def flushTrace (cfg : ValidConfig) (o : Oracle) : ℕ → World → Option (List Persisted × World)
  | 0, _ => none
  | fuel + 1, w =>
    match takeBatch cfg o w with
    | ([], w) => some ([], w)
    | (st :: states, w) =>
      match flushBatch cfg o w (st :: states) with
      | (true, w) => (flushTrace cfg o fuel w).map fun x => ((w.calls - 1, st :: states) :: x.1, x.2)
      | (false, w) => some ([], w)

def flushTraceIfDirty (cfg : ValidConfig) (o : Oracle) (fuel : ℕ) (w : World) :
    Option (List Persisted × World) :=
  if 0 < w.sh.cache.dirtyLen then flushTrace cfg o fuel w else some ([], w)

/-- One iteration of `final_drain`. -/
structure Iteration where
  drained : List WriteRequest
  /-- the players dirty once the requests are in the cache -/
  dirty : Finset PlayerId
  persisted : List Persisted
  dirtyAfter : ℕ

/-- The iteration from `w`, when its flush has persisted `oks` and left `w'`. -/
def iteration (cfg : ValidConfig) (w : World) (oks : List Persisted) (w' : World) : Iteration where
  drained := w.sh.ring.take (saturatingMul cfg.flushMaxBatch drainMultiple)
  dirty := (drainedWorld cfg w).sh.cache.inner.dirty
  persisted := oks
  dirtyAfter := w'.sh.cache.dirtyLen

/-- `final_drain`, with its iterations. -/
def finalDrainTrace (cfg : ValidConfig) (o : Oracle) :
    ℕ → ℕ → World → Option (List Iteration × World)
  | 0, _, _ => none
  | fuel + 1, stalled, w =>
    let drained := (drainRingIntoCache cfg w.sh).1
    let w1 := drainedWorld cfg w
    if w1.sh.ring.isEmpty ∧ w1.sh.cache.dirtyLen = 0 then some ([iteration cfg w [] w1], w1)
    else
      match flushTraceIfDirty cfg o fuel w1 with
      | none => none
      | some (oks, w2) =>
        if 0 < drained ∨ w2.sh.cache.dirtyLen < w1.sh.cache.dirtyLen then
          (finalDrainTrace cfg o fuel 0 w2).map fun x => (iteration cfg w oks w2 :: x.1, x.2)
        else if shutdownMaxStalledAttempts ≤ stalled + 1 then
          some ([iteration cfg w oks w2], w2)
        else
          (finalDrainTrace cfg o fuel (stalled + 1) w2).map
            fun x => (iteration cfg w oks w2 :: x.1, x.2)

theorem flushTrace_flush (cfg : ValidConfig) (o : Oracle) : ∀ (fuel : ℕ) (w : World),
    (flushTrace cfg o fuel w).map Prod.snd = flush cfg o fuel w
  | 0, _ => rfl
  | fuel + 1, w => by
    unfold flushTrace flush
    rcases takeBatch cfg o w with ⟨_ | ⟨st, states⟩, w0⟩
    · rfl
    · rcases hb : flushBatch cfg o w0 (st :: states) with ⟨_ | _, w1⟩
      · simp only [hb, Option.map_some]
      · simp only [hb, Option.map_map, Function.comp_def]
        exact flushTrace_flush cfg o fuel w1

/-- **The record is of the drain itself.** -/
theorem finalDrainTrace_finalDrain (cfg : ValidConfig) (o : Oracle) : ∀ (fuel stalled : ℕ)
    (since w : World), (finalDrainTrace cfg o fuel stalled w).map Prod.snd =
      (finalDrain cfg o fuel stalled since w).map Ending.world
  | 0, _, _, _ => rfl
  | fuel + 1, stalled, since, w => by
    have hflush : flushIfDirty cfg o fuel (drainedWorld cfg w) =
        (flushTraceIfDirty cfg o fuel (drainedWorld cfg w)).map Prod.snd := by
      unfold flushIfDirty flushTraceIfDirty
      split_ifs
      · exact (flushTrace_flush cfg o fuel _).symm
      · rfl
    unfold finalDrainTrace finalDrain finalPass
    simp only [hflush]
    by_cases hclean : (drainedWorld cfg w).sh.ring.isEmpty ∧ (drainedWorld cfg w).sh.cache.dirtyLen = 0
    · simp only [if_pos hclean]
      rfl
    · simp only [if_neg hclean]
      rcases flushTraceIfDirty cfg o fuel (drainedWorld cfg w) with _ | ⟨oks, w2⟩
      · rfl
      · by_cases hprogress : 0 < (drainRingIntoCache cfg w.sh).1 ∨
            w2.sh.cache.dirtyLen < (drainedWorld cfg w).sh.cache.dirtyLen
        · simp only [Option.map_some, if_pos hprogress, Option.map_map, Function.comp_def]
          exact finalDrainTrace_finalDrain cfg o fuel 0 w2 w2
        · simp only [Option.map_some, if_neg hprogress]
          split_ifs
          · rfl
          · rw [Option.map_map]
            exact finalDrainTrace_finalDrain cfg o fuel (stalled + 1) since w2

/-! ### One flush -/

theorem persistWithRetry_ok (persist : ℕ → Option StoreError) : ∀ (budget n : ℕ),
    (persistWithRetry persist budget n).1 = true →
      persist ((persistWithRetry persist budget n).2 - 1) = none
  | 0, _, hok => by cases hok
  | budget + 1, n, hok => by
    unfold persistWithRetry at hok ⊢
    rcases hn : persist n with _ | e
    · exact hn
    · simp only [hn] at hok ⊢
      split_ifs at hok ⊢ with hstop
      exact persistWithRetry_ok persist budget (n + 1) hok

theorem checkpointed_frame (outcome : CheckpointOutcome) (sh : Shared) (proposed : Lsn) :
    (checkpointed outcome sh proposed).ring = sh.ring ∧
      (checkpointed outcome sh proposed).cache = sh.cache := by
  unfold checkpointed
  rcases sh.lsn.checkpointWatermark proposed with _ | safe
  · exact ⟨rfl, rfl⟩
  · cases outcome <;> exact ⟨rfl, rfl⟩

/-- A batch leaves the ring alone. It is persisted, and the cache is left alone too, or it is put
back. -/
theorem flushBatch_spec (cfg : ValidConfig) (o : Oracle) (w : World) (states : List PlayerState) :
    ∃ w1, w1.sh.ring = w.sh.ring ∧
      ((flushBatch cfg o w states = (true, w1) ∧ w1.sh.cache = w.sh.cache ∧
          o.persist (w1.calls - 1) = none) ∨
        (flushBatch cfg o w states = (false, w1) ∧
          w1.sh.cache = w.sh.cache.requeueDirty states)) := by
  have hok := persistWithRetry_ok o.persist cfg.storeRetryLimit w.calls
  unfold flushBatch
  rcases o.append w.takes with _ | ⟨landed, torn⟩
  · rcases hr : persistWithRetry o.persist cfg.storeRetryLimit w.calls with ⟨_ | _, calls⟩
    · refine ⟨_, ?_, Or.inr ⟨rfl, rfl⟩⟩
      rfl
    · rw [hr] at hok
      refine ⟨_, ?_, Or.inl ⟨rfl, ?_, hok rfl⟩⟩
      · exact (checkpointed_frame _ _ _).1
      · exact (checkpointed_frame _ _ _).2
  · refine ⟨_, ?_, Or.inr ⟨rfl, rfl⟩⟩
    rfl

/-- The states that the calls have carried. -/
def carriedBy (oks : List Persisted) : List PlayerState := (oks.map Prod.snd).flatten

/-- **What a flush has done**: its batches have been taken out of the cache, and persisted. -/
structure Flushed (o : Oracle) (w : World) (oks : List Persisted) (w' : World) : Prop where
  ring : w'.sh.ring = w.sh.ring
  portioned : Portioned w.sh.cache w'.sh.cache (carriedBy oks)
  ok : ∀ call ∈ oks, o.persist call.1 = none

theorem Flushed.refl (o : Oracle) (w : World) : Flushed o w [] w where
  ring := rfl
  portioned := Portioned.refl _
  ok _ hcall := by cases hcall

/-- One batch is taken and persisted, and the flush goes on. -/
theorem Flushed.cons {w1 : World} {oks : List Persisted} (hring : w1.sh.ring = w.sh.ring)
    (hcache : w1.sh.cache = (takeBatch cfg o w).2.sh.cache) (hok : o.persist (w1.calls - 1) = none)
    (hf : Flushed o w1 oks w') :
    Flushed o w ((w1.calls - 1, (takeBatch cfg o w).1) :: oks) w' where
  ring := hf.ring.trans hring
  portioned := by
    have hrest : Portioned (takeBatch cfg o w).2.sh.cache w'.sh.cache (carriedBy oks) :=
      hcache ▸ hf.portioned
    exact (portioned_taken (enumerates_next o w) cfg.flushMaxBatch).trans hrest
  ok call hcall := by
    rcases List.mem_cons.mp hcall with rfl | hcall
    · exact hok
    · exact hf.ok call hcall

/-- One batch is taken and put back. -/
theorem Flushed.requeued (cfg : ValidConfig) {w1 : World} (hring : w1.sh.ring = w.sh.ring)
    (hcache : w1.sh.cache = (takeBatch cfg o w).2.sh.cache.requeueDirty (takeBatch cfg o w).1) :
    Flushed o w [] w1 where
  ring := hring
  portioned := by
    have hout : Portioned w.sh.cache (takeBatch cfg o w).2.sh.cache ([] ++ (takeBatch cfg o w).1) :=
      portioned_taken (enumerates_next o w) cfg.flushMaxBatch
    exact hcache ▸ hout.putBack
  ok call hcall := by cases hcall

/-- **`flush` ends**, after at most one batch for each dirty player and one more. -/
theorem exists_flushTrace (cfg : ValidConfig) (o : Oracle) (w : World) :
    ∃ oks w', Flushed o w oks w' ∧
      ∀ fuel, w.sh.cache.dirtyLen < fuel → flushTrace cfg o fuel w = some (oks, w') := by
  rcases ht : takeBatch cfg o w with ⟨batch, w0⟩
  have hw0 : w0 = (takeBatch cfg o w).2 := by rw [ht]
  have hbatch : batch = (takeBatch cfg o w).1 := by rw [ht]
  rcases batch with _ | ⟨st, states⟩
  · refine ⟨[], w0, Flushed.requeued cfg (hw0 ▸ rfl) ?_, fun fuel hfuel => ?_⟩
    · rw [← hbatch, hw0]
      rfl
    · obtain ⟨n, rfl⟩ := Nat.exists_eq_add_of_lt hfuel
      simp only [flushTrace, ht]
  · obtain ⟨w1, hring, ⟨hb, hcache, hok⟩ | ⟨hb, hcache⟩⟩ := flushBatch_spec cfg o w0 (st :: states)
    · have hlt : w1.sh.cache.dirtyLen < w.sh.cache.dirtyLen := by
        rw [hcache, hw0]
        exact dirtyLen_takeBatch (by rw [← hbatch]; exact List.cons_ne_nil _ _)
      obtain ⟨oks, w', hf, hrun⟩ := exists_flushTrace cfg o w1
      refine ⟨(w1.calls - 1, st :: states) :: oks, w', ?_, fun fuel hfuel => ?_⟩
      · rw [hbatch]
        exact hf.cons (hring.trans (hw0 ▸ rfl)) (hcache.trans (hw0 ▸ rfl)) hok
      · obtain ⟨n, rfl⟩ := Nat.exists_eq_add_of_lt hfuel
        simp only [flushTrace, ht, hb]
        rw [hrun _ (by omega), Option.map_some]
    · refine ⟨[], w1, ?_, fun fuel hfuel => ?_⟩
      · refine Flushed.requeued cfg (hring.trans (hw0 ▸ rfl)) ?_
        rw [hcache, hbatch, hw0]
      · obtain ⟨n, rfl⟩ := Nat.exists_eq_add_of_lt hfuel
        simp only [flushTrace, ht, hb]
termination_by w.sh.cache.dirtyLen

/-- `flush`, called only when there is something dirty. -/
theorem exists_flushTraceIfDirty (cfg : ValidConfig) (o : Oracle) (w : World) :
    ∃ oks w', Flushed o w oks w' ∧
      ∀ fuel, w.sh.cache.dirtyLen < fuel → flushTraceIfDirty cfg o fuel w = some (oks, w') := by
  unfold flushTraceIfDirty
  by_cases hpos : 0 < w.sh.cache.dirtyLen
  · simp only [if_pos hpos]
    exact exists_flushTrace cfg o w
  · simp only [if_neg hpos]
    exact ⟨[], w, Flushed.refl o w, fun _ _ => rfl⟩

/-- A flush makes nobody dirty. -/
theorem Flushed.dirty_subset {oks : List Persisted} (hf : Flushed o w oks w') :
    w'.sh.cache.inner.dirty ⊆ w.sh.cache.inner.dirty := fun id hid =>
  (hf.portioned.split id).mpr (Or.inl hid)

/-- A player that is dirty no more has been in a batch, with its cached state. -/
theorem Flushed.carried {oks : List Persisted} (hf : Flushed o w oks w') {id : PlayerId}
    (hid : id ∈ w.sh.cache.inner.dirty) (hclean : id ∉ w'.sh.cache.inner.dirty) :
    ∃ call ∈ oks, o.persist call.1 = none ∧
      ∃ st ∈ call.2, st.playerId = id ∧ w'.sh.cache.get id = some st := by
  have hout := ((hf.portioned.split id).mp hid).resolve_left hclean
  obtain ⟨st, hst, rfl⟩ := List.mem_map.mp hout
  obtain ⟨batch, hbatch, hmem⟩ := List.mem_flatten.mp hst
  obtain ⟨call, hcall, rfl⟩ := List.mem_map.mp hbatch
  have hget := (hf.portioned.get _).trans (hf.portioned.state st hst)
  exact ⟨call, hcall, hf.ok call hcall, st, hmem, rfl, hget⟩

/-! ### One drain -/

/-- A request makes nobody clean, and leaves the cached state of whoever is not dirty after it. -/
theorem apply_frame (c : WriteBehindCache) (req : WriteRequest) :
    c.inner.dirty ⊆ (c.apply req).inner.dirty ∧
      ∀ id, id ∉ (c.apply req).inner.dirty → (c.apply req).get id = c.get id := by
  have happly : (c.apply req).inner = c.inner.requeueOne req.toState := Inner.apply_eq_requeueOne _ _
  unfold WriteBehindCache.get
  rw [happly]
  by_cases hs : Stale c.inner.versions (req.toState.playerId, req.toState.version)
  · rw [Inner.requeueOne_of_stale hs]
    exact ⟨subset_rfl, fun _ _ => rfl⟩
  · rw [Inner.requeueOne_of_not_stale hs, Inner.dirty_insertDirty]
    refine ⟨Finset.subset_insert _ _, fun id hid => ?_⟩
    have hne : id ≠ req.toState.playerId := fun heq => hid (heq ▸ Finset.mem_insert_self _ _)
    rw [Inner.map_insertDirty, Function.update_of_ne hne]

theorem foldl_drainOne_cache : ∀ (reqs : List WriteRequest) (sh : Shared),
    sh.cache.inner.dirty ⊆ (reqs.foldl drainOne sh).cache.inner.dirty ∧
      ∀ id, id ∉ (reqs.foldl drainOne sh).cache.inner.dirty →
        (reqs.foldl drainOne sh).cache.get id = sh.cache.get id
  | [], _ => ⟨subset_rfl, fun _ _ => rfl⟩
  | req :: reqs, sh => by
    obtain ⟨hsub, hget⟩ := foldl_drainOne_cache reqs (drainOne sh req)
    have hone := apply_frame sh.cache req
    exact ⟨hone.1.trans hsub, fun id hid =>
      (hget id hid).trans (hone.2 id fun hd => hid (hsub hd))⟩

theorem sh_drainedWorld (cfg : ValidConfig) (w : World) : (drainedWorld cfg w).sh =
    (w.sh.ring.take (saturatingMul cfg.flushMaxBatch drainMultiple)).foldl drainOne
      { w.sh with ring := w.sh.ring.drop (saturatingMul cfg.flushMaxBatch drainMultiple) } := rfl

theorem ring_drainedWorld (cfg : ValidConfig) (w : World) : (drainedWorld cfg w).sh.ring =
    w.sh.ring.drop (saturatingMul cfg.flushMaxBatch drainMultiple) := by
  rw [sh_drainedWorld, (foldl_drainOne_frame _ _).1]

theorem dirty_drainedWorld (cfg : ValidConfig) (w : World) :
    w.sh.cache.inner.dirty ⊆ (drainedWorld cfg w).sh.cache.inner.dirty := by
  rw [sh_drainedWorld]
  exact (foldl_drainOne_cache _ { w.sh with ring := w.sh.ring.drop _ }).1

theorem get_drainedWorld {id : PlayerId} (h : id ∉ (drainedWorld cfg w).sh.cache.inner.dirty) :
    (drainedWorld cfg w).sh.cache.get id = w.sh.cache.get id := by
  rw [sh_drainedWorld] at h ⊢
  exact (foldl_drainOne_cache _ { w.sh with ring := w.sh.ring.drop _ }).2 id h

/-! ### One iteration -/

/-- The iteration has drained nothing, and as many players are dirty after it as before. -/
def Iteration.Idle (it : Iteration) : Prop := it.drained = [] ∧ it.dirtyAfter = it.dirty.card

/-- The test of `final_drain` for progress, when its flush has left `w2`. -/
abbrev Progress (cfg : ValidConfig) (w w2 : World) : Prop :=
  0 < (drainRingIntoCache cfg w.sh).1 ∨
    w2.sh.cache.dirtyLen < (drainedWorld cfg w).sh.cache.dirtyLen

variable {oks : List Persisted} {w2 : World}

/-- **An iteration with progress** shortens the ring, or else leaves fewer players dirty. -/
theorem measure_progress (hf : Flushed o (drainedWorld cfg w) oks w2) (hp : Progress cfg w w2) :
    w2.sh.ring.length < w.sh.ring.length ∨
      (w2.sh.ring.length = w.sh.ring.length ∧ w2.sh.cache.dirtyLen < w.sh.cache.dirtyLen) := by
  have hpos := drainMax_pos cfg
  have hring : w2.sh.ring.length = w.sh.ring.length - saturatingMul cfg.flushMaxBatch drainMultiple := by
    rw [hf.ring, ring_drainedWorld, List.length_drop]
  by_cases hdrained : 0 < (drainRingIntoCache cfg w.sh).1
  · have hlen : 0 < w.sh.ring.length := by
      simp only [drainRingIntoCache, List.length_take] at hdrained
      omega
    exact Or.inl (by omega)
  · obtain ⟨hnil, hsh⟩ := drain_eq_zero hdrained
    have hlt := hp.resolve_left hdrained
    unfold drainedWorld at hlt
    rw [hsh] at hlt
    exact Or.inr ⟨by rw [hring, hnil, List.length_nil, Nat.zero_sub], hlt⟩

/-- **An iteration without progress** is idle, and leaves the ring and the number of dirty players as
they were. -/
theorem measure_stalled (hf : Flushed o (drainedWorld cfg w) oks w2) (hp : ¬ Progress cfg w w2) :
    (iteration cfg w oks w2).Idle ∧ w2.sh.ring.length = w.sh.ring.length ∧
      w2.sh.cache.dirtyLen = w.sh.cache.dirtyLen := by
  obtain ⟨hdrained, hnot⟩ := not_or.mp hp
  obtain ⟨hnil, hsh⟩ := drain_eq_zero hdrained
  have hle : w2.sh.cache.dirtyLen ≤ (drainedWorld cfg w).sh.cache.dirtyLen :=
    Finset.card_le_card hf.dirty_subset
  have heq : w2.sh.cache.dirtyLen = (drainedWorld cfg w).sh.cache.dirtyLen := by omega
  refine ⟨⟨by rw [iteration, hnil, List.take_nil], heq⟩, ?_, ?_⟩
  · rw [hf.ring, ring_drainedWorld, hnil, List.drop_nil]
  · rw [heq, drainedWorld, hsh]

/-! ### The whole drain -/

/-- **A run of `final_drain`**, after `stalled` iterations without progress. -/
inductive Drain (cfg : ValidConfig) (o : Oracle) : ℕ → World → List Iteration → World → Prop
  | clean {stalled : ℕ} {w : World} : (drainedWorld cfg w).sh.ring = [] →
      (drainedWorld cfg w).sh.cache.inner.dirty = ∅ →
        Drain cfg o stalled w [iteration cfg w [] (drainedWorld cfg w)] (drainedWorld cfg w)
  | progress {stalled : ℕ} {w w2 w' : World} {oks : List Persisted} {its : List Iteration} :
      Flushed o (drainedWorld cfg w) oks w2 → Drain cfg o 0 w2 its w' →
        Drain cfg o stalled w (iteration cfg w oks w2 :: its) w'
  | stalled {stalled : ℕ} {w w2 w' : World} {oks : List Persisted} {its : List Iteration} :
      Flushed o (drainedWorld cfg w) oks w2 → (iteration cfg w oks w2).Idle →
        stalled + 1 < shutdownMaxStalledAttempts → Drain cfg o (stalled + 1) w2 its w' →
          Drain cfg o stalled w (iteration cfg w oks w2 :: its) w'
  | gaveUp {stalled : ℕ} {w w2 : World} {oks : List Persisted} :
      Flushed o (drainedWorld cfg w) oks w2 → (iteration cfg w oks w2).Idle →
        shutdownMaxStalledAttempts ≤ stalled + 1 →
          Drain cfg o stalled w [iteration cfg w oks w2] w2

/-- **`final_drain` ends.** Progress shortens the ring or leaves fewer players dirty, and anything else
uses up one stalled attempt. -/
theorem exists_drain (cfg : ValidConfig) (o : Oracle) (stalled : ℕ) (w : World) :
    ∃ its w' enough, Drain cfg o stalled w its w' ∧
      ∀ fuel, enough ≤ fuel → finalDrainTrace cfg o fuel stalled w = some (its, w') := by
  by_cases hclean : (drainedWorld cfg w).sh.ring.isEmpty ∧ (drainedWorld cfg w).sh.cache.dirtyLen = 0
  · refine ⟨_, _, 1, Drain.clean (List.isEmpty_iff.mp hclean.1) (Finset.card_eq_zero.mp hclean.2),
      fun fuel hfuel => ?_⟩
    obtain ⟨n, rfl⟩ := Nat.exists_eq_add_of_le' hfuel
    simp only [finalDrainTrace, if_pos hclean]
  obtain ⟨oks, w2, hf, hflush⟩ := exists_flushTraceIfDirty cfg o (drainedWorld cfg w)
  -- one iteration more than the rest takes, and fuel for the flush of this one
  have hstep : ∀ {n fuel : ℕ}, n + (drainedWorld cfg w).sh.cache.dirtyLen + 2 ≤ fuel →
      ∃ fuel', fuel = fuel' + 1 ∧ n ≤ fuel' ∧
        flushTraceIfDirty cfg o fuel' (drainedWorld cfg w) = some (oks, w2) := by
    intro n fuel hfuel
    exact ⟨fuel - 1, by omega, by omega, hflush _ (by omega)⟩
  by_cases hprog : Progress cfg w w2
  · have hdec := measure_progress hf hprog
    obtain ⟨its, w', n, hrest, hrun⟩ := exists_drain cfg o 0 w2
    refine ⟨_, _, n + (drainedWorld cfg w).sh.cache.dirtyLen + 2, Drain.progress hf hrest,
      fun fuel hfuel => ?_⟩
    obtain ⟨fuel', rfl, hn, hfl⟩ := hstep hfuel
    simp only [finalDrainTrace, if_neg hclean, hfl, if_pos hprog, hrun fuel' hn, Option.map_some]
  obtain ⟨hidle, hring, hdirty⟩ := measure_stalled hf hprog
  by_cases hmax : shutdownMaxStalledAttempts ≤ stalled + 1
  · refine ⟨_, _, 0 + (drainedWorld cfg w).sh.cache.dirtyLen + 2, Drain.gaveUp hf hidle hmax,
      fun fuel hfuel => ?_⟩
    obtain ⟨fuel', rfl, -, hfl⟩ := hstep hfuel
    simp only [finalDrainTrace, if_neg hclean, hfl, if_neg hprog, if_pos hmax]
  · obtain ⟨its, w', n, hrest, hrun⟩ := exists_drain cfg o (stalled + 1) w2
    refine ⟨_, _, n + (drainedWorld cfg w).sh.cache.dirtyLen + 2,
      Drain.stalled hf hidle (not_le.mp hmax) hrest, fun fuel hfuel => ?_⟩
    obtain ⟨fuel', rfl, hn, hfl⟩ := hstep hfuel
    simp only [finalDrainTrace, if_neg hclean, hfl, if_neg hprog, if_neg hmax, hrun fuel' hn,
      Option.map_some]
termination_by (w.sh.ring.length, w.sh.cache.dirtyLen, shutdownMaxStalledAttempts - stalled)
decreasing_by
  · rcases hdec with hlt | ⟨heq, hlt⟩
    · exact Prod.Lex.left _ _ hlt
    · rw [heq]
      exact Prod.Lex.right _ (Prod.Lex.left _ _ hlt)
  · rw [hring, hdirty]
    exact Prod.Lex.right _ (Prod.Lex.right _ (by omega))

/-- Some `Ok` of `persist_batch` has carried the state that `w` caches for the player. -/
def CarriedTo (o : Oracle) (its : List Iteration) (w : World) (id : PlayerId) : Prop :=
  ∃ it ∈ its, ∃ call ∈ it.persisted, o.persist call.1 = none ∧
    ∃ st ∈ call.2, st.playerId = id ∧ w.sh.cache.get id = some st

variable {stalled : ℕ} {its : List Iteration} {id : PlayerId}

/-- Whoever is dirty at entry is dirty in the first iteration. -/
theorem Drain.dirty_entry (hd : Drain cfg o stalled w its w') (hid : id ∈ w.sh.cache.inner.dirty) :
    ∃ it ∈ its, id ∈ it.dirty := by
  have hfirst := dirty_drainedWorld cfg w hid
  cases hd <;> exact ⟨_, List.mem_cons_self, hfirst⟩

/-- The cached state of a player that is never dirty stays. -/
theorem Drain.get_of_clean (hd : Drain cfg o stalled w its w') (hid : ∀ it ∈ its, id ∉ it.dirty) :
    w'.sh.cache.get id = w.sh.cache.get id := by
  have hpass : ∀ {w w2 : World} {oks : List Persisted}, Flushed o (drainedWorld cfg w) oks w2 →
      id ∉ (drainedWorld cfg w).sh.cache.inner.dirty → w2.sh.cache.get id = w.sh.cache.get id :=
    fun hf hclean => (hf.portioned.get id).trans (get_drainedWorld hclean)
  induction hd with
  | @clean stalled w =>
    have hclean : id ∉ (drainedWorld cfg w).sh.cache.inner.dirty := hid _ List.mem_cons_self
    exact get_drainedWorld hclean
  | progress hf _ ih | stalled hf _ _ _ ih =>
    have hrest := ih fun it hit => hid it (List.mem_cons_of_mem _ hit)
    exact hrest.trans (hpass hf (hid _ List.mem_cons_self))
  | gaveUp hf => exact hpass hf (hid _ List.mem_cons_self)

theorem CarriedTo.cons {it : Iteration} (hc : CarriedTo o its w id) : CarriedTo o (it :: its) w id := by
  obtain ⟨it', hit', hcarried⟩ := hc
  exact ⟨it', List.mem_cons_of_mem _ hit', hcarried⟩

/-- The iteration that leaves the player clean carries its state, which stays unless the player gets
dirty again. -/
theorem carried_iteration (hf : Flushed o (drainedWorld cfg w) oks w2)
    (hid : id ∈ (drainedWorld cfg w).sh.cache.inner.dirty) (hclean : id ∉ w2.sh.cache.inner.dirty)
    (hget : w'.sh.cache.get id = w2.sh.cache.get id) :
    CarriedTo o (iteration cfg w oks w2 :: its) w' id := by
  obtain ⟨call, hcall, hok, st, hst, hplayer, hcached⟩ := hf.carried hid hclean
  exact ⟨_, List.mem_cons_self, call, hcall, hok, st, hst, hplayer, hget.trans hcached⟩

/-- **Whoever was dirty and is not dirty at the end has been carried**, with its final state. -/
theorem Drain.carried (hd : Drain cfg o stalled w its w') (hclean : id ∉ w'.sh.cache.inner.dirty)
    (hdirty : ∃ it ∈ its, id ∈ it.dirty) : CarriedTo o its w' id := by
  -- the last iteration in which the player is dirty is the one whose flush carries its final state
  have hpass : ∀ {stalled : ℕ} {w w2 w' : World} {oks : List Persisted} {its : List Iteration},
      Flushed o (drainedWorld cfg w) oks w2 → Drain cfg o stalled w2 its w' →
        ((∃ it ∈ its, id ∈ it.dirty) → CarriedTo o its w' id) →
          (∃ it ∈ iteration cfg w oks w2 :: its, id ∈ it.dirty) →
            CarriedTo o (iteration cfg w oks w2 :: its) w' id := by
    intro stalled w w2 w' oks its hf hrest ih hdirty
    by_cases hlater : ∃ it ∈ its, id ∈ it.dirty
    · exact (ih hlater).cons
    · obtain ⟨it, hit, hid⟩ := hdirty
      have hnow : id ∈ (drainedWorld cfg w).sh.cache.inner.dirty := by
        rcases List.mem_cons.mp hit with rfl | hit
        · exact hid
        · exact absurd ⟨it, hit, hid⟩ hlater
      refine carried_iteration hf hnow (fun hd => hlater (hrest.dirty_entry hd)) ?_
      exact hrest.get_of_clean fun it hit hid => hlater ⟨it, hit, hid⟩
  induction hd with
  | clean =>
    obtain ⟨it, hit, hid⟩ := hdirty
    obtain rfl := List.mem_singleton.mp hit
    exact absurd hid hclean
  | progress hf hrest ih => exact hpass hf hrest (ih hclean) hdirty
  | stalled hf _ _ hrest ih => exact hpass hf hrest (ih hclean) hdirty
  | gaveUp hf =>
    obtain ⟨it, hit, hid⟩ := hdirty
    obtain rfl := List.mem_singleton.mp hit
    exact carried_iteration hf hid hclean rfl

/-- **Why a drain has ended**: nothing is left, or its last iterations were all idle, as many of them
as it takes to give up. -/
theorem Drain.reason (hd : Drain cfg o stalled w its w') (hlt : stalled < shutdownMaxStalledAttempts) :
    (w'.sh.ring = [] ∧ w'.sh.cache.inner.dirty = ∅) ∨
      ∃ before last, its = before ++ last ∧ (∀ it ∈ last, it.Idle) ∧
        (last.length = shutdownMaxStalledAttempts ∨
          (before = [] ∧ stalled + last.length = shutdownMaxStalledAttempts)) := by
  induction hd with
  | clean hring hdirty => exact Or.inl ⟨hring, hdirty⟩
  | progress hf _ ih =>
    rcases ih (by decide) with hclean | ⟨before, last, rfl, hidle, hlen⟩
    · exact Or.inl hclean
    · exact Or.inr ⟨_ :: before, last, rfl, hidle, Or.inl (by omega)⟩
  | stalled _ hone hmore _ ih =>
    rcases ih hmore with hclean | ⟨before, last, rfl, hidle, hlen | ⟨rfl, hlen⟩⟩
    · exact Or.inl hclean
    · exact Or.inr ⟨_ :: before, last, rfl, hidle, Or.inl hlen⟩
    · refine Or.inr ⟨[], _, rfl, List.forall_mem_cons.mpr ⟨hone, hidle⟩, Or.inr ⟨rfl, ?_⟩⟩
      rw [List.nil_append, List.length_cons]
      omega
  | gaveUp _ hone hmax =>
    refine Or.inr ⟨[], _, rfl, List.forall_mem_singleton.mpr hone, Or.inr ⟨rfl, ?_⟩⟩
    rw [List.length_singleton]
    omega

/-- **The final drain always ends, and for the right reason.** With any ring and cache, and whatever the
log and the store answer, it returns: either nothing is left in the ring, nobody is dirty, and whoever
was dirty at entry or after a drain has had its final cached state carried by an `Ok` of
`persist_batch`; or the last iterations, as many as it takes to give up, each drained nothing and left
as many players dirty as it found. -/
theorem finalDrain_ends (cfg : ValidConfig) (o : Oracle) (w : World) :
    ∃ its w' enough,
      (∀ fuel, enough ≤ fuel → finalDrainTrace cfg o fuel 0 w = some (its, w') ∧
        (finalDrain cfg o fuel 0 w w).map Ending.world = some w') ∧
      ((w'.sh.ring = [] ∧ w'.sh.cache.inner.dirty = ∅ ∧
          ∀ id, (id ∈ w.sh.cache.inner.dirty ∨ ∃ it ∈ its, id ∈ it.dirty) →
            CarriedTo o its w' id) ∨
        ∃ before last, its = before ++ last ∧ last.length = shutdownMaxStalledAttempts ∧
          ∀ it ∈ last, it.Idle) := by
  obtain ⟨its, w', enough, hd, hrun⟩ := exists_drain cfg o 0 w
  refine ⟨its, w', enough, fun fuel hfuel => ⟨hrun fuel hfuel, ?_⟩, ?_⟩
  · rw [← finalDrainTrace_finalDrain, hrun fuel hfuel, Option.map_some]
  rcases hd.reason (by decide) with ⟨hring, hempty⟩ | ⟨before, last, hits, hidle, hlen⟩
  · refine Or.inl ⟨hring, hempty, fun id hid => hd.carried (hempty ▸ Finset.notMem_empty id) ?_⟩
    exact hid.elim hd.dirty_entry fun hit => hit
  · refine Or.inr ⟨before, last, hits, ?_, hidle⟩
    rcases hlen with hlen | ⟨-, hlen⟩ <;> omega

end FluxThroughput.Worker.Termination
