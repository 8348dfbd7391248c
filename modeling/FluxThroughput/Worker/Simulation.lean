import FluxThroughput.Worker.FinalDrain

/-! # The worker's functions are runs of its thread

`Alone cfg sh pc sh' pc'`: the thread at `pc`, taking atomic steps with no other thread in between and
with a healthy log, leads from `sh` to `sh'` and to `pc'`. Each function of the worker is such a run of
its program counters, so what holds of all runs of the engine holds of what `final_drain` returns
(`finalDrain_alone`, `Alone.run`). -/

namespace FluxThroughput.Worker.Simulation

open FluxThroughput.Domain.Types FluxThroughput.Cache.WriteBehind FluxThroughput.Store.Mock
open FluxThroughput.Lsn.Authority FluxThroughput.Wal.Atomic FluxThroughput.Engine.Config
open FluxThroughput.Engine.Machine
open FluxThroughput.Worker.FinalDrain FluxThroughput.Lib.Transition

/-- Steps of one thread in a row. -/
inductive Alone (cfg : ValidConfig) : Shared → Pc → Shared → Pc → Prop
  | refl (sh : Shared) (pc : Pc) : Alone cfg sh pc sh pc
  | head {sh sh1 sh2 : Shared} {pc pc1 pc2 : Pc} (env : Env) (es : List Event) :
      env.append = .ok → env.checkpoint = .ok → pc.step cfg env sh = some (sh1, pc1, es) →
        Alone cfg sh1 pc1 sh2 pc2 → Alone cfg sh pc sh2 pc2

variable {cfg : ValidConfig} {o : Oracle} {sh sh' sh1 sh2 : Shared} {pc pc' pc1 pc2 : Pc}

theorem Alone.trans (h1 : Alone cfg sh pc sh1 pc1) (h2 : Alone cfg sh1 pc1 sh2 pc2) :
    Alone cfg sh pc sh2 pc2 := by
  induction h1 with
  | refl => exact h2
  | head env es ha hc hs _ ih => exact Alone.head env es ha hc hs (ih h2)

/-- A step whose answers are those of `Env.fine`. -/
theorem Alone.fine (order : List PlayerId) (es : List Event)
    (hs : pc.step cfg (Env.fine order) sh = some (sh1, pc1, es)) :
    Alone cfg sh pc sh1 pc1 := Alone.head _ es rfl rfl hs (Alone.refl _ _)

/-- **Runs of a thread alone are runs of the engine.** -/
theorem Alone.run {t : Tid} (ha : Alone cfg sh pc sh' pc') :
    ∀ {s : FluxEngine} {h : List (Tid × Event)},
      Run (system cfg) (fun _ _ a => walHealthy a) s h → s.sh = sh → s.pc t = pc →
        ∃ e, Run (system cfg) (fun _ _ a => walHealthy a)
          ⟨sh', Function.update s.pc t pc'⟩ (h ++ e) := by
  induction ha with
  | refl sh pc =>
    rintro s h hr rfl rfl
    exact ⟨[], by simpa using hr⟩
  | @head sh sh1 sh2 pc pc1 pc2 env es hap hck hs _ ih =>
    rintro s h hr rfl rfl
    have hstep : s.step cfg (.run t env) =
        some (⟨sh1, Function.update s.pc t pc1⟩, tagged t es) := by
      simp only [FluxEngine.step, hs]
    have hok : walHealthy (.run t env) := ⟨hap, hck⟩
    obtain ⟨e, hr'⟩ := ih (Run.step hr hok hstep) rfl (Function.update_self _ _ _)
    rw [Function.update_idem] at hr'
    exact ⟨tagged t es ++ e, by rwa [← List.append_assoc]⟩

/-! ### Draining -/

theorem pop_alone (cfg : ValidConfig) (k : DrainFor) : ∀ (ring got : List WriteRequest) (sh : Shared),
    sh.ring = ring → Alone cfg sh (.drainPop k got)
      { sh with ring := ring.drop (drainMax cfg k - got.length) }
      (drainNext cfg k (got ++ ring.take (drainMax cfg k - got.length)).length
        (got ++ ring.take (drainMax cfg k - got.length)))
  | ring, got, sh, hring => by
    by_cases hlt : got.length < drainMax cfg k
    · rcases ring with _ | ⟨req, ring⟩
      · have hsh : { sh with ring := [] } = sh := by rw [← hring]
        simp only [List.drop_nil, List.take_nil, List.append_nil, hsh]
        exact Alone.fine [] [] (by simp [Pc.step, hlt, hring])
      · have hstep : Pc.step cfg (Env.fine []) sh (.drainPop k got) =
            some ({ sh with ring := ring }, .drainPop k (got ++ [req]), []) := by
          simp [Pc.step, hlt, hring]
        have ih := pop_alone cfg k ring (got ++ [req]) { sh with ring := ring } rfl
        obtain ⟨m, hm⟩ : ∃ m, drainMax cfg k - got.length = m + 1 :=
          ⟨drainMax cfg k - got.length - 1, by omega⟩
        have hm' : drainMax cfg k - (got ++ [req]).length = m := by simp; omega
        rw [hm'] at ih
        rw [hm, List.drop_succ_cons, List.take_succ_cons]
        simp only [List.append_assoc, List.singleton_append] at ih
        exact Alone.head _ [] rfl rfl hstep ih
    · have hz : drainMax cfg k - got.length = 0 := by omega
      have hsh : { sh with ring := ring } = sh := by rw [← hring]
      simp only [hz, List.drop_zero, List.take_zero, List.append_nil, hsh]
      exact Alone.fine [] [] (by simp [Pc.step, hlt])

theorem apply_alone (k : DrainFor) (moved : ℕ) : ∀ (l : List WriteRequest) (sh : Shared),
    Alone cfg sh (drainNext cfg k moved l) (l.foldl drainOne sh) (drainDone cfg moved k)
  | [], _ => Alone.refl _ _
  | req :: rest, sh =>
    Alone.head (Env.fine []) [] rfl rfl rfl
      (Alone.head (Env.fine []) [] rfl rfl rfl (apply_alone k moved rest (drainOne sh req)))

theorem drain_alone (stalled : ℕ) (sh : Shared) :
    Alone cfg sh (.drainPop (.final stalled) []) (drainRingIntoCache cfg sh).2
      (.finalRing stalled (drainRingIntoCache cfg sh).1) := by
  have hpop := pop_alone cfg (.final stalled) sh.ring [] sh rfl
  exact hpop.trans (apply_alone (.final stalled) _ _ _)

/-! ### Flushing -/

theorem persist_alone (cfg : ValidConfig) (o : Oracle) (k : FlushFor) (states : List PlayerState)
    (last : Lsn) (sh : Shared) : ∀ (budget attempt n : ℕ), 0 < budget →
      attempt + budget = cfg.storeRetryLimit →
      ((persistWithRetry o.persist budget n).1 = true → Alone cfg sh
        (.persistBatch k states last attempt) { sh with table := upsert sh.table states }
        (.watermark k states.length last)) ∧
      ((persistWithRetry o.persist budget n).1 = false → Alone cfg sh
        (.persistBatch k states last attempt) sh (.requeue k states))
  | 0, _, _, hpos, _ => absurd hpos (lt_irrefl 0)
  | budget + 1, attempt, n, _, hlim => by
    rcases hp : o.persist n with _ | e
    · simp only [persistWithRetry, hp, reduceCtorEq, false_implies, and_true, forall_const]
      exact Alone.fine [] [.persisted states] rfl
    · by_cases hstop : (!e.isRetryable) = true ∨ budget = 0
      · have hstop' : (!e.isRetryable) = true ∨ cfg.storeRetryLimit ≤ attempt + 1 :=
          hstop.imp_right fun h => by omega
        simp only [persistWithRetry, hp, if_pos hstop, reduceCtorEq, false_implies, true_and,
          forall_const]
        exact Alone.head { Env.fine [] with persist := some e } [] rfl rfl
          (by simp only [Pc.step, if_pos hstop']) (Alone.refl _ _)
      · have hstop' : ¬ ((!e.isRetryable) = true ∨ cfg.storeRetryLimit ≤ attempt + 1) := by
          rw [not_or] at hstop ⊢
          exact ⟨hstop.1, by omega⟩
        have hstep : Pc.step cfg { Env.fine [] with persist := some e } sh
            (.persistBatch k states last attempt) =
            some (sh, .persistBatch k states last (attempt + 1), []) := by
          simp only [Pc.step, if_neg hstop']
        have hb : 0 < budget := Nat.pos_of_ne_zero fun h => hstop (Or.inr h)
        have ih := persist_alone cfg o k states last sh budget (attempt + 1) (n + 1) hb (by omega)
        simp only [persistWithRetry, hp, if_neg hstop]
        exact ⟨fun h => Alone.head _ [] rfl rfl hstep (ih.1 h),
          fun h => Alone.head _ [] rfl rfl hstep (ih.2 h)⟩

theorem checkpointed_alone (k : FlushFor) (count : ℕ) (last : Lsn) (sh : Shared) :
    Alone cfg sh (.watermark k count last) (checkpointed .ok sh last) (batchOk count k) := by
  unfold checkpointed
  rcases hw : sh.lsn.checkpointWatermark last with _ | safe
  · exact Alone.fine [] [] (by simp only [Pc.step, hw])
  · have hstep : (Pc.watermark k count last).step cfg (Env.fine []) sh =
        some (sh, .checkpoint k count safe, []) := by simp only [Pc.step, hw]
    exact (Alone.fine [] [] hstep).trans (Alone.fine [] [] rfl)

/-- Where a batch of the final drain leads. -/
theorem flushBatch_alone {o : Oracle} (ho : o.Healthy) (stalled drained dirtyBefore : ℕ) (w : World)
    (states : List PlayerState) :
    Alone cfg w.sh (.allocBlock (.final stalled drained dirtyBefore) states)
      (flushBatch cfg o w states).2.sh
      (if (flushBatch cfg o w states).1 then .takeDirty (.final stalled drained dirtyBefore)
        else .finalAfter stalled drained dirtyBefore) := by
  have hper := fun last sh => persist_alone cfg o (.final stalled drained dirtyBefore) states last
    sh cfg.storeRetryLimit 0 w.calls cfg.storeRetryLimit_pos (Nat.zero_add _)
  refine Alone.head (Env.fine []) [] rfl rfl rfl (Alone.head (Env.fine []) _ rfl rfl rfl ?_)
  unfold flushBatch
  rw [ho.append, ho.checkpoint]
  rcases hr : persistWithRetry o.persist cfg.storeRetryLimit w.calls with ⟨_ | _, calls⟩ <;>
    simp only [hr, reduceCtorEq, false_implies, true_implies, true_and, and_true] at hper
  · exact (hper _ _).trans (Alone.fine [] [] rfl)
  · exact (hper _ _).trans (checkpointed_alone (.final stalled drained dirtyBefore) _ _ _)

theorem flush_alone {o : Oracle} (ho : o.Healthy) (stalled drained dirtyBefore : ℕ) :
    ∀ {fuel : ℕ} {w w' : World},
    flush cfg o fuel w = some w' →
      Alone cfg w.sh (.takeDirty (.final stalled drained dirtyBefore)) w'.sh
        (.finalAfter stalled drained dirtyBefore)
  | 0, _, _, hf => by cases hf
  | fuel + 1, w, w', hf => by
    have hen := enumerates_next o w
    unfold flush at hf
    rcases hb : takeBatch cfg o w with ⟨_ | ⟨st, states⟩, w0⟩ <;> simp only [hb] at hf
    · obtain rfl := Option.some.inj hf
      obtain ⟨hnil, rfl⟩ := Prod.mk.inj hb
      exact Alone.fine (o.next w) [] ((if_pos hen).trans (if_pos hnil))
    · obtain ⟨hcons, rfl⟩ := Prod.mk.inj hb
      have hne : w.sh.cache.taken (o.next w) cfg.flushMaxBatch ≠ [] := by
        rw [hcons]; exact List.cons_ne_nil _ _
      have hstep : (Pc.takeDirty (.final stalled drained dirtyBefore)).step cfg
          (Env.fine (o.next w)) w.sh = some ((takeBatch cfg o w).2.sh,
            .allocBlock (.final stalled drained dirtyBefore)
              (w.sh.cache.taken (o.next w) cfg.flushMaxBatch), []) :=
        (if_pos hen).trans (if_neg hne)
      refine (Alone.fine (o.next w) [] hstep).trans ?_
      rw [hcons]
      refine (flushBatch_alone ho stalled drained dirtyBefore (takeBatch cfg o w).2
        (st :: states)).trans ?_
      rcases hfb : flushBatch cfg o (takeBatch cfg o w).2 (st :: states) with ⟨_ | _, w1⟩
      · simp only [takeBatch] at hfb hf
        rw [hfb] at hf
        obtain rfl := Option.some.inj hf
        exact Alone.refl _ _
      · simp only [takeBatch] at hfb hf
        rw [hfb] at hf
        exact flush_alone ho stalled drained dirtyBefore hf

/-! ### The final drain -/

/-- Where a pass leads, up to the comparison that ends it. -/
theorem finalPass_alone {o : Oracle} (ho : o.Healthy) (stalled : ℕ) {fuel : ℕ} {w w' : World}
    (hf : flushIfDirty cfg o fuel (drainedWorld cfg w) = some w')
    (hclean : ¬ ((drainedWorld cfg w).sh.ring = [] ∧ (drainedWorld cfg w).sh.cache.dirtyLen = 0)) :
    Alone cfg w.sh (.drainPop (.final stalled) []) w'.sh
      (.finalAfter stalled (drainRingIntoCache cfg w.sh).1
        (drainedWorld cfg w).sh.cache.dirtyLen) := by
  refine (drain_alone stalled w.sh).trans (Alone.head (Env.fine []) [] rfl rfl rfl ?_)
  have hclean' : ¬ ((drainedWorld cfg w).sh.ring.isEmpty = true ∧
      (drainedWorld cfg w).sh.cache.dirtyLen = 0) := by
    rwa [List.isEmpty_iff]
  unfold flushIfDirty at hf
  split_ifs at hf with hpos
  · refine Alone.head (Env.fine []) [] rfl rfl ?_
      (flush_alone ho stalled (drainRingIntoCache cfg w.sh).1
        (drainedWorld cfg w).sh.cache.dirtyLen hf)
    exact (if_neg hclean').trans (if_pos hpos)
  · obtain rfl := Option.some.inj hf
    exact Alone.fine [] [] ((if_neg hclean').trans (if_neg hpos))

/-- **`final_drain` is a run of the worker's thread**, from its first pop to its exit. -/
theorem finalDrain_alone {o : Oracle} (ho : o.Healthy) :
    ∀ {fuel stalled : ℕ} {since w : World} {ending : Ending},
    finalDrain cfg o fuel stalled since w = some ending →
      Alone cfg w.sh (.drainPop (.final stalled) []) ending.world.sh .exited
  | 0, _, _, _, _, hd => by cases hd
  | fuel + 1, stalled, since, w, ending, hd => by
    unfold finalDrain at hd
    rcases hp : finalPass cfg o fuel w with _ | p <;> simp only [hp] at hd
    · cases hd
    rcases finalPass_cases hp with ⟨hring, hdirty, rfl⟩ |
      ⟨w', hf, hclean, ⟨rfl, hprog⟩ | ⟨rfl, hdr, hno⟩⟩ <;> simp only at hd
    · obtain rfl := Option.some.inj hd
      refine (drain_alone stalled w.sh).trans (Alone.head (Env.fine []) [] rfl rfl rfl
        (Alone.fine [] [] (if_pos ⟨?_, hdirty⟩)))
      exact List.isEmpty_iff.mpr hring
    · exact ((finalPass_alone ho stalled hf hclean).trans
        (Alone.fine [] [] (if_pos hprog))).trans (finalDrain_alone ho hd)
    · have hno' : ¬ (0 < (drainRingIntoCache cfg w.sh).1 ∨
          w'.sh.cache.dirtyLen < (drainedWorld cfg w).sh.cache.dirtyLen) :=
        not_or.mpr ⟨hdr, hno⟩
      refine (finalPass_alone ho stalled hf hclean).trans ?_
      split_ifs at hd with hmax
      · obtain rfl := Option.some.inj hd
        exact Alone.fine [] [] ((if_neg hno').trans (if_pos hmax))
      · have hstep : (Pc.finalAfter stalled (drainRingIntoCache cfg w.sh).1
            (drainedWorld cfg w).sh.cache.dirtyLen).step cfg (Env.fine []) w'.sh =
              some (w'.sh, .drainPop (.final (stalled + 1)) [], []) :=
          (if_neg hno').trans (if_neg hmax)
        exact (Alone.fine [] [] hstep).trans (finalDrain_alone ho hd)

end FluxThroughput.Worker.Simulation
