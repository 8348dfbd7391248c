import FluxThroughput.Engine.Refine
import FluxThroughput.Worker.FlushPass

/-! # A call of `flush_now`

`flushNowCall` is one call of `flush_now`, an atomic call at a time, while other threads may change
everything but the ring and the cache. It first drains the ring (`Drains`); what is dirty then, it takes
and persists batch by batch (`Flushes`), until nothing is dirty or a batch fails (`Returned`).
`flush_now_exact` says that it ends, and what it has done and answered. -/

namespace FluxThroughput.Engine.FlushNow

open FluxThroughput.Domain.Types FluxThroughput.Cache FluxThroughput.Cache.WriteBehind
open FluxThroughput.Cache.Portions
open FluxThroughput.Wal.Atomic FluxThroughput.Engine.Config FluxThroughput.Engine.Machine
open FluxThroughput.Engine.Refine (buffer)
open FluxThroughput.Worker.FlushPass (Move hand)
open FluxThroughput.Lib.Transition

/-! ### The call -/

/-- What the environment answers to a step, and the events of the step. -/
abbrev Note := Env × List Event

def flushNowCall (cfg : ValidConfig) (start : Shared) : System (Shared × Pc) Move Note where
  init s := s = (start, Call.flushNow.entry.1)
  step s
    | .own env =>
      if s.2 = .idle then none
      else (s.2.step cfg env s.1).map fun x => ((x.1, x.2.1), [(env, x.2.2)])
    | .others sh => some ((sh, s.2), [])

/-- Other threads leave the ring and the cache as they are. -/
def ringAndCacheKept : Guard (Shared × Pc) Move Note := fun s _ m =>
  match m with
  | .own _ => True
  | .others sh => sh.ring = s.1.ring ∧ sh.cache = s.1.cache

/-- A call of the log or of the store fails. -/
def Faulty (env : Env) : Prop := env.append ≠ .ok ∨ env.persist ≠ none ∨ env.checkpoint ≠ .ok

/-- The batches persisted. -/
def persisted (h : List Note) : List (List PlayerState) :=
  (h.flatMap Prod.snd).filterMap fun
    | .persisted states => some states
    | _ => none

/-- The cache when the ring has been drained into it. -/
def drained (start : Shared) : WriteBehindCache := start.ring.foldl WriteBehindCache.apply start.cache

/-- What was dirty once the ring had been drained is persisted, or dirty still; `Ok` means that nothing
is, and counts it, and `Err` that a call failed. -/
structure Returned (cfg : ValidConfig) (start sh : Shared) (h : List Note) : Prop where
  ring : sh.ring = []
  portioned : Portioned (drained start) sh.cache (persisted h).flatten
  size : ∀ b ∈ persisted h, b.length ≤ cfg.flushMaxBatch
  answer : ∃ total, (h.flatMap Prod.snd).getLast? = some (.flushNowReturned total) ∧
    match total with
    | some n => sh.cache.inner.dirty = ∅ ∧ n = (drained start).dirtyLen
    | none => ∃ x ∈ h, Faulty x.1

/-! ### Where the call is -/

/-- The first drain. -/
def isDraining : Pc → Bool
  | .drainPop (.flushNow total inLoop) _ => total = 0 ∧ inLoop = false
  | .drainNote (.flushNow total inLoop) _ _ _ => total = 0 ∧ inLoop = false
  | .drainApply (.flushNow total inLoop) _ _ _ => total = 0 ∧ inLoop = false
  | _ => false

/-- In the loop, the states counted so far. -/
def counted : Pc → Option ℕ
  | .flushNowCheck total => some total
  | .drainPop (.flushNow total true) [] => some total
  | .takeDirty (.flushNow total) => some total
  | .allocBlock (.flushNow total) _ => some total
  | .appendBatch (.flushNow total) _ _ => some total
  | .persistBatch (.flushNow total) _ _ _ => some total
  | .watermark (.flushNow total) count _ => some (total + count)
  | .checkpoint (.flushNow total) count _ => some (total + count)
  | .requeue (.flushNow total) _ => some total
  | _ => none

/-- The calls that one batch may cost. -/
def perBatch (cfg : ValidConfig) : ℕ := cfg.storeRetryLimit + 8

/-- The calls that may still be made, where `dirty` is what the loop begins with. -/
def left (cfg : ValidConfig) (dirty : ℕ) (sh : Shared) : Pc → ℕ
  | .drainPop (.flushNow _ false) got =>
    4 * sh.ring.length + 3 * got.length + 1 + (dirty * perBatch cfg + 3)
  | .drainNote _ _ _ rest => 4 * sh.ring.length + 2 * rest.length + 3 + (dirty * perBatch cfg + 3)
  | .drainApply _ _ _ rest => 4 * sh.ring.length + 2 * rest.length + 2 + (dirty * perBatch cfg + 3)
  | .flushNowCheck _ => sh.cache.dirtyLen * perBatch cfg + 3
  | .drainPop _ _ => sh.cache.dirtyLen * perBatch cfg + 2
  | .takeDirty _ => sh.cache.dirtyLen * perBatch cfg + 1
  | .allocBlock _ _ => sh.cache.dirtyLen * perBatch cfg + cfg.storeRetryLimit + 8
  | .appendBatch _ _ _ => sh.cache.dirtyLen * perBatch cfg + cfg.storeRetryLimit + 7
  | .persistBatch _ _ _ attempt =>
    sh.cache.dirtyLen * perBatch cfg + (cfg.storeRetryLimit - attempt) + 6
  | .watermark _ _ _ => sh.cache.dirtyLen * perBatch cfg + 5
  | .checkpoint _ _ _ => sh.cache.dirtyLen * perBatch cfg + 4
  | .requeue _ _ => 1
  | _ => 0

/-- **The first drain**: what is to be cached is cached, popped or queued, and nothing is persisted. -/
structure Drains (cfg : ValidConfig) (start sh : Shared) (pc : Pc) (h : List Note) : Prop where
  draining : isDraining pc = true
  /-- a buffer that is not full was popped until the ring was empty -/
  short : ∀ k moved req rest, pc = .drainNote k moved req rest ∨ pc = .drainApply k moved req rest →
    moved < cfg.flushMaxBatch → sh.ring = []
  cache : (buffer pc ++ sh.ring).foldl WriteBehindCache.apply sh.cache = drained start
  nothing : persisted h = []

/-- **The loop**: what was dirty is dirty, persisted or at hand. -/
structure Flushes (cfg : ValidConfig) (start sh : Shared) (pc : Pc) (h : List Note) : Prop where
  count : counted pc = some (persisted h).flatten.length
  ring : sh.ring = []
  portioned : Portioned (drained start) sh.cache (persisted h ++ hand pc).flatten
  size : ∀ b ∈ persisted h ++ hand pc, b.length ≤ cfg.flushMaxBatch
  failing : ∀ k states, pc = .requeue k states → ∃ x ∈ h, Faulty x.1

section Steps
variable {cfg : ValidConfig} {start sh sh' : Shared} {pc pc' : Pc} {env : Env} {es : List Event}
  {h : List Note}

theorem persisted_concat (he : ∀ states, .persisted states ∉ es) :
    persisted (h ++ [(env, es)]) = persisted h := by
  have hnil : es.filterMap (fun | .persisted states => some states | _ => none) =
      ([] : List (List PlayerState)) := by
    refine List.filterMap_eq_nil_iff.mpr fun ev hev => ?_
    cases ev with
    | persisted states => exact absurd hev (he states)
    | _ => rfl
  unfold persisted
  rw [List.flatMap_append, List.filterMap_append, List.flatMap_singleton, hnil, List.append_nil]

theorem persisted_concat_batch (states : List PlayerState) :
    persisted (h ++ [(env, [.persisted states])]) = persisted h ++ [states] := by
  unfold persisted
  rw [List.flatMap_append, List.filterMap_append]
  rfl

theorem getLast_events (ev : Event) :
    ((h ++ [(env, [ev])]).flatMap Prod.snd).getLast? = some ev := by
  rw [List.flatMap_append, List.flatMap_singleton, List.getLast?_concat]

/-! ### The first drain -/

/-- The loop begins. -/
theorem flushes_begin (hcache : sh.cache = drained start) (hring : sh.ring = [])
    (hnone : persisted h = []) : Flushes cfg start sh (.flushNowCheck 0) h where
  count := by rw [hnone]; rfl
  ring := hring
  portioned := by
    rw [hnone, hcache]
    exact Portioned.refl _
  size b hb := by
    rw [hnone] at hb
    cases hb
  failing k states heq := by cases heq

/-- After a buffer has been popped, or applied in part. -/
theorem drains_next (sh : Shared) (moved : ℕ) (rest : List WriteRequest)
    (hcache : (rest ++ sh.ring).foldl WriteBehindCache.apply sh.cache = drained start)
    (hnone : persisted h = []) (hshort : moved < cfg.flushMaxBatch → sh.ring = []) :
    (Drains cfg start sh (drainNext cfg (.flushNow 0 false) moved rest) h ∨
      Flushes cfg start sh (drainNext cfg (.flushNow 0 false) moved rest) h) ∧
    left cfg (drained start).dirtyLen sh (drainNext cfg (.flushNow 0 false) moved rest) ≤
      4 * sh.ring.length + 2 * rest.length + 1 + ((drained start).dirtyLen * perBatch cfg + 3) := by
  rcases rest with _ | ⟨req, rest⟩
  · by_cases hend : moved = 0 ∨ moved < cfg.flushMaxBatch
    · have hpos := cfg.flushMaxBatch_pos
      have hring : sh.ring = [] := hshort (by omega)
      have hnext : drainNext cfg (.flushNow 0 false) moved [] = .flushNowCheck 0 := by
        simp [drainNext, drainDone, hend]
      rw [hring] at hcache
      have hdrained : sh.cache = drained start := hcache
      rw [hnext]
      refine ⟨Or.inr (flushes_begin hdrained hring hnone), ?_⟩
      simp only [left]
      rw [hdrained]
      omega
    · have hnext : drainNext cfg (.flushNow 0 false) moved [] = .drainPop (.flushNow 0 false) [] := by
        simp [drainNext, drainDone, hend]
      rw [hnext]
      refine ⟨Or.inl ⟨rfl, fun k moved req rest heq => ?_, hcache, hnone⟩, ?_⟩
      · rcases heq with heq | heq <;> cases heq
      · simp only [left, List.length_nil]
        omega
  · refine ⟨Or.inl ⟨rfl, fun k moved' req' rest' heq hlt => ?_, hcache, hnone⟩, ?_⟩
    · rcases heq with heq | heq <;> cases heq
      exact hshort hlt
    · simp only [drainNext, left, List.length_cons]
      omega

/-- **A step of the first drain.** -/
theorem Drains.step (hd : Drains cfg start sh pc h) (hs : pc.step cfg env sh = some (sh', pc', es)) :
    (Drains cfg start sh' pc' (h ++ [(env, es)]) ∨ Flushes cfg start sh' pc' (h ++ [(env, es)])) ∧
      left cfg (drained start).dirtyLen sh' pc' < left cfg (drained start).dirtyLen sh pc := by
  obtain ⟨hpc, hshort, hcache, hnone⟩ := hd
  cases pc with
  | drainPop k got =>
    cases k with
    | steady | final => cases hpc
    | flushNow total inLoop =>
      obtain ⟨rfl, rfl⟩ := of_decide_eq_true hpc
      simp only [Pc.step] at hs
      split at hs
      · rcases hr : sh.ring with _ | ⟨req, ring⟩ <;>
          simp only [hr, Option.some.injEq, Prod.mk.injEq] at hs <;> obtain ⟨rfl, rfl, rfl⟩ := hs
        · have hnone' : persisted (h ++ [(env, [])]) = [] := by
            rw [persisted_concat (by simp), hnone]
          obtain ⟨hnext, hle⟩ := drains_next sh got.length got hcache hnone' fun _ => hr
          refine ⟨hnext, ?_⟩
          rcases got with _ | ⟨req, got⟩
          · have hdone : drainNext cfg (.flushNow 0 false) ([] : List WriteRequest).length [] =
                .flushNowCheck 0 := by simp [drainNext, drainDone]
            rw [hr] at hcache
            have hdrained : sh.cache = drained start := hcache
            rw [hdone]
            simp only [left]
            rw [hdrained]
            omega
          · refine hle.trans_lt ?_
            simp only [left, List.length_cons]
            omega
        · refine ⟨Or.inl ⟨rfl, fun k moved req rest heq => ?_, ?_, ?_⟩, ?_⟩
          · rcases heq with heq | heq <;> cases heq
          · rw [hr] at hcache
            simpa only [buffer, List.append_assoc, List.singleton_append] using hcache
          · rw [persisted_concat (by simp), hnone]
          · simp only [left, hr, List.length_append, List.length_cons, List.length_nil]
            omega
      · rename_i hfull
        simp only [Option.some.injEq, Prod.mk.injEq] at hs
        obtain ⟨rfl, rfl, rfl⟩ := hs
        have hpos := cfg.flushMaxBatch_pos
        have hmax : drainMax cfg (.flushNow 0 false) = cfg.flushMaxBatch := rfl
        rw [hmax] at hfull
        have hnone' : persisted (h ++ [(env, [])]) = [] := by
          rw [persisted_concat (by simp), hnone]
        obtain ⟨hnext, hle⟩ := drains_next sh got.length got hcache hnone'
          fun hlt => absurd hlt hfull
        refine ⟨hnext, hle.trans_lt ?_⟩
        simp only [left]
        omega
  | drainNote k moved req rest =>
    cases k with
    | steady | final => cases hpc
    | flushNow total inLoop =>
      obtain ⟨rfl, rfl⟩ := of_decide_eq_true hpc
      cases hs
      refine ⟨Or.inl ⟨rfl, fun k' moved' req' rest' heq hlt => ?_, hcache, ?_⟩, ?_⟩
      · rcases heq with heq | heq <;> cases heq
        exact hshort _ _ _ _ (Or.inl rfl) hlt
      · rw [persisted_concat (by simp), hnone]
      · simp only [left]
        omega
  | drainApply k moved req rest =>
    cases k with
    | steady | final => cases hpc
    | flushNow total inLoop =>
      obtain ⟨rfl, rfl⟩ := of_decide_eq_true hpc
      cases hs
      have hnone' : persisted (h ++ [(env, [])]) = [] := by
        rw [persisted_concat (by simp), hnone]
      obtain ⟨hnext, hle⟩ := drains_next { sh with cache := sh.cache.apply req } moved rest hcache
        hnone' fun hlt => hshort _ _ _ _ (Or.inr rfl) hlt
      refine ⟨hnext, hle.trans_lt ?_⟩
      simp only [left]
      omega
  | _ => cases hpc

/-! ### The loop -/

/-- With nothing dirty, everything that was is out. -/
theorem length_of_portioned {before c : WriteBehindCache} {out : List PlayerState}
    (hp : Portioned before c out) (hclean : c.inner.dirty = ∅) : out.length = before.dirtyLen := by
  have hset : before.inner.dirty = (playerIds out).toFinset := by
    ext id
    rw [hp.split id, hclean, List.mem_toFinset]
    simp
  rw [WriteBehindCache.dirtyLen, hset, List.toFinset_card_of_nodup hp.once, playerIds, List.length_map]

/-- The call returns `Ok`. -/
theorem Flushes.ok (hf : Flushes cfg start sh pc h) {total : ℕ}
    (htotal : counted pc = some total) {c : WriteBehindCache} (hclean : c.inner.dirty = ∅)
    (hp : Portioned (drained start) c (persisted h).flatten) (env : Env) :
    Returned cfg start { sh with cache := c } (h ++ [(env, [.flushNowReturned (some total)])]) where
  ring := hf.ring
  portioned := by rwa [persisted_concat (by simp)]
  size b hb := by
    rw [persisted_concat (by simp)] at hb
    exact hf.size b (List.mem_append_left _ hb)
  answer := by
    refine ⟨some total, getLast_events _, hclean, ?_⟩
    rw [← length_of_portioned hp hclean]
    exact Option.some.inj (htotal.symm.trans hf.count)

/-- The call returns `Err`. -/
theorem Flushes.err (hf : Flushes cfg start sh pc h) (wal : Log) {c : WriteBehindCache}
    (hp : Portioned (drained start) c (persisted h).flatten)
    (hfaulty : ∃ x ∈ h ++ [(env, [.flushNowReturned none])], Faulty x.1) :
    Returned cfg start { sh with cache := c, wal := wal }
      (h ++ [(env, [.flushNowReturned none])]) where
  ring := hf.ring
  portioned := by rwa [persisted_concat (by simp)]
  size b hb := by
    rw [persisted_concat (by simp)] at hb
    exact hf.size b (List.mem_append_left _ hb)
  answer := ⟨none, getLast_events _, hfaulty⟩

/-- A step that goes on with the batch at hand. -/
theorem Flushes.carry (hf : Flushes cfg start sh pc h) (hcount : counted pc' = counted pc)
    (hring : sh'.ring = sh.ring) (hcache : sh'.cache = sh.cache) (hhand : hand pc' = hand pc)
    (he : ∀ states, .persisted states ∉ es) (hfail : ∀ k states, pc' = .requeue k states → Faulty env) :
    Flushes cfg start sh' pc' (h ++ [(env, es)]) where
  count := by rw [persisted_concat he, hcount, hf.count]
  ring := hring.trans hf.ring
  portioned := by
    rw [persisted_concat he, hcache, hhand]
    exact hf.portioned
  size b hb := by
    rw [persisted_concat he, hhand] at hb
    exact hf.size b hb
  failing k states heq :=
    ⟨(env, es), List.mem_append_right _ (List.mem_singleton_self _), hfail k states heq⟩

/-- **A step of the loop.** -/
theorem Flushes.step (hf : Flushes cfg start sh pc h)
    (hs : pc.step cfg env sh = some (sh', pc', es)) :
    (Flushes cfg start sh' pc' (h ++ [(env, es)]) ∨
        (pc' = .idle ∧ Returned cfg start sh' (h ++ [(env, es)]))) ∧
      left cfg (drained start).dirtyLen sh' pc' < left cfg (drained start).dirtyLen sh pc := by
  have hcount := hf.count
  have hp := hf.portioned
  cases pc with
  | flushNowCheck total =>
    simp only [hand, List.append_nil] at hp
    simp only [Pc.step] at hs
    split at hs <;> simp only [Option.some.injEq, Prod.mk.injEq] at hs <;> obtain ⟨rfl, rfl, rfl⟩ := hs
    · refine ⟨Or.inl (hf.carry rfl rfl rfl rfl (by simp) fun _ _ heq => by cases heq), ?_⟩
      simp only [left]
      omega
    · rename_i hzero
      have hclean : sh.cache.inner.dirty = ∅ := Finset.card_eq_zero.mp (Nat.eq_zero_of_not_pos hzero)
      refine ⟨Or.inr ⟨rfl, hf.ok rfl hclean hp env⟩, ?_⟩
      simp only [left]
      omega
  | drainPop k got =>
    obtain ⟨total, rfl, rfl⟩ : ∃ total, k = .flushNow total true ∧ got = [] := by
      cases k with
      | steady | final => cases hcount
      | flushNow total inLoop =>
        rcases inLoop with _ | _
        · cases hcount
        · rcases got with _ | ⟨req, got⟩
          · exact ⟨total, rfl, rfl⟩
          · cases hcount
    have hpos : ([] : List WriteRequest).length < drainMax cfg (.flushNow total true) :=
      cfg.flushMaxBatch_pos
    simp only [Pc.step, if_pos hpos, hf.ring] at hs
    cases hs
    have hnext : drainNext cfg (.flushNow total true) ([] : List WriteRequest).length [] =
        .takeDirty (.flushNow total) := by simp [drainNext, drainDone]
    rw [hnext]
    refine ⟨Or.inl (hf.carry rfl rfl rfl rfl (by simp) fun _ _ heq => by cases heq), ?_⟩
    simp only [left]
    omega
  | takeDirty k =>
    cases k with
    | steady | final => cases hcount
    | flushNow total =>
      simp only [hand, List.append_nil] at hp
      simp only [Pc.step] at hs
      split at hs
      · rename_i ho
        have hp' := hp.take ho cfg.flushMaxBatch
        split at hs <;> simp only [Option.some.injEq, Prod.mk.injEq] at hs <;>
          obtain ⟨rfl, rfl, rfl⟩ := hs
        · rename_i hnil
          have hdirty := WriteBehindCache.dirty_eq_empty_of_taken ho cfg.flushMaxBatch_pos hnil
          rw [hnil, List.append_nil] at hp'
          have hclean : (sh.cache.takeDirty env.order cfg.flushMaxBatch).inner.dirty = ∅ := by
            rw [Finset.eq_empty_iff_forall_notMem]
            intro id hid
            have hwas := (((History.takes ho _).clean id).mp hid).1
            rw [hdirty] at hwas
            exact Finset.notMem_empty id hwas
          refine ⟨Or.inr ⟨rfl, hf.ok rfl hclean hp' env⟩, ?_⟩
          simp only [left, flushEnd]
          omega
        · rename_i hne
          have hlt := dirtyLen_takeDirty ho hne
          refine ⟨Or.inl ⟨?_, hf.ring, ?_, fun b hb => ?_, fun k states heq => by cases heq⟩, ?_⟩
          · rw [persisted_concat (by simp), ← hcount]
            rfl
          · rw [persisted_concat (by simp)]
            simpa only [hand, List.flatten_append, List.flatten_singleton] using hp'
          · rw [persisted_concat (by simp)] at hb
            rcases List.mem_append.mp hb with hb | hb
            · exact hf.size b (List.mem_append_left _ hb)
            · rw [List.mem_singleton.mp hb, (History.takes ho _).length]
              exact Nat.min_le_left _ _
          · have hmul := Nat.mul_le_mul_right (perBatch cfg) hlt
            simp only [left, perBatch, Nat.add_mul, Nat.one_mul, Nat.succ_eq_add_one] at hmul ⊢
            omega
      · cases hs
  | allocBlock k states =>
    cases k with
    | steady | final => cases hcount
    | flushNow total =>
      cases hs
      refine ⟨Or.inl (hf.carry rfl rfl rfl rfl (by simp) fun _ _ heq => by cases heq), ?_⟩
      simp only [left]
      omega
  | appendBatch k states records =>
    cases k with
    | steady | final => cases hcount
    | flushNow total =>
      simp only [Pc.step] at hs
      rcases ha : env.append with _ | ⟨landed, torn⟩ <;>
        simp only [ha, Option.some.injEq, Prod.mk.injEq] at hs <;> obtain ⟨rfl, rfl, rfl⟩ := hs
      · refine ⟨Or.inl (hf.carry rfl rfl rfl rfl (by simp) fun _ _ heq => by cases heq), ?_⟩
        simp only [left]
        omega
      · have hfaulty : Faulty env := Or.inl (by rw [ha]; exact AppendOutcome.noConfusion)
        refine ⟨Or.inl (hf.carry rfl rfl rfl rfl (by simp) fun _ _ _ => hfaulty), ?_⟩
        simp only [left]
        omega
  | persistBatch k states last attempt =>
    cases k with
    | steady | final => cases hcount
    | flushNow total =>
      simp only [Pc.step] at hs
      rcases hx : env.persist with _ | e
      · simp only [hx, Option.some.injEq, Prod.mk.injEq] at hs
        obtain ⟨rfl, rfl, rfl⟩ := hs
        refine ⟨Or.inl ⟨?_, hf.ring, ?_, fun b hb => ?_, fun k states heq => by cases heq⟩, ?_⟩
        · rw [persisted_concat_batch, List.flatten_append, List.length_append]
          have htotal : total = (persisted h).flatten.length := Option.some.inj hcount
          simp [counted, htotal]
        · rw [persisted_concat_batch]
          simpa only [hand, List.append_nil] using hp
        · rw [persisted_concat_batch] at hb
          exact hf.size b (by simpa only [hand, List.append_nil] using hb)
        · simp only [left]
          omega
      · have hfaulty : Faulty env := Or.inr (Or.inl (by rw [hx]; exact Option.some_ne_none e))
        simp only [hx] at hs
        split at hs <;> simp only [Option.some.injEq, Prod.mk.injEq] at hs <;>
          obtain ⟨rfl, rfl, rfl⟩ := hs
        · refine ⟨Or.inl (hf.carry rfl rfl rfl rfl (by simp) fun _ _ _ => hfaulty), ?_⟩
          simp only [left]
          omega
        · rename_i hgo
          refine ⟨Or.inl (hf.carry rfl rfl rfl rfl (by simp) fun _ _ _ => hfaulty), ?_⟩
          have hlt : attempt + 1 < cfg.storeRetryLimit := by
            by_contra hle
            exact hgo (Or.inr (not_lt.mp hle))
          simp only [left]
          omega
  | watermark k count last =>
    cases k with
    | steady | final => cases hcount
    | flushNow total =>
      simp only [Pc.step] at hs
      split at hs <;> simp only [Option.some.injEq, Prod.mk.injEq] at hs <;>
        obtain ⟨rfl, rfl, rfl⟩ := hs
      · refine ⟨Or.inl (hf.carry rfl rfl rfl rfl (by simp) fun _ _ heq => by cases heq), ?_⟩
        simp only [left]
        omega
      · refine ⟨Or.inl (hf.carry rfl rfl rfl rfl (by simp) fun _ _ heq => by cases heq), ?_⟩
        simp only [left, batchOk]
        omega
  | checkpoint k count safe =>
    cases k with
    | steady | final => cases hcount
    | flushNow total =>
      simp only [hand, List.append_nil] at hp
      simp only [Pc.step] at hs
      rcases hx : env.checkpoint <;> simp only [hx, Option.some.injEq, Prod.mk.injEq] at hs <;>
        obtain ⟨rfl, rfl, rfl⟩ := hs
      · refine ⟨Or.inl (hf.carry rfl rfl rfl rfl (by simp) fun _ _ heq => by cases heq), ?_⟩
        simp only [left, batchOk]
        omega
      · have hfaulty : Faulty env := Or.inr (Or.inr (by rw [hx]; exact CheckpointOutcome.noConfusion))
        refine ⟨Or.inr ⟨rfl, hf.err sh.wal hp
          ⟨_, List.mem_append_right _ (List.mem_singleton_self _), hfaulty⟩⟩, ?_⟩
        simp only [left, checkpointFailed]
        omega
      · have hfaulty : Faulty env := Or.inr (Or.inr (by rw [hx]; exact CheckpointOutcome.noConfusion))
        refine ⟨Or.inr ⟨rfl, hf.err _ (c := sh.cache) hp
          ⟨_, List.mem_append_right _ (List.mem_singleton_self _), hfaulty⟩⟩, ?_⟩
        simp only [left, checkpointFailed]
        omega
  | requeue k states =>
    cases k with
    | steady | final => cases hcount
    | flushNow total =>
      cases hs
      simp only [hand, List.flatten_append, List.flatten_singleton] at hp
      obtain ⟨x, hx, hfaulty⟩ := hf.failing _ _ rfl
      refine ⟨Or.inr ⟨rfl, hf.err sh.wal hp.putBack
        ⟨x, List.mem_append_left _ hx, hfaulty⟩⟩, ?_⟩
      simp only [left, batchFailed]
      omega
  | _ => cases hcount

end Steps

/-! ### The whole call -/

section Calls
variable {cfg : ValidConfig} {start sh sh' : Shared} {pc pc' : Pc} {env : Env} {h : List Note}

/-- **What every step of the call keeps.** -/
structure Kept (cfg : ValidConfig) (start sh : Shared) (pc : Pc) (h : List Note) : Prop where
  stage : Drains cfg start sh pc h ∨ Flushes cfg start sh pc h ∨
    (pc = .idle ∧ Returned cfg start sh h)
  cost : h.length + left cfg (drained start).dirtyLen sh pc ≤
    4 * start.ring.length + (drained start).dirtyLen * perBatch cfg + 4

theorem Drains.exists_step (hd : Drains cfg start sh pc h) : (pc.step cfg env sh).isSome = true := by
  have hpc := hd.draining
  cases pc with
  | drainPop k got =>
    simp only [Pc.step]
    repeat' split
    all_goals rfl
  | drainNote | drainApply => rfl
  | _ => cases hpc

theorem Flushes.exists_step (hf : Flushes cfg start sh pc h)
    (ho : Inner.Enumerates env.order sh.cache.inner.dirty) : (pc.step cfg env sh).isSome = true := by
  have hcount := hf.count
  cases pc with
  | allocBlock | requeue => rfl
  | takeDirty k =>
    simp only [Pc.step, if_pos ho]
    split_ifs <;> rfl
  | drainPop k got =>
    simp only [Pc.step]
    repeat' split
    all_goals rfl
  | flushNowCheck | appendBatch | persistBatch | watermark | checkpoint =>
    simp only [Pc.step]
    repeat' split
    all_goals rfl
  | _ => cases hcount

/-- Other threads' steps are not seen. -/
theorem Kept.others (hk : Kept cfg start sh pc h) (hring : sh'.ring = sh.ring)
    (hcache : sh'.cache = sh.cache) : Kept cfg start sh' pc h := by
  have hleft : left cfg (drained start).dirtyLen sh' pc = left cfg (drained start).dirtyLen sh pc := by
    unfold left
    rw [hring, hcache]
  refine ⟨?_, by rw [hleft]; exact hk.cost⟩
  rcases hk.stage with ⟨h1, h2, h3, h4⟩ | ⟨h1, h2, h3, h4, h5⟩ | ⟨h0, h1, h2, h3, h4⟩
  · exact Or.inl ⟨h1, by rw [hring]; exact h2, by rw [hring, hcache]; exact h3, h4⟩
  · exact Or.inr (Or.inl ⟨h1, hring.trans h2, by rw [hcache]; exact h3, h4, h5⟩)
  · exact Or.inr (Or.inr ⟨h0, hring.trans h1, by rw [hcache]; exact h2, h3,
      by rw [hcache]; exact h4⟩)

theorem Kept.own (hk : Kept cfg start sh pc h) (hne : pc ≠ .idle) {es : List Event}
    (hs : pc.step cfg env sh = some (sh', pc', es)) : Kept cfg start sh' pc' (h ++ [(env, es)]) := by
  have hcost := hk.cost
  rcases hk.stage with hd | hf | ⟨hidle, -⟩
  · obtain ⟨hstage, hlt⟩ := hd.step hs
    refine ⟨hstage.imp_right Or.inl, ?_⟩
    rw [List.length_append, List.length_singleton]
    omega
  · obtain ⟨hstage, hlt⟩ := hf.step hs
    refine ⟨Or.inr hstage, ?_⟩
    rw [List.length_append, List.length_singleton]
    omega
  · exact absurd hidle hne

theorem run_kept {s : Shared × Pc} (hr : Run (flushNowCall cfg start) ringAndCacheKept s h) :
    Kept cfg start s.1 s.2 h := by
  refine hr.invariant (I := fun s h => Kept cfg start s.1 s.2 h) ?_ ?_
  · rintro s rfl
    refine ⟨Or.inl ⟨rfl, fun k moved req rest heq => ?_, rfl, rfl⟩, ?_⟩
    · rcases heq with heq | heq <;> cases heq
    · simp only [Call.entry, left, List.length_nil]
      omega
  · rintro s h m s' e - hk hok hs
    cases m with
    | own env =>
      simp only [flushNowCall] at hs
      split_ifs at hs with hidle
      obtain ⟨⟨sh', pc', es⟩, hstep, heq⟩ := Option.map_eq_some_iff.mp hs
      cases heq
      exact hk.own hidle hstep
    | others sh =>
      cases hs
      rw [List.append_nil]
      exact hk.others hok.1 hok.2

/-- **A call of `flush_now`**, with no other thread at the ring or the cache. Whatever the order of the
index, the log and the store answer: it makes a bounded number of calls and is never stuck; and when it
returns, the ring is empty, and every player that was dirty or in the ring is persisted or dirty still.
`Ok` counts them all, and `Err` is a call that failed. -/
theorem flush_now_exact {s : Shared × Pc}
    (hr : Run (flushNowCall cfg start) ringAndCacheKept s h) :
    h.length ≤ 4 * start.ring.length + (drained start).dirtyLen * (cfg.storeRetryLimit + 8) + 4 ∧
    (s.2 ≠ .idle → ∀ env, Inner.Enumerates env.order s.1.cache.inner.dirty →
      ((flushNowCall cfg start).step s (.own env)).isSome = true) ∧
    (s.2 = .idle → Returned cfg start s.1 h) := by
  have hk := run_kept hr
  refine ⟨(Nat.le_add_right _ _).trans hk.cost, fun hne env ho => ?_, fun hidle => ?_⟩
  · simp only [flushNowCall, if_neg hne, Option.isSome_map]
    rcases hk.stage with hd | hf | ⟨hidle, -⟩
    · exact hd.exists_step
    · exact hf.exists_step ho
    · exact absurd hidle hne
  · rcases hk.stage with hd | hf | ⟨-, hret⟩
    · have hpc := hd.draining
      rw [hidle] at hpc
      cases hpc
    · have hcount := hf.count
      rw [hidle] at hcount
      cases hcount
    · exact hret

/-- Two requests in the ring. -/
def twoQueued : Shared :=
  { (Machine.start Log.empty fun _ => none).sh with
    ring := [⟨7, 1, [], 1⟩, ⟨8, 1, [], 2⟩] }

/-- Batches of one: the first is persisted, the second fails. -/
theorem flush_now_exact_failing : ∃ s h,
    Run (flushNowCall oneByOne twoQueued) ringAndCacheKept s h ∧ s.2 = .idle ∧
    persisted h = [[⟨7, 1, []⟩]] ∧ s.1.cache.inner.dirty = {8} ∧ Returned oneByOne twoQueued s.1 h := by
  obtain ⟨s, h, hr, hp⟩ := exists_run_of_exec (flushNowCall oneByOne twoQueued) ringAndCacheKept
    (fun _ _ m => match m with | .own _ => true | .others _ => false)
    (fun s h m hm => by cases m with | own env => trivial | others sh => cases hm)
    (twoQueued, Call.flushNow.entry.1)
    (List.replicate 19 (Move.own (Env.fine [7, 8])) ++ List.replicate 3 (Move.own (Env.fine [8])) ++
      [Move.own { Env.fine [] with persist := some (.fatal "refused") }, .own (Env.fine [])])
    (fun x => decide (x.1.2 = .idle ∧ persisted x.2 = [[⟨7, 1, []⟩]] ∧
      x.1.1.cache.inner.dirty = {8})) rfl (by decide +kernel)
  obtain ⟨hidle, hpers, hdirty⟩ := of_decide_eq_true hp
  exact ⟨s, h, hr, hidle, hpers, hdirty, (flush_now_exact hr).2.2 hidle⟩

end Calls

end FluxThroughput.Engine.FlushNow
