import FluxThroughput.Engine.Order
import FluxThroughput.Store.Converge
import FluxThroughput.Store.Redis

/-! # The engine over Redis

`RedisStore` replaces what it holds without comparing versions, so it can stand in for a store that
compares them only while the versions it is given are in order. After every batch of a run it serves what
`MockDb` serves, if and only if the run persists no overtaken batch (`redis_agrees_iff`); the worker
alone never does (`redis_agrees_without_flush_now`). -/

namespace FluxThroughput.Engine.Redis

open FluxThroughput.Domain.Types FluxThroughput.Lib.Transition FluxThroughput.Lib.LastWriteWins
open FluxThroughput.Wal.Atomic
open FluxThroughput.Store.Mock FluxThroughput.Store.Converge FluxThroughput.Store.Redis
open FluxThroughput.Engine.Config FluxThroughput.Engine.Machine FluxThroughput.Engine.NoLoss
open FluxThroughput.Engine.Events FluxThroughput.Engine.Order

/-! ### The batches of a run -/

/-- The calls of `persist_batch` that returned `Ok`, in order. -/
def batches (h : List (Tid × Event)) : List (List PlayerState) :=
  h.filterMap fun
    | (_, .persisted states) => some states
    | _ => none

theorem mem_batches {h : List (Tid × Event)} {b : List PlayerState} :
    b ∈ batches h ↔ ∃ t, (t, .persisted b) ∈ h := by
  unfold batches
  rw [List.mem_filterMap]
  constructor
  · rintro ⟨⟨t, ev⟩, hmem, heq⟩
    cases ev <;> cases heq
    exact ⟨t, hmem⟩
  · rintro ⟨t, hmem⟩
    exact ⟨_, hmem, rfl⟩

theorem batches_flatten : ∀ h : List (Tid × Event), (batches h).flatten = persistedStates h
  | [] => rfl
  | (t, ev) :: h => by
    have hcons : persistedStates ((t, ev) :: h) = persistedStates [(t, ev)] ++ persistedStates h :=
      persistedStates_append [(t, ev)] h
    rw [hcons, ← batches_flatten h]
    cases ev with
    | persisted states =>
      have hone : persistedStates [(t, .persisted states)] = states := List.append_nil states
      rw [hone]
      rfl
    | _ => rfl

/-- **A batch carries one version of each player.** -/
theorem oneVersion_of_run {cfg : ValidConfig} {w : World} {h : List (Tid × Event)}
    (hr : Run (watched cfg) anyStep w h) : ∀ b ∈ batches h, OneVersion stateVersioned b := by
  refine hr.invariant (I := fun _ h => ∀ b ∈ batches h, OneVersion stateVersioned b)
    (fun _ _ b hb => (by cases hb)) ?_
  intro w h a w' e hr ih _ hs b hb
  obtain ⟨u, hmem⟩ := mem_batches.mp hb
  rcases List.mem_append.mp hmem with hold | hnew
  · exact ih b (mem_batches.mpr ⟨u, hold⟩)
  have hstates : ∀ st ∈ b, st ∈ persistedStates e := fun st hst =>
    List.mem_flatMap.mpr ⟨_, hnew, hst⟩
  obtain ⟨hengine, -⟩ := world_step hs
  rcases step_cases hengine with ⟨n, c, -, -, rfl, -⟩ | ⟨t, env, sh, pc, es, rfl, hstep, rfl, -⟩ |
    ⟨-, rfl, -⟩
  · intro x hx
    have hnone := hstates x hx
    rw [persistedStates_entry] at hnone
    cases hnone
  · intro x hx y hy hkey
    have hwx := given_step hstep (mem_given.mpr ⟨x, hstates x hx, rfl, rfl⟩)
    have hwy := given_step hstep (mem_given.mpr ⟨y, hstates y hy, rfl, rfl⟩)
    exact (run_inv hr).single t _ hwx _ hwy hkey
  · cases hnew

/-! ### Both stores, given the same batches -/

/-- `MockDb` without faults upserts every batch. -/
theorem table_persistAll (bs : List (List PlayerState)) :
    (Store.Converge.run MockDb.new (bs.map Op.persistBatch)).table =
      bs.flatten.foldl (put stateVersioned) (fun _ => none) := by
  have hrun : ∀ (bs : List (List PlayerState)) (db : MockDb), db.healthy = true → db.failNext = 0 →
      db.failEvery = 0 → (Store.Converge.run db (bs.map Op.persistBatch)).table =
        bs.flatten.foldl (put stateVersioned) db.table := by
    intro bs
    induction bs with
    | nil => exact fun _ _ _ _ => rfl
    | cons b bs ih =>
      intro db hhealthy hnext hevery
      obtain ⟨hhealthy', hnext', hevery', htable⟩ : (db.persistBatch b).2.healthy = true ∧
          (db.persistBatch b).2.failNext = 0 ∧ (db.persistBatch b).2.failEvery = 0 ∧
          (db.persistBatch b).2.table = upsert db.table b := by
        simp [MockDb.persistBatch, hhealthy, hnext, hevery]
      have hstep : Store.Converge.run db ((b :: bs).map Op.persistBatch) =
          Store.Converge.run (db.persistBatch b).2 (bs.map Op.persistBatch) := rfl
      rw [hstep, ih _ hhealthy' hnext' hevery', htable, List.flatten_cons, List.foldl_append, upsert_eq]
  exact hrun bs MockDb.new rfl rfl rfl

/-- The two stores serve the same after every prefix of the batches. -/
def Agree (bs : List (List PlayerState)) : Prop :=
  ∀ cs, cs <+: bs → ∀ id, ((persistAll { conn := FakeRedis.new } cs).load id).1 =
    (Store.Converge.run MockDb.new (cs.map Op.persistBatch)).table id

theorem agree_iff_inOrder {h : List (Tid × Event)}
    (hone : ∀ b ∈ batches h, OneVersion stateVersioned b) : Agree (batches h) ↔ Order.InOrder h := by
  have hiff := overwrite_agrees_iff hone
  rw [batches_flatten] at hiff
  refine Iff.trans (forall₂_congr fun cs _ => ?_) hiff
  have hredis : (fun id => ((persistAll { conn := FakeRedis.new } cs).load id).1) =
      cs.flatten.foldl (overwrite stateVersioned) (fun _ => none) := by
    rw [← stored_new]
    exact stored_persistAll cs { conn := FakeRedis.new }
  rw [← hredis, ← table_persistAll]
  exact ⟨fun hall => funext hall, fun heq => congrFun heq⟩

/-! ### The results -/

/-- **Redis can stand in for `MockDb`** in a run, if and only if no batch is persisted that has been
overtaken since it was taken. -/
theorem redis_agrees_iff {cfg : ValidConfig} {s : FluxEngine} {h : List (Tid × Event)}
    (hr : Run (system cfg) anyStep s h) :
    Agree (batches h) ↔ ∃ overtaken, Run (watched cfg) notOvertaken ⟨s, overtaken⟩ h := by
  obtain ⟨overtaken, hw⟩ := exists_watched hr
  rw [agree_iff_inOrder (oneVersion_of_run hw)]
  constructor
  · intro hord
    exact ⟨overtaken, run_of_inOrder hw hord⟩
  · rintro ⟨overtaken', hw'⟩
    exact inOrder_of_run hw'

/-- The worker holds version 1 in a retry while version 2 is flushed, and then persists it: Redis goes back
to version 1. -/
theorem redis_agrees_iff_overtaken : ∃ s h, Run (system oneByOne) anyStep s h ∧
    batches h = [[⟨7, 2, []⟩], [⟨7, 1, []⟩]] ∧ ¬ Agree (batches h) ∧
      ¬ ∃ overtaken, Run (watched oneByOne) notOvertaken ⟨s, overtaken⟩ h := by
  obtain ⟨s, h, hr, hp⟩ := exists_run_of_exec (system oneByOne) anyStep (fun _ _ _ => true)
    (fun _ _ _ _ => trivial) (start Log.empty fun _ => none)
    (retrying ++ flushed ++ [.run .worker (.fine [7])])
    (fun x => decide (batches x.2 = [[⟨7, 2, []⟩], [⟨7, 1, []⟩]]))
    ⟨_, _, rfl⟩ (by decide +kernel)
  have hbatches := of_decide_eq_true hp
  have hdiffer : ¬ Agree (batches h) := by
    intro hagree
    have hload := hagree _ (List.prefix_refl _) 7
    rw [hbatches] at hload
    exact absurd hload (by decide +kernel)
  exact ⟨s, h, hr, hbatches, hdiffer, fun hex => hdiffer ((redis_agrees_iff hr).mpr hex)⟩

/-- No client calls `flush_now`. -/
def noFlushNow : Guard FluxEngine Machine.Action (Tid × Event) := fun _ _ a =>
  ∀ n, a ≠ .call n .flushNow

/-- **The worker is not overtaken** where it is the only one that flushes. -/
theorem worker_not_overtaken {cfg : ValidConfig} {s : FluxEngine} {h : List (Tid × Event)}
    (hr : Run (system cfg) noFlushNow s h) :
    ∃ overtaken, Run (watched cfg) notOvertaken ⟨s, overtaken⟩ h ∧ overtaken .worker = [] ∧
      ∀ n, isSubmitting (s.pc (.client n)) := by
  induction hr with
  | init hinit =>
    refine ⟨fun _ => [], Run.init ⟨hinit, rfl⟩, rfl, fun n => ?_⟩
    obtain ⟨wal, table, rfl⟩ := hinit
    trivial
  | @step s s' h e a _ hok hs ih =>
    obtain ⟨overtaken, hw, hnone, hclients⟩ := ih
    have hstep : s.step cfg a = some (s', e) := hs
    have hworld : World.step cfg ⟨s, overtaken⟩ a =
        some (⟨s', World.marks ⟨s, overtaken⟩ s' e a⟩, e) := by
      rw [World.step, hstep]
      rfl
    have hguard : notOvertaken ⟨s, overtaken⟩ h a := by
      rintro t env k states last attempt rfl hpc -
      cases t with
      | worker => exact hnone
      | client n =>
        have hsub := hclients n
        have hpc' : s.pc (.client n) = .persistBatch k states last attempt := hpc
        rw [hpc'] at hsub
        exact hsub.elim
    refine ⟨_, Run.step hw hguard hworld, ?_, fun n => ?_⟩
    · rcases step_cases hstep with ⟨n, c, rfl, -⟩ | ⟨t, env, sh, pc, es, rfl, hrun, rfl, -⟩ | ⟨rfl, -⟩
      · exact hnone
      · cases t with
        | worker =>
          rw [World.marks, if_pos rfl]
          split_ifs
          · rfl
          · exact hnone
        | client n =>
          have hquiet : persistedStates (tagged (.client n) es) = [] := by
            rcases persisted_step hrun (.client n) with hnil | ⟨k, states, last, attempt, hpc, -⟩
            · exact hnil
            · have hsub := hclients n
              rw [hpc] at hsub
              exact hsub.elim
          rw [World.marks, if_neg Tid.noConfusion, hquiet]
          simp [hnone, overtakes]
      · exact hnone
    · rcases step_cases hstep with ⟨m, c, rfl, -, -, rfl⟩ | ⟨t, env, sh, pc, es, rfl, hrun, -, rfl⟩ |
        ⟨-, -, rfl⟩
      · by_cases hm : n = m
        · subst hm
          simp only [Function.update_self]
          cases c with
          | flushNow => exact absurd rfl (hok n)
          | submit | submitDurable => trivial
        · have hne : Tid.client n ≠ .client m := fun heq => hm (Tid.client.inj heq)
          simp only [Function.update_of_ne hne]
          exact hclients n
      · by_cases ht : Tid.client n = t
        · subst ht
          simp only [Function.update_self]
          exact isSubmitting_step (hclients n) hrun
        · simp only [Function.update_of_ne ht]
          exact hclients n
      · exact hclients n

/-- **Over Redis, without `flush_now`**, the store serves what `MockDb` serves, after every batch of every
run. -/
theorem redis_agrees_without_flush_now {cfg : ValidConfig} {s : FluxEngine} {h : List (Tid × Event)}
    (hr : Run (system cfg) noFlushNow s h) : Agree (batches h) := by
  obtain ⟨overtaken, hw, -⟩ := worker_not_overtaken hr
  exact (agree_iff_inOrder (oneVersion_of_run hw.mono)).mpr (inOrder_of_run hw)

def isFlushNow : Machine.Action → Bool
  | .call _ .flushNow => true
  | _ => false

/-- Version 1 is persisted by the worker at the second attempt. -/
theorem redis_agrees_without_flush_now_retried : ∃ s h, Run (system oneByOne) noFlushNow s h ∧
    batches h = [[⟨7, 1, []⟩]] ∧ Agree (batches h) := by
  obtain ⟨s, h, hr, hp⟩ := exists_run_of_exec (system oneByOne) noFlushNow
    (fun _ _ a => !isFlushNow a)
    (fun _ _ a ha n heq => by
      subst heq
      cases ha)
    (start Log.empty fun _ => none) (retrying ++ [.run .worker (.fine [7])])
    (fun x => decide (batches x.2 = [[⟨7, 1, []⟩]])) ⟨_, _, rfl⟩ (by decide +kernel)
  exact ⟨s, h, hr, of_decide_eq_true hp, redis_agrees_without_flush_now hr⟩

end FluxThroughput.Engine.Redis
