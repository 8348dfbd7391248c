import FluxThroughput.Worker.Simulation

/-! # Shutdown against a failing store

When the worker stands at its final drain and no client call is under way, `shutdown` returns once the
drain has ended. A drain that ends clean leaves everything in the store. One that gives up has made
its last passes without progress, and each of them logged one batch only: an accepted write whose
player is still dirty is covered then exactly when it was covered as those passes began or its player
was picked in one of them (`covers_iff_of_gaveUp`). -/

namespace FluxThroughput.Worker.Shutdown

open FluxThroughput.Domain.Types FluxThroughput.Cache.WriteBehind FluxThroughput.Store.Mock
open FluxThroughput.Wal.Atomic FluxThroughput.Engine.Config FluxThroughput.Engine.Machine
open FluxThroughput.Engine.Refine FluxThroughput.Engine.NoLoss FluxThroughput.Worker.FinalDrain
open FluxThroughput.Worker.Simulation FluxThroughput.Lib.Transition FluxThroughput.Lib.WriteBehind

/-- `shutdown` has been called, no client call is under way, and the worker has left its loop for the
final drain. -/
structure AtFinalDrain (s : FluxEngine) : Prop where
  worker : s.pc .worker = .drainPop (.final 0) []
  clients : ∀ n, s.pc (.client n) = .idle

/-- What `shutdown` then returns: how the final drain ended. -/
def shutdown (cfg : ValidConfig) (o : Oracle) (fuel : ℕ) (s : FluxEngine) : Option Ending :=
  finalDrain cfg o fuel 0 ⟨s.sh, 0, 0⟩ ⟨s.sh, 0, 0⟩

/-- The store or the log holds the request's player with at least its version. -/
def Covers (sh : Shared) (req : WriteRequest) : Prop :=
  (∃ st, sh.table req.playerId = some st ∧ req.version ≤ st.version) ∨
    ∃ rec ∈ sh.wal.records, rec.playerId = req.playerId ∧ req.version ≤ rec.version

/-- The request was accepted by a call of `submit`. -/
def Submitted (h : List (Tid × Event)) (req : WriteRequest) : Prop :=
  ∃ t, (t, Event.submitReturned req true) ∈ h

variable {cfg : ValidConfig} {o : Oracle} {fuel : ℕ} {s : FluxEngine} {h : List (Tid × Event)}

theorem covers_iff (acc : Set Write) {sh : Shared} {req : WriteRequest} :
    Covers sh req ↔ Covered (core acc sh) (reqKey req) := by
  refine or_congr ?_ ?_
  · constructor
    · rintro ⟨st, hst, hle⟩
      exact ⟨st.version, Option.map_eq_some_iff.mpr ⟨st, hst, rfl⟩, hle⟩
    · rintro ⟨v, hv, hle⟩
      obtain ⟨st, hst, rfl⟩ := Option.map_eq_some_iff.mp hv
      exact ⟨st, hst, hle⟩
  · constructor
    · rintro ⟨rec, hm, hid, hle⟩
      exact ⟨recKey rec, ⟨rec, hm, rfl⟩, hid, hle⟩
    · rintro ⟨_, ⟨rec, hm, rfl⟩, hid, hle⟩
      exact ⟨rec, hm, hid, hle⟩

/-! ### Accepted submits -/

/-- `submit` reports a write as enqueued only in the step that enqueues it. -/
theorem submitReturned_step {env : Env} {sh sh' : Shared} {pc pc' : Pc} {es : List Event}
    {req : WriteRequest} (hs : pc.step cfg env sh = some (sh', pc', es))
    (hev : .submitReturned req true ∈ es) : .enqueued req ∈ es := by
  cases pc with
  | submitEnqueue req' =>
    simp only [Pc.step] at hs
    rcases hq : sh.tryEnqueue cfg req' with _ | sh1 <;>
      simp only [hq, Option.some.injEq, Prod.mk.injEq] at hs <;> obtain ⟨rfl, rfl, rfl⟩ := hs <;>
      simp_all
  | takeDirty k =>
    simp only [Pc.step] at hs
    repeat' split at hs
    all_goals try cases hs
    all_goals cases k <;> simp [flushEnd] at hev
  | checkpoint k =>
    simp only [Pc.step] at hs
    repeat' split at hs
    all_goals cases hs
    all_goals cases k <;> simp [checkpointFailed] at hev
  | requeue k =>
    simp only [Pc.step] at hs
    cases hs
    cases k <;> simp [batchFailed] at hev
  | _ =>
    simp only [Pc.step] at hs
    repeat' split at hs
    all_goals try cases hs
    all_goals simp at hev

theorem submitted_enqueued {ok : Guard FluxEngine Action (Tid × Event)}
    (hr : Run (system cfg) ok s h) : ∀ t req, (t, Event.submitReturned req true) ∈ h →
      (t, Event.enqueued req) ∈ h := by
  refine hr.invariant (I := fun _ h => ∀ t req, (t, Event.submitReturned req true) ∈ h →
    (t, Event.enqueued req) ∈ h) (by simp) ?_
  intro s h a s' e _ ih _ hs t req hev
  rcases List.mem_append.mp hev with hev | hev
  · exact List.mem_append_left _ (ih t req hev)
  · refine List.mem_append_right _ ?_
    rcases step_cases hs with ⟨n, c, -, -, rfl, -⟩ | ⟨u, env, sh, pc, es, -, hstep, rfl, rfl⟩ |
      ⟨-, rfl, -⟩
    · cases c <;> simp [tagged, Call.entry] at hev
    · obtain ⟨ev, hev, heq⟩ := List.mem_map.mp hev
      obtain ⟨rfl, rfl⟩ := Prod.mk.inj heq
      exact List.mem_map_of_mem (submitReturned_step hstep hev)
    · simp at hev

/-! ### The state in which the drain ends -/

/-- The log is attached wherever its calls have succeeded. -/
theorem attached_of_run (hr : Run (system cfg) (fun _ _ a => walHealthy a) s h) :
    s.sh.wal.attached = true :=
  FluxThroughput.Engine.Checkpoint.attached_run (fun _ _ _ hok => hok) hr

/-- **After the drain**, an accepted write is cached at its version or newer, and its player is dirty
or the store has caught up. -/
theorem cached_of_ending (ho : o.Healthy)
    (hr : Run (system cfg) (fun _ _ a => walHealthy a) s h)
    (hat : AtFinalDrain s) {ending : Ending} (hd : shutdown cfg o fuel s = some ending)
    (hring : ending.world.sh.ring = []) {req : WriteRequest} (hreq : Submitted h req) :
    ∃ st, ending.world.sh.cache.get req.playerId = some st ∧ req.version ≤ st.version ∧
      (req.playerId ∈ ending.world.sh.cache.inner.dirty ∨
        ∃ st', ending.world.sh.table req.playerId = some st' ∧ st.version ≤ st'.version) := by
  obtain ⟨e, hr'⟩ := (finalDrain_alone ho hd).run hr rfl hat.worker
  have hidle : ∀ t, Function.update s.pc .worker .exited t = .exited ∨
      Function.update s.pc .worker .exited t = .idle := by
    rintro (_ | n)
    · exact Or.inl (Function.update_self _ _ _)
    · exact Or.inr (by rw [Function.update_of_ne (by simp)]; exact hat.clients n)
  obtain ⟨t, ht⟩ := hreq
  have henq := List.mem_append_left e (submitted_enqueued hr t req ht)
  have hi := run_inv hr'
  rcases Accounted.of_inv hi henq with ⟨r, hr, -⟩ | ⟨u, r, hr, -⟩ | ⟨st, hst, hle⟩
  · rw [hring] at hr; cases hr
  · simp only [] at hr
    rcases hidle u with hu | hu <;> rw [hu] at hr <;> cases hr
  · refine ⟨st, hst, hle, ?_⟩
    have hid : st.playerId = req.playerId := by
      obtain ⟨e, he, rfl⟩ := Option.map_eq_some_iff.mp hst
      exact ending.world.sh.cache.lockstep.key _ e he
    rcases Answered.of_inv hi hst with hdirty | ⟨u, b, hb, -⟩ | hstore
    · exact Or.inl (hid ▸ hdirty)
    · simp only [] at hb
      rcases hidle u with hu | hu <;> rw [hu] at hb <;> cases hb
    · exact Or.inr (hid ▸ hstore)

/-- **After giving up**, an accepted write is covered exactly when its player was not dirty as the
stalled passes began, or it was covered then, or its player was picked in one of them. -/
theorem covers_iff_of_gaveUp (ho : o.Healthy)
    (hr : Run (system cfg) (fun _ _ a => walHealthy a) s h)
    (hat : AtFinalDrain s) {since w : World}
    (hd : shutdown cfg o fuel s = some (.gaveUp since w)) {req : WriteRequest}
    (hreq : Submitted h req) :
    Covers w.sh req ↔ (req.playerId ∈ since.sh.cache.inner.dirty → Covers since.sh req ∨
      PickedIn cfg o since shutdownMaxStalledAttempts req.playerId) := by
  obtain ⟨hs, hring⟩ := finalDrain_gaveUp ho hd (attached_of_run hr) (by decide) Stretch.zero
  obtain ⟨st, hst, hle, hdirty⟩ := cached_of_ending ho hr hat hd hring hreq
  have hcore := hs.core.2 ∅
  have hsame : w.sh.cache.inner.dirty = since.sh.cache.inner.dirty := by
    ext id
    exact Set.ext_iff.mp (congrArg Core.dirty hcore) id
  have hver : (core ∅ since.sh).cached req.playerId = some st.version := by
    have hc := congrFun (congrArg Core.cached hcore) req.playerId
    refine hc.symm.trans ?_
    have hv : w.sh.cache.versions req.playerId = (w.sh.cache.get req.playerId).map
        PlayerState.version := by
      rw [WriteBehindCache.get, Option.map_map]; rfl
    exact hv.trans (by rw [show w.sh.cache.get req.playerId = some st from hst]; rfl)
  by_cases hin : req.playerId ∈ since.sh.cache.inner.dirty
  · simp only [hin, true_implies]
    rw [covers_iff ∅, covers_iff ∅, hcore]
    constructor
    · rintro (hstore | ⟨r, hr | ⟨hp, -⟩, hid, hv⟩)
      · exact Or.inl (Or.inl hstore)
      · exact Or.inl (Or.inr ⟨r, hr, hid, hv⟩)
      · exact Or.inr (by rw [hid] at hp; exact hp)
    · rintro ((hstore | ⟨r, hr, hid, hv⟩) | hp)
      · exact Or.inl hstore
      · exact Or.inr ⟨r, Or.inl hr, hid, hv⟩
      · exact Or.inr ⟨(req.playerId, st.version), Or.inr ⟨hp, hver⟩, rfl, hle⟩
  · refine iff_of_true ?_ fun h => absurd h hin
    rcases hdirty with hd' | ⟨st', hst', hle'⟩
    · exact absurd (hsame ▸ hd') hin
    · exact Or.inl ⟨st', hst', hle.trans hle'⟩

/-- The players dirty as the last stalled passes began were covered then, or picked in one of them. -/
def PickedOrCovered (cfg : ValidConfig) (o : Oracle) (h : List (Tid × Event)) : Ending → Prop
  | .clean _ => True
  | .gaveUp since _ => ∀ req, Submitted h req → req.playerId ∈ since.sh.cache.inner.dirty →
      Covers since.sh req ∨ PickedIn cfg o since shutdownMaxStalledAttempts req.playerId

/-! ### A store that stays down -/

/-- A store that is down forever, and `take_dirty` iterating `ids` in this order whenever it can. -/
def down (ids : List PlayerId) : Oracle where
  order _ dirty := if Inner.Enumerates ids dirty then ids else dirty.sort
  enumerates _ dirty := by
    split_ifs with h
    · exact h
    · exact ⟨dirty.sort_nodup _, dirty.sort_toFinset _⟩
  append _ := .ok
  checkpoint _ := .ok
  persist _ := some .unavailable

theorem down_healthy (ids : List PlayerId) : (down ids).Healthy := ⟨fun _ => rfl, fun _ => rfl⟩

/-- Client 0 submits a write for each of the players; then shutdown begins. -/
def submitsThenShutdown (ids : List PlayerId) : List Action :=
  ids.flatMap (fun id =>
    .call 0 (.submit id 1 []) :: List.replicate 2 (.run (.client 0) (.fine []))) ++
    [.shutdown, .run .worker (.fine [])]

/-- Only the worker and client 0 act, and the log is healthy. -/
def oneClientCheck (a : Action) : Bool := actsIn [.worker, .client 0] a && decide (walHealthy a)

theorem oneClientCheck_iff {a : Action} :
    oneClientCheck a = true ↔ actsIn [.worker, .client 0] a = true ∧ walHealthy a := by
  rw [oneClientCheck, Bool.and_eq_true, decide_eq_true_eq]

/-- These schedules reach the final drain. -/
theorem atFinalDrain_of_submits (ids : List PlayerId) (p : FluxEngine × List (Tid × Event) → Bool)
    (hx : (exec (system oneByOne) (fun _ _ a => oneClientCheck a) (start Log.empty fun _ => none) []
      (submitsThenShutdown ids)).map (fun x =>
        decide (x.1.pc .worker = .drainPop (.final 0) []) && decide (x.1.pc (.client 0) = .idle) &&
          p x) = some true) :
    ∃ s h, Run (system oneByOne) (fun _ _ a => walHealthy a) s h ∧ AtFinalDrain s ∧
      p (s, h) = true := by
  obtain ⟨s, h, hr, hj, hp⟩ := exists_run_of_exec_inv (system oneByOne) (fun _ _ a => walHealthy a)
    (OthersIdle [.worker, .client 0]) (fun _ _ a => oneClientCheck a)
    (fun _ _ _ _ _ hj hg => hj.step (oneClientCheck_iff.mp hg).1)
    (fun _ _ _ _ hg => (oneClientCheck_iff.mp hg).2) (start Log.empty fun _ => none)
    (submitsThenShutdown ids) _ ⟨_, _, rfl⟩ (othersIdle_start _ (by decide) _ _) hx
  simp only [Bool.and_eq_true, decide_eq_true_eq] at hp
  refine ⟨s, h, hr, ⟨hp.1.1, fun n => ?_⟩, hp.2⟩
  by_cases hn : n = 0
  · rw [hn]; exact hp.1.2
  · exact hj _ (by simpa using hn)

/-! ### The promise -/

/-- **A shutdown loses nothing exactly when** the final drain ends clean, or every accepted write whose
player is dirty as the last stalled passes begin is covered by then or has its player picked by
`take_dirty` in one of them. -/
theorem shutdown_covers_iff (ho : o.Healthy)
    (hr : Run (system cfg) (fun _ _ a => walHealthy a) s h)
    (hat : AtFinalDrain s) {ending : Ending} (hd : shutdown cfg o fuel s = some ending) :
    (∀ req, Submitted h req → Covers ending.world.sh req) ↔ PickedOrCovered cfg o h ending := by
  rcases ending with w | ⟨since, w⟩
  · refine iff_of_true (fun req hreq => ?_) trivial
    obtain ⟨hring, hdirty⟩ := finalDrain_clean hd
    obtain ⟨st, -, hle, hcov | ⟨st', hst', hle'⟩⟩ := cached_of_ending ho hr hat hd hring hreq
    · simp [Ending.world, hdirty] at hcov
    · exact Or.inl ⟨st', hst', hle.trans hle'⟩
  · exact forall₂_congr fun req hreq => covers_iff_of_gaveUp ho hr hat hd hreq

theorem shutdown_covers_iff_gaveUp : ∃ s h since w,
    Run (system oneByOne) (fun _ _ a => walHealthy a) s h ∧ AtFinalDrain s ∧
      shutdown oneByOne (down [7]) 70 s = some (.gaveUp since w) ∧
      ((∀ req, Submitted h req → Covers w.sh req) ↔
        PickedOrCovered oneByOne (down [7]) h (.gaveUp since w)) := by
  obtain ⟨s, h, hr, hat, hp⟩ := atFinalDrain_of_submits [7] (fun x =>
    match shutdown oneByOne (down [7]) 70 x.1 with
    | some (.gaveUp _ _) => true
    | _ => false) (by decide)
  rcases hd : shutdown oneByOne (down [7]) 70 s with _ | (w | ⟨since, w⟩) <;>
    simp only [hd, reduceCtorEq] at hp
  exact ⟨s, h, since, w, hr, hat, hd, shutdown_covers_iff (down_healthy _) hr hat hd⟩

/-- Two players are dirty, the store is down, and every pass picks the same one: the other is neither
stored nor logged when `shutdown` returns. -/
theorem shutdown_loses : ¬ ∀ (cfg : ValidConfig) (o : Oracle) (fuel : ℕ) (s : FluxEngine)
    (h : List (Tid × Event)) (ending : Ending), o.Healthy →
      Run (system cfg) (fun _ _ a => walHealthy a) s h → AtFinalDrain s →
        shutdown cfg o fuel s = some ending →
          ∀ req, Submitted h req → Covers ending.world.sh req := by
  intro hall
  obtain ⟨s, h, hr, hat, hp⟩ := atFinalDrain_of_submits [7, 8] (fun x =>
    decide ((Tid.client 0, Event.submitReturned ⟨8, 1, [], 2⟩ true) ∈ x.2) &&
      match shutdown oneByOne (down [7, 8]) 70 x.1 with
      | some ending => decide (ending.world.sh.table 8 = none) &&
        ending.world.sh.wal.records.all fun rec => rec.playerId ≠ 8
      | none => false) (by decide)
  rw [Bool.and_eq_true, decide_eq_true_eq] at hp
  obtain ⟨hsub, hp⟩ := hp
  rcases hd : shutdown oneByOne (down [7, 8]) 70 s with _ | ending <;>
    simp only [hd, reduceCtorEq, Bool.and_eq_true, decide_eq_true_eq, List.all_eq_true] at hp
  rcases hall _ _ _ s h ending (down_healthy _) hr hat hd _ ⟨_, hsub⟩ with
    ⟨st, hst, -⟩ | ⟨rec, hm, hid, -⟩
  · simp only [hp.1, reduceCtorEq] at hst
  · exact hp.2 rec hm hid

end FluxThroughput.Worker.Shutdown
