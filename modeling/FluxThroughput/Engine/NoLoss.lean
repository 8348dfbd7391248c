import FluxThroughput.Engine.Refine

/-! # No accepted update is lost while the process lives

Every step of the engine is a move of the pipeline or changes nothing of it (`step_move`), and a
started engine satisfies the pipeline's invariant, so it holds in every reachable state
(`run_inv`), whatever the store and the log answer. -/

namespace FluxThroughput.Engine.NoLoss

open FluxThroughput.Domain.Types FluxThroughput.Cache.WriteBehind FluxThroughput.Store.Mock
open FluxThroughput.Wal.Atomic FluxThroughput.Engine.Config FluxThroughput.Engine.Machine
open FluxThroughput.Engine.Refine FluxThroughput.Lib.Transition FluxThroughput.Lib.WriteBehind

variable {cfg : ValidConfig} {s s' : FluxEngine} {h e : List (Tid × Event)} {a : Action}

/-! ### Steps are moves -/

theorem accepted_nil : accepted [] = ∅ := by simp [accepted]

theorem accepted_append_tagged (h : List (Tid × Event)) (t : Tid) (es : List Event) :
    accepted (h ++ tagged t es) = accepted h ∪ acceptedBy es := by
  ext w
  simp only [accepted, acceptedBy, tagged, List.mem_append, List.mem_map, Set.mem_ofPred_eq,
    Set.mem_union]
  constructor
  · rintro ⟨u, req, hm | ⟨ev, hev, heq⟩, rfl⟩
    · exact Or.inl ⟨u, req, hm, rfl⟩
    · obtain ⟨rfl, rfl⟩ := Prod.mk.inj heq
      exact Or.inr ⟨req, hev, rfl⟩
  · rintro (⟨u, req, hm, rfl⟩ | ⟨req, hev, rfl⟩)
    · exact ⟨u, req, Or.inl hm, rfl⟩
    · exact ⟨t, req, Or.inr ⟨_, hev, rfl⟩, rfl⟩

theorem hold_update (pc : Tid → Pc) (t : Tid) (pc' : Pc) :
    (fun u => hold (Function.update pc t pc' u)) =
      Function.update (fun u => hold (pc u)) t (hold pc') := by
  funext u
  by_cases hu : u = t
  · subst hu; simp
  · simp [hu]

theorem pipe_update (sh : Shared) (pc : Tid → Pc) (h : List (Tid × Event)) (t : Tid) (pc' : Pc)
    (es : List Event) : pipe ⟨sh, Function.update pc t pc'⟩ (h ++ tagged t es) =
      ⟨core (accepted h ∪ acceptedBy es) sh,
        Function.update (fun u => hold (pc u)) t (hold pc')⟩ := by
  unfold pipe
  rw [accepted_append_tagged, ← hold_update]

/-- What the steps of the engine are: a client's call begins, a thread makes its next atomic call,
or the stop flag is set. -/
theorem step_cases (hs : s.step cfg a = some (s', e)) :
    (∃ n c, a = .call n c ∧ s.pc (.client n) = .idle ∧ e = tagged (.client n) c.entry.2 ∧
      s' = { s with pc := Function.update s.pc (.client n) c.entry.1 }) ∨
    (∃ t env sh pc es, a = .run t env ∧ (s.pc t).step cfg env s.sh = some (sh, pc, es) ∧
      e = tagged t es ∧ s' = { sh := sh, pc := Function.update s.pc t pc }) ∨
    (a = .shutdown ∧ e = [] ∧ s' = { s with sh := { s.sh with stop := true } }) := by
  cases a with
  | call n c =>
    simp only [FluxEngine.step] at hs
    split at hs
    · rename_i hidle
      obtain ⟨rfl, rfl⟩ := Prod.mk.inj (Option.some.inj hs)
      exact Or.inl ⟨n, c, rfl, hidle, rfl, rfl⟩
    · cases hs
  | run t env =>
    simp only [FluxEngine.step] at hs
    split at hs
    · rename_i sh pc es hstep
      obtain ⟨rfl, rfl⟩ := Prod.mk.inj (Option.some.inj hs)
      exact Or.inr (Or.inl ⟨t, env, sh, pc, es, rfl, hstep, rfl, rfl⟩)
    · cases hs
  | shutdown =>
    obtain ⟨rfl, rfl⟩ := Prod.mk.inj (Option.some.inj hs)
    exact Or.inr (Or.inr ⟨rfl, rfl, rfl⟩)

theorem hold_entry (c : Call) : hold c.entry.1 = hold .idle := by cases c <;> rfl

theorem acceptedBy_entry (c : Call) : acceptedBy c.entry.2 = ∅ := by
  cases c <;> simp [acceptedBy, Call.entry]

/-- **Every step of the engine is a move of the pipeline.** -/
theorem step_move (hs : s.step cfg a = some (s', e)) : Move (pipe s h) (pipe s' (h ++ e)) := by
  rcases step_cases hs with ⟨n, c, -, hidle, rfl, rfl⟩ | ⟨t, env, sh, pc, es, -, hstep, rfl, rfl⟩ |
    ⟨-, rfl, rfl⟩
  · rw [pipe_update, acceptedBy_entry, Set.union_empty, hold_entry, ← hidle]
    exact Move.act (p := pipe s h) (.client n) _ _ (Act.stay _ _)
  · rw [pipe_update]
    by_cases hck : isCheckpoint (s.pc t)
    · rcases hpc : s.pc t with _ | _ <;> rw [hpc] at hck hstep <;> try exact hck.elim
      obtain ⟨wal, rfl, hhold, hacc, hrec⟩ := step_checkpoint hstep
      have hkeep : (core (accepted h) { s.sh with wal := wal }).log ⊆ (core (accepted h) s.sh).log := by
        rintro w ⟨rec, hr, rfl⟩
        refine ⟨rec, ?_, rfl⟩
        rcases hrec with hrec | hrec <;> rw [hrec] at hr
        · exact (Log.mem_survivors.mp hr).1
        · exact hr
      have hsame : Function.update (fun u => hold (s.pc u)) t (hold pc) = (pipe s h).hold := by
        rw [hhold]
        exact Function.update_eq_self_iff.mpr (by simp [hpc, hold, buffer, batch])
      rw [hacc, Set.union_empty, hsame]
      exact Move.truncate (p := pipe s h) _ hkeep
    · exact Move.act (p := pipe s h) t _ _ (step_act hck hstep _)
  · rw [List.append_nil]
    have hself : pipe { s with sh := { s.sh with stop := true } } h =
        ⟨(pipe s h).core, Function.update (pipe s h).hold .worker ((pipe s h).hold .worker)⟩ := by
      rw [Function.update_eq_self]; rfl
    rw [hself]
    exact Move.act _ _ _ (Act.stay _ _)

/-! ### Schedules of a few threads -/

/-- Only the listed threads act. -/
def actsIn (threads : List Tid) : Action → Bool
  | .call n _ => decide (.client n ∈ threads)
  | .run t _ => decide (t ∈ threads)
  | .shutdown => true

/-- All other threads are idle. -/
def OthersIdle (threads : List Tid) (s : FluxEngine) (_ : List (Tid × Event)) : Prop :=
  ∀ t ∉ threads, s.pc t = .idle

theorem OthersIdle.step {threads : List Tid}
    (hj : OthersIdle threads s h) (hg : actsIn threads a = true) (hs : s.step cfg a = some (s', e)) :
    OthersIdle threads s' (h ++ e) := by
  intro u hu
  rcases step_cases hs with ⟨n, c, rfl, -, -, rfl⟩ | ⟨t, env, sh, pc, es, rfl, -, -, rfl⟩ |
    ⟨-, -, rfl⟩
  · have hne : u ≠ .client n := by rintro rfl; exact hu (of_decide_eq_true hg)
    simp only [Function.update_of_ne hne]
    exact hj u hu
  · have hne : u ≠ t := by rintro rfl; exact hu (of_decide_eq_true hg)
    simp only [Function.update_of_ne hne]
    exact hj u hu
  · exact hj u hu

theorem othersIdle_start (threads : List Tid) (hw : .worker ∈ threads) (wal : Log) (table : Table) :
    OthersIdle threads (start wal table) [] := by
  rintro (_ | n) ht
  · exact absurd hw ht
  · rfl

/-! ### The invariant of every run -/

theorem core_replay (acc : Set Write) : ∀ (records : List WalRecord) (n : ℕ) (sh : Shared),
    core acc { sh with cache := (records.zipIdx n).foldl (fun cache (rec, i) => cache.apply
      { playerId := rec.playerId, version := rec.version, blob := rec.blob,
        seq := UInt64.ofNat i }) sh.cache } =
      (records.map recKey).foldl Core.stage (core acc sh)
  | [], _, _ => rfl
  | rec :: records, n, sh => by
    rw [List.zipIdx_cons, List.foldl_cons, List.map_cons, List.foldl_cons]
    exact (core_replay acc records (n + 1) { sh with cache := sh.cache.apply _ }).trans
      (by rw [core_apply]; rfl)

/-- A started engine has accepted nothing, and everything it has cached is dirty. -/
theorem start_inv (wal : Log) (table : Table) : Inv (pipe (start wal table) []) := by
  constructor
  · intro w hw
    simp [pipe, core, accepted_nil] at hw
  · intro id v hv
    have hcore := core_replay ∅ wal.recover.1 0
      { (start wal table).sh with cache := WriteBehindCache.new }
    have hset := foldl_stage_settled (Q := fun _ _ => False) (wal.recover.1.map recKey)
      (core ∅ { (start wal table).sh with cache := WriteBehindCache.new })
      (fun id v hv => by simp [core, WriteBehindCache.versions, WriteBehindCache.new,
        Inner.versions] at hv) id v (by rw [← hcore]; exact hv)
    rw [← hcore] at hset
    exact Or.inl (hset.resolve_right not_false)

/-- **The pipeline's invariant holds in every reachable state**, under any guard on the schedule. -/
theorem run_inv {ok : Guard FluxEngine Action (Tid × Event)} (hr : Run (system cfg) ok s h) :
    Inv (pipe s h) :=
  hr.invariant (I := fun s h => Inv (pipe s h))
    (by rintro _ ⟨wal, table, rfl⟩; exact start_inv wal table)
    fun _ _ _ _ _ _ hi _ hs => (step_move hs).inv hi

/-- Runs from a given log and store are runs. -/
theorem run_system {ok : Guard FluxEngine Action (Tid × Event)} {wal : Log} {table : Table}
    (hr : Run (systemFrom cfg wal table) ok s h) : Run (system cfg) ok s h := by
  induction hr with
  | init hs => exact Run.init ⟨wal, table, hs⟩
  | step _ hok hs ih => exact ih.step hok hs

/-! ### In the engine's own terms -/

/-- The store holds a state of the player with at least this version. -/
def StoreHolds (s : FluxEngine) (id : PlayerId) (v : UInt64) : Prop :=
  ∃ st, s.sh.table id = some st ∧ v ≤ st.version

/-- The cache holds a state of the player with at least this version. -/
def CacheHolds (s : FluxEngine) (id : PlayerId) (v : UInt64) : Prop :=
  ∃ st, s.sh.cache.get id = some st ∧ v ≤ st.version

/-- The accepted write is in the ring, in some thread's drain buffer, or absorbed by the cache. -/
def Accounted (s : FluxEngine) (req : WriteRequest) : Prop :=
  (∃ r ∈ s.sh.ring, reqKey r = reqKey req) ∨
    (∃ t, ∃ r ∈ buffer (s.pc t), reqKey r = reqKey req) ∨
    CacheHolds s req.playerId req.version

/-- The cached state is dirty, in a batch that a thread has taken and neither persisted nor put
back, or absorbed by the store. -/
def Answered (s : FluxEngine) (st : PlayerState) : Prop :=
  st.playerId ∈ s.sh.cache.inner.dirty ∨
    (∃ t, ∃ b ∈ batch (s.pc t), stateKey b = stateKey st) ∨ StoreHolds s st.playerId st.version

/-- Nothing is under way: ring, drain buffers, dirty set and batches are empty. -/
structure Quiescent (s : FluxEngine) : Prop where
  ring : s.sh.ring = []
  threads : ∀ t, buffer (s.pc t) = [] ∧ batch (s.pc t) = []
  dirty : s.sh.cache.inner.dirty = ∅

theorem reaches_store {id : PlayerId} {v : UInt64} :
    Reaches (pipe s h).core.store id v ↔ StoreHolds s id v := by
  constructor
  · rintro ⟨w, hw, hle⟩
    obtain ⟨st, hst, rfl⟩ := Option.map_eq_some_iff.mp hw
    exact ⟨st, hst, hle⟩
  · rintro ⟨st, hst, hle⟩
    exact ⟨st.version, Option.map_eq_some_iff.mpr ⟨st, hst, rfl⟩, hle⟩

theorem cached_eq (id : PlayerId) :
    (pipe s h).core.cached id = (s.sh.cache.get id).map PlayerState.version := by
  change s.sh.cache.versions id = _
  rw [WriteBehindCache.get, Option.map_map]
  rfl

theorem reaches_cached {id : PlayerId} {v : UInt64} :
    Reaches (pipe s h).core.cached id v ↔ CacheHolds s id v := by
  unfold Reaches CacheHolds
  rw [cached_eq]
  constructor
  · rintro ⟨w, hw, hle⟩
    obtain ⟨st, hst, rfl⟩ := Option.map_eq_some_iff.mp hw
    exact ⟨st, hst, hle⟩
  · rintro ⟨st, hst, hle⟩
    exact ⟨st.version, by rw [hst]; rfl, hle⟩

/-- **The store never goes back.** -/
theorem storeHolds_step {id : PlayerId} {v : UInt64} (hs : s.step cfg a = some (s', e))
    (hst : StoreHolds s id v) : StoreHolds s' id v := by
  have hm : Move (pipe s []) (pipe s' ([] ++ e)) := step_move hs
  exact reaches_store.mp (hm.reaches_store (reaches_store.mpr hst))

/-- **The cache never goes back.** -/
theorem cacheHolds_step {id : PlayerId} {v : UInt64} (hs : s.step cfg a = some (s', e))
    (hc : CacheHolds s id v) : CacheHolds s' id v := by
  have hm : Move (pipe s []) (pipe s' ([] ++ e)) := step_move hs
  exact reaches_cached.mp (hm.reaches_cached (reaches_cached.mpr hc))

/-- The replayed cache is as new as every record. -/
theorem replay_holds (wal : Log) (table : Table) :
    ∀ rec ∈ wal.records, CacheHolds (start wal table) rec.playerId rec.version := by
  intro rec hrec
  have hcore := core_replay ∅ wal.recover.1 0 { (start wal table).sh with cache := WriteBehindCache.new }
  obtain ⟨-, -, hcached, -, -⟩ := foldl_stage_frame (wal.recover.1.map recKey)
    (core ∅ { (start wal table).sh with cache := WriteBehindCache.new })
  rw [← hcore] at hcached
  have hreach : Reaches (start wal table).sh.cache.versions rec.playerId rec.version := by
    have hfold : (start wal table).sh.cache.versions = _ := hcached
    rw [hfold, reaches_foldl_raise]
    exact Or.inr ⟨recKey rec, List.mem_map_of_mem hrec, rfl, le_rfl⟩
  exact (reaches_cached (h := [])).mp hreach

theorem Accounted.of_inv (hi : Inv (pipe s h)) {t : Tid} {req : WriteRequest}
    (hreq : (t, Event.enqueued req) ∈ h) : Accounted s req := by
  rcases hi.accounted (reqKey req) ⟨t, req, hreq, rfl⟩ with hq | ⟨u, hb⟩ | hc
  · obtain ⟨r, hr, heq⟩ := List.mem_map.mp hq
    exact Or.inl ⟨r, hr, heq⟩
  · obtain ⟨r, hr, heq⟩ := List.mem_map.mp hb
    exact Or.inr (Or.inl ⟨u, r, hr, heq⟩)
  · exact Or.inr (Or.inr (reaches_cached.mp hc))

theorem Answered.of_inv (hi : Inv (pipe s h)) {id : PlayerId} {st : PlayerState}
    (hst : s.sh.cache.get id = some st) : Answered s st := by
  have hid : st.playerId = id := by
    obtain ⟨e, he, rfl⟩ := Option.map_eq_some_iff.mp hst
    exact s.sh.cache.lockstep.key id e he
  have hv : (pipe s h).core.cached st.playerId = some st.version := by rw [cached_eq, hid, hst]; rfl
  rcases hi.settled _ _ hv with hd | ⟨t, hb⟩ | hs
  · exact Or.inl hd
  · obtain ⟨b, hb, heq⟩ := List.mem_map.mp hb
    exact Or.inr (Or.inl ⟨t, b, hb, heq⟩)
  · exact Or.inr (Or.inr (reaches_store.mp hs))

theorem Quiescent.stored (hi : Inv (pipe s h)) (hq : Quiescent s) {t : Tid} {req : WriteRequest}
    (hreq : (t, Event.enqueued req) ∈ h) : StoreHolds s req.playerId req.version := by
  refine reaches_store.mp (hi.stored_of_idle ?_ (fun u => ?_) ?_ (reqKey req) ⟨t, req, hreq, rfl⟩)
  · simp [pipe, core, hq.ring]
  · simp [pipe, hold, hq.threads u]
  · simp [pipe, core, hq.dirty]

/-- **No accepted update is lost while the process lives.** Over all runs, whatever fails: accepted
writes are accounted for, cached states are answered for, and at rest the store has them all. -/
theorem no_accepted_update_lost (hr : Run (system cfg) anyStep s h) :
    (∀ t req, (t, Event.enqueued req) ∈ h → Accounted s req) ∧
      (∀ id st, s.sh.cache.get id = some st → Answered s st) ∧
      (Quiescent s → ∀ t req, (t, Event.enqueued req) ∈ h →
        StoreHolds s req.playerId req.version) :=
  ⟨fun _ _ hreq => Accounted.of_inv (run_inv hr) hreq,
    fun _ _ hst => Answered.of_inv (run_inv hr) hst,
    fun hq _ _ hreq => hq.stored (run_inv hr) hreq⟩

theorem no_accepted_update_lost_submit : ∃ s h, Run (system oneByOne) anyStep s h ∧
    (Tid.client 0, Event.enqueued ⟨7, 1, [], 1⟩) ∈ h ∧ Accounted s ⟨7, 1, [], 1⟩ ∧
    Answered s ⟨7, 1, []⟩ ∧ StoreHolds s 7 1 := by
  obtain ⟨s, h, hr, hj, hp⟩ := exists_run_of_exec_inv (system oneByOne) anyStep
    (OthersIdle [.worker, .client 0]) (fun _ _ => actsIn [.worker, .client 0])
    (fun _ _ _ _ _ => OthersIdle.step) (fun _ _ _ _ _ => trivial) (start Log.empty fun _ => none)
    ([Machine.Action.call 0 (.submit 7 1 []), .run (.client 0) (.fine []), .run (.client 0) (.fine [])] ++
      List.replicate 12 (Machine.Action.run .worker (.fine [7])) ++
      [Machine.Action.run .worker (.fine [])])
    (fun x => decide ((Tid.client 0, Event.enqueued ⟨7, 1, [], 1⟩) ∈ x.2) &&
      decide (x.1.sh.cache.get 7 = some ⟨7, 1, []⟩) && decide (x.1.sh.ring = []) &&
      decide (x.1.sh.cache.inner.dirty = ∅) && decide (x.1.pc .worker = .top) &&
      decide (x.1.pc (.client 0) = .idle))
    ⟨_, _, rfl⟩ (othersIdle_start _ (by decide) _ _) (by decide +kernel)
  simp only [Bool.and_eq_true, decide_eq_true_eq] at hp
  obtain ⟨⟨⟨⟨⟨hmem, hget⟩, hring⟩, hdirty⟩, hworker⟩, hclient⟩ := hp
  obtain ⟨haccounted, hanswered, hstored⟩ := no_accepted_update_lost hr
  have hq : Quiescent s := by
    refine ⟨hring, fun t => ?_, hdirty⟩
    have hbare : hold (s.pc t) = ⟨[], []⟩ := by
      by_cases ht : t ∈ [Tid.worker, .client 0]
      · rcases List.mem_pair.mp ht with rfl | rfl
        · rw [hworker]
          rfl
        · rw [hclient]
          rfl
      · rw [hj t ht]
        rfl
    exact ⟨List.map_eq_nil_iff.mp (congrArg Hold.buf hbare),
      List.map_eq_nil_iff.mp (congrArg Hold.batch hbare)⟩
  exact ⟨s, h, hr, hmem, haccounted _ _ hmem, hanswered 7 _ hget, hstored hq _ _ hmem⟩

end FluxThroughput.Engine.NoLoss
