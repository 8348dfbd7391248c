import FluxThroughput.Engine.Events

/-! # The order in which the store sees versions

A batch carries the cached version of each of its players, and the cache never goes back, so a batch is
at least as new as everything persisted before it was taken. While a thread holds it, another may take
and persist a newer version of the same player: the batch is then overtaken, and persisting it shows the
store an older version. `World` records, for each thread, the players in which its batch has been
overtaken. The versions given to the store are in order exactly in the runs that persist no overtaken
batch (`persisted_in_order_iff`). -/

namespace FluxThroughput.Engine.Order

open FluxThroughput.Domain.Types FluxThroughput.Cache.WriteBehind FluxThroughput.Store.Mock
open FluxThroughput.Wal.Atomic FluxThroughput.Engine.Config FluxThroughput.Engine.Machine
open FluxThroughput.Engine.Refine FluxThroughput.Engine.NoLoss FluxThroughput.Engine.Events
open FluxThroughput.Lib.Transition FluxThroughput.Lib.WriteBehind

/-! ### What the store is given -/

/-- The states of the calls of `persist_batch` that returned `Ok`, in order. -/
def persistedStates (h : List (Tid × Event)) : List PlayerState :=
  h.flatMap fun
    | (_, .persisted states) => states
    | _ => []

/-- The versions given for a player, in order. -/
def given (h : List (Tid × Event)) (id : PlayerId) : List UInt64 :=
  ((persistedStates h).filter fun st => st.playerId = id).map PlayerState.version

/-- **For every player, the versions given never decrease.** -/
def InOrder (h : List (Tid × Event)) : Prop := ∀ id, (given h id).Pairwise (· ≤ ·)

/-! ### Overtaken batches -/

/-- The players of a batch of which newer versions are among the states persisted. -/
def overtakes (states batch : List PlayerState) : List PlayerId :=
  (batch.filter fun st => decide (∃ st' ∈ states, st'.playerId = st.playerId ∧
    st.version < st'.version)).map PlayerState.playerId

/-- An engine, and for each thread the players in which the batch it holds has been overtaken. -/
structure World where
  engine : FluxEngine
  overtaken : Tid → List PlayerId

/-- Who is overtaken after a step. A new batch has not been, and none is when a batch is given up. -/
def World.marks (w : World) (engine : FluxEngine) (e : List (Tid × Event)) :
    Machine.Action → Tid → List PlayerId
  | .run t _, u =>
    if u = t then
      if batch (w.engine.pc t) = [] ∨ batch (engine.pc t) = [] then [] else w.overtaken t
    else w.overtaken u ++ overtakes (persistedStates e) (batch (w.engine.pc u))
  | _, u => w.overtaken u

def World.step (cfg : ValidConfig) (w : World) (a : Machine.Action) :
    Option (World × List (Tid × Event)) :=
  (w.engine.step cfg a).map fun x => (⟨x.1, w.marks x.1 x.2 a⟩, x.2)

/-- The engine, watched. -/
def watched (cfg : ValidConfig) : System World Machine.Action (Tid × Event) where
  init w := (system cfg).init w.engine ∧ w.overtaken = fun _ => []
  step := World.step cfg

/-- **No overtaken batch is persisted.** -/
def notOvertaken : Guard World Machine.Action (Tid × Event) := fun w _ a =>
  ∀ t env k states last attempt, a = .run t env →
    w.engine.pc t = .persistBatch k states last attempt → env.persist = none → w.overtaken t = []

/-! ### What steps do to batches -/

section Steps
variable {cfg : ValidConfig} {env : Env} {sh sh' : Shared} {pc pc' : Pc} {es : List Event}

/-- A batch stays, or is given up, or is taken with the cached versions. -/
theorem batch_step (hs : pc.step cfg env sh = some (sh', pc', es)) :
    (batch pc').map stateKey = (batch pc).map stateKey ∨ batch pc' = [] ∨
      (batch pc = [] ∧ ∀ w ∈ (batch pc').map stateKey, sh.cache.versions w.1 = some w.2) := by
  by_cases hck : isCheckpoint pc
  · cases pc with
    | checkpoint k count safe =>
      obtain ⟨wal, -, hhold, -⟩ := step_checkpoint hs
      have hbatch := congrArg Hold.batch hhold
      exact Or.inr (Or.inl (List.map_eq_nil_iff.mp hbatch))
    | _ => exact hck.elim
  · rcases (step_act hck hs ∅).batch with hsame | hnil | ⟨hnone, htaken⟩
    · exact Or.inl hsame
    · exact Or.inr (Or.inl (List.map_eq_nil_iff.mp hnil))
    · exact Or.inr (Or.inr ⟨List.map_eq_nil_iff.mp hnone, htaken⟩)

theorem persistedStates_append (h e : List (Tid × Event)) :
    persistedStates (h ++ e) = persistedStates h ++ persistedStates e := List.flatMap_append

theorem persistedStates_eq_nil {e : List (Tid × Event)} (he : ∀ t states, (t, .persisted states) ∉ e) :
    persistedStates e = [] := by
  refine List.flatMap_eq_nil_iff.mpr fun ⟨t, ev⟩ hev => ?_
  cases ev with
  | persisted states => exact absurd hev (he t states)
  | _ => rfl

/-- Only `persist_batch` gives states to the store. -/
theorem persisted_pc (hs : pc.step cfg env sh = some (sh', pc', es)) {states : List PlayerState}
    (hev : .persisted states ∈ es) : ∃ k last attempt, pc = .persistBatch k states last attempt := by
  by_cases hl : isLoud pc = false
  · cases (quiet_step hl hs).reports _ hev
  cases pc <;> simp only [isLoud, not_true] at hl
  case persistBatch k states' last attempt =>
    simp only [Pc.step] at hs
    rcases hx : env.persist with _ | err
    · simp only [hx, Option.some.injEq, Prod.mk.injEq] at hs
      obtain ⟨-, -, rfl⟩ := hs
      obtain rfl := Event.persisted.inj (List.mem_singleton.mp hev)
      exact ⟨k, last, attempt, rfl⟩
    · simp only [hx] at hs
      split at hs <;> simp only [Option.some.injEq, Prod.mk.injEq] at hs <;>
        obtain ⟨-, -, rfl⟩ := hs <;> cases hev
  case checkpoint k count safe =>
    have hno := (target_checkpointFailed count k).2
    simp only [Pc.step] at hs
    rcases hx : env.checkpoint <;> simp only [hx, Option.some.injEq, Prod.mk.injEq] at hs <;>
      obtain ⟨-, -, rfl⟩ := hs
    · cases hev
    · cases hno _ hev
    · cases hno _ hev
  case durableNote | durableAppend | durableEnqueue | appendBatch | watermark =>
    simp only [Pc.step] at hs
    repeat' split at hs
    all_goals
      simp only [Option.some.injEq, Prod.mk.injEq] at hs
      obtain ⟨-, -, rfl⟩ := hs
      simp at hev

/-- A successful `persist_batch` gives its batch to the store, and is then done with it. -/
theorem persisted_step (hs : pc.step cfg env sh = some (sh', pc', es)) (t : Tid) :
    persistedStates (tagged t es) = [] ∨
      ∃ k states last attempt, pc = .persistBatch k states last attempt ∧ env.persist = none ∧
        persistedStates (tagged t es) = states ∧ batch pc' = [] := by
  by_cases hp : ∃ states, .persisted states ∈ es
  · obtain ⟨states, hev⟩ := hp
    obtain ⟨k, last, attempt, rfl⟩ := persisted_pc hs hev
    simp only [Pc.step] at hs
    rcases hx : env.persist with _ | err
    · simp only [hx, Option.some.injEq, Prod.mk.injEq] at hs
      obtain ⟨rfl, rfl, rfl⟩ := hs
      exact Or.inr ⟨k, states, last, attempt, rfl, rfl, List.append_nil states, rfl⟩
    · simp only [hx] at hs
      split at hs <;> simp only [Option.some.injEq, Prod.mk.injEq] at hs <;>
        obtain ⟨-, -, rfl⟩ := hs <;> cases hev
  · refine Or.inl (persistedStates_eq_nil fun u states hmem => hp ⟨states, ?_⟩)
    obtain ⟨ev, hev, heq⟩ := List.mem_map.mp hmem
    obtain ⟨-, rfl⟩ := Prod.mk.inj heq
    exact hev

end Steps

/-! ### Batches and what has been given -/

theorem mem_given {h : List (Tid × Event)} {id : PlayerId} {v : UInt64} :
    v ∈ given h id ↔ ∃ st ∈ persistedStates h, st.playerId = id ∧ st.version = v := by
  unfold given
  simp only [List.mem_map, List.mem_filter, decide_eq_true_eq, and_assoc]

theorem mem_overtakes {states batch : List PlayerState} {id : PlayerId} :
    id ∈ overtakes states batch ↔ ∃ st ∈ batch, st.playerId = id ∧
      ∃ st' ∈ states, st'.playerId = id ∧ st.version < st'.version := by
  unfold overtakes
  simp only [List.mem_map, List.mem_filter, decide_eq_true_eq]
  constructor
  · rintro ⟨st, ⟨hst, st', hst', hid, hlt⟩, rfl⟩
    exact ⟨st, hst, rfl, st', hst', hid, hlt⟩
  · rintro ⟨st, hst, rfl, st', hst', hid, hlt⟩
    exact ⟨st, ⟨hst, st', hst', hid, hlt⟩, rfl⟩

theorem given_append (h e : List (Tid × Event)) (id : PlayerId) :
    given (h ++ e) id = given h id ++ given e id := by
  unfold given
  rw [persistedStates_append, List.filter_append, List.map_append]

theorem given_eq_nil {e : List (Tid × Event)} (he : persistedStates e = []) (id : PlayerId) :
    given e id = [] := by
  unfold given
  rw [he]
  rfl

/-- The writes in the batch that a thread holds. -/
def writes (w : World) (t : Tid) : List Write := (batch (w.engine.pc t)).map stateKey

/-- **What a world knows of batches**: the cache is as new as everything given and as every batch; a batch
that has not been overtaken in a player is as new as everything given for the player, and one that has
been is older than something given. -/
structure Inv (w : World) (h : List (Tid × Event)) : Prop where
  newest : ∀ id, ∀ v ∈ given h id, Reaches w.engine.sh.cache.versions id v
  taken : ∀ t, ∀ k ∈ writes w t, Reaches w.engine.sh.cache.versions k.1 k.2
  single : ∀ t, ∀ k ∈ writes w t, ∀ k' ∈ writes w t, k.1 = k'.1 → k.2 = k'.2
  ahead : ∀ t, ∀ k ∈ writes w t, k.1 ∉ w.overtaken t → ∀ v ∈ given h k.1, v ≤ k.2
  behind : ∀ t, ∀ id ∈ w.overtaken t, ∃ v, (id, v) ∈ writes w t ∧ ∃ v' ∈ given h id, v < v'

section Runs
variable {cfg : ValidConfig} {w w' : World} {h e : List (Tid × Event)} {a : Machine.Action}
  {t : Tid} {env : Env} {sh : Shared} {pc : Pc} {es : List Event}

/-- What a step gives to the store was in the thread's batch. -/
theorem given_step (hstep : (w.engine.pc t).step cfg env w.engine.sh = some (sh, pc, es))
    {id : PlayerId} {v : UInt64} (hv : v ∈ given (tagged t es) id) : (id, v) ∈ writes w t := by
  obtain ⟨st, hst, rfl, rfl⟩ := mem_given.mp hv
  rcases persisted_step hstep t with hnone | ⟨k, states, last, attempt, hpc, -, hstates, -⟩
  · rw [hnone] at hst
    cases hst
  · rw [hstates] at hst
    have hbatch : batch (w.engine.pc t) = states := by rw [hpc]; rfl
    rw [writes, hbatch]
    exact List.mem_map_of_mem hst

/-- A step after which the thread holds a batch gives nothing. -/
theorem given_of_batch (hstep : (w.engine.pc t).step cfg env w.engine.sh = some (sh, pc, es))
    (hne : batch pc ≠ []) (id : PlayerId) : given (tagged t es) id = [] := by
  rcases persisted_step hstep t with hnone | ⟨-, -, -, -, -, -, -, hnil⟩
  · exact given_eq_nil hnone id
  · exact absurd hnil hne

/-- The thread that steps: its batch stays, with its marks, or is taken and has none. -/
theorem batch_marks (hstep : (w.engine.pc t).step cfg env w.engine.sh = some (sh, pc, es))
    (hw : w'.engine = { sh := sh, pc := Function.update w.engine.pc t pc })
    (ho : w'.overtaken = w.marks w'.engine (tagged t es) (.run t env)) :
    (writes w' t = writes w t ∧ batch (w.engine.pc t) ≠ [] ∧ batch pc ≠ [] ∧
      w'.overtaken t = w.overtaken t) ∨
    (writes w' t = [] ∧ w'.overtaken t = []) ∨
    (batch pc ≠ [] ∧ w'.overtaken t = [] ∧
      ∀ k ∈ writes w' t, w.engine.sh.cache.versions k.1 = some k.2) := by
  have hself : w'.engine.pc t = pc := by
    rw [hw]
    exact Function.update_self ..
  have hmarks : w'.overtaken t =
      if batch (w.engine.pc t) = [] ∨ batch pc = [] then [] else w.overtaken t := by
    rw [ho, World.marks, if_pos rfl, hself]
  have hwrites : writes w' t = (batch pc).map stateKey := by rw [writes, hself]
  by_cases hnil : batch pc = []
  · refine Or.inr (Or.inl ⟨?_, ?_⟩)
    · rw [hwrites, hnil]
      rfl
    · rw [hmarks, if_pos (Or.inr hnil)]
  · by_cases hold : batch (w.engine.pc t) = []
    · refine Or.inr (Or.inr ⟨hnil, by rw [hmarks, if_pos (Or.inl hold)], fun k hk => ?_⟩)
      rw [hwrites] at hk
      rcases batch_step hstep with hsame | hnil' | ⟨-, htaken⟩
      · rw [hsame, hold] at hk
        cases hk
      · exact absurd hnil' hnil
      · exact htaken k hk
    · refine Or.inl ⟨?_, hold, hnil, ?_⟩
      · rw [hwrites]
        rcases batch_step hstep with hsame | hnil' | ⟨hold', -⟩
        · exact hsame
        · exact absurd hnil' hnil
        · exact absurd hold' hold
      · rw [hmarks, if_neg]
        rintro (h1 | h1)
        · exact hold h1
        · exact hnil h1

theorem writes_of_ne (hw : w'.engine = { sh := sh, pc := Function.update w.engine.pc t pc }) {u : Tid}
    (hu : u ≠ t) : writes w' u = writes w u := by
  rw [writes, writes, hw]
  simp only [Function.update_of_ne hu]

theorem marks_of_ne (ho : w'.overtaken = w.marks w'.engine (tagged t es) (.run t env)) {u : Tid}
    (hu : u ≠ t) : w'.overtaken u =
      w.overtaken u ++ overtakes (persistedStates (tagged t es)) (batch (w.engine.pc u)) := by
  rw [ho, World.marks, if_neg hu]

theorem mem_given_append {id : PlayerId} {v : UInt64} (hv : v ∈ given h id) :
    v ∈ given (h ++ e) id := by
  rw [given_append]
  exact List.mem_append_left _ hv

/-- What is given was in a batch, which the cache is as new as. -/
theorem Inv.newest_run (hi : Inv w h)
    (hstep : (w.engine.pc t).step cfg env w.engine.sh = some (sh, pc, es)) {id : PlayerId} {v : UInt64}
    (hv : v ∈ given (h ++ tagged t es) id) : Reaches w.engine.sh.cache.versions id v := by
  rw [given_append] at hv
  rcases List.mem_append.mp hv with hv | hv
  · exact hi.newest id v hv
  · exact hi.taken t (id, v) (given_step hstep hv)

/-- The cache is as new as every batch after the step. -/
theorem Inv.taken_run (hi : Inv w h)
    (hstep : (w.engine.pc t).step cfg env w.engine.sh = some (sh, pc, es))
    (hw : w'.engine = { sh := sh, pc := Function.update w.engine.pc t pc })
    (ho : w'.overtaken = w.marks w'.engine (tagged t es) (.run t env)) {u : Tid} {k : Write}
    (hk : k ∈ writes w' u) : Reaches w.engine.sh.cache.versions k.1 k.2 := by
  by_cases hu : u = t
  · subst hu
    rcases batch_marks hstep hw ho with ⟨hsame, -⟩ | ⟨hnil, -⟩ | ⟨-, -, htaken⟩
    · exact hi.taken u k (hsame ▸ hk)
    · rw [hnil] at hk
      cases hk
    · exact ⟨k.2, htaken k hk, le_rfl⟩
  · exact hi.taken u k (writes_of_ne hw hu ▸ hk)

/-- A batch has one version of each player. -/
theorem Inv.single_run (hi : Inv w h)
    (hstep : (w.engine.pc t).step cfg env w.engine.sh = some (sh, pc, es))
    (hw : w'.engine = { sh := sh, pc := Function.update w.engine.pc t pc })
    (ho : w'.overtaken = w.marks w'.engine (tagged t es) (.run t env)) {u : Tid} {k k' : Write}
    (hk : k ∈ writes w' u) (hk' : k' ∈ writes w' u) (heq : k.1 = k'.1) : k.2 = k'.2 := by
  by_cases hu : u = t
  · subst hu
    rcases batch_marks hstep hw ho with ⟨hsame, -⟩ | ⟨hnil, -⟩ | ⟨-, -, htaken⟩
    · rw [hsame] at hk hk'
      exact hi.single u k hk k' hk' heq
    · rw [hnil] at hk
      cases hk
    · have hcached := htaken k hk
      rw [heq, htaken k' hk'] at hcached
      exact (Option.some.inj hcached).symm
  · rw [writes_of_ne hw hu] at hk hk'
    exact hi.single u k hk k' hk' heq

/-- A batch that has not been overtaken is as new as what has been given. -/
theorem Inv.ahead_run (hi : Inv w h)
    (hstep : (w.engine.pc t).step cfg env w.engine.sh = some (sh, pc, es))
    (hw : w'.engine = { sh := sh, pc := Function.update w.engine.pc t pc })
    (ho : w'.overtaken = w.marks w'.engine (tagged t es) (.run t env)) {u : Tid} {k : Write}
    (hk : k ∈ writes w' u) (hno : k.1 ∉ w'.overtaken u) {v : UInt64}
    (hv : v ∈ given (h ++ tagged t es) k.1) : v ≤ k.2 := by
  rw [given_append] at hv
  by_cases hu : u = t
  · subst hu
    rcases batch_marks hstep hw ho with ⟨hsame, -, hne, hover⟩ | ⟨hnil, -⟩ | ⟨hne, -, htaken⟩
    · rw [given_of_batch hstep hne, List.append_nil] at hv
      rw [hover] at hno
      exact hi.ahead u k (hsame ▸ hk) hno v hv
    · rw [hnil] at hk
      cases hk
    · rw [given_of_batch hstep hne, List.append_nil] at hv
      obtain ⟨x, hx, hle⟩ := hi.newest k.1 v hv
      rw [htaken k hk] at hx
      exact Option.some.inj hx ▸ hle
  · rw [writes_of_ne hw hu] at hk
    rw [marks_of_ne ho hu] at hno
    rcases List.mem_append.mp hv with hv | hv
    · exact hi.ahead u k hk (fun hmem => hno (List.mem_append_left _ hmem)) v hv
    · by_contra hlt
      obtain ⟨st', hst', hid, rfl⟩ := mem_given.mp hv
      obtain ⟨st, hst, rfl⟩ := List.mem_map.mp hk
      exact hno (List.mem_append_right _
        (mem_overtakes.mpr ⟨st, hst, rfl, st', hst', hid, not_le.mp hlt⟩))

/-- A batch that has been overtaken is older than something given. -/
theorem Inv.behind_run (hi : Inv w h)
    (hstep : (w.engine.pc t).step cfg env w.engine.sh = some (sh, pc, es))
    (hw : w'.engine = { sh := sh, pc := Function.update w.engine.pc t pc })
    (ho : w'.overtaken = w.marks w'.engine (tagged t es) (.run t env)) {u : Tid} {id : PlayerId}
    (hid : id ∈ w'.overtaken u) : ∃ v, (id, v) ∈ writes w' u ∧
      ∃ v' ∈ given (h ++ tagged t es) id, v < v' := by
  by_cases hu : u = t
  · subst hu
    rcases batch_marks hstep hw ho with ⟨hsame, -, -, hover⟩ | ⟨-, hnone⟩ | ⟨-, hnone, -⟩
    · rw [hover] at hid
      rw [hsame]
      obtain ⟨v, hv, v', hv', hlt⟩ := hi.behind u id hid
      exact ⟨v, hv, v', mem_given_append hv', hlt⟩
    · rw [hnone] at hid
      cases hid
    · rw [hnone] at hid
      cases hid
  · rw [marks_of_ne ho hu] at hid
    rw [writes_of_ne hw hu]
    rcases List.mem_append.mp hid with hid | hid
    · obtain ⟨v, hv, v', hv', hlt⟩ := hi.behind u id hid
      exact ⟨v, hv, v', mem_given_append hv', hlt⟩
    · obtain ⟨st, hst, rfl, st', hst', hid, hlt⟩ := mem_overtakes.mp hid
      refine ⟨st.version, List.mem_map_of_mem hst, st'.version, ?_, hlt⟩
      rw [given_append]
      exact List.mem_append_right _ (mem_given.mpr ⟨st', hst', hid, rfl⟩)

/-- **A thread's step keeps the invariant.** -/
theorem Inv.run (hi : Inv w h) (hstep : (w.engine.pc t).step cfg env w.engine.sh = some (sh, pc, es))
    (hmono : ∀ id v, Reaches w.engine.sh.cache.versions id v → Reaches sh.cache.versions id v)
    (hw : w'.engine = { sh := sh, pc := Function.update w.engine.pc t pc })
    (ho : w'.overtaken = w.marks w'.engine (tagged t es) (.run t env)) : Inv w' (h ++ tagged t es) := by
  have hshared : w'.engine.sh = sh := by rw [hw]
  refine ⟨fun id v hv => ?_, fun u k hk => ?_, fun u k hk k' hk' heq => hi.single_run hstep hw ho hk hk' heq,
    fun u k hk hno v hv => hi.ahead_run hstep hw ho hk hno hv,
    fun u id hid => hi.behind_run hstep hw ho hid⟩
  · rw [hshared]
    exact hmono id v (hi.newest_run hstep hv)
  · rw [hshared]
    exact hmono k.1 k.2 (hi.taken_run hstep hw ho hk)

/-- A step without a thread's call gives nothing, and leaves the cache and all batches. -/
theorem Inv.stay (hi : Inv w h) (hcache : w'.engine.sh.cache = w.engine.sh.cache)
    (hwrites : ∀ u, writes w' u = writes w u) (ho : w'.overtaken = w.overtaken)
    (he : persistedStates e = []) : Inv w' (h ++ e) := by
  have hgiven : ∀ id, given (h ++ e) id = given h id := by
    intro id
    rw [given_append, given_eq_nil he, List.append_nil]
  refine ⟨fun id v hv => ?_, fun u k hk => ?_, fun u => ?_, fun u k hk hno v hv => ?_, fun u id hid => ?_⟩
  · rw [hcache]
    exact hi.newest id v (hgiven id ▸ hv)
  · rw [hcache]
    exact hi.taken u k (hwrites u ▸ hk)
  · rw [hwrites]
    exact hi.single u
  · rw [ho] at hno
    exact hi.ahead u k (hwrites u ▸ hk) hno v (hgiven k.1 ▸ hv)
  · rw [ho] at hid
    rw [hwrites, hgiven]
    exact hi.behind u id hid

theorem world_step (hs : w.step cfg a = some (w', e)) :
    w.engine.step cfg a = some (w'.engine, e) ∧ w'.overtaken = w.marks w'.engine e a := by
  obtain ⟨⟨engine, e'⟩, hengine, heq⟩ := Option.map_eq_some_iff.mp hs
  obtain ⟨rfl, rfl⟩ := Prod.mk.inj heq
  exact ⟨hengine, rfl⟩

theorem persistedStates_entry (n : ℕ) (c : Call) :
    persistedStates (tagged (.client n) c.entry.2) = [] := by
  cases c <;> rfl

theorem writes_call {n : ℕ} {c : Call} (hidle : w.engine.pc (.client n) = .idle)
    (hw : w'.engine = { w.engine with pc := Function.update w.engine.pc (.client n) c.entry.1 })
    (u : Tid) : writes w' u = writes w u := by
  rw [writes, writes, hw]
  by_cases hu : u = .client n
  · subst hu
    simp only [Function.update_self, hidle]
    cases c <;> rfl
  · simp only [Function.update_of_ne hu]

/-- **Every step keeps the invariant.** -/
theorem Inv.step (hi : Inv w h) (hs : w.step cfg a = some (w', e)) : Inv w' (h ++ e) := by
  obtain ⟨hengine, ho⟩ := world_step hs
  have hmove : Move (pipe w.engine h) (pipe w'.engine (h ++ e)) := step_move hengine
  have hmono : ∀ id v, Reaches w.engine.sh.cache.versions id v →
      Reaches w'.engine.sh.cache.versions id v := fun _ _ hv => hmove.reaches_cached hv
  rcases step_cases hengine with ⟨n, c, rfl, hidle, rfl, hw⟩ |
    ⟨t, env, sh, pc, es, rfl, hstep, rfl, hw⟩ | ⟨rfl, rfl, hw⟩
  · refine hi.stay ?_ (writes_call hidle hw) ho (persistedStates_entry n c)
    rw [hw]
  · rw [hw] at hmono
    exact hi.run hstep hmono hw ho
  · refine hi.stay ?_ (fun u => ?_) ho rfl
    · rw [hw]
    · rw [writes, writes, hw]

theorem inv_init (hinit : (watched cfg).init w) : Inv w [] := by
  obtain ⟨⟨wal, table, hw⟩, ho⟩ := hinit
  have hnone : ∀ t, writes w t = [] := by
    intro t
    rw [writes, hw]
    cases t <;> rfl
  refine ⟨fun id v hv => (by cases hv), fun u k hk => ?_, fun u k hk => ?_, fun u k hk => ?_,
    fun u id hid => ?_⟩
  · rw [hnone] at hk
    cases hk
  · rw [hnone] at hk
    cases hk
  · rw [hnone] at hk
    cases hk
  · rw [ho] at hid
    cases hid

theorem run_inv {ok : Guard World Machine.Action (Tid × Event)} (hr : Run (watched cfg) ok w h) :
    Inv w h :=
  hr.invariant (I := fun w h => Inv w h) (fun _ => inv_init) fun _ _ _ _ _ _ hi _ hs => hi.step hs

/-! ### Order and overtaking -/

/-- Persisting a batch that has not been overtaken keeps the order. -/
theorem Inv.inOrder_step (hi : Inv w h) (hs : w.step cfg a = some (w', e)) (hord : InOrder h)
    (hok : notOvertaken w h a) : InOrder (h ++ e) := by
  obtain ⟨hengine, -⟩ := world_step hs
  intro id
  rw [given_append]
  rcases step_cases hengine with ⟨n, c, -, -, rfl, -⟩ | ⟨t, env, sh, pc, es, rfl, hstep, rfl, -⟩ |
    ⟨-, rfl, -⟩
  · rw [given_eq_nil (persistedStates_entry n c), List.append_nil]
    exact hord id
  · refine List.pairwise_append.mpr ⟨hord id, ?_, fun v hv v' hv' => ?_⟩
    · refine List.pairwise_of_forall_mem_list fun v hv v' hv' => ?_
      have hsame := hi.single t _ (given_step hstep hv) _ (given_step hstep hv') rfl
      exact hsame.le
    · have hmem := given_step hstep hv'
      have hnone : w.overtaken t = [] := by
        rcases persisted_step hstep t with hnil | ⟨k, states, last, attempt, hpc, hx, -⟩
        · rw [given_eq_nil hnil] at hv'
          cases hv'
        · exact hok t env k states last attempt rfl hpc hx
      exact hi.ahead t (id, v') hmem (by rw [hnone]; exact List.not_mem_nil) v hv
  · have hnil : given ([] : List (Tid × Event)) id = [] := rfl
    rw [hnil, List.append_nil]
    exact hord id

/-- Persisting an overtaken batch breaks the order. -/
theorem Inv.notOvertaken_of_inOrder (hi : Inv w h) (hs : w.step cfg a = some (w', e))
    (hord : InOrder (h ++ e)) : notOvertaken w h a := by
  rintro t env k states last attempt rfl hpc hx
  obtain ⟨hengine, -⟩ := world_step hs
  have he : persistedStates e = states := by
    simp only [FluxEngine.step, hpc, Pc.step, hx] at hengine
    obtain ⟨-, rfl⟩ := Prod.mk.inj (Option.some.inj hengine)
    exact List.append_nil states
  have hwrites : writes w t = states.map stateKey := by
    rw [writes, hpc]
    rfl
  refine List.eq_nil_iff_forall_not_mem.mpr fun id hid => ?_
  obtain ⟨v, hv, v', hv', hlt⟩ := hi.behind t id hid
  rw [hwrites] at hv
  obtain ⟨st, hst, hkey⟩ := List.mem_map.mp hv
  obtain ⟨hid', hver⟩ := Prod.mk.inj hkey
  have hgiven : v ∈ given e id := mem_given.mpr ⟨st, he ▸ hst, hid', hver⟩
  have hpair := hord id
  rw [given_append] at hpair
  have hle := (List.pairwise_append.mp hpair).2.2 v' hv' v hgiven
  exact absurd hlt (not_lt.mpr hle)

/-- A run that persists no overtaken batch is in order. -/
theorem inOrder_of_run (hr : Run (watched cfg) notOvertaken w h) : InOrder h := by
  refine hr.invariant (I := fun _ h => InOrder h) (fun _ _ id => List.Pairwise.nil) ?_
  exact fun w h a w' e hr hord hok hs => (run_inv hr).inOrder_step hs hord hok

/-- A run that is in order persists no overtaken batch. -/
theorem run_of_inOrder (hr : Run (watched cfg) anyStep w h) (hord : InOrder h) :
    Run (watched cfg) notOvertaken w h := by
  induction hr with
  | init hinit => exact Run.init hinit
  | step hr _ hs ih =>
    have hbefore : InOrder _ := fun id => by
      have hpair := hord id
      rw [given_append] at hpair
      exact (List.pairwise_append.mp hpair).1
    exact Run.step (ih hbefore) ((run_inv hr).notOvertaken_of_inOrder hs hord) hs

/-- Every run of the engine can be watched. -/
theorem exists_watched {s : FluxEngine} (hr : Run (system cfg) anyStep s h) :
    ∃ overtaken, Run (watched cfg) anyStep ⟨s, overtaken⟩ h := by
  induction hr with
  | init hinit => exact ⟨fun _ => [], Run.init ⟨hinit, rfl⟩⟩
  | @step s s' h e a _ _ hs ih =>
    obtain ⟨overtaken, hw⟩ := ih
    have hstep : s.step cfg a = some (s', e) := hs
    have hworld : World.step cfg ⟨s, overtaken⟩ a =
        some (⟨s', World.marks ⟨s, overtaken⟩ s' e a⟩, e) := by
      rw [World.step, hstep]
      rfl
    exact ⟨_, Run.step hw trivial hworld⟩

end Runs

/-! ### The result -/

/-- **The order of versions**: in a run, the versions given to the store never decrease for any player, if
and only if no batch is persisted that has been overtaken since it was taken. -/
theorem persisted_in_order_iff {cfg : ValidConfig} {s : FluxEngine} {h : List (Tid × Event)}
    (hr : Run (system cfg) anyStep s h) :
    InOrder h ↔ ∃ overtaken, Run (watched cfg) notOvertaken ⟨s, overtaken⟩ h := by
  constructor
  · intro hord
    obtain ⟨overtaken, hw⟩ := exists_watched hr
    exact ⟨overtaken, run_of_inOrder hw hord⟩
  · rintro ⟨overtaken, hw⟩
    exact inOrder_of_run hw

/-- The worker logs version 1 of a player, and its first attempt to persist it fails. -/
def retrying : List Machine.Action :=
  [.call 0 (.submit 7 1 []), .run (.client 0) (.fine []), .run (.client 0) (.fine [])] ++
    List.replicate 9 (.run .worker (.fine [7])) ++
    [.run .worker { Env.fine [7] with persist := some .unavailable }]

/-- Then version 2 is submitted, and flushed by a client. -/
def flushed : List Machine.Action :=
  [.call 0 (.submit 7 2 []), .run (.client 0) (.fine []), .run (.client 0) (.fine []),
    .call 1 .flushNow] ++ List.replicate 11 (.run (.client 1) (.fine [7]))

/-- The worker persists version 1 before version 2 is flushed. -/
theorem persisted_in_order_iff_retried : ∃ s h, Run (system oneByOne) anyStep s h ∧
    given h 7 = [1, 2] ∧ ∃ overtaken, Run (watched oneByOne) notOvertaken ⟨s, overtaken⟩ h := by
  obtain ⟨s, h, hr, hp⟩ := exists_run_of_exec (system oneByOne) anyStep (fun _ _ _ => true)
    (fun _ _ _ _ => trivial) (start Log.empty fun _ => none)
    (retrying ++ [.run .worker (.fine [7])] ++ flushed)
    (fun x => decide (persistedStates x.2 = [⟨7, 1, []⟩, ⟨7, 2, []⟩]))
    ⟨_, _, rfl⟩ (by decide +kernel)
  have hstates := of_decide_eq_true hp
  refine ⟨s, h, hr, ?_, (persisted_in_order_iff hr).mp fun id => ?_⟩
  · unfold given
    rw [hstates]
    decide
  · unfold given
    rw [hstates]
    by_cases hid : 7 = id
    · subst hid
      decide
    · simp [hid]

/-- The worker holds its batch in a retry while version 2 is persisted, and then persists version 1. -/
theorem older_version_last : ¬ ∀ (cfg : ValidConfig) (s : FluxEngine) (h : List (Tid × Event)),
    Run (system cfg) anyStep s h → InOrder h := by
  intro hall
  obtain ⟨s, h, hr, hp⟩ := exists_run_of_exec (system oneByOne) anyStep (fun _ _ _ => true)
    (fun _ _ _ _ => trivial) (start Log.empty fun _ => none)
    (retrying ++ flushed ++ [.run .worker (.fine [7])])
    (fun x => decide (given x.2 7 = [2, 1]))
    ⟨_, _, rfl⟩ (by decide +kernel)
  have hord := hall oneByOne s h hr 7
  rw [of_decide_eq_true hp] at hord
  exact absurd hord (by decide)

end FluxThroughput.Engine.Order
