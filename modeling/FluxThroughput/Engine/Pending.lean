import FluxThroughput.Engine.Barrier

/-! # The gauge of what is pending

`pending` reads the length of the ring, and later the number of dirty players; any steps of the engine may
come between the two reads. A player whose accepted write the store has not reached is in the ring or dirty,
or some thread has it in hand: it has drained a request of the player, or taken a batch with it
(`missed_of_not_counted`). What is in hand, and what has entered the ring after it was read, neither read
sees. The gauge is large enough as long as every such player has been seen elsewhere by the call, and a gauge
of zero means that nothing is unsaved in just these cases (`pending_covers`). -/

namespace FluxThroughput.Engine.Pending

open FluxThroughput.Domain.Types FluxThroughput.Cache.WriteBehind FluxThroughput.Store.Mock
open FluxThroughput.Wal.Atomic FluxThroughput.Engine.Config FluxThroughput.Engine.Machine
open FluxThroughput.Engine.Refine FluxThroughput.Engine.NoLoss FluxThroughput.Engine.Barrier
open FluxThroughput.Lib.Transition FluxThroughput.Lib.WriteBehind

/-! ### Callers of `pending` -/

/-- A caller of `FluxEngine::pending`: outside a call, between its two reads, with the ring as the first read
found it, or with the answer. -/
inductive Caller
  | idle
  | ringRead (ring : List WriteRequest)
  | returned (pending : ℕ)
  deriving DecidableEq, Repr

/-- A running engine, and any number of callers. -/
structure World where
  engine : FluxEngine
  caller : ℕ → Caller

/-- The engine makes a step, or a caller makes one of the two reads of `pending`. -/
inductive Action
  | act (a : Machine.Action)
  | ringLen (n : ℕ)
  | dirtyLen (n : ℕ)

/-- The answer is `ring.len() + cache.dirty_len()`, each as of its own moment. -/
def World.step (cfg : ValidConfig) (w : World) : Pending.Action → Option (World × List (Tid × Event))
  | .act a => (w.engine.step cfg a).map fun x => ({ w with engine := x.1 }, x.2)
  | .ringLen n =>
    match w.caller n with
    | .ringRead _ => none
    | _ => some ({ w with caller := Function.update w.caller n (.ringRead w.engine.sh.ring) }, [])
  | .dirtyLen n =>
    match w.caller n with
    | .ringRead ring =>
      some ({ w with
        caller := Function.update w.caller n (.returned (ring.length + w.engine.sh.cache.dirtyLen)) }, [])
    | _ => none

/-- The engine with its callers. -/
def gauged (cfg : ValidConfig) : System World Pending.Action (Tid × Event) where
  init w := (system cfg).init w.engine ∧ w.caller = fun _ => .idle
  step := World.step cfg

/-! ### What a call sees -/

/-- The store has reached the request. -/
def stored (table : Table) (req : WriteRequest) : Bool :=
  match table req.playerId with
  | some st => decide (req.version ≤ st.version)
  | none => false

/-- The players with an accepted write of a higher version than the store holds. -/
def unsaved (s : FluxEngine) (h : List (Tid × Event)) : Finset PlayerId :=
  (((enqueued h).filter fun req => !stored s.sh.table req).map WriteRequest.playerId).toFinset

/-- A thread has the player in hand: drained and not applied, or taken and neither persisted nor put
back. -/
def InHands (s : FluxEngine) (id : PlayerId) : Prop :=
  ∃ t, (∃ r ∈ buffer (s.pc t), r.playerId = id) ∨ ∃ st ∈ batch (s.pc t), st.playerId = id

/-- The players of some requests. -/
def players (reqs : List WriteRequest) : Finset PlayerId := (reqs.map WriteRequest.playerId).toFinset

/-- The call counts the player: it was in the ring at the first read, or it is dirty at the second. -/
def Counted (ring : List WriteRequest) (s : FluxEngine) (id : PlayerId) : Prop :=
  id ∈ players ring ∨ id ∈ s.sh.cache.inner.dirty

/-- **The call misses the player**: at the second read a thread has it in hand, or it has come into the ring
since the first read, and the call does not count it. -/
def Missed (ring : List WriteRequest) (s : FluxEngine) (id : PlayerId) : Prop :=
  (InHands s id ∨ id ∈ players s.sh.ring) ∧ ¬ Counted ring s id

variable {cfg : ValidConfig} {s : FluxEngine} {w w' : World} {h e : List (Tid × Event)} {id : PlayerId}

theorem stored_iff {req : WriteRequest} :
    stored s.sh.table req = true ↔ StoreHolds s req.playerId req.version := by
  unfold stored StoreHolds
  rcases s.sh.table req.playerId with _ | st
  · exact ⟨fun h => (by cases h), fun ⟨_, h, _⟩ => (by cases h)⟩
  · simp only [decide_eq_true_eq]
    constructor
    · exact fun hle => ⟨st, rfl, hle⟩
    · rintro ⟨st', heq, hle⟩
      obtain rfl := Option.some.inj heq
      exact hle

theorem mem_enqueued {req : WriteRequest} : req ∈ enqueued h ↔ ∃ t, (t, Event.enqueued req) ∈ h := by
  unfold enqueued
  rw [List.mem_filterMap]
  constructor
  · rintro ⟨⟨t, ev⟩, hev, heq⟩
    cases ev with
    | enqueued req' =>
      obtain rfl := Option.some.inj heq
      exact ⟨t, hev⟩
    | _ => cases heq
  · rintro ⟨t, hev⟩
    exact ⟨_, hev, rfl⟩

theorem mem_unsaved : id ∈ unsaved s h ↔ ∃ t req, (t, Event.enqueued req) ∈ h ∧ req.playerId = id ∧
    ¬ StoreHolds s req.playerId req.version := by
  unfold unsaved
  simp only [List.mem_toFinset, List.mem_map, List.mem_filter, mem_enqueued, Bool.not_eq_true',
    ← stored_iff, Bool.not_eq_true]
  constructor
  · rintro ⟨req, ⟨⟨t, hev⟩, hno⟩, hid⟩
    exact ⟨t, req, hev, hid, hno⟩
  · rintro ⟨t, req, hev, hid, hno⟩
    exact ⟨req, ⟨⟨t, hev⟩, hno⟩, hid⟩

/-- **An unsaved player that the call does not count is missed.** -/
theorem missed_of_not_counted (hr : Run (system cfg) anyStep s h) (hu : id ∈ unsaved s h)
    {ring : List WriteRequest} (hno : ¬ Counted ring s id) : Missed ring s id := by
  refine ⟨?_, hno⟩
  obtain ⟨t, req, hev, rfl, hunsaved⟩ := mem_unsaved.mp hu
  obtain ⟨haccounted, hanswered, -⟩ := no_accepted_update_lost hr
  have hkey : ∀ {a b : Write}, a = b → a.1 = b.1 := congrArg Prod.fst
  rcases haccounted t req hev with ⟨r, hr, heq⟩ | ⟨u, r, hr, heq⟩ | ⟨st, hst, hle⟩
  · exact Or.inr (List.mem_toFinset.mpr (List.mem_map.mpr ⟨r, hr, hkey heq⟩))
  · exact Or.inl ⟨u, Or.inl ⟨r, hr, hkey heq⟩⟩
  · have hid : st.playerId = req.playerId := by
      obtain ⟨e, he, rfl⟩ := Option.map_eq_some_iff.mp hst
      exact s.sh.cache.lockstep.key _ e he
    rcases hanswered _ st hst with hd | ⟨u, b, hb, heq⟩ | ⟨cur, hcur, hle'⟩
    · rw [hid] at hd
      exact absurd (Or.inr hd) hno
    · exact Or.inl ⟨u, Or.inr ⟨b, hb, (hkey heq).trans hid⟩⟩
    · rw [hid] at hcur
      exact absurd ⟨cur, hcur, hle.trans hle'⟩ hunsaved

/-- **What is counted**: no more players than the two reads add up to. -/
theorem card_le_of_counted {ids : Finset PlayerId} {ring : List WriteRequest}
    (hc : ∀ id ∈ ids, Counted ring s id) : ids.card ≤ ring.length + s.sh.cache.dirtyLen := by
  have hsub : ids ⊆ players ring ∪ s.sh.cache.inner.dirty := fun id hid => Finset.mem_union.mpr (hc id hid)
  have hring : (players ring).card ≤ ring.length := by
    have hle := List.toFinset_card_le (ring.map WriteRequest.playerId)
    rwa [List.length_map] at hle
  calc ids.card ≤ (players ring ∪ s.sh.cache.inner.dirty).card := Finset.card_le_card hsub
    _ ≤ (players ring).card + s.sh.cache.inner.dirty.card := Finset.card_union_le _ _
    _ ≤ ring.length + s.sh.cache.dirtyLen := Nat.add_le_add_right hring _

/-- A call that answers zero has counted nothing. -/
theorem not_counted_of_zero {ring : List WriteRequest} (hz : ring.length + s.sh.cache.dirtyLen = 0) :
    ¬ Counted ring s id := by
  obtain ⟨hring, hdirty⟩ := Nat.add_eq_zero_iff.mp hz
  have hring' : ring = [] := List.length_eq_zero_iff.mp hring
  have hdirty' : s.sh.cache.inner.dirty = ∅ := Finset.card_eq_zero.mp hdirty
  simp [Counted, hring', hdirty', players]

/-! ### Every call -/

/-- Callers of `pending` leave the engine alone. -/
theorem engine_run (hr : Run (gauged cfg) anyStep w h) : Run (system cfg) anyStep w.engine h := by
  induction hr with
  | init hs => exact Run.init hs.1
  | @step w w' h e a _ _ hs ih =>
    cases a with
    | act a =>
      obtain ⟨⟨engine, e'⟩, hengine, heq⟩ := Option.map_eq_some_iff.mp hs
      obtain ⟨rfl, rfl⟩ := Prod.mk.inj heq
      exact ih.step trivial hengine
    | ringLen n | dirtyLen n =>
      simp only [gauged, World.step] at hs
      split at hs <;> cases hs
      all_goals
        rw [List.append_nil]
        exact ih

/-- What the second read of a call does. -/
theorem dirtyLen_step {n : ℕ} (hs : w.step cfg (.dirtyLen n) = some (w', e)) :
    ∃ ring, w.caller n = .ringRead ring ∧
      w'.caller n = .returned (ring.length + w.engine.sh.cache.dirtyLen) := by
  simp only [World.step] at hs
  split at hs
  · rename_i ring hcall
    cases hs
    exact ⟨ring, hcall, Function.update_self ..⟩
  · cases hs

/-- A call that has read the ring can go on at once. -/
theorem exists_dirtyLen_step (cfg : ValidConfig) {n : ℕ} {ring : List WriteRequest}
    (hcall : w.caller n = .ringRead ring) :
    ∃ w', w.step cfg (.dirtyLen n) = some (w', []) ∧
      w'.caller n = .returned (ring.length + w.engine.sh.cache.dirtyLen) := by
  simp only [World.step, hcall]
  exact ⟨_, rfl, Function.update_self ..⟩

/-- **`pending` and the unsaved players**, in every run and every call, as it returns: if the call misses no
player with an accepted write that the store has not reached, the answer is at least the number of these
players; and if the answer is zero, the call has missed all of them. -/
theorem pending_covers {n : ℕ} (hr : Run (gauged cfg) anyStep w h)
    (hs : w.step cfg (.dirtyLen n) = some (w', e)) :
    ∃ ring pending, w.caller n = .ringRead ring ∧ w'.caller n = .returned pending ∧
      ((∀ id ∈ unsaved w.engine h, ¬ Missed ring w.engine id) → (unsaved w.engine h).card ≤ pending) ∧
      (pending = 0 → ∀ id ∈ unsaved w.engine h, Missed ring w.engine id) := by
  obtain ⟨ring, hcall, hreturned⟩ := dirtyLen_step hs
  refine ⟨ring, _, hcall, hreturned, fun hseen => card_le_of_counted fun id hid => ?_, fun hz id hid => ?_⟩
  · by_contra hno
    exact hseen id hid (missed_of_not_counted (engine_run hr) hid hno)
  · exact missed_of_not_counted (engine_run hr) hid (not_counted_of_zero hz)

/-- A write is accepted and, once the ring has been read, drained: the call does not miss it. -/
theorem pending_covers_submit : ∃ w w' h e, Run (gauged oneByOne) anyStep w h ∧
    w.step oneByOne (.dirtyLen 0) = some (w', e) ∧ w'.caller 0 = .returned 1 ∧
    InHands w.engine 7 ∧ 7 ∈ unsaved w.engine h ∧ (unsaved w.engine h).card ≤ 1 := by
  obtain ⟨w, h, hr, hp⟩ := exists_run_of_exec (gauged oneByOne) anyStep (fun _ _ _ => true)
    (fun _ _ _ _ => trivial) ⟨start Log.empty fun _ => none, fun _ => .idle⟩
    [.act (.call 0 (.submit 7 1 [])), .act (.run (.client 0) (.fine [])), .act (.run (.client 0) (.fine [])),
      .ringLen 0, .act (.run .worker (.fine [])), .act (.run .worker (.fine []))]
    (fun x => decide (x.1.caller 0 = .ringRead [⟨7, 1, [], 1⟩]) && decide (unsaved x.1.engine x.2 = {7}) &&
      decide (x.1.engine.pc .worker = .drainPop .steady [⟨7, 1, [], 1⟩]) &&
      decide (x.1.engine.sh.cache.dirtyLen = 0))
    ⟨⟨_, _, rfl⟩, rfl⟩ (by decide +kernel)
  simp only [Bool.and_eq_true, decide_eq_true_eq] at hp
  obtain ⟨⟨⟨hcall, hunsaved⟩, hpc⟩, hdirty⟩ := hp
  obtain ⟨w', hs, hanswer⟩ := exists_dirtyLen_step oneByOne hcall
  obtain ⟨ring, pending, hring, hreturned, hcovers, -⟩ := pending_covers hr hs
  obtain rfl := Caller.ringRead.inj (hcall.symm.trans hring)
  obtain rfl : pending = 1 := by
    rw [Caller.returned.inj (hreturned.symm.trans hanswer), hdirty]
    rfl
  have hcounted : ∀ id ∈ unsaved w.engine h, ¬ Missed [⟨7, 1, [], 1⟩] w.engine id := by
    intro id hid hmissed
    rw [hunsaved, Finset.mem_singleton] at hid
    subst hid
    exact hmissed.2 (Or.inl (by decide))
  refine ⟨w, w', h, [], hr, hs, hreturned, ⟨.worker, Or.inl ⟨⟨7, 1, [], 1⟩, ?_, rfl⟩⟩, ?_, hcovers hcounted⟩
  · rw [hpc]
    exact List.mem_singleton_self _
  · rw [hunsaved]
    exact Finset.mem_singleton_self 7

/-- The worker has drained the only write when the call begins: the answer is zero, and the store has
nothing. -/
theorem pending_zero_unsaved : ¬ ∀ (cfg : ValidConfig) (w w' : World) (h e : List (Tid × Event))
    (n pending : ℕ),
    Run (gauged cfg) anyStep w h → w.step cfg (.dirtyLen n) = some (w', e) →
      w'.caller n = .returned pending → (unsaved w.engine h).card ≤ pending := by
  intro hall
  obtain ⟨w, h, hr, hp⟩ := exists_run_of_exec (gauged oneByOne) anyStep (fun _ _ _ => true)
    (fun _ _ _ _ => trivial) ⟨start Log.empty fun _ => none, fun _ => .idle⟩
    [.act (.call 0 (.submit 7 1 [])), .act (.run (.client 0) (.fine [])), .act (.run (.client 0) (.fine [])),
      .act (.run .worker (.fine [])), .act (.run .worker (.fine [])), .ringLen 0]
    (fun x => decide (x.1.caller 0 = .ringRead []) && decide (unsaved x.1.engine x.2 = {7}) &&
      decide (x.1.engine.sh.cache.dirtyLen = 0))
    ⟨⟨_, _, rfl⟩, rfl⟩ (by decide +kernel)
  simp only [Bool.and_eq_true, decide_eq_true_eq] at hp
  obtain ⟨⟨hcall, hunsaved⟩, hdirty⟩ := hp
  obtain ⟨w', hs, hreturned⟩ := exists_dirtyLen_step oneByOne hcall
  have hle := hall oneByOne w w' h [] 0 _ hr hs hreturned
  rw [hunsaved, hdirty] at hle
  exact absurd hle (by decide)

end FluxThroughput.Engine.Pending
