import FluxThroughput.Cache.WriteBehind

/-! # Histories of the cache

The cache of any sequence of operations from the empty one is described by the states it was given: it
knows the players of these, each at the highest version given, with a state that was given (`Newest`).
Its states are a map of `Lib.LastWriteWins` (`states_requeueOne`), which keeps the description, and taking
a batch changes no state. -/

namespace FluxThroughput.Cache.History

open FluxThroughput.Domain.Types FluxThroughput.Lib FluxThroughput.Lib.WriteBehind
open FluxThroughput.Cache.WriteBehind

/-! ### Operations -/

/-- An operation. The iteration order of the hash set, which decides what `take_dirty` chooses, is an
argument of it. -/
inductive Op
  | apply (req : WriteRequest)
  | takeDirty (order : List PlayerId) (max : ℕ)
  | requeueDirty (states : List PlayerState)

namespace Op

def run (c : WriteBehindCache) : Op → WriteBehindCache
  | .apply req => c.apply req
  | .takeDirty order max => c.takeDirty order max
  | .requeueDirty states => c.requeueDirty states

/-- The states that the operation gives to the cache. -/
def given : Op → List PlayerState
  | .apply req => [req.toState]
  | .takeDirty _ _ => []
  | .requeueDirty states => states

/-- The order is one of the hash set. -/
def Possible (c : WriteBehindCache) : Op → Prop
  | .takeDirty order _ => Inner.Enumerates order c.inner.dirty
  | _ => True

end Op

/-- The cache after some operations. -/
def runAll (c : WriteBehindCache) (ops : List Op) : WriteBehindCache := ops.foldl Op.run c

/-- Every `take_dirty` of the sequence meets an order of the hash set as it is then. -/
def PossibleAll : WriteBehindCache → List Op → Prop
  | _, [] => True
  | c, op :: ops => op.Possible c ∧ PossibleAll (op.run c) ops

/-! ### What the cache was given -/

/-- **The cache knows the newest state given for each player.** -/
structure Newest (inner : Inner) (given : List PlayerState) : Prop where
  absent : ∀ id, (inner.map id).map Entry.state = none ↔ ∀ st ∈ given, st.playerId ≠ id
  mem : ∀ id st, (inner.map id).map Entry.state = some st → st ∈ given ∧ st.playerId = id
  newest : ∀ id st, (inner.map id).map Entry.state = some st →
    ∀ st' ∈ given, st'.playerId = id → st'.version ≤ st.version

section Newest
variable {inner : Inner} {given : List PlayerState} {st : PlayerState}

theorem stale_iff {w : PlayerId × UInt64} :
    Stale inner.versions w ↔ ∃ cur, (inner.map w.1).map Entry.state = some cur ∧ w.2 < cur.version := by
  have hv : inner.versions w.1 = ((inner.map w.1).map Entry.state).map PlayerState.version := by
    rw [Option.map_map]
    rfl
  unfold Stale
  rw [hv]
  constructor
  · rintro ⟨v, h, hlt⟩
    obtain ⟨cur, hcur, rfl⟩ := Option.map_eq_some_iff.mp h
    exact ⟨cur, hcur, hlt⟩
  · rintro ⟨cur, hcur, hlt⟩
    exact ⟨cur.version, by rw [hcur]; rfl, hlt⟩

/-- The state of a player after one state is put in. -/
theorem state_insertDirty (id : PlayerId) : ((inner.insertDirty st).map id).map Entry.state =
    if id = st.playerId then some st else (inner.map id).map Entry.state := by
  rw [Inner.map_insertDirty]
  split_ifs with hid
  · rw [hid, Function.update_self]
    rfl
  · rw [Function.update_of_ne hid]

/-- **The states of the cache are a map under last write wins.** -/
theorem states_requeueOne (inner : Inner) (st : PlayerState) :
    (fun id => ((inner.requeueOne st).map id).map Entry.state) =
      LastWriteWins.put stateVersioned (fun id => (inner.map id).map Entry.state) st := by
  by_cases hs : Stale inner.versions (st.playerId, st.version)
  · obtain ⟨cur, hcur, hlt⟩ := stale_iff.mp hs
    rw [Inner.requeueOne_of_stale hs]
    exact (LastWriteWins.put_of_stale (V := stateVersioned) hcur hlt).symm
  · have hle : ∀ cur, (inner.map st.playerId).map Entry.state = some cur → cur.version ≤ st.version :=
      fun cur hcur => not_lt.mp fun hlt => hs (stale_iff.mpr ⟨cur, hcur, hlt⟩)
    have hput := LastWriteWins.put_of_not_stale (V := stateVersioned)
      (m := fun id => (inner.map id).map Entry.state) hle
    rw [hput, Inner.requeueOne_of_not_stale hs]
    funext id
    rw [state_insertDirty, Function.update_apply]
    rfl

theorem newest_iff : Newest inner given ↔
    LastWriteWins.Newest stateVersioned (fun id => (inner.map id).map Entry.state) {st | st ∈ given} :=
  ⟨fun h => ⟨h.absent, h.mem, h.newest⟩, fun h => ⟨h.absent, h.mem, h.newest⟩⟩

/-- **One state put in.** -/
theorem Newest.requeueOne (h : Newest inner given) (st : PlayerState) :
    Newest (inner.requeueOne st) (given ++ [st]) := by
  have hgiven : {x | x ∈ given ++ [st]} = insert st {x | x ∈ given} := by
    ext x
    simp only [List.mem_append, List.mem_singleton, Set.mem_ofPred_eq, Set.mem_insert_iff, or_comm]
  rw [newest_iff, states_requeueOne, hgiven]
  exact (newest_iff.mp h).put st

theorem Newest.requeueDirty : ∀ {states : List PlayerState} {inner : Inner}
    {given : List PlayerState}, Newest inner given →
    Newest (inner.requeueDirty states) (given ++ states)
  | [], _, given, h => by
    rw [List.append_nil]
    exact h
  | st :: states, inner, given, h => by
    have ih : Newest ((inner.requeueOne st).requeueDirty states) (given ++ [st] ++ states) :=
      Newest.requeueDirty (h.requeueOne st)
    rw [List.append_assoc] at ih
    exact ih

end Newest

/-! ### Taking a batch -/

/-- **What `take_dirty` does to a cache**: it hands out as many states as it may, of different players,
each the state its player has, and makes exactly these clean. -/
structure Takes (c : WriteBehindCache) (order : List PlayerId) (max : ℕ) : Prop where
  length : (c.taken order max).length = min max c.dirtyLen
  distinct : ((c.taken order max).map PlayerState.playerId).Nodup
  state : ∀ st ∈ c.taken order max, c.get st.playerId = some st
  wasDirty : ∀ st ∈ c.taken order max, st.playerId ∈ c.inner.dirty
  clean : ∀ id, id ∈ (c.takeDirty order max).inner.dirty ↔
    id ∈ c.inner.dirty ∧ id ∉ (c.taken order max).map PlayerState.playerId
  get : ∀ id, (c.takeDirty order max).get id = c.get id

section Take
variable {c : WriteBehindCache} {order : List PlayerId}

/-- A batch and the ids it was taken for. -/
theorem playerIds_taken (ho : Inner.Enumerates order c.inner.dirty) (max : ℕ) :
    (c.taken order max).map PlayerState.playerId = order.take max := by
  have hall : ∀ ids : List PlayerId, (∀ id ∈ ids, id ∈ c.inner.dirty) →
      (ids.filterMap fun id => (c.inner.map id).map Entry.state).map PlayerState.playerId = ids := by
    intro ids
    induction ids with
    | nil => exact fun _ => rfl
    | cons id ids ih =>
      intro hids
      obtain ⟨st, hst, hid⟩ := WriteBehindCache.exists_of_dirty (hids id List.mem_cons_self)
      have hst' : (c.inner.map id).map Entry.state = some st := hst
      rw [List.filterMap_cons, hst', List.map_cons, hid,
        ih fun x hx => hids x (List.mem_cons_of_mem _ hx)]
  have hdirty : ∀ id ∈ order.take max, id ∈ c.inner.dirty := by
    intro id hid
    rw [← ho.2]
    exact List.mem_toFinset.mpr (List.mem_of_mem_take hid)
  unfold WriteBehindCache.taken
  rw [Inner.takeDirty_eq ho]
  exact hall _ hdirty

theorem takes (ho : Inner.Enumerates order c.inner.dirty) (max : ℕ) : Takes c order max := by
  have hids := playerIds_taken ho max
  have hcard : order.length = c.dirtyLen := by
    unfold WriteBehindCache.dirtyLen
    rw [← ho.2, List.toFinset_card_of_nodup ho.1]
  have hinner : (c.takeDirty order max).inner = c.inner.clean (order.take max) := by
    show (c.inner.takeDirty order max).2 = c.inner.clean (order.take max)
    rw [Inner.takeDirty_eq ho]
  refine ⟨?_, ?_, fun st hst => ?_, fun st hst => ?_, fun id => ?_, fun id => ?_⟩
  · rw [← List.length_map (f := PlayerState.playerId), hids, List.length_take, hcard]
  · rw [hids]
    exact ho.1.sublist (List.take_sublist max order)
  · exact ((WriteBehindCache.mem_taken ho).mp hst).2
  · have hmem := List.mem_of_mem_take ((WriteBehindCache.mem_taken ho).mp hst).1
    rw [← ho.2]
    exact List.mem_toFinset.mpr hmem
  · rw [hinner, Inner.mem_dirty_clean, hids]
  · unfold WriteBehindCache.get
    rw [hinner, Inner.state_clean]

theorem Newest.takeDirty {given : List PlayerState} (h : Newest c.inner given)
    (ho : Inner.Enumerates order c.inner.dirty) (max : ℕ) : Newest (c.takeDirty order max).inner given := by
  have hget : ∀ id, ((c.takeDirty order max).inner.map id).map Entry.state =
      (c.inner.map id).map Entry.state := (takes ho max).get
  constructor
  · intro id
    rw [hget]
    exact h.absent id
  · intro id st hst
    rw [hget] at hst
    exact h.mem id st hst
  · intro id st hst
    rw [hget] at hst
    exact h.newest id st hst

end Take

/-! ### Runs -/

theorem newest_new : Newest WriteBehindCache.new.inner [] where
  absent _ := ⟨fun _ st hst => (by cases hst), fun _ => rfl⟩
  mem _ _ h := by cases h
  newest _ _ h := by cases h

theorem newest_run {c : WriteBehindCache} {given : List PlayerState} {op : Op}
    (h : Newest c.inner given) (hp : op.Possible c) : Newest (op.run c).inner (given ++ op.given) := by
  rcases op with req | ⟨order, max⟩ | states
  · show Newest (c.inner.apply req) (given ++ [req.toState])
    rw [Inner.apply_eq_requeueOne]
    exact h.requeueOne _
  · rw [Op.given, List.append_nil]
    exact h.takeDirty hp max
  · exact h.requeueDirty

theorem newest_runAll : ∀ {ops : List Op} {c : WriteBehindCache} {given : List PlayerState},
    Newest c.inner given → PossibleAll c ops →
    Newest (runAll c ops).inner (given ++ ops.flatMap Op.given)
  | [], _, given, h, _ => by
    rw [List.flatMap_nil, List.append_nil]
    exact h
  | op :: ops, c, given, h, hp => by
    have ih := newest_runAll (newest_run h hp.1) hp.2
    rw [List.append_assoc] at ih
    exact ih

/-- The version of a player never decreases. -/
theorem version_mono {c : WriteBehindCache} {given : List PlayerState} {ops : List Op}
    (h : Newest c.inner given) (hp : PossibleAll c ops) {id : PlayerId} {st : PlayerState}
    (hst : c.get id = some st) :
    ∃ st', (runAll c ops).get id = some st' ∧ st.version ≤ st'.version := by
  have h' := newest_runAll h hp
  obtain ⟨hmem, hid⟩ := h.mem id st hst
  have hgiven : st ∈ given ++ ops.flatMap Op.given := List.mem_append_left _ hmem
  rcases hget : (runAll c ops).get id with _ | st'
  · exact absurd hid ((h'.absent id).mp hget st hgiven)
  · exact ⟨st', rfl, h'.newest id st' hget st hgiven hid⟩

/-- **The cache after any sequence of operations**: its index is in lockstep with the dirty bits; it has
exactly the players that were given, each with a state that was given and at the highest version given;
`take_dirty` takes as `Takes` says; and no later operation lowers a version. -/
theorem cache_of_history {ops : List Op} (hp : PossibleAll WriteBehindCache.new ops) :
    (∀ id, id ∈ (runAll WriteBehindCache.new ops).inner.dirty ↔
      ∃ e, (runAll WriteBehindCache.new ops).inner.map id = some e ∧ e.dirty = true) ∧
    (∀ id, (runAll WriteBehindCache.new ops).get id = none ↔
      ∀ st ∈ ops.flatMap Op.given, st.playerId ≠ id) ∧
    (∀ id st, (runAll WriteBehindCache.new ops).get id = some st →
      (st ∈ ops.flatMap Op.given ∧ st.playerId = id) ∧
      ∀ st' ∈ ops.flatMap Op.given, st'.playerId = id → st'.version ≤ st.version) ∧
    (∀ order max, Inner.Enumerates order (runAll WriteBehindCache.new ops).inner.dirty →
      Takes (runAll WriteBehindCache.new ops) order max) ∧
    ∀ later, PossibleAll (runAll WriteBehindCache.new ops) later → ∀ id st,
      (runAll WriteBehindCache.new ops).get id = some st →
      ∃ st', (runAll (runAll WriteBehindCache.new ops) later).get id = some st' ∧
        st.version ≤ st'.version := by
  have h := newest_runAll newest_new hp
  rw [List.nil_append] at h
  refine ⟨(runAll WriteBehindCache.new ops).lockstep.bit, h.absent, fun id st hst => ?_,
    fun order max ho => takes ho max, fun later hl id st hst => version_mono h hl hst⟩
  exact ⟨h.mem id st hst, h.newest id st hst⟩

/-- Two players, a batch of one of them, and its states put back after a newer write. -/
def sampleOps : List Op :=
  [.apply { playerId := 7, version := 1, blob := [1], seq := 0 },
   .apply { playerId := 8, version := 4, blob := [2], seq := 0 },
   .takeDirty [7, 8] 1,
   .apply { playerId := 7, version := 3, blob := [3], seq := 0 },
   .requeueDirty [{ playerId := 7, version := 1, blob := [1] }]]

/-- Player 7 is cached at its newest version and dirty again, and no later operation takes its version
back. -/
theorem cache_of_history_sample :
    (∃ e, (runAll WriteBehindCache.new sampleOps).inner.map 7 = some e ∧ e.dirty = true) ∧
    (∀ id, (runAll WriteBehindCache.new sampleOps).get id = none ↔
      ∀ st ∈ sampleOps.flatMap Op.given, st.playerId ≠ id) ∧
    (∀ st' ∈ sampleOps.flatMap Op.given, st'.playerId = 7 → st'.version ≤ 3) ∧
    Takes (runAll WriteBehindCache.new sampleOps) [7, 8] 1 ∧
    ∀ later, PossibleAll (runAll WriteBehindCache.new sampleOps) later →
      ∃ st', (runAll (runAll WriteBehindCache.new sampleOps) later).get 7 = some st' ∧
        3 ≤ st'.version := by
  have hp : PossibleAll WriteBehindCache.new sampleOps :=
    ⟨trivial, trivial, ⟨by decide, by decide⟩, trivial, trivial, trivial⟩
  have hget : (runAll WriteBehindCache.new sampleOps).get 7 = some ⟨7, 3, [3]⟩ := by decide
  obtain ⟨hbit, habsent, hnewest, htakes, hmono⟩ := cache_of_history hp
  exact ⟨(hbit 7).mp (by decide), habsent, (hnewest 7 _ hget).2,
    htakes [7, 8] 1 ⟨by decide, by decide⟩, fun later hl => hmono later hl 7 _ hget⟩

end FluxThroughput.Cache.History
