import FluxThroughput.Domain.Types
import FluxThroughput.Lib.WriteBehind

/-! # The store

`MockDb`: an in-memory table under last-write-wins, with its fault knobs. The latency knob only sleeps
and is left out. On versions, the upsert of a batch is the library's `raise` of each of its states
(`versions_upsert`). -/

namespace FluxThroughput.Store.Mock

open FluxThroughput.Domain.Types FluxThroughput.Lib.WriteBehind

abbrev Table := PlayerId → Option PlayerState

/-- One incoming state: a strictly older one is dropped. -/
def upsertOne (table : Table) (incoming : PlayerState) : Table :=
  match table incoming.playerId with
  | some existing =>
    if incoming.version < existing.version then table
    else Function.update table incoming.playerId (some incoming)
  | none => Function.update table incoming.playerId (some incoming)

def upsert (table : Table) (states : List PlayerState) : Table := states.foldl upsertOne table

structure MockDb where
  table : Table
  healthy : Bool
  failNext : UInt64
  failEvery : UInt64
  attempts : UInt64
  persisted : UInt64

def MockDb.new : MockDb :=
  { table := fun _ => none, healthy := true, failNext := 0, failEvery := 0, attempts := 0,
    persisted := 0 }

/-- `persist_batch`: health, then the countdown, then the periodic failure, then the upsert. -/
def MockDb.persistBatch (db : MockDb) (states : List PlayerState) :
    Except StoreError Unit × MockDb :=
  if !db.healthy then (.error .unavailable, db)
  else if 0 < db.failNext then
    (.error (.transient "injected"), { db with failNext := db.failNext - 1 })
  else
    let attempt := db.attempts + 1
    let db := { db with attempts := attempt }
    if 0 < db.failEvery ∧ attempt % db.failEvery = 0 then
      (.error (.transient "periodic"), db)
    else
      (.ok (), { db with table := upsert db.table states, persisted := db.persisted + 1 })

/-- The version stored for each player. -/
def versions (table : Table) (id : PlayerId) : Option UInt64 :=
  (table id).map PlayerState.version

theorem versions_upsertOne (table : Table) (st : PlayerState) :
    versions (upsertOne table st) = raise (versions table) (st.playerId, st.version) := by
  have hins : ¬ Stale (versions table) (st.playerId, st.version) →
      versions (Function.update table st.playerId (some st)) =
        raise (versions table) (st.playerId, st.version) := by
    intro hs
    funext id
    by_cases hid : id = st.playerId
    · subst hid
      rw [raise_of_not_stale hs]
      simp [versions]
    · rw [raise_ne hid]
      simp [versions, Function.update_of_ne hid]
  unfold upsertOne
  rcases he : table st.playerId with _ | existing
  · exact hins (by simp [Stale, versions, he])
  · by_cases hlt : st.version < existing.version
    · simp only [if_pos hlt]
      exact (raise_of_stale ⟨existing.version, by simp [versions, he], hlt⟩).symm
    · simp only [if_neg hlt]
      exact hins (by simp [Stale, versions, he, hlt])

/-- **Upserting a batch raises the version of each of its players.** -/
theorem versions_upsert (states : List PlayerState) : ∀ table : Table,
    versions (upsert table states) =
      (states.map fun st => (st.playerId, st.version)).foldl raise (versions table) := by
  induction states with
  | nil => exact fun _ => rfl
  | cons st states ih =>
    intro table
    rw [List.map_cons, List.foldl_cons, ← versions_upsertOne]
    exact ih _

/-- **The two outcomes of a call**: an error leaves the table, success upserts the batch. -/
theorem persistBatch_table (db : MockDb) (states : List PlayerState) :
    (∃ e, (db.persistBatch states).1 = .error e ∧ e.isRetryable = true ∧
      (db.persistBatch states).2.table = db.table) ∨
    ((db.persistBatch states).1 = .ok () ∧
      (db.persistBatch states).2.table = upsert db.table states) := by
  unfold MockDb.persistBatch
  dsimp only
  split_ifs
  · exact Or.inl ⟨_, rfl, rfl, rfl⟩
  · exact Or.inl ⟨_, rfl, rfl, rfl⟩
  · exact Or.inl ⟨_, rfl, rfl, rfl⟩
  · exact Or.inr ⟨rfl, rfl⟩

end FluxThroughput.Store.Mock
