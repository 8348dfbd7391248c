import FluxThroughput.Store.Mock

/-! # Deliveries to the store converge

`MockDb` is driven by calls of `persist_batch`, and by its knobs between them. The table after any run is
the map of `Lib.LastWriteWins` that has been given the states of the calls that succeeded (`newest_run`),
so it depends on the set of these states only, not on how they were batched, ordered or repeated. -/

namespace FluxThroughput.Store.Converge

open FluxThroughput.Domain.Types FluxThroughput.Lib.LastWriteWins FluxThroughput.Store.Mock

/-! ### Runs of the store -/

/-- A knob is set, or a batch is persisted. -/
inductive Op
  | setHealthy (healthy : Bool)
  | failNextBatches (n : UInt64)
  | setFailEvery (n : UInt64)
  | persistBatch (states : List PlayerState)

/-- The store after an operation. -/
def Op.apply (db : MockDb) : Op → MockDb
  | .setHealthy healthy => { db with healthy := healthy }
  | .failNextBatches n => { db with failNext := n }
  | .setFailEvery n => { db with failEvery := n }
  | .persistBatch states => (db.persistBatch states).2

/-- The states that the operation delivers: those of a batch whose call succeeds. -/
def Op.carries (db : MockDb) : Op → List PlayerState
  | .persistBatch states =>
    match (db.persistBatch states).1 with
    | .ok () => states
    | .error _ => []
  | _ => []

def run (db : MockDb) (ops : List Op) : MockDb := ops.foldl Op.apply db

/-- The states of the calls that succeeded, in order. -/
def delivered : MockDb → List Op → List PlayerState
  | _, [] => []
  | db, op :: ops => op.carries db ++ delivered (op.apply db) ops

/-! ### The table as a map under last write wins -/

theorem upsertOne_eq (table : Table) (st : PlayerState) :
    upsertOne table st = put stateVersioned table st := by
  have hput : (∀ cur, table st.playerId = some cur → cur.version ≤ st.version) →
      put stateVersioned table st = Function.update table st.playerId (some st) :=
    put_of_not_stale (V := stateVersioned) (m := table) (x := st)
  unfold upsertOne
  rcases hcur : table st.playerId with _ | cur
  · refine (hput fun cur h => ?_).symm
    rw [hcur] at h
    cases h
  · by_cases hlt : st.version < cur.version
    · exact (if_pos hlt).trans (put_of_stale (V := stateVersioned) hcur hlt).symm
    · refine (if_neg hlt).trans (hput fun cur' h => ?_).symm
      rw [hcur] at h
      obtain rfl := Option.some.inj h
      exact not_lt.mp hlt

theorem upsert_eq (table : Table) (states : List PlayerState) :
    upsert table states = states.foldl (put stateVersioned) table := by
  have hfun : upsertOne = put stateVersioned := funext fun table => funext (upsertOne_eq table)
  rw [upsert, hfun]

/-- An operation puts in what it delivers. -/
theorem table_apply (db : MockDb) (op : Op) :
    (op.apply db).table = (op.carries db).foldl (put stateVersioned) db.table := by
  cases op with
  | setHealthy | failNextBatches | setFailEvery => rfl
  | persistBatch states =>
    unfold Op.apply Op.carries
    rcases persistBatch_table db states with ⟨e, herr, -, htable⟩ | ⟨hok, htable⟩
    · simp only [herr]
      exact htable
    · simp only [hok]
      rw [htable, upsert_eq]

/-- **The table of a run** is the map that was given what the run delivered. -/
theorem table_run : ∀ (ops : List Op) (db : MockDb),
    (run db ops).table = (delivered db ops).foldl (put stateVersioned) db.table
  | [], _ => rfl
  | op :: ops, db => by
    rw [delivered, List.foldl_append, ← table_apply]
    exact table_run ops (op.apply db)

theorem newest_run (ops : List Op) :
    Newest stateVersioned (run MockDb.new ops).table {st | st ∈ delivered MockDb.new ops} := by
  rw [table_run, ← Set.empty_union {st | st ∈ delivered MockDb.new ops}]
  exact Newest.empty.foldl_put

/-! ### The result -/

/-- A state is given by its player, version and blob. -/
theorem state_ext {a b : PlayerState} (hid : a.playerId = b.playerId) (hversion : a.version = b.version)
    (hblob : a.blob = b.blob) : a = b := by
  cases a
  cases b
  simp only at hid hversion hblob
  rw [hid, hversion, hblob]

/-- **Deliveries converge**: two runs whose successful calls carry the same set of states, with one blob for
each player and version, end with the same table; it holds for each player the state with the highest
version. In every state of the store, a call that fails changes no entry, and no call lowers a version. -/
theorem deliveries_converge {ops ops' : List Op}
    (hset : ∀ st, st ∈ delivered MockDb.new ops ↔ st ∈ delivered MockDb.new ops')
    (hblob : ∀ st ∈ delivered MockDb.new ops, ∀ st' ∈ delivered MockDb.new ops,
      st.playerId = st'.playerId → st.version = st'.version → st.blob = st'.blob) :
    (run MockDb.new ops).table = (run MockDb.new ops').table ∧
      (∀ id st, (run MockDb.new ops).table id = some st ↔
        st ∈ delivered MockDb.new ops ∧ st.playerId = id ∧
          ∀ st' ∈ delivered MockDb.new ops, st'.playerId = id → st'.version ≤ st.version) ∧
      ∀ (db : MockDb) (states : List PlayerState),
        (∀ e, (db.persistBatch states).1 = .error e → (db.persistBatch states).2.table = db.table) ∧
        ∀ id st, db.table id = some st →
          ∃ st', (db.persistBatch states).2.table id = some st' ∧ st.version ≤ st'.version := by
  have hsame : ∀ st ∈ {st | st ∈ delivered MockDb.new ops}, ∀ st' ∈ {st | st ∈ delivered MockDb.new ops},
      st.playerId = st'.playerId → st.version = st'.version → st = st' :=
    fun st hst st' hst' hid hv => state_ext hid hv (hblob st hst st' hst' hid hv)
  have hsets : {st | st ∈ delivered MockDb.new ops'} = {st | st ∈ delivered MockDb.new ops} :=
    Set.ext fun st => (hset st).symm
  have h' := newest_run ops'
  rw [hsets] at h'
  refine ⟨(newest_run ops).unique h' hsame, fun id st => (newest_run ops).eq_some_iff hsame,
    fun db states => ⟨fun e he => ?_, fun id st hst => ?_⟩⟩
  · rcases persistBatch_table db states with ⟨e', -, -, htable⟩ | ⟨hok, -⟩
    · exact htable
    · rw [hok] at he
      cases he
  · rcases persistBatch_table db states with ⟨e, -, -, htable⟩ | ⟨-, htable⟩
    · exact ⟨st, by rw [htable, hst], le_rfl⟩
    · rw [htable, upsert_eq]
      exact foldl_put_mono stateVersioned states db.table hst

/-- Two versions in one batch; and in two, the newer first, with a failure and a repetition. -/
theorem deliveries_converge_reordered :
    (run MockDb.new [.persistBatch [⟨7, 1, [1]⟩, ⟨7, 2, [2]⟩]]).table =
      (run MockDb.new [.persistBatch [⟨7, 2, [2]⟩], .failNextBatches 1, .persistBatch [⟨8, 1, []⟩],
        .persistBatch [⟨7, 1, [1]⟩, ⟨7, 2, [2]⟩]]).table := by
  refine (deliveries_converge (fun st => ?_) ?_).1
  · have h1 : delivered MockDb.new [.persistBatch [⟨7, 1, [1]⟩, ⟨7, 2, [2]⟩]] =
        [⟨7, 1, [1]⟩, ⟨7, 2, [2]⟩] := by decide
    have h2 : delivered MockDb.new [.persistBatch [⟨7, 2, [2]⟩], .failNextBatches 1,
        .persistBatch [⟨8, 1, []⟩], .persistBatch [⟨7, 1, [1]⟩, ⟨7, 2, [2]⟩]] =
        [⟨7, 2, [2]⟩, ⟨7, 1, [1]⟩, ⟨7, 2, [2]⟩] := by decide
    rw [h1, h2]
    simp only [List.mem_cons, List.not_mem_nil, or_false]
    tauto
  · decide

end FluxThroughput.Store.Converge
