import FluxThroughput.Domain.Types
import FluxThroughput.Lib.LittleEndian
import FluxThroughput.Lib.Overwrite

/-! # The Redis store

`RedisStore` over any connection, and the in-memory `FakeRedis`. A state is one value, its version and
its blob, under the key of its player; a batch is one pipelined SET, which replaces what is there without
looking at it. On `FakeRedis`, what `load` reads after any batches is the library's `overwrite` of their
states (`stored_persistAll`). -/

namespace FluxThroughput.Store.Redis

open FluxThroughput.Domain.Types FluxThroughput.Lib.LittleEndian FluxThroughput.Lib.LastWriteWins

/-! ### The connection -/

/-- What the store needs of a connection; each call may change the connection. -/
class RedisConn (C : Type) where
  pipelineSet : C → List (String × Bytes) → Except String Unit × C
  get : C → String → Except String (Option Bytes) × C

structure FakeRedis where
  map : String → Option Bytes

def FakeRedis.new : FakeRedis := { map := fun _ => none }

def FakeRedis.insert (redis : FakeRedis) (kv : String × Bytes) : FakeRedis :=
  { map := Function.update redis.map kv.1 (some kv.2) }

instance : RedisConn FakeRedis where
  pipelineSet redis kv := (.ok (), kv.foldl FakeRedis.insert redis)
  get redis key := (.ok (redis.map key), redis)

/-! ### Keys and values -/

def playerKey (id : PlayerId) : String := "player:" ++ toString id

def encodeValue (st : PlayerState) : Bytes := le64 st.version ++ st.blob

/-- `None` for a value too short to hold a version. -/
def decodeValue (bytes : Bytes) : Option (UInt64 × Bytes) :=
  if bytes.length < 8 then none else some (ofLe64 (slice bytes 0 8), bytes.drop 8)

/-! ### The store -/

structure RedisStore (C : Type) where
  conn : C

variable {C : Type} [RedisConn C]

/-- `persist_batch`: one pipelined SET; its failure can be retried. -/
def RedisStore.persistBatch (store : RedisStore C) (states : List PlayerState) :
    Except StoreError Unit × RedisStore C :=
  if states = [] then (.ok (), store)
  else
    let kv := states.map fun st => (playerKey st.playerId, encodeValue st)
    match RedisConn.pipelineSet store.conn kv with
    | (.ok (), conn) => (.ok (), { conn := conn })
    | (.error e, conn) =>
      (.error (.transient ("redis pipeline SET failed: " ++ e)), { conn := conn })

def RedisStore.load (store : RedisStore C) (id : PlayerId) : Option PlayerState × RedisStore C :=
  match RedisConn.get store.conn (playerKey id) with
  | (.ok (some raw), conn) =>
    ((decodeValue raw).map fun (version, blob) => ⟨id, version, blob⟩, { conn := conn })
  | (.ok none, conn) => (none, { conn := conn })
  | (.error _, conn) => (none, { conn := conn })

/-- The seam has no count of keys, and the engine does not call this. -/
def RedisStore.count (_ : RedisStore C) : ℕ := 0

/-! ### Keys are distinct, and values decode -/

theorem playerKey_injective : Function.Injective playerKey := by
  intro a b h
  have hlists : (toString a).toList = (toString b).toList := by
    have := congrArg String.toList h
    simpa only [playerKey, String.toList_append, List.append_cancel_left_eq] using this
  have hrepr : Nat.repr a.toNat = Nat.repr b.toNat := String.toList_injective hlists
  exact UInt64.toNat_inj.mp (Nat.repr_injective hrepr)

/-- **A value decodes to what was encoded.** -/
theorem decodeValue_encodeValue (st : PlayerState) :
    decodeValue (encodeValue st) = some (st.version, st.blob) := by
  have hlen : (le64 st.version).length = 8 := length_le64 _
  have hlong : ¬ (encodeValue st).length < 8 := by
    rw [encodeValue, List.length_append, hlen]
    omega
  rw [decodeValue, if_neg hlong, encodeValue, slice_zero hlen, ofLe64_le64]
  have hdrop : (le64 st.version ++ st.blob).drop 8 = st.blob := by rw [← hlen, List.drop_left]
  rw [hdrop]

/-! ### What is stored -/

/-- What `load` reads of each player. -/
def stored (redis : FakeRedis) (id : PlayerId) : Option PlayerState :=
  (RedisStore.load { conn := redis } id).1

theorem stored_new : stored FakeRedis.new = fun _ => none := rfl

/-- Reading is decoding the value of the player's key. -/
theorem stored_eq (redis : FakeRedis) (id : PlayerId) :
    stored redis id = ((redis.map (playerKey id)).bind decodeValue).map fun (version, blob) =>
      ⟨id, version, blob⟩ := by
  unfold stored RedisStore.load
  simp only [RedisConn.get]
  rcases redis.map (playerKey id) with _ | raw <;> rfl

/-- **A SET of one state.** -/
theorem stored_insert (redis : FakeRedis) (st : PlayerState) :
    stored (redis.insert (playerKey st.playerId, encodeValue st)) =
      overwrite stateVersioned (stored redis) st := by
  funext id
  rw [stored_eq, overwrite]
  by_cases hid : id = st.playerId
  · subst hid
    have hget : (redis.insert (playerKey st.playerId, encodeValue st)).map (playerKey st.playerId) =
        some (encodeValue st) := Function.update_self ..
    have hset : Function.update (stored redis) (stateVersioned.key st) (some st) st.playerId = some st :=
      Function.update_self ..
    rw [hget, hset, Option.bind_some, decodeValue_encodeValue]
    rfl
  · have hkey : playerKey id ≠ playerKey st.playerId := fun h => hid (playerKey_injective h)
    have hget : (redis.insert (playerKey st.playerId, encodeValue st)).map (playerKey id) =
        redis.map (playerKey id) := Function.update_of_ne hkey ..
    have hset : Function.update (stored redis) (stateVersioned.key st) (some st) id = stored redis id :=
      Function.update_of_ne hid ..
    rw [hget, hset, stored_eq]

/-- Batches handed to the store, one after the other. -/
def persistAll (store : RedisStore FakeRedis) (batches : List (List PlayerState)) :
    RedisStore FakeRedis :=
  batches.foldl (fun store states => (store.persistBatch states).2) store

theorem stored_persistBatch (store : RedisStore FakeRedis) (states : List PlayerState) :
    stored (store.persistBatch states).2.conn =
      states.foldl (overwrite stateVersioned) (stored store.conn) := by
  have hpipe : ∀ (states : List PlayerState) (redis : FakeRedis),
      stored ((states.map fun st => (playerKey st.playerId, encodeValue st)).foldl
        FakeRedis.insert redis) = states.foldl (overwrite stateVersioned) (stored redis) := by
    intro states
    induction states with
    | nil => exact fun _ => rfl
    | cons st states ih =>
      intro redis
      rw [List.map_cons, List.foldl_cons, List.foldl_cons, ih, stored_insert]
  unfold RedisStore.persistBatch
  by_cases hnil : states = []
  · rw [if_pos hnil, hnil]
    rfl
  · rw [if_neg hnil]
    exact hpipe states store.conn

/-- **What the store serves after any batches.** -/
theorem stored_persistAll : ∀ (batches : List (List PlayerState)) (store : RedisStore FakeRedis),
    stored (persistAll store batches).conn =
      batches.flatten.foldl (overwrite stateVersioned) (stored store.conn)
  | [], _ => rfl
  | states :: batches, store => by
    rw [List.flatten_cons, List.foldl_append, ← stored_persistBatch]
    exact stored_persistAll batches (store.persistBatch states).2

end FluxThroughput.Store.Redis
