import FluxThroughput.Domain.Types
import FluxThroughput.Lib.WriteBehind

/-! # The write-behind cache

`Inner` is what the cache's mutex guards: the entries, and the side index of the dirty ids. A
`WriteBehindCache` is an `Inner` whose index is in lockstep with the entries' dirty bits; every
operation keeps it so. The order in which the hash set is iterated is an argument of `takeDirty`.

`apply` and one step of `requeue_dirty` are the same function of the state (`apply_eq_requeueOne`),
and on versions it is the library's staging step (`versions_requeueOne`, `mem_dirty_requeueOne`). -/

namespace FluxThroughput.Cache.WriteBehind

open FluxThroughput.Domain.Types FluxThroughput.Lib.WriteBehind

/-- One cached player. -/
structure Entry where
  state : PlayerState
  dirty : Bool
  deriving DecidableEq, Repr

def Entry.version (e : Entry) : UInt64 := e.state.version

/-- The guarded state of the cache. -/
structure Inner where
  map : PlayerId → Option Entry
  dirty : Finset PlayerId

namespace Inner

/-- Replace the entry of the state's player by a dirty one. -/
def insertDirty (inner : Inner) (st : PlayerState) : Inner :=
  { map := Function.update inner.map st.playerId (some { state := st, dirty := true })
    dirty := insert st.playerId inner.dirty }

/-- Upsert under last-write-wins; a stale request changes nothing. -/
def apply (inner : Inner) (req : WriteRequest) : Inner :=
  match inner.map req.playerId with
  | some entry => if entry.version ≤ req.version then inner.insertDirty req.toState else inner
  | none => inner.insertDirty req.toState

/-- Take one chosen id: drop it from the index, clear its bit, hand out a copy of its state. -/
def takeOne (acc : List PlayerState × Inner) (id : PlayerId) : List PlayerState × Inner :=
  let inner := { acc.2 with dirty := acc.2.dirty.erase id }
  match inner.map id with
  | some entry =>
    (acc.1 ++ [entry.state],
      { inner with map := Function.update inner.map id (some { entry with dirty := false }) })
  | none => (acc.1, inner)

/-- Up to `max` dirty states, the first ones in the index's iteration order. -/
def takeDirty (inner : Inner) (order : List PlayerId) (max : ℕ) : List PlayerState × Inner :=
  if max = 0 ∨ inner.dirty.card = 0 then ([], inner)
  else (order.take (min max inner.dirty.card)).foldl takeOne ([], inner)

/-- Put one state back, unless a strictly newer one is cached. -/
def requeueOne (inner : Inner) (st : PlayerState) : Inner :=
  match inner.map st.playerId with
  | some entry => if st.version < entry.version then inner else inner.insertDirty st
  | none => inner.insertDirty st

def requeueDirty (inner : Inner) (states : List PlayerState) : Inner :=
  states.foldl requeueOne inner

/-- The version cached for each player. -/
def versions (inner : Inner) (id : PlayerId) : Option UInt64 := (inner.map id).map Entry.version

/-- The index holds exactly the ids whose entry has its dirty bit set, and every entry is filed
under its own player. -/
structure Lockstep (inner : Inner) : Prop where
  bit : ∀ id, id ∈ inner.dirty ↔ ∃ e, inner.map id = some e ∧ e.dirty = true
  key : ∀ id e, inner.map id = some e → e.state.playerId = id

/-- `order` lists the index, each id once: a possible iteration order of the hash set. -/
def Enumerates (order : List PlayerId) (dirty : Finset PlayerId) : Prop :=
  order.Nodup ∧ order.toFinset = dirty

instance (order : List PlayerId) (dirty : Finset PlayerId) :
    Decidable (Enumerates order dirty) := by
  unfold Enumerates; infer_instance

/-! ### Applying and requeueing -/

theorem apply_eq_requeueOne (inner : Inner) (req : WriteRequest) :
    inner.apply req = inner.requeueOne req.toState := by
  have hid : req.toState.playerId = req.playerId := rfl
  unfold apply requeueOne
  rw [hid]
  rcases inner.map req.playerId with _ | entry
  · rfl
  · simp only [← not_lt, ite_not]
    rfl

theorem requeueOne_of_stale {inner : Inner} {st : PlayerState}
    (h : Stale inner.versions (st.playerId, st.version)) : inner.requeueOne st = inner := by
  obtain ⟨v, hv, hlt⟩ := h
  obtain ⟨entry, he, rfl⟩ := Option.map_eq_some_iff.mp hv
  unfold requeueOne
  rw [he]
  exact if_pos hlt

theorem requeueOne_of_not_stale {inner : Inner} {st : PlayerState}
    (h : ¬ Stale inner.versions (st.playerId, st.version)) :
    inner.requeueOne st = inner.insertDirty st := by
  unfold requeueOne
  rcases he : inner.map st.playerId with _ | entry
  · rfl
  · exact if_neg fun hlt => h ⟨entry.version, by simp [versions, he], hlt⟩

@[simp] theorem map_insertDirty (inner : Inner) (st : PlayerState) :
    (inner.insertDirty st).map =
      Function.update inner.map st.playerId (some { state := st, dirty := true }) := rfl

@[simp] theorem dirty_insertDirty (inner : Inner) (st : PlayerState) :
    (inner.insertDirty st).dirty = insert st.playerId inner.dirty := rfl

/-- **Putting a state back raises its player's version.** -/
theorem versions_requeueOne (inner : Inner) (st : PlayerState) :
    (inner.requeueOne st).versions = raise inner.versions (st.playerId, st.version) := by
  by_cases hs : Stale inner.versions (st.playerId, st.version)
  · rw [requeueOne_of_stale hs, raise_of_stale hs]
  · rw [requeueOne_of_not_stale hs]
    funext id
    by_cases hid : id = st.playerId
    · subst hid
      rw [raise_of_not_stale hs]
      simp [versions, Entry.version]
    · rw [raise_ne hid]
      simp [versions, Function.update_of_ne hid]

/-- **Putting a state back makes its player dirty unless it is stale.** -/
theorem mem_dirty_requeueOne (inner : Inner) (st : PlayerState) (id : PlayerId) :
    id ∈ (inner.requeueOne st).dirty ↔
      id ∈ inner.dirty ∨ (id = st.playerId ∧ ¬ Stale inner.versions (st.playerId, st.version)) := by
  by_cases hs : Stale inner.versions (st.playerId, st.version)
  · rw [requeueOne_of_stale hs]
    exact ⟨Or.inl, fun h => h.elim (fun h => h) fun h => absurd hs h.2⟩
  · rw [requeueOne_of_not_stale hs, dirty_insertDirty, Finset.mem_insert]
    constructor
    · rintro (h | h)
      · exact Or.inr ⟨h, hs⟩
      · exact Or.inl h
    · rintro (h | h)
      · exact Or.inr h
      · exact Or.inl h.1

theorem Lockstep.insertDirty {inner : Inner} (h : Lockstep inner) (st : PlayerState) :
    Lockstep (inner.insertDirty st) := by
  constructor
  · intro id
    by_cases hid : id = st.playerId
    · subst hid; simp
    · simp [hid, h.bit id]
  · intro id e he
    by_cases hid : id = st.playerId
    · subst hid
      rw [map_insertDirty, Function.update_self, Option.some.injEq] at he
      rw [← he]
    · rw [map_insertDirty, Function.update_of_ne hid] at he
      exact h.key id e he

theorem Lockstep.requeueOne {inner : Inner} (h : Lockstep inner) (st : PlayerState) :
    Lockstep (inner.requeueOne st) := by
  by_cases hs : Stale inner.versions (st.playerId, st.version)
  · rwa [requeueOne_of_stale hs]
  · rw [requeueOne_of_not_stale hs]; exact h.insertDirty st

theorem Lockstep.requeueDirty {states : List PlayerState} : ∀ {inner : Inner},
    Lockstep inner → Lockstep (inner.requeueDirty states) := by
  induction states with
  | nil => exact fun h => h
  | cons st states ih => exact fun h => ih (h.requeueOne st)

/-! ### Taking a batch -/

/-- The cache after the ids `ids` have been taken: their bits are clear, all else is as before. -/
def clean (inner : Inner) (ids : List PlayerId) : Inner :=
  { map := fun id => if id ∈ ids then (inner.map id).map fun e => { e with dirty := false }
      else inner.map id
    dirty := inner.dirty \ ids.toFinset }

theorem takeOne_eq (out : List PlayerState) (inner : Inner) (id : PlayerId) :
    takeOne (out, inner) id =
      (out ++ ((inner.map id).map Entry.state).toList, inner.clean [id]) := by
  have hd : inner.dirty.erase id = inner.dirty \ [id].toFinset := by
    ext x; simp [and_comm]
  unfold takeOne clean
  dsimp only
  rcases he : inner.map id with _ | entry
  · simp only [Option.map_none, Option.toList_none, List.append_nil, Prod.mk.injEq, true_and, hd,
      Inner.mk.injEq, and_true]
    funext x
    split_ifs with hx
    · rw [List.mem_singleton.mp hx, he]; rfl
    · rfl
  · simp only [Option.map_some, Option.toList_some, Prod.mk.injEq, true_and, hd, Inner.mk.injEq,
      and_true]
    funext x
    split_ifs with hx
    · rw [List.mem_singleton.mp hx, Function.update_self, he]; rfl
    · rw [Function.update_of_ne (by simpa using hx)]

theorem clean_clean (inner : Inner) (id : PlayerId) (ids : List PlayerId) :
    (inner.clean [id]).clean ids = inner.clean (id :: ids) := by
  unfold clean
  simp only [Inner.mk.injEq]
  constructor
  · funext x
    by_cases hx : x ∈ ids <;> by_cases hid : x = id <;> simp [hx, hid, Function.comp_def]
  · ext x; simp; tauto

theorem state_clean (inner : Inner) (ids : List PlayerId) (id : PlayerId) :
    ((inner.clean ids).map id).map Entry.state = (inner.map id).map Entry.state := by
  unfold clean
  dsimp only
  split_ifs
  · rw [Option.map_map]; rfl
  · rfl

theorem foldl_takeOne : ∀ (ids : List PlayerId) (out : List PlayerState) (inner : Inner),
    ids.foldl takeOne (out, inner) =
      (out ++ ids.filterMap fun id => (inner.map id).map Entry.state, inner.clean ids)
  | [], out, inner => by simp [clean]
  | id :: ids, out, inner => by
    rw [List.foldl_cons, takeOne_eq, foldl_takeOne ids, clean_clean]
    simp only [state_clean, List.filterMap_cons, List.append_assoc]
    rcases inner.map id with _ | entry <;> rfl

/-- **What `take_dirty` does**: it hands out the cached states of the first `max` ids of the
iteration order and clears exactly their bits. -/
theorem takeDirty_eq {inner : Inner} {order : List PlayerId} (ho : Enumerates order inner.dirty)
    (max : ℕ) : inner.takeDirty order max =
      ((order.take max).filterMap fun id => (inner.map id).map Entry.state,
        inner.clean (order.take max)) := by
  have hcard : inner.dirty.card = order.length := by
    rw [← ho.2, List.toFinset_card_of_nodup ho.1]
  have hnil : inner.clean [] = inner := by simp [clean]
  unfold takeDirty
  split_ifs with h
  · rcases h with h | h
    · simp [h, hnil]
    · rw [hcard, List.length_eq_zero_iff] at h
      simp [h, hnil]
  · rw [foldl_takeOne, hcard, List.nil_append, ← List.take_eq_take_min]

theorem versions_clean (inner : Inner) (ids : List PlayerId) :
    (inner.clean ids).versions = inner.versions := by
  funext id
  have h := congrArg (Option.map PlayerState.version) (state_clean inner ids id)
  rwa [Option.map_map, Option.map_map] at h

theorem mem_dirty_clean (inner : Inner) (ids : List PlayerId) (id : PlayerId) :
    id ∈ (inner.clean ids).dirty ↔ id ∈ inner.dirty ∧ id ∉ ids := by
  simp [clean]

theorem Lockstep.clean {inner : Inner} (h : Lockstep inner) (ids : List PlayerId) :
    Lockstep (inner.clean ids) := by
  constructor
  · intro id
    rw [mem_dirty_clean, h.bit id]
    by_cases hid : id ∈ ids <;> simp [Inner.clean, hid]
  · intro id e he
    have hs := state_clean inner ids id
    rw [he, Option.map_some] at hs
    obtain ⟨e', he', hst⟩ := Option.map_eq_some_iff.mp hs.symm
    rw [← hst]
    exact h.key id e' he'

end Inner

/-- **The cache**: the guarded state, with its index in lockstep. -/
structure WriteBehindCache where
  inner : Inner
  lockstep : inner.Lockstep

namespace WriteBehindCache

def new : WriteBehindCache where
  inner := { map := fun _ => none, dirty := ∅ }
  lockstep := ⟨by simp, by simp⟩

def apply (c : WriteBehindCache) (req : WriteRequest) : WriteBehindCache where
  inner := c.inner.apply req
  lockstep := by rw [Inner.apply_eq_requeueOne]; exact c.lockstep.requeueOne _

/-- The batch handed out. -/
def taken (c : WriteBehindCache) (order : List PlayerId) (max : ℕ) : List PlayerState :=
  (c.inner.takeDirty order max).1

/-- The cache after `take_dirty`. -/
def takeDirty (c : WriteBehindCache) (order : List PlayerId) (max : ℕ) : WriteBehindCache where
  inner := (c.inner.takeDirty order max).2
  lockstep := by
    unfold Inner.takeDirty
    split_ifs
    · exact c.lockstep
    · rw [Inner.foldl_takeOne]; exact c.lockstep.clean _

def requeueDirty (c : WriteBehindCache) (states : List PlayerState) : WriteBehindCache where
  inner := c.inner.requeueDirty states
  lockstep := c.lockstep.requeueDirty

def get (c : WriteBehindCache) (id : PlayerId) : Option PlayerState :=
  (c.inner.map id).map Entry.state

def dirtyLen (c : WriteBehindCache) : ℕ := c.inner.dirty.card

/-- The version cached for each player. -/
def versions (c : WriteBehindCache) : PlayerId → Option UInt64 := c.inner.versions

/-- A state taken is the cached state of its player, which was dirty. -/
theorem mem_taken {c : WriteBehindCache} {order : List PlayerId}
    (ho : Inner.Enumerates order c.inner.dirty) {max : ℕ} {st : PlayerState} :
    st ∈ c.taken order max ↔ st.playerId ∈ order.take max ∧ c.get st.playerId = some st := by
  unfold taken get
  rw [Inner.takeDirty_eq ho, List.mem_filterMap]
  constructor
  · rintro ⟨id, hid, hst⟩
    obtain ⟨e, he, rfl⟩ := Option.map_eq_some_iff.mp hst
    have hkey := c.lockstep.key id e he
    rw [hkey]
    exact ⟨hid, hst⟩
  · rintro ⟨hid, hst⟩
    exact ⟨_, hid, hst⟩

/-- Every dirty id is cached. -/
theorem exists_of_dirty {c : WriteBehindCache} {id : PlayerId} (h : id ∈ c.inner.dirty) :
    ∃ st, c.get id = some st ∧ st.playerId = id := by
  obtain ⟨e, he, -⟩ := (c.lockstep.bit id).mp h
  exact ⟨e.state, by simp [get, he], c.lockstep.key id e he⟩

/-- A batch that may hold a state is empty only when nothing is dirty. -/
theorem dirty_eq_empty_of_taken {c : WriteBehindCache} {order : List PlayerId}
    (ho : Inner.Enumerates order c.inner.dirty) {max : ℕ} (hpos : 0 < max)
    (hnil : c.taken order max = []) : c.inner.dirty = ∅ := by
  have hlists : ∀ id, id ∈ order ↔ id ∈ c.inner.dirty := fun id => by rw [← ho.2, List.mem_toFinset]
  by_contra hne
  obtain ⟨id, hid⟩ := Finset.nonempty_iff_ne_empty.mpr hne
  have hmem := (hlists id).mpr hid
  rcases order with _ | ⟨p, ps⟩
  · cases hmem
  · obtain ⟨n, rfl⟩ := Nat.exists_eq_succ_of_ne_zero hpos.ne'
    have hp : p ∈ (p :: ps).take (n + 1) := List.mem_cons_self
    obtain ⟨st, hst, rfl⟩ := exists_of_dirty ((hlists p).mp List.mem_cons_self)
    have htaken := (mem_taken ho).mpr ⟨hp, hst⟩
    rw [hnil] at htaken
    cases htaken

end WriteBehindCache

end FluxThroughput.Cache.WriteBehind
