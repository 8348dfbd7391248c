import FluxThroughput.Cache.History

/-! # Batches out of a cache

Batches are taken out of a cache, one after another, and may be put back while nothing else changes
it. `Portioned` says what is then where: the players that were dirty are dirty still, or in exactly one
of the states that are out, and no cached state has changed. -/

namespace FluxThroughput.Cache.Portions

open FluxThroughput.Domain.Types FluxThroughput.Lib.WriteBehind FluxThroughput.Cache.WriteBehind
open FluxThroughput.Cache.History

variable {before c : WriteBehindCache} {out batch : List PlayerState} {order : List PlayerId}

/-- The players of some states. -/
def playerIds (states : List PlayerState) : List PlayerId := states.map PlayerState.playerId

/-! ### Putting back what is cached -/

/-- Putting back a state that is cached makes its player dirty, and nothing else. -/
theorem requeueOne_of_cached {inner : Inner} {st : PlayerState}
    (hst : (inner.map st.playerId).map Entry.state = some st) (id : PlayerId) :
    ((inner.requeueOne st).map id).map Entry.state = (inner.map id).map Entry.state ∧
      (id ∈ (inner.requeueOne st).dirty ↔ id ∈ inner.dirty ∨ id = st.playerId) := by
  have hfresh : ¬ Stale inner.versions (st.playerId, st.version) := by
    rw [stale_iff]
    rintro ⟨cur, hcur, hlt⟩
    obtain rfl := Option.some.inj (hst.symm.trans hcur)
    exact lt_irrefl _ hlt
  rw [Inner.requeueOne_of_not_stale hfresh, state_insertDirty]
  constructor
  · split_ifs with hid
    · rw [hid, hst]
    · rfl
  · rw [Inner.dirty_insertDirty, Finset.mem_insert, or_comm]

theorem requeueDirty_of_cached : ∀ {batch : List PlayerState} {inner : Inner},
    (∀ st ∈ batch, (inner.map st.playerId).map Entry.state = some st) → ∀ id,
      ((inner.requeueDirty batch).map id).map Entry.state = (inner.map id).map Entry.state ∧
        (id ∈ (inner.requeueDirty batch).dirty ↔ id ∈ inner.dirty ∨ id ∈ playerIds batch)
  | [], _, _, _ => ⟨rfl, by simp [playerIds, Inner.requeueDirty]⟩
  | st :: batch, inner, hcached, id => by
    have hone := requeueOne_of_cached (hcached st List.mem_cons_self)
    have hrest : ∀ st' ∈ batch,
        ((inner.requeueOne st).map st'.playerId).map Entry.state = some st' := fun st' hst' =>
      (hone _).1.trans (hcached st' (List.mem_cons_of_mem _ hst'))
    obtain ⟨hget, hdirty⟩ := requeueDirty_of_cached hrest id
    refine ⟨hget.trans (hone id).1, hdirty.trans ?_⟩
    rw [(hone id).2, or_assoc]
    exact or_congr_right List.mem_cons.symm

/-- A batch that is not empty makes the dirty set smaller. -/
theorem dirtyLen_takeDirty (ho : Inner.Enumerates order c.inner.dirty) {max : ℕ}
    (hne : c.taken order max ≠ []) : (c.takeDirty order max).dirtyLen < c.dirtyLen := by
  have ht := takes ho max
  obtain ⟨st, hst⟩ := List.exists_mem_of_ne_nil _ hne
  refine Finset.card_lt_card ⟨fun id hid => ((ht.clean id).mp hid).1, fun hsub => ?_⟩
  have hd := hsub (ht.wasDirty st hst)
  exact ((ht.clean _).mp hd).2 (List.mem_map_of_mem hst)

/-! ### What is where -/

/-- **The states `out` have been taken out of the cache `before`**, which is now `c`. -/
structure Portioned (before c : WriteBehindCache) (out : List PlayerState) : Prop where
  get : ∀ id, c.get id = before.get id
  state : ∀ st ∈ out, before.get st.playerId = some st
  once : (playerIds out).Nodup
  split : ∀ id, id ∈ before.inner.dirty ↔ id ∈ c.inner.dirty ∨ id ∈ playerIds out
  apart : ∀ id ∈ playerIds out, id ∉ c.inner.dirty

theorem Portioned.refl (c : WriteBehindCache) : Portioned c c [] where
  get _ := rfl
  state st hst := by cases hst
  once := List.nodup_nil
  split id := by simp [playerIds]
  apart id hid := by cases hid

/-- What is out of a cache that more has been taken out of. -/
theorem Portioned.trans {c' : WriteBehindCache} {out' : List PlayerState} (hp : Portioned before c out)
    (hp' : Portioned c c' out') : Portioned before c' (out ++ out') := by
  have hwas : ∀ id ∈ playerIds out', id ∈ c.inner.dirty := fun id hid =>
    (hp'.split id).mpr (Or.inr hid)
  have happ : playerIds (out ++ out') = playerIds out ++ playerIds out' := List.map_append
  refine ⟨fun id => (hp'.get id).trans (hp.get id), fun st hst => ?_, ?_, fun id => ?_,
    fun id hid hd => ?_⟩
  · rcases List.mem_append.mp hst with hst | hst
    · exact hp.state st hst
    · exact (hp.get _).symm.trans (hp'.state st hst)
  · rw [happ, List.nodup_append']
    exact ⟨hp.once, hp'.once, fun id hid hid' => hp.apart id hid (hwas id hid')⟩
  · rw [happ, List.mem_append, hp.split id, hp'.split id, or_assoc, or_comm (a := id ∈ playerIds out')]
  · rcases List.mem_append.mp (happ ▸ hid) with hid | hid
    · exact hp.apart id hid ((hp'.split id).mpr (Or.inl hd))
    · exact hp'.apart id hid hd

/-- One batch is taken. -/
theorem portioned_taken (ho : Inner.Enumerates order c.inner.dirty) (max : ℕ) :
    Portioned c (c.takeDirty order max) (c.taken order max) := by
  have ht := takes ho max
  refine ⟨ht.get, ht.state, ht.distinct, fun id => ?_, fun id hid hd => ((ht.clean id).mp hd).2 hid⟩
  rw [ht.clean id]
  constructor
  · intro hd
    by_cases hid : id ∈ playerIds (c.taken order max)
    · exact Or.inr hid
    · exact Or.inl ⟨hd, hid⟩
  · rintro (⟨hd, -⟩ | hid)
    · exact hd
    · obtain ⟨st, hst, rfl⟩ := List.mem_map.mp hid
      exact ht.wasDirty st hst

/-- One more batch is taken. -/
theorem Portioned.take (hp : Portioned before c out) (ho : Inner.Enumerates order c.inner.dirty)
    (max : ℕ) : Portioned before (c.takeDirty order max) (out ++ c.taken order max) :=
  hp.trans (portioned_taken ho max)

/-- **The batch taken last is put back.** -/
theorem Portioned.putBack (hp : Portioned before c (out ++ batch)) :
    Portioned before (c.requeueDirty batch) out := by
  have happ : playerIds (out ++ batch) = playerIds out ++ playerIds batch := List.map_append
  have hcached : ∀ st ∈ batch, (c.inner.map st.playerId).map Entry.state = some st := fun st hst =>
    (hp.get _).trans (hp.state st (List.mem_append_right _ hst))
  have hback := requeueDirty_of_cached hcached
  have honce := List.nodup_append'.mp (happ ▸ hp.once)
  refine ⟨fun id => (hback id).1.trans (hp.get id),
    fun st hst => hp.state st (List.mem_append_left _ hst), honce.1, fun id => ?_, fun id hid hd => ?_⟩
  · rw [hp.split id, happ, List.mem_append, or_comm (a := id ∈ playerIds out), ← or_assoc]
    exact or_congr_left (hback id).2.symm
  · rcases (hback id).2.mp hd with hd | hd
    · exact hp.apart id (happ ▸ List.mem_append_left _ hid) hd
    · exact honce.2.2 hid hd

end FluxThroughput.Cache.Portions
