import FluxThroughput.Cache.History

/-! # A flush that fails

A batch is taken, requests are applied while it is in flight, and it is put back. Whether the cache is
then as if there had been no flush is decided player by player: the entry of a player is changed by the
states of this player only (`map_foldl`). A state that is put back over one of its own version replaces
it, so the flush is visible where such a write had another blob (`invisible_iff_states`). -/

namespace FluxThroughput.Cache.FailedFlush

open FluxThroughput.Domain.Types FluxThroughput.Lib.WriteBehind FluxThroughput.Cache.WriteBehind
open FluxThroughput.Cache.History

/-! ### One player's entry -/

/-- An entry after one state of its player is put in. -/
def merge (cur : Option Entry) (st : PlayerState) : Option Entry :=
  match cur with
  | some e => if st.version < e.version then some e else some { state := st, dirty := true }
  | none => some { state := st, dirty := true }

theorem merge_stale {e : Entry} {st : PlayerState} (h : st.version < e.version) :
    merge (some e) st = some e := if_pos h

theorem merge_wins {e : Entry} {st : PlayerState} (h : ¬ st.version < e.version) :
    merge (some e) st = some { state := st, dirty := true } := if_neg h

theorem map_requeueOne (inner : Inner) (st : PlayerState) (id : PlayerId) :
    (inner.requeueOne st).map id =
      if st.playerId = id then merge (inner.map id) st else inner.map id := by
  unfold Inner.requeueOne
  by_cases hid : st.playerId = id
  · subst hid
    rw [if_pos rfl]
    rcases he : inner.map st.playerId with _ | e
    · exact Function.update_self ..
    · by_cases hlt : st.version < e.version
      · rw [merge_stale hlt]
        exact (congrArg (fun i : Inner => i.map st.playerId) (if_pos hlt)).trans he
      · rw [merge_wins hlt]
        refine (congrArg (fun i : Inner => i.map st.playerId) (if_neg hlt)).trans ?_
        exact Function.update_self ..
  · rw [if_neg hid]
    have hother : (inner.insertDirty st).map id = inner.map id := Function.update_of_ne (Ne.symm hid) ..
    split
    · split_ifs
      · rfl
      · exact hother
    · exact hother

/-- **The entry of a player is changed by the states of this player only.** -/
theorem map_foldl (id : PlayerId) : ∀ (states : List PlayerState) (inner : Inner),
    (inner.requeueDirty states).map id =
      (states.filter fun st => st.playerId = id).foldl merge (inner.map id)
  | [], _ => rfl
  | st :: states, inner => by
    have ih := map_foldl id states (inner.requeueOne st)
    rw [map_requeueOne] at ih
    show ((inner.requeueOne st).requeueDirty states).map id = _
    rw [ih]
    by_cases hid : st.playerId = id
    · rw [if_pos hid, List.filter_cons_of_pos (by simpa using hid), List.foldl_cons]
    · rw [if_neg hid, List.filter_cons_of_neg (by simpa using hid)]

/-! ### The entry of a player that was taken -/

section Merge
variable {L : List PlayerState} {st : PlayerState}

/-- Nothing put in lowers the version. -/
theorem foldl_merge_version : ∀ (L : List PlayerState) (e : Entry), ∃ m,
    L.foldl merge (some e) = some m ∧ e.version ≤ m.version ∧ ∀ x ∈ L, x.version ≤ m.version
  | [], e => ⟨e, rfl, le_rfl, fun x hx => by cases hx⟩
  | x :: L, e => by
    by_cases hlt : x.version < e.version
    · obtain ⟨m, hm, he, hL⟩ := foldl_merge_version L e
      refine ⟨m, ?_, he, fun y hy => ?_⟩
      · rw [List.foldl_cons, merge_stale hlt, hm]
      · rcases List.mem_cons.mp hy with rfl | hy
        · exact hlt.le.trans he
        · exact hL y hy
    · obtain ⟨m, hm, he, hL⟩ := foldl_merge_version L { state := x, dirty := true }
      refine ⟨m, ?_, (not_lt.mp hlt).trans he, fun y hy => ?_⟩
      · rw [List.foldl_cons, merge_wins hlt, hm]
      · rcases List.mem_cons.mp hy with rfl | hy
        · exact he
        · exact hL y hy

/-- Once a state has won, the entry before it does not matter. -/
theorem foldl_merge_congr : ∀ {L : List PlayerState} {e e' : Entry}, e.version = e'.version →
    (∃ x ∈ L, e.version ≤ x.version) → L.foldl merge (some e) = L.foldl merge (some e')
  | [], _, _, _, ⟨_, hx, _⟩ => by cases hx
  | y :: L, e, e', hv, ⟨x, hx, hle⟩ => by
    rw [List.foldl_cons, List.foldl_cons]
    by_cases hlt : y.version < e.version
    · rw [merge_stale hlt, merge_stale (hv ▸ hlt)]
      rcases List.mem_cons.mp hx with rfl | hx
      · exact absurd hle (not_le.mpr hlt)
      · exact foldl_merge_congr hv ⟨x, hx, hle⟩
    · rw [merge_wins hlt, merge_wins (hv ▸ hlt)]

/-- Where no state is newer, the last one of the entry's own version wins. -/
theorem foldl_merge_le {v : UInt64} : ∀ {L : List PlayerState} {e : Entry}, e.version = v →
    (∀ x ∈ L, x.version ≤ v) → L.foldl merge (some e) =
      some ((L.filter fun x => x.version = v).getLast?.elim e fun m => { state := m, dirty := true })
  | [], _, _, _ => rfl
  | x :: L, e, hv, hL => by
    have hrest : ∀ y ∈ L, y.version ≤ v := fun y hy => hL y (List.mem_cons_of_mem _ hy)
    by_cases hx : x.version = v
    · have hwins : ¬ x.version < e.version := by rw [hx, hv]; exact lt_irrefl v
      have ih := foldl_merge_le (L := L) (e := { state := x, dirty := true }) hx hrest
      rw [List.foldl_cons, merge_wins hwins, ih, List.filter_cons_of_pos (by simpa using hx),
        List.getLast?_cons]
      generalize (List.filter _ L).getLast? = last
      rcases last with _ | m <;> rfl
    · have hstale : x.version < e.version := by
        rw [hv]
        exact lt_of_le_of_ne (hL x List.mem_cons_self) hx
      rw [List.foldl_cons, merge_stale hstale, foldl_merge_le hv hrest,
        List.filter_cons_of_neg (by simpa using hx)]

/-- **The entry of a player whose state was taken and put back.** -/
theorem merge_back_iff :
    merge (L.foldl merge (some { state := st, dirty := false })) st =
        L.foldl merge (some { state := st, dirty := true }) ↔
      (∃ x ∈ L, st.version < x.version) ∨
        ∀ m, (L.filter fun x => x.version = st.version).getLast? = some m → m = st := by
  by_cases hnew : ∃ x ∈ L, st.version < x.version
  · refine ⟨fun _ => Or.inl hnew, fun _ => ?_⟩
    obtain ⟨x, hx, hlt⟩ := hnew
    have hcongr : L.foldl merge (some { state := st, dirty := false }) =
        L.foldl merge (some { state := st, dirty := true }) :=
      foldl_merge_congr rfl ⟨x, hx, hlt.le⟩
    obtain ⟨m, hm, -, hL⟩ := foldl_merge_version L { state := st, dirty := true }
    rw [hcongr, hm, merge_stale (hlt.trans_le (hL x hx))]
  · have hle : ∀ x ∈ L, x.version ≤ st.version := by
      intro x hx
      by_contra hlt
      exact hnew ⟨x, hx, not_le.mp hlt⟩
    rw [foldl_merge_le (v := st.version) rfl hle, foldl_merge_le (v := st.version) rfl hle]
    constructor
    · intro h
      right
      intro m hm
      have hmem := List.mem_of_getLast? hm
      have hv : m.version = st.version := by simpa using (List.mem_filter.mp hmem).2
      have hwins : ¬ st.version < m.version := by rw [hv]; exact lt_irrefl _
      rw [hm] at h
      have heq : merge (some { state := m, dirty := true }) st = some { state := st, dirty := true } :=
        merge_wins hwins
      have h' := heq.symm.trans h
      exact (congrArg Entry.state (Option.some.inj h')).symm
    · rintro (h | h)
      · exact absurd h hnew
      · have hself : ∀ b, merge (some { state := st, dirty := b }) st =
            some { state := st, dirty := true } := fun b => merge_wins (lt_irrefl _)
        generalize (List.filter _ L).getLast? = last at h ⊢
        rcases last with _ | m
        · exact hself false
        · obtain rfl := h m rfl
          exact hself true

end Merge

/-! ### The whole cache -/

/-- Some requests applied in order. -/
def applyAll (c : WriteBehindCache) (rs : List WriteRequest) : WriteBehindCache :=
  rs.foldl WriteBehindCache.apply c

/-- **A failed flush**: a batch is taken, `rs` are applied, the batch is put back. -/
def failedFlush (c : WriteBehindCache) (order : List PlayerId) (max : ℕ) (rs : List WriteRequest) :
    WriteBehindCache :=
  (applyAll (c.takeDirty order max) rs).requeueDirty (c.taken order max)

/-- The caches have the same state for every player, and the same dirty set. -/
def Same (a b : WriteBehindCache) : Prop :=
  (∀ id, a.get id = b.get id) ∧ a.inner.dirty = b.inner.dirty

/-- The state that was taken is put back without a trace: a newer write of its player landed, or the
last write of its own version, if there was one, has the same blob. -/
def Invisible (st : PlayerState) (rs : List WriteRequest) : Prop :=
  (∃ r ∈ rs, r.playerId = st.playerId ∧ st.version < r.version) ∨
    ∀ r, (rs.filter fun r => r.playerId = st.playerId ∧ r.version = st.version).getLast? = some r →
      r.blob = st.blob

section Cache
variable {a b c : WriteBehindCache} {order : List PlayerId} {max : ℕ} {rs : List WriteRequest}

/-- The index follows the bits, so the entries decide. -/
theorem same_iff : Same a b ↔ ∀ id, a.inner.map id = b.inner.map id := by
  constructor
  · rintro ⟨hget, hdirty⟩ id
    have hstate : (a.inner.map id).map Entry.state = (b.inner.map id).map Entry.state := hget id
    have hbit : (∃ e, a.inner.map id = some e ∧ e.dirty = true) ↔
        ∃ e, b.inner.map id = some e ∧ e.dirty = true := by
      rw [← a.lockstep.bit id, ← b.lockstep.bit id, hdirty]
    rcases ha : a.inner.map id with _ | e <;> rcases hb : b.inner.map id with _ | e'
    · rfl
    · rw [ha, hb] at hstate
      cases hstate
    · rw [ha, hb] at hstate
      cases hstate
    · rw [ha, hb] at hstate
      have hst : e.state = e'.state := Option.some.inj hstate
      have hd : e.dirty = true ↔ e'.dirty = true := by
        simpa only [ha, hb, Option.some.injEq, exists_eq_left'] using hbit
      rcases e with ⟨st, d⟩
      rcases e' with ⟨st', d'⟩
      obtain rfl : st = st' := hst
      obtain rfl : d = d' := Bool.eq_iff_iff.mpr hd
      rfl
  · intro h
    have hget : ∀ id, a.get id = b.get id := by
      intro id
      unfold WriteBehindCache.get
      rw [h id]
    refine ⟨hget, ?_⟩
    ext id
    rw [a.lockstep.bit id, b.lockstep.bit id, h id]

theorem inner_applyAll : ∀ (rs : List WriteRequest) (c : WriteBehindCache),
    (applyAll c rs).inner = c.inner.requeueDirty (rs.map WriteRequest.toState)
  | [], _ => rfl
  | r :: rs, c => by
    have ih := inner_applyAll rs (c.apply r)
    have hone : (c.apply r).inner = c.inner.requeueOne r.toState := Inner.apply_eq_requeueOne _ _
    rw [hone] at ih
    exact ih

/-- The requests of one player, as states. -/
theorem filter_toState (id : PlayerId) (rs : List WriteRequest) :
    (rs.map WriteRequest.toState).filter (fun st => st.playerId = id) =
      (rs.filter fun r => r.playerId = id).map WriteRequest.toState := by
  rw [List.filter_map]
  rfl

/-- The condition, on the requests themselves. -/
theorem invisible_iff_states {st : PlayerState} : Invisible st rs ↔
    (∃ x ∈ (rs.map WriteRequest.toState).filter fun x => x.playerId = st.playerId,
      st.version < x.version) ∨
    ∀ m, (((rs.map WriteRequest.toState).filter fun x => x.playerId = st.playerId).filter fun x =>
      x.version = st.version).getLast? = some m → m = st := by
  have hfilter : ((rs.map WriteRequest.toState).filter fun x => x.playerId = st.playerId).filter
        (fun x => x.version = st.version) =
      (rs.filter fun r => r.playerId = st.playerId ∧ r.version = st.version).map
        WriteRequest.toState := by
    rw [filter_toState, List.filter_map, List.filter_filter]
    congr 2
    funext r
    rw [Bool.and_comm]
    exact (Bool.decide_and _ _).symm
  rw [hfilter, List.getLast?_map]
  refine or_congr ?_ ?_
  · rw [filter_toState]
    simp only [List.mem_map, List.mem_filter, decide_eq_true_eq]
    constructor
    · rintro ⟨r, hr, hid, hlt⟩
      exact ⟨r.toState, ⟨r, ⟨hr, hid⟩, rfl⟩, hlt⟩
    · rintro ⟨x, ⟨r, ⟨hr, hid⟩, rfl⟩, hlt⟩
      exact ⟨r, hr, hid, hlt⟩
  · have hkey : ∀ r, (rs.filter fun r => r.playerId = st.playerId ∧ r.version = st.version).getLast? =
        some r → (r.toState = st ↔ r.blob = st.blob) := by
      intro r hr
      have hmem := (List.mem_filter.mp (List.mem_of_getLast? hr)).2
      obtain ⟨hid, hv⟩ : r.playerId = st.playerId ∧ r.version = st.version := by simpa using hmem
      rcases st with ⟨id, v, blob⟩
      simp only [WriteRequest.toState, PlayerState.mk.injEq]
      exact ⟨fun h => h.2.2, fun h => ⟨hid, hv, h⟩⟩
    constructor
    · intro h m hm
      obtain ⟨r, hr, rfl⟩ := Option.map_eq_some_iff.mp hm
      exact (hkey r hr).mpr (h r hr)
    · intro h r hr
      exact (hkey r hr).mp (h r.toState (by rw [hr]; rfl))

/-- Of states with different players, one has the player of a given one. -/
theorem filter_player {st : PlayerState} : ∀ {states : List PlayerState},
    (states.map PlayerState.playerId).Nodup → st ∈ states →
    states.filter (fun x => x.playerId = st.playerId) = [st]
  | [], _, hst => by cases hst
  | x :: states, hd, hst => by
    rw [List.map_cons, List.nodup_cons] at hd
    by_cases hx : x.playerId = st.playerId
    · have hnone : ∀ y ∈ states, ¬ y.playerId = st.playerId := by
        intro y hy hid
        exact hd.1 (List.mem_map.mpr ⟨y, hy, hid.trans hx.symm⟩)
      have hself : st = x := by
        rcases List.mem_cons.mp hst with h | h
        · exact h
        · exact absurd rfl (hnone st h)
      rw [List.filter_cons_of_pos (by simpa using hx), hself]
      congr 1
      apply List.filter_eq_nil_iff.mpr
      intro y hy
      rw [← hself]
      simpa using hnone y hy
    · rw [List.filter_cons_of_neg (by simpa using hx)]
      rcases List.mem_cons.mp hst with h | h
      · exact absurd (h ▸ rfl) hx
      · exact filter_player hd.2 h

/-- The entries after a failed flush. -/
theorem map_failedFlush (id : PlayerId) : (failedFlush c order max rs).inner.map id =
    ((c.taken order max).filter fun st => st.playerId = id).foldl merge
      (((rs.map WriteRequest.toState).filter fun st => st.playerId = id).foldl merge
        ((c.takeDirty order max).inner.map id)) := by
  show ((applyAll (c.takeDirty order max) rs).inner.requeueDirty (c.taken order max)).map id = _
  rw [map_foldl, inner_applyAll, map_foldl]

/-- A failed flush leaves no trace exactly when no state it took does. -/
theorem same_iff_taken (ho : Inner.Enumerates order c.inner.dirty) :
    Same (failedFlush c order max rs) (applyAll c rs) ↔
      ∀ st ∈ c.taken order max, Invisible st rs := by
  have hplain : ∀ id, (applyAll c rs).inner.map id =
      ((rs.map WriteRequest.toState).filter fun st => st.playerId = id).foldl merge
        (c.inner.map id) := by
    intro id
    rw [inner_applyAll, map_foldl]
  have hinner : (c.takeDirty order max).inner = c.inner.clean (order.take max) := by
    show (c.inner.takeDirty order max).2 = _
    rw [Inner.takeDirty_eq ho]
  have htakes := takes ho max
  have hids := playerIds_taken ho max
  have htaken : ∀ st ∈ c.taken order max,
      ((failedFlush c order max rs).inner.map st.playerId = (applyAll c rs).inner.map st.playerId ↔
        Invisible st rs) := by
    intro st hst
    obtain ⟨e, he, hd⟩ := (c.lockstep.bit _).mp (htakes.wasDirty st hst)
    have hentry : c.inner.map st.playerId = some { state := st, dirty := true } := by
      have hget := htakes.state st hst
      unfold WriteBehindCache.get at hget
      rw [he] at hget ⊢
      rcases e with ⟨st', d⟩
      obtain rfl : st' = st := Option.some.inj hget
      obtain rfl : d = true := hd
      rfl
    have hmem : st.playerId ∈ order.take max := by
      rw [← hids]
      exact List.mem_map_of_mem hst
    have hclean : (c.takeDirty order max).inner.map st.playerId =
        some { state := st, dirty := false } := by
      rw [hinner]
      unfold Inner.clean
      simp only [if_pos hmem, hentry, Option.map_some]
    rw [map_failedFlush, hplain, filter_player htakes.distinct hst, hclean, hentry,
      List.foldl_cons, List.foldl_nil, merge_back_iff, invisible_iff_states]
  have hother : ∀ id, id ∉ order.take max →
      (failedFlush c order max rs).inner.map id = (applyAll c rs).inner.map id := by
    intro id hid
    have hnone : (c.taken order max).filter (fun st => st.playerId = id) = [] := by
      apply List.filter_eq_nil_iff.mpr
      intro st hst hst'
      apply hid
      rw [← hids]
      exact List.mem_map.mpr ⟨st, hst, by simpa using hst'⟩
    have hclean : (c.takeDirty order max).inner.map id = c.inner.map id := by
      rw [hinner]
      exact if_neg hid
    rw [map_failedFlush, hplain, hnone, hclean, List.foldl_nil]
  rw [same_iff]
  constructor
  · intro h st hst
    exact (htaken st hst).mp (h st.playerId)
  · intro h id
    by_cases hid : id ∈ order.take max
    · rw [← hids] at hid
      obtain ⟨st, hst, rfl⟩ := List.mem_map.mp hid
      exact (htaken st hst).mpr (h st hst)
    · exact hother id hid

/-- **A failed flush is invisible** exactly when every player chosen by `take_dirty` has a newer write
among the requests, or none of its cached version that ends with another blob. -/
theorem same_failedFlush_iff (ho : Inner.Enumerates order c.inner.dirty) :
    Same (failedFlush c order max rs) (applyAll c rs) ↔
      ∀ id ∈ order.take max, ∀ st, c.get id = some st → Invisible st rs := by
  rw [same_iff_taken ho]
  constructor
  · intro h id hid st hst
    obtain ⟨e, he, rfl⟩ := Option.map_eq_some_iff.mp hst
    obtain rfl := c.lockstep.key id e he
    exact h e.state ((WriteBehindCache.mem_taken ho).mpr ⟨hid, hst⟩)
  · intro h st hst
    obtain ⟨hid, hget⟩ := (WriteBehindCache.mem_taken ho).mp hst
    exact h st.playerId hid st hget

end Cache

/-! ### A write of the same version -/

/-- Player 7 at version 1, dirty. -/
def staged : WriteBehindCache := WriteBehindCache.new.apply
  { playerId := 7, version := 1, blob := [1], seq := 0 }

def sameVersion : WriteRequest := { playerId := 7, version := 1, blob := [2], seq := 0 }

def newerVersion : WriteRequest := { playerId := 7, version := 2, blob := [3], seq := 0 }

theorem same_failedFlush_newer : Inner.Enumerates [7] staged.inner.dirty ∧
    Same (failedFlush staged [7] 1 [sameVersion, newerVersion])
      (applyAll staged [sameVersion, newerVersion]) := by
  have ho : Inner.Enumerates [7] staged.inner.dirty := by decide
  refine ⟨ho, (same_failedFlush_iff ho).mpr fun id hid st hst => ?_⟩
  obtain rfl : id = 7 := List.mem_singleton.mp hid
  have hget : staged.get 7 = some { playerId := 7, version := 1, blob := [1] } := by decide
  obtain rfl := Option.some.inj (hget.symm.trans hst)
  exact Or.inl ⟨newerVersion, by decide, by decide, by decide⟩

/-- **A write that landed during a failed flush is reverted**: it has the version of the staged one. -/
theorem same_version_reverted : Inner.Enumerates [7] staged.inner.dirty ∧
    (applyAll staged [sameVersion]).get 7 = some { playerId := 7, version := 1, blob := [2] } ∧
    (failedFlush staged [7] 1 [sameVersion]).get 7 =
      some { playerId := 7, version := 1, blob := [1] } := by
  refine ⟨by decide, by decide, by decide⟩

end FluxThroughput.Cache.FailedFlush
