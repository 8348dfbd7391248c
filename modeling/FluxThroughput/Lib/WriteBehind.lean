import Mathlib

/-! # Write-behind pipelines

A pipeline carries versioned writes of keys `κ` from a queue through private buffers into a cache that
keeps the newest version of each key, and in batches from the cache into a store, while a log records
writes and is truncated now and then. Threads `T` do all of this in any order. Only versions matter
here: a write is a pair `(k, v)`.

* `Inv`: every accepted write is in the queue, in a buffer, or absorbed by the cache (`accounted`);
  every cached version is dirty, in an unfinished batch, or absorbed by the store (`settled`). Every
  move keeps it (`Move.inv`).
* `BatchesCached`: a batch holds nothing newer than the cache (`Move.batchesCached`).
* `Covered`: the store or the log answers for a write. Only a truncation can end it
  (`Act.covered`), and not that of a write which is `Settled` (`Inv.stored_of_settled`). -/

namespace FluxThroughput.Lib.WriteBehind

variable {κ ν T : Type*} [DecidableEq κ] [LinearOrder ν]

/-! ### Newest versions -/

/-- The map has a version of `k` that is at least `v`. -/
def Reaches (m : κ → Option ν) (k : κ) (v : ν) : Prop := ∃ w, m k = some w ∧ v ≤ w

/-- The map has a version newer than that of the write. -/
def Stale (m : κ → Option ν) (w : κ × ν) : Prop := ∃ v, m w.1 = some v ∧ w.2 < v

/-- The newest version of each key, after the write `w`. -/
def raise (m : κ → Option ν) (w : κ × ν) : κ → Option ν :=
  Function.update m w.1 (some ((m w.1).elim w.2 (max w.2)))

theorem raise_ne {m : κ → Option ν} {w : κ × ν} {k : κ} (h : k ≠ w.1) : raise m w k = m k :=
  Function.update_of_ne h _ _

theorem raise_of_stale {m : κ → Option ν} {w : κ × ν} (h : Stale m w) : raise m w = m := by
  obtain ⟨v, hv, hlt⟩ := h
  unfold raise
  rw [hv, Option.elim_some, max_eq_right hlt.le, ← hv, Function.update_eq_self]

theorem raise_of_not_stale {m : κ → Option ν} {w : κ × ν} (h : ¬ Stale m w) :
    raise m w w.1 = some w.2 := by
  unfold raise
  rw [Function.update_self]
  rcases hv : m w.1 with _ | v
  · rfl
  · rw [Option.elim_some, max_eq_left]
    exact not_lt.mp fun hlt => h ⟨v, hv, hlt⟩

theorem reaches_raise {m : κ → Option ν} {w : κ × ν} {k : κ} {v : ν} :
    Reaches (raise m w) k v ↔ Reaches m k v ∨ (k = w.1 ∧ v ≤ w.2) := by
  by_cases hk : k = w.1
  · subst hk
    by_cases hs : Stale m w
    · obtain ⟨u, hu, hlt⟩ := id hs
      rw [raise_of_stale hs]
      exact ⟨Or.inl, fun h => h.elim id fun h => ⟨u, hu, h.2.trans hlt.le⟩⟩
    · have hr := raise_of_not_stale hs
      constructor
      · rintro ⟨u, hu, hle⟩
        rw [hr, Option.some.injEq] at hu
        exact Or.inr ⟨rfl, hu ▸ hle⟩
      · rintro (⟨u, hu, hle⟩ | ⟨-, hle⟩)
        · exact ⟨_, hr, hle.trans (not_lt.mp fun hlt => hs ⟨u, hu, hlt⟩)⟩
        · exact ⟨_, hr, hle⟩
  · unfold Reaches
    rw [raise_ne hk]
    exact ⟨Or.inl, fun h => h.elim id fun h => absurd h.1 hk⟩

theorem Reaches.raise {m : κ → Option ν} {k : κ} {v : ν} (h : Reaches m k v) (w : κ × ν) :
    Reaches (raise m w) k v := reaches_raise.mpr (Or.inl h)

theorem reaches_foldl_raise {ws : List (κ × ν)} : ∀ {m : κ → Option ν} {k : κ} {v : ν},
    Reaches (ws.foldl raise m) k v ↔ Reaches m k v ∨ ∃ w ∈ ws, k = w.1 ∧ v ≤ w.2 := by
  induction ws with
  | nil => simp
  | cons w ws ih =>
    intro m k v
    rw [List.foldl_cons, ih, reaches_raise]
    simp only [List.mem_cons, exists_eq_or_imp, or_assoc]

/-! ### The pipeline -/

/-- What all threads share. -/
structure Core (κ ν : Type*) where
  accepted : Set (κ × ν)
  queue : List (κ × ν)
  cached : κ → Option ν
  dirty : Set κ
  store : κ → Option ν
  log : Set (κ × ν)

/-- What one thread holds: writes it has popped and not yet applied, and the batch it has taken
and neither persisted nor put back. -/
structure Hold (κ ν : Type*) where
  buf : List (κ × ν)
  batch : List (κ × ν)

/-- The cache after the write `w`: the newest version wins, and a write that is not stale makes
its key dirty. -/
def Core.stage (c : Core κ ν) (w : κ × ν) : Core κ ν :=
  { c with
    cached := raise c.cached w
    dirty := {k | k ∈ c.dirty ∨ (k = w.1 ∧ ¬ Stale c.cached w)} }

/-- **What a thread may do** to the shared part and to what it holds, truncating the log apart. -/
inductive Act : Core κ ν → Hold κ ν → Core κ ν → Hold κ ν → Prop
  | stay (c : Core κ ν) (h : Hold κ ν) : Act c h c h
  | accept (c : Core κ ν) (h : Hold κ ν) (w : κ × ν) :
      Act c h { c with accepted := insert w c.accepted, queue := c.queue ++ [w] } h
  | pop (c : Core κ ν) (h : Hold κ ν) (w : κ × ν) (q : List (κ × ν)) (hq : c.queue = w :: q) :
      Act c h { c with queue := q } { h with buf := h.buf ++ [w] }
  | apply (c : Core κ ν) (h : Hold κ ν) (w : κ × ν) (ws : List (κ × ν)) (hb : h.buf = w :: ws) :
      Act c h (c.stage w) { h with buf := ws }
  | take (c : Core κ ν) (h : Hold κ ν) (b : List (κ × ν)) (hh : h.batch = [])
      (hb : ∀ w ∈ b, c.cached w.1 = some w.2) :
      Act c h { c with dirty := {k | k ∈ c.dirty ∧ ∀ w ∈ b, w.1 ≠ k} } { h with batch := b }
  | persist (c : Core κ ν) (h : Hold κ ν) :
      Act c h { c with store := h.batch.foldl raise c.store } { h with batch := [] }
  | requeue (c : Core κ ν) (h : Hold κ ν) :
      Act c h (h.batch.foldl Core.stage c) { h with batch := [] }
  | append (c : Core κ ν) (h : Hold κ ν) (ws : Set (κ × ν)) :
      Act c h { c with log := c.log ∪ ws } h

/-- The shared part together with what every thread holds. -/
structure Pipe (T κ ν : Type*) where
  core : Core κ ν
  hold : T → Hold κ ν

/-- One thread acts, or the log is truncated. -/
inductive Move [DecidableEq T] (p : Pipe T κ ν) : Pipe T κ ν → Prop
  | act (t : T) (c : Core κ ν) (h : Hold κ ν) (ha : Act p.core (p.hold t) c h) :
      Move p ⟨c, Function.update p.hold t h⟩
  | truncate (keep : Set (κ × ν)) (hk : keep ⊆ p.core.log) :
      Move p ⟨{ p.core with log := keep }, p.hold⟩

/-- **No write is lost**: each accepted write is queued, buffered or cached, and each cached
version is dirty, in an unfinished batch or stored. -/
structure Inv (p : Pipe T κ ν) : Prop where
  accounted : ∀ w ∈ p.core.accepted,
    w ∈ p.core.queue ∨ (∃ t, w ∈ (p.hold t).buf) ∨ Reaches p.core.cached w.1 w.2
  settled : ∀ k v, p.core.cached k = some v →
    k ∈ p.core.dirty ∨ (∃ t, (k, v) ∈ (p.hold t).batch) ∨ Reaches p.core.store k v

/-- The write is in a buffer, or absorbed by the cache. -/
def Passed (p : Pipe T κ ν) (w : κ × ν) : Prop :=
  (∃ t, w ∈ (p.hold t).buf) ∨ Reaches p.core.cached w.1 w.2

/-! ### Staging -/

/-- Staging `w` discharges the obligation that was met by `w` itself. -/
theorem Core.stage_settled {c : Core κ ν} {w : κ × ν} {Q : κ → ν → Prop}
    (h : ∀ k v, c.cached k = some v → k ∈ c.dirty ∨ Q k v ∨ (k, v) = w) :
    ∀ k v, (c.stage w).cached k = some v → k ∈ (c.stage w).dirty ∨ Q k v := by
  intro k v hkv
  simp only [Core.stage, Set.mem_ofPred_eq] at hkv ⊢
  by_cases hs : Stale c.cached w
  · rw [raise_of_stale hs] at hkv
    rcases h k v hkv with hd | hq | rfl
    · exact Or.inl (Or.inl hd)
    · exact Or.inr hq
    · obtain ⟨u, hu, hlt⟩ := hs
      rw [hkv, Option.some.injEq] at hu
      exact absurd hlt (by simp [hu])
  · by_cases hk : k = w.1
    · exact Or.inl (Or.inr ⟨hk, hs⟩)
    · rw [raise_ne hk] at hkv
      rcases h k v hkv with hd | hq | rfl
      · exact Or.inl (Or.inl hd)
      · exact Or.inr hq
      · exact absurd rfl hk

theorem foldl_stage_settled {Q : κ → ν → Prop} : ∀ (ws : List (κ × ν)) (c : Core κ ν),
    (∀ k v, c.cached k = some v → k ∈ c.dirty ∨ Q k v ∨ (k, v) ∈ ws) →
      ∀ k v, (ws.foldl Core.stage c).cached k = some v →
        k ∈ (ws.foldl Core.stage c).dirty ∨ Q k v
  | [], c, h => by simpa using h
  | w :: ws, c, h => by
    rw [List.foldl_cons]
    refine foldl_stage_settled ws _ ?_
    have h' := Core.stage_settled (c := c) (w := w) (Q := fun k v => Q k v ∨ (k, v) ∈ ws)
      fun k v hkv => by
        rcases h k v hkv with hd | hq | hm
        · exact Or.inl hd
        · exact Or.inr (Or.inl (Or.inl hq))
        · rcases List.mem_cons.mp hm with rfl | hm
          · exact Or.inr (Or.inr rfl)
          · exact Or.inr (Or.inl (Or.inr hm))
    exact h'

/-- Staging the cached version of a key only makes the key dirty. -/
theorem Core.stage_of_cached {c : Core κ ν} {w : κ × ν} (h : c.cached w.1 = some w.2) :
    c.stage w = { c with dirty := {k | k ∈ c.dirty ∨ w.1 = k} } := by
  have hns : ¬ Stale c.cached w := by
    rintro ⟨v, hv, hlt⟩
    rw [h, Option.some.injEq] at hv
    exact absurd hlt (by simp [hv])
  have hr : raise c.cached w = c.cached := by
    funext k
    by_cases hk : k = w.1
    · rw [hk, raise_of_not_stale hns, h]
    · exact raise_ne hk
  unfold Core.stage
  rw [hr]
  simp only [hns, not_false_eq_true, and_true, eq_comm]

theorem foldl_stage_of_cached : ∀ (ws : List (κ × ν)) (c : Core κ ν),
    (∀ w ∈ ws, c.cached w.1 = some w.2) →
      ws.foldl Core.stage c = { c with dirty := {k | k ∈ c.dirty ∨ ∃ w ∈ ws, w.1 = k} }
  | [], c, _ => by simp
  | w :: ws, c, h => by
    rw [List.foldl_cons, Core.stage_of_cached (h w (by simp)),
      foldl_stage_of_cached ws { c with dirty := {k | k ∈ c.dirty ∨ w.1 = k} }
        fun x hx => h x (List.mem_cons_of_mem _ hx)]
    simp [or_assoc]

/-- Staging changes the cache and the dirty set only. -/
theorem foldl_stage_frame : ∀ (ws : List (κ × ν)) (c : Core κ ν),
    (ws.foldl Core.stage c).accepted = c.accepted ∧ (ws.foldl Core.stage c).queue = c.queue ∧
      (ws.foldl Core.stage c).cached = ws.foldl raise c.cached ∧
      (ws.foldl Core.stage c).store = c.store ∧ (ws.foldl Core.stage c).log = c.log
  | [], c => ⟨rfl, rfl, rfl, rfl, rfl⟩
  | w :: ws, c => by
    obtain ⟨h1, h2, h3, h4, h5⟩ := foldl_stage_frame ws (c.stage w)
    exact ⟨h1, h2, h3, h4, h5⟩

/-! ### Every move keeps the invariant -/

section Moves
variable [DecidableEq T] {p p' : Pipe T κ ν}

omit [DecidableEq κ] [LinearOrder ν] in
/-- Whether some thread holds `x` after thread `t`'s holding has become `h`. -/
theorem exists_update {α : Type*} {f : Hold κ ν → List α} {t : T} {h : Hold κ ν} {x : α}
    {hold : T → Hold κ ν} (hx : ∃ u, x ∈ f (hold u)) :
    x ∈ f (hold t) ∨ ∃ u, x ∈ f (Function.update hold t h u) := by
  obtain ⟨u, hu⟩ := hx
  by_cases hut : u = t
  · subst hut; exact Or.inl hu
  · exact Or.inr ⟨u, by rwa [Function.update_of_ne hut]⟩

omit [DecidableEq κ] [LinearOrder ν] in
theorem exists_update_self {α : Type*} {f : Hold κ ν → List α} {t : T} {h : Hold κ ν} {x : α}
    {hold : T → Hold κ ν} (hx : x ∈ f h) : ∃ u, x ∈ f (Function.update hold t h u) :=
  ⟨t, by rwa [Function.update_self]⟩

omit [DecidableEq κ] [LinearOrder ν] in
/-- What is held and not given up by `t` is still held. -/
theorem exists_update_of_subset {α : Type*} {f : Hold κ ν → List α} {t : T} {h : Hold κ ν}
    {x : α} {hold : T → Hold κ ν} (hsub : f (hold t) ⊆ f h) (hx : ∃ u, x ∈ f (hold u)) :
    ∃ u, x ∈ f (Function.update hold t h u) :=
  (exists_update (h := h) hx).elim (fun hx => exists_update_self (hsub hx)) id

omit [DecidableEq T] in
/-- **The cache never goes back.** -/
theorem Act.reaches_cached {c c' : Core κ ν} {h h' : Hold κ ν} (ha : Act c h c' h') {k : κ} {v : ν}
    (hw : Reaches c.cached k v) : Reaches c'.cached k v := by
  cases ha with
  | stay | accept | pop | take | persist | append => exact hw
  | apply w => exact hw.raise w
  | requeue =>
    obtain ⟨-, -, h3, -, -⟩ := foldl_stage_frame h.batch c
    rw [h3]
    exact reaches_foldl_raise.mpr (Or.inl hw)

omit [DecidableEq T] in
/-- A batch stays, or is given up, or is taken with the cached versions. -/
theorem Act.batch {c c' : Core κ ν} {h h' : Hold κ ν} (ha : Act c h c' h') :
    h'.batch = h.batch ∨ h'.batch = [] ∨
      (h.batch = [] ∧ ∀ w ∈ h'.batch, c.cached w.1 = some w.2) := by
  cases ha with
  | stay | accept | pop | apply | append => exact Or.inl rfl
  | persist | requeue => exact Or.inr (Or.inl rfl)
  | take b hh hb => exact Or.inr (Or.inr ⟨hh, hb⟩)

/-- Every version in an unfinished batch has been absorbed by the cache. -/
def BatchesCached (p : Pipe T κ ν) : Prop :=
  ∀ t, ∀ w ∈ (p.hold t).batch, Reaches p.core.cached w.1 w.2

/-- A write that is buffered or absorbed by the cache stays so. -/
theorem Act.passed {t : T} {c : Core κ ν} {h : Hold κ ν} (ha : Act p.core (p.hold t) c h) {w : κ × ν}
    (hw : Passed p w) : Passed ⟨c, Function.update p.hold t h⟩ w := by
  rcases hw with hb | hc
  · cases ha with
    | apply w' ws hw' =>
      rcases exists_update (f := Hold.buf) (t := t) (h := ⟨ws, (p.hold t).batch⟩) hb with hm | hm
      · rw [hw'] at hm
        rcases List.mem_cons.mp hm with rfl | hm
        · exact Or.inr (reaches_raise.mpr (Or.inr ⟨rfl, le_rfl⟩))
        · exact Or.inl (exists_update_self (f := Hold.buf) hm)
      · exact Or.inl hm
    | pop => exact Or.inl (exists_update_of_subset (f := Hold.buf)
        (fun _ hx => List.mem_append_left _ hx) hb)
    | stay | accept | take | persist | requeue | append =>
      exact Or.inl (exists_update_of_subset (f := Hold.buf) (fun _ hx => hx) hb)
  · exact Or.inr (ha.reaches_cached hc)

theorem Act.accounted {t : T} {c : Core κ ν} {h : Hold κ ν} (hi : Inv p)
    (ha : Act p.core (p.hold t) c h) (w : κ × ν) (hw : w ∈ c.accepted) :
    w ∈ c.queue ∨ (∃ u, w ∈ (Function.update p.hold t h u).buf) ∨ Reaches c.cached w.1 w.2 := by
  have hpass : Passed p w → Passed ⟨c, Function.update p.hold t h⟩ w := ha.passed
  cases ha with
  | stay | take | persist | append | apply => exact (hi.accounted w hw).imp_right hpass
  | accept w' =>
    rcases hw with rfl | hw
    · exact Or.inl (by simp)
    · exact (hi.accounted w hw).imp (fun hq => List.mem_append_left _ hq) hpass
  | pop w' q hq =>
    have hself : w' ∈ (p.hold t).buf ++ [w'] := by simp
    rcases hi.accounted w hw with hm | hm
    · rw [hq] at hm
      rcases List.mem_cons.mp hm with rfl | hm
      · exact Or.inr (Or.inl (exists_update_self (f := Hold.buf) hself))
      · exact Or.inl hm
    · exact Or.inr (hpass hm)
  | requeue =>
    obtain ⟨h1, h2, -, -, -⟩ := foldl_stage_frame (p.hold t).batch p.core
    rw [h1] at hw
    rw [h2]
    exact (hi.accounted w hw).imp_right hpass

theorem Act.settled {t : T} {c : Core κ ν} {h : Hold κ ν} (hi : Inv p)
    (ha : Act p.core (p.hold t) c h) (k : κ) (v : ν) (hkv : c.cached k = some v) :
    k ∈ c.dirty ∨ (∃ u, (k, v) ∈ (Function.update p.hold t h u).batch) ∨
      Reaches c.store k v := by
  have hold' : ∀ k v, (p.hold t).batch ⊆ h.batch → p.core.cached k = some v → k ∈ p.core.dirty ∨
      (∃ u, (k, v) ∈ (Function.update p.hold t h u).batch) ∨ Reaches p.core.store k v :=
    fun k v hsub hkv => (hi.settled k v hkv).imp_right fun hr => hr.imp_left fun hx =>
      exists_update_of_subset (f := Hold.batch) hsub hx
  cases ha with
  | stay | accept | pop | append => exact hold' k v (fun _ hx => hx) hkv
  | apply w ws hb =>
    refine Core.stage_settled (Q := fun k v =>
      (∃ u, (k, v) ∈ (Function.update p.hold t ⟨ws, (p.hold t).batch⟩ u).batch) ∨
        Reaches p.core.store k v) (fun k v hkv => ?_) k v hkv
    exact (hold' k v (fun _ hx => hx) hkv).imp_right Or.inl
  | take b hh hb =>
    rcases hi.settled k v hkv with hd | hm | hm
    · by_cases hkb : ∃ w ∈ b, w.1 = k
      · obtain ⟨w, hw, rfl⟩ := hkb
        have hv : w.2 = v := Option.some.inj ((hb w hw).symm.trans hkv)
        exact Or.inr (Or.inl (exists_update_self (f := Hold.batch) (by rw [← hv]; exact hw)))
      · exact Or.inl ⟨hd, fun w hw hwk => hkb ⟨w, hw, hwk⟩⟩
    · exact Or.inr (Or.inl (exists_update_of_subset (f := Hold.batch) (by simp [hh]) hm))
    · exact Or.inr (Or.inr hm)
  | persist =>
    rcases hi.settled k v hkv with hd | hm | hm
    · exact Or.inl hd
    · rcases exists_update (f := Hold.batch) (t := t) (h := ⟨(p.hold t).buf, []⟩) hm with hm | hm
      · exact Or.inr (Or.inr (reaches_foldl_raise.mpr (Or.inr ⟨_, hm, rfl, le_rfl⟩)))
      · exact Or.inr (Or.inl hm)
    · exact Or.inr (Or.inr (reaches_foldl_raise.mpr (Or.inl hm)))
  | requeue =>
    obtain ⟨-, -, -, h4, -⟩ := foldl_stage_frame (p.hold t).batch p.core
    rw [h4]
    refine foldl_stage_settled (Q := fun k v =>
      (∃ u, (k, v) ∈ (Function.update p.hold t ⟨(p.hold t).buf, []⟩ u).batch) ∨
        Reaches p.core.store k v) (p.hold t).batch p.core (fun k v hkv => ?_) k v hkv
    rcases hi.settled k v hkv with hd | hm | hm
    · exact Or.inl hd
    · rcases exists_update (f := Hold.batch) (t := t) (h := ⟨(p.hold t).buf, []⟩) hm with hm | hm
      · exact Or.inr (Or.inr hm)
      · exact Or.inr (Or.inl (Or.inl hm))
    · exact Or.inr (Or.inl (Or.inr hm))

theorem Move.reaches_cached (hm : Move p p') {k : κ} {v : ν} (hw : Reaches p.core.cached k v) :
    Reaches p'.core.cached k v := by
  cases hm with
  | act t c h ha => exact ha.reaches_cached hw
  | truncate keep hk => exact hw

theorem Move.batchesCached (hm : Move p p') (hb : BatchesCached p) : BatchesCached p' := by
  intro u w hw
  cases hm with
  | truncate keep hk => exact hb u w hw
  | act t c h ha =>
    by_cases hu : u = t
    · subst hu
      simp only [Function.update_self] at hw
      rcases ha.batch with hsame | hnone | ⟨-, htaken⟩
      · rw [hsame] at hw
        exact ha.reaches_cached (hb u w hw)
      · rw [hnone] at hw
        cases hw
      · exact ha.reaches_cached ⟨w.2, htaken w hw, le_rfl⟩
    · simp only [Function.update_of_ne hu] at hw
      exact ha.reaches_cached (hb u w hw)

theorem Move.passed (hm : Move p p') {w : κ × ν} (hw : Passed p w) : Passed p' w := by
  cases hm with
  | act t c h ha => exact ha.passed hw
  | truncate keep hk => exact hw

/-- **Every move keeps the invariant.** -/
theorem Move.inv (hi : Inv p) (hm : Move p p') : Inv p' := by
  cases hm with
  | act t c h ha => exact ⟨ha.accounted hi, ha.settled hi⟩
  | truncate keep hk => exact ⟨hi.accounted, hi.settled⟩

end Moves

omit [DecidableEq κ] in
/-- **At rest, the store has everything**: with nothing queued, buffered, dirty or in a batch,
every accepted write has reached the store. -/
theorem Inv.stored_of_idle {p : Pipe T κ ν} (hi : Inv p) (hq : p.core.queue = [])
    (hh : ∀ t, (p.hold t).buf = [] ∧ (p.hold t).batch = []) (hd : p.core.dirty = ∅) :
    ∀ w ∈ p.core.accepted, Reaches p.core.store w.1 w.2 := by
  intro w hw
  rcases hi.accounted w hw with hm | ⟨t, hm⟩ | ⟨v, hv, hle⟩
  · simp [hq] at hm
  · simp [(hh t).1] at hm
  · rcases hi.settled w.1 v hv with hm | ⟨t, hm⟩ | ⟨u, hu, hvu⟩
    · simp [hd] at hm
    · simp [(hh t).2] at hm
    · exact ⟨u, hu, hle.trans hvu⟩

/-! ### Coverage -/

/-- The store or the log answers for the write. -/
def Covered (c : Core κ ν) (w : κ × ν) : Prop :=
  Reaches c.store w.1 w.2 ∨ ∃ r ∈ c.log, r.1 = w.1 ∧ w.2 ≤ r.2

/-- The write has reached the cache, its key is not dirty, and no unfinished batch has the key at the
version of the write or newer. -/
def Settled (p : Pipe T κ ν) (w : κ × ν) : Prop :=
  Reaches p.core.cached w.1 w.2 ∧ w.1 ∉ p.core.dirty ∧
    ∀ t, ∀ r ∈ (p.hold t).batch, r.1 = w.1 → ¬ w.2 ≤ r.2

/-- **A thread's act never ends coverage.** -/
theorem Act.covered {c c' : Core κ ν} {h h' : Hold κ ν} (ha : Act c h c' h') {w : κ × ν}
    (hw : Covered c w) : Covered c' w := by
  cases ha with
  | stay | accept | pop | take => exact hw
  | apply => exact hw
  | persist => exact hw.imp_left fun hr => reaches_foldl_raise.mpr (Or.inl hr)
  | requeue =>
    obtain ⟨-, -, -, h4, h5⟩ := foldl_stage_frame h.batch c
    unfold Covered
    rw [h4, h5]
    exact hw
  | append ws => exact hw.imp_right fun ⟨r, hr, he⟩ => ⟨r, Or.inl hr, he⟩

/-- **The store never goes back.** -/
theorem Act.reaches_store {c c' : Core κ ν} {h h' : Hold κ ν} (ha : Act c h c' h') {k : κ} {v : ν}
    (hw : Reaches c.store k v) : Reaches c'.store k v := by
  cases ha with
  | stay | accept | pop | take | apply | append => exact hw
  | persist => exact reaches_foldl_raise.mpr (Or.inl hw)
  | requeue =>
    obtain ⟨-, -, -, h4, -⟩ := foldl_stage_frame h.batch c
    rw [h4]
    exact hw

theorem Move.reaches_store [DecidableEq T] {p p' : Pipe T κ ν} (hm : Move p p') {k : κ} {v : ν}
    (hw : Reaches p.core.store k v) : Reaches p'.core.store k v := by
  cases hm with
  | act t c h ha => exact ha.reaches_store hw
  | truncate => exact hw

omit [DecidableEq κ] in
/-- **A settled write is in the store**, so the log is not needed for it. -/
theorem Inv.stored_of_settled {p : Pipe T κ ν} (hi : Inv p) {w : κ × ν} (hs : Settled p w) :
    Reaches p.core.store w.1 w.2 := by
  obtain ⟨⟨v, hv, hle⟩, hd, hb⟩ := hs
  rcases hi.settled w.1 v hv with hm | ⟨t, hm⟩ | ⟨u, hu, hvu⟩
  · exact absurd hm hd
  · exact absurd hle (hb t (w.1, v) hm rfl)
  · exact ⟨u, hu, hle.trans hvu⟩

end FluxThroughput.Lib.WriteBehind
