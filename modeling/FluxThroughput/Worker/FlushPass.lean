import FluxThroughput.Cache.Portions
import FluxThroughput.Engine.Machine

/-! # A flush pass of the worker

`pass` is one call of the worker's `flush`, an atomic call at a time, from its first `take_dirty` to its
end. In between, other threads may change everything but the cache. `Kept` is what every step keeps: the
players dirty at the start are still dirty, in a persisted batch, or in the batch at hand. From it,
`flush_splits` says what the pass has done when it ends, and that it ends. -/

namespace FluxThroughput.Worker.FlushPass

open FluxThroughput.Domain.Types FluxThroughput.Cache.WriteBehind FluxThroughput.Cache.History
open FluxThroughput.Cache.Portions FluxThroughput.Store.Mock FluxThroughput.Lsn.Authority
open FluxThroughput.Wal.Atomic FluxThroughput.Engine.Config FluxThroughput.Engine.Machine
open FluxThroughput.Lib.Transition

/-! ### The pass -/

/-- What a step does with a batch. -/
inductive Note
  | taken (states : List PlayerState)
  | persisted (states : List PlayerState)
  | putBack (states : List PlayerState)
  | other
  deriving DecidableEq

/-- The note of a step, from where it leads and the events it emits. -/
def note : Pc → Pc → List Event → Note
  | .takeDirty _, .allocBlock _ states, _ => .taken states
  | .persistBatch _ _ _ _, _, [.persisted states] => .persisted states
  | .requeue _ states, _, _ => .putBack states
  | _, _, _ => .other

/-- Where the worker goes on when the pass has ended. -/
def exit (k : FlushFor) : Pc := (flushEnd k).1

/-- The worker makes its next call, or other threads leave the shared state as `sh`. -/
inductive Move
  | own (env : Env)
  | others (sh : Shared)

def pass (cfg : ValidConfig) (k : FlushFor) (start : Shared) : System (Shared × Pc) Move Note where
  init s := s = (start, .takeDirty k)
  step s
    | .own env =>
      if s.2 = exit k then none
      else (s.2.step cfg env s.1).map fun x => ((x.1, x.2.1), [note s.2 x.2.1 x.2.2])
    | .others sh => some ((sh, s.2), [])

/-- Other threads leave the cache as it is. -/
def cacheKept : Guard (Shared × Pc) Move Note := fun s _ m =>
  match m with
  | .own _ => True
  | .others sh => sh.cache = s.1.cache

/-- The pass is the worker's, not a round of `flush_now`. -/
def ByWorker (k : FlushFor) : Prop := ∀ total, k ≠ .flushNow total

def taken (h : List Note) : List (List PlayerState) :=
  h.filterMap fun n => match n with
    | .taken b => some b
    | _ => none

def persisted (h : List Note) : List (List PlayerState) :=
  h.filterMap fun n => match n with
    | .persisted b => some b
    | _ => none

def putBack (h : List Note) : List (List PlayerState) :=
  h.filterMap fun n => match n with
    | .putBack b => some b
    | _ => none

/-- **A pass that took the cache from `before` to `after`** and may take `max` states at a time. -/
structure Splits (max : ℕ) (before after : WriteBehindCache) (h : List Note) : Prop where
  size : ∀ b ∈ taken h, b.length ≤ max
  disjoint : (taken h).Pairwise fun a b => List.Disjoint (playerIds a) (playerIds b)
  /-- the players dirty at the start were persisted or are dirty still, and not both -/
  split : ∀ id, id ∈ before.inner.dirty ↔
    id ∈ after.inner.dirty ∨ ∃ b ∈ persisted h, id ∈ playerIds b
  apart : ∀ b ∈ persisted h, ∀ id ∈ playerIds b, id ∉ after.inner.dirty
  /-- every batch was persisted, or the last one failed and was put back -/
  failed : taken h = persisted h ∧ putBack h = [] ∨ ∃ b, taken h = persisted h ++ [b] ∧ putBack h = [b]
  drained : putBack h = [] → after.inner.dirty = ∅
  states : ∀ id, after.get id = before.get id

/-! ### Steps -/

/-- The program counters of the pass. -/
def InPass (k : FlushFor) : Pc → Prop
  | .takeDirty k' => k' = k
  | .allocBlock k' _ => k' = k
  | .appendBatch k' _ _ => k' = k
  | .persistBatch k' _ _ _ => k' = k
  | .watermark k' _ _ => k' = k
  | .checkpoint k' _ _ => k' = k
  | .requeue k' _ => k' = k
  | pc => pc = exit k

/-- The batch at hand, if there is one. -/
def hand : Pc → List (List PlayerState)
  | .allocBlock _ states => [states]
  | .appendBatch _ states _ => [states]
  | .persistBatch _ states _ _ => [states]
  | .requeue _ states => [states]
  | _ => []

/-- How many calls the pass may still make. -/
def left (cfg : ValidConfig) (c : WriteBehindCache) : Pc → ℕ
  | .takeDirty _ => (c.dirtyLen + 1) * (cfg.storeRetryLimit + 6)
  | .allocBlock _ _ => (c.dirtyLen + 1) * (cfg.storeRetryLimit + 6) + cfg.storeRetryLimit + 5
  | .appendBatch _ _ _ => (c.dirtyLen + 1) * (cfg.storeRetryLimit + 6) + cfg.storeRetryLimit + 4
  | .persistBatch _ _ _ attempt =>
    (c.dirtyLen + 1) * (cfg.storeRetryLimit + 6) + (cfg.storeRetryLimit - attempt) + 3
  | .watermark _ _ _ => (c.dirtyLen + 1) * (cfg.storeRetryLimit + 6) + 2
  | .checkpoint _ _ _ => (c.dirtyLen + 1) * (cfg.storeRetryLimit + 6) + 1
  | .requeue _ _ => 1
  | _ => 0

/-- **What a step of the pass is.** -/
inductive Own (cfg : ValidConfig) (k : FlushFor) (c : WriteBehindCache) :
    Pc → WriteBehindCache → Pc → Note → Prop
  | take {order : List PlayerId} : Inner.Enumerates order c.inner.dirty →
      c.taken order cfg.flushMaxBatch ≠ [] →
        Own cfg k c (.takeDirty k) (c.takeDirty order cfg.flushMaxBatch)
          (.allocBlock k (c.taken order cfg.flushMaxBatch)) (.taken (c.taken order cfg.flushMaxBatch))
  | done {order : List PlayerId} : Inner.Enumerates order c.inner.dirty →
      c.taken order cfg.flushMaxBatch = [] →
        Own cfg k c (.takeDirty k) (c.takeDirty order cfg.flushMaxBatch) (exit k) .other
  | carry {pc pc' : Pc} : pc ≠ exit k → InPass k pc' → pc' ≠ exit k → hand pc' = hand pc →
      left cfg c pc' < left cfg c pc → Own cfg k c pc c pc' .other
  | persist {states : List PlayerState} {last : Lsn} {attempt : ℕ} :
      Own cfg k c (.persistBatch k states last attempt) c (.watermark k states.length last)
        (.persisted states)
  | putBack {states : List PlayerState} :
      Own cfg k c (.requeue k states) (c.requeueDirty states) (exit k) (.putBack states)

section Steps
variable {cfg : ValidConfig} {k : FlushFor} {sh sh' : Shared} {pc pc' : Pc} {env : Env} {es : List Event}

theorem batchOk_worker (hk : ByWorker k) (count : ℕ) : batchOk count k = .takeDirty k := by
  cases k with
  | flushNow total => exact absurd rfl (hk total)
  | _ => rfl

theorem batchFailed_worker (hk : ByWorker k) : (batchFailed k).1 = exit k := by
  cases k with
  | flushNow total => exact absurd rfl (hk total)
  | _ => rfl

theorem checkpointFailed_worker (hk : ByWorker k) (count : ℕ) :
    checkpointFailed count k = (.takeDirty k, []) := by
  cases k with
  | flushNow total => exact absurd rfl (hk total)
  | _ => rfl

theorem left_exit (cfg : ValidConfig) (c : WriteBehindCache) (k : FlushFor) :
    left cfg c (exit k) = 0 := by
  cases k <;> rfl

/-- A pass that may still make a call has not ended. -/
theorem ne_exit_of_left (cfg : ValidConfig) (c : WriteBehindCache) (hpos : 0 < left cfg c pc) :
    pc ≠ exit k := by
  rintro rfl
  rw [left_exit] at hpos
  exact lt_irrefl 0 hpos

theorem left_takeDirty (cfg : ValidConfig) (c : WriteBehindCache) (k : FlushFor) :
    0 < left cfg c (.takeDirty k) := Nat.mul_pos (Nat.succ_pos _) (Nat.succ_pos _)

/-- A call that goes on with the batch at hand, and uses up some of the calls left. -/
theorem Own.carry_of_left {c : WriteBehindCache} (hne : pc ≠ exit k) (hin : InPass k pc')
    (hhand : hand pc' = hand pc) (hpos : 0 < left cfg c pc') (hlt : left cfg c pc' < left cfg c pc) :
    Own cfg k c pc c pc' .other :=
  Own.carry hne hin (ne_exit_of_left cfg c hpos) hhand hlt

/-- **Every call of the pass is one of these.** -/
theorem own_step (hk : ByWorker k) (hp : InPass k pc) (hne : pc ≠ exit k)
    (hs : pc.step cfg env sh = some (sh', pc', es)) :
    Own cfg k sh.cache pc sh'.cache pc' (note pc pc' es) := by
  cases pc with
  | takeDirty k' =>
    obtain rfl := hp
    have hnote : note (.takeDirty k') (flushEnd k').1 (flushEnd k').2 = .other := by cases k' <;> rfl
    simp only [Pc.step] at hs
    split_ifs at hs with ho hnil <;> cases hs
    · rw [hnote]
      exact Own.done ho hnil
    · exact Own.take ho hnil
  | allocBlock k' states =>
    obtain rfl := hp
    cases hs
    exact Own.carry_of_left hne rfl rfl (Nat.succ_pos _) (by simp only [left]; omega)
  | appendBatch k' states records =>
    obtain rfl := hp
    simp only [Pc.step] at hs
    split at hs <;> cases hs
    · exact Own.carry_of_left hne rfl rfl (Nat.succ_pos _) (by simp only [left]; omega)
    · exact Own.carry_of_left hne rfl rfl (Nat.succ_pos _) (by simp only [left]; omega)
  | persistBatch k' states last attempt =>
    obtain rfl := hp
    simp only [Pc.step] at hs
    split at hs
    · cases hs
      exact Own.persist
    · split_ifs at hs with hlimit <;> cases hs
      · exact Own.carry_of_left hne rfl rfl (Nat.succ_pos _) (by simp only [left]; omega)
      · exact Own.carry_of_left hne rfl rfl (Nat.succ_pos _) (by simp only [left]; omega)
  | watermark k' count last =>
    obtain rfl := hp
    simp only [Pc.step] at hs
    split at hs <;> cases hs
    · exact Own.carry_of_left hne rfl rfl (Nat.succ_pos _) (by simp only [left]; omega)
    · rw [batchOk_worker hk]
      exact Own.carry_of_left hne rfl rfl (left_takeDirty cfg sh.cache k') (by simp only [left]; omega)
  | checkpoint k' count safe =>
    obtain rfl := hp
    simp only [Pc.step, checkpointFailed_worker hk, batchOk_worker hk] at hs
    split at hs <;> cases hs <;>
      exact Own.carry_of_left hne rfl rfl (left_takeDirty cfg sh.cache k') (by simp only [left]; omega)
  | requeue k' states =>
    obtain rfl := hp
    simp only [Pc.step] at hs
    cases hs
    rw [batchFailed_worker hk]
    exact Own.putBack
  | _ => exact absurd hp hne

/-- The pass is never stuck: whatever the log and the store answer, the next call can be made. -/
theorem exists_step (hp : InPass k pc) (hne : pc ≠ exit k)
    (ho : Inner.Enumerates env.order sh.cache.inner.dirty) : (pc.step cfg env sh).isSome = true := by
  cases pc with
  | takeDirty k' =>
    simp only [Pc.step, if_pos ho]
    split_ifs <;> rfl
  | allocBlock k' states => rfl
  | appendBatch k' states records =>
    simp only [Pc.step]
    split <;> rfl
  | persistBatch k' states last attempt =>
    simp only [Pc.step]
    split
    · rfl
    · split_ifs <;> rfl
  | watermark k' count last =>
    simp only [Pc.step]
    split <;> rfl
  | checkpoint k' count safe =>
    simp only [Pc.step]
    split <;> rfl
  | requeue k' states => rfl
  | _ => exact absurd hp hne

end Steps

/-! ### What a pass keeps -/

/-- **What every step of a pass keeps**, from the cache `before` on. -/
structure Kept (cfg : ValidConfig) (k : FlushFor) (before c : WriteBehindCache) (pc : Pc)
    (h : List Note) : Prop where
  stage : InPass k pc
  portioned : Portioned before c (persisted h ++ hand pc).flatten
  books : taken h = persisted h ++ hand pc ++ putBack h
  size : ∀ b ∈ taken h, b.length ≤ cfg.flushMaxBatch
  disjoint : (taken h).Pairwise fun a b => List.Disjoint (playerIds a) (playerIds b)
  running : pc ≠ exit k → putBack h = []
  ended : pc = exit k → (putBack h).length ≤ 1 ∧ (putBack h = [] → c.inner.dirty = ∅)
  cost : h.length + left cfg c pc ≤ (before.dirtyLen + 1) * (cfg.storeRetryLimit + 6)

section Kept
variable {cfg : ValidConfig} {k : FlushFor} {before c c' : WriteBehindCache} {pc pc' : Pc}
  {h : List Note} {n : Note}

theorem hand_exit (k : FlushFor) : hand (exit k) = [] := by
  cases k <;> rfl

theorem inPass_exit (k : FlushFor) : InPass k (exit k) := by
  cases k <;> rfl

theorem Kept.start (cfg : ValidConfig) (k : FlushFor) (c : WriteBehindCache) :
    Kept cfg k c c (.takeDirty k) [] where
  stage := rfl
  portioned := Portioned.refl _
  books := rfl
  size b hb := by cases hb
  disjoint := List.Pairwise.nil
  running _ := rfl
  ended hexit := by cases k <;> cases hexit
  cost := by simp [left]

theorem other_concat (h : List Note) : taken (h ++ [Note.other]) = taken h ∧
    persisted (h ++ [Note.other]) = persisted h ∧ putBack (h ++ [Note.other]) = putBack h := by
  simp [taken, persisted, putBack]

theorem take_concat (h : List Note) (b : List PlayerState) :
    taken (h ++ [Note.taken b]) = taken h ++ [b] ∧ persisted (h ++ [Note.taken b]) = persisted h ∧
      putBack (h ++ [Note.taken b]) = putBack h := by
  simp [taken, persisted, putBack]

theorem persist_concat (h : List Note) (b : List PlayerState) :
    taken (h ++ [Note.persisted b]) = taken h ∧ persisted (h ++ [Note.persisted b]) = persisted h ++ [b] ∧
      putBack (h ++ [Note.persisted b]) = putBack h := by
  simp [taken, persisted, putBack]

theorem putBack_concat (h : List Note) (b : List PlayerState) :
    taken (h ++ [Note.putBack b]) = taken h ∧ persisted (h ++ [Note.putBack b]) = persisted h ∧
      putBack (h ++ [Note.putBack b]) = putBack h ++ [b] := by
  simp [taken, persisted, putBack]

/-- Batches of different players. -/
theorem pairwise_of_once {batches : List (List PlayerState)} (h : (playerIds batches.flatten).Nodup) :
    batches.Pairwise fun a b => List.Disjoint (playerIds a) (playerIds b) := by
  unfold playerIds at h
  rw [List.map_flatten, List.nodup_flatten, List.pairwise_map] at h
  exact h.2

/-- A batch is taken. -/
theorem Kept.take (hk : Kept cfg k before c (.takeDirty k) h) {order : List PlayerId}
    (ho : Inner.Enumerates order c.inner.dirty) (hne : c.taken order cfg.flushMaxBatch ≠ []) :
    Kept cfg k before (c.takeDirty order cfg.flushMaxBatch)
      (.allocBlock k (c.taken order cfg.flushMaxBatch))
      (h ++ [Note.taken (c.taken order cfg.flushMaxBatch)]) := by
  have hback := hk.running (ne_exit_of_left cfg c (left_takeDirty cfg c k))
  have hexit : Pc.allocBlock k (c.taken order cfg.flushMaxBatch) ≠ exit k :=
    ne_exit_of_left cfg c (Nat.succ_pos _)
  have hhand : hand (.takeDirty k) = [] := rfl
  have hp := hk.portioned
  have hb := hk.books
  rw [hhand, List.append_nil] at hp hb
  rw [hback, List.append_nil] at hb
  have hp' := hp.take ho cfg.flushMaxBatch
  have hout : (persisted h ++ [c.taken order cfg.flushMaxBatch]).flatten =
      (persisted h).flatten ++ c.taken order cfg.flushMaxBatch := by simp
  rw [← hout] at hp'
  obtain ⟨htaken, hpers, hputs⟩ := take_concat h (c.taken order cfg.flushMaxBatch)
  refine ⟨rfl, by rw [hpers]; exact hp', ?_, fun b hmem => ?_, ?_, fun _ => hputs.trans hback,
    fun h => absurd h hexit, ?_⟩
  · rw [htaken, hpers, hputs, hback, hb, List.append_nil]
    rfl
  · rw [htaken] at hmem
    rcases List.mem_append.mp hmem with hmem | hmem
    · exact hk.size b hmem
    · rw [List.mem_singleton.mp hmem, (takes ho _).length]
      exact Nat.min_le_left _ _
  · rw [htaken, hb]
    exact pairwise_of_once hp'.once
  · have hlt := dirtyLen_takeDirty ho hne
    have hcost := hk.cost
    have hmul := Nat.mul_le_mul_right (cfg.storeRetryLimit + 6) hlt
    simp only [left, List.length_append, List.length_singleton, Nat.add_mul, Nat.one_mul,
      Nat.succ_eq_add_one] at hcost hmul ⊢
    omega

/-- Nothing was left to take. -/
theorem Kept.done (hk : Kept cfg k before c (.takeDirty k) h) {order : List PlayerId}
    (ho : Inner.Enumerates order c.inner.dirty) (hnil : c.taken order cfg.flushMaxBatch = []) :
    Kept cfg k before (c.takeDirty order cfg.flushMaxBatch) (exit k) (h ++ [Note.other]) := by
  have hback := hk.running (ne_exit_of_left cfg c (left_takeDirty cfg c k))
  have hhand : hand (.takeDirty k) = [] := rfl
  have hp := hk.portioned
  have hb := hk.books
  rw [hhand, List.append_nil] at hp hb
  have hp' := hp.take ho cfg.flushMaxBatch
  rw [hnil, List.append_nil] at hp'
  have hclean : (c.takeDirty order cfg.flushMaxBatch).inner.dirty = ∅ := by
    have hdirty := WriteBehindCache.dirty_eq_empty_of_taken ho cfg.flushMaxBatch_pos hnil
    rw [Finset.eq_empty_iff_forall_notMem]
    intro id hid
    have hwas := (((takes ho _).clean id).mp hid).1
    rw [hdirty] at hwas
    exact Finset.notMem_empty id hwas
  obtain ⟨htaken, hpers, hputs⟩ := other_concat h
  refine ⟨inPass_exit k, ?_, ?_, by rw [htaken]; exact hk.size, by rw [htaken]; exact hk.disjoint,
    fun h => absurd rfl h, fun _ => ⟨?_, fun _ => hclean⟩, ?_⟩
  · rw [hpers, hand_exit, List.append_nil]
    exact hp'
  · rw [htaken, hpers, hputs, hand_exit, List.append_nil]
    exact hb
  · rw [hputs, hback]
    exact Nat.zero_le 1
  · have hcost := hk.cost
    have hpos := left_takeDirty cfg c k
    rw [left_exit, List.length_append, List.length_singleton]
    omega

/-- **The worker's own step.** -/
theorem Kept.own (hk : Kept cfg k before c pc h) (hne : pc ≠ exit k) (hs : Own cfg k c pc c' pc' n) :
    Kept cfg k before c' pc' (h ++ [n]) := by
  have hback := hk.running hne
  have hp := hk.portioned
  have hb := hk.books
  have hcost := hk.cost
  cases hs with
  | take ho hne' => exact hk.take ho hne'
  | done ho hnil => exact hk.done ho hnil
  | carry _ hin hrun hhand hlt =>
    obtain ⟨htaken, hpers, hputs⟩ := other_concat h
    refine ⟨hin, ?_, ?_, by rw [htaken]; exact hk.size, by rw [htaken]; exact hk.disjoint,
      fun _ => hputs.trans hback, fun h => absurd h hrun, ?_⟩
    · rw [hpers, hhand]
      exact hp
    · rw [htaken, hpers, hputs, hhand]
      exact hb
    · rw [List.length_append, List.length_singleton]
      omega
  | @persist states last attempt =>
    obtain ⟨htaken, hpers, hputs⟩ := persist_concat h states
    have hexit : Pc.watermark k states.length last ≠ exit k :=
      ne_exit_of_left cfg c (Nat.succ_pos _)
    refine ⟨rfl, ?_, ?_, by rw [htaken]; exact hk.size, by rw [htaken]; exact hk.disjoint,
      fun _ => hputs.trans hback, fun h => absurd h hexit, ?_⟩
    · rw [hpers]
      simpa only [hand, List.append_nil] using hp
    · rw [htaken, hpers, hputs]
      simpa only [hand, List.append_nil] using hb
    · simp only [left, List.length_append, List.length_singleton] at hcost ⊢
      omega
  | @putBack states =>
    obtain ⟨htaken, hpers, hputs⟩ := putBack_concat h states
    rw [hback, List.nil_append] at hputs
    have hhand : hand (.requeue k states) = [states] := rfl
    rw [hhand, List.flatten_concat] at hp
    refine ⟨inPass_exit k, ?_, ?_, by rw [htaken]; exact hk.size, by rw [htaken]; exact hk.disjoint,
      fun h => absurd rfl h, fun _ => ⟨?_, fun h => ?_⟩, ?_⟩
    · rw [hpers, hand_exit, List.append_nil]
      exact hp.putBack
    · rw [htaken, hpers, hputs, hand_exit, hb, hback, List.append_nil, List.append_nil]
      rfl
    · rw [hputs]
      exact le_rfl
    · rw [hputs] at h
      cases h
    · have hone : left cfg c (.requeue k states) = 1 := rfl
      rw [left_exit, List.length_append, List.length_singleton]
      omega

theorem Kept.step (hw : ByWorker k) {s s' : Shared × Pc} {m : Move} {start : Shared} {e : List Note}
    (hk : Kept cfg k before s.1.cache s.2 h) (hok : cacheKept s h m)
    (hs : (pass cfg k start).step s m = some (s', e)) :
    Kept cfg k before s'.1.cache s'.2 (h ++ e) := by
  cases m with
  | own env =>
    simp only [pass] at hs
    split_ifs at hs with hexit
    obtain ⟨⟨sh', pc', es⟩, hstep, heq⟩ := Option.map_eq_some_iff.mp hs
    cases heq
    exact hk.own hexit (own_step hw hk.stage hexit hstep)
  | others sh =>
    cases hs
    have hcache : sh.cache = s.1.cache := hok
    rw [List.append_nil, hcache]
    exact hk

theorem run_kept (hw : ByWorker k) {start : Shared} {s : Shared × Pc}
    (hr : Run (pass cfg k start) cacheKept s h) : Kept cfg k start.cache s.1.cache s.2 h := by
  refine hr.invariant (I := fun s h => Kept cfg k start.cache s.1.cache s.2 h) ?_
    fun s h m s' e _ hk hok hs => hk.step hw hok hs
  rintro s rfl
  exact Kept.start cfg k start.cache

/-- What has been kept when the pass ends. -/
theorem Kept.splits (hk : Kept cfg k before c (exit k) h) : Splits cfg.flushMaxBatch before c h := by
  have hp := hk.portioned
  have hb := hk.books
  obtain ⟨hone, hdrained⟩ := hk.ended rfl
  rw [hand_exit, List.append_nil] at hp hb
  have hmem : ∀ id, id ∈ playerIds (persisted h).flatten ↔ ∃ b ∈ persisted h, id ∈ playerIds b := by
    intro id
    unfold playerIds
    rw [List.map_flatten, List.mem_flatten]
    simp only [List.mem_map, exists_exists_and_eq_and]
  refine ⟨hk.size, hk.disjoint, fun id => ?_, fun b hb id hid => ?_, ?_, hdrained, hp.get⟩
  · rw [hp.split id, hmem]
  · exact hp.apart id ((hmem id).mpr ⟨b, hb, hid⟩)
  · rcases hput : putBack h with _ | ⟨b, bs⟩
    · rw [hput, List.append_nil] at hb
      exact Or.inl ⟨hb, rfl⟩
    · have hnil : bs = [] := by
        rw [hput, List.length_cons] at hone
        exact List.length_eq_zero_iff.mp (by omega)
      rw [hput, hnil] at hb
      exact Or.inr ⟨b, hb, by rw [hnil]⟩

end Kept

/-! ### The result -/

/-- **A flush pass ends, and splits the dirty set.** Whatever the order of the index, the log and the
store answer, and whatever other threads do outside the cache: the pass makes a bounded number of calls
and is never stuck, and when it has ended every player that was dirty is in one persisted batch or dirty
still. -/
theorem flush_splits {cfg : ValidConfig} {k : FlushFor} (hk : ByWorker k) {start : Shared}
    {s : Shared × Pc} {h : List Note} (hr : Run (pass cfg k start) cacheKept s h) :
    h.length ≤ (start.cache.dirtyLen + 1) * (cfg.storeRetryLimit + 6) ∧
    (s.2 ≠ exit k → ∀ env, Inner.Enumerates env.order s.1.cache.inner.dirty →
      ((pass cfg k start).step s (.own env)).isSome = true) ∧
    (s.2 = exit k → Splits cfg.flushMaxBatch start.cache s.1.cache h) := by
  have hkept := run_kept hk hr
  refine ⟨?_, fun hne env ho => ?_, fun hexit => ?_⟩
  · have := hkept.cost
    omega
  · simp only [pass, if_neg hne, Option.isSome_map]
    exact exists_step hkept.stage hne ho
  · rw [hexit] at hkept
    exact hkept.splits

/-- Two dirty players. -/
def twoDirty : Shared :=
  { (start Log.empty fun _ => none).sh with
    cache := (WriteBehindCache.new.apply { playerId := 7, version := 1, blob := [1], seq := 0 }).apply
      { playerId := 8, version := 2, blob := [2], seq := 0 } }

/-- Batches of one: the first is persisted, the second meets a store that refuses it. -/
theorem flush_splits_refused : ∃ s h, Run (pass oneByOne .steady twoDirty) cacheKept s h ∧
    taken h = [[{ playerId := 7, version := 1, blob := [1] }],
      [{ playerId := 8, version := 2, blob := [2] }]] ∧
    s.1.cache.inner.dirty = {8} ∧ Splits 1 twoDirty.cache s.1.cache h := by
  obtain ⟨s, h, hr, hp⟩ := exists_run_of_exec (pass oneByOne .steady twoDirty) cacheKept
    (fun _ _ m => match m with | .own _ => true | .others _ => false)
    (fun s h m hm => by cases m with | own env => trivial | others sh => cases hm)
    (twoDirty, .takeDirty .steady)
    (List.replicate 6 (Move.own (Env.fine [7, 8])) ++ [Move.own (Env.fine [8]), .own (Env.fine []),
      .own (Env.fine []), .own { Env.fine [] with persist := some (.fatal "refused") },
      .own (Env.fine [])])
    (fun x => decide (x.1.2 = .top) && decide (taken x.2 =
      [[{ playerId := 7, version := 1, blob := [1] }], [{ playerId := 8, version := 2, blob := [2] }]]) &&
        decide (x.1.1.cache.inner.dirty = {8})) rfl (by decide +kernel)
  simp only [Bool.and_eq_true, decide_eq_true_eq] at hp
  obtain ⟨⟨hexit, htaken⟩, hdirty⟩ := hp
  exact ⟨s, h, hr, htaken, hdirty, (flush_splits (fun _ h => by cases h) hr).2.2 hexit⟩

end FluxThroughput.Worker.FlushPass
