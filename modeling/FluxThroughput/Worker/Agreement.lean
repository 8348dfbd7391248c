import FluxThroughput.Worker.FinalDrain

/-! # The two flush implementations

`Worker::flush_batch` and `FluxEngine::flush_states` are written out twice in the source, each with its
own retry loop. Here each is a function of the state and of what the log and the store answer, and says
what it did: its verdict, the calls of `persist_batch` it made, the checkpoint it asked for, and the state
it left. They differ in their verdict on a checkpoint that fails (`flushes_agree`). `flushBatch` is the
function of the final drain (`flushBatch_finalDrain`), and `flushStates` is a run of a client's thread
(`flushStates_steps`). -/

namespace FluxThroughput.Worker.Agreement

open FluxThroughput.Domain.Types FluxThroughput.Cache.WriteBehind FluxThroughput.Store.Mock
open FluxThroughput.Lsn.Authority FluxThroughput.Wal.Atomic FluxThroughput.Engine.Config
open FluxThroughput.Engine.Machine
open FluxThroughput.Worker.FinalDrain (Oracle World)

/-! ### What a flush does -/

/-- What the log and the store answer during one flush: `persist n` is the answer to the attempt that
follows `n` others. -/
structure Answers where
  append : AppendOutcome
  persist : ℕ → Option StoreError
  checkpoint : CheckpointOutcome

inductive FluxError
  | io
  | store (e : StoreError)
  deriving DecidableEq, Repr

/-- What a flush did. -/
structure Flushed (α : Type) where
  verdict : α
  attempts : ℕ
  checkpoint : Option Lsn
  sh : Shared

/-- `wal.checkpoint`: whether it returned `Ok`, and the state after it. -/
def checkpointCall (outcome : CheckpointOutcome) (sh : Shared) (safe : Lsn) : Bool × Shared :=
  match outcome with
  | .ok => (true, { sh with wal := sh.wal.checkpoint safe })
  | .failedBefore => (false, sh)
  | .failedAfter => (false, { sh with wal := sh.wal.checkpointFailedAfter safe })

/-! ### The worker's -/

/-- `persist_with_retry`, after `attempt` attempts: whether the store took the batch, and how many
attempts were made. -/
def persistWithRetry (limit : ℕ) (persist : ℕ → Option StoreError) (attempt : ℕ) : Bool × ℕ :=
  match persist attempt with
  | none => (true, attempt + 1)
  | some e =>
    if e.isRetryable = false then (false, attempt + 1)
    else if limit ≤ attempt + 1 then (false, attempt + 1)
    else persistWithRetry limit persist (attempt + 1)
termination_by limit - attempt

/-- `Worker::flush_batch`. An error of the checkpoint is dropped. -/
def flushBatch (cfg : ValidConfig) (a : Answers) (sh : Shared) (states : List PlayerState) :
    Flushed Bool :=
  let (first, lsn) := sh.lsn.allocBlock (UInt64.ofNat states.length)
  let records := stamp first states
  let highest := (records.getLast?.map WalRecord.lsn).getD 0
  match a.append with
  | .failed landed torn =>
    { verdict := false
      attempts := 0
      checkpoint := none
      sh := { sh with
        lsn := lsn
        wal := sh.wal.appendFailed records landed torn
        cache := sh.cache.requeueDirty states } }
  | .ok =>
    let (confirmed, wal) := sh.wal.appendBatch records
    let sh := { sh with lsn := lsn, wal := wal }
    let proposed := if confirmed ≠ 0 then confirmed else highest
    match persistWithRetry cfg.storeRetryLimit a.persist 0 with
    | (true, attempts) =>
      let sh := { sh with table := upsert sh.table states }
      match sh.lsn.checkpointWatermark proposed with
      | some safe => ⟨true, attempts, some safe, (checkpointCall a.checkpoint sh safe).2⟩
      | none => ⟨true, attempts, none, sh⟩
    | (false, attempts) =>
      ⟨false, attempts, none, { sh with cache := sh.cache.requeueDirty states }⟩

/-! ### The engine's -/

/-- The checkpoint after the attempt that succeeds. Its error is returned. -/
def checkpointStates (a : Answers) (sh : Shared) (states : List PlayerState) (last : Lsn)
    (attempts : ℕ) : Flushed (Except FluxError ℕ) :=
  match sh.lsn.checkpointWatermark last with
  | some safe =>
    match checkpointCall a.checkpoint sh safe with
    | (true, sh) => ⟨.ok states.length, attempts, some safe, sh⟩
    | (false, sh) => ⟨.error .io, attempts, some safe, sh⟩
  | none => ⟨.ok states.length, attempts, none, sh⟩

/-- The loop of `flush_states`, after `attempt` attempts. -/
def flushStatesLoop (limit : ℕ) (a : Answers) (sh : Shared) (states : List PlayerState) (last : Lsn)
    (attempt : ℕ) : Flushed (Except FluxError ℕ) :=
  match a.persist attempt with
  | none => checkpointStates a { sh with table := upsert sh.table states } states last (attempt + 1)
  | some e =>
    if !e.isRetryable ∨ limit ≤ attempt + 1 then
      ⟨.error (.store e), attempt + 1, none, { sh with cache := sh.cache.requeueDirty states }⟩
    else flushStatesLoop limit a sh states last (attempt + 1)
termination_by limit - attempt

/-- `FluxEngine::flush_states`. -/
def flushStates (cfg : ValidConfig) (a : Answers) (sh : Shared) (states : List PlayerState) :
    Flushed (Except FluxError ℕ) :=
  let (first, lsn) := sh.lsn.allocBlock (UInt64.ofNat states.length)
  let records := stamp first states
  match a.append with
  | .failed landed torn =>
    { verdict := .error .io
      attempts := 0
      checkpoint := none
      sh := { sh with
        lsn := lsn
        wal := sh.wal.appendFailed records landed torn
        cache := sh.cache.requeueDirty states } }
  | .ok =>
    let (last, wal) := sh.wal.appendBatch records
    flushStatesLoop cfg.storeRetryLimit a { sh with lsn := lsn, wal := wal } states last 0

/-! ### Agreement -/

/-- The end of the worker's flush, once its retry loop has ended. -/
def finish (a : Answers) (sh : Shared) (states : List PlayerState) (proposed : Lsn) :
    Bool × ℕ → Flushed Bool
  | (true, attempts) =>
    let sh := { sh with table := upsert sh.table states }
    match sh.lsn.checkpointWatermark proposed with
    | some safe => ⟨true, attempts, some safe, (checkpointCall a.checkpoint sh safe).2⟩
    | none => ⟨true, attempts, none, sh⟩
  | (false, attempts) =>
    ⟨false, attempts, none, { sh with cache := sh.cache.requeueDirty states }⟩

/-- **Two flushes agree** but for the verdict on a failed checkpoint. -/
structure Agree (a : Answers) (sh : Shared) (states : List PlayerState) (w : Flushed Bool)
    (c : Flushed (Except FluxError ℕ)) : Prop where
  attempts : c.attempts = w.attempts
  checkpoint : c.checkpoint = w.checkpoint
  state : c.sh = w.sh
  ok : c.verdict = .ok states.length ↔
    w.verdict = true ∧ (w.checkpoint = none ∨ a.checkpoint = .ok)
  io : w.verdict = true → w.checkpoint ≠ none → a.checkpoint ≠ .ok → c.verdict = .error .io
  persisted : w.verdict = true → w.sh.table = upsert sh.table states ∧ w.sh.cache = sh.cache
  requeued : w.verdict = false →
    (∃ e, c.verdict = .error e) ∧ w.sh.cache = sh.cache.requeueDirty states

theorem checkpointCall_frame (outcome : CheckpointOutcome) (sh : Shared) (safe : Lsn) :
    ((checkpointCall outcome sh safe).1 = true ↔ outcome = .ok) ∧
      (checkpointCall outcome sh safe).2.table = sh.table ∧
      (checkpointCall outcome sh safe).2.cache = sh.cache := by
  cases outcome with
  | ok => exact ⟨⟨fun _ => rfl, fun _ => rfl⟩, rfl, rfl⟩
  | failedBefore => exact ⟨⟨fun h => (by cases h), fun h => (by cases h)⟩, rfl, rfl⟩
  | failedAfter => exact ⟨⟨fun h => (by cases h), fun h => (by cases h)⟩, rfl, rfl⟩

section Agree
variable (a : Answers) (sh : Shared) (states : List PlayerState) (last : Lsn)

/-- Both loops stop at an attempt that succeeds. -/
theorem agree_persisted {limit attempt : ℕ} (hp : a.persist attempt = none) :
    Agree a sh states (finish a sh states last (true, attempt + 1))
      (flushStatesLoop limit a sh states last attempt) := by
  rw [flushStatesLoop, hp]
  unfold finish checkpointStates
  rcases hw : sh.lsn.checkpointWatermark last with _ | safe
  · simp only [hw]
    exact ⟨rfl, rfl, rfl, ⟨fun _ => ⟨rfl, Or.inl rfl⟩, fun _ => rfl⟩, fun _ h => absurd rfl h,
      fun _ => ⟨rfl, rfl⟩, fun h => by cases h⟩
  · simp only [hw]
    generalize hsh : { sh with table := upsert sh.table states } = sh'
    obtain ⟨hok, htable, hcache⟩ := checkpointCall_frame a.checkpoint sh' safe
    rcases hc : checkpointCall a.checkpoint sh' safe with ⟨ok, sh''⟩
    rw [hc] at hok htable hcache
    have hpersisted : sh''.table = upsert sh.table states ∧ sh''.cache = sh.cache := by
      subst hsh
      exact ⟨htable, hcache⟩
    rcases ok with _ | _
    · have hne : a.checkpoint ≠ .ok := fun h => by cases hok.mpr h
      refine ⟨rfl, rfl, rfl, ⟨fun h => (by cases h), fun h => ?_⟩, fun _ _ _ => rfl,
        fun _ => hpersisted, fun h => by cases h⟩
      rcases h.2 with h | h
      · cases h
      · exact absurd h hne
    · have heq : a.checkpoint = .ok := hok.mp rfl
      exact ⟨rfl, rfl, rfl, ⟨fun _ => ⟨rfl, Or.inr heq⟩, fun _ => rfl⟩, fun _ _ h => absurd heq h,
        fun _ => hpersisted, fun h => by cases h⟩

/-- Both loops give up at the same attempt. -/
theorem agree_failed {limit attempt : ℕ} {e : StoreError} (hp : a.persist attempt = some e)
    (hstop : (!e.isRetryable) = true ∨ limit ≤ attempt + 1) :
    Agree a sh states (finish a sh states last (false, attempt + 1))
      (flushStatesLoop limit a sh states last attempt) := by
  rw [flushStatesLoop, hp]
  simp only [if_pos hstop]
  exact ⟨rfl, rfl, rfl, ⟨fun h => (by cases h), fun h => (by cases h.1)⟩, fun h => (by cases h),
    fun h => (by cases h), fun _ => ⟨⟨_, rfl⟩, rfl⟩⟩

/-- **The two retry loops agree**, from any number of attempts on. -/
theorem flushStatesLoop_agree (limit attempt : ℕ) :
    Agree a sh states (finish a sh states last (persistWithRetry limit a.persist attempt))
      (flushStatesLoop limit a sh states last attempt) := by
  induction attempt using persistWithRetry.induct limit a.persist with
  | case1 attempt hp =>
    rw [persistWithRetry, hp]
    exact agree_persisted a sh states last hp
  | case2 attempt e hp hr =>
    rw [persistWithRetry, hp]
    simp only [if_pos hr]
    exact agree_failed a sh states last hp (Or.inl (by rw [hr]; rfl))
  | case3 attempt e hp hr hl =>
    rw [persistWithRetry, hp]
    simp only [if_neg hr, if_pos hl]
    exact agree_failed a sh states last hp (Or.inr hl)
  | case4 attempt e hp hr hl ih =>
    have hgo : ¬ ((!e.isRetryable) = true ∨ limit ≤ attempt + 1) := by
      rintro (h | h)
      · exact hr (by simpa using h)
      · exact hl h
    rw [persistWithRetry, flushStatesLoop, hp]
    simp only [if_neg hr, if_neg hl, if_neg hgo]
    exact ih

end Agree

theorem lsn_le_highLsn : ∀ (records : List WalRecord) (last : Lsn),
    last ≤ Log.highLsn last records ∧ ∀ r ∈ records, r.lsn ≤ Log.highLsn last records
  | [], last => ⟨le_rfl, fun r hr => by cases hr⟩
  | r :: records, last => by
    obtain ⟨hlast, hmem⟩ := lsn_le_highLsn records (if last < r.lsn then r.lsn else last)
    have hmax : last ≤ (if last < r.lsn then r.lsn else last) ∧
        r.lsn ≤ (if last < r.lsn then r.lsn else last) := by
      split_ifs with h
      · exact ⟨h.le, le_rfl⟩
      · exact ⟨le_rfl, not_lt.mp h⟩
    refine ⟨hmax.1.trans hlast, fun x hx => ?_⟩
    rcases List.mem_cons.mp hx with rfl | hx
    · exact hmax.2.trans hlast
    · exact hmem x hx

/-- **The worker's fall-back never differs**: the log confirms `0` only if every stamp is `0`. -/
theorem proposed_eq (wal : Log) (records : List WalRecord) :
    (if (wal.appendBatch records).1 ≠ 0 then (wal.appendBatch records).1
      else (records.getLast?.map WalRecord.lsn).getD 0) = (wal.appendBatch records).1 := by
  split_ifs with h
  · rfl
  · have hzero : (wal.appendBatch records).1 = 0 := not_not.mp h
    rcases hlast : records.getLast? with _ | r
    · exact hzero.symm
    · have hmem := List.mem_of_getLast? hlast
      have hne : records ≠ [] := List.ne_nil_of_mem hmem
      have hle := (lsn_le_highLsn records wal.lastLsn).2 r hmem
      have hhigh : (wal.appendBatch records).1 = Log.highLsn wal.lastLsn records := by
        unfold Log.appendBatch
        rw [if_neg hne]
      rw [← hhigh, hzero] at hle
      rw [hzero]
      exact le_antisymm hle (UInt64.le_iff_toNat_le.mpr (Nat.zero_le _))

/-- **The two flushes agree** on the attempts, on the checkpoint call and on everything they leave; and on
the verdict, but that `flush_states` returns an error where a checkpoint call fails. -/
theorem flushes_agree (cfg : ValidConfig) (a : Answers) (sh : Shared) (states : List PlayerState) :
    Agree a sh states (flushBatch cfg a sh states) (flushStates cfg a sh states) := by
  rcases ha : a.append with _ | ⟨landed, torn⟩
  · rcases hal : sh.lsn.allocBlock (UInt64.ofNat states.length) with ⟨first, lsn⟩
    have hpair : sh.wal.appendBatch (stamp first states) =
        ((sh.wal.appendBatch (stamp first states)).1,
          (sh.wal.appendBatch (stamp first states)).2) := rfl
    have hbatch : flushBatch cfg a sh states = finish a
        { sh with lsn := lsn, wal := (sh.wal.appendBatch (stamp first states)).2 } states
        (sh.wal.appendBatch (stamp first states)).1
        (persistWithRetry cfg.storeRetryLimit a.persist 0) := by
      unfold flushBatch
      simp only [ha, hal, proposed_eq]
      rfl
    have hstates : flushStates cfg a sh states = flushStatesLoop cfg.storeRetryLimit a
        { sh with lsn := lsn, wal := (sh.wal.appendBatch (stamp first states)).2 } states
        (sh.wal.appendBatch (stamp first states)).1 0 := by
      unfold flushStates
      simp only [ha, hal]
    have h := flushStatesLoop_agree a
      { sh with lsn := lsn, wal := (sh.wal.appendBatch (stamp first states)).2 } states
      (sh.wal.appendBatch (stamp first states)).1 cfg.storeRetryLimit 0
    rw [hbatch, hstates]
    exact ⟨h.attempts, h.checkpoint, h.state, h.ok, h.io, h.persisted, h.requeued⟩
  · unfold flushBatch flushStates
    simp only [ha]
    exact ⟨rfl, rfl, rfl, ⟨fun h => (by cases h), fun h => (by cases h.1)⟩, fun h => (by cases h),
      fun h => (by cases h), fun _ => ⟨⟨_, rfl⟩, rfl⟩⟩

/-! ### The worker's function is that of the final drain -/

/-- The answers that the oracle gives to the next flush. -/
def answers (o : Oracle) (w : World) : Answers :=
  { append := o.append w.takes
    persist := fun n => o.persist (w.calls + n)
    checkpoint := o.checkpoint w.takes }

theorem persistWithRetry_eq (persist : ℕ → Option StoreError) (calls limit : ℕ) :
    ∀ budget attempt : ℕ, attempt + (budget + 1) = limit →
      FinalDrain.persistWithRetry persist (budget + 1) (calls + attempt) =
        ((persistWithRetry limit (fun n => persist (calls + n)) attempt).1,
          calls + (persistWithRetry limit (fun n => persist (calls + n)) attempt).2) := by
  intro budget
  induction budget with
  | zero =>
    intro attempt hlim
    rw [FinalDrain.persistWithRetry, persistWithRetry]
    rcases persist (calls + attempt) with _ | e
    · rfl
    · have hstop : limit ≤ attempt + 1 := by omega
      simp only [or_true, if_true, if_pos hstop]
      split_ifs <;> rfl
  | succ budget ih =>
    intro attempt hlim
    rw [FinalDrain.persistWithRetry, persistWithRetry]
    rcases persist (calls + attempt) with _ | e
    · rfl
    · have hgo : ¬ limit ≤ attempt + 1 := by omega
      have hbudget : ¬ budget + 1 = 0 := by omega
      have hnext := ih (attempt + 1) (by omega)
      rcases hr : e.isRetryable with _ | _
      · simp only [hr, Bool.not_false, true_or, if_true, Nat.add_assoc]
      · simp only [hr, Bool.not_true, Bool.false_eq_true, Bool.true_eq_false, false_or,
          if_neg hbudget, if_neg hgo, if_false]
        exact hnext

theorem flushBatch_finalDrain (cfg : ValidConfig) (o : Oracle) (w : World)
    (states : List PlayerState) : FinalDrain.flushBatch cfg o w states =
      ((flushBatch cfg (answers o w) w.sh states).verdict,
        { w with
          sh := (flushBatch cfg (answers o w) w.sh states).sh
          calls := w.calls + (flushBatch cfg (answers o w) w.sh states).attempts }) := by
  obtain ⟨budget, hbudget⟩ : ∃ budget, cfg.storeRetryLimit = budget + 1 :=
    ⟨cfg.storeRetryLimit - 1, by have := cfg.storeRetryLimit_pos; omega⟩
  have hretry := persistWithRetry_eq o.persist w.calls cfg.storeRetryLimit budget 0 (by omega)
  rw [← hbudget, Nat.add_zero] at hretry
  have hpersist : (answers o w).persist = fun n => o.persist (w.calls + n) := rfl
  have happend : (answers o w).append = o.append w.takes := rfl
  have hcheckpoint : (answers o w).checkpoint = o.checkpoint w.takes := rfl
  unfold FinalDrain.flushBatch flushBatch
  rw [hpersist, happend, hcheckpoint]
  rcases o.append w.takes with _ | ⟨landed, torn⟩
  · simp only [hretry]
    rcases persistWithRetry cfg.storeRetryLimit (fun n => o.persist (w.calls + n)) 0 with ⟨_ | _, n⟩
    · rfl
    · simp only [FinalDrain.checkpointed, proposal]
      generalize LsnState.checkpointWatermark _ _ = watermark
      rcases watermark with _ | safe
      · rfl
      · rcases o.checkpoint w.takes with _ | _ | _ <;> rfl
  · rfl

/-! ### The engine's function is a run of its thread -/

/-- Steps of one thread in a row, whatever the log and the store answer. -/
inductive Steps (cfg : ValidConfig) : Shared → Pc → Shared → Pc → Prop
  | refl (sh : Shared) (pc : Pc) : Steps cfg sh pc sh pc
  | head {sh sh1 sh2 : Shared} {pc pc1 pc2 : Pc} (env : Env) (es : List Event) :
      pc.step cfg env sh = some (sh1, pc1, es) → Steps cfg sh1 pc1 sh2 pc2 → Steps cfg sh pc sh2 pc2

/-- Where `flush_now` continues after a batch. -/
def afterBatch (total : ℕ) : Except FluxError ℕ → Pc
  | .ok n => .flushNowCheck (total + n)
  | .error _ => .idle

/-- The environment of a step that gives these answers, at some attempt. -/
def Answers.env (a : Answers) (attempt : ℕ) : Env :=
  { order := [], append := a.append, persist := a.persist attempt, checkpoint := a.checkpoint,
    timeReady := true }

/-- The checkpoint after a persisted batch. -/
theorem checkpointStates_steps (cfg : ValidConfig) (a : Answers) (states : List PlayerState)
    (last : Lsn) (total : ℕ) (sh : Shared) (attempts : ℕ) :
    Steps cfg sh (.watermark (.flushNow total) states.length last)
      (checkpointStates a sh states last attempts).sh
      (afterBatch total (checkpointStates a sh states last attempts).verdict) := by
  unfold checkpointStates
  rcases hw : sh.lsn.checkpointWatermark last with _ | safe
  · have hstep : (Pc.watermark (.flushNow total) states.length last).step cfg (a.env 0) sh =
        some (sh, .flushNowCheck (total + states.length), []) := by
      simp only [Pc.step, hw]
      rfl
    exact Steps.head _ _ hstep (Steps.refl _ _)
  · have hstep : (Pc.watermark (.flushNow total) states.length last).step cfg (a.env 0) sh =
        some (sh, .checkpoint (.flushNow total) states.length safe, []) := by
      simp only [Pc.step, hw]
    refine Steps.head _ _ hstep ?_
    have henv : (a.env 0).checkpoint = a.checkpoint := rfl
    rcases hc : a.checkpoint with _ | _ | _
    · exact Steps.head (a.env 0) [] (by simp only [Pc.step, henv, hc]; rfl) (Steps.refl _ _)
    · exact Steps.head (a.env 0) [.flushNowReturned none] (by simp only [Pc.step, henv, hc]; rfl)
        (Steps.refl _ _)
    · exact Steps.head (a.env 0) [.flushNowReturned none] (by simp only [Pc.step, henv, hc]; rfl)
        (Steps.refl _ _)

/-- The batch is put back. -/
theorem failed_steps (cfg : ValidConfig) (a : Answers) (states : List PlayerState) (last : Lsn)
    (total : ℕ) (sh : Shared) {attempt : ℕ} {e : StoreError} (hp : a.persist attempt = some e)
    (hstop : (!e.isRetryable) = true ∨ cfg.storeRetryLimit ≤ attempt + 1) :
    Steps cfg sh (.persistBatch (.flushNow total) states last attempt)
      (flushStatesLoop cfg.storeRetryLimit a sh states last attempt).sh
      (afterBatch total (flushStatesLoop cfg.storeRetryLimit a sh states last attempt).verdict) := by
  have hstep : (Pc.persistBatch (.flushNow total) states last attempt).step cfg (a.env attempt) sh =
      some (sh, .requeue (.flushNow total) states, []) := by
    have henv : (a.env attempt).persist = some e := hp
    simp only [Pc.step, henv, if_pos hstop]
  rw [flushStatesLoop, hp]
  simp only [if_pos hstop]
  exact Steps.head _ _ hstep (Steps.head (a.env attempt) [.flushNowReturned none] rfl (Steps.refl _ _))

theorem flushStatesLoop_steps (cfg : ValidConfig) (a : Answers) (states : List PlayerState)
    (last : Lsn) (total : ℕ) (sh : Shared) (attempt : ℕ) :
    Steps cfg sh (.persistBatch (.flushNow total) states last attempt)
      (flushStatesLoop cfg.storeRetryLimit a sh states last attempt).sh
      (afterBatch total (flushStatesLoop cfg.storeRetryLimit a sh states last attempt).verdict) := by
  induction attempt using persistWithRetry.induct cfg.storeRetryLimit a.persist with
  | case1 attempt hp =>
    have hstep : (Pc.persistBatch (.flushNow total) states last attempt).step cfg (a.env attempt) sh =
        some ({ sh with table := upsert sh.table states }, .watermark (.flushNow total) states.length
          last, [.persisted states]) := by
      have henv : (a.env attempt).persist = none := hp
      simp only [Pc.step, henv]
    refine Steps.head _ _ hstep ?_
    rw [flushStatesLoop, hp]
    exact checkpointStates_steps cfg a states last total _ (attempt + 1)
  | case2 attempt e hp hr =>
    exact failed_steps cfg a states last total sh hp (Or.inl (by rw [hr]; rfl))
  | case3 attempt e hp hr hl =>
    exact failed_steps cfg a states last total sh hp (Or.inr hl)
  | case4 attempt e hp hr hl ih =>
    have hgo : ¬ ((!e.isRetryable) = true ∨ cfg.storeRetryLimit ≤ attempt + 1) := by
      rintro (h | h)
      · exact hr (by simpa using h)
      · exact hl h
    have hstep : (Pc.persistBatch (.flushNow total) states last attempt).step cfg (a.env attempt) sh =
        some (sh, .persistBatch (.flushNow total) states last (attempt + 1), []) := by
      have henv : (a.env attempt).persist = some e := hp
      simp only [Pc.step, henv, if_neg hgo]
    refine Steps.head _ _ hstep ?_
    rw [flushStatesLoop, hp]
    simp only [if_neg hgo]
    exact ih

/-- **`flush_states` is a run of the thread that calls `flush_now`**, from its block of LSNs to the next
check or to its return. -/
theorem flushStates_steps (cfg : ValidConfig) (a : Answers) (sh : Shared) (states : List PlayerState)
    (total : ℕ) : Steps cfg sh (.allocBlock (.flushNow total) states) (flushStates cfg a sh states).sh
      (afterBatch total (flushStates cfg a sh states).verdict) := by
  have henv : (a.env 0).append = a.append := rfl
  unfold flushStates
  rcases hal : sh.lsn.allocBlock (UInt64.ofNat states.length) with ⟨first, lsn⟩
  have halloc : (Pc.allocBlock (.flushNow total) states).step cfg (a.env 0) sh =
      some ({ sh with lsn := lsn }, .appendBatch (.flushNow total) states (stamp first states), []) := by
    simp only [Pc.step, hal]
  refine Steps.head _ _ halloc ?_
  rcases ha : a.append with _ | ⟨landed, torn⟩ <;> simp only
  · have hstep : (Pc.appendBatch (.flushNow total) states (stamp first states)).step cfg (a.env 0)
        { sh with lsn := lsn } =
        some ({ sh with lsn := lsn, wal := (sh.wal.appendBatch (stamp first states)).2 },
          .persistBatch (.flushNow total) states (sh.wal.appendBatch (stamp first states)).1 0,
          [.logged (stamp first states)]) := by
      simp only [Pc.step, henv, ha]
      rfl
    exact Steps.head _ _ hstep (flushStatesLoop_steps cfg a states _ total _ 0)
  · have hstep : (Pc.appendBatch (.flushNow total) states (stamp first states)).step cfg (a.env 0)
        { sh with lsn := lsn } =
        some ({ sh with lsn := lsn, wal := sh.wal.appendFailed (stamp first states) landed torn },
          .requeue (.flushNow total) states, []) := by
      simp only [Pc.step, henv, ha]
    exact Steps.head _ _ hstep
      (Steps.head (a.env 0) [.flushNowReturned none] rfl (Steps.refl _ _))

/-! ### A checkpoint that fails -/

/-- The log and the store accept a batch, and the checkpoint after it fails. -/
def noCheckpoint : Answers :=
  { append := .ok, persist := fun _ => none, checkpoint := .failedBefore }

/-- Player 7 has been taken. -/
def takenCache : WriteBehindCache :=
  (WriteBehindCache.new.apply { playerId := 7, version := 1, blob := [1], seq := 1 }).takeDirty [7] 1

def takenShared : Shared := { (start Log.empty fun _ => none).sh with cache := takenCache }

def takenBatch : List PlayerState := [{ playerId := 7, version := 1, blob := [1] }]

/-- **The verdicts differ**: the worker reports the batch as flushed, `flush_states` an error, and the batch
is not put back. -/
theorem verdicts_differ : (flushBatch oneByOne noCheckpoint takenShared takenBatch).verdict = true ∧
    (flushStates oneByOne noCheckpoint takenShared takenBatch).verdict = .error .io ∧
    (flushStates oneByOne noCheckpoint takenShared takenBatch).sh.cache.dirtyLen = 0 := by
  have hretry : persistWithRetry oneByOne.storeRetryLimit noCheckpoint.persist 0 = (true, 1) := by
    rw [persistWithRetry]
    rfl
  have hloop : ∀ sh last, sh.lsn.checkpointWatermark last = some last →
      flushStatesLoop oneByOne.storeRetryLimit noCheckpoint sh takenBatch last 0 =
        ⟨.error .io, 1, some last, { sh with table := upsert sh.table takenBatch }⟩ := by
    intro sh last hw
    rw [flushStatesLoop]
    simp only [noCheckpoint, checkpointStates, hw, checkpointCall]
  have hempty : ∀ lsn : LsnState, lsn.pending = ∅ → ∀ last, lsn.checkpointWatermark last = some last := by
    intro lsn hp last
    unfold LsnState.checkpointWatermark
    rw [hp]
    rfl
  obtain ⟨sh, last, hp, hcache, hstates⟩ : ∃ sh last, sh.lsn.pending = ∅ ∧ sh.cache = takenCache ∧
      flushStates oneByOne noCheckpoint takenShared takenBatch =
        flushStatesLoop oneByOne.storeRetryLimit noCheckpoint sh takenBatch last 0 :=
    ⟨_, _, rfl, rfl, rfl⟩
  refine ⟨?_, ?_, ?_⟩
  · unfold flushBatch
    simp only [hretry]
    rfl
  · rw [hstates, hloop sh last (hempty _ hp last)]
  · rw [hstates, hloop sh last (hempty _ hp last), hcache]
    decide

end FluxThroughput.Worker.Agreement
