import FluxThroughput.Engine.Barrier

/-! # How long a write may wait

Passes of the worker, counted. The worker drains the ring and flushes until nothing is dirty; a pass
counts when it ends so and no call of `flush_now` is in progress. Failed flushes, and passes that skip
the flush, do not count. A request that finds `i` requests in the ring is in the store when
`i / drain_max + 2` passes have been counted since (`stored_by_deadline`), whatever the submitters, the
log and the store do. -/

namespace FluxThroughput.Engine.Deadline

open FluxThroughput.Domain.Types FluxThroughput.Cache.WriteBehind FluxThroughput.Store.Mock
open FluxThroughput.Wal.Atomic FluxThroughput.Engine.Config FluxThroughput.Engine.Machine
open FluxThroughput.Engine.Refine FluxThroughput.Engine.NoLoss FluxThroughput.Engine.Events
open FluxThroughput.Engine.Barrier
open FluxThroughput.Lib.Transition FluxThroughput.Lib.WriteBehind

/-! ### Counting passes -/

/-- How many requests one drain of the worker may move. -/
def passMax (cfg : ValidConfig) : ℕ := drainMax cfg .steady

/-- The worker is where its pass ends, if nothing is dirty. -/
def atEnd : Pc → Bool
  | .decide _ => true
  | .takeDirty _ => true
  | .finalDirty _ _ _ => true
  | _ => false

/-- The worker finds nothing dirty where its pass ends. -/
def cleanEnd (s : FluxEngine) : Action → Bool
  | .run .worker _ => atEnd (s.pc .worker) && s.sh.cache.dirtyLen = 0
  | _ => false

/-- The clients that are in a call of `flush_now`, after a step. -/
def flushingAfter (flushing : Finset ℕ) (a : Action) (e : List (Tid × Event)) : Finset ℕ :=
  match a with
  | .call n .flushNow => insert n flushing
  | .run (.client n) _ =>
    if e.any fun x => x.2 matches .flushNowReturned _ then flushing.erase n else flushing
  | _ => flushing

/-- The engine, the clients in `flush_now`, the passes counted so far, and for each accepted request
the count by which it has to be stored. -/
structure Timed where
  engine : FluxEngine
  flushing : Finset ℕ
  passes : ℕ
  deadlines : List (WriteRequest × ℕ)

def Timed.step (cfg : ValidConfig) (w : Timed) (a : Action) : Option (Timed × List (Tid × Event)) :=
  (w.engine.step cfg a).map fun (engine, e) =>
    ({ engine := engine
       flushing := flushingAfter w.flushing a e
       passes := if cleanEnd w.engine a ∧ w.flushing = ∅ then w.passes + 1 else w.passes
       deadlines := w.deadlines ++ (enqueued e).map fun req =>
        (req, w.passes + w.engine.sh.ring.length / passMax cfg + 2) }, e)

def timed (cfg : ValidConfig) : System Timed Action (Tid × Event) where
  init w := (system cfg).init w.engine ∧ w.flushing = ∅ ∧ w.passes = 0 ∧ w.deadlines = []
  step := Timed.step cfg

/-! ### What a pass still pops -/

/-- How many requests the worker's pass still pops, if the ring has them. Past its drain it pops no
more; at the end of the pass the next one is counted. -/
def quota (cfg : ValidConfig) : Pc → ℕ
  | .drainPop k got => drainMax cfg k - got.length
  | .drainNote _ _ _ _ => 0
  | .drainApply _ _ _ _ => 0
  | .flushNowCheck _ => 0
  | .decide _ => 0
  | .finalRing _ _ => 0
  | .finalDirty _ _ _ => 0
  | .takeDirty _ => 0
  | .allocBlock _ _ => 0
  | .appendBatch _ _ _ => 0
  | .persistBatch _ _ _ _ => 0
  | .watermark _ _ _ => 0
  | .checkpoint _ _ _ => 0
  | .requeue _ _ => 0
  | _ => passMax cfg

section Pcs
variable {cfg : ValidConfig} {env : Env} {sh sh' : Shared} {pc pc' : Pc} {es : List Event}

theorem passMax_pos (cfg : ValidConfig) : 0 < passMax cfg := by
  have := cfg.flushMaxBatch_pos
  simp only [passMax, drainMax, saturatingMul, drainMultiple]
  omega

/-- A step enqueues at most one request. -/
theorem length_enqueuedBy_le (hs : pc.step cfg env sh = some (sh', pc', es)) :
    (enqueuedBy es).length ≤ 1 := by
  cases pc <;> simp only [Pc.step] at hs
  case checkpoint k count safe =>
    split at hs <;> cases hs <;> cases k <;> simp [enqueuedBy, checkpointFailed]
  case requeue k states =>
    cases hs
    cases k <;> simp [enqueuedBy, batchFailed]
  case takeDirty k =>
    split at hs
    · split at hs <;> cases hs <;> cases k <;> simp [enqueuedBy, flushEnd]
    · cases hs
  all_goals
    repeat' split at hs
    all_goals
      first
        | cases hs
          simp [enqueuedBy]
        | cases hs

/-- Outside its drain, a pass goes on as it was. -/
theorem quota_le (hpc : ∀ k got, pc ≠ .drainPop k got) (hs : pc.step cfg env sh = some (sh', pc', es)) :
    quota cfg pc ≤ quota cfg pc' := by
  cases pc with
  | drainPop k got => exact absurd rfl (hpc k got)
  | idle | exited => cases hs
  | submitAlloc | submitEnqueue | durableAlloc | durableNote | durableAppend | durableClear |
    durableEnqueue =>
    simp only [Pc.step] at hs
    repeat' split at hs
    all_goals
      simp only [Option.some.injEq, Prod.mk.injEq] at hs
      obtain ⟨-, rfl, -⟩ := hs
      exact le_rfl
  | top =>
    simp only [Pc.step] at hs
    split at hs <;> cases hs <;> exact le_rfl
  | finalAfter stalled drained dirtyBefore =>
    simp only [Pc.step] at hs
    repeat' split at hs
    all_goals
      cases hs
      exact le_rfl
  | _ => exact Nat.zero_le _

/-- **A step keeps what the pass still pops**, what has been popped included, unless the ring is
empty. -/
theorem quota_step (hs : pc.step cfg env sh = some (sh', pc', es)) :
    sh'.ring = [] ∨
      sh'.ring.length + quota cfg pc ≤ sh.ring.length + (enqueuedBy es).length + quota cfg pc' := by
  by_cases hpc : ∃ k got, pc = .drainPop k got
  · obtain ⟨k, got, rfl⟩ := hpc
    simp only [Pc.step] at hs
    split at hs
    · rcases hr : sh.ring with _ | ⟨req, ring⟩ <;>
        simp only [hr, Option.some.injEq, Prod.mk.injEq] at hs <;> obtain ⟨rfl, rfl, rfl⟩ := hs
      · exact Or.inl hr
      · right
        simp only [quota, List.length_append, List.length_cons, List.length_nil]
        omega
    · simp only [Option.some.injEq, Prod.mk.injEq] at hs
      obtain ⟨rfl, rfl, rfl⟩ := hs
      right
      simp only [quota]
      omega
  · have hle := quota_le (fun k got heq => hpc ⟨k, got, heq⟩) hs
    right
    rcases (ring_step hs).ring with hring | ⟨req, hring, -⟩
    · rw [hring, List.length_append]
      omega
    · rw [hring, List.length_cons]
      omega

/-- **The end of a pass**: the thread has nothing in hand, the ring stays, and the next drain begins. -/
theorem end_step (hpc : atEnd pc = true) (hclean : sh.cache.dirtyLen = 0)
    (hs : pc.step cfg env sh = some (sh', pc', es)) : hold pc = ⟨[], []⟩ ∧ quota cfg pc = 0 ∧
      quota cfg pc' = passMax cfg ∧ sh'.ring = sh.ring ∧ enqueuedBy es = [] := by
  have hempty : sh.cache.inner.dirty = ∅ := Finset.card_eq_zero.mp hclean
  cases pc with
  | decide drained =>
    simp only [Pc.step, hclean, lt_irrefl, false_and, if_false] at hs
    cases hs
    exact ⟨rfl, rfl, rfl, rfl, rfl⟩
  | finalDirty stalled drained ringEmpty =>
    simp only [Pc.step, hclean, lt_irrefl, if_false] at hs
    split at hs <;> cases hs <;> exact ⟨rfl, rfl, rfl, rfl, rfl⟩
  | takeDirty k =>
    simp only [Pc.step] at hs
    split at hs
    · rename_i ho
      have hnil : sh.cache.taken env.order cfg.flushMaxBatch = [] := by
        rw [List.eq_nil_iff_forall_not_mem]
        intro st hst
        have hmem := List.mem_of_mem_take ((WriteBehindCache.mem_taken ho).mp hst).1
        rw [← List.mem_toFinset, ho.2, hempty] at hmem
        exact Finset.notMem_empty _ hmem
      rw [if_pos hnil] at hs
      cases hs
      refine ⟨rfl, rfl, ?_, rfl, ?_⟩
      · cases k <;> rfl
      · cases k <;> rfl
    · cases hs
  | _ => cases hpc

end Pcs

/-! ### Runs -/

section Runs
variable {cfg : ValidConfig} {s s' : FluxEngine} {w w' : Timed} {a : Action} {h e : List (Tid × Event)}

theorem enqueued_entry (n : ℕ) (c : Call) : enqueued (tagged (.client n) c.entry.2) = [] := by
  cases c <;> rfl

/-- What a step of the engine does to the pass of the worker. -/
theorem pass_step (hs : s.step cfg a = some (s', e)) : s'.sh.ring = [] ∨
    s'.sh.ring.length + quota cfg (s.pc .worker) ≤
      s.sh.ring.length + (enqueued e).length + quota cfg (s'.pc .worker) := by
  rcases step_cases hs with ⟨n, c, -, -, rfl, rfl⟩ | ⟨t, env, sh, pc, es, -, hstep, rfl, rfl⟩ |
    ⟨-, rfl, rfl⟩
  · right
    have hne : Tid.worker ≠ .client n := fun heq => by cases heq
    simp only [Function.update_of_ne hne]
    omega
  · rw [enqueued_tagged]
    cases t with
    | worker =>
      simp only [Function.update_self]
      exact quota_step hstep
    | client n =>
      right
      have hne : Tid.worker ≠ .client n := fun heq => by cases heq
      simp only [Function.update_of_ne hne]
      rcases (ring_step hstep).ring with hring | ⟨req, hring, -⟩
      · rw [hring, List.length_append]
      · rw [hring, List.length_cons]
        omega
  · right
    simp

theorem length_enqueued_le (hs : s.step cfg a = some (s', e)) : (enqueued e).length ≤ 1 ∧
    s'.sh.ring.length ≤ s.sh.ring.length + (enqueued e).length := by
  rcases step_cases hs with ⟨n, c, -, -, rfl, rfl⟩ | ⟨t, env, sh, pc, es, -, hstep, rfl, rfl⟩ |
    ⟨-, rfl, rfl⟩
  · rw [enqueued_entry]
    exact ⟨Nat.zero_le _, le_rfl⟩
  · rw [enqueued_tagged]
    refine ⟨length_enqueuedBy_le hstep, ?_⟩
    dsimp only
    rcases (ring_step hstep).ring with hring | ⟨req, hring, -⟩
    · rw [hring, List.length_append]
    · rw [hring, List.length_cons]
      omega
  · exact ⟨Nat.zero_le _, le_rfl⟩

/-- A counted end of a pass. -/
theorem cleanEnd_step (hend : cleanEnd s a = true) (hs : s.step cfg a = some (s', e)) :
    s.sh.cache.inner.dirty = ∅ ∧ hold (s.pc .worker) = ⟨[], []⟩ ∧ quota cfg (s.pc .worker) = 0 ∧
      quota cfg (s'.pc .worker) = passMax cfg ∧ s'.sh.ring = s.sh.ring ∧ enqueued e = [] := by
  rcases step_cases hs with ⟨n, c, rfl, -⟩ | ⟨t, env, sh, pc, es, rfl, hstep, rfl, rfl⟩ | ⟨rfl, -⟩
  · cases hend
  · cases t with
    | worker =>
      simp only [cleanEnd, Bool.and_eq_true, decide_eq_true_eq] at hend
      obtain ⟨hpc, hclean⟩ := hend
      obtain ⟨hhold, hzero, hnext, hring, hnone⟩ := end_step hpc hclean hstep
      refine ⟨Finset.card_eq_zero.mp hclean, hhold, hzero, ?_, hring, ?_⟩
      · simpa only [Function.update_self] using hnext
      · rw [enqueued_tagged, hnone]
    | client n => cases hend
  · cases hend

/-- The clients outside `flush_now` are where the count says. -/
theorem clients_step {flushing : Finset ℕ}
    (hc : ∀ n, n ∉ flushing → isSubmitting (s.pc (.client n))) (hs : s.step cfg a = some (s', e)) :
    ∀ n, n ∉ flushingAfter flushing a e → isSubmitting (s'.pc (.client n)) := by
  intro n hn
  rcases step_cases hs with ⟨m, c, rfl, -, -, rfl⟩ | ⟨t, env, sh, pc, es, rfl, hstep, rfl, rfl⟩ |
    ⟨rfl, -, rfl⟩
  · by_cases hnm : n = m
    · subst hnm
      simp only [Function.update_self]
      cases c with
      | flushNow => exact absurd (Finset.mem_insert_self n flushing) hn
      | submit | submitDurable => trivial
    · have hne : Tid.client n ≠ .client m := fun heq => hnm (Tid.client.inj heq)
      simp only [Function.update_of_ne hne]
      refine hc n fun hmem => hn ?_
      cases c with
      | flushNow => exact Finset.mem_insert_of_mem hmem
      | submit | submitDurable => exact hmem
  · by_cases htn : Tid.client n = t
    · subst htn
      simp only [Function.update_self]
      simp only [flushingAfter] at hn
      split_ifs at hn with hret
      · obtain ⟨⟨u, ev⟩, hmem, hev⟩ := List.any_eq_true.mp hret
        obtain ⟨ev', hev', heq⟩ := List.mem_map.mp hmem
        cases heq
        cases ev with
        | flushNowReturned total => rw [idle_of_returned hstep hev']; trivial
        | _ => cases hev
      · exact isSubmitting_step (hc n hn) hstep
    · simp only [Function.update_of_ne htn]
      refine hc n fun hmem => hn ?_
      cases t with
      | worker => exact hmem
      | client m =>
        have hnm : n ≠ m := fun heq => htn (by rw [heq])
        simp only [flushingAfter]
        split_ifs
        · exact Finset.mem_erase.mpr ⟨hnm, hmem⟩
        · exact hmem
  · exact hc n hn

/-- Every run that is timed is a run of the engine. -/
theorem run_engine {ok : Guard Timed Action (Tid × Event)} (hr : Run (timed cfg) ok w h) :
    Run (system cfg) anyStep w.engine h := by
  induction hr with
  | init hinit => exact Run.init hinit.1
  | step _ _ hs ih =>
    obtain ⟨⟨engine, e⟩, hstep, heq⟩ := Option.map_eq_some_iff.mp hs
    cases heq
    exact ih.step trivial hstep

/-- Every run of the engine can be timed. -/
theorem exists_timed (hr : Run (system cfg) anyStep s h) :
    ∃ w, w.engine = s ∧ Run (timed cfg) anyStep w h := by
  induction hr with
  | @init s hinit => exact ⟨⟨s, ∅, 0, []⟩, rfl, Run.init ⟨hinit, rfl, rfl, rfl⟩⟩
  | @step s s' h e a _ _ hs ih =>
    obtain ⟨w, rfl, hw⟩ := ih
    have hstep : w.engine.step cfg a = some (s', e) := hs
    obtain ⟨w', heng, hworld⟩ : ∃ w', w'.engine = s' ∧ w.step cfg a = some (w', e) := by
      simp only [Timed.step, hstep, Option.map_some]
      exact ⟨_, rfl, rfl⟩
    exact ⟨w', heng, Run.step hw trivial hworld⟩

/-- **What every timed run keeps**: a request that is not stored still has passes left, and those pop
it. -/
structure Inv (cfg : ValidConfig) (w : Timed) (h : List (Tid × Event)) : Prop where
  clients : ∀ n, n ∉ w.flushing → isSubmitting (w.engine.pc (.client n))
  books : w.deadlines.map Prod.fst = enqueued h
  due : ∀ j req d, w.deadlines[j]? = some (req, d) →
    StoreHolds w.engine req.playerId req.version ∨
      (w.passes < d ∧ j + w.engine.sh.ring.length <
        (enqueued h).length + quota cfg (w.engine.pc .worker) + (d - (w.passes + 1)) * passMax cfg)

/-- **A request that has been popped when a counted pass ends is in the store.** -/
theorem Inv.stored_of_popped (hi : Inv cfg w h) (hr : Run (system cfg) anyStep w.engine h)
    (hend : cleanEnd w.engine a = true) (hs : w.engine.step cfg a = some (s', e))
    (hflush : w.flushing = ∅) {j : ℕ} {req : WriteRequest} {d : ℕ}
    (hj : w.deadlines[j]? = some (req, d))
    (hpopped : j + w.engine.sh.ring.length < (enqueued h).length) :
    StoreHolds w.engine req.playerId req.version := by
  obtain ⟨hdirty, hhold, -⟩ := cleanEnd_step hend hs
  have hbare : ∀ t, hold (w.engine.pc t) = ⟨[], []⟩ := by
    intro t
    cases t with
    | worker => exact hhold
    | client n =>
      refine hold_of_isSubmitting (hi.clients n ?_)
      rw [hflush]
      exact Finset.notMem_empty n
  obtain ⟨popped, hsplit, hpass⟩ := (run_queued hr).fifo
  have hreq : (enqueued h)[j]? = some req := by
    rw [← hi.books, List.getElem?_map, hj]
    rfl
  have hmem : req ∈ popped := by
    have hlen := congrArg List.length hsplit
    rw [List.length_append] at hlen
    rw [hsplit, List.getElem?_append_left (by omega)] at hreq
    exact List.mem_of_getElem? hreq
  have hcached : Reaches (pipe w.engine h).core.cached req.playerId req.version := by
    rcases hpass req hmem with ⟨t, hb⟩ | hc
    · have hbuf : ((pipe w.engine h).hold t).buf = [] := by
        change (hold (w.engine.pc t)).buf = []
        rw [hbare t]
      rw [hbuf] at hb
      cases hb
    · exact hc
  refine reaches_store.mp ((run_inv hr).stored_of_settled (w := (req.playerId, req.version))
    ⟨hcached, fun hmem => ?_, fun t r hr => ?_⟩)
  · have hd : req.playerId ∈ w.engine.sh.cache.inner.dirty := hmem
    rw [hdirty] at hd
    exact Finset.notMem_empty _ hd
  · have hbatch : ((pipe w.engine h).hold t).batch = [] := by
      change (hold (w.engine.pc t)).batch = []
      rw [hbare t]
    rw [hbatch] at hr
    cases hr

theorem Inv.step (hi : Inv cfg w h) (hr : Run (system cfg) anyStep w.engine h)
    (hs : w.step cfg a = some (w', e)) : Inv cfg w' (h ++ e) := by
  obtain ⟨⟨engine, e⟩, hstep, heq⟩ := Option.map_eq_some_iff.mp hs
  cases heq
  have hlen : w.deadlines.length = (enqueued h).length := by
    rw [← hi.books, List.length_map]
  obtain ⟨hone, hgrow⟩ := length_enqueued_le hstep
  refine ⟨clients_step hi.clients hstep, ?_, fun j req d hj => ?_⟩
  · rw [enqueued_append, List.map_append, hi.books, List.map_map]
    congr 1
    exact List.map_id _
  rw [enqueued_append, List.length_append]
  rcases Nat.lt_or_ge j w.deadlines.length with hold | hnew
  · rw [List.getElem?_append_left hold] at hj
    rcases hi.due j req d hj with hst | ⟨hleft, hwait⟩
    · exact Or.inl (storeHolds_step hstep hst)
    dsimp only
    split_ifs with hcount
    · -- the pass is counted, and what it has popped is stored
      obtain ⟨-, -, hzero, hnext, hring, hnone⟩ := cleanEnd_step hcount.1 hstep
      rcases Nat.lt_or_ge (j + w.engine.sh.ring.length) (enqueued h).length with hpopped | hqueued
      · exact Or.inl (storeHolds_step hstep
          (hi.stored_of_popped hr hcount.1 hstep hcount.2 hj hpopped))
      · right
        obtain ⟨m, hm⟩ : ∃ m, d - (w.passes + 1) = m + 1 := by
          refine ⟨d - (w.passes + 1) - 1, ?_⟩
          rcases Nat.eq_zero_or_pos (d - (w.passes + 1)) with h0 | hpos
          · rw [h0] at hwait
            omega
          · omega
        have hm' : d - (w.passes + 1 + 1) = m := by omega
        rw [hm, Nat.add_mul] at hwait
        rw [hm', hring, hnone, hnext, List.length_nil]
        omega
    · refine Or.inr ⟨hleft, ?_⟩
      rcases pass_step hstep with hempty | hle
      · rw [hempty, List.length_nil]
        omega
      · omega
  · rw [List.getElem?_append_right hnew, List.getElem?_map] at hj
    obtain ⟨req', hreq', heq⟩ := Option.map_eq_some_iff.mp hj
    cases heq
    have hlt := (List.getElem?_eq_some_iff.mp hreq').1
    have hnot : ¬ (cleanEnd w.engine a = true ∧ w.flushing = ∅) := by
      rintro ⟨hend, -⟩
      obtain ⟨-, -, -, -, -, hnone⟩ := cleanEnd_step hend hstep
      rw [hnone] at hlt
      exact absurd hlt (Nat.not_lt_zero _)
    right
    dsimp only
    rw [if_neg hnot]
    have hdiv := Nat.lt_div_mul_add (a := w.engine.sh.ring.length) (passMax_pos cfg)
    generalize w.engine.sh.ring.length / passMax cfg = laps at hdiv ⊢
    have hsub : w.passes + laps + 2 - (w.passes + 1) = laps + 1 := by omega
    refine ⟨by omega, ?_⟩
    rw [hsub, Nat.add_mul, Nat.one_mul]
    omega

theorem run_due (hr : Run (timed cfg) anyStep w h) : Inv cfg w h := by
  refine hr.invariant (I := fun w h => Inv cfg w h) ?_ ?_
  · rintro w ⟨⟨wal, table, hstart⟩, hflush, -, hnone⟩
    refine ⟨fun n _ => ?_, ?_, fun j req d hj => ?_⟩
    · rw [hstart]
      trivial
    · rw [hnone]
      rfl
    · rw [hnone] at hj
      cases hj
  · intro w h a w' e hr hi _ hs
    exact hi.step (run_engine hr) hs

end Runs

/-! ### The result -/

/-- **How long a write may wait**: in every run, a request that found `i` requests in the ring when it
was accepted is in the store, at its version or newer, when the worker has ended `i / drain_max + 2`
passes since with nothing dirty and no `flush_now` in progress. -/
theorem stored_by_deadline {cfg : ValidConfig} {w : Timed} {h : List (Tid × Event)}
    (hr : Run (timed cfg) anyStep w h) :
    w.deadlines.map Prod.fst = enqueued h ∧ ∀ x ∈ w.deadlines, x.2 ≤ w.passes →
      StoreHolds w.engine x.1.playerId x.1.version := by
  have hi := run_due hr
  refine ⟨hi.books, fun x hx hle => ?_⟩
  obtain ⟨j, hj⟩ := List.mem_iff_getElem?.mp hx
  rcases hi.due j x.1 x.2 hj with hst | ⟨hlt, -⟩
  · exact hst
  · omega

/-- Five writes of player 7, and three passes of the worker. A pass drains four requests at most, so the
last write, which finds four in the ring, is left to the second. -/
def threePasses : List Machine.Action :=
  List.flatten [(List.range 5).flatMap fun v => [.call 0 (.submit 7 (UInt64.ofNat (v + 1)) []),
      .run (.client 0) (.fine []), .run (.client 0) (.fine [])],
    List.replicate 21 (.run .worker (.fine [7])), [.run .worker (.fine [])],
    List.replicate 12 (.run .worker (.fine [7])), [.run .worker (.fine [])],
    List.replicate 3 (.run .worker (.fine []))]

theorem stored_by_deadline_next : ∃ w h, Run (timed oneByOne) anyStep w h ∧
    w.deadlines.map Prod.snd = [2, 2, 2, 2, 3] ∧ w.passes = 3 ∧
    StoreHolds w.engine 7 5 := by
  obtain ⟨w, h, hr, hp⟩ := exists_run_of_exec (timed oneByOne) anyStep (fun _ _ _ => true)
    (fun _ _ _ _ => trivial) ⟨start Log.empty fun _ => none, ∅, 0, []⟩ threePasses
    (fun x => decide (x.1.deadlines.map Prod.snd = [2, 2, 2, 2, 3] ∧ x.1.passes = 3 ∧
      (⟨7, 5, [], 5⟩, 3) ∈ x.1.deadlines))
    ⟨⟨_, _, rfl⟩, rfl, rfl, rfl⟩ (by decide +kernel)
  obtain ⟨hdead, hpasses, hlast⟩ := of_decide_eq_true hp
  dsimp only at hdead hpasses hlast
  exact ⟨w, h, hr, hdead, hpasses, (stored_by_deadline hr).2 _ hlast hpasses.ge⟩

end FluxThroughput.Engine.Deadline
