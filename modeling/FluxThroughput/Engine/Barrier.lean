import FluxThroughput.Engine.Checkpoint

/-! # `flush_now` as a barrier

What was enqueued and is no longer in the ring has been popped, in order: it is in some thread's drain
buffer, or absorbed by the cache. The first drain of `flush_now` ends with the ring empty, so from then on
everything enqueued before the call has been popped (`marks`). When `flush_now` returns `Ok` nothing is
dirty. What is left is what other threads have in hand: requests they have drained and not applied, and
batches they have taken and neither persisted nor put back. `flush_now` does not wait for these
(`flush_now_barrier_iff`). -/

namespace FluxThroughput.Engine.Barrier

open FluxThroughput.Domain.Types FluxThroughput.Cache.WriteBehind FluxThroughput.Store.Mock
open FluxThroughput.Wal.Atomic FluxThroughput.Engine.Config FluxThroughput.Engine.Machine
open FluxThroughput.Engine.Refine FluxThroughput.Engine.NoLoss FluxThroughput.Engine.Checkpoint
open FluxThroughput.Lib.Transition FluxThroughput.Lib.WriteBehind

/-! ### The barrier -/

/-- The store or the log holds the player of the request, at its version or newer. -/
def Durable (s : FluxEngine) (req : WriteRequest) : Prop :=
  StoreHolds s req.playerId req.version ∨ WalHolds s req.playerId req.version

/-- `submit` had returned `Enqueued` when client `n` called `flush_now`. -/
def SubmittedBefore (n : ℕ) (h : List (Tid × Event)) (req : WriteRequest) : Prop :=
  ∃ t pre post, h = pre ++ (.client n, .flushNowCalled) :: post ∧ (t, .submitReturned req true) ∈ pre

/-- Another thread has the write in hand, or a newer one of its player: drained and not applied, or taken
and neither persisted nor put back. -/
def InOtherHands (n : ℕ) (s : FluxEngine) (req : WriteRequest) : Prop :=
  ∃ t, t ≠ .client n ∧
    ((∃ r ∈ buffer (s.pc t), r.playerId = req.playerId ∧ req.version ≤ r.version) ∨
      ∃ st ∈ batch (s.pc t), st.playerId = req.playerId ∧ req.version ≤ st.version)

/-- The requests enqueued, in order. -/
def enqueued (h : List (Tid × Event)) : List WriteRequest :=
  h.filterMap fun
    | (_, .enqueued req) => some req
    | _ => none

def enqueuedBy (es : List Event) : List WriteRequest :=
  es.filterMap fun
    | .enqueued req => some req
    | _ => none

theorem enqueued_append (h e : List (Tid × Event)) : enqueued (h ++ e) = enqueued h ++ enqueued e :=
  List.filterMap_append

theorem enqueued_tagged (t : Tid) (es : List Event) : enqueued (tagged t es) = enqueuedBy es := by
  unfold enqueued tagged enqueuedBy
  rw [List.filterMap_map]
  congr 1
  funext ev
  cases ev <;> rfl

/-! ### What steps do to the ring -/

/-- The first drain of this call of `flush_now` has seen the ring empty. -/
def drained (cfg : ValidConfig) : Pc → Bool
  | .drainPop (.flushNow _ inLoop) _ => inLoop
  | .drainNote (.flushNow _ inLoop) moved _ _ => inLoop || decide (moved < cfg.flushMaxBatch)
  | .drainApply (.flushNow _ inLoop) moved _ _ => inLoop || decide (moved < cfg.flushMaxBatch)
  | .flushNowCheck _ => true
  | .takeDirty (.flushNow _) => true
  | .allocBlock (.flushNow _) _ => true
  | .appendBatch (.flushNow _) _ _ => true
  | .persistBatch (.flushNow _) _ _ _ => true
  | .watermark (.flushNow _) _ _ => true
  | .checkpoint (.flushNow _) _ _ => true
  | .requeue (.flushNow _) _ => true
  | _ => false

/-- The event says something about the ring or about `flush_now`. -/
def isSignal : Event → Bool
  | .enqueued _ => true
  | .submitReturned _ enqueued => enqueued
  | .flushNowCalled => true
  | .flushNowReturned total => total.isSome
  | _ => false

/-- Nothing is dirty, the thread has nothing in hand, and the step leaves the log and the store. -/
structure Clear (sh : Shared) (pc : Pc) (sh' : Shared) : Prop where
  dirty : sh.cache.inner.dirty = ∅
  buffer : buffer pc = []
  batch : batch pc = []
  table : sh'.table = sh.table
  wal : sh'.wal = sh.wal

/-- **What a step does to the ring**, and what its events say. -/
structure RingStep (cfg : ValidConfig) (sh : Shared) (pc : Pc) (sh' : Shared) (pc' : Pc)
    (es : List Event) : Prop where
  ring : sh'.ring = sh.ring ++ enqueuedBy es ∨
    ∃ req, sh.ring = req :: sh'.ring ∧ enqueuedBy es = [] ∧ req ∈ buffer pc'
  seen : drained cfg pc' = true → drained cfg pc = true ∨ sh'.ring = []
  submitted : ∀ pre post req, es = pre ++ .submitReturned req true :: post → req ∈ enqueuedBy pre
  called : .flushNowCalled ∉ es
  returned : ∀ total, .flushNowReturned (some total) ∈ es → drained cfg pc = true ∧ Clear sh pc sh'

section RingStep
variable {cfg : ValidConfig} {env : Env} {sh sh' : Shared} {pc pc' : Pc} {es : List Event}

theorem enqueuedBy_of_not_signal (he : ∀ ev ∈ es, isSignal ev = false) : enqueuedBy es = [] := by
  refine List.filterMap_eq_nil_iff.mpr fun ev hev => ?_
  have hno := he ev hev
  cases ev with
  | enqueued => cases hno
  | _ => rfl

/-- A step that leaves the ring, and says nothing. -/
theorem RingStep.stay (hr : sh'.ring = sh.ring) (he : ∀ ev ∈ es, isSignal ev = false)
    (hd : drained cfg pc' = true → drained cfg pc = true ∨ sh'.ring = []) :
    RingStep cfg sh pc sh' pc' es where
  ring := Or.inl (by rw [hr, enqueuedBy_of_not_signal he, List.append_nil])
  seen := hd
  submitted pre post req heq := by
    have hmem : Event.submitReturned req true ∈ es := by
      rw [heq]
      exact List.mem_append_right _ List.mem_cons_self
    cases he _ hmem
  called hmem := by cases he _ hmem
  returned total hmem := by cases he _ hmem

/-- The enqueue at the end of `submit` and of `submit_durable`. -/
theorem RingStep.enqueue {req : WriteRequest} (hq : sh.tryEnqueue cfg req = some sh') {ev : Event}
    (hev : ev = .submitReturned req true ∨ isSignal ev = false) :
    RingStep cfg sh pc sh' .idle [.enqueued req, ev] := by
  unfold Shared.tryEnqueue at hq
  split_ifs at hq
  obtain rfl := Option.some.inj hq
  have hby : enqueuedBy [.enqueued req, ev] = [req] := by
    rcases hev with rfl | hev
    · rfl
    · have hrest : enqueuedBy [ev] = [] := enqueuedBy_of_not_signal (by simpa using hev)
      show req :: enqueuedBy [ev] = [req]
      rw [hrest]
  have hsignal : ∀ ev' ∈ [.enqueued req, ev], isSignal ev' = true →
      ev' = .enqueued req ∨ ev' = .submitReturned req true := by
    intro ev' hmem htrue
    rcases List.mem_cons.mp hmem with rfl | hmem
    · exact Or.inl rfl
    · obtain rfl := List.mem_singleton.mp hmem
      rcases hev with rfl | hev
      · exact Or.inr rfl
      · rw [hev] at htrue
        cases htrue
  refine ⟨Or.inl (by rw [hby]), fun hd => (by cases hd), fun pre post req' heq => ?_, fun hmem => ?_,
    fun total hmem => ?_⟩
  · have hmem : Event.submitReturned req' true ∈ [.enqueued req, ev] := by
      rw [heq]
      exact List.mem_append_right _ List.mem_cons_self
    rcases hsignal _ hmem rfl with h | h
    · cases h
    · obtain ⟨rfl, -⟩ := Event.submitReturned.inj h
      rcases pre with _ | ⟨ev', pre⟩
      · cases (List.cons.inj heq).1
      · obtain ⟨rfl, -⟩ := List.cons.inj heq
        exact List.mem_cons_self
  · rcases hsignal _ hmem rfl with h | h <;> cases h
  · rcases hsignal _ hmem rfl with h | h <;> cases h

/-- `flush_now` returns `Ok`. -/
theorem RingStep.leave {total : ℕ} (hr : sh'.ring = sh.ring) (hd : drained cfg pc = true)
    (hc : Clear sh pc sh') : RingStep cfg sh pc sh' .idle [.flushNowReturned (some total)] where
  ring := Or.inl (by rw [hr]; exact (List.append_nil _).symm)
  seen h := by cases h
  submitted pre post req heq := by
    have hmem : Event.submitReturned req true ∈ [Event.flushNowReturned (some total)] := by
      rw [heq]
      exact List.mem_append_right _ List.mem_cons_self
    cases List.mem_singleton.mp hmem
  called hmem := by cases List.mem_singleton.mp hmem
  returned _ _ := ⟨hd, hc⟩

theorem not_drained_entry (c : Call) : drained cfg c.entry.1 = false := by
  cases c <;> rfl

/-- Where a drain that has seen the ring empty may be. -/
theorem drained_drainNext {k : DrainFor} {moved : ℕ} : ∀ {l : List WriteRequest},
    drained cfg (drainNext cfg k moved l) = true →
      ∃ total inLoop, k = .flushNow total inLoop ∧ (inLoop = true ∨ moved < cfg.flushMaxBatch)
  | [], hd => by
    have hpos := cfg.flushMaxBatch_pos
    cases k with
    | steady | final => cases hd
    | flushNow total inLoop =>
      refine ⟨total, inLoop, rfl, ?_⟩
      simp only [drainNext, drainDone] at hd
      split_ifs at hd with hmoved hin
      · exact Or.inl hin
      · exact Or.inr (by omega)
      · exact Or.inl hd
  | req :: rest, hd => by
    cases k with
    | steady | final => cases hd
    | flushNow total inLoop =>
      refine ⟨total, inLoop, rfl, ?_⟩
      simpa only [drainNext, drained, Bool.or_eq_true, decide_eq_true_eq] using hd

/-- **Every step**, on these terms. -/
theorem ring_step (hs : pc.step cfg env sh = some (sh', pc', es)) : RingStep cfg sh pc sh' pc' es := by
  cases pc with
  | idle | exited => cases hs
  | submitAlloc | durableAlloc | durableNote | durableClear | finalRing =>
    simp only [Pc.step, Option.some.injEq, Prod.mk.injEq] at hs
    obtain ⟨rfl, rfl, rfl⟩ := hs
    exact RingStep.stay rfl (by simp [isSignal]) fun hd => by cases hd
  | submitEnqueue req =>
    simp only [Pc.step] at hs
    rcases hq : sh.tryEnqueue cfg req with _ | sh1 <;>
      simp only [hq, Option.some.injEq, Prod.mk.injEq] at hs <;> obtain ⟨rfl, rfl, rfl⟩ := hs
    · exact RingStep.stay rfl (by simp [isSignal]) fun hd => by cases hd
    · exact RingStep.enqueue hq (Or.inl rfl)
  | durableEnqueue rec =>
    simp only [Pc.step] at hs
    rcases hq : sh.tryEnqueue cfg (toRequest rec) with _ | sh1 <;>
      simp only [hq, Option.some.injEq, Prod.mk.injEq] at hs <;> obtain ⟨rfl, rfl, rfl⟩ := hs
    · exact RingStep.stay rfl (by simp [isSignal]) fun hd => by cases hd
    · exact RingStep.enqueue hq (Or.inr rfl)
  | durableAppend rec =>
    simp only [Pc.step] at hs
    rcases hx : env.append with _ | ⟨landed, torn⟩ <;>
      simp only [hx, Option.some.injEq, Prod.mk.injEq] at hs <;> obtain ⟨rfl, rfl, rfl⟩ := hs <;>
      exact RingStep.stay rfl (by simp [isSignal]) fun hd => by cases hd
  | drainPop k got =>
    simp only [Pc.step] at hs
    split at hs
    · rcases hr : sh.ring with _ | ⟨req, ring⟩ <;>
        simp only [hr, Option.some.injEq, Prod.mk.injEq] at hs <;> obtain ⟨rfl, rfl, rfl⟩ := hs
      · exact RingStep.stay rfl (by simp) fun _ => Or.inr hr
      · have hgot : req ∈ buffer (.drainPop k (got ++ [req])) :=
          List.mem_append_right _ (List.mem_singleton_self _)
        refine ⟨Or.inr ⟨req, hr, rfl, hgot⟩, fun hd => Or.inl (by cases k <;> exact hd),
          fun pre post req heq => ?_, fun hmem => (by cases hmem), fun total hmem => by cases hmem⟩
        exact absurd heq.symm (List.append_ne_nil_of_right_ne_nil _ (List.cons_ne_nil _ _))
    · rename_i hfull
      simp only [Option.some.injEq, Prod.mk.injEq] at hs
      obtain ⟨rfl, rfl, rfl⟩ := hs
      refine RingStep.stay rfl (by simp) fun hd => ?_
      obtain ⟨total, inLoop, rfl, hin | hlt⟩ := drained_drainNext hd
      · exact Or.inl hin
      · exact absurd hlt hfull
  | drainNote k moved req rest =>
    simp only [Pc.step, Option.some.injEq, Prod.mk.injEq] at hs
    obtain ⟨rfl, rfl, rfl⟩ := hs
    exact RingStep.stay rfl (by simp) fun hd => Or.inl (by cases k <;> exact hd)
  | drainApply k moved req rest =>
    simp only [Pc.step, Option.some.injEq, Prod.mk.injEq] at hs
    obtain ⟨rfl, rfl, rfl⟩ := hs
    refine RingStep.stay rfl (by simp) fun hd => ?_
    obtain ⟨total, inLoop, rfl, h⟩ := drained_drainNext hd
    exact Or.inl (by simpa only [drained, Bool.or_eq_true, decide_eq_true_eq] using h)
  | flushNowCheck total =>
    simp only [Pc.step] at hs
    split at hs <;> simp only [Option.some.injEq, Prod.mk.injEq] at hs <;> obtain ⟨rfl, rfl, rfl⟩ := hs
    · exact RingStep.stay rfl (by simp) fun _ => Or.inl rfl
    · rename_i hclean
      have hdirty : sh.cache.inner.dirty = ∅ := Finset.card_eq_zero.mp (Nat.eq_zero_of_not_pos hclean)
      exact RingStep.leave rfl rfl ⟨hdirty, rfl, rfl, rfl, rfl⟩
  | takeDirty k =>
    simp only [Pc.step] at hs
    split at hs
    · rename_i ho
      split at hs <;> simp only [Option.some.injEq, Prod.mk.injEq] at hs <;>
        obtain ⟨rfl, rfl, rfl⟩ := hs
      · rename_i hnil
        have hdirty := WriteBehindCache.dirty_eq_empty_of_taken ho cfg.flushMaxBatch_pos hnil
        cases k with
        | steady | final => exact RingStep.stay rfl (by simp [flushEnd]) fun hd => by cases hd
        | flushNow total => exact RingStep.leave rfl rfl ⟨hdirty, rfl, rfl, rfl, rfl⟩
      · exact RingStep.stay rfl (by simp) fun hd => Or.inl (by cases k <;> exact hd)
    · cases hs
  | allocBlock k states =>
    simp only [Pc.step, Option.some.injEq, Prod.mk.injEq] at hs
    obtain ⟨rfl, rfl, rfl⟩ := hs
    exact RingStep.stay rfl (by simp) fun hd => Or.inl (by cases k <;> exact hd)
  | appendBatch k states records =>
    simp only [Pc.step] at hs
    rcases hx : env.append with _ | ⟨landed, torn⟩ <;>
      simp only [hx, Option.some.injEq, Prod.mk.injEq] at hs <;> obtain ⟨rfl, rfl, rfl⟩ := hs <;>
      exact RingStep.stay rfl (by simp [isSignal]) fun hd => Or.inl (by cases k <;> exact hd)
  | persistBatch k states last attempt =>
    simp only [Pc.step] at hs
    repeat' split at hs
    all_goals
      simp only [Option.some.injEq, Prod.mk.injEq] at hs
      obtain ⟨rfl, rfl, rfl⟩ := hs
      exact RingStep.stay rfl (by simp [isSignal]) fun hd => Or.inl (by cases k <;> exact hd)
  | watermark k count last =>
    simp only [Pc.step] at hs
    split at hs <;> simp only [Option.some.injEq, Prod.mk.injEq] at hs <;> obtain ⟨rfl, rfl, rfl⟩ := hs
    · exact RingStep.stay rfl (by simp) fun hd => Or.inl (by cases k <;> exact hd)
    · exact RingStep.stay rfl (by simp) fun hd => Or.inl (by cases k <;> exact hd)
  | checkpoint k count safe =>
    have hok : drained cfg (batchOk count k) = true → drained cfg (.checkpoint k count safe) = true := by
      intro hd
      cases k <;> exact hd
    have hfailed : drained cfg (checkpointFailed count k).1 = true →
        drained cfg (.checkpoint k count safe) = true := by
      intro hd
      cases k with
      | flushNow => rfl
      | steady | final => exact hd
    have hsay : ∀ ev ∈ (checkpointFailed count k).2, isSignal ev = false := by
      cases k <;> simp [checkpointFailed, isSignal]
    simp only [Pc.step] at hs
    rcases hx : env.checkpoint <;>
      simp only [hx, Option.some.injEq, Prod.mk.injEq] at hs <;> obtain ⟨rfl, rfl, rfl⟩ := hs
    · exact RingStep.stay rfl (by simp) fun hd => Or.inl (hok hd)
    · exact RingStep.stay rfl hsay fun hd => Or.inl (hfailed hd)
    · exact RingStep.stay rfl hsay fun hd => Or.inl (hfailed hd)
  | requeue k states =>
    simp only [Pc.step, Option.some.injEq, Prod.mk.injEq] at hs
    obtain ⟨rfl, rfl, rfl⟩ := hs
    exact RingStep.stay rfl (by cases k <;> simp [batchFailed, isSignal])
      fun hd => by cases k <;> cases hd
  | top | decide | finalDirty | finalAfter =>
    simp only [Pc.step] at hs
    repeat' split at hs
    all_goals
      simp only [Option.some.injEq, Prod.mk.injEq] at hs
      obtain ⟨rfl, rfl, rfl⟩ := hs
      exact RingStep.stay rfl (by simp) fun hd => by cases hd

end RingStep

/-! ### Every run -/

/-- **The ring is a queue of what was enqueued**, and a `flush_now` that has seen it empty knows that
everything enqueued before its call has been popped. -/
structure Queued (cfg : ValidConfig) (s : FluxEngine) (h : List (Tid × Event)) : Prop where
  fifo : ∃ popped, enqueued h = popped ++ s.sh.ring ∧ ∀ req ∈ popped, Passed (pipe s h) (reqKey req)
  marks : ∀ n, drained cfg (s.pc (.client n)) = true →
    ∀ pre post, h = pre ++ (.client n, .flushNowCalled) :: post →
      (enqueued pre).length + s.sh.ring.length ≤ (enqueued h).length
  submitted : ∀ pre post t req, h = pre ++ (t, .submitReturned req true) :: post → req ∈ enqueued pre

section Runs
variable {cfg : ValidConfig} {s s' : FluxEngine} {h e : List (Tid × Event)} {a : Action}

/-- An event of a tagged list stands where the plain event does. -/
theorem tagged_split {t u : Tid} {es : List Event} {ev : Event} {pre post : List (Tid × Event)}
    (heq : tagged t es = pre ++ (u, ev) :: post) :
    ∃ pre' post', pre = tagged t pre' ∧ es = pre' ++ ev :: post' := by
  unfold tagged at heq
  obtain ⟨pre', rest, rfl, hpre, hrest⟩ := List.map_eq_append_iff.mp heq
  obtain ⟨ev', post', rfl, hev, -⟩ := List.map_eq_cons_iff.mp hrest
  obtain ⟨-, rfl⟩ := Prod.mk.inj hev
  exact ⟨pre', post', hpre.symm, rfl⟩

theorem Queued.start (wal : Log) (table : Table) : Queued cfg (start wal table) [] where
  fifo := ⟨[], rfl, fun req hreq => by cases hreq⟩
  marks n hd := by cases hd
  submitted pre post t req heq := absurd heq.symm
    (List.append_ne_nil_of_right_ne_nil _ (List.cons_ne_nil _ _))

/-- A call begins. -/
theorem Queued.call {n : ℕ} {c : Call} (hq : Queued cfg s h)
    (hs : s.step cfg a = some (s', e)) (hidle : s.pc (.client n) = .idle)
    (he : e = tagged (.client n) c.entry.2)
    (hs' : s' = { s with pc := Function.update s.pc (.client n) c.entry.1 }) :
    Queued cfg s' (h ++ e) := by
  have hmove : Move (pipe s h) (pipe s' (h ++ e)) := step_move hs
  have hby : enqueued e = [] := by
    rw [he, enqueued_tagged]
    cases c <;> rfl
  have hall : enqueued (h ++ e) = enqueued h := by rw [enqueued_append, hby, List.append_nil]
  subst hs'
  refine ⟨?_, fun m hd pre post heq => ?_, fun pre post t req heq => ?_⟩
  · obtain ⟨popped, hsplit, hpass⟩ := hq.fifo
    exact ⟨popped, hall.trans hsplit, fun req hreq => hmove.passed (hpass req hreq)⟩
  · by_cases hm : m = n
    · subst hm
      simp only [Function.update_self] at hd
      rw [not_drained_entry] at hd
      cases hd
    · have hne : Tid.client m ≠ Tid.client n := fun h1 => hm (Tid.client.inj h1)
      simp only [Function.update_of_ne hne] at hd
      rw [hall]
      rcases split_append heq with ⟨post', hh, -⟩ | ⟨pre', -, he'⟩
      · exact hq.marks m hd pre post' hh
      · have hmem : (Tid.client m, Event.flushNowCalled) ∈ tagged (.client n) c.entry.2 := by
          rw [← he, he']
          exact List.mem_append_right _ List.mem_cons_self
        obtain ⟨ev, -, heq'⟩ := List.mem_map.mp hmem
        exact absurd (Prod.mk.inj heq').1.symm hne
  · rcases split_append heq with ⟨post', hh, -⟩ | ⟨pre', -, he'⟩
    · exact hq.submitted pre post' t req hh
    · rw [he] at he'
      obtain ⟨pre'', post'', -, hes⟩ := tagged_split he'
      have hmem : Event.submitReturned req true ∈ c.entry.2 := by
        rw [hes]
        exact List.mem_append_right _ List.mem_cons_self
      cases c with
      | flushNow => cases List.mem_singleton.mp hmem
      | submit | submitDurable => cases hmem

/-- A thread steps. -/
theorem Queued.run {t : Tid} {env : Env} {sh : Shared} {pc : Pc} {es : List Event}
    (hq : Queued cfg s h) (hs : s.step cfg a = some (s', e))
    (hstep : (s.pc t).step cfg env s.sh = some (sh, pc, es)) (he : e = tagged t es)
    (hs' : s' = { sh := sh, pc := Function.update s.pc t pc }) : Queued cfg s' (h ++ e) := by
  have hmove : Move (pipe s h) (pipe s' (h ++ e)) := step_move hs
  have hr := ring_step hstep
  have hall : enqueued (h ++ e) = enqueued h ++ enqueuedBy es := by
    rw [enqueued_append, he, enqueued_tagged]
  subst hs'
  have hlen : sh.ring.length ≤ s.sh.ring.length + (enqueuedBy es).length := by
    rcases hr.ring with hring | ⟨req, hring, -, -⟩
    · rw [hring, List.length_append]
    · rw [hring, List.length_cons]
      omega
  refine ⟨?_, fun m hd pre post heq => ?_, fun pre post u req heq => ?_⟩
  · obtain ⟨popped, hsplit, hpass⟩ := hq.fifo
    rcases hr.ring with hring | ⟨req, hring, hnone, hbuf⟩
    · refine ⟨popped, ?_, fun req hreq => hmove.passed (hpass req hreq)⟩
      rw [hall, hsplit, hring, List.append_assoc]
    · refine ⟨popped ++ [req], ?_, fun req' hreq => ?_⟩
      · rw [hall, hnone, hsplit, hring, List.append_nil, List.append_assoc, List.singleton_append]
      · rcases List.mem_append.mp hreq with hreq | hreq
        · exact hmove.passed (hpass req' hreq)
        · obtain rfl := List.mem_singleton.mp hreq
          refine Or.inl ⟨t, ?_⟩
          show reqKey req' ∈ (hold (Function.update s.pc t pc t)).buf
          rw [Function.update_self]
          exact List.mem_map_of_mem hbuf
  · have hcalled : ∃ post', h = pre ++ (.client m, .flushNowCalled) :: post' := by
      rcases split_append heq with ⟨post', hh, -⟩ | ⟨pre', -, he'⟩
      · exact ⟨post', hh⟩
      · rw [he] at he'
        obtain ⟨pre'', post'', -, hes⟩ := tagged_split he'
        refine absurd ?_ hr.called
        rw [hes]
        exact List.mem_append_right _ List.mem_cons_self
    obtain ⟨post', hh⟩ := hcalled
    have hgrow : drained cfg (s.pc (.client m)) = true →
        (enqueued pre).length + sh.ring.length ≤ (enqueued (h ++ e)).length := by
      intro hd'
      have hmark := hq.marks m hd' pre post' hh
      rw [hall, List.length_append]
      omega
    by_cases hm : .client m = t
    · subst hm
      simp only [Function.update_self] at hd
      rcases hr.seen hd with hd' | hempty
      · exact hgrow hd'
      · show (enqueued pre).length + sh.ring.length ≤ _
        rw [hall, hempty, hh, enqueued_append, List.length_append, List.length_append, List.length_nil]
        omega
    · simp only [Function.update_of_ne hm] at hd
      exact hgrow hd
  · rcases split_append heq with ⟨post', hh, -⟩ | ⟨pre', hpre, he'⟩
    · exact hq.submitted pre post' u req hh
    · rw [he] at he'
      obtain ⟨pre'', post'', hpre', hes⟩ := tagged_split he'
      have hmem := hr.submitted pre'' post'' req hes
      rw [hpre, enqueued_append, hpre', enqueued_tagged]
      exact List.mem_append_right _ hmem

theorem run_queued {ok : Guard FluxEngine Action (Tid × Event)} (hr : Run (system cfg) ok s h) :
    Queued cfg s h := by
  refine hr.invariant (I := fun s h => Queued cfg s h) ?_ ?_
  · rintro _ ⟨wal, table, rfl⟩
    exact Queued.start wal table
  · rintro s h a s' e - hq - hs
    rcases step_cases hs with ⟨n, c, -, hidle, he, hs'⟩ | ⟨t, env, sh, pc, es, -, hstep, he, hs'⟩ |
      ⟨-, he, hs'⟩
    · exact hq.call hs hidle he hs'
    · exact hq.run hs hstep he hs'
    · subst he
      subst hs'
      rw [List.append_nil]
      exact ⟨hq.fifo, hq.marks, hq.submitted⟩

/-- Everything submitted before a call that has seen the ring empty has been popped. -/
theorem Queued.passed (hq : Queued cfg s h) {n : ℕ} (hd : drained cfg (s.pc (.client n)) = true)
    {req : WriteRequest} (hreq : SubmittedBefore n h req) : Passed (pipe s h) (reqKey req) := by
  obtain ⟨t, pre, post, hh, hmem⟩ := hreq
  obtain ⟨popped, hsplit, hpass⟩ := hq.fifo
  have hmark := hq.marks n hd pre post hh
  have hin : req ∈ enqueued pre := by
    obtain ⟨pre1, post1, hpre⟩ := List.append_of_mem hmem
    have hin1 := hq.submitted pre1 (post1 ++ (.client n, .flushNowCalled) :: post) t req (by
      rw [hh, hpre, List.append_assoc, List.cons_append])
    rw [hpre, enqueued_append]
    exact List.mem_append_left _ hin1
  have hbefore : enqueued pre <+: enqueued h := ⟨_, by rw [hh, enqueued_append]⟩
  have hpopped : enqueued pre <+: popped := by
    refine List.prefix_of_prefix_length_le hbefore ⟨s.sh.ring, hsplit.symm⟩ ?_
    rw [hsplit, List.length_append] at hmark
    omega
  exact hpass req (hpopped.subset hin)

end Runs

/-! ### The result -/

section Result
variable {cfg : ValidConfig} {s s' : FluxEngine} {h e : List (Tid × Event)} {a : Action}

/-- The step in which `flush_now` returns `Ok`. -/
theorem returned_step {n total : ℕ} (hs : s.step cfg a = some (s', e))
    (hret : (.client n, .flushNowReturned (some total)) ∈ e) :
    drained cfg (s.pc (.client n)) = true ∧ Clear s.sh (s.pc (.client n)) s'.sh := by
  rcases step_cases hs with ⟨m, c, -, -, rfl, -⟩ | ⟨t, env, sh, pc, es, -, hstep, rfl, rfl⟩ |
    ⟨-, rfl, -⟩
  · obtain ⟨ev, hev, heq⟩ := List.mem_map.mp hret
    obtain ⟨-, rfl⟩ := Prod.mk.inj heq
    cases c with
    | flushNow => cases List.mem_singleton.mp hev
    | submit | submitDurable => cases hev
  · obtain ⟨ev, hev, heq⟩ := List.mem_map.mp hret
    obtain ⟨rfl, rfl⟩ := Prod.mk.inj heq
    exact (ring_step hstep).returned total hev
  · cases hret

/-- What has been popped when nothing is dirty is in some thread's hands, or in the store. -/
theorem Passed.settled (hi : Inv (pipe s h)) (hd : s.sh.cache.inner.dirty = ∅) {req : WriteRequest}
    (hp : Passed (pipe s h) (reqKey req)) :
    (∃ t, (∃ r ∈ buffer (s.pc t), r.playerId = req.playerId ∧ req.version ≤ r.version) ∨
      ∃ st ∈ batch (s.pc t), st.playerId = req.playerId ∧ req.version ≤ st.version) ∨
    StoreHolds s req.playerId req.version := by
  rcases hp with ⟨t, hb⟩ | hc
  · obtain ⟨r, hr, hkey⟩ := List.mem_map.mp hb
    obtain ⟨hid, hv⟩ := Prod.mk.inj hkey
    exact Or.inl ⟨t, Or.inl ⟨r, hr, hid, hv ▸ le_rfl⟩⟩
  · obtain ⟨v, hv, hle⟩ := hc
    rcases hi.settled _ v hv with hm | ⟨t, hm⟩ | ⟨w, hw, hvw⟩
    · have hmem : req.playerId ∈ s.sh.cache.inner.dirty := hm
      rw [hd] at hmem
      cases hmem
    · obtain ⟨st, hst, hkey⟩ := List.mem_map.mp hm
      obtain ⟨hid, hver⟩ := Prod.mk.inj hkey
      exact Or.inl ⟨t, Or.inr ⟨st, hst, hid, hver ▸ hle⟩⟩
    · exact Or.inr (reaches_store.mp ⟨w, hw, le_trans hle hvw⟩)

/-- **`flush_now` as a durability barrier**: in every run, when a call of `flush_now` returns `Ok`, all
writes submitted before it are in the store or the log, if and only if those of them are that another
thread has in hand. -/
theorem flush_now_barrier_iff {n total : ℕ} (hr : Run (system cfg) anyStep s h)
    (hs : s.step cfg a = some (s', e)) (hret : (.client n, .flushNowReturned (some total)) ∈ e) :
    (∀ req, SubmittedBefore n h req → Durable s' req) ↔
      ∀ req, SubmittedBefore n h req → InOtherHands n s req → Durable s req := by
  obtain ⟨hd, hclear⟩ := returned_step hs hret
  have hsame : ∀ req, Durable s' req ↔ Durable s req := by
    intro req
    unfold Durable StoreHolds WalHolds
    rw [hclear.table, hclear.wal]
  simp only [hsame]
  refine ⟨fun hall req hreq _ => hall req hreq, fun hhands req hreq => ?_⟩
  have hpassed := (run_queued hr).passed hd hreq
  rcases Passed.settled (run_inv hr) hclear.dirty hpassed with ⟨t, hin⟩ | hst
  · refine hhands req hreq ⟨t, ?_, hin⟩
    rintro rfl
    rw [hclear.buffer, hclear.batch] at hin
    rcases hin with ⟨r, hmem, -⟩ | ⟨st, hmem, -⟩
    · cases hmem
    · cases hmem
  · exact Or.inl hst

/-- A returned `flush_now`, from what its thread sees. -/
theorem returned_of_check {n total : ℕ} (hpc : s.pc (.client n) = .flushNowCheck total)
    (hd : s.sh.cache.dirtyLen = 0) :
    s.step cfg (.run (.client n) (.fine [])) =
      some ({ s with pc := Function.update s.pc (.client n) .idle },
        [(.client n, .flushNowReturned (some total))]) := by
  have hno : ¬ 0 < s.sh.cache.dirtyLen := by omega
  simp only [FluxEngine.step, hpc, Pc.step, if_neg hno]
  rfl

/-- A client submits, and another flushes. -/
theorem flush_now_barrier_iff_alone : ∃ s h s' e, Run (system oneByOne) anyStep s h ∧
    s.step oneByOne (.run (.client 1) (.fine [])) = some (s', e) ∧
    (.client 1, .flushNowReturned (some 1)) ∈ e ∧
    ∀ req, SubmittedBefore 1 h req → Durable s' req := by
  obtain ⟨s, h, hr, hp⟩ := exists_run_of_exec (system oneByOne) anyStep (fun _ _ _ => true)
    (fun _ _ _ _ => trivial) (start Log.empty fun _ => none)
    ([Machine.Action.call 0 (.submit 7 1 []), .run (.client 0) (.fine []), .run (.client 0) (.fine []),
        .call 1 .flushNow] ++ List.replicate 13 (Machine.Action.run (.client 1) (.fine [7])))
    (fun x => decide (x.1.pc (.client 1) = .flushNowCheck 1) &&
      decide (x.1.sh.cache.dirtyLen = 0) && decide (x.1.sh.table 7 = some ⟨7, 1, []⟩) &&
      decide (x.2 = [(.client 0, .enqueued ⟨7, 1, [], 1⟩), (.client 0, .submitReturned ⟨7, 1, [], 1⟩ true),
        (.client 1, .flushNowCalled), (.client 1, .logged [⟨2, 7, 1, []⟩]),
        (.client 1, .persisted [⟨7, 1, []⟩])]))
    ⟨_, _, rfl⟩ (by decide +kernel)
  simp only [Bool.and_eq_true, decide_eq_true_eq] at hp
  obtain ⟨⟨⟨hpc, hd⟩, htable⟩, hh⟩ := hp
  have hs : s.step oneByOne _ = _ := returned_of_check hpc hd
  have hret : (Tid.client 1, Event.flushNowReturned (some 1)) ∈
      [(Tid.client 1, Event.flushNowReturned (some 1))] := List.mem_singleton_self _
  refine ⟨s, h, _, _, hr, hs, hret, (flush_now_barrier_iff hr hs hret).mpr fun req hreq _ => ?_⟩
  obtain ⟨t, pre, post, hsplit, hmem⟩ := hreq
  have hin : (t, Event.submitReturned req true) ∈ h := by
    rw [hsplit]
    exact List.mem_append_left _ hmem
  rw [hh] at hin
  simp only [List.mem_cons, Prod.mk.injEq, reduceCtorEq, and_false, false_or, List.not_mem_nil,
    Event.submitReturned.injEq, and_true, or_false] at hin
  obtain ⟨-, rfl⟩ := hin
  exact Or.inl ⟨_, htable, le_rfl⟩

/-- The worker has popped the write, and `flush_now` finds an empty ring and nothing dirty. -/
theorem flush_now_overtakes_worker : ∃ s h s' e, Run (system oneByOne) anyStep s h ∧
    s.step oneByOne (.run (.client 1) (.fine [])) = some (s', e) ∧
    (.client 1, .flushNowReturned (some 0)) ∈ e ∧ SubmittedBefore 1 h ⟨7, 1, [], 1⟩ ∧
    ¬ Durable s' ⟨7, 1, [], 1⟩ := by
  obtain ⟨s, h, hr, hp⟩ := exists_run_of_exec (system oneByOne) anyStep (fun _ _ _ => true)
    (fun _ _ _ _ => trivial) (start Log.empty fun _ => none)
    [.call 0 (.submit 7 1 []), .run (.client 0) (.fine []), .run (.client 0) (.fine []),
      .run .worker (.fine []), .run .worker (.fine []), .call 1 .flushNow, .run (.client 1) (.fine [])]
    (fun x => decide (x.1.pc (.client 1) = .flushNowCheck 0) &&
      decide (x.1.sh.cache.dirtyLen = 0) && decide (x.1.sh.table 7 = none) &&
      decide (x.1.sh.wal.records = []) &&
      decide (x.2 = [(.client 0, .enqueued ⟨7, 1, [], 1⟩), (.client 0, .submitReturned ⟨7, 1, [], 1⟩ true),
        (.client 1, .flushNowCalled)]))
    ⟨_, _, rfl⟩ (by decide +kernel)
  simp only [Bool.and_eq_true, decide_eq_true_eq] at hp
  obtain ⟨⟨⟨⟨hpc, hd⟩, htable⟩, hwal⟩, hh⟩ := hp
  refine ⟨s, h, _, _, hr, returned_of_check hpc hd, List.mem_singleton_self _, ?_, ?_⟩
  · exact ⟨.client 0, [(.client 0, .enqueued ⟨7, 1, [], 1⟩),
      (.client 0, .submitReturned ⟨7, 1, [], 1⟩ true)], [], hh, by simp⟩
  · rintro (⟨st, hst, -⟩ | ⟨rec, hrec, -⟩)
    · have hnone : s.sh.table 7 = some st := hst
      rw [htable] at hnone
      cases hnone
    · have hmem : rec ∈ s.sh.wal.records := hrec
      rw [hwal] at hmem
      cases hmem

end Result

end FluxThroughput.Engine.Barrier
