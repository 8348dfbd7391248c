import FluxThroughput.Engine.NoLoss

/-! # What steps do to the log, the store and the pending set

Seven kinds of step are loud: they touch the log, the table or the pending set, compute a watermark,
or report a durable write. All others are `Quiet`, which is shown once (`quiet_step`); what each
event says about its step follows by looking at the loud ones. -/

namespace FluxThroughput.Engine.Events

open FluxThroughput.Domain.Types FluxThroughput.Cache.WriteBehind FluxThroughput.Store.Mock
open FluxThroughput.Wal.Atomic FluxThroughput.Engine.Config FluxThroughput.Engine.Machine
open FluxThroughput.Engine.Refine FluxThroughput.Engine.NoLoss
open FluxThroughput.Lib.Transition FluxThroughput.Lib.WriteBehind

/-- The step touches the log, the table or the pending set, or reports on them. -/
def isLoud : Pc → Bool
  | .durableNote _ => true
  | .durableAppend _ => true
  | .durableEnqueue _ => true
  | .appendBatch _ _ _ => true
  | .persistBatch _ _ _ _ => true
  | .watermark _ _ _ => true
  | .checkpoint _ _ _ => true
  | _ => false

/-- The event reports on the log or the table. -/
def isReport : Event → Bool
  | .durableLogged _ => true
  | .durableReturned _ ok => ok
  | .logged _ => true
  | .persisted _ => true
  | _ => false

/-- Where only a loud step goes. -/
def isLoudTarget : Pc → Bool
  | .durableAppend _ => true
  | .durableEnqueue _ => true
  | .checkpoint _ _ _ => true
  | _ => false

/-- The log and the table stay, the pending set does not grow, and nothing is reported. -/
structure Quiet (sh sh' : Shared) (pc' : Pc) (es : List Event) : Prop where
  wal : sh'.wal = sh.wal
  table : sh'.table = sh.table
  pending : sh'.lsn.pending ⊆ sh.lsn.pending
  target : isLoudTarget pc' = false
  reports : ∀ ev ∈ es, isReport ev = false

variable {cfg : ValidConfig} {env : Env} {sh sh' : Shared} {pc pc' : Pc} {es : List Event}

/-! ### Quiet steps -/

theorem target_drainNext (cfg : ValidConfig) (k : DrainFor) (moved : ℕ) (l : List WriteRequest) :
    isLoudTarget (drainNext cfg k moved l) = false := by
  cases l with
  | cons => rfl
  | nil =>
    unfold drainNext
    cases k with
    | steady => rfl
    | final => rfl
    | flushNow total inLoop =>
      simp only [drainDone]
      split_ifs <;> rfl

theorem target_flushEnd (k : FlushFor) :
    isLoudTarget (flushEnd k).1 = false ∧ ∀ ev ∈ (flushEnd k).2, isReport ev = false := by
  cases k <;> simp [flushEnd, isLoudTarget, isReport]

theorem target_batchFailed (k : FlushFor) :
    isLoudTarget (batchFailed k).1 = false ∧ ∀ ev ∈ (batchFailed k).2, isReport ev = false := by
  cases k <;> simp [batchFailed, isLoudTarget, isReport]

theorem target_batchOk (n : ℕ) (k : FlushFor) : isLoudTarget (batchOk n k) = false := by
  cases k <;> rfl

theorem target_checkpointFailed (n : ℕ) (k : FlushFor) :
    isLoudTarget (checkpointFailed n k).1 = false ∧
      ∀ ev ∈ (checkpointFailed n k).2, isReport ev = false := by
  cases k <;> simp [checkpointFailed, batchOk, isLoudTarget, isReport]

/-- Enqueueing touches the ring alone. -/
theorem tryEnqueue_frame {req : WriteRequest} (hq : sh.tryEnqueue cfg req = some sh') :
    sh'.wal = sh.wal ∧ sh'.table = sh.table ∧ sh'.lsn = sh.lsn := by
  unfold Shared.tryEnqueue at hq
  split_ifs at hq
  obtain rfl := Option.some.inj hq
  exact ⟨rfl, rfl, rfl⟩

/-- A step that only moves on. -/
theorem Quiet.stay (ht : isLoudTarget pc' = false) (hr : ∀ ev ∈ es, isReport ev = false) :
    Quiet sh sh pc' es := ⟨rfl, rfl, subset_rfl, ht, hr⟩

/-- **A step that is not loud is quiet.** -/
theorem quiet_step (hl : isLoud pc = false) (hs : pc.step cfg env sh = some (sh', pc', es)) :
    Quiet sh sh' pc' es := by
  cases pc with
  | idle | exited => cases hs
  | durableNote | durableAppend | durableEnqueue | appendBatch | persistBatch | watermark
    | checkpoint => cases hl
  | submitAlloc | durableAlloc | allocBlock | finalRing =>
    simp only [Pc.step, Option.some.injEq, Prod.mk.injEq] at hs
    obtain ⟨rfl, rfl, rfl⟩ := hs
    exact ⟨rfl, rfl, subset_rfl, rfl, by simp⟩
  | durableClear rec =>
    simp only [Pc.step, Option.some.injEq, Prod.mk.injEq] at hs
    obtain ⟨rfl, rfl, rfl⟩ := hs
    exact ⟨rfl, rfl, Finset.erase_subset _ _, rfl, by simp [isReport]⟩
  | drainNote k moved req rest =>
    simp only [Pc.step, Option.some.injEq, Prod.mk.injEq] at hs
    obtain ⟨rfl, rfl, rfl⟩ := hs
    exact ⟨rfl, rfl, Finset.erase_subset _ _, rfl, by simp⟩
  | submitEnqueue req =>
    simp only [Pc.step] at hs
    rcases hq : sh.tryEnqueue cfg req with _ | sh1 <;>
      simp only [hq, Option.some.injEq, Prod.mk.injEq] at hs <;> obtain ⟨rfl, rfl, rfl⟩ := hs
    · exact Quiet.stay rfl (by simp [isReport])
    · obtain ⟨h1, h2, h3⟩ := tryEnqueue_frame hq
      exact ⟨h1, h2, by rw [h3], rfl, by simp [isReport]⟩
  | drainPop k got =>
    simp only [Pc.step] at hs
    split at hs
    · rcases hr : sh.ring with _ | ⟨req, ring⟩ <;>
        simp only [hr, Option.some.injEq, Prod.mk.injEq] at hs <;> obtain ⟨rfl, rfl, rfl⟩ := hs
      · exact Quiet.stay (target_drainNext _ _ _ _) (by simp)
      · exact ⟨rfl, rfl, subset_rfl, rfl, by simp⟩
    · simp only [Option.some.injEq, Prod.mk.injEq] at hs
      obtain ⟨rfl, rfl, rfl⟩ := hs
      exact Quiet.stay (target_drainNext _ _ _ _) (by simp)
  | drainApply k moved req rest =>
    simp only [Pc.step, Option.some.injEq, Prod.mk.injEq] at hs
    obtain ⟨rfl, rfl, rfl⟩ := hs
    exact ⟨rfl, rfl, subset_rfl, target_drainNext _ _ _ _, by simp⟩
  | takeDirty k =>
    simp only [Pc.step] at hs
    split at hs
    · split at hs <;> simp only [Option.some.injEq, Prod.mk.injEq] at hs <;>
        obtain ⟨rfl, rfl, rfl⟩ := hs
      · exact ⟨rfl, rfl, subset_rfl, (target_flushEnd k).1, (target_flushEnd k).2⟩
      · exact ⟨rfl, rfl, subset_rfl, rfl, by simp⟩
    · cases hs
  | requeue k states =>
    simp only [Pc.step, Option.some.injEq, Prod.mk.injEq] at hs
    obtain ⟨rfl, rfl, rfl⟩ := hs
    exact ⟨rfl, rfl, subset_rfl, (target_batchFailed k).1, (target_batchFailed k).2⟩
  | flushNowCheck | top | decide | finalDirty | finalAfter =>
    simp only [Pc.step] at hs
    repeat' split at hs
    all_goals
      simp only [Option.some.injEq, Prod.mk.injEq] at hs
      obtain ⟨rfl, rfl, rfl⟩ := hs
      exact Quiet.stay rfl (by simp [isReport])

/-! ### What the events say -/

/-- The step's part of what an event reports. -/
def Reported (sh : Shared) (pc : Pc) (sh' : Shared) : Event → Prop
  | .durableLogged rec => pc = .durableAppend rec ∧
      sh'.wal.records = sh.wal.records ++ sh.wal.landing [rec]
  | .durableReturned rec true => pc = .durableEnqueue rec
  | .logged records => (∃ k states, pc = .appendBatch k states records) ∧
      sh'.wal.records = sh.wal.records ++ sh.wal.landing records
  | .persisted states => sh'.table = upsert sh.table states
  | _ => True

theorem Reported.of_not_report {ev : Event} (h : isReport ev = false) : Reported sh pc sh' ev := by
  cases ev with
  | durableReturned rec ok => cases ok <;> simp_all [isReport, Reported]
  | _ => simp_all [isReport, Reported]

/-- **Every event reports what its step did.** -/
theorem reported_step (hs : pc.step cfg env sh = some (sh', pc', es)) :
    ∀ ev ∈ es, Reported sh pc sh' ev := by
  by_cases hl : isLoud pc = false
  · exact fun ev hev => Reported.of_not_report ((quiet_step hl hs).reports ev hev)
  cases pc <;> simp only [isLoud, not_true] at hl
  case durableNote rec =>
    simp only [Pc.step, Option.some.injEq, Prod.mk.injEq] at hs
    obtain ⟨-, -, rfl⟩ := hs
    simp
  case durableAppend rec =>
    simp only [Pc.step] at hs
    rcases hx : env.append with _ | ⟨landed, torn⟩ <;>
      simp only [hx, Option.some.injEq, Prod.mk.injEq] at hs <;> obtain ⟨rfl, rfl, rfl⟩ := hs
    · simp [Reported]
    · simp
  case durableEnqueue rec =>
    simp only [Pc.step] at hs
    rcases hq : sh.tryEnqueue cfg (toRequest rec) with _ | sh1 <;>
      simp only [hq, Option.some.injEq, Prod.mk.injEq] at hs <;> obtain ⟨rfl, rfl, rfl⟩ := hs <;>
      simp [Reported]
  case appendBatch k states records =>
    simp only [Pc.step] at hs
    rcases hx : env.append with _ | ⟨landed, torn⟩ <;>
      simp only [hx, Option.some.injEq, Prod.mk.injEq] at hs <;> obtain ⟨rfl, rfl, rfl⟩ := hs
    · simp [Reported]
    · simp
  case persistBatch k states last attempt =>
    simp only [Pc.step] at hs
    rcases hx : env.persist with _ | e
    · simp only [hx, Option.some.injEq, Prod.mk.injEq] at hs
      obtain ⟨rfl, rfl, rfl⟩ := hs
      simp [Reported]
    · simp only [hx] at hs
      split at hs <;> simp only [Option.some.injEq, Prod.mk.injEq] at hs <;>
        obtain ⟨rfl, rfl, rfl⟩ := hs <;> simp
  case watermark k count last =>
    simp only [Pc.step] at hs
    split at hs <;> simp only [Option.some.injEq, Prod.mk.injEq] at hs <;>
      obtain ⟨rfl, rfl, rfl⟩ := hs <;> simp
  case checkpoint k count safe =>
    have hno := (target_checkpointFailed count k).2
    simp only [Pc.step] at hs
    rcases hx : env.checkpoint <;> simp only [hx, Option.some.injEq, Prod.mk.injEq] at hs <;>
      obtain ⟨rfl, rfl, rfl⟩ := hs
    · simp
    · exact fun ev hev => Reported.of_not_report (hno ev hev)
    · exact fun ev hev => Reported.of_not_report (hno ev hev)

/-- A log whose calls succeed stays attached. -/
theorem attached_step (ha : env.append = .ok) (hc : env.checkpoint = .ok)
    (hs : pc.step cfg env sh = some (sh', pc', es)) (h : sh.wal.attached = true) :
    sh'.wal.attached = true := by
  by_cases hl : isLoud pc = false
  · rw [(quiet_step hl hs).wal]; exact h
  cases pc <;> simp only [isLoud, not_true] at hl
  case durableEnqueue rec =>
    simp only [Pc.step] at hs
    rcases hq : sh.tryEnqueue cfg (toRequest rec) with _ | sh1 <;>
      simp only [hq, Option.some.injEq, Prod.mk.injEq] at hs <;> obtain ⟨rfl, -, -⟩ := hs
    · exact h
    · rw [(tryEnqueue_frame hq).1]; exact h
  case durableAppend | appendBatch =>
    simp only [Pc.step, ha, Option.some.injEq, Prod.mk.injEq] at hs
    obtain ⟨rfl, -, -⟩ := hs
    simpa using h
  case checkpoint =>
    simp only [Pc.step, hc, Option.some.injEq, Prod.mk.injEq] at hs
    obtain ⟨rfl, -, -⟩ := hs
    rfl
  case durableNote | persistBatch | watermark =>
    simp only [Pc.step] at hs
    repeat' split at hs
    all_goals
      simp only [Option.some.injEq, Prod.mk.injEq] at hs
      obtain ⟨rfl, -, -⟩ := hs
      exact h

/-- **Only a checkpoint takes frames out of the log.** -/
theorem records_step (hck : ¬ isCheckpoint pc) (hs : pc.step cfg env sh = some (sh', pc', es)) :
    sh.wal.records ⊆ sh'.wal.records := by
  by_cases hl : isLoud pc = false
  · rw [(quiet_step hl hs).wal]
    exact List.Subset.refl _
  cases pc <;> simp only [isLoud, not_true] at hl
  case checkpoint => exact absurd trivial hck
  case durableEnqueue rec =>
    simp only [Pc.step] at hs
    rcases hq : sh.tryEnqueue cfg (toRequest rec) with _ | sh1 <;>
      simp only [hq, Option.some.injEq, Prod.mk.injEq] at hs <;> obtain ⟨rfl, -, -⟩ := hs
    · exact List.Subset.refl _
    · rw [(tryEnqueue_frame hq).1]
      exact List.Subset.refl _
  case durableAppend | appendBatch =>
    simp only [Pc.step] at hs
    rcases hx : env.append with _ | ⟨landed, torn⟩ <;>
      simp only [hx, Option.some.injEq, Prod.mk.injEq] at hs <;> obtain ⟨rfl, -, -⟩ := hs
    · rw [Log.records_appendBatch]
      exact List.subset_append_left _ _
    · exact List.subset_append_left _ _
  case durableNote | persistBatch | watermark =>
    simp only [Pc.step] at hs
    repeat' split at hs
    all_goals
      simp only [Option.some.injEq, Prod.mk.injEq] at hs
      obtain ⟨rfl, -, -⟩ := hs
      exact List.Subset.refl _

/-! ### Clients outside `flush_now` -/

/-- A client outside `flush_now`. -/
def isSubmitting : Pc → Prop
  | .idle | .submitAlloc .. | .submitEnqueue .. | .durableAlloc .. | .durableNote .. | .durableAppend ..
  | .durableClear .. | .durableEnqueue .. => True
  | _ => False

theorem hold_of_isSubmitting (hp : isSubmitting pc) : hold pc = ⟨[], []⟩ := by
  cases pc with
  | idle | submitAlloc | submitEnqueue | durableAlloc | durableNote | durableAppend | durableClear |
    durableEnqueue => rfl
  | _ => exact hp.elim

theorem isSubmitting_step (hpc : isSubmitting pc) (hs : pc.step cfg env sh = some (sh', pc', es)) :
    isSubmitting pc' := by
  cases pc <;> try exact hpc.elim
  case idle => cases hs
  all_goals
    simp only [Pc.step] at hs
    repeat' split at hs
    all_goals
      simp only [Option.some.injEq, Prod.mk.injEq] at hs
      obtain ⟨-, rfl, -⟩ := hs
      exact True.intro

/-- Where `flush_now` returns, the client is idle. -/
theorem idle_of_returned (hs : pc.step cfg env sh = some (sh', pc', es)) {total : Option ℕ}
    (hret : .flushNowReturned total ∈ es) : pc' = .idle := by
  cases pc <;> simp only [Pc.step] at hs
  case checkpoint k count safe =>
    split at hs <;> cases hs
    · cases hret
    · cases k with
      | flushNow => rfl
      | steady | final => cases hret
    · cases k with
      | flushNow => rfl
      | steady | final => cases hret
  case requeue k states =>
    cases hs
    cases k with
    | flushNow => rfl
    | steady | final => cases hret
  case takeDirty k =>
    split at hs
    · split at hs <;> cases hs
      · cases k with
        | flushNow => rfl
        | steady | final => cases hret
      · cases hret
    · cases hs
  all_goals
    repeat' split at hs
    all_goals
      first
        | cases hs
          first
            | rfl
            | simp at hret
        | cases hs

end FluxThroughput.Engine.Events
