import FluxThroughput.Engine.Events

/-! # The checkpoint floor

The floor is respected in a state when no checkpoint that a thread is about to run would remove a
frame whose LSN is pending. A watermark is computed in one step and used in a later one, so a durable
write may become pending, and be logged, in between. `exposes` says which LSNs a step makes both
pending and present in the log; the floor is respected in every run in which no thread holds a
watermark at or above an LSN when it is exposed (`floor_respected`), and a step that exposes one below
a held watermark breaks it at once (`exposed_breaks`). -/

namespace FluxThroughput.Engine.Floor

open FluxThroughput.Domain.Types FluxThroughput.Cache.WriteBehind FluxThroughput.Store.Mock
open FluxThroughput.Lsn.Authority FluxThroughput.Wal.Atomic FluxThroughput.Engine.Config
open FluxThroughput.Engine.Machine FluxThroughput.Engine.Refine FluxThroughput.Engine.NoLoss
open FluxThroughput.Engine.Events FluxThroughput.Lib.Transition

/-- Whichever thread now runs `wal.checkpoint(safe)`: no frame it removes has a pending LSN. -/
def FloorRespected (s : FluxEngine) : Prop :=
  ∀ t k count safe, s.pc t = .checkpoint k count safe →
    ∀ f ∈ s.sh.wal.records, f.lsn ≤ safe → f.lsn ∉ s.sh.lsn.pending

/-- What an append makes readable of a batch: nothing behind a torn frame or in a replaced file, and of a
failed append only the frames that are whole. -/
def landed (env : Env) (wal : Log) (batch : List WalRecord) : List WalRecord :=
  wal.landing (match env.append with
    | .ok => batch
    | .failed n _ => batch.take n)

/-- The LSNs that the step makes both pending and present in the log. -/
def exposes (env : Env) (sh : Shared) : Pc → List Lsn
  | .durableNote rec => (sh.wal.records.map WalRecord.lsn).filter (· = rec.lsn)
  | .durableAppend rec => ((landed env sh.wal [rec]).map WalRecord.lsn).filter (· ∈ sh.lsn.pending)
  | .appendBatch _ _ records =>
    ((landed env sh.wal records).map WalRecord.lsn).filter (· ∈ sh.lsn.pending)
  | _ => []

/-- Every watermark that a thread has computed and not used yet is below the LSN. -/
def WatermarksBelow (s : FluxEngine) (l : Lsn) : Prop :=
  ∀ t k count safe, s.pc t = .checkpoint k count safe → safe < l

/-- **The condition on the schedule**: an LSN is exposed only above all held watermarks. -/
def exposesAbove : Guard FluxEngine Action (Tid × Event) := fun s _ a =>
  ∀ t env, a = .run t env → ∀ l ∈ exposes env s.sh (s.pc t), WatermarksBelow s l

section Steps
variable {cfg : ValidConfig} {env : Env} {sh sh' : Shared} {pc pc' : Pc} {es : List Event}

/-- The batch that the step appends to the log. -/
def appended : Pc → List WalRecord
  | .durableAppend rec => [rec]
  | .appendBatch _ _ records => records
  | _ => []

/-- A step that appends: the frames that land, and the pending set as it was. -/
theorem append_step
    (hpc : (∃ rec, pc = .durableAppend rec) ∨ ∃ k states records, pc = .appendBatch k states records)
    (hs : pc.step cfg env sh = some (sh', pc', es)) :
    sh'.wal.records = sh.wal.records ++ landed env sh.wal (appended pc) ∧ sh'.lsn = sh.lsn := by
  rcases hpc with ⟨rec, rfl⟩ | ⟨k, states, records, rfl⟩ <;> simp only [Pc.step] at hs <;>
    rcases hx : env.append with _ | ⟨n, torn⟩ <;>
    simp only [hx, Option.some.injEq, Prod.mk.injEq] at hs <;> obtain ⟨rfl, -, -⟩ := hs <;>
    simp [landed, appended, hx, Log.appendFailed]

/-- The same for the frames with a pending LSN. -/
theorem mem_appended {f : WalRecord} {batch : List WalRecord}
    (hw : sh'.wal.records = sh.wal.records ++ landed env sh.wal batch) (hl : sh'.lsn = sh.lsn)
    (hf : f ∈ sh'.wal.records) (hp : f.lsn ∈ sh'.lsn.pending) :
    (f ∈ sh.wal.records ∧ f.lsn ∈ sh.lsn.pending) ∨
      f.lsn ∈ ((landed env sh.wal batch).map WalRecord.lsn).filter (· ∈ sh.lsn.pending) := by
  rw [hl] at hp
  rw [hw] at hf
  rcases List.mem_append.mp hf with hf | hf
  · exact Or.inl ⟨hf, hp⟩
  · exact Or.inr (List.mem_filter.mpr ⟨List.mem_map_of_mem hf, decide_eq_true hp⟩)

/-- A frame with a pending LSN was there before, or its LSN is exposed by the step. -/
theorem exposed_step (hs : pc.step cfg env sh = some (sh', pc', es)) {f : WalRecord}
    (hf : f ∈ sh'.wal.records) (hp : f.lsn ∈ sh'.lsn.pending) :
    (f ∈ sh.wal.records ∧ f.lsn ∈ sh.lsn.pending) ∨ f.lsn ∈ exposes env sh pc := by
  by_cases hl : isLoud pc = false
  · have hq := quiet_step hl hs
    exact Or.inl ⟨hq.wal ▸ hf, hq.pending hp⟩
  cases pc <;> simp only [isLoud, not_true] at hl
  case durableNote rec =>
    simp only [Pc.step, Option.some.injEq, Prod.mk.injEq] at hs
    obtain ⟨rfl, -, -⟩ := hs
    rcases Finset.mem_insert.mp hp with hp | hp
    · exact Or.inr (List.mem_filter.mpr ⟨List.mem_map_of_mem hf, decide_eq_true hp⟩)
    · exact Or.inl ⟨hf, hp⟩
  case durableAppend rec =>
    obtain ⟨hw, hl⟩ := append_step (Or.inl ⟨rec, rfl⟩) hs
    exact mem_appended hw hl hf hp
  case durableEnqueue rec =>
    simp only [Pc.step] at hs
    rcases hq : sh.tryEnqueue cfg (toRequest rec) with _ | sh1 <;>
      simp only [hq, Option.some.injEq, Prod.mk.injEq] at hs <;> obtain ⟨rfl, -, -⟩ := hs
    · exact Or.inl ⟨hf, hp⟩
    · obtain ⟨h1, -, h3⟩ := tryEnqueue_frame hq
      exact Or.inl ⟨h1 ▸ hf, h3 ▸ hp⟩
  case appendBatch k states records =>
    obtain ⟨hw, hl⟩ := append_step (Or.inr ⟨k, states, records, rfl⟩) hs
    exact mem_appended hw hl hf hp
  case persistBatch k states last attempt =>
    simp only [Pc.step] at hs
    repeat' split at hs
    all_goals
      simp only [Option.some.injEq, Prod.mk.injEq] at hs
      obtain ⟨rfl, -, -⟩ := hs
      exact Or.inl ⟨hf, hp⟩
  case watermark k count last =>
    simp only [Pc.step] at hs
    split at hs <;> simp only [Option.some.injEq, Prod.mk.injEq] at hs <;>
      obtain ⟨rfl, -, -⟩ := hs <;> exact Or.inl ⟨hf, hp⟩
  case checkpoint k count safe =>
    obtain ⟨wal, rfl, -, -, hrec⟩ := step_checkpoint hs
    refine Or.inl ⟨?_, hp⟩
    rcases hrec with hrec | hrec <;> simp only [hrec] at hf
    · exact (Log.mem_survivors.mp hf).1
    · exact hf

theorem exists_of_exposed {l : Lsn} {batch : List WalRecord}
    (hw : sh'.wal.records = sh.wal.records ++ landed env sh.wal batch) (hsame : sh'.lsn = sh.lsn)
    (hl : l ∈ ((landed env sh.wal batch).map WalRecord.lsn).filter (· ∈ sh.lsn.pending)) :
    ∃ f ∈ sh'.wal.records, f.lsn = l ∧ l ∈ sh'.lsn.pending := by
  obtain ⟨hm, hp⟩ := List.mem_filter.mp hl
  obtain ⟨f, hf, hfl⟩ := List.mem_map.mp hm
  rw [hw, hsame]
  exact ⟨f, List.mem_append_right _ hf, hfl, of_decide_eq_true hp⟩

/-- **A watermark is fresh when it is computed**: it is below every pending LSN. -/
theorem watermark_step {k : FlushFor} {count : ℕ} {safe : Lsn}
    (hs : pc.step cfg env sh = some (sh', .checkpoint k count safe, es)) :
    sh' = sh ∧ ∀ l ∈ sh.lsn.pending, safe < l := by
  by_cases hl : isLoud pc = false
  · cases (quiet_step hl hs).target
  cases pc <;> simp only [isLoud, not_true] at hl
  case durableNote | durableAppend | durableEnqueue | appendBatch | persistBatch =>
    simp only [Pc.step] at hs
    repeat' split at hs
    all_goals simp at hs
  case watermark k' count' last =>
    have ht := target_batchOk count' k'
    simp only [Pc.step] at hs
    split at hs <;> simp only [Option.some.injEq, Prod.mk.injEq] at hs
    · rename_i safe' hw
      obtain ⟨rfl, hpc, -⟩ := hs
      obtain ⟨-, -, rfl⟩ := Pc.checkpoint.inj hpc
      exact ⟨rfl, (LsnState.checkpointWatermark_lt hw).2⟩
    · rw [hs.2.1] at ht; cases ht
  case checkpoint k' count' safe' =>
    have ht := target_batchOk count' k'
    have ht' := (target_checkpointFailed count' k').1
    simp only [Pc.step] at hs
    rcases hx : env.checkpoint <;> simp only [hx, Option.some.injEq, Prod.mk.injEq] at hs
    · rw [hs.2.1] at ht; cases ht
    · rw [hs.2.1] at ht'; cases ht'
    · rw [hs.2.1] at ht'; cases ht'

end Steps

/-! ### The floor over runs -/

variable {cfg : ValidConfig} {s s' : FluxEngine} {h e : List (Tid × Event)} {a : Action}

/-- Every held watermark is below every pending LSN that has a frame. -/
def FramesAbove (s : FluxEngine) : Prop :=
  ∀ f ∈ s.sh.wal.records, f.lsn ∈ s.sh.lsn.pending → WatermarksBelow s f.lsn

theorem FramesAbove.respected (hi : FramesAbove s) : FloorRespected s :=
  fun t k count safe hpc f hf hle hp => absurd (hi f hf hp t k count safe hpc) (not_lt.mpr hle)

theorem FramesAbove.step (hi : FramesAbove s) (hg : exposesAbove s h a)
    (hs : s.step cfg a = some (s', e)) : FramesAbove s' := by
  rcases step_cases hs with ⟨n, c, -, -, -, rfl⟩ | ⟨t, env, sh, pc, es, rfl, hstep, -, rfl⟩ |
    ⟨-, -, rfl⟩
  · intro f hf hp u k count safe hpc
    by_cases hu : u = .client n
    · subst hu
      simp only [Function.update_self] at hpc
      cases c <;> cases hpc
    · simp only [Function.update_of_ne hu] at hpc
      exact hi f hf hp u k count safe hpc
  · intro f hf hp u k count safe hpc
    by_cases hu : u = t
    · subst hu
      simp only [Function.update_self] at hpc
      subst hpc
      obtain ⟨rfl, hbelow⟩ := watermark_step hstep
      exact hbelow _ hp
    · simp only [Function.update_of_ne hu] at hpc
      rcases exposed_step hstep hf hp with ⟨hf, hp⟩ | hx
      · exact hi f hf hp u k count safe hpc
      · exact hg t env rfl _ hx u k count safe hpc
  · exact hi

/-- **The condition is needed**: a step that lets an LSN be exposed at or below a watermark that a
thread holds leaves that thread about to remove a frame whose LSN is pending. -/
theorem exposed_breaks {t u : Tid} {env : Env} {l safe : Lsn} {k : FlushFor} {count : ℕ}
    (hs : s.step cfg (.run t env) = some (s', e)) (hl : l ∈ exposes env s.sh (s.pc t))
    (hu : s.pc u = .checkpoint k count safe) (hle : l ≤ safe) : ¬ FloorRespected s' := by
  obtain ⟨sh, pc, es, hstep, rfl⟩ : ∃ sh pc es, (s.pc t).step cfg env s.sh = some (sh, pc, es) ∧
      s' = { sh := sh, pc := Function.update s.pc t pc } := by
    rcases step_cases hs with ⟨n, c, hr, -⟩ | ⟨t', env', sh, pc, es, hr, hstep, -, rfl⟩ | ⟨hr, -⟩
    · cases hr
    · cases hr
      exact ⟨sh, pc, es, hstep, rfl⟩
    · cases hr
  have hut : u ≠ t := by
    rintro rfl
    rw [hu] at hl
    cases hl
  have hu' : Function.update s.pc t pc u = .checkpoint k count safe := by
    rw [Function.update_of_ne hut, hu]
  suffices hx : ∃ f ∈ sh.wal.records, f.lsn = l ∧ l ∈ sh.lsn.pending by
    obtain ⟨f, hf, rfl, hp⟩ := hx
    exact fun hfloor => hfloor u k count safe hu' f hf hle hp
  rcases hpc : s.pc t <;> rw [hpc] at hl hstep <;> try exact absurd hl List.not_mem_nil
  case durableNote rec =>
    obtain ⟨hm, hl⟩ := List.mem_filter.mp hl
    obtain ⟨f, hf, hfl⟩ := List.mem_map.mp hm
    obtain rfl := of_decide_eq_true hl
    simp only [Pc.step, Option.some.injEq, Prod.mk.injEq] at hstep
    obtain ⟨rfl, -, -⟩ := hstep
    exact ⟨f, hf, hfl, Finset.mem_insert_self _ _⟩
  case durableAppend rec =>
    obtain ⟨hw, hsame⟩ := append_step (Or.inl ⟨rec, rfl⟩) hstep
    exact exists_of_exposed hw hsame hl
  case appendBatch kf states records =>
    obtain ⟨hw, hsame⟩ := append_step (Or.inr ⟨kf, states, records, rfl⟩) hstep
    exact exists_of_exposed hw hsame hl

/-! ### Replays -/

/-- A check that implies the condition where the threads that are not listed are idle. -/
def exposesAboveCheck (threads : List Tid) (s : FluxEngine) (a : Action) : Bool :=
  actsIn threads a &&
    match a with
    | .run t env =>
      (exposes env s.sh (s.pc t)).all fun l =>
        threads.all fun u =>
          match s.pc u with
          | .checkpoint _ _ safe => decide (safe < l)
          | _ => true
    | _ => true

theorem exposesAbove_of_check {threads : List Tid} (hj : OthersIdle threads s h)
    (hg : exposesAboveCheck threads s a = true) : exposesAbove s h a := by
  rintro t env rfl l hl u k count safe hu
  simp only [exposesAboveCheck, Bool.and_eq_true, List.all_eq_true] at hg
  have hmem : u ∈ threads := by
    by_contra hno
    rw [hj u hno] at hu
    cases hu
  have hlt := hg.2 l hl u hmem
  rw [hu] at hlt
  exact of_decide_eq_true hlt

theorem actsIn_of_check {threads : List Tid} (hg : exposesAboveCheck threads s a = true) :
    actsIn threads a = true := (Bool.and_eq_true _ _ ▸ hg).1

/-! ### The promise -/

/-- What the condition gives in every state. -/
theorem framesAbove_run {ok : Guard FluxEngine Action (Tid × Event)}
    (hok : ∀ s h a, ok s h a → exposesAbove s h a) (hr : Run (system cfg) ok s h) : FramesAbove s := by
  refine hr.invariant (I := fun s _ => FramesAbove s) ?_ ?_
  · rintro _ ⟨wal, table, rfl⟩ f - hp
    simp [start, LsnState.new] at hp
  · exact fun s h a s' e _ hi hg hs => hi.step (hok _ _ _ hg) hs

/-- **The checkpoint floor is respected** in every run that exposes LSNs only above all held
watermarks. -/
theorem floor_respected (hr : Run (system cfg) exposesAbove s h) : FloorRespected s :=
  (framesAbove_run (fun _ _ _ hok => hok) hr).respected

theorem floor_respected_durable : ∃ s h, Run (system oneByOne) exposesAbove s h ∧
    s.pc .worker = .checkpoint .steady 1 0 ∧ (1 : Lsn) ∈ s.sh.lsn.pending ∧
    ⟨1, 7, 1, []⟩ ∈ s.sh.wal.records ∧ FloorRespected s := by
  obtain ⟨s, h, hr, -, hp⟩ := exists_run_of_exec_inv (system oneByOne) exposesAbove
    (OthersIdle [.worker, .client 0, .client 1])
    (fun s _ => exposesAboveCheck [.worker, .client 0, .client 1] s)
    (fun _ _ _ _ _ hj hg => hj.step (actsIn_of_check hg)) (fun _ _ _ => exposesAbove_of_check)
    (start Log.empty fun _ => none)
    ([Machine.Action.call 0 (.submitDurable 7 1 []), .run (.client 0) (.fine []),
        .run (.client 0) (.fine []), .call 1 (.submit 8 1 []), .run (.client 1) (.fine []),
        .run (.client 1) (.fine [])] ++
      List.replicate 11 (Machine.Action.run .worker (.fine [8])) ++
      [Machine.Action.run (.client 0) (.fine [])])
    (fun x => decide (x.1.pc .worker = .checkpoint .steady 1 0) &&
      decide ((1 : Lsn) ∈ x.1.sh.lsn.pending) &&
      decide ((⟨1, 7, 1, []⟩ : WalRecord) ∈ x.1.sh.wal.records))
    ⟨_, _, rfl⟩ (othersIdle_start _ (by decide) _ _) (by decide)
  simp only [Bool.and_eq_true, decide_eq_true_eq] at hp
  exact ⟨s, h, hr, hp.1.1, hp.1.2, hp.2, floor_respected hr⟩

/-- The floor can be passed: a flush computes its watermark while a durable write with a lower LSN is
not pending yet, and uses it when that write's frame is in the log. -/
theorem floor_passed : ¬ ∀ (cfg : ValidConfig) (s : FluxEngine) (h : List (Tid × Event)),
    Run (system cfg) anyStep s h → FloorRespected s := by
  intro hall
  obtain ⟨s, h, hr, hp⟩ := exists_run_of_exec (system oneByOne) anyStep (fun _ _ _ => true)
    (fun _ _ _ _ => trivial) (start Log.empty fun _ => none)
    ([Machine.Action.call 0 (.submitDurable 7 1 []), .run (.client 0) (.fine []), .call 1 (.submit 8 1 []),
        .run (.client 1) (.fine []), .run (.client 1) (.fine [])] ++
      List.replicate 11 (Machine.Action.run .worker (.fine [8])) ++
      List.replicate 2 (Machine.Action.run (.client 0) (.fine [])))
    (fun x => decide (x.1.pc .worker = .checkpoint .steady 1 3) &&
      decide ((⟨1, 7, 1, []⟩ : WalRecord) ∈ x.1.sh.wal.records) &&
      decide ((1 : Lsn) ∈ x.1.sh.lsn.pending))
    ⟨_, _, rfl⟩ (by decide)
  simp only [Bool.and_eq_true, decide_eq_true_eq] at hp
  exact hall oneByOne s h hr .worker .steady 1 3 hp.1.1 _ hp.1.2 (by decide) hp.2

end FluxThroughput.Engine.Floor
