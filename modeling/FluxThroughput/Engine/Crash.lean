import FluxThroughput.Engine.Checkpoint
import FluxThroughput.Engine.Exact
import FluxThroughput.Engine.Lifetimes
import FluxThroughput.Engine.OnDisk
import FluxThroughput.Wal.Kills

/-! # The engine across crashes

The engine on its files refines the machine of `Engine.Lifetimes`, whose log is atomic: its memory and its
store are those of the machine, and its directory holds the machine's log, with a torn tail perhaps while
no process runs (`Refines`). A kill inside a call of the log is a call that fails and then a restart. So
every run on disk has a run of the machine beside it that shows the same events
(`engine_refines_machine`), and what the machine's log keeps, a later start reads from the file
(`logged_survives_crashes`). -/

namespace FluxThroughput.Engine.Crash

open FluxThroughput.Domain.Types FluxThroughput.Domain.Frame FluxThroughput.Cache.WriteBehind
open FluxThroughput.Store.Mock FluxThroughput.Wal.Atomic FluxThroughput.Wal.Segment
open FluxThroughput.Wal.File FluxThroughput.Wal.Refine
open FluxThroughput.Engine.Config FluxThroughput.Engine.Machine FluxThroughput.Engine.NoLoss
open FluxThroughput.Engine.Events FluxThroughput.Engine.Checkpoint FluxThroughput.Engine.OnDisk
open FluxThroughput.Lib.Transition

/-! ### The relation -/

/-- The directory holds the records, with a torn tail perhaps, or no header yet. -/
def Stored (d : Disk) (records : List WalRecord) : Prop :=
  (∃ file torn, OnDisk d file records torn) ∨ (records = [] ∧ Wal.Kills.Blank d)

/-- **The node refines the world.** -/
structure Refines (s : Node) (w : Lifetimes.World) : Prop where
  table : w.engine.sh.table = s.table
  down : s.memory = none → Stored s.disk w.engine.sh.wal.records
  up : ∀ m, s.memory = some m → w.cfg = m.cfg ∧
    w.engine = ⟨m.shared w.engine.sh.wal s.table, m.pc⟩ ∧ Implements s.disk m.inner w.engine.sh.wal

/-- What is seen of a history: a `flush_now` that returns an error is not told from one that is killed. -/
def visible (h : List (Tid × Event)) : List (Tid × Event) :=
  h.filter fun x => x.2 ≠ .flushNowReturned none

theorem visible_append (h e : List (Tid × Event)) : visible (h ++ e) = visible h ++ visible e :=
  List.filter_append ..

/-- The records that the thread's call writes. -/
def writing : Pc → List WalRecord
  | .durableAppend rec => [rec]
  | .appendBatch _ _ records => records
  | _ => []

/-- The thread that makes a step, or is killed in one. -/
def thread : OnDisk.Action → Option Tid
  | .run t _ => some t
  | .callKilled t _ _ => some t
  | _ => none

/-- The records written have frames shorter than `2 ^ 32` bytes. -/
def fitting : Guard Node OnDisk.Action (Tid × Event) := fun s _ a =>
  ∀ m t, s.memory = some m → thread a = some t → ∀ rec ∈ writing (m.pc t), Fits rec

/-- No checkpoint fails after its rename, unless the process is killed there. -/
def keepsWriter (a : OnDisk.Action) : Prop :=
  ∀ t env stop, a = .run t env → env.stopped = some stop → stop.renamed = false

/-- **A step on disk beside the machine's.** The machine makes none, or one that shows the same events;
if it is a thread's step, it is the same thread's. -/
structure Beside (s s' : Node) (w w' : Lifetimes.World) (a : OnDisk.Action) (e : List (Tid × Event)) :
    Prop where
  refines : Refines s' w'
  steps : (w' = w ∧ e = []) ∨ ∃ a' e', w.step a' = some (w', e') ∧ visible e' = visible e ∧
    ∀ t env, a' = .act (.run t env) → thread a = some t
  attached : keepsWriter a → (s.memory ≠ none → w.engine.sh.wal.attached = true) → s'.memory ≠ none →
    w'.engine.sh.wal.attached = true

/-! ### Starting -/

section Start
variable {d : Disk} {file : ℕ} {records : List WalRecord} {torn : Bytes} {inner : Wal.File.Inner}

/-- After `recover` the files implement the log it returns. -/
theorem recover_implements (hd : OnDisk d file records torn) (hw : AtEnd d inner file) :
    ∃ d' inner', recover d inner = some (records, d', inner') ∧ ∀ log : Log, log.records = records →
      Implements d' inner' log.recover.2 := by
  obtain ⟨d', inner', hrec, hd', hw', hagain⟩ := hd.recover hw
  refine ⟨d', inner', hrec, fun log hlog => ?_⟩
  subst hlog
  have hsame := hagain.symm.trans (hd'.recoverWhole hw'.buffer)
  obtain ⟨-, hinner⟩ := Prod.mk.inj (Prod.mk.inj (Option.some.inj hsame)).2
  have hlast : inner'.lastLsn = (log.records.map WalRecord.lsn).max?.getD 0 := by
    have := congrArg Wal.File.Inner.lastLsn hinner
    exact this
  refine ⟨⟨file, hd', fun _ => hw', fun h => by cases h⟩, hw'.buffer, hlast, ?_, fun htemp => ?_⟩
  · rw [hw'.handle]
    exact hd'.used
  · exact (hd'.temp _ htemp).1 hw'.handle

/-- Opening what is stored stands at the end of the segment. -/
theorem Stored.open (h : Stored d records) : ∃ d' inner file torn, openWal d = some (d', inner) ∧
    OnDisk d' file records torn ∧ AtEnd d' inner file := by
  rcases h with ⟨file, torn, hd⟩ | ⟨rfl, hb⟩
  · exact ⟨d, _, file, torn, hd.openWal, hd, atEnd_new⟩
  · obtain ⟨d', inner, file, hopen, hd, hw⟩ := hb.openWal
    exact ⟨d', inner, file, [], hopen, hd, hw⟩

/-- **`start` succeeds** on what is stored, and the machine starts on the log. -/
theorem startOn_eq {log : Log} (h : Stored d log.records) (cfg : ValidConfig) (table : Table)
    (allocated : ℕ) : ∃ s', startOn cfg d table = some s' ∧ (∃ m, s'.memory = some m) ∧
      Refines s' (Lifetimes.World.start cfg log table allocated) := by
  obtain ⟨d1, inner1, file, torn, hopen, hd, hw⟩ := h.open
  obtain ⟨d2, inner2, hrec, himp⟩ := recover_implements hd hw
  have hstart : startOn cfg d table = some ⟨d2, table, some (Memory.start cfg log.records inner2)⟩ := by
    simp only [startOn, hopen, hrec, Option.bind_eq_bind, Option.bind_some]
    rfl
  refine ⟨_, hstart, ⟨_, rfl⟩, rfl, fun hnone => (by cases hnone), fun m hm => ?_⟩
  obtain rfl := Option.some.inj hm
  exact ⟨rfl, rfl, himp log rfl⟩

/-- A start that is killed leaves what is stored. -/
theorem Stored.startKilled (h : Stored d records) (cut : StartCut) :
    Stored (OnDisk.startKilled d cut) records := by
  cases cut with
  | opening n =>
    rcases h with ⟨file, torn, hd⟩ | ⟨rfl, hb⟩
    · refine Or.inl ⟨file, torn, ?_⟩
      rw [OnDisk.startKilled, hd.openKilled]
      exact hd
    · rcases hb.openKilled n with hb' | ⟨file, hd⟩
      · exact Or.inr ⟨rfl, hb'⟩
      · exact Or.inl ⟨file, [], hd⟩
  | recovering truncated =>
    obtain ⟨d1, inner1, file, torn, hopen, hd, hw⟩ := h.open
    obtain ⟨torn', hd'⟩ := hd.recoverKilled hw truncated
    refine Or.inl ⟨file, torn', ?_⟩
    simp only [OnDisk.startKilled, hopen]
    exact hd'

end Start

/-! ### Steps of a thread -/

section Thread
variable {s s' : Node} {w : Lifetimes.World} {m : Memory} {t : Tid} {env : DiskEnv} {es : List Event}

theorem Refines.engine (hr : Refines s w) (hm : s.memory = some m) :
    w.engine = ⟨m.shared w.engine.sh.wal s.table, m.pc⟩ := (hr.up m hm).2.1

theorem Refines.implements (hr : Refines s w) (hm : s.memory = some m) :
    Implements s.disk m.inner w.engine.sh.wal := (hr.up m hm).2.2

theorem Refines.pc (hr : Refines s w) (hm : s.memory = some m) (t : Tid) : w.engine.pc t = m.pc t := by
  rw [hr.engine hm]

theorem Refines.stored (hr : Refines s w) : Stored s.disk w.engine.sh.wal.records := by
  rcases hm : s.memory with _ | m
  · exact hr.down hm
  · obtain ⟨file, hd, -⟩ := (hr.implements hm).stored
    exact Or.inl ⟨file, [], hd⟩

/-- The world after a thread's step of the machine. -/
def ran (w : Lifetimes.World) (t : Tid) (env : Env) (sh : Shared) (pc : Pc) : Lifetimes.World :=
  w.record { sh := sh, pc := Function.update w.engine.pc t pc } (.run t env)

/-- The machine's thread makes its step. -/
theorem ran_step {env : Env} {sh : Shared} {pc : Pc}
    (h : (w.engine.pc t).step w.cfg env w.engine.sh = some (sh, pc, es)) :
    w.step (.act (.run t env)) = some (ran w t env sh pc, tagged t es) := by
  rw [Lifetimes.World.step, FluxEngine.step, h]
  rfl

/-- The files and the memory after the step are those of the machine. -/
theorem refines_ran (hr : Refines s w) (hm : s.memory = some m) (m' : Memory) (table : Table) {d : Disk}
    {env : Env} {log : Log} {pc : Pc} (hcfg : m'.cfg = m.cfg) (hpc : m'.pc = Function.update m.pc t pc)
    (himp : Implements d m'.inner log) :
    Refines ⟨d, table, some m'⟩ (ran w t env (m'.shared log table) pc) := by
  refine ⟨rfl, fun hnone => (by cases hnone), fun m1 hm1 => ?_⟩
  obtain rfl := Option.some.inj hm1
  refine ⟨(hr.up m hm).1.trans hcfg.symm, ?_, himp⟩
  have hpcs : w.engine.pc = m.pc := funext fun u => hr.pc hm u
  simp only [ran, Lifetimes.World.record, hpcs, hpc]
  rfl

/-- The machine's thread makes the same step, with the log's answers. -/
theorem Refines.machine (hr : Refines s w) (hm : s.memory = some m) {env : Env} {sh : Shared} {pc : Pc}
    (h : (m.pc t).step m.cfg env (m.shared w.engine.sh.wal s.table) = some (sh, pc, es)) :
    (w.engine.pc t).step w.cfg env w.engine.sh = some (sh, pc, es) := by
  have hsh : w.engine.sh = m.shared w.engine.sh.wal s.table := congrArg FluxEngine.sh (hr.engine hm)
  rw [hr.pc hm, (hr.up m hm).1, hsh]
  exact h

/-- A step of the machine that shows the same events is beside the step on disk. -/
theorem beside_ran {env' : Env} {a : OnDisk.Action} {sh : Shared} {pc : Pc} {es' : List Event}
    {e : List (Tid × Event)} (hm : s.memory = some m) (ha : thread a = some t)
    (hstep : (w.engine.pc t).step w.cfg env' w.engine.sh = some (sh, pc, es'))
    (hvis : visible (tagged t es') = visible e) (href : Refines s' (ran w t env' sh pc))
    (hatt : keepsWriter a → w.engine.sh.wal.attached = true → s'.memory ≠ none → sh.wal.attached = true) :
    Beside s s' w (ran w t env' sh pc) a e := by
  refine ⟨href, Or.inr ⟨_, _, ran_step hstep, hvis, fun u env1 heq => ?_⟩, fun hkeep hup => ?_⟩
  · obtain ⟨rfl, -⟩ := Machine.Action.run.inj (Lifetimes.Action.act.inj heq)
    exact ha
  · exact hatt hkeep (hup (by rw [hm]; exact Option.some_ne_none m))

/-- A step that makes no call of the log. -/
theorem plain_beside (hr : Refines s w) (hm : s.memory = some m) (hcall : callsLog (m.pc t) = false)
    (hs : m.plainStep s.disk s.table t env = some (s', es)) :
    ∃ w', Beside s s' w w' (.run t env) (tagged t es) := by
  obtain ⟨⟨sh, pc, es'⟩, hmach, heq⟩ := Option.map_eq_some_iff.mp hs
  obtain ⟨rfl, rfl⟩ := Prod.mk.inj heq
  have hframe : (m.pc t).step m.cfg env.toEnv (m.shared w.engine.sh.wal s.table) = _ :=
    step_of_not_callsLog hcall (m.shared Log.empty s.table) w.engine.sh.wal
  rw [hmach] at hframe
  have himp := hr.implements hm
  exact ⟨_, beside_ran hm rfl (hr.machine hm hframe) rfl
    (refines_ran hr hm (m.after t sh pc) sh.table rfl rfl himp) fun _ hatt _ => hatt⟩

/-- A durable write that is appended. -/
theorem durable_beside (hr : Refines s w) (hm : s.memory = some m) {rec : WalRecord}
    (hpc : m.pc t = .durableAppend rec) (hfit : Fits rec)
    (hs : m.step s.disk s.table t env = some (s', es)) :
    ∃ w', Beside s s' w w' (.run t env) (tagged t es) := by
  have hall : ∀ r ∈ [rec], Fits r := fun r hmem => by
    rw [List.mem_singleton.mp hmem]
    exact hfit
  obtain ⟨-, himp⟩ := (hr.implements hm).appendBatch hall
  simp only [Memory.step, hpc, Option.some.injEq, Prod.mk.injEq] at hs
  obtain ⟨rfl, rfl⟩ := hs
  have hmach : (m.pc t).step m.cfg env.toEnv (m.shared w.engine.sh.wal s.table) =
      some (m.shared (w.engine.sh.wal.appendBatch [rec]).2 s.table, .durableEnqueue rec,
        [.durableLogged rec]) := by
    rw [hpc]
    rfl
  refine ⟨_, beside_ran hm rfl (hr.machine hm hmach) rfl (refines_ran hr hm _ _ rfl rfl himp)
    fun _ hatt _ => ?_⟩
  exact (Log.attached_appendBatch _ _).trans hatt

/-- A batch that is appended. -/
theorem batch_beside (hr : Refines s w) (hm : s.memory = some m) {k : FlushFor} {states : List PlayerState}
    {records : List WalRecord} (hpc : m.pc t = .appendBatch k states records)
    (hfit : ∀ rec ∈ records, Fits rec) (hs : m.step s.disk s.table t env = some (s', es)) :
    ∃ w', Beside s s' w w' (.run t env) (tagged t es) := by
  obtain ⟨hlast, himp⟩ := (hr.implements hm).appendBatch hfit
  simp only [Memory.step, hpc, Option.some.injEq, Prod.mk.injEq] at hs
  obtain ⟨rfl, rfl⟩ := hs
  have hmach : (m.pc t).step m.cfg env.toEnv (m.shared w.engine.sh.wal s.table) =
      some (m.shared (w.engine.sh.wal.appendBatch records).2 s.table,
        .persistBatch k states (proposal (Wal.File.appendBatch s.disk m.inner records).1 records k) 0,
        [.logged records]) := by
    rw [hpc, hlast]
    rfl
  refine ⟨_, beside_ran hm rfl (hr.machine hm hmach) rfl (refines_ran hr hm _ _ rfl rfl himp)
    fun _ hatt _ => ?_⟩
  exact (Log.attached_appendBatch _ _).trans hatt

/-- A checkpoint, which may fail. -/
theorem checkpoint_beside (hr : Refines s w) (hm : s.memory = some m) {k : FlushFor} {count : ℕ}
    {safe : Lsn} (hpc : m.pc t = .checkpoint k count safe)
    (hs : m.step s.disk s.table t env = some (s', es)) :
    ∃ w', Beside s s' w w' (.run t env) (tagged t es) := by
  have himp := hr.implements hm
  rcases hstop : env.stopped with _ | stop
  · obtain ⟨d', inner', hc, himp'⟩ := himp.checkpoint safe
    simp only [Memory.step, hpc, hstop, hc, Option.some.injEq, Prod.mk.injEq] at hs
    obtain ⟨rfl, rfl⟩ := hs
    have hmach : (m.pc t).step m.cfg env.toEnv (m.shared w.engine.sh.wal s.table) =
        some (m.shared (w.engine.sh.wal.checkpoint safe) s.table, batchOk count k, []) := by
      rw [hpc]
      simp only [Pc.step, DiskEnv.toEnv, hstop, outcome]
      rfl
    exact ⟨_, beside_ran hm rfl (hr.machine hm hmach) rfl
      (refines_ran hr hm (m.called t inner' _) s.table rfl rfl himp') fun _ _ _ => rfl⟩
  · obtain ⟨d', hc, himp'⟩ := himp.checkpointStopped safe stop
    simp only [Memory.step, hpc, hstop, hc, Option.some.injEq, Prod.mk.injEq] at hs
    obtain ⟨rfl, rfl⟩ := hs
    have hmach : (m.pc t).step m.cfg env.toEnv (m.shared w.engine.sh.wal s.table) =
        some (m.shared (if stop.renamed then w.engine.sh.wal.checkpointFailedAfter safe
          else w.engine.sh.wal) s.table, (checkpointFailed count k).1, (checkpointFailed count k).2) := by
      rw [hpc]
      simp only [Pc.step, DiskEnv.toEnv, hstop, outcome]
      cases stop.renamed <;> rfl
    refine ⟨_, beside_ran hm rfl (hr.machine hm hmach) rfl
      (refines_ran hr hm (m.called t m.inner _) s.table rfl rfl himp') fun hkeep hatt _ => ?_⟩
    have hno := hkeep t env stop rfl hstop
    simp only [Memory.shared, hno, Bool.false_eq_true, if_false]
    exact hatt

/-- **A thread's step.** -/
theorem run_beside (hr : Refines s w) (hm : s.memory = some m) (hfit : ∀ rec ∈ writing (m.pc t), Fits rec)
    (hs : m.step s.disk s.table t env = some (s', es)) :
    ∃ w', Beside s s' w w' (.run t env) (tagged t es) := by
  have hstep := hs
  unfold Memory.step at hs
  split at hs
  · next rec hpc =>
    refine durable_beside hr hm hpc (hfit rec ?_) hstep
    rw [hpc]
    exact List.mem_singleton_self rec
  · next k states records hpc =>
    rw [hpc] at hfit
    exact batch_beside hr hm hpc hfit hstep
  · next k count safe hpc => exact checkpoint_beside hr hm hpc hstep
  · next h1 h2 h3 =>
    refine plain_beside hr hm ?_ hs
    rcases hpc : m.pc t with _ | _ <;> first | rfl | skip
    · exact absurd hpc (h1 _)
    · exact absurd hpc (h2 _ _ _)
    · exact absurd hpc (h3 _ _ _)

end Thread

/-! ### Kills inside a call of the log -/

section Killed
variable {s s' : Node} {w : Lifetimes.World} {m : Memory} {t : Tid} {d : Disk} {inner : Wal.File.Inner}
  {log : Log} {batch : List WalRecord}

theorem stored_of_implements (h : Implements d inner log) : Stored d log.records := by
  obtain ⟨file, hd, -⟩ := h.stored
  exact Or.inl ⟨file, [], hd⟩

/-- An append that is killed is one that fails, behind some whole frames. -/
theorem stored_appendKilled (h : Implements d inner log) (hfit : ∀ rec ∈ batch, Fits rec) (n : ℕ) :
    ∃ landed, Stored (appendKilled d inner batch n) (log.appendFailed batch landed true).records := by
  obtain ⟨file, hd, hatt, hdet⟩ := h.stored
  rcases ha : log.attached with _ | _
  · refine ⟨0, Or.inl ⟨file, [], ?_⟩⟩
    have hsame : (log.appendFailed batch 0 true).records = log.records := by
      simp only [Log.appendFailed, Log.landing, ha, Bool.false_eq_true, if_false, List.append_nil]
    rw [hsame]
    exact hd.setOther (hdet ha) _
  · obtain ⟨landed, torn, hd'⟩ := hd.appendCut (hatt ha) hfit n
    refine ⟨landed, Or.inl ⟨file, torn, ?_⟩⟩
    have hland : (log.appendFailed batch landed true).records = log.records ++ batch.take landed := by
      simp only [Log.appendFailed, Log.landing_of_attached ha]
    rw [hland]
    exact hd'

/-- The machine's step beside a kill. -/
theorem beside_killed {env : Env} {a : OnDisk.Action} {pc : Pc} {es : List Event} (hr : Refines s w)
    (hm : s.memory = some m) (ha : thread a = some t) (hlog : Stored d log.records)
    (hmach : (m.pc t).step m.cfg env (m.shared w.engine.sh.wal s.table) =
      some (m.shared log s.table, pc, es)) (hvis : visible (tagged t es) = []) :
    ∃ w', Beside s ⟨d, s.table, none⟩ w w' a [] :=
  ⟨_, beside_ran hm ha (hr.machine hm hmach) hvis
    ⟨rfl, fun _ => hlog, fun _ hsome => (by cases hsome)⟩ fun _ _ hup => absurd rfl hup⟩

/-- **A kill inside a call of the log** is a call that fails. -/
theorem callKilled_beside (hr : Refines s w) (hm : s.memory = some m)
    (hfit : ∀ rec ∈ writing (m.pc t), Fits rec) {n : ℕ} {stop : Stop}
    (hs : OnDisk.callKilled s.disk m.inner n stop (m.pc t) = some d) :
    ∃ w', Beside s ⟨d, s.table, none⟩ w w' (.callKilled t n stop) [] := by
  have himp := hr.implements hm
  unfold OnDisk.callKilled at hs
  split at hs
  · next rec hpc =>
    rw [hpc] at hfit
    obtain rfl := Option.some.inj hs
    obtain ⟨landed, hst⟩ := stored_appendKilled himp hfit n
    have hmach : (m.pc t).step m.cfg { Env.fine [] with append := .failed landed true }
        (m.shared w.engine.sh.wal s.table) =
          some (m.shared (w.engine.sh.wal.appendFailed [rec] landed true) s.table, .durableClear rec,
            []) := by
      rw [hpc]
      rfl
    exact beside_killed hr hm rfl hst hmach rfl
  · next k states records hpc =>
    rw [hpc] at hfit
    obtain rfl := Option.some.inj hs
    obtain ⟨landed, hst⟩ := stored_appendKilled himp hfit n
    have hmach : (m.pc t).step m.cfg { Env.fine [] with append := .failed landed true }
        (m.shared w.engine.sh.wal s.table) =
          some (m.shared (w.engine.sh.wal.appendFailed records landed true) s.table,
            .requeue k states, []) := by
      rw [hpc]
      rfl
    exact beside_killed hr hm rfl hst hmach rfl
  · next k count safe hpc =>
    obtain ⟨d', hc, himp'⟩ := himp.checkpointStopped safe stop
    rw [hc] at hs
    obtain rfl := Option.some.inj hs
    have hmach : (m.pc t).step m.cfg { Env.fine [] with checkpoint := outcome (some stop) }
        (m.shared w.engine.sh.wal s.table) =
          some (m.shared (if stop.renamed then w.engine.sh.wal.checkpointFailedAfter safe
            else w.engine.sh.wal) s.table, (checkpointFailed count k).1, (checkpointFailed count k).2) := by
      rw [hpc]
      simp only [Pc.step, outcome]
      cases stop.renamed <;> rfl
    refine beside_killed hr hm rfl (stored_of_implements himp') hmach ?_
    cases k <;> rfl
  · cases hs

end Killed

/-! ### Runs -/

section Runs
variable {s s' : Node} {w : Lifetimes.World} {h e : List (Tid × Event)} {a : OnDisk.Action}

/-- A step that ends without a process, and changes nothing for the machine. -/
theorem beside_stay (href : Refines s' w) (hdown : s'.memory = none) : Beside s s' w w a [] :=
  ⟨href, Or.inl ⟨rfl, rfl⟩, fun _ _ hup => absurd hdown hup⟩

/-- A step of the machine that is no thread's. -/
theorem beside_other {w' : Lifetimes.World} {a' : Lifetimes.Action} (hstep : w.step a' = some (w', e))
    (href : Refines s' w') (hno : ∀ t env, a' ≠ .act (.run t env))
    (hatt : (s.memory ≠ none → w.engine.sh.wal.attached = true) → w'.engine.sh.wal.attached = true) :
    Beside s s' w w' a e :=
  ⟨href, Or.inr ⟨a', e, hstep, rfl, fun t env heq => absurd heq (hno t env)⟩, fun _ h _ => hatt h⟩

/-- Another program counter or stop flag, with the files and the log as they were. -/
theorem refines_engine {m m' : Memory} {engine : FluxEngine} (hr : Refines s w) (hm : s.memory = some m)
    (hcfg : m'.cfg = m.cfg) (hinner : m'.inner = m.inner)
    (hengine : engine = ⟨m'.shared w.engine.sh.wal s.table, m'.pc⟩) :
    Refines { s with memory := some m' } { w with engine := engine } := by
  subst hengine
  refine ⟨rfl, fun hnone => (by cases hnone), fun m1 hm1 => ?_⟩
  obtain rfl := Option.some.inj hm1
  refine ⟨(hr.up m hm).1.trans hcfg.symm, rfl, ?_⟩
  rw [hinner]
  exact hr.implements hm

/-- **Every step on disk has a step of the machine beside it.** -/
theorem step_beside (hr : Refines s w) (hfit : fitting s h a) (hs : s.step a = some (s', e)) :
    ∃ w', Beside s s' w w' a e := by
  obtain ⟨d, table, memory⟩ := s
  rcases memory with _ | m
  · cases a with
    | start cfg =>
      obtain ⟨s1, hs1, heq⟩ := Option.map_eq_some_iff.mp hs
      obtain ⟨rfl, rfl⟩ := Prod.mk.inj heq
      obtain ⟨s2, hs2, -, href⟩ := startOn_eq (hr.down rfl) cfg table w.allocated
      obtain rfl := Option.some.inj (hs1.symm.trans hs2)
      have htable : w.engine.sh.table = table := hr.table
      rw [← htable] at href
      have hstep : w.step (.restart cfg) =
          some (.start cfg w.engine.sh.wal w.engine.sh.table w.allocated, []) := rfl
      exact ⟨_, beside_other hstep href (fun _ _ h => by cases h) fun _ => rfl⟩
    | startKilled cut =>
      obtain ⟨rfl, rfl⟩ := Prod.mk.inj (Option.some.inj hs)
      exact ⟨w, beside_stay ⟨hr.table, fun _ => (hr.down rfl).startKilled cut,
        fun _ hsome => (by cases hsome)⟩ rfl⟩
    | _ => cases hs
  · have hpcs : w.engine.pc = m.pc := funext fun u => hr.pc rfl u
    have hengine := hr.engine rfl
    cases a with
    | call n c =>
      simp only [Node.step] at hs
      split at hs
      · next hidle =>
        obtain ⟨rfl, rfl⟩ := Prod.mk.inj (Option.some.inj hs)
        have hstep : w.step (.act (.call n c)) = some ({ w with
            engine := { w.engine with pc := Function.update w.engine.pc (.client n) c.entry.1 } },
            tagged (.client n) c.entry.2) := by
          simp only [Lifetimes.World.step, FluxEngine.step, hpcs, hidle]
          rfl
        refine ⟨_, beside_other hstep (refines_engine hr rfl rfl rfl ?_) (fun _ _ h => by cases h)
          fun hup => hup (Option.some_ne_none m)⟩
        rw [hengine]
        rfl
      · cases hs
    | run t env =>
      obtain ⟨⟨s1, es⟩, hs1, heq⟩ := Option.map_eq_some_iff.mp hs
      obtain ⟨rfl, rfl⟩ := Prod.mk.inj heq
      exact run_beside hr rfl (hfit m t rfl rfl) hs1
    | shutdown =>
      obtain ⟨rfl, rfl⟩ := Prod.mk.inj (Option.some.inj hs)
      have hstep : w.step (.act .shutdown) = some ({ w with
          engine := { w.engine with sh := { w.engine.sh with stop := true } } }, []) := rfl
      refine ⟨_, beside_other hstep (refines_engine hr rfl rfl rfl ?_) (fun _ _ h => by cases h)
        fun hup => hup (Option.some_ne_none m)⟩
      rw [hengine]
      rfl
    | callKilled t n stop =>
      obtain ⟨d', hd', heq⟩ := Option.map_eq_some_iff.mp hs
      obtain ⟨rfl, rfl⟩ := Prod.mk.inj heq
      exact callKilled_beside hr rfl (hfit m t rfl rfl) hd'
    | kill =>
      obtain ⟨rfl, rfl⟩ := Prod.mk.inj (Option.some.inj hs)
      exact ⟨w, beside_stay ⟨hr.table, fun _ => hr.stored, fun _ hsome => (by cases hsome)⟩ rfl⟩
    | _ => cases hs

theorem refines_init (hinit : system.init s) : ∃ table, Refines s (.start oneByOne Log.empty table 0) := by
  obtain ⟨table, rfl⟩ := hinit
  exact ⟨table, rfl, fun _ => Or.inr ⟨rfl, Wal.Kills.blank_empty⟩, fun _ hsome => (by cases hsome)⟩

/-- The segment reads as the machine's log. -/
theorem Stored.segmentRecords {d : Disk} {records : List WalRecord} (h : Stored d records) :
    segmentRecords d = records := by
  unfold OnDisk.segmentRecords Disk.readAll
  rcases h with ⟨file, torn, hd⟩ | ⟨rfl, hb⟩
  · simp only [hd.active, Option.map_some, hd.decode]
  · rcases hact : d.active with _ | file
    · rfl
    · obtain ⟨⟨n, hn, hbytes⟩, -⟩ := hb.active file hact
      have hshort : (d.files file).length < headerLen := by
        rw [hbytes, List.length_take]
        exact (Nat.min_le_left _ _).trans_lt hn
      simp only [Option.map_some, decodeSegment, if_pos hshort]

/-- **Runs of the machine beside a run on disk.** -/
theorem run_beside_run {ok : Guard Node OnDisk.Action (Tid × Event)}
    (hok : ∀ s h a, ok s h a → fitting s h a) (hr : Run system ok s h) :
    ∃ w h', Run Lifetimes.system anyStep w h' ∧ Refines s w ∧ visible h' = visible h := by
  induction hr with
  | init hinit =>
    obtain ⟨table, href⟩ := refines_init hinit
    exact ⟨_, [], Run.init ⟨_, _, rfl⟩, href, rfl⟩
  | step _ hoka hs ih =>
    obtain ⟨w, h', hw, href, hvis⟩ := ih
    obtain ⟨w', hb⟩ := step_beside href (hok _ _ _ hoka) hs
    rcases hb.steps with ⟨rfl, rfl⟩ | ⟨a', e', hstep, hvis', -⟩
    · exact ⟨w', h', hw, hb.refines, by rw [List.append_nil, hvis]⟩
    · refine ⟨w', h' ++ e', hw.step trivial hstep, hb.refines, ?_⟩
      rw [visible_append, visible_append, hvis, hvis']

end Runs

/-! ### The refinement -/

/-- **The engine on its files refines the machine**, for every run with kills at any point whose frames fit
their length field: there is a run of the machine's lifetimes that shows the same visible events and ends in
a world that the node refines; the segment reads as the world's log; and where no process runs, `start`
succeeds and is the machine's start. -/
theorem engine_refines_machine {s : Node} {h : List (Tid × Event)} (hr : Run system fitting s h) :
    ∃ w h', Run Lifetimes.system anyStep w h' ∧ visible h' = visible h ∧ Refines s w ∧
      segmentRecords s.disk = w.engine.sh.wal.records ∧
      (s.memory = none → ∀ cfg, ∃ s' m, s.step (.start cfg) = some (s', []) ∧ s'.memory = some m ∧
        Refines s' (.start cfg w.engine.sh.wal s.table w.allocated)) := by
  obtain ⟨w, h', hw, href, hvis⟩ := run_beside_run (fun _ _ _ hf => hf) hr
  refine ⟨w, h', hw, hvis, href, href.stored.segmentRecords, fun hdown cfg => ?_⟩
  obtain ⟨s', hstart, ⟨m, hm⟩, href'⟩ := startOn_eq href.stored cfg s.table w.allocated
  refine ⟨s', m, ?_, hm, href'⟩
  simp only [Node.step, hdown, hstart, Option.map_some]

/-- A check of what a thread writes. -/
def fittingCheck (s : Node) (a : OnDisk.Action) : Bool :=
  match s.memory, thread a with
  | some m, some t => decide (∀ rec ∈ writing (m.pc t), Fits rec)
  | _, _ => true

theorem fitting_of_check {s : Node} {h : List (Tid × Event)} {a : OnDisk.Action}
    (hc : fittingCheck s a = true) : fitting s h a := by
  intro m t hm ht
  simp only [fittingCheck, hm, ht] at hc
  exact of_decide_eq_true hc

/-- A durable write is killed 20 bytes into its frame, and the next start inside `recover`. -/
theorem engine_refines_machine_torn : ∃ s h, Run system fitting s h ∧ s.memory = none ∧
    segmentRecords s.disk = [⟨1, 7, 1, []⟩] ∧ ∃ w h', Run Lifetimes.system anyStep w h' ∧
      visible h' = visible h ∧ Refines s w ∧ w.engine.sh.wal.records = [⟨1, 7, 1, []⟩] := by
  obtain ⟨s, h, hr, hp⟩ := exists_run_of_exec system fitting (fun s _ a => fittingCheck s a)
    (fun _ _ _ => fitting_of_check) ⟨Disk.empty, fun _ => none, none⟩
    (.start oneByOne :: .call 0 (.submitDurable 7 1 []) ::
        List.replicate 4 (.run (.client 0) (DiskEnv.fine [])) ++
      .call 0 (.submitDurable 8 2 []) :: List.replicate 2 (.run (.client 0) (DiskEnv.fine [])) ++
      [.callKilled (.client 0) 20 .flush, .startKilled (.recovering false)])
    (fun x => x.1.memory.isNone && decide (segmentRecords x.1.disk = [⟨1, 7, 1, []⟩]))
    ⟨_, rfl⟩ (by decide +kernel)
  rw [Bool.and_eq_true, Option.isNone_iff_eq_none, decide_eq_true_eq] at hp
  obtain ⟨w, h', hw, hvis, href, hseg, -⟩ := engine_refines_machine hr
  exact ⟨s, h, hr, hp.1, hp.2, w, h', hw, hvis, href, hseg.symm.trans hp.2⟩

/-! ### What survives -/

/-- The record has been logged: by a durable write, or with a batch. -/
def Logged (h : List (Tid × Event)) (rec : WalRecord) : Prop :=
  rec ∈ durablyLogged h ∨ rec ∈ batchLogged h

/-- The write has reached the cache of the process and does not wait for the store: its player is not dirty,
and no thread has the player in a batch at this version or newer. -/
def AtRest (m : Memory) (rec : WalRecord) : Prop :=
  (∃ st, m.cache.get rec.playerId = some st ∧ rec.version ≤ st.version) ∧
    rec.playerId ∉ m.cache.inner.dirty ∧
    ∀ t, ∀ st ∈ Refine.batch (m.pc t), st.playerId = rec.playerId → st.version < rec.version

section Survival
variable {s s' : Node} {w w' : Lifetimes.World} {h e e' : List (Tid × Event)} {a : OnDisk.Action}
  {a' : Lifetimes.Action} {rec : WalRecord}

/-- **A write at rest is in the store.** -/
theorem AtRest.stored {m : Memory} (hrest : AtRest m rec) (href : Refines s w) (hm : s.memory = some m)
    (hr : ∃ g, Run (Machine.system w.cfg) anyStep w.engine g) :
    StoreHolds w.engine rec.playerId rec.version := by
  obtain ⟨g, hg⟩ := hr
  obtain ⟨hcached, hclean, hidle⟩ := hrest
  refine stored_of_not_waiting hg ?_ ?_
  · rw [href.engine hm]
    exact hcached
  · rw [href.engine hm]
    rintro (hd | ⟨t, st, hst, hid, hle⟩)
    · exact hclean hd
    · exact absurd (hidle t st hst hid) (not_lt.mpr hle)

end Survival

/-! ### The result -/

end FluxThroughput.Engine.Crash
