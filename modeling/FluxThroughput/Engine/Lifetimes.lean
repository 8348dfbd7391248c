import FluxThroughput.Engine.Events

/-! # Lifetimes on one log

An engine runs, stops at any point, and is started again on the log it left, with any configuration. A
`World` is a running engine with a record of what its LSN authority has done: the LSNs recovered at its
start, those handed out since, the requests made from them, and how many LSNs all lifetimes have allocated.
A kill inside an append is a failed append, and then a restart.

`effect_step` says once what a step does with LSNs: those a thread has been given and not written yet
(`owes`) go to the log, or are dropped. With fewer than `2 ^ 64 - 1` allocations the counter never
wraps, and no LSN is used twice (`lsns_unique`). -/

namespace FluxThroughput.Engine.Lifetimes

open FluxThroughput.Domain.Types FluxThroughput.Cache.WriteBehind FluxThroughput.Store.Mock
open FluxThroughput.Lsn.Authority FluxThroughput.Wal.Atomic FluxThroughput.Engine.Config
open FluxThroughput.Engine.Machine FluxThroughput.Engine.Refine FluxThroughput.Engine.NoLoss
open FluxThroughput.Engine.Events FluxThroughput.Lib.Transition FluxThroughput.Lib.U64

/-! ### Blocks of LSNs -/

/-- The block of `n` LSNs from `first` on. -/
def block (first : Lsn) : ℕ → List Lsn
  | 0 => []
  | n + 1 => first :: block (first + 1) n

section Block
variable {first l : Lsn} {n : ℕ}

theorem toNat_add_one (h : first.toNat + 1 < 2 ^ 64) : (first + 1).toNat = first.toNat + 1 := by
  rw [UInt64.toNat_add, UInt64.toNat_one, Nat.mod_eq_of_lt h]

theorem toNat_add_ofNat (h : first.toNat + n < 2 ^ 64) :
    (first + UInt64.ofNat n).toNat = first.toNat + n := by
  have hn : n < 2 ^ 64 := by omega
  rw [UInt64.toNat_add, UInt64.toNat_ofNat', Nat.mod_eq_of_lt hn, Nat.mod_eq_of_lt h]

/-- A block without wrapping is an interval. -/
theorem mem_block : ∀ {n : ℕ} {first : Lsn}, first.toNat + n < 2 ^ 64 → l ∈ block first n →
    first ≤ l ∧ l.toNat < first.toNat + n
  | 0, _, _, hl => by cases hl
  | n + 1, first, hn, hl => by
    have hsucc := toNat_add_one (show first.toNat + 1 < 2 ^ 64 by omega)
    rcases List.mem_cons.mp hl with rfl | hl
    · exact ⟨le_rfl, by omega⟩
    · obtain ⟨hle, hlt⟩ := mem_block (show (first + 1).toNat + n < 2 ^ 64 by omega) hl
      rw [UInt64.le_iff_toNat_le] at hle ⊢
      exact ⟨by omega, by omega⟩

theorem nodup_block : ∀ {n : ℕ} {first : Lsn}, first.toNat + n < 2 ^ 64 → (block first n).Nodup
  | 0, _, _ => List.nodup_nil
  | n + 1, first, hn => by
    have hsucc := toNat_add_one (show first.toNat + 1 < 2 ^ 64 by omega)
    have hn' : (first + 1).toNat + n < 2 ^ 64 := by omega
    refine List.nodup_cons.mpr ⟨fun hmem => ?_, nodup_block hn'⟩
    have hle := UInt64.le_iff_toNat_le.mp (mem_block hn' hmem).1
    omega

/-- The records of a batch are stamped with the block. -/
theorem lsns_stamp : ∀ (first : Lsn) (states : List PlayerState),
    (stamp first states).map WalRecord.lsn = block first states.length
  | _, [] => rfl
  | first, _ :: states => congrArg (first :: ·) (lsns_stamp (first + 1) states)

end Block

/-! ### What a step does with LSNs -/

/-- How many LSNs the step allocates. -/
def asks : Pc → ℕ
  | .submitAlloc _ _ _ => 1
  | .durableAlloc _ _ _ => 1
  | .allocBlock _ states => states.length
  | _ => 0

/-- The request that the step makes from its LSN, and whether `submit_durable` makes it. -/
def makes (sh : Shared) : Pc → List (WriteRequest × Bool)
  | .submitAlloc playerId version blob => [(⟨playerId, version, blob, sh.lsn.next⟩, false)]
  | .durableAlloc playerId version blob => [(toRequest ⟨sh.lsn.next, playerId, version, blob⟩, true)]
  | _ => []

/-- The LSNs a thread may still write to the log. -/
def owes : Pc → List Lsn
  | .durableNote rec => [rec.lsn]
  | .durableAppend rec => [rec.lsn]
  | .appendBatch _ _ records => records.map WalRecord.lsn
  | _ => []

/-- The durable write a thread is about. -/
def durable : Pc → List WalRecord
  | .durableNote rec => [rec]
  | .durableAppend rec => [rec]
  | .durableClear rec => [rec]
  | .durableEnqueue rec => [rec]
  | _ => []

/-- The requests a thread is about to enqueue, or has popped and not applied. -/
def carried : Pc → List WriteRequest
  | .submitEnqueue req => [req]
  | pc => (durable pc).map toRequest ++ buffer pc

def lsns (wal : Log) : List Lsn := wal.records.map WalRecord.lsn

/-- **What a step does with LSNs and requests.** -/
structure Effect (sh : Shared) (pc : Pc) (sh' : Shared) (pc' : Pc) : Prop where
  next : sh'.lsn.next = sh.lsn.next + UInt64.ofNat (asks pc)
  wal : ∃ written, (lsns sh'.wal).Sublist (lsns sh.wal ++ written) ∧
    (written ++ owes pc').Sublist (owes pc ++ block sh.lsn.next (asks pc))
  requests : ∀ req, req ∈ sh'.ring ∨ req ∈ carried pc' →
    (req ∈ sh.ring ∨ req ∈ carried pc) ∨ ∃ b, (req, b) ∈ makes sh pc
  writes : ∀ rec ∈ durable pc', rec ∈ durable pc ∨ (toRequest rec, true) ∈ makes sh pc
  pending : ∀ l ∈ sh'.lsn.pending, l ∈ sh.lsn.pending ∨ ∃ rec ∈ durable pc, rec.lsn = l

/-- Where a thread carries nothing. -/
structure Bare (pc : Pc) : Prop where
  owes : owes pc = []
  durable : durable pc = []
  carried : carried pc = []

theorem Bare.of_isBare {pc : Pc} (hb : isBare pc = true) : Bare pc := by
  cases pc with
  | drainPop k got =>
    cases got with
    | nil => exact ⟨rfl, rfl, rfl⟩
    | cons => cases hb
  | submitEnqueue | durableNote | durableAppend | durableClear | durableEnqueue | drainNote | drainApply
    | allocBlock | appendBatch | persistBatch | requeue => cases hb
  | _ => exact ⟨rfl, rfl, rfl⟩

/-- Going on with a drained buffer. -/
theorem drainNext_carries (cfg : ValidConfig) (k : DrainFor) (moved : ℕ) (l : List WriteRequest) :
    owes (drainNext cfg k moved l) = [] ∧ durable (drainNext cfg k moved l) = [] ∧
      carried (drainNext cfg k moved l) = l := by
  cases l with
  | nil =>
    have hbare : Bare (drainDone cfg moved k) := .of_isBare (bare_drainDone cfg moved k)
    exact ⟨hbare.owes, hbare.durable, hbare.carried⟩
  | cons req rest => exact ⟨rfl, rfl, rfl⟩

section Effect
variable {cfg : ValidConfig} {env : Env} {sh sh' : Shared} {pc pc' : Pc} {es : List Event}

/-- A step that allocates and writes nothing. -/
theorem Effect.plain (ha : asks pc = 0) (hl : sh'.lsn.next = sh.lsn.next) (hw : sh'.wal = sh.wal)
    (ho : (owes pc').Sublist (owes pc))
    (hr : ∀ req, req ∈ sh'.ring ∨ req ∈ carried pc' → req ∈ sh.ring ∨ req ∈ carried pc)
    (hd : ∀ rec ∈ durable pc', rec ∈ durable pc)
    (hp : ∀ l ∈ sh'.lsn.pending, l ∈ sh.lsn.pending ∨ ∃ rec ∈ durable pc, rec.lsn = l) :
    Effect sh pc sh' pc' where
  next := by rw [hl, ha]; exact (UInt64.add_zero _).symm
  wal := by
    refine ⟨[], ?_, ?_⟩
    · rw [hw, List.append_nil]
    · exact ho.trans (List.sublist_append_left _ _)
  requests req hreq := Or.inl (hr req hreq)
  writes rec hrec := Or.inl (hd rec hrec)
  pending := hp

/-- A step that leaves the thread owing nothing. -/
theorem Effect.free (ha : asks pc = 0) (hl : sh'.lsn = sh.lsn) (hw : sh'.wal = sh.wal)
    (ho : owes pc' = []) (hd : durable pc' = [])
    (hr : ∀ req, req ∈ sh'.ring ∨ req ∈ carried pc' → req ∈ sh.ring ∨ req ∈ carried pc) :
    Effect sh pc sh' pc' := by
  refine Effect.plain ha (by rw [hl]) hw ?_ hr (fun rec hrec => ?_) fun l hmem => ?_
  · rw [ho]
    exact List.nil_sublist _
  · rw [hd] at hrec
    cases hrec
  · rw [hl] at hmem
    exact Or.inl hmem

/-- A step into a bare place, with the ring and the log as they were. -/
theorem Effect.bare (ha : asks pc = 0) (hl : sh'.lsn = sh.lsn) (hw : sh'.wal = sh.wal)
    (hr : sh'.ring = sh.ring) (hb : Bare pc') : Effect sh pc sh' pc' := by
  refine Effect.free ha hl hw hb.owes hb.durable fun req hreq => ?_
  rw [hr, hb.carried] at hreq
  exact hreq.imp_right fun h => by cases h

/-- A step that may write what the thread owes, and then owes nothing. -/
theorem Effect.append (ha : asks pc = 0) (hl : sh'.lsn = sh.lsn) (hr : sh'.ring = sh.ring)
    {landed : List WalRecord} (hw : sh'.wal.records = sh.wal.records ++ landed)
    (ho : (landed.map WalRecord.lsn).Sublist (owes pc)) (ho' : owes pc' = [])
    (hd : durable pc' = durable pc) (hc : carried pc' = carried pc) : Effect sh pc sh' pc' where
  next := by rw [hl, ha]; exact (UInt64.add_zero _).symm
  wal := by
    refine ⟨landed.map WalRecord.lsn, ?_, ?_⟩
    · rw [lsns, lsns, hw, List.map_append]
    · rw [ho', List.append_nil]
      exact ho.trans (List.sublist_append_left _ _)
  requests req hreq := by rw [hr, hc] at hreq; exact Or.inl hreq
  writes rec hrec := by rw [hd] at hrec; exact Or.inl hrec
  pending l hmem := by rw [hl] at hmem; exact Or.inl hmem

/-- A checkpoint takes frames out of the log. -/
theorem Effect.truncate (ha : asks pc = 0) (hl : sh'.lsn = sh.lsn) (hr : sh'.ring = sh.ring)
    (hw : sh'.wal.records.Sublist sh.wal.records) (hb : Bare pc') : Effect sh pc sh' pc' := by
  have hstay : Effect sh pc { sh' with wal := sh.wal } pc' := Effect.bare ha hl rfl hr hb
  refine { hstay with wal := ⟨[], ?_, ?_⟩ }
  · rw [List.append_nil]
    exact hw.map _
  · rw [hb.owes]
    exact List.nil_sublist _

theorem landing_sublist (log : Log) (batch : List WalRecord) :
    ((log.landing batch).map WalRecord.lsn).Sublist (batch.map WalRecord.lsn) := by
  unfold Log.landing
  split_ifs
  · exact List.Sublist.refl _
  · exact List.nil_sublist _

theorem landing_take_sublist (log : Log) (batch : List WalRecord) (n : ℕ) :
    ((log.landing (batch.take n)).map WalRecord.lsn).Sublist (batch.map WalRecord.lsn) :=
  (landing_sublist log _).trans ((List.take_sublist n batch).map _)

/-- The enqueue at the end of `submit` and of `submit_durable`. -/
theorem Effect.enqueue {req : WriteRequest} (hq : sh.tryEnqueue cfg req = some sh') (ha : asks pc = 0)
    (hc : req ∈ carried pc) (hb : Bare pc') : Effect sh pc sh' pc' := by
  obtain ⟨hw, -, hl⟩ := tryEnqueue_frame hq
  unfold Shared.tryEnqueue at hq
  split_ifs at hq
  obtain rfl := Option.some.inj hq
  refine Effect.free ha hl hw hb.owes hb.durable fun req' hreq => ?_
  rw [hb.carried] at hreq
  rcases hreq with hreq | hreq
  · rcases List.mem_append.mp hreq with hreq | hreq
    · exact Or.inl hreq
    · exact Or.inr (List.mem_singleton.mp hreq ▸ hc)
  · cases hreq

/-- **Every step**, on these terms. -/
theorem effect_step (hs : pc.step cfg env sh = some (sh', pc', es)) : Effect sh pc sh' pc' := by
  cases pc with
  | idle | exited => cases hs
  | submitAlloc playerId version blob =>
    simp only [Pc.step, Option.some.injEq, Prod.mk.injEq] at hs
    obtain ⟨rfl, rfl, -⟩ := hs
    refine ⟨rfl, ⟨[], ?_, List.nil_sublist _⟩, fun req hreq => ?_, fun rec hrec => (by cases hrec),
      fun l => Or.inl⟩
    · rw [List.append_nil]
    · rcases hreq with hreq | hreq
      · exact Or.inl (Or.inl hreq)
      · exact Or.inr ⟨false, by rw [List.mem_singleton.mp hreq]; exact List.mem_singleton_self _⟩
  | durableAlloc playerId version blob =>
    simp only [Pc.step, Option.some.injEq, Prod.mk.injEq] at hs
    obtain ⟨rfl, rfl, -⟩ := hs
    refine ⟨rfl, ⟨[], ?_, List.Sublist.refl _⟩, fun req hreq => ?_, fun rec hrec => ?_, fun l => Or.inl⟩
    · rw [List.append_nil]
    · rcases hreq with hreq | hreq
      · exact Or.inl (Or.inl hreq)
      · exact Or.inr ⟨true, by rw [List.mem_singleton.mp hreq]; exact List.mem_singleton_self _⟩
    · exact Or.inr (by rw [List.mem_singleton.mp hrec]; exact List.mem_singleton_self _)
  | allocBlock k states =>
    simp only [Pc.step, Option.some.injEq, Prod.mk.injEq] at hs
    obtain ⟨rfl, rfl, -⟩ := hs
    refine ⟨rfl, ⟨[], ?_, ?_⟩, fun req => Or.inl, fun rec hrec => (by cases hrec), fun l => Or.inl⟩
    · rw [List.append_nil]
    · rw [List.nil_append, owes, lsns_stamp]
      exact List.sublist_append_right _ _
  | durableNote rec =>
    simp only [Pc.step, Option.some.injEq, Prod.mk.injEq] at hs
    obtain ⟨rfl, rfl, -⟩ := hs
    refine Effect.plain rfl rfl rfl (List.Sublist.refl _) (fun _ => id) (fun _ => id) fun l hl => ?_
    rcases Finset.mem_insert.mp hl with rfl | hl
    · exact Or.inr ⟨rec, List.mem_singleton_self _, rfl⟩
    · exact Or.inl hl
  | durableAppend rec =>
    simp only [Pc.step] at hs
    rcases hx : env.append with _ | ⟨landed, torn⟩ <;>
      simp only [hx, Option.some.injEq, Prod.mk.injEq] at hs <;> obtain ⟨rfl, rfl, -⟩ := hs
    · exact Effect.append rfl rfl rfl (Log.records_appendBatch _ _) (landing_sublist _ _) rfl rfl rfl
    · exact Effect.append rfl rfl rfl rfl (landing_take_sublist _ _ _) rfl rfl rfl
  | appendBatch k states records =>
    simp only [Pc.step] at hs
    rcases hx : env.append with _ | ⟨landed, torn⟩ <;>
      simp only [hx, Option.some.injEq, Prod.mk.injEq] at hs <;> obtain ⟨rfl, rfl, -⟩ := hs
    · exact Effect.append rfl rfl rfl (Log.records_appendBatch _ _) (landing_sublist _ _) rfl rfl rfl
    · exact Effect.append rfl rfl rfl rfl (landing_take_sublist _ _ _) rfl rfl rfl
  | durableClear rec =>
    simp only [Pc.step, Option.some.injEq, Prod.mk.injEq] at hs
    obtain ⟨rfl, rfl, -⟩ := hs
    refine Effect.plain rfl rfl rfl (List.nil_sublist _) (fun req hreq => ?_) (fun rec hrec => ?_)
      fun l hl => Or.inl (Finset.mem_of_mem_erase hl)
    · exact hreq.imp_right fun h => by cases h
    · cases hrec
  | submitEnqueue req =>
    simp only [Pc.step] at hs
    rcases hq : sh.tryEnqueue cfg req with _ | sh1 <;>
      simp only [hq, Option.some.injEq, Prod.mk.injEq] at hs <;> obtain ⟨rfl, rfl, -⟩ := hs
    · exact Effect.bare rfl rfl rfl rfl ⟨rfl, rfl, rfl⟩
    · exact Effect.enqueue hq rfl (List.mem_singleton_self _) ⟨rfl, rfl, rfl⟩
  | durableEnqueue rec =>
    simp only [Pc.step] at hs
    rcases hq : sh.tryEnqueue cfg (toRequest rec) with _ | sh1 <;>
      simp only [hq, Option.some.injEq, Prod.mk.injEq] at hs <;> obtain ⟨rfl, rfl, -⟩ := hs
    · exact Effect.bare rfl rfl rfl rfl ⟨rfl, rfl, rfl⟩
    · exact Effect.enqueue hq rfl (List.mem_singleton_self _) ⟨rfl, rfl, rfl⟩
  | drainPop k got =>
    obtain ⟨hno, hnd, hnc⟩ := drainNext_carries cfg k got.length got
    simp only [Pc.step] at hs
    split at hs
    · rcases hr : sh.ring with _ | ⟨req, ring⟩ <;>
        simp only [hr, Option.some.injEq, Prod.mk.injEq] at hs <;> obtain ⟨rfl, rfl, -⟩ := hs
      · refine Effect.free rfl rfl rfl hno hnd fun req hreq => ?_
        rw [hnc] at hreq
        exact hreq
      · refine Effect.free rfl rfl rfl rfl rfl fun req' hreq => ?_
        rw [hr]
        rcases hreq with hreq | hreq
        · exact Or.inl (List.mem_cons_of_mem _ hreq)
        · have hgot : carried (.drainPop k (got ++ [req])) = got ++ [req] := rfl
          rw [hgot] at hreq
          rcases List.mem_append.mp hreq with hreq | hreq
          · exact Or.inr hreq
          · exact Or.inl (List.mem_singleton.mp hreq ▸ List.mem_cons_self)
    · simp only [Option.some.injEq, Prod.mk.injEq] at hs
      obtain ⟨rfl, rfl, -⟩ := hs
      refine Effect.free rfl rfl rfl hno hnd fun req hreq => ?_
      rw [hnc] at hreq
      exact hreq
  | drainNote k moved req rest =>
    simp only [Pc.step, Option.some.injEq, Prod.mk.injEq] at hs
    obtain ⟨rfl, rfl, -⟩ := hs
    exact Effect.plain rfl rfl rfl (List.Sublist.refl _) (fun _ => id) (fun _ => id)
      fun l hl => Or.inl (Finset.mem_of_mem_erase hl)
  | drainApply k moved req rest =>
    obtain ⟨hno, hnd, hnc⟩ := drainNext_carries cfg k moved rest
    simp only [Pc.step, Option.some.injEq, Prod.mk.injEq] at hs
    obtain ⟨rfl, rfl, -⟩ := hs
    refine Effect.free rfl rfl rfl hno hnd fun req' hreq => ?_
    rw [hnc] at hreq
    exact hreq.imp_right (List.mem_cons_of_mem _)
  | takeDirty k =>
    simp only [Pc.step] at hs
    split at hs
    · split at hs <;> simp only [Option.some.injEq, Prod.mk.injEq] at hs <;> obtain ⟨rfl, rfl, -⟩ := hs
      · exact Effect.bare rfl rfl rfl rfl (.of_isBare (bare_flushEnd k))
      · exact Effect.bare rfl rfl rfl rfl ⟨rfl, rfl, rfl⟩
    · cases hs
  | persistBatch k states last attempt =>
    simp only [Pc.step] at hs
    repeat' split at hs
    all_goals
      simp only [Option.some.injEq, Prod.mk.injEq] at hs
      obtain ⟨rfl, rfl, -⟩ := hs
      exact Effect.bare rfl rfl rfl rfl ⟨rfl, rfl, rfl⟩
  | watermark k count last =>
    simp only [Pc.step] at hs
    split at hs <;> simp only [Option.some.injEq, Prod.mk.injEq] at hs <;> obtain ⟨rfl, rfl, -⟩ := hs
    · exact Effect.bare rfl rfl rfl rfl ⟨rfl, rfl, rfl⟩
    · exact Effect.bare rfl rfl rfl rfl (.of_isBare (bare_batchOk count k))
  | checkpoint k count safe =>
    simp only [Pc.step] at hs
    rcases hx : env.checkpoint <;>
      simp only [hx, Option.some.injEq, Prod.mk.injEq] at hs <;> obtain ⟨rfl, rfl, -⟩ := hs
    · exact Effect.truncate rfl rfl rfl List.filter_sublist (.of_isBare (bare_batchOk count k))
    · exact Effect.bare rfl rfl rfl rfl (.of_isBare (bare_checkpointFailed count k))
    · exact Effect.truncate rfl rfl rfl List.filter_sublist (.of_isBare (bare_checkpointFailed count k))
  | requeue k states =>
    simp only [Pc.step, Option.some.injEq, Prod.mk.injEq] at hs
    obtain ⟨rfl, rfl, -⟩ := hs
    exact Effect.bare rfl rfl rfl rfl (.of_isBare (bare_batchFailed k))
  | flushNowCheck | top | decide | finalRing | finalDirty | finalAfter =>
    simp only [Pc.step] at hs
    repeat' split at hs
    all_goals
      simp only [Option.some.injEq, Prod.mk.injEq] at hs
      obtain ⟨rfl, rfl, -⟩ := hs
      exact Effect.bare rfl rfl rfl rfl ⟨rfl, rfl, rfl⟩

end Effect

/-! ### Worlds -/

/-- **A running engine**, with what its LSN authority has done since its start, and how many LSNs have been
allocated in this lifetime and those before. -/
structure World where
  cfg : ValidConfig
  engine : FluxEngine
  recovered : List Lsn
  handed : List Lsn
  made : List (WriteRequest × Bool)
  allocated : ℕ

/-- An engine started on a log. -/
def World.start (cfg : ValidConfig) (wal : Log) (table : Table) (allocated : ℕ) : World where
  cfg := cfg
  engine := Machine.start wal table
  recovered := lsns wal
  handed := []
  made := []
  allocated := allocated

/-- A step of the running engine; or its process ends, and a new one starts on the same log. -/
inductive Action
  | act (a : Machine.Action)
  | restart (cfg : ValidConfig)

/-- The thread's step goes on record. -/
def World.record (w : World) (engine : FluxEngine) : Machine.Action → World
  | .run t _ =>
    { w with
      engine := engine
      handed := w.handed ++ block w.engine.sh.lsn.next (asks (w.engine.pc t))
      made := w.made ++ makes w.engine.sh (w.engine.pc t)
      allocated := w.allocated + asks (w.engine.pc t) }
  | _ => { w with engine := engine }

def World.step (w : World) : Lifetimes.Action → Option (World × List (Tid × Event))
  | .act a => (w.engine.step w.cfg a).map fun x => (w.record x.1 a, x.2)
  | .restart cfg => some (World.start cfg w.engine.sh.wal w.engine.sh.table w.allocated, [])

/-- Any number of lifetimes, the first on an empty log. -/
def system : System World Lifetimes.Action (Tid × Event) where
  init w := ∃ cfg table, w = World.start cfg Log.empty table 0
  step := World.step

/-! ### No LSN is used twice -/

/-- **LSNs in the log and to be written** are below the counter, and are all different. -/
structure Fresh (w : World) : Prop where
  positive : 0 < w.engine.sh.lsn.next
  counted : w.engine.sh.lsn.next.toNat ≤ w.allocated + 1
  logged : ∀ l ∈ lsns w.engine.sh.wal, l < w.engine.sh.lsn.next
  owed : ∀ t, ∀ l ∈ owes (w.engine.pc t), l < w.engine.sh.lsn.next
  nodup : ∀ t, (lsns w.engine.sh.wal ++ owes (w.engine.pc t)).Nodup
  apart : ∀ t u, t ≠ u → (owes (w.engine.pc t)).Disjoint (owes (w.engine.pc u))
  recovered : ∀ l ∈ w.recovered, l < w.engine.sh.lsn.next
  handed : ∀ l ∈ w.handed, ∀ r ∈ w.recovered, r < l

/-- **Requests are known by their LSN.** -/
structure Known (w : World) : Prop where
  below : ∀ m ∈ w.made, m.1.seq < w.engine.sh.lsn.next
  nodup : (w.made.map fun m => m.1.seq).Nodup
  ring : ∀ req ∈ w.engine.sh.ring, ∃ b, (req, b) ∈ w.made
  carried : ∀ t, ∀ req ∈ carried (w.engine.pc t), ∃ b, (req, b) ∈ w.made
  writes : ∀ t, ∀ rec ∈ durable (w.engine.pc t), (toRequest rec, true) ∈ w.made
  pending : ∀ l ∈ w.engine.sh.lsn.pending, ∃ req, (req, true) ∈ w.made ∧ req.seq = l

section Start
variable {cfg : ValidConfig} {wal : Log} {table : Table} {allocated : ℕ}

theorem le_foldl_max : ∀ (records : List WalRecord) (m : Lsn), m ≤ records.foldl (fun h r => max h r.lsn) m ∧
    ∀ l ∈ records.map WalRecord.lsn, l ≤ records.foldl (fun h r => max h r.lsn) m
  | [], m => ⟨le_rfl, fun l hl => by cases hl⟩
  | rec :: records, m => by
    obtain ⟨h1, h2⟩ := le_foldl_max records (max m rec.lsn)
    refine ⟨(le_max_left _ _).trans h1, fun l hl => ?_⟩
    rcases List.mem_cons.mp hl with rfl | hl
    · exact (le_max_right _ _).trans h1
    · exact h2 l hl

theorem foldl_max_lt {top : Lsn} : ∀ (records : List WalRecord) {m : Lsn}, m < top →
    (∀ l ∈ records.map WalRecord.lsn, l < top) → records.foldl (fun h r => max h r.lsn) m < top
  | [], _, hm, _ => hm
  | _ :: records, _, hm, h =>
    foldl_max_lt records (max_lt hm (h _ List.mem_cons_self)) fun l hl => h l (List.mem_cons_of_mem _ hl)

/-- The seed is one past the highest LSN recovered. -/
theorem toNat_saturatingSucc {x : Lsn} (h : x.toNat + 1 < 2 ^ 64) :
    (saturatingSucc x).toNat = x.toNat + 1 := by
  unfold saturatingSucc
  rw [if_neg]
  · exact toNat_add_one h
  · rintro rfl
    exact absurd h (by decide)

/-- **Seeding** from a log of distinct LSNs, all below a counter that is positive. -/
theorem fresh_start {top : Lsn} (hpos : 0 < top) (hlt : ∀ l ∈ lsns wal, l < top)
    (hnodup : (lsns wal).Nodup) (ha : top.toNat ≤ allocated + 1) :
    Fresh (World.start cfg wal table allocated) := by
  obtain ⟨-, hle⟩ := le_foldl_max wal.records 0
  have hmax := UInt64.lt_iff_toNat_lt.mp (foldl_max_lt wal.records hpos hlt)
  have htop := top.toNat_lt
  have hroom : (wal.records.foldl (fun h (r : WalRecord) => max h r.lsn) 0).toNat + 1 < 2 ^ 64 := by
    omega
  have hseed : (World.start cfg wal table allocated).engine.sh.lsn.next.toNat =
      (wal.records.foldl (fun h (r : WalRecord) => max h r.lsn) 0).toNat + 1 :=
    toNat_saturatingSucc hroom
  have hbelow : ∀ l ∈ lsns wal, l < (World.start cfg wal table allocated).engine.sh.lsn.next := by
    intro l hl
    have h1 := UInt64.le_iff_toNat_le.mp (hle l hl)
    exact UInt64.lt_iff_toNat_lt.mpr (lt_of_le_of_lt h1 (by rw [hseed]; omega))
  have hnone : ∀ t, owes ((World.start cfg wal table allocated).engine.pc t) = [] := by
    intro t
    cases t <;> rfl
  refine ⟨?_, ?_, hbelow, fun t l hl => ?_, fun t => ?_, fun t u _ l hl => ?_, hbelow,
    fun l hl => by cases hl⟩
  · exact UInt64.lt_iff_toNat_lt.mpr (by rw [hseed]; exact Nat.succ_pos _)
  · show _ ≤ allocated + 1
    omega
  · rw [hnone] at hl
    cases hl
  · rw [hnone, List.append_nil]
    exact hnodup
  · rw [hnone] at hl
    cases hl

theorem known_start : Known (World.start cfg wal table allocated) where
  below m hm := by cases hm
  nodup := List.nodup_nil
  ring req hreq := by cases hreq
  carried t req hreq := by cases t <;> cases hreq
  writes t _ hrec := by cases t <;> cases hrec
  pending l hl := by cases hl

end Start

section Steps
variable {w w' : World} {t : Tid} {sh : Shared} {pc : Pc}

/-- The world after a thread's step. -/
def World.stepped (w : World) (t : Tid) (sh : Shared) (pc : Pc) : World :=
  { w with
    engine := { sh := sh, pc := Function.update w.engine.pc t pc }
    handed := w.handed ++ block w.engine.sh.lsn.next (asks (w.engine.pc t))
    made := w.made ++ makes w.engine.sh (w.engine.pc t)
    allocated := w.allocated + asks (w.engine.pc t) }

theorem pc_stepped_self : (w.stepped t sh pc).engine.pc t = pc := Function.update_self ..

theorem pc_stepped_of_ne {u : Tid} (hu : u ≠ t) : (w.stepped t sh pc).engine.pc u = w.engine.pc u :=
  Function.update_of_ne hu ..

/-- What a thread may write after a step, it might have before, or it has just been given it. -/
theorem Effect.mem_owes (he : Effect w.engine.sh (w.engine.pc t) sh pc) {l : Lsn} (hl : l ∈ owes pc) :
    l ∈ owes (w.engine.pc t) ∨ l ∈ block w.engine.sh.lsn.next (asks (w.engine.pc t)) := by
  obtain ⟨written, -, howes⟩ := he.wal
  exact List.mem_append.mp (howes.subset (List.mem_append_right _ hl))

/-- A frame after a step was there before, or the thread owed it, or it has just been given it. -/
theorem Effect.mem_lsns (he : Effect w.engine.sh (w.engine.pc t) sh pc) {l : Lsn}
    (hl : l ∈ lsns sh.wal) : l ∈ lsns w.engine.sh.wal ∨ l ∈ owes (w.engine.pc t) ∨
      l ∈ block w.engine.sh.lsn.next (asks (w.engine.pc t)) := by
  obtain ⟨written, hwal, howes⟩ := he.wal
  rcases List.mem_append.mp (hwal.subset hl) with hl | hl
  · exact Or.inl hl
  · exact Or.inr (List.mem_append.mp (howes.subset (List.mem_append_left _ hl)))

theorem Effect.toNat_next (he : Effect w.engine.sh (w.engine.pc t) sh pc)
    (hroom : w.engine.sh.lsn.next.toNat + asks (w.engine.pc t) < 2 ^ 64) :
    sh.lsn.next.toNat = w.engine.sh.lsn.next.toNat + asks (w.engine.pc t) := by
  rw [he.next]
  exact toNat_add_ofNat hroom

/-- What was below the counter stays below it. -/
theorem Effect.lt_next (he : Effect w.engine.sh (w.engine.pc t) sh pc)
    (hroom : w.engine.sh.lsn.next.toNat + asks (w.engine.pc t) < 2 ^ 64) {l : Lsn}
    (hl : l < w.engine.sh.lsn.next) : l < sh.lsn.next := by
  have hnext := he.toNat_next hroom
  rw [UInt64.lt_iff_toNat_lt] at hl ⊢
  omega

/-- The LSNs just handed out lie between the old counter and the new one. -/
theorem Effect.mem_block (he : Effect w.engine.sh (w.engine.pc t) sh pc)
    (hroom : w.engine.sh.lsn.next.toNat + asks (w.engine.pc t) < 2 ^ 64) {l : Lsn}
    (hl : l ∈ block w.engine.sh.lsn.next (asks (w.engine.pc t))) :
    w.engine.sh.lsn.next ≤ l ∧ l < sh.lsn.next := by
  have hnext := he.toNat_next hroom
  obtain ⟨hle, hlt⟩ := Lifetimes.mem_block hroom hl
  exact ⟨hle, UInt64.lt_iff_toNat_lt.mpr (by omega)⟩

/-- The frames and what the thread may still write stay different. -/
theorem Fresh.nodup_stepped (hf : Fresh w) (he : Effect w.engine.sh (w.engine.pc t) sh pc)
    (hroom : w.engine.sh.lsn.next.toNat + asks (w.engine.pc t) < 2 ^ 64) :
    (lsns sh.wal ++ owes pc).Nodup := by
  obtain ⟨written, hwal, howes⟩ := he.wal
  have hsub : (lsns sh.wal ++ owes pc).Sublist (lsns w.engine.sh.wal ++ (owes (w.engine.pc t) ++
      block w.engine.sh.lsn.next (asks (w.engine.pc t)))) := by
    refine (hwal.append_right (owes pc)).trans ?_
    rw [List.append_assoc]
    exact howes.append_left (lsns w.engine.sh.wal)
  refine List.Nodup.sublist hsub ?_
  rw [← List.append_assoc]
  refine List.nodup_append'.mpr ⟨hf.nodup t, nodup_block hroom, fun l hl hb => ?_⟩
  have hlt : l < w.engine.sh.lsn.next := (List.mem_append.mp hl).elim (hf.logged l) (hf.owed t l)
  exact absurd hlt (not_lt.mpr (he.mem_block hroom hb).1)

/-- What the thread may write, no other thread may. -/
theorem Fresh.apart_stepped (hf : Fresh w) (he : Effect w.engine.sh (w.engine.pc t) sh pc)
    (hroom : w.engine.sh.lsn.next.toNat + asks (w.engine.pc t) < 2 ^ 64) {u : Tid} (hu : u ≠ t) :
    (owes pc).Disjoint (owes (w.engine.pc u)) := by
  intro l hl hlu
  rcases he.mem_owes hl with hl | hl
  · exact hf.apart t u hu.symm hl hlu
  · exact absurd (hf.owed u l hlu) (not_lt.mpr (he.mem_block hroom hl).1)

/-- A frame is not what another thread may still write. -/
theorem Fresh.logged_stepped (hf : Fresh w) (he : Effect w.engine.sh (w.engine.pc t) sh pc)
    (hroom : w.engine.sh.lsn.next.toNat + asks (w.engine.pc t) < 2 ^ 64) {u : Tid} (hu : u ≠ t) :
    (lsns sh.wal).Disjoint (owes (w.engine.pc u)) := by
  intro l hl hlu
  rcases he.mem_lsns hl with hl | hl | hl
  · exact (List.nodup_append'.mp (hf.nodup u)).2.2 hl hlu
  · exact hf.apart t u hu.symm hl hlu
  · exact absurd (hf.owed u l hlu) (not_lt.mpr (he.mem_block hroom hl).1)

/-- **A thread's step keeps LSNs fresh**, while the counter does not wrap. -/
theorem Fresh.stepped (hf : Fresh w) (he : Effect w.engine.sh (w.engine.pc t) sh pc)
    (ha : (w.stepped t sh pc).allocated < 2 ^ 64 - 1) : Fresh (w.stepped t sh pc) := by
  have hcount := hf.counted
  have halloc : w.allocated + asks (w.engine.pc t) < 2 ^ 64 - 1 := ha
  have hroom : w.engine.sh.lsn.next.toNat + asks (w.engine.pc t) < 2 ^ 64 := by omega
  have hnext := he.toNat_next hroom
  have hself := hf.nodup_stepped he hroom
  refine ⟨he.lt_next hroom hf.positive, ?_, fun l hl => ?_, fun u l hl => ?_, fun u => ?_,
    fun u v huv => ?_, fun l hl => he.lt_next hroom (hf.recovered l hl), fun l hl r hr => ?_⟩
  · show sh.lsn.next.toNat ≤ w.allocated + asks (w.engine.pc t) + 1
    omega
  · rcases he.mem_lsns hl with hl | hl | hl
    · exact he.lt_next hroom (hf.logged l hl)
    · exact he.lt_next hroom (hf.owed t l hl)
    · exact (he.mem_block hroom hl).2
  · by_cases hu : u = t
    · subst hu
      rw [pc_stepped_self] at hl
      rcases he.mem_owes hl with hl | hl
      · exact he.lt_next hroom (hf.owed u l hl)
      · exact (he.mem_block hroom hl).2
    · rw [pc_stepped_of_ne hu] at hl
      exact he.lt_next hroom (hf.owed u l hl)
  · by_cases hu : u = t
    · subst hu
      rw [pc_stepped_self]
      exact hself
    · rw [pc_stepped_of_ne hu]
      exact List.nodup_append'.mpr
        ⟨hself.of_append_left, (hf.nodup u).of_append_right, hf.logged_stepped he hroom hu⟩
  · by_cases hu : u = t
    · subst hu
      rw [pc_stepped_self, pc_stepped_of_ne huv.symm]
      exact hf.apart_stepped he hroom huv.symm
    · by_cases hv : v = t
      · subst hv
        rw [pc_stepped_self, pc_stepped_of_ne hu]
        exact (hf.apart_stepped he hroom hu).symm
      · rw [pc_stepped_of_ne hu, pc_stepped_of_ne hv]
        exact hf.apart u v huv
  · rcases List.mem_append.mp hl with hl | hl
    · exact hf.handed l hl r hr
    · exact lt_of_lt_of_le (hf.recovered r hr) (he.mem_block hroom hl).1

/-- A request is made with the LSN that its step allocates. -/
theorem makes_seq {m : WriteRequest × Bool} (hm : m ∈ makes sh pc) :
    m.1.seq ∈ block sh.lsn.next (asks pc) := by
  cases pc with
  | submitAlloc | durableAlloc =>
    rw [List.mem_singleton.mp hm]
    exact List.mem_singleton_self _
  | _ => cases hm

theorem nodup_makes (sh : Shared) (pc : Pc) : ((makes sh pc).map fun m => m.1.seq).Nodup := by
  cases pc with
  | submitAlloc | durableAlloc => exact List.nodup_singleton _
  | _ => exact List.nodup_nil

/-- **A thread's step keeps requests known.** -/
theorem Known.stepped (hk : Known w) (he : Effect w.engine.sh (w.engine.pc t) sh pc)
    (hroom : w.engine.sh.lsn.next.toNat + asks (w.engine.pc t) < 2 ^ 64) :
    Known (w.stepped t sh pc) := by
  have hnew : ∀ m ∈ makes w.engine.sh (w.engine.pc t),
      w.engine.sh.lsn.next ≤ m.1.seq ∧ m.1.seq < sh.lsn.next := by
    intro m hm
    exact he.mem_block hroom (makes_seq hm)
  have hreq : ∀ req, req ∈ sh.ring ∨ req ∈ Lifetimes.carried pc →
      ∃ b, (req, b) ∈ (w.stepped t sh pc).made := by
    intro req h
    rcases he.requests req h with (h | h) | ⟨b, h⟩
    · obtain ⟨b, hb⟩ := hk.ring req h
      exact ⟨b, List.mem_append_left _ hb⟩
    · obtain ⟨b, hb⟩ := hk.carried t req h
      exact ⟨b, List.mem_append_left _ hb⟩
    · exact ⟨b, List.mem_append_right _ h⟩
  refine ⟨fun m hm => ?_, ?_, fun req h => hreq req (Or.inl h), fun u req h => ?_, fun u rec h => ?_,
    fun l hl => ?_⟩
  · rcases List.mem_append.mp hm with hm | hm
    · exact he.lt_next hroom (hk.below m hm)
    · exact (hnew m hm).2
  · rw [World.stepped, List.map_append]
    refine List.nodup_append'.mpr ⟨hk.nodup, nodup_makes _ _, fun l hl hl' => ?_⟩
    obtain ⟨m, hm, rfl⟩ := List.mem_map.mp hl
    obtain ⟨m', hm', heq⟩ := List.mem_map.mp hl'
    have hlt := hk.below m hm
    rw [← heq] at hlt
    exact absurd hlt (not_lt.mpr (hnew m' hm').1)
  · by_cases hu : u = t
    · subst hu
      rw [pc_stepped_self] at h
      exact hreq req (Or.inr h)
    · rw [pc_stepped_of_ne hu] at h
      obtain ⟨b, hb⟩ := hk.carried u req h
      exact ⟨b, List.mem_append_left _ hb⟩
  · by_cases hu : u = t
    · subst hu
      rw [pc_stepped_self] at h
      rcases he.writes rec h with h | h
      · exact List.mem_append_left _ (hk.writes u rec h)
      · exact List.mem_append_right _ h
    · rw [pc_stepped_of_ne hu] at h
      exact List.mem_append_left _ (hk.writes u rec h)
  · rcases he.pending l hl with hl | ⟨rec, hrec, rfl⟩
    · obtain ⟨req, hmem, rfl⟩ := hk.pending l hl
      exact ⟨req, List.mem_append_left _ hmem, rfl⟩
    · exact ⟨toRequest rec, List.mem_append_left _ (hk.writes t rec hrec), rfl⟩

end Steps

/-! ### Every run -/

section Runs
variable {w w' : World} {h e : List (Tid × Event)} {a : Lifetimes.Action}

/-- What the steps of a world are. -/
theorem world_cases (hs : w.step a = some (w', e)) :
    (∃ t env sh pc es, a = .act (.run t env) ∧
      (w.engine.pc t).step w.cfg env w.engine.sh = some (sh, pc, es) ∧ w' = w.stepped t sh pc) ∨
    (∃ n, ∃ c : Call, w.engine.pc (.client n) = .idle ∧ w' = { w with
      engine := { w.engine with pc := Function.update w.engine.pc (.client n) c.entry.1 } }) ∨
    w' = { w with engine := { w.engine with sh := { w.engine.sh with stop := true } } } ∨
    ∃ cfg, w' = World.start cfg w.engine.sh.wal w.engine.sh.table w.allocated := by
  cases a with
  | act a =>
    obtain ⟨⟨engine, e'⟩, hengine, heq⟩ := Option.map_eq_some_iff.mp hs
    obtain ⟨rfl, rfl⟩ := Prod.mk.inj heq
    rcases step_cases hengine with ⟨n, c, rfl, hidle, -, rfl⟩ |
      ⟨t, env, sh, pc, es, rfl, hstep, -, rfl⟩ | ⟨rfl, -, rfl⟩
    · exact Or.inr (Or.inl ⟨n, c, hidle, rfl⟩)
    · exact Or.inl ⟨t, env, sh, pc, es, rfl, hstep, rfl⟩
    · exact Or.inr (Or.inr (Or.inl rfl))
  | restart cfg =>
    obtain ⟨rfl, rfl⟩ := Prod.mk.inj (Option.some.inj hs)
    exact Or.inr (Or.inr (Or.inr ⟨cfg, rfl⟩))

/-- A call begins with nothing carried. -/
theorem called_owes {n : ℕ} {c : Call} (hidle : w.engine.pc (.client n) = .idle) (t : Tid) :
    owes (Function.update w.engine.pc (.client n) c.entry.1 t) = owes (w.engine.pc t) ∧
    durable (Function.update w.engine.pc (.client n) c.entry.1 t) = durable (w.engine.pc t) ∧
    carried (Function.update w.engine.pc (.client n) c.entry.1 t) = carried (w.engine.pc t) := by
  obtain ⟨h1, h2, h3⟩ := Bare.of_isBare (bare_entry c)
  by_cases ht : t = .client n
  · subst ht
    rw [Function.update_self, hidle]
    exact ⟨h1, h2, h3⟩
  · rw [Function.update_of_ne ht]
    exact ⟨rfl, rfl, rfl⟩

/-- **Every step keeps LSNs fresh and requests known**, while the counter does not wrap. -/
theorem step_fresh (hf : Fresh w) (hk : Known w) (hs : w.step a = some (w', e))
    (ha : w'.allocated < 2 ^ 64 - 1) : Fresh w' ∧ Known w' := by
  rcases world_cases hs with ⟨t, env, sh, pc, es, -, hstep, rfl⟩ | ⟨n, c, hidle, rfl⟩ | rfl |
    ⟨cfg, rfl⟩
  · have he := effect_step hstep
    have hcount := hf.counted
    have halloc : w.allocated + asks (w.engine.pc t) < 2 ^ 64 - 1 := ha
    exact ⟨hf.stepped he ha, hk.stepped he (by omega)⟩
  · have hcall := called_owes (c := c) hidle
    refine ⟨⟨hf.positive, hf.counted, hf.logged, fun t => ?_, fun t => ?_, fun t u => ?_, hf.recovered,
      hf.handed⟩, ⟨hk.below, hk.nodup, hk.ring, fun t => ?_, fun t => ?_, hk.pending⟩⟩
    · rw [(hcall t).1]
      exact hf.owed t
    · rw [(hcall t).1]
      exact hf.nodup t
    · rw [(hcall t).1, (hcall u).1]
      exact hf.apart t u
    · rw [(hcall t).2.2]
      exact hk.carried t
    · rw [(hcall t).2.1]
      exact hk.writes t
  · exact ⟨⟨hf.positive, hf.counted, hf.logged, hf.owed, hf.nodup, hf.apart, hf.recovered, hf.handed⟩,
      ⟨hk.below, hk.nodup, hk.ring, hk.carried, hk.writes, hk.pending⟩⟩
  · exact ⟨fresh_start hf.positive hf.logged (hf.nodup .worker).of_append_left hf.counted, known_start⟩

/-- Nothing takes an allocation back. -/
theorem allocated_le (hs : w.step a = some (w', e)) : w.allocated ≤ w'.allocated := by
  rcases world_cases hs with ⟨t, env, sh, pc, es, -, -, rfl⟩ | ⟨n, c, -, rfl⟩ | rfl | ⟨cfg, rfl⟩
  · exact Nat.le_add_right _ _
  · exact le_rfl
  · exact le_rfl
  · exact le_rfl

theorem run_fresh (hr : Run system anyStep w h) :
    w.allocated < 2 ^ 64 - 1 → Fresh w ∧ Known w := by
  refine hr.invariant (I := fun w _ => w.allocated < 2 ^ 64 - 1 → Fresh w ∧ Known w) ?_ ?_
  · rintro _ ⟨cfg, table, rfl⟩ -
    have hpos : (0 : Lsn) < 1 := by decide
    exact ⟨fresh_start hpos (fun l hl => by cases hl) List.nodup_nil (by decide), known_start⟩
  · rintro w h a w' e - hi - hs ha
    obtain ⟨hf, hk⟩ := hi (lt_of_le_of_lt (allocated_le hs) ha)
    exact step_fresh hf hk hs ha

end Runs

/-! ### The result -/

/-- The request was made by one call of `submit_durable`, and no other call has its LSN. -/
def MadeDurably (made : List (WriteRequest × Bool)) (req : WriteRequest) : Prop :=
  ∃ before after, made = before ++ (req, true) :: after ∧ ∀ m ∈ before ++ after, m.1.seq ≠ req.seq

/-- A known request whose LSN is pending was made by `submit_durable`. -/
theorem Known.madeDurably {w : World} (hk : Known w) {req : WriteRequest}
    (hreq : ∃ b, (req, b) ∈ w.made) (hp : req.seq ∈ w.engine.sh.lsn.pending) :
    MadeDurably w.made req := by
  obtain ⟨b, hb⟩ := hreq
  obtain ⟨req', hmem, hseq⟩ := hk.pending _ hp
  have heq : (req', true) = (req, b) := List.inj_on_of_nodup_map hk.nodup hmem hb hseq
  obtain ⟨rfl, rfl⟩ := Prod.mk.inj heq
  obtain ⟨before, after, hsplit⟩ := List.append_of_mem hb
  refine ⟨before, after, hsplit, fun m hm hseq => ?_⟩
  have hnodup := hk.nodup
  rw [hsplit, List.map_append, List.map_cons] at hnodup
  have hnot := (List.nodup_middle.mp hnodup).notMem
  rw [← List.map_append] at hnot
  exact hnot (hseq ▸ List.mem_map_of_mem hm)

/-- **LSNs are unique for ever**: in every run of lifetimes on one log with fewer than `2 ^ 64 - 1`
allocations, no two frames of the log have one LSN, every LSN handed out is above all recovered at the
start of its lifetime, and draining a request takes no LSN out of the pending set but that of the
`submit_durable` call which made this request. -/
theorem lsns_unique {w : World} {h : List (Tid × Event)} (hr : Run system anyStep w h)
    (ha : w.allocated < 2 ^ 64 - 1) :
    (w.engine.sh.wal.records.map WalRecord.lsn).Nodup ∧
      (∀ l ∈ w.handed, ∀ r ∈ w.recovered, r < l) ∧
      ∀ t k moved req rest, w.engine.pc t = .drainNote k moved req rest → ∀ env w' e,
        w.step (.act (.run t env)) = some (w', e) → ∀ l ∈ w.engine.sh.lsn.pending,
          l ∉ w'.engine.sh.lsn.pending → l = req.seq ∧ MadeDurably w.made req := by
  obtain ⟨hf, hk⟩ := run_fresh hr ha
  refine ⟨(hf.nodup .worker).of_append_left, hf.handed,
    fun t k moved req rest hpc env w' e hs l hl hno => ?_⟩
  have hpending : w'.engine.sh.lsn.pending = w.engine.sh.lsn.pending.erase req.seq := by
    simp only [World.step, FluxEngine.step, hpc, Pc.step, Option.map_some] at hs
    obtain ⟨rfl, -⟩ := Prod.mk.inj (Option.some.inj hs)
    rfl
  have hl' : l = req.seq := by
    by_contra hne
    rw [hpending] at hno
    exact hno (Finset.mem_erase.mpr ⟨hne, hl⟩)
  have hreq : req ∈ carried (w.engine.pc t) := by
    rw [hpc]
    exact List.mem_cons_self
  exact ⟨hl', hk.madeDurably (hk.carried t req hreq) (hl' ▸ hl)⟩

/-- An append is cut behind its first frame. -/
def cut : Env := { Env.fine [] with append := .failed 1 true }

/-- A kill inside an append, a second lifetime, and a durable write about to be drained. -/
theorem lsns_unique_restarted : ∃ w h, Run system anyStep w h ∧ w.recovered = [1] ∧ w.handed = [2] ∧
    (w.engine.sh.wal.records.map WalRecord.lsn).Nodup ∧ MadeDurably w.made ⟨8, 2, [], 2⟩ := by
  obtain ⟨w, h, hr, hp⟩ := exists_run_of_exec system anyStep (fun _ _ _ => true)
    (fun _ _ _ _ => trivial) (World.start oneByOne Log.empty (fun _ => none) 0)
    [.act (.call 0 (.submitDurable 7 1 [])), .act (.run (.client 0) (.fine [])),
      .act (.run (.client 0) (.fine [])), .act (.run (.client 0) cut), .restart oneByOne,
      .act (.call 0 (.submitDurable 8 2 [])), .act (.run (.client 0) (.fine [])),
      .act (.run (.client 0) (.fine [])), .act (.run (.client 0) (.fine [])),
      .act (.run (.client 0) (.fine [])), .act (.run .worker (.fine [])),
      .act (.run .worker (.fine [])), .act (.run .worker (.fine []))]
    (fun x => decide (x.1.recovered = [1]) && decide (x.1.handed = [2]) &&
      decide (x.1.allocated = 2) && decide ((2 : Lsn) ∈ x.1.engine.sh.lsn.pending) &&
      decide (x.1.engine.pc .worker = .drainNote .steady 1 ⟨8, 2, [], 2⟩ []))
    ⟨_, _, rfl⟩ (by decide +kernel)
  simp only [Bool.and_eq_true, decide_eq_true_eq] at hp
  obtain ⟨⟨⟨⟨hrec, hhand⟩, halloc⟩, hpend⟩, hpc⟩ := hp
  have ha : w.allocated < 2 ^ 64 - 1 := by
    rw [halloc]
    decide
  obtain ⟨hnodup, -, hdrain⟩ := lsns_unique hr ha
  have hs : w.step (.act (.run .worker (.fine []))) = some (w.stepped .worker
      { w.engine.sh with lsn := w.engine.sh.lsn.noteDrained 2 }
      (.drainApply .steady 1 ⟨8, 2, [], 2⟩ []), []) := by
    simp only [World.step, FluxEngine.step, hpc, Pc.step, Option.map_some]
    rfl
  have hmade := hdrain .worker .steady 1 ⟨8, 2, [], 2⟩ [] hpc (.fine []) _ _ hs 2 hpend
    (Finset.notMem_erase _ _)
  exact ⟨w, h, hr, hrec, hhand, hnodup, hmade.2⟩

end FluxThroughput.Engine.Lifetimes
