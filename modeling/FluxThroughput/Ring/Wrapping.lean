import FluxThroughput.Lib.WrappingCounter
import FluxThroughput.Ring.Delivery
import FluxThroughput.Ring.Fifo

/-! # Counters that wrap

The ring once more, now with its stamps and counters in words of `w` bits: `wrapping_add` on the
counters, wrapping subtraction of stamps read as signed. One thread makes calls, an access at a time.
The word ring is the ring of `Machine` seen modulo `2 ^ w` (`narrow`), and makes the same accesses as
long as the numbers a call compares are close (`step_narrow`). `len` compares the counters as plain
integers, and so is exact when both have wrapped equally often and at no other time. -/

namespace FluxThroughput.Ring.Wrapping

open FluxThroughput.Lib.Pow2 FluxThroughput.Lib.Transition FluxThroughput.Lib.WrappingCounter
open FluxThroughput.Ring.Machine FluxThroughput.Ring.Invariant FluxThroughput.Ring.Delivery
open FluxThroughput.Ring.Fifo

variable {w : ℕ} {α : Type*}

/-! ### The buffer in words -/

structure WordCell (w : ℕ) (α : Type*) where
  sequence : BitVec w
  slot : Option α
  deriving DecidableEq

structure WordRing (w : ℕ) (α : Type*) where
  buffer : BitVec w → WordCell w α
  mask : BitVec w
  capacity : BitVec w
  enqueuePos : BitVec w
  dequeuePos : BitVec w

namespace WordRing

def new (capacity : ℕ) : WordRing w α :=
  let cap := nextPowerOfTwo (max capacity 1)
  { buffer := fun i => { sequence := i, slot := none }
    mask := BitVec.ofNat w (cap - 1)
    capacity := BitVec.ofNat w cap
    enqueuePos := 0
    dequeuePos := 0 }

def cell (r : WordRing w α) (pos : BitVec w) : WordCell w α := r.buffer (pos &&& r.mask)

def setCell (r : WordRing w α) (pos : BitVec w) (c : WordCell w α) : WordRing w α :=
  { r with buffer := Function.update r.buffer (pos &&& r.mask) c }

/-- `len`: the counters are compared and subtracted as they stand. -/
def len (r : WordRing w α) : BitVec w :=
  if r.enqueuePos ≤ r.dequeuePos then 0
  else if r.enqueuePos - r.dequeuePos ≤ r.capacity then r.enqueuePos - r.dequeuePos
  else r.capacity

/-- `is_empty` of the queue trait. -/
def isEmpty (r : WordRing w α) : Bool := r.len == 0

end WordRing

/-- What the thread does next, with its position in a word. -/
inductive WordPc (w : ℕ) (α : Type*)
  | idle
  | enqLoad (req : α)
  | enqStamp (req : α) (pos : BitVec w)
  | enqCas (req : α) (pos : BitVec w)
  | enqWrite (req : α) (pos : BitVec w)
  | enqPublish (req : α) (pos : BitVec w)
  | deqLoad
  | deqStamp (pos : BitVec w)
  | deqCas (pos : BitVec w)
  | deqRead (pos : BitVec w)
  | deqFree (req : α) (pos : BitVec w)
  | undefined
  deriving DecidableEq

/-- **One atomic access**, and the answer if the call returns. -/
def WordPc.step (spurious : Bool) (r : WordRing w α) :
    WordPc w α → Option (WordRing w α × WordPc w α × List (Answer α))
  | .idle => none
  | .enqLoad req => some (r, .enqStamp req r.enqueuePos, [])
  | .enqStamp req pos =>
    let diff := ((r.cell pos).sequence - pos).toInt
    if diff = 0 then some (r, .enqCas req pos, [])
    else if diff < 0 then some (r, .idle, [.full req])
    else some (r, .enqLoad req, [])
  | .enqCas req pos =>
    if spurious = false ∧ r.enqueuePos = pos then
      some ({ r with enqueuePos := pos + 1 }, .enqWrite req pos, [])
    else some (r, .enqStamp req r.enqueuePos, [])
  | .enqWrite req pos =>
    some (r.setCell pos { r.cell pos with slot := some req }, .enqPublish req pos, [])
  | .enqPublish _ pos =>
    some (r.setCell pos { r.cell pos with sequence := pos + 1 }, .idle, [.ok])
  | .deqLoad => some (r, .deqStamp r.dequeuePos, [])
  | .deqStamp pos =>
    let diff := ((r.cell pos).sequence - (pos + 1)).toInt
    if diff = 0 then some (r, .deqCas pos, [])
    else if diff < 0 then some (r, .idle, [.empty])
    else some (r, .deqLoad, [])
  | .deqCas pos =>
    if spurious = false ∧ r.dequeuePos = pos then
      some ({ r with dequeuePos := pos + 1 }, .deqRead pos, [])
    else some (r, .deqStamp r.dequeuePos, [])
  | .deqRead pos =>
    match (r.cell pos).slot with
    | some req => some (r.setCell pos { r.cell pos with slot := none }, .deqFree req pos, [])
    | none => some (r, .undefined, [])
  | .deqFree req pos =>
    some (r.setCell pos { r.cell pos with sequence := pos + r.mask + 1 }, .idle, [.got req])
  | .undefined => none

/-- The buffer and the thread. -/
structure One (w : ℕ) (α : Type*) where
  ring : WordRing w α
  pc : WordPc w α

/-- The thread begins a call when it is in none, or makes its next access. -/
def One.step (s : One w α) : Action Unit α → Option (One w α × List (Answer α))
  | .tryEnqueue _ req =>
    match s.pc with
    | .idle => some ({ s with pc := .enqLoad req }, [])
    | _ => none
  | .tryDequeue _ =>
    match s.pc with
    | .idle => some ({ s with pc := .deqLoad }, [])
    | _ => none
  | .run _ spurious =>
    match s.pc.step spurious s.ring with
    | some (r, pc, as) => some ({ ring := r, pc := pc }, as)
    | none => none

/-- One thread on a fresh buffer; the history is the answers of its calls. -/
def oneThread (w : ℕ) (α : Type*) (capacity : ℕ) : System (One w α) (Action Unit α) (Answer α) where
  init s := s = { ring := WordRing.new capacity, pc := .idle }
  step := One.step

/-- How many requests have been enqueued. -/
def enqueued (h : List (Answer α)) : ℕ := h.countP fun a => a matches .ok

/-- How many requests have been dequeued. -/
def dequeued (h : List (Answer α)) : ℕ := h.countP fun a => a matches .got _

/-! ### The ring modulo `2 ^ w` -/

def narrowCell (w : ℕ) (c : Cell α) : WordCell w α :=
  { sequence := BitVec.ofNat w c.sequence, slot := c.slot }

/-- The word ring that a ring with unbounded numbers looks like. -/
def narrow (w : ℕ) (r : RingBuffer α) : WordRing w α :=
  { buffer := fun i => narrowCell w (r.buffer i.toNat)
    mask := BitVec.ofNat w r.mask
    capacity := BitVec.ofNat w r.capacity
    enqueuePos := BitVec.ofNat w r.enqueuePos
    dequeuePos := BitVec.ofNat w r.dequeuePos }

def narrowPc (w : ℕ) : Pc α → WordPc w α
  | .idle => .idle
  | .enqLoad req => .enqLoad req
  | .enqStamp req pos => .enqStamp req (BitVec.ofNat w pos)
  | .enqCas req pos => .enqCas req (BitVec.ofNat w pos)
  | .enqWrite req pos => .enqWrite req (BitVec.ofNat w pos)
  | .enqPublish req pos => .enqPublish req (BitVec.ofNat w pos)
  | .deqLoad => .deqLoad
  | .deqStamp pos => .deqStamp (BitVec.ofNat w pos)
  | .deqCas pos => .deqCas (BitVec.ofNat w pos)
  | .deqRead pos => .deqRead (BitVec.ofNat w pos)
  | .deqFree req pos => .deqFree req (BitVec.ofNat w pos)
  | .undefined => .undefined

section Narrow
variable {r : RingBuffer α} {c : Cell α} {p : ℕ}

/-- The index of a position fits in a word. -/
theorem index_lt (hs : Shape r) (hw : r.capacity ≤ 2 ^ w) : p &&& r.mask < 2 ^ w := by
  rw [hs.index]
  have := hs.two_le
  exact (Nat.mod_lt p (by omega)).trans_le hw

theorem cell_narrow (hs : Shape r) (hw : r.capacity ≤ 2 ^ w) :
    (narrow w r).cell (BitVec.ofNat w p) = narrowCell w (r.cell p) := by
  unfold WordRing.cell narrow RingBuffer.cell
  dsimp only
  rw [← BitVec.ofNat_and, BitVec.toNat_ofNat, Nat.mod_eq_of_lt (index_lt hs hw)]

theorem setCell_narrow (hs : Shape r) (hw : r.capacity ≤ 2 ^ w) :
    (narrow w r).setCell (BitVec.ofNat w p) (narrowCell w c) = narrow w (r.setCell p c) := by
  have hidx : ∀ i : BitVec w, i = BitVec.ofNat w (p &&& r.mask) ↔ i.toNat = p &&& r.mask := by
    intro i
    rw [← BitVec.toNat_inj, BitVec.toNat_ofNat, Nat.mod_eq_of_lt (index_lt hs hw)]
  unfold WordRing.setCell narrow RingBuffer.setCell
  dsimp only
  congr 1
  funext i
  rw [← BitVec.ofNat_and]
  by_cases hi : i.toNat = p &&& r.mask
  · rw [(hidx i).mpr hi, Function.update_self, BitVec.toNat_ofNat,
      Nat.mod_eq_of_lt (index_lt hs hw), Function.update_self]
  · rw [Function.update_of_ne (fun h => hi ((hidx i).mp h)), Function.update_of_ne hi]

end Narrow

theorem narrow_new {capacity : ℕ} :
    narrow w (RingBuffer.new capacity : RingBuffer α) = WordRing.new capacity := by
  unfold narrow RingBuffer.new WordRing.new narrowCell
  simp

/-! ### One thread at a time -/

/-- A thread alone finds the counters as it has read them. -/
def Near (r : RingBuffer α) : Pc α → Prop
  | .enqStamp _ p => p = r.enqueuePos
  | .enqCas _ p => p = r.enqueuePos
  | .deqStamp p => p = r.dequeuePos
  | .deqCas p => p = r.dequeuePos
  | _ => True

section Steps
variable {s : Threads Unit α} {pc' : Pc α} {r' : RingBuffer α} {es : List (Event α)} {b : Bool}

/-- Every stamp is within the capacity of the counters. -/
theorem stamp_bounds (hi : Inv s) (q : ℕ) :
    s.ring.enqueuePos ≤ (s.ring.cell q).sequence + s.ring.capacity ∧
      (s.ring.cell q).sequence ≤ s.ring.dequeuePos + s.ring.capacity := by
  obtain ⟨p, hmod, h1, h2, hc⟩ := hi.cells q
  have hst := hi.stamp hc
  rw [hi.shape.cell_congr hmod] at hst
  omega

theorem Near.step (hn : Near s.ring (s.pc ()))
    (hs : (s.pc ()).step b s.ring = some (r', pc', es)) : Near r' pc' := by
  rcases hpc : s.pc () with _ | req | ⟨req, p⟩ | ⟨req, p⟩ | ⟨req, p⟩ | ⟨req, p⟩ | _ | p | p | p |
    ⟨req, p⟩ | _ <;> rw [hpc] at hs hn <;> simp only [Pc.step] at hs
  case enqStamp | deqStamp =>
    split_ifs at hs <;> cases hs
    · exact hn
    · trivial
    · trivial
  case enqCas | deqCas =>
    split_ifs at hs <;> cases hs
    · trivial
    · rfl
  case deqRead => split at hs <;> cases hs <;> trivial
  case idle | undefined => cases hs
  all_goals
    cases hs
    trivial

/-- **The same access, in words.** -/
theorem step_narrow (hi : Inv s) (hn : Near s.ring (s.pc ())) (hw : 4 * s.ring.capacity ≤ 2 ^ w) :
    (narrowPc w (s.pc ())).step b (narrow w s.ring) =
      ((s.pc ()).step b s.ring).map fun x =>
        (narrow w x.1, narrowPc w x.2.1, x.2.2.filterMap answer) := by
  have h2 := hi.shape.two_le
  have hle := hi.le
  have hlen := enq_le hi
  have hpos : 0 < w := by
    by_contra h0
    rw [show w = 0 by omega] at hw
    omega
  have hhalf : 2 ^ w = 2 * 2 ^ (w - 1) := by
    rw [← Nat.pow_succ']
    congr 1
    omega
  have hcell : ∀ p, (narrow w s.ring).cell (BitVec.ofNat w p) = narrowCell w (s.ring.cell p) :=
    fun p => cell_narrow hi.shape (by omega)
  have hset : ∀ p c, (narrow w s.ring).setCell (BitVec.ofNat w p) (narrowCell w c) =
      narrow w (s.ring.setCell p c) := fun p c => setCell_narrow hi.shape (by omega)
  rcases hpc : s.pc () with _ | req | ⟨req, p⟩ | ⟨req, p⟩ | ⟨req, p⟩ | ⟨req, p⟩ | _ | p | p | p |
    ⟨req, p⟩ | _ <;> rw [hpc] at hn <;> simp only [narrowPc, WordPc.step, Pc.step, hcell]
  case enqStamp =>
    obtain rfl := hn
    obtain ⟨hb1, hb2⟩ := stamp_bounds hi s.ring.enqueuePos
    have hdiff : ((narrowCell w (s.ring.cell s.ring.enqueuePos)).sequence -
        BitVec.ofNat w s.ring.enqueuePos).toInt =
          ((s.ring.cell s.ring.enqueuePos).sequence : ℤ) - s.ring.enqueuePos :=
      toInt_sub (by omega) (by omega) hpos
    rw [hdiff]
    split_ifs <;> rfl
  case deqStamp =>
    obtain rfl := hn
    obtain ⟨hb1, hb2⟩ := stamp_bounds hi s.ring.dequeuePos
    have hdiff : ((narrowCell w (s.ring.cell s.ring.dequeuePos)).sequence -
        (BitVec.ofNat w s.ring.dequeuePos + 1)).toInt =
          ((s.ring.cell s.ring.dequeuePos).sequence : ℤ) - (s.ring.dequeuePos + 1) := by
      have h := toInt_sub (w := w) (x := (s.ring.cell s.ring.dequeuePos).sequence)
        (y := s.ring.dequeuePos + 1) (by omega) (by omega) hpos
      rw [BitVec.ofNat_add] at h
      exact_mod_cast h
    rw [hdiff]
    split_ifs <;> rfl
  case enqCas =>
    obtain rfl := hn
    cases b
    · simp [narrow, answer, BitVec.ofNat_add]
    · simp [narrow]
  case deqCas =>
    obtain rfl := hn
    cases b
    · simp [narrow, answer, BitVec.ofNat_add]
    · simp [narrow]
  case enqWrite =>
    exact congrArg some (Prod.ext (hset p { s.ring.cell p with slot := some req }) rfl)
  case enqPublish =>
    have h := hset p { s.ring.cell p with sequence := p + 1 }
    rw [narrowCell, BitVec.ofNat_add] at h
    exact congrArg some (Prod.ext h rfl)
  case deqRead =>
    rcases hslot : (s.ring.cell p).slot with _ | req
    · simp [narrowCell, hslot]
    · have h := hset p { s.ring.cell p with slot := none }
      simpa [narrowCell, hslot] using h
  case deqFree =>
    have h := hset p { s.ring.cell p with sequence := p + s.ring.mask + 1 }
    rw [narrowCell, BitVec.ofNat_add, BitVec.ofNat_add] at h
    exact congrArg some (Prod.ext h rfl)
  all_goals rfl

end Steps

/-! ### Runs -/

section Runs
variable {s : Threads Unit α} {c : ℕ} {h : List (Unit × Event α)}

def narrowAll (w : ℕ) (s : Threads Unit α) : One w α :=
  { ring := narrow w s.ring, pc := narrowPc w (s.pc ()) }

/-- The answers of a history of accesses. -/
def answersOf (h : List (Unit × Event α)) : List (Answer α) := h.filterMap fun x => answer x.2

theorem answersOf_append (h e : List (Unit × Event α)) :
    answersOf (h ++ e) = answersOf h ++ answersOf e := List.filterMap_append

theorem narrowPc_eq_idle {pc : Pc α} : narrowPc w pc = .idle ↔ pc = .idle := by
  cases pc <;> simp [narrowPc]

/-- **The same step, in words.** -/
theorem one_step (hi : Inv s) (hn : Near s.ring (s.pc ())) (hw : 4 * s.ring.capacity ≤ 2 ^ w)
    (a : Action Unit α) : (narrowAll w s).step a =
      (s.step a).map fun x => (narrowAll w x.1, answersOf x.2) := by
  cases a with
  | tryEnqueue t req =>
    cases hpc : s.pc () <;> simp [One.step, Threads.step, narrowAll, hpc, narrowPc, answersOf]
  | tryDequeue t =>
    cases hpc : s.pc () <;> simp [One.step, Threads.step, narrowAll, hpc, narrowPc, answersOf]
  | run t b =>
    have h := step_narrow (b := b) hi hn hw
    simp only [One.step, Threads.step, narrowAll, h]
    rcases (s.pc ()).step b s.ring with _ | ⟨r, pc, es⟩
    · rfl
    · simp [answersOf, List.filterMap_map]

theorem near_step {s' : Threads Unit α} {a : Action Unit α} {e : List (Unit × Event α)}
    (hn : Near s.ring (s.pc ())) (hs : s.step a = some (s', e)) : Near s'.ring (s'.pc ()) := by
  rcases step_cases hs with ⟨t, pc', -, hpc, rfl, -⟩ | ⟨t, b, r, pc', es, -, hpc, rfl, -⟩
  · simp only [Function.update_self]
    rcases hpc with ⟨req, rfl⟩ | rfl
    · trivial
    · trivial
  · simp only [Function.update_self]
    exact hn.step hpc

/-- A thread alone, on a ring of the capacity `c` rounded up. -/
structure Alone (c : ℕ) (s : Threads Unit α) : Prop where
  near : Near s.ring (s.pc ())
  capacity : s.ring.capacity = nextPowerOfTwo (max c 1)

theorem run_alone (hr : Run (system Unit α c) anyStep s h) : Alone c s := by
  refine hr.invariant (I := fun s _ => Alone c s) ?_ ?_
  · rintro s rfl
    exact ⟨trivial, rfl⟩
  · rintro s h a s' e - hi - hs
    exact ⟨near_step hi.near hs, (capacity_step hs).trans hi.capacity⟩

/-- **A run in words is a run seen modulo `2 ^ w`.** -/
theorem run_narrow (hc : 2 ≤ c) (hw : 4 * nextPowerOfTwo (max c 1) ≤ 2 ^ w)
    (hr : Run (system Unit α c) anyStep s h) :
    Run (oneThread w α c) anyStep (narrowAll w s) (answersOf h) := by
  induction hr with
  | init hs =>
    obtain rfl := hs
    refine Run.init ?_
    change narrowAll w _ = _
    rw [narrowAll, narrow_new]
    rfl
  | @step s s' h e a hr _ hs ih =>
    have ha := run_alone hr
    have hone := one_step (run_inv hc hr).1 ha.near (ha.capacity ▸ hw) a
    change s.step a = _ at hs
    rw [hs, Option.map_some] at hone
    have hrun := ih.step (a := a) trivial hone
    rwa [answersOf_append]

theorem run_lift (hc : 2 ≤ c) (hw : 4 * nextPowerOfTwo (max c 1) ≤ 2 ^ w) {o : One w α}
    {as : List (Answer α)} (hr : Run (oneThread w α c) anyStep o as) :
    ∃ s h, Run (system Unit α c) anyStep s h ∧ o = narrowAll w s ∧ as = answersOf h := by
  induction hr with
  | init hs =>
    obtain rfl := hs
    refine ⟨_, [], Run.init rfl, ?_, rfl⟩
    rw [narrowAll, narrow_new]
    rfl
  | @step o o' as bs a hr _ hs ih =>
    obtain ⟨s, h, hr', rfl, rfl⟩ := ih
    have ha := run_alone hr'
    have hone := one_step (run_inv hc hr').1 ha.near (ha.capacity ▸ hw) a
    change (narrowAll w s).step a = _ at hs
    rw [hone, Option.map_eq_some_iff] at hs
    obtain ⟨⟨s', e⟩, hs, heq⟩ := hs
    cases heq
    exact ⟨s', h ++ e, hr'.step trivial hs, rfl, (answersOf_append h e).symm⟩

end Runs

/-! ### The length -/

/-- The length that two words show: the distance of the counters, or none when one has wrapped once
more than the other. -/
theorem len_narrow {r : RingBuffer α} (hle : r.dequeuePos ≤ r.enqueuePos)
    (hlt : r.enqueuePos ≤ r.dequeuePos + r.capacity) (hw : r.capacity < 2 ^ w) :
    (narrow w r).len.toNat =
      if r.enqueuePos / 2 ^ w = r.dequeuePos / 2 ^ w then r.enqueuePos - r.dequeuePos else 0 := by
  have hord := ofNat_le_iff (w := w) hle (by omega)
  have hcap : (BitVec.ofNat w r.capacity).toNat = r.capacity := by
    rw [BitVec.toNat_ofNat, Nat.mod_eq_of_lt hw]
  unfold WordRing.len narrow
  dsimp only
  by_cases hwraps : r.enqueuePos / 2 ^ w = r.dequeuePos / 2 ^ w
  · have hsub := toNat_sub hle (by omega) hwraps
    rw [if_pos hwraps]
    split_ifs with h1 h2
    · have heq := BitVec.le_antisymm h1 (hord.mpr hwraps)
      rw [ofNat_inj (by omega) (by omega)] at heq
      rw [heq, Nat.sub_self]
      rfl
    · exact hsub
    · rw [BitVec.le_def, hsub, hcap] at h2
      omega
  · have h1 : BitVec.ofNat w r.enqueuePos ≤ BitVec.ofNat w r.dequeuePos :=
      (BitVec.le_total _ _).resolve_right fun h => hwraps (hord.mp h)
    rw [if_pos h1, if_neg hwraps]
    rfl

theorem counts_answersOf (h : List (Unit × Event α)) :
    enqueued (answersOf h) = (ledger h).enqueued.length ∧
      dequeued (answersOf h) = (ledger h).dequeued.length := by
  induction h using List.reverseRecOn with
  | nil => exact ⟨rfl, rfl⟩
  | append_singleton h x ih =>
    obtain ⟨t, e⟩ := x
    have hl : ledger (h ++ [(t, e)]) = (ledger h).record e := ledger_append h t [e]
    unfold enqueued dequeued at ih ⊢
    rw [answersOf_append, List.countP_append, List.countP_append, hl, ih.1, ih.2]
    cases e <;> simp [answersOf, answer, Ledger.record]

/-- **What `len` answers between calls.** -/
theorem len_of_run {c : ℕ} (hc : 2 ≤ c) (hw : 4 * nextPowerOfTwo (max c 1) ≤ 2 ^ w) {s : One w α}
    {h : List (Answer α)} (hr : Run (oneThread w α c) anyStep s h) (hidle : s.pc = .idle) :
    dequeued h ≤ enqueued h ∧ s.ring.len.toNat =
      if enqueued h / 2 ^ w = dequeued h / 2 ^ w then enqueued h - dequeued h else 0 := by
  obtain ⟨n, g, hn, rfl, rfl⟩ := run_lift hc hw hr
  obtain ⟨hi, hb⟩ := run_inv hc hn
  have hidle' : ∀ t, n.pc t = .idle := fun t => narrowPc_eq_idle.mp hidle
  obtain ⟨hen, hde⟩ := hb.counts_of_idle hi hidle'
  obtain ⟨hce, hcd⟩ := counts_answersOf g
  have hcap := (run_alone hn).capacity
  have h2 := hi.shape.two_le
  rw [hce, hcd, hen, hde]
  exact ⟨hi.le, len_narrow hi.le (enq_le hi) (by omega)⟩

theorem isEmpty_iff {r : WordRing w α} : r.isEmpty = true ↔ r.len.toNat = 0 := by
  unfold WordRing.isEmpty
  rw [beq_iff_eq, ← BitVec.toNat_inj]
  rfl

/-! ### A lap of the words -/

section Laps
variable {c : ℕ} {s : Threads Unit α} {h : List (Unit × Event α)}

/-- A call by the one thread is a run. -/
theorem run_call {e : Event α} {r' : RingBuffer α} : ∀ {fuel : ℕ} {spurious : List Bool}
    {s : Threads Unit α} {h : List (Unit × Event α)}, Run (system Unit α c) anyStep s h →
      call fuel spurious s.ring (s.pc ()) = some (e, r') →
        ∃ h', Run (system Unit α c) anyStep { ring := r', pc := fun _ => .idle } h'
  | 0, _, _, _, _, hcall => by cases hcall
  | fuel + 1, spurious, s, h, hr, hcall => by
    rw [call] at hcall
    have hstep : ∀ {r pc es}, (s.pc ()).step (spurious.headD false) s.ring = some (r, pc, es) →
        Run (system Unit α c) anyStep { ring := r, pc := fun _ => pc } (h ++ es.map ((), ·)) := by
      intro r pc es hpc
      refine hr.step (a := .run () (spurious.headD false)) trivial ?_
      simp only [system, Threads.step, hpc]
      rfl
    split at hcall
    · rename_i hpc
      cases hcall
      exact ⟨_, hstep hpc⟩
    · rename_i hpc
      exact run_call (hstep hpc) hcall
    · cases hcall

theorem run_enqueue (hr : Run (system Unit α c) anyStep s h) (hidle : s.pc () = .idle)
    (hq : Queues s.ring []) (req : α) :
    ∃ h', Run (system Unit α c) anyStep { ring := pushed s.ring req, pc := fun _ => .idle } h' := by
  have h2 := hq.shape.two_le
  have hstart : Run (system Unit α c) anyStep
      { ring := s.ring, pc := Function.update s.pc () (.enqLoad req) } (h ++ []) := by
    refine hr.step (a := .tryEnqueue () req) trivial ?_
    simp only [system, Threads.step, hidle]
  have hroom : ([] : List α).length < s.ring.capacity := by
    rw [List.length_nil]
    omega
  obtain ⟨fuel, hcall⟩ : ∃ fuel, call fuel [] s.ring (.enqStamp req s.ring.enqueuePos) =
    some (.enqOk s.ring.enqueuePos req, pushed s.ring req) := call_enqueue hq hroom []
  have hload : call (fuel + 1) [] s.ring (.enqLoad req) =
      some (.enqOk s.ring.enqueuePos req, pushed s.ring req) := by
    rw [call_of_step rfl (by simp)]
    exact hcall
  exact run_call hstart (by simpa only [Function.update_self] using hload)

theorem run_dequeue (hr : Run (system Unit α c) anyStep s h) (hidle : s.pc () = .idle) {req : α}
    (hq : Queues s.ring [req]) :
    ∃ h', Run (system Unit α c) anyStep { ring := popped s.ring, pc := fun _ => .idle } h' := by
  have hstart : Run (system Unit α c) anyStep
      { ring := s.ring, pc := Function.update s.pc () .deqLoad } (h ++ []) := by
    refine hr.step (a := .tryDequeue ()) trivial ?_
    simp only [system, Threads.step, hidle]
  obtain ⟨fuel, hcall⟩ := call_pop hq []
  exact run_call hstart (by simpa only [Function.update_self] using hcall)

/-- Any number of requests can go through the ring one by one. -/
theorem run_laps (hc : 2 ≤ c) (req : α) : ∀ n, ∃ r h,
    Run (system Unit α c) anyStep { ring := r, pc := fun _ => .idle } h ∧ Queues r [] ∧
      r.dequeuePos = n
  | 0 => ⟨RingBuffer.new c, [], Run.init rfl, Queues.new hc, rfl⟩
  | n + 1 => by
    obtain ⟨r, h, hr, hq, hn⟩ := run_laps hc req n
    have h2 := hq.shape.two_le
    obtain ⟨h1, hr1⟩ := run_enqueue hr rfl hq req
    have hq1 : Queues (pushed r req) [req] := queues_pushed hq (by simp; omega)
    obtain ⟨h2, hr2⟩ := run_dequeue hr1 rfl hq1
    exact ⟨_, h2, hr2, queues_popped hq1, congrArg Nat.succ hn⟩

/-- And then one more, which stays. -/
theorem run_laps_queued (hc : 2 ≤ c) (hw : 4 * nextPowerOfTwo (max c 1) ≤ 2 ^ w) (req : α) (n : ℕ) :
    ∃ (s : One w α) (h : List (Answer α)), Run (oneThread w α c) anyStep s h ∧ s.pc = .idle ∧
      enqueued h = n + 1 ∧ dequeued h = n := by
  obtain ⟨r, h, hr, hq, hn⟩ := run_laps hc req n
  obtain ⟨h1, hr1⟩ := run_enqueue hr rfl hq req
  obtain ⟨hi, hb⟩ := run_inv hc hr1
  obtain ⟨hen, hde⟩ := hb.counts_of_idle hi fun _ => rfl
  obtain ⟨hce, hcd⟩ := counts_answersOf h1
  have henq : r.enqueuePos = r.dequeuePos := hq.enq
  refine ⟨_, _, run_narrow hc hw hr1, rfl, ?_, ?_⟩
  · rw [hce, hen]
    change r.enqueuePos + 1 = n + 1
    omega
  · rw [hcd, hde]
    exact hn

end Laps

/-! ### The result -/

/-- `len` and `is_empty` tell how many requests are queued. -/
def LenExact (s : One w α) (h : List (Answer α)) : Prop :=
  s.ring.len.toNat + dequeued h = enqueued h ∧ (s.ring.isEmpty = true ↔ enqueued h = dequeued h)

theorem room_of_le {c : ℕ} (hc : 2 ≤ c) (hw : nextPowerOfTwo (max c 1) ≤ 2 ^ (w - 2)) :
    4 * nextPowerOfTwo (max c 1) ≤ 2 ^ w := by
  have hcap : 2 ≤ nextPowerOfTwo (max c 1) :=
    hc.trans ((le_max_left c 1).trans (le_nextPowerOfTwo _))
  have h2 : 2 ≤ w := by
    by_contra hlt
    rw [show w - 2 = 0 by omega] at hw
    omega
  calc 4 * nextPowerOfTwo (max c 1) ≤ 2 ^ 2 * 2 ^ (w - 2) := Nat.mul_le_mul_left 4 hw
    _ = 2 ^ w := by rw [← Nat.pow_add, Nat.add_sub_cancel' h2]

/-- **`len` is exact between calls if and only if both counters have wrapped equally often.** -/
theorem len_exact_iff {c : ℕ} (hc : 2 ≤ c) (hw : nextPowerOfTwo (max c 1) ≤ 2 ^ (w - 2))
    {s : One w α} {h : List (Answer α)} (hr : Run (oneThread w α c) anyStep s h)
    (hidle : s.pc = .idle) :
    LenExact s h ↔ enqueued h / 2 ^ w = dequeued h / 2 ^ w := by
  obtain ⟨hle, hlen⟩ := len_of_run hc (room_of_le hc hw) hr hidle
  unfold LenExact
  rw [isEmpty_iff, hlen]
  by_cases hwraps : enqueued h / 2 ^ w = dequeued h / 2 ^ w
  · rw [if_pos hwraps]
    omega
  · rw [if_neg hwraps]
    have hne : enqueued h ≠ dequeued h := fun h => hwraps (by rw [h])
    omega

/-- One request queued before either counter has wrapped. -/
theorem len_exact_iff_first : ∃ (s : One 32 ℕ) (h : List (Answer ℕ)),
    Run (oneThread 32 ℕ 1024) anyStep s h ∧ enqueued h = 1 ∧ dequeued h = 0 ∧ LenExact s h := by
  obtain ⟨s, h, hr, hidle, hen, hde⟩ := run_laps_queued (w := 32) (c := 1024) (by decide) (by decide)
    (7 : ℕ) 0
  exact ⟨s, h, hr, hen, hde, (len_exact_iff (by decide) (by decide) hr hidle).mpr (by rw [hen, hde]; rfl)⟩

/-- On a 32-bit target, the enqueue that wraps its counter: one request is queued, `len` answers 0 and
`is_empty` that there is none. -/
theorem len_wraps :
    (¬ ∀ w c, 2 ≤ c → nextPowerOfTwo (max c 1) ≤ 2 ^ (w - 2) → ∀ (s : One w ℕ) (h : List (Answer ℕ)),
      Run (oneThread w ℕ c) anyStep s h → s.pc = .idle → LenExact s h) ∧
    ∃ (s : One 32 ℕ) (h : List (Answer ℕ)), Run (oneThread 32 ℕ 1024) anyStep s h ∧ s.pc = .idle ∧
      enqueued h = 2 ^ 32 ∧ dequeued h = 2 ^ 32 - 1 ∧ s.ring.len = 0 ∧ s.ring.isEmpty = true := by
  obtain ⟨s, h, hr, hidle, hen, hde⟩ := run_laps_queued (w := 32) (c := 1024) (by decide) (by decide)
    (7 : ℕ) (2 ^ 32 - 1)
  have hwraps : ¬ enqueued h / 2 ^ 32 = dequeued h / 2 ^ 32 := by
    rw [hen, hde]
    decide
  have hlen := (len_of_run (by decide) (by decide) hr hidle).2
  rw [if_neg hwraps] at hlen
  refine ⟨fun hall => ?_, s, h, hr, hidle, hen, hde, BitVec.toNat_inj.mp hlen, isEmpty_iff.mpr hlen⟩
  have hexact := (hall 32 1024 (by decide) (by decide) s h hr hidle).1
  omega

end FluxThroughput.Ring.Wrapping
