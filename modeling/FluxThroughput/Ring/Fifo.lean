import FluxThroughput.Ring.Invariant

/-! # One thread and a bounded queue

A single thread's calls against the FIFO queue they are meant to be. With at least two cells the ring
is that queue (`Queues`, kept by every call). With one cell the published stamp `p + 1` is also the
free stamp of the next lap, so a second request overwrites the first; `ring_fifo_iff` says that this is
the only exception. -/

namespace FluxThroughput.Ring.Fifo

open FluxThroughput.Lib.Pow2 FluxThroughput.Ring.Machine FluxThroughput.Ring.Invariant

variable {α : Type*}

/-! ### The queue -/

/-- A FIFO queue of at most `cap` requests: what it answers to a call, and the queue after it. -/
def answers (cap : ℕ) (q : List α) : Op α → Answer α × List α
  | .tryEnqueue req _ => if q.length < cap then (.ok, q ++ [req]) else (.full req, q)
  | .tryDequeue _ =>
    match q with
    | [] => (.empty, [])
    | req :: q => (.got req, q)
  | .drainInto max _ => (.drained (q.take max), q.drop max)
  | .len => (.len q.length, q)

def fifo (cap : ℕ) : List α → List (Op α) → List (Answer α)
  | _, [] => []
  | q, op :: ops => (answers cap q op).1 :: fifo cap (answers cap q op).2 ops

/-- **The ring of a requested capacity is a FIFO queue** of that capacity, rounded up: every sequence
of calls terminates, with the queue's answers. -/
def BoundedFifo (α : Type*) (c : ℕ) : Prop :=
  ∀ ops : List (Op α), ∃ fuel,
    run fuel (RingBuffer.new c) ops = some (fifo (nextPowerOfTwo (max c 1)) [] ops)

/-! ### Fuel -/

section Fuel
variable {r r' : RingBuffer α} {pc pc' : Pc α} {spurious : List Bool} {e : Event α}
  {es : List (Event α)}

theorem call_of_step {fuel : ℕ} (h : pc.step (spurious.headD false) r = some (r', pc', es))
    (hne : pc' ≠ .idle) : call (fuel + 1) spurious r pc = call fuel spurious.tail r' pc' := by
  rw [call, h]
  cases pc' <;> first | rfl | exact absurd rfl hne

theorem call_of_answer {fuel : ℕ} (h : pc.step (spurious.headD false) r = some (r', .idle, [e])) :
    call (fuel + 1) spurious r pc = some (e, r') := by
  rw [call, h]

theorem call_succ : ∀ {fuel : ℕ} {spurious : List Bool} {r : RingBuffer α} {pc : Pc α}
    {x : Event α × RingBuffer α}, call fuel spurious r pc = some x →
      call (fuel + 1) spurious r pc = some x
  | 0, _, _, _, _, h => by cases h
  | fuel + 1, spurious, r, pc, x, h => by
    rw [call] at h ⊢
    split at h
    · exact h
    · exact call_succ h
    · cases h

theorem call_mono {fuel fuel' : ℕ} (hle : fuel ≤ fuel') {x : Event α × RingBuffer α}
    (h : call fuel spurious r pc = some x) : call fuel' spurious r pc = some x := by
  induction hle with
  | refl => exact h
  | step _ ih => exact call_succ ih

theorem drainInto_mono {fuel fuel' : ℕ} (hle : fuel ≤ fuel') :
    ∀ {max : ℕ} {spurious : List (List Bool)} {r : RingBuffer α} {x : List α × RingBuffer α},
      drainInto fuel max spurious r = some x → drainInto fuel' max spurious r = some x
  | 0, _, _, _, h => h
  | max + 1, spurious, r, x, h => by
    rw [drainInto] at h ⊢
    rcases hc : call fuel (spurious.headD []) r .deqLoad with _ | ⟨e, r'⟩
    · simp only [hc] at h
      cases h
    · rw [call_mono hle hc]
      simp only [hc] at h
      cases e with
      | deqOk pos req =>
        rcases hd : drainInto fuel max spurious.tail r' with _ | y
        · simp only [hd] at h
          cases h
        · simp only [hd] at h
          simp only [drainInto_mono hle hd]
          exact h
      | _ => exact h

theorem apply_mono {fuel fuel' : ℕ} (hle : fuel ≤ fuel') {op : Op α} {x : Answer α × RingBuffer α}
    (h : op.apply fuel r = some x) : op.apply fuel' r = some x := by
  cases op with
  | tryEnqueue req spurious =>
    simp only [Op.apply, Option.bind_eq_some_iff] at h ⊢
    obtain ⟨y, hy, hx⟩ := h
    exact ⟨y, call_mono hle hy, hx⟩
  | tryDequeue spurious =>
    simp only [Op.apply, Option.bind_eq_some_iff] at h ⊢
    obtain ⟨y, hy, hx⟩ := h
    exact ⟨y, call_mono hle hy, hx⟩
  | drainInto max spurious =>
    simp only [Op.apply, Option.map_eq_some_iff] at h ⊢
    obtain ⟨y, hy, hx⟩ := h
    exact ⟨y, drainInto_mono hle hy, hx⟩
  | len => exact h

theorem run_mono {fuel fuel' : ℕ} (hle : fuel ≤ fuel') : ∀ {ops : List (Op α)}
    {r : RingBuffer α} {as : List (Answer α)}, run fuel r ops = some as → run fuel' r ops = some as
  | [], _, _, h => h
  | op :: ops, r, as, h => by
    rw [run] at h ⊢
    rcases hop : op.apply fuel r with _ | ⟨a, r'⟩
    · simp only [hop] at h
      cases h
    · simp only [hop, Option.map_eq_some_iff] at h
      obtain ⟨as', has, rfl⟩ := h
      simp only [apply_mono hle hop, run_mono hle has, Option.map_some]

/-- A sequence of calls has one outcome. -/
theorem run_unique {fuel fuel' : ℕ} {ops : List (Op α)} {as bs : List (Answer α)}
    (ha : run fuel r ops = some as) (hb : run fuel' r ops = some bs) : as = bs := by
  have h1 := run_mono (le_max_left fuel fuel') ha
  have h2 := run_mono (le_max_right fuel fuel') hb
  exact Option.some.inj (h1.symm.trans h2)

end Fuel

/-! ### The refinement -/

/-- **The ring holds the queue** `q`: from `dequeue_pos` on, published cells with its requests, then
free cells. -/
structure Queues (r : RingBuffer α) (q : List α) : Prop where
  shape : Shape r
  enq : r.enqueuePos = r.dequeuePos + q.length
  le : q.length ≤ r.capacity
  cells : ∀ j < r.capacity, r.cell (r.dequeuePos + j) =
    ⟨if j < q.length then r.dequeuePos + j + 1 else r.dequeuePos + j, q[j]?⟩

theorem Queues.new {c : ℕ} (h : 2 ≤ c) : Queues (RingBuffer.new c : RingBuffer α) [] where
  shape := Shape.new h
  enq := rfl
  le := Nat.zero_le _
  cells j hj := by
    unfold RingBuffer.cell
    rw [(Shape.new h).index]
    have : (RingBuffer.new c : RingBuffer α).dequeuePos + j = j := Nat.zero_add j
    rw [this, Nat.mod_eq_of_lt hj]
    rfl

section Queues
variable {r r' : RingBuffer α} {q : List α} {req : α}

theorem Queues.push (hq : Queues r q) (hlt : q.length < r.capacity) (hs : Shape r')
    (hcap : r'.capacity = r.capacity) (henq : r'.enqueuePos = r.enqueuePos + 1)
    (hdeq : r'.dequeuePos = r.dequeuePos)
    (hcell : r'.cell r.enqueuePos = ⟨r.enqueuePos + 1, some req⟩)
    (hframe : ∀ p, p % r.capacity ≠ r.enqueuePos % r.capacity → r'.cell p = r.cell p) :
    Queues r' (q ++ [req]) where
  shape := hs
  enq := by rw [henq, hdeq, hq.enq, List.length_append, List.length_singleton, Nat.add_assoc]
  le := by rw [List.length_append, List.length_singleton, hcap]; omega
  cells j hj := by
    rw [hcap] at hj
    rw [hdeq, List.length_append, List.length_singleton]
    by_cases hjl : j = q.length
    · subst hjl
      rw [← hq.enq, hcell, if_pos (Nat.lt_succ_self _), List.getElem?_append_right le_rfl,
        Nat.sub_self]
      rfl
    · rw [hframe, hq.cells j hj]
      · by_cases hlt : j < q.length
        · rw [if_pos hlt, if_pos (by omega), List.getElem?_append_left hlt]
        · rw [if_neg hlt, if_neg (by omega), List.getElem?_eq_none (by omega),
            List.getElem?_eq_none (by rw [List.length_append, List.length_singleton]; omega)]
      · intro hmod
        rw [hq.enq] at hmod
        have := eq_of_mod_eq hmod (by omega) (by omega)
        omega

theorem Queues.pop (hq : Queues r (req :: q)) (hs : Shape r') (hcap : r'.capacity = r.capacity)
    (henq : r'.enqueuePos = r.enqueuePos) (hdeq : r'.dequeuePos = r.dequeuePos + 1)
    (hcell : r'.cell r.dequeuePos = ⟨r.dequeuePos + r.capacity, none⟩)
    (hframe : ∀ p, p % r.capacity ≠ r.dequeuePos % r.capacity → r'.cell p = r.cell p) :
    Queues r' q where
  shape := hs
  enq := by rw [henq, hdeq, hq.enq, List.length_cons]; omega
  le := by
    have := hq.le
    rw [List.length_cons] at this
    omega
  cells j hj := by
    rw [hcap] at hj
    have hle := hq.le
    rw [List.length_cons] at hle
    rw [hdeq, show r.dequeuePos + 1 + j = r.dequeuePos + (j + 1) by omega]
    by_cases hjl : j + 1 = r.capacity
    · rw [hjl, hs.cell_congr (q := r.dequeuePos) (by rw [hcap, Nat.add_mod_right]), hcell,
        if_neg (by omega), List.getElem?_eq_none (by omega)]
    · rw [hframe, hq.cells (j + 1) (by omega), List.length_cons, List.getElem?_cons_succ]
      · by_cases hlt : j < q.length
        · rw [if_pos hlt, if_pos (by omega)]
        · rw [if_neg hlt, if_neg (by omega)]
      · intro hmod
        have := eq_of_mod_eq hmod (by omega) (by omega)
        omega

/-! ### Calls -/

/-- The buffer after the claim of a position, the write and the publication. -/
def pushed (r : RingBuffer α) (req : α) : RingBuffer α :=
  let r1 := { r with enqueuePos := r.enqueuePos + 1 }
  let r2 := r1.setCell r.enqueuePos { r1.cell r.enqueuePos with slot := some req }
  r2.setCell r.enqueuePos { r2.cell r.enqueuePos with sequence := r.enqueuePos + 1 }

/-- The buffer after the claim of a position, the read and the release. -/
def popped (r : RingBuffer α) : RingBuffer α :=
  let r1 := { r with dequeuePos := r.dequeuePos + 1 }
  let r2 := r1.setCell r.dequeuePos { r1.cell r.dequeuePos with slot := none }
  r2.setCell r.dequeuePos
    { r2.cell r.dequeuePos with sequence := r.dequeuePos + r.mask + 1 }

theorem queues_pushed (hq : Queues r q) (hlt : q.length < r.capacity) :
    Queues (pushed r req) (q ++ [req]) := by
  have hs1 : Shape { r with enqueuePos := r.enqueuePos + 1 } :=
    ⟨hq.shape.mask, hq.shape.pow, hq.shape.two_le⟩
  refine hq.push hlt ((hs1.setCell _ _).setCell _ _) rfl rfl rfl ?_ fun p hp => ?_
  · unfold pushed
    rw [(hs1.setCell _ _).cell_setCell rfl, hs1.cell_setCell rfl]
  · unfold pushed
    rw [(hs1.setCell _ _).cell_setCell_ne hp, hs1.cell_setCell_ne hp]
    rfl

theorem queues_popped (hq : Queues r (req :: q)) : Queues (popped r) q := by
  have h2 := hq.shape.two_le
  have hs1 : Shape { r with dequeuePos := r.dequeuePos + 1 } :=
    ⟨hq.shape.mask, hq.shape.pow, hq.shape.two_le⟩
  refine hq.pop ((hs1.setCell _ _).setCell _ _) rfl rfl rfl ?_ fun p hp => ?_
  · unfold popped
    rw [(hs1.setCell _ _).cell_setCell rfl, hs1.cell_setCell rfl, hq.shape.mask, Nat.add_assoc,
      Nat.sub_add_cancel (by omega)]
  · unfold popped
    rw [(hs1.setCell _ _).cell_setCell_ne hp, hs1.cell_setCell_ne hp]
    rfl

theorem Queues.cell_enq (hq : Queues r q) (hlt : q.length < r.capacity) :
    r.cell r.enqueuePos = ⟨r.enqueuePos, none⟩ := by
  rw [hq.enq, hq.cells _ hlt, if_neg (lt_irrefl _), List.getElem?_eq_none le_rfl]

theorem Queues.cell_deq (hq : Queues r (req :: q)) :
    r.cell r.dequeuePos = ⟨r.dequeuePos + 1, some req⟩ := by
  have h2 := hq.shape.two_le
  have := hq.cells 0 (by omega)
  rwa [Nat.add_zero, if_pos (by simp), List.getElem?_cons_zero] at this

/-- A compare-and-swap that fails spuriously is retried from the stamp, until it does not fail. -/
theorem call_retry {stamp cas : Pc α} {x : Event α × RingBuffer α} (hs : stamp ≠ .idle)
    (hc : cas ≠ .idle) (hstamp : ∀ b, stamp.step b r = some (r, cas, []))
    (hlose : cas.step true r = some (r, stamp, []))
    (hdone : ∀ spurious : List Bool, spurious.tail.headD false = false →
      ∃ fuel, call fuel spurious r stamp = some x) :
    ∀ spurious : List Bool, ∃ fuel, call fuel spurious r stamp = some x
  | [] => hdone [] rfl
  | [b] => hdone [b] rfl
  | b :: false :: bs => hdone (b :: false :: bs) rfl
  | b :: true :: bs => by
    obtain ⟨fuel, h⟩ := call_retry hs hc hstamp hlose hdone bs
    refine ⟨fuel + 2, ?_⟩
    have hlose' : cas.step ((b :: true :: bs).tail.headD false) r = some (r, stamp, []) := hlose
    rw [call_of_step (hstamp _) hc, call_of_step hlose' hs]
    exact h

/-- `try_enqueue` on a queue that is not full, from the load of the stamp. -/
theorem call_enqueue (hq : Queues r q) (hlt : q.length < r.capacity) (spurious : List Bool) :
    ∃ fuel, call fuel spurious r (.enqStamp req r.enqueuePos) =
      some (.enqOk r.enqueuePos req, pushed r req) := by
  have hstamp : ∀ b, (Pc.enqStamp req r.enqueuePos).step b r =
      some (r, .enqCas req r.enqueuePos, []) := fun b => by simp [Pc.step, hq.cell_enq hlt]
  have hwin : (Pc.enqCas req r.enqueuePos).step false r =
      some ({ r with enqueuePos := r.enqueuePos + 1 }, .enqWrite req r.enqueuePos,
        [.enqClaimed r.enqueuePos req]) := by simp [Pc.step]
  refine call_retry (by simp) (by simp) hstamp (by simp [Pc.step]) (fun spurious hsp => ?_) spurious
  rw [← hsp] at hwin
  refine ⟨4, ?_⟩
  rw [call_of_step (hstamp _) (by simp), call_of_step hwin (by simp), call_of_step rfl (by simp)]
  exact call_of_answer rfl

/-- `try_dequeue` on a queue that is not empty, from the load of the stamp. -/
theorem call_dequeue (hq : Queues r (req :: q)) (spurious : List Bool) :
    ∃ fuel, call fuel spurious r (.deqStamp r.dequeuePos) =
      some (.deqOk r.dequeuePos req, popped r) := by
  have hstamp : ∀ b, (Pc.deqStamp r.dequeuePos).step b r =
      some (r, .deqCas r.dequeuePos, []) := fun b => by simp [Pc.step, hq.cell_deq]
  have hwin : (Pc.deqCas r.dequeuePos).step false r =
      some ({ r with dequeuePos := r.dequeuePos + 1 }, .deqRead r.dequeuePos,
        [.deqClaimed r.dequeuePos]) := by simp [Pc.step]
  have hread : ∀ b, (Pc.deqRead r.dequeuePos).step b { r with dequeuePos := r.dequeuePos + 1 } =
      some (RingBuffer.setCell { r with dequeuePos := r.dequeuePos + 1 } r.dequeuePos
        { r.cell r.dequeuePos with slot := none }, .deqFree req r.dequeuePos, []) := by
    intro b
    have hc : RingBuffer.cell { r with dequeuePos := r.dequeuePos + 1 } r.dequeuePos =
        ⟨r.dequeuePos + 1, some req⟩ := hq.cell_deq
    simp only [Pc.step, hc, hq.cell_deq]
  refine call_retry (by simp) (by simp) hstamp (by simp [Pc.step]) (fun spurious hsp => ?_) spurious
  rw [← hsp] at hwin
  refine ⟨4, ?_⟩
  rw [call_of_step (hstamp _) (by simp), call_of_step hwin (by simp),
    call_of_step (hread _) (by simp)]
  exact call_of_answer rfl

theorem call_full (hq : Queues r q) (hfull : q.length = r.capacity) (spurious : List Bool) :
    call 2 spurious r (.enqLoad req) = some (.enqFull req, r) := by
  have h2 := hq.shape.two_le
  have hcell : (r.cell r.enqueuePos).sequence = r.dequeuePos + 1 := by
    rw [hq.enq, hfull, hq.shape.cell_congr (q := r.dequeuePos) (Nat.add_mod_right _ _)]
    have := hq.cells 0 (by omega)
    rw [Nat.add_zero, if_pos (by omega)] at this
    rw [this]
  have hstamp : ∀ b, (Pc.enqStamp req r.enqueuePos).step b r = some (r, .idle, [.enqFull req]) := by
    intro b
    have henq := hq.enq
    simp only [Pc.step]
    rw [if_neg (by omega), if_pos (by omega)]
  rw [call_of_step rfl (by simp)]
  exact call_of_answer (hstamp _)

theorem call_empty (hq : Queues r []) (spurious : List Bool) :
    call 2 spurious r .deqLoad = some (.deqEmpty, r) := by
  have h2 := hq.shape.two_le
  have hcell : (r.cell r.dequeuePos).sequence = r.dequeuePos := by
    have := hq.cells 0 (by omega)
    rw [Nat.add_zero, if_neg (by simp)] at this
    rw [this]
  have hstamp : ∀ b, (Pc.deqStamp r.dequeuePos).step b r = some (r, .idle, [.deqEmpty]) := by
    intro b
    simp only [Pc.step]
    rw [if_neg (by omega), if_pos (by omega)]
  rw [call_of_step rfl (by simp)]
  exact call_of_answer (hstamp _)

theorem call_pop (hq : Queues r (req :: q)) (spurious : List Bool) :
    ∃ fuel, call fuel spurious r .deqLoad = some (.deqOk r.dequeuePos req, popped r) := by
  obtain ⟨fuel, h⟩ := call_dequeue hq spurious.tail
  exact ⟨fuel + 1, by rw [call_of_step rfl (by simp)]; exact h⟩

/-- `drain_into` pops in order, until it has `max` requests or the queue is empty. -/
theorem drain_queue : ∀ (max : ℕ) (spurious : List (List Bool)) {r : RingBuffer α} {q : List α},
    Queues r q → ∃ fuel r', drainInto fuel max spurious r = some (q.take max, r') ∧
      Queues r' (q.drop max) ∧ r'.capacity = r.capacity
  | 0, _, r, q, hq => ⟨0, r, by rw [List.take_zero]; rfl, by rwa [List.drop_zero], rfl⟩
  | max + 1, spurious, r, [], hq => by
    refine ⟨2, r, ?_, hq, rfl⟩
    simp only [drainInto, call_empty hq, List.take_nil]
  | max + 1, spurious, r, req :: q, hq => by
    obtain ⟨f1, h1⟩ := call_pop hq (spurious.headD [])
    obtain ⟨f2, r', h2, hq', hcap⟩ := drain_queue max spurious.tail (queues_popped hq)
    refine ⟨Nat.max f1 f2, r', ?_, hq', hcap⟩
    simp only [drainInto, call_mono (Nat.le_max_left f1 f2) h1,
      drainInto_mono (Nat.le_max_right f1 f2) h2, List.take_succ_cons]

theorem Queues.len (hq : Queues r q) : r.len = q.length := by
  have := hq.enq
  have := hq.le
  unfold RingBuffer.len
  split_ifs
  · omega
  · omega

/-- **Every call answers as the queue does**, and leaves the ring holding the queue after it. -/
theorem Queues.apply (hq : Queues r q) (op : Op α) : ∃ fuel r',
    op.apply fuel r = some ((answers r.capacity q op).1, r') ∧
    Queues r' (answers r.capacity q op).2 ∧ r'.capacity = r.capacity := by
  cases op with
  | tryEnqueue req spurious =>
    by_cases hlt : q.length < r.capacity
    · obtain ⟨fuel, h⟩ : ∃ fuel, call fuel spurious.tail r (.enqStamp req r.enqueuePos) =
          some (.enqOk r.enqueuePos req, pushed r req) := call_enqueue hq hlt spurious.tail
      refine ⟨fuel + 1, pushed r req, ?_, ?_, rfl⟩
      · rw [Op.apply, call_of_step rfl (by simp), h, answers, if_pos hlt]
        rfl
      · rw [answers, if_pos hlt]
        exact queues_pushed hq hlt
    · refine ⟨2, r, ?_, ?_, rfl⟩
      · rw [Op.apply, call_full hq (hq.le.antisymm (not_lt.mp hlt)), answers, if_neg hlt]
        rfl
      · rw [answers, if_neg hlt]
        exact hq
  | tryDequeue spurious =>
    cases q with
    | nil => exact ⟨2, r, by rw [Op.apply, call_empty hq]; rfl, hq, rfl⟩
    | cons req q =>
      obtain ⟨fuel, h⟩ := call_pop hq spurious
      exact ⟨fuel, popped r, by rw [Op.apply, h]; rfl, (queues_popped hq), rfl⟩
  | drainInto max spurious =>
    obtain ⟨fuel, r', h, hq', hcap⟩ := drain_queue max spurious hq
    exact ⟨fuel, r', by rw [Op.apply, h]; rfl, hq', hcap⟩
  | len => exact ⟨0, r, by rw [Op.apply, hq.len]; rfl, hq, rfl⟩

/-- Every sequence of calls answers as the queue does. -/
theorem Queues.run : ∀ (ops : List (Op α)) {r : RingBuffer α} {q : List α}, Queues r q →
    ∃ fuel, Machine.run fuel r ops = some (fifo r.capacity q ops)
  | [], _, _, _ => ⟨0, rfl⟩
  | op :: ops, r, q, hq => by
    obtain ⟨f1, r', h1, hq', hcap⟩ := hq.apply op
    obtain ⟨f2, h2⟩ := Queues.run ops hq'
    refine ⟨max f1 f2, ?_⟩
    rw [hcap] at h2
    simp only [Machine.run, apply_mono (le_max_left f1 f2) h1, run_mono (le_max_right f1 f2) h2,
      fifo, Option.map_some]

end Queues

/-! ### One cell -/

/-- Two enqueues on a ring of one cell both answer `Ok`. -/
theorem run_one (a : α) {c : ℕ} (hc : c ≤ 1) :
    run 5 (RingBuffer.new c) [.tryEnqueue a [], .tryEnqueue a []] = some [.ok, .ok] := by
  have h1 : max c 1 = 1 := max_eq_right hc
  have h2 : nextPowerOfTwo 1 = 1 := rfl
  unfold RingBuffer.new
  rw [h1, h2]
  simp [run, Op.apply, call, Pc.step, RingBuffer.cell, RingBuffer.setCell, answer]

theorem not_fifo_of_le_one [Inhabited α] {c : ℕ} (hc : c ≤ 1) : ¬ BoundedFifo α c := by
  intro h
  obtain ⟨fuel, h⟩ := h [.tryEnqueue default [], .tryEnqueue default []]
  have h1 : max c 1 = 1 := max_eq_right hc
  have h2 : nextPowerOfTwo 1 = 1 := rfl
  have := run_unique (run_one default hc) h
  rw [h1, h2] at this
  cases this

/-- A one-cell ring that holds two requests: `try_dequeue` reads the counter and the stamp forever. -/
theorem call_one_diverges {r : RingBuffer α} (hd : r.dequeuePos = 0) (hs : (r.cell 0).sequence = 2) :
    ∀ fuel spurious, call fuel spurious r .deqLoad = none
  | 0, _ => rfl
  | 1, _ => rfl
  | fuel + 2, spurious => by
    have hstamp : ∀ b, (Pc.deqStamp 0).step b r = some (r, .deqLoad, []) := by
      intro b
      simp only [Pc.step]
      rw [if_neg (by omega), if_neg (by omega)]
    rw [call_of_step rfl (by simp), hd, call_of_step (hstamp _) (by simp)]
    exact call_one_diverges hd hs fuel _

/-! ### The result -/

/-- **The ring is a bounded FIFO queue exactly when at least two slots are requested.** -/
theorem ring_fifo_iff [Inhabited α] (c : ℕ) : BoundedFifo α c ↔ 2 ≤ c := by
  constructor
  · intro h
    by_contra hlt
    exact not_fifo_of_le_one (by omega) h
  · intro h ops
    rw [max_eq_left (by omega)]
    obtain ⟨fuel, hr⟩ := (Queues.new (α := α) h).run ops
    refine ⟨fuel, hr.trans ?_⟩
    unfold RingBuffer.new
    rw [max_eq_left (by omega)]

/-- A requested capacity of one: the second request overwrites the first, and dequeuing hangs. -/
theorem one_slot_overwrites :
    ¬ BoundedFifo ℕ 1 ∧
    run 5 (RingBuffer.new 1) [.tryEnqueue 7 [], .tryEnqueue 8 []] = some [.ok, .ok] ∧
    fifo 1 [] [.tryEnqueue 7 [], .tryEnqueue 8 []] = [.ok, .full 8] ∧
    ∀ fuel, run fuel (RingBuffer.new 1) [.tryEnqueue 7 [], .tryEnqueue 8 [], .tryDequeue []] =
      none := by
  refine ⟨not_fifo_of_le_one le_rfl, by decide, by decide, fun fuel => ?_⟩
  have h1 : (Op.tryEnqueue 7 []).apply 5 (RingBuffer.new 1) =
      some (.ok, pushed (RingBuffer.new 1) 7) := rfl
  have h2 : (Op.tryEnqueue 8 []).apply 5 (pushed (RingBuffer.new 1) 7) =
      some (.ok, pushed (pushed (RingBuffer.new 1) 7) 8) := rfl
  have h3 : (Op.tryDequeue []).apply (fuel + 5) (pushed (pushed (RingBuffer.new 1) 7) 8) = none := by
    rw [Op.apply, call_one_diverges rfl rfl]
    rfl
  rw [Option.eq_none_iff_forall_ne_some]
  intro as has
  have has' := run_mono (Nat.le_add_right fuel 5) has
  simp only [run, apply_mono (Nat.le_add_left 5 fuel) h1, apply_mono (Nat.le_add_left 5 fuel) h2,
    h3, Option.map_none] at has'
  cases has'

end FluxThroughput.Ring.Fifo
