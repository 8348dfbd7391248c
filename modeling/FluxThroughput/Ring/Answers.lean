import FluxThroughput.Ring.Delivery

/-! # Empty and full answers

Whether `None` and `Err` are true of the queue. A history here also has the beginning of each call, so
that an answer can be held against the whole call. A call returns `None` when the position at
`dequeue_pos` has not been published: the ring is empty, or a producer has claimed that position and
not stamped it yet, and then later requests that have been answered `Ok` stay invisible. A call returns
`Err` when the cell at `enqueue_pos` has not been freed: the ring is full, or a consumer has claimed
the position of the lap before and not stamped it yet. `truthful_iff` says that the answers are true
exactly in the runs in which no call looks at a cell in such a moment (`Clear`). -/

namespace FluxThroughput.Ring.Answers

open FluxThroughput.Lib.Pow2 FluxThroughput.Lib.Transition FluxThroughput.Ring.Machine
open FluxThroughput.Ring.Invariant FluxThroughput.Ring.Delivery

variable {α T : Type*}

/-! ### Calls in a history -/

/-- A call begins, or something happens in it. -/
inductive Mark (α : Type*)
  | tryEnqueue (req : α)
  | tryDequeue
  | did (e : Event α)
  deriving DecidableEq

/-- The call that an action begins. -/
def begun : Action T α → List (T × Mark α)
  | .tryEnqueue t req => [(t, .tryEnqueue req)]
  | .tryDequeue t => [(t, .tryDequeue)]
  | .run _ _ => []

/-- The ring and its threads, with a history that has the beginnings of calls too. -/
def calls (T α : Type*) [DecidableEq T] (capacity : ℕ) :
    System (Threads T α) (Action T α) (T × Mark α) where
  init s := s = { ring := RingBuffer.new capacity, pc := fun _ => .idle }
  step s a := (s.step a).map fun x => (x.1, begun a ++ x.2.map fun y => (y.1, .did y.2))

/-- What happened, without the beginnings of calls. -/
def events (h : List (T × Mark α)) : List (T × Event α) :=
  h.filterMap fun x => match x.2 with
    | .did e => some (x.1, e)
    | _ => none

/-- The positions that producers have claimed and no consumer has. -/
def unclaimed (h : List (T × Mark α)) : ℕ :=
  ((ledger (events h)).claimed.filter fun x => x.1 ∉ (ledger (events h)).taken).length

/-- The thread is in one call all along. -/
def OneCall (t : T) (h : List (T × Mark α)) : Prop := ∀ m, (t, m) ∈ h → ∃ e, m = .did e

/-- **`None` is true**: each request answered `Ok` before the call began has been claimed by a consumer
when the call returns. -/
def EmptyTrue (h : List (T × Mark α)) : Prop :=
  ∀ pre t mid post, h = pre ++ (t, .tryDequeue) :: mid ++ (t, .did .deqEmpty) :: post → OneCall t mid →
    ∀ u p req, (u, .did (.enqOk p req)) ∈ pre → ∃ v, (v, .did (.deqClaimed p)) ∈ pre ++ mid

/-- **`Err` is true**: at some moment of the call, `c` positions were claimed by producers and by no
consumer. -/
def FullTrue (c : ℕ) (h : List (T × Mark α)) : Prop :=
  ∀ pre t req mid req' post,
    h = pre ++ (t, .tryEnqueue req) :: mid ++ (t, .did (.enqFull req')) :: post → OneCall t mid →
      ∃ mid', mid' <+: mid ∧ c ≤ unclaimed (pre ++ (t, .tryEnqueue req) :: mid')

/-! ### Looking at a cell that another thread holds -/

/-- The consumer `t` looks at a position that a producer has claimed and not published, and a later
position was published before the call of `t` began. -/
def HeadHidden (s : Threads T α) (h : List (T × Mark α)) (t : T) : Prop :=
  ∃ p, s.pc t = .deqStamp p ∧ (∃ u, writing (s.pc u) = some p) ∧
    ∃ pre mid, h = pre ++ (t, .tryDequeue) :: mid ∧ OneCall t mid ∧
      ∃ u q req, (u, .did (.enqOk q req)) ∈ pre ∧ p < q

/-- The producer `t` looks at a cell that a consumer has claimed, a lap before, and not freed, and the
ring has not been full since the call of `t` began. -/
def TailHeld (s : Threads T α) (h : List (T × Mark α)) (t : T) : Prop :=
  ∃ req p, s.pc t = .enqStamp req p ∧ (∃ u q, reading (s.pc u) = some q ∧ q + s.ring.capacity = p) ∧
    ∃ pre req' mid, h = pre ++ (t, .tryEnqueue req') :: mid ∧ OneCall t mid ∧
      ∀ mid', mid' <+: mid → unclaimed (pre ++ (t, .tryEnqueue req') :: mid') < s.ring.capacity

/-- No thread takes a step at such a moment. -/
def Clear (s : Threads T α) (h : List (T × Mark α)) : Action T α → Prop
  | .run t _ => ¬ HeadHidden s h t ∧ ¬ TailHeld s h t
  | _ => True

/-! ### Stamps at the counters -/

section Stamps
variable {s : Threads T α} {t : T} {p : ℕ}

/-- A position below `dequeue_pos` has been published. -/
theorem stamp_of_lt_deq (hi : Inv s) (hp : p < s.ring.dequeuePos) :
    p + 1 ≤ (s.ring.cell p).sequence := by
  have hle := hi.le
  obtain ⟨q, hmod, hq1, hq2, hc⟩ := hi.cells p
  have hst := hi.stamp hc
  rw [hi.shape.cell_congr hmod] at hst
  have hpq : p ≤ q := by
    by_contra hlt
    have := eq_of_mod_eq hmod (by omega) (by omega)
    omega
  rcases hpq.eq_or_lt with rfl | hlt
  · rcases hc with ⟨h, -⟩ | ⟨u, hu⟩ | ⟨h, -⟩
    · omega
    · have hok := hi.threads u
      rcases hu' : s.pc u <;> rw [hu'] at hu hok <;> cases hu
      · have := hi.ahead u p (by rw [hu']; rfl)
        omega
      · have := hi.ahead u p (by rw [hu']; rfl)
        omega
      · obtain ⟨-, req, hcell⟩ := hok
        rw [hcell]
      · rw [hok.2]
    · omega
  · omega

/-- A position below `enqueue_pos` has been freed. -/
theorem stamp_of_lt_enq (hi : Inv s) (hp : p < s.ring.enqueuePos) : p ≤ (s.ring.cell p).sequence := by
  have hle := hi.le
  obtain ⟨q, hmod, hq1, hq2, hc⟩ := hi.cells p
  have hst := hi.stamp hc
  rw [hi.shape.cell_congr hmod] at hst
  have hpq : p ≤ q := by
    by_contra hlt
    have := eq_of_mod_eq hmod (by omega) (by omega)
    omega
  omega

theorem stamp_of_writing (hi : Inv s) (hw : writing (s.pc t) = some p) :
    (s.ring.cell p).sequence = p := by
  have hok := hi.threads t
  cases hpc : s.pc t <;> rw [hpc] at hw hok <;> cases hw
  · rw [hok.2]
  · rw [hok.2]

theorem stamp_of_reading (hi : Inv s) (hr : reading (s.pc t) = some p) :
    (s.ring.cell p).sequence = p + 1 := by
  have hok := hi.threads t
  cases hpc : s.pc t <;> rw [hpc] at hr hok <;> cases hr
  · obtain ⟨-, req, hcell⟩ := hok
    rw [hcell]
  · rw [hok.2]

/-- **What `None` means**: the ring is empty, or a producer holds the position at its head. -/
theorem head_of_empty (hi : Inv s) (hp : p ≤ s.ring.dequeuePos)
    (hlt : (s.ring.cell p).sequence < p + 1) : p = s.ring.dequeuePos ∧
      (s.ring.enqueuePos = p ∨ ∃ u, writing (s.pc u) = some p) := by
  have hle := hi.le
  have hdeq : p = s.ring.dequeuePos := by
    by_contra hne
    have := stamp_of_lt_deq hi (show p < s.ring.dequeuePos by omega)
    omega
  refine ⟨hdeq, ?_⟩
  obtain ⟨q, hmod, hq1, hq2, hc⟩ := hi.cells p
  have hst := hi.stamp hc
  rw [hi.shape.cell_congr hmod] at hst
  by_cases hqp : q = p
  · subst hqp
    rcases hc with ⟨h, -⟩ | ⟨u, hu⟩ | ⟨-, -, req, hcell⟩
    · exact Or.inl (by omega)
    · refine Or.inr ⟨u, ?_⟩
      have hok := hi.threads u
      cases hpc : s.pc u <;> rw [hpc] at hu hok <;> cases hu
      · rfl
      · rfl
      · exact absurd hok.1 (by omega)
      · exact absurd hok.1 (by omega)
    · rw [hcell] at hlt
      exact absurd hlt (lt_irrefl _)
  · left
    by_contra hne
    exact hqp (eq_of_mod_eq hmod (by omega) (by omega))

/-- **What `Err` means**: the ring is full, or a consumer holds the cell at its tail. -/
theorem tail_of_full (hi : Inv s) (hp : p ≤ s.ring.enqueuePos)
    (hlt : (s.ring.cell p).sequence < p) : p = s.ring.enqueuePos ∧
      (s.ring.dequeuePos + s.ring.capacity ≤ p ∨
        ∃ u q, reading (s.pc u) = some q ∧ q + s.ring.capacity = p) := by
  have hle := hi.le
  have h2 := hi.shape.two_le
  have henq : p = s.ring.enqueuePos := by
    by_contra hne
    have := stamp_of_lt_enq hi (show p < s.ring.enqueuePos by omega)
    omega
  refine ⟨henq, ?_⟩
  obtain ⟨q, hmod, hq1, hq2, hc⟩ := hi.cells p
  have hst := hi.stamp hc
  rw [hi.shape.cell_congr hmod] at hst
  have hlap : q + s.ring.capacity = p := by
    refine eq_of_mod_eq ((Nat.add_mod_right _ _).trans hmod) (by omega) ?_
    omega
  rcases hc with ⟨h, -⟩ | ⟨u, hu⟩ | ⟨h, -⟩
  · omega
  · have hok := hi.threads u
    cases hpc : s.pc u <;> rw [hpc] at hu hok <;> cases hu
    · have := hi.ahead u q (by rw [hpc]; rfl)
      exact Or.inl (by omega)
    · have := hi.ahead u q (by rw [hpc]; rfl)
      exact Or.inl (by omega)
    · exact Or.inr ⟨u, q, by rw [hpc]; rfl, hlap⟩
    · exact Or.inr ⟨u, q, by rw [hpc]; rfl, hlap⟩
  · exact Or.inl (by omega)

end Stamps

/-! ### Histories -/

section Histories
variable {h e : List (T × Mark α)} {t : T}

theorem events_append (h e : List (T × Mark α)) : events (h ++ e) = events h ++ events e :=
  List.filterMap_append

theorem events_begun (a : Action T α) : events (begun a) = [] := by
  cases a <;> rfl

theorem events_did (es : List (T × Event α)) :
    events (es.map fun y => (y.1, Mark.did y.2)) = es := by
  induction es with
  | nil => rfl
  | cons x es ih => exact congrArg (x :: ·) ih

theorem mem_events {u : T} {x : Event α} : (u, x) ∈ events h ↔ (u, Mark.did x) ∈ h := by
  unfold events
  rw [List.mem_filterMap]
  constructor
  · rintro ⟨⟨v, m⟩, hm, heq⟩
    cases m with
    | did e =>
      cases heq
      exact hm
    | _ => cases heq
  · exact fun hm => ⟨_, hm, rfl⟩

theorem ledger_concat (g : List (T × Event α)) (x : T × Event α) :
    ledger (g ++ [x]) = (ledger g).record x.2 := ledger_append g x.1 [x.2]

theorem mem_enqueued {g : List (T × Event α)} {p : ℕ} {req : α} :
    (p, req) ∈ (ledger g).enqueued ↔ ∃ u, (u, Event.enqOk p req) ∈ g := by
  induction g using List.reverseRecOn with
  | nil => simp [ledger]
  | append_singleton g x ih =>
    obtain ⟨t, e⟩ := x
    rw [ledger_concat]
    cases e <;> simp [Ledger.record, ih, exists_or]

theorem mem_taken {g : List (T × Event α)} {p : ℕ} :
    p ∈ (ledger g).taken ↔ ∃ u, (u, Event.deqClaimed p) ∈ g := by
  induction g using List.reverseRecOn with
  | nil => simp [ledger]
  | append_singleton g x ih =>
    obtain ⟨t, e⟩ := x
    rw [ledger_concat]
    cases e <;> simp [Ledger.record, ih, exists_or]

/-- The unclaimed positions are those between the counters. -/
theorem unclaimed_eq {s : Threads T α} (hi : Inv s) (hb : Books s (ledger (events h))) :
    unclaimed h = s.ring.enqueuePos - s.ring.dequeuePos := by
  have htake : ∀ x ∈ (ledger (events h)).claimed.take s.ring.dequeuePos,
      ¬ decide (x.1 ∉ (ledger (events h)).taken) = true := by
    intro x hx
    have := ((hb.take_claimed hi).mp hx).2
    simp only [hb.taken, List.mem_range, decide_eq_true_eq]
    omega
  have hdrop : ∀ x ∈ (ledger (events h)).claimed.drop s.ring.dequeuePos,
      decide (x.1 ∉ (ledger (events h)).taken) = true := by
    intro x hx
    have := List.mem_map_of_mem (f := Prod.fst) hx
    rw [hb.drop_claimed, List.mem_range'_1] at this
    simp only [hb.taken, List.mem_range, decide_eq_true_eq]
    omega
  unfold unclaimed
  rw [← List.take_append_drop s.ring.dequeuePos (ledger (events h)).claimed, List.filter_append,
    List.filter_eq_nil_iff.mpr htake, List.filter_eq_self.mpr hdrop, List.nil_append,
    List.length_drop, hb.length_claimed]

theorem pre_eq_nil {x y : T × Mark α} {pre post : List (T × Mark α)}
    (heq : [y] = pre ++ x :: post) : pre = [] := by
  cases pre with
  | nil => rfl
  | cons z pre => exact absurd (congrArg List.length heq) (by simp)

theorem mem_of_calls {t v : T} {pre mid : List (T × Mark α)} {m : Mark α} {x : Event α}
    (hne : m ≠ .did x) (hmem : (v, .did x) ∈ pre ++ (t, m) :: mid) : (v, .did x) ∈ pre ++ mid := by
  rcases List.mem_append.mp hmem with hl | hr
  · exact List.mem_append_left _ hl
  · rcases List.mem_cons.mp hr with heq | hr
    · cases heq
      exact absurd rfl hne
    · exact List.mem_append_right _ hr

theorem EmptyTrue.of_append {e : List (T × Mark α)} (ht : EmptyTrue (h ++ e)) : EmptyTrue h := by
  rintro pre t mid post rfl
  exact ht pre t mid (post ++ e) (by simp)

theorem FullTrue.of_append {n : ℕ} {e : List (T × Mark α)} (ht : FullTrue n (h ++ e)) :
    FullTrue n h := by
  rintro pre t req mid req' post rfl
  exact ht pre t req mid req' (post ++ e) (by simp)

end Histories

/-! ### Runs -/

section Kept
variable {s : Threads T α} {h : List (T × Mark α)} {c : ℕ}

/-- A position that a call has read from a counter is not ahead of it. -/
def Past (r : RingBuffer α) : Pc α → Prop
  | .enqStamp _ p => p ≤ r.enqueuePos
  | .deqStamp p => p ≤ r.dequeuePos
  | _ => True

theorem Past.mono {r r' : RingBuffer α} {pc : Pc α} (hp : Past r pc)
    (henq : r.enqueuePos ≤ r'.enqueuePos) (hdeq : r.dequeuePos ≤ r'.dequeuePos) : Past r' pc := by
  cases pc with
  | enqStamp req p => exact hp.trans henq
  | deqStamp p => exact hp.trans hdeq
  | _ => trivial

theorem past_access {pc pc' : Pc α} {r r' : RingBuffer α} {b : Bool} {es : List (Event α)}
    (hs : pc.step b r = some (r', pc', es)) : Past r' pc' := by
  cases pc <;> simp only [Pc.step] at hs
  case enqStamp | deqStamp | enqCas | deqCas =>
    split_ifs at hs <;> cases hs <;> first | trivial | exact le_rfl
  case deqRead => split at hs <;> cases hs <;> trivial
  case idle | undefined => cases hs
  case enqLoad | deqLoad =>
    cases hs
    exact le_rfl
  all_goals
    cases hs
    trivial

/-- What a run keeps. -/
structure Kept (c : ℕ) (s : Threads T α) (h : List (T × Mark α)) : Prop where
  inv : Inv s
  books : Books s (ledger (events h))
  past : ∀ t, Past s.ring (s.pc t)
  capacity : s.ring.capacity = nextPowerOfTwo (max c 1)

theorem Kept.taken (hk : Kept c s h) {p : ℕ} :
    (∃ v, (v, Mark.did (.deqClaimed p)) ∈ h) ↔ p < s.ring.dequeuePos := by
  rw [← List.mem_range, ← hk.books.taken, mem_taken]
  exact exists_congr fun v => mem_events.symm

theorem Kept.enqueued (hk : Kept c s h) {u : T} {p : ℕ} {req : α}
    (hm : (u, Mark.did (.enqOk p req)) ∈ h) :
    p < s.ring.enqueuePos ∧ ∀ t, writing (s.pc t) ≠ some p := by
  obtain ⟨hcl, hw⟩ := (hk.books.enqueued _).mp (mem_enqueued.mpr ⟨u, mem_events.mpr hm⟩)
  exact ⟨hk.books.lt_of_claimed hcl, hw⟩

end Kept

section Runs
variable [DecidableEq T] {s : Threads T α} {h : List (T × Mark α)} {c : ℕ}

theorem Kept.step {s' : Threads T α} {a : Action T α} {e : List (T × Mark α)} (hk : Kept c s h)
    (hs : (calls T α c).step s a = some (s', e)) : Kept c s' (h ++ e) := by
  obtain ⟨⟨s'', es⟩, hstep, heq⟩ := Option.map_eq_some_iff.mp hs
  cases heq
  have hev : events (h ++ (begun a ++ es.map fun y => (y.1, Mark.did y.2))) = events h ++ es := by
    rw [events_append, events_append, events_begun, events_did, List.nil_append]
  obtain ⟨hi, hb⟩ := step_inv hk.inv hk.books hstep
  refine ⟨hi, by rw [hev]; exact hb, fun u => ?_, (capacity_step hstep).trans hk.capacity⟩
  rcases step_cases hstep with ⟨t, pc', -, hpc, rfl, -⟩ | ⟨t, b, r, pc', es', -, hpc, rfl, -⟩
  · by_cases hu : u = t
    · subst hu
      simp only [Function.update_self]
      rcases hpc with ⟨req, rfl⟩ | rfl
      · trivial
      · trivial
    · simpa only [Function.update_of_ne hu] using hk.past u
  · obtain ⟨-, henq, hdeq⟩ := access_mono hpc
    by_cases hu : u = t
    · subst hu
      simpa only [Function.update_self] using past_access hpc
    · simpa only [Function.update_of_ne hu] using (hk.past u).mono henq hdeq

theorem run_kept {ok : Guard (Threads T α) (Action T α) (T × Mark α)} (hc : 2 ≤ c)
    (hr : Run (calls T α c) ok s h) : Kept c s h := by
  refine hr.invariant (I := Kept c) ?_ fun s h a s' e _ hk _ hs => hk.step hs
  rintro s rfl
  exact ⟨Inv.new hc, Books.new c, fun _ => trivial, rfl⟩

/-- A step adds nothing to the history, or the beginning of a call, or one event. -/
theorem access_cases {pc pc' : Pc α} {r r' : RingBuffer α} {b : Bool} {es : List (Event α)}
    (hs : pc.step b r = some (r', pc', es)) :
    es = [] ∨ (∃ p, pc = .deqStamp p ∧ (r.cell p).sequence < p + 1 ∧ es = [.deqEmpty]) ∨
      (∃ req p, pc = .enqStamp req p ∧ (r.cell p).sequence < p ∧ es = [.enqFull req]) ∨
      ∃ x, es = [x] ∧ x ≠ .deqEmpty ∧ ∀ req, x ≠ .enqFull req := by
  cases pc <;> simp only [Pc.step] at hs
  case enqStamp req p =>
    split_ifs at hs with h0 h1 <;> cases hs
    · exact Or.inl rfl
    · exact Or.inr (Or.inr (Or.inl ⟨req, p, rfl, by omega, rfl⟩))
    · exact Or.inl rfl
  case deqStamp p =>
    split_ifs at hs with h0 h1 <;> cases hs
    · exact Or.inl rfl
    · exact Or.inr (Or.inl ⟨p, rfl, by omega, rfl⟩)
    · exact Or.inl rfl
  case enqCas req p =>
    split_ifs at hs <;> cases hs
    · exact Or.inr (Or.inr (Or.inr ⟨_, rfl, by simp, by simp⟩))
    · exact Or.inl rfl
  case deqCas p =>
    split_ifs at hs <;> cases hs
    · exact Or.inr (Or.inr (Or.inr ⟨_, rfl, by simp, by simp⟩))
    · exact Or.inl rfl
  case deqRead => split at hs <;> cases hs <;> exact Or.inl rfl
  case enqPublish | deqFree =>
    cases hs
    exact Or.inr (Or.inr (Or.inr ⟨_, rfl, by simp, by simp⟩))
  case idle | undefined => cases hs
  all_goals
    cases hs
    exact Or.inl rfl

/-- A step of `calls` begins a call, or is an access. -/
theorem calls_cases {s' : Threads T α} {a : Action T α} {e : List (T × Mark α)}
    (hs : (calls T α c).step s a = some (s', e)) :
    (∀ t x, (t, Mark.did x) ∉ e) ∨ ∃ t b r pc' es, a = .run t b ∧
      (s.pc t).step b s.ring = some (r, pc', es) ∧ e = es.map fun x => (t, .did x) := by
  obtain ⟨⟨s'', es⟩, hstep, heq⟩ := Option.map_eq_some_iff.mp hs
  cases heq
  rcases step_cases hstep with ⟨t, pc', -, -, -, rfl⟩ | ⟨t, b, r, pc', es', rfl, hpc, -, rfl⟩
  · left
    intro u x hx
    have hmem : (u, x) ∈ events (begun a ++ ([] : List (T × Event α)).map fun y => (y.1, Mark.did y.2)) :=
      mem_events.mpr hx
    rw [events_append, events_begun, events_did] at hmem
    cases hmem
  · exact Or.inr ⟨t, b, r, pc', es', rfl, hpc, by rw [begun, List.nil_append, List.map_map]; rfl⟩

/-- What an access adds to the history. -/
theorem events_of_access {s' : Threads T α} {t : T} {b : Bool} {r : RingBuffer α} {pc' : Pc α}
    {es : List (Event α)} {e : List (T × Mark α)} (hacc : (s.pc t).step b s.ring = some (r, pc', es))
    (hs : (calls T α c).step s (.run t b) = some (s', e)) : e = es.map fun x => (t, .did x) := by
  simp only [calls, Threads.step, hacc, begun, Option.map_some, Option.some.injEq, Prod.mk.injEq] at hs
  rw [← hs.2, List.nil_append, List.map_map]
  rfl

/-- The step that answers `None`. -/
theorem step_deqEmpty {s' : Threads T α} {a : Action T α} {e : List (T × Mark α)} {t : T}
    (hs : (calls T α c).step s a = some (s', e)) (hm : (t, .did .deqEmpty) ∈ e) :
    ∃ b p, a = .run t b ∧ s.pc t = .deqStamp p ∧ (s.ring.cell p).sequence < p + 1 ∧
      e = [(t, .did .deqEmpty)] := by
  rcases calls_cases hs with hno | ⟨u, b, r, pc', es, rfl, hpc, rfl⟩
  · exact absurd hm (hno t _)
  · obtain ⟨x, hx, heq⟩ := List.mem_map.mp hm
    cases heq
    rcases access_cases hpc with rfl | ⟨p, hpc', hlt, rfl⟩ | ⟨req, p, -, -, rfl⟩ | ⟨y, rfl, hy, -⟩
    · cases hx
    · exact ⟨b, p, rfl, hpc', hlt, rfl⟩
    · exact absurd (List.mem_singleton.mp hx) (by simp)
    · exact absurd (List.mem_singleton.mp hx).symm hy

/-- The step that answers `Err`. -/
theorem step_enqFull {s' : Threads T α} {a : Action T α} {e : List (T × Mark α)} {t : T} {req : α}
    (hs : (calls T α c).step s a = some (s', e)) (hm : (t, .did (.enqFull req)) ∈ e) :
    ∃ b p, a = .run t b ∧ s.pc t = .enqStamp req p ∧ (s.ring.cell p).sequence < p ∧
      e = [(t, .did (.enqFull req))] := by
  rcases calls_cases hs with hno | ⟨u, b, r, pc', es, rfl, hpc, rfl⟩
  · exact absurd hm (hno t _)
  · obtain ⟨x, hx, heq⟩ := List.mem_map.mp hm
    cases heq
    rcases access_cases hpc with rfl | ⟨p, -, -, rfl⟩ | ⟨req', p, hpc', hlt, rfl⟩ | ⟨y, rfl, -, hy⟩
    · cases hx
    · exact absurd (List.mem_singleton.mp hx) (by simp)
    · cases List.mem_singleton.mp hx
      exact ⟨b, p, rfl, hpc', hlt, rfl⟩
    · exact absurd (List.mem_singleton.mp hx).symm (hy req)

/-! ### Clear steps and true answers -/

theorem EmptyTrue.step {s' : Threads T α} {a : Action T α} {e : List (T × Mark α)} (hk : Kept c s h)
    (ht : EmptyTrue h) (hs : (calls T α c).step s a = some (s', e)) (hok : Clear s h a) :
    EmptyTrue (h ++ e) := by
  intro pre t mid post heq hone u p req hu
  rcases split_append heq with ⟨post', hh, -⟩ | ⟨pre', hpre, he⟩
  · exact ht pre t mid post' hh hone u p req hu
  · have hm : (t, Mark.did .deqEmpty) ∈ e := he ▸ List.mem_append_right _ List.mem_cons_self
    obtain ⟨b, q, rfl, hpc, hlt, he'⟩ := step_deqEmpty hs hm
    rw [he'] at he
    rw [pre_eq_nil he, List.append_nil] at hpre
    subst hpre
    obtain ⟨hp, hw⟩ := hk.enqueued (List.mem_append_left _ hu)
    have hpast := hk.past t
    rw [hpc] at hpast
    obtain ⟨rfl, hhead⟩ := head_of_empty hk.inv hpast hlt
    have htaken : p < s.ring.dequeuePos := by
      rcases hhead with henq | ⟨v, hv⟩
      · omega
      · by_contra hge
        have hne : p ≠ s.ring.dequeuePos := fun h => hw v (h ▸ hv)
        exact hok.1 ⟨_, hpc, ⟨v, hv⟩, pre, mid, rfl, hone, u, p, req, hu, by omega⟩
    obtain ⟨v, hv⟩ := hk.taken.mpr htaken
    exact ⟨v, mem_of_calls (by simp) hv⟩

theorem FullTrue.step {s' : Threads T α} {a : Action T α} {e : List (T × Mark α)} (hk : Kept c s h)
    (ht : FullTrue s.ring.capacity h) (hs : (calls T α c).step s a = some (s', e))
    (hok : Clear s h a) : FullTrue s.ring.capacity (h ++ e) := by
  intro pre t req mid req' post heq hone
  rcases split_append heq with ⟨post', hh, -⟩ | ⟨pre', hpre, he⟩
  · exact ht pre t req mid req' post' hh hone
  · have hm : (t, Mark.did (.enqFull req')) ∈ e := he ▸ List.mem_append_right _ List.mem_cons_self
    obtain ⟨b, p, rfl, hpc, hlt, he'⟩ := step_enqFull hs hm
    rw [he'] at he
    rw [pre_eq_nil he, List.append_nil] at hpre
    subst hpre
    have hpast := hk.past t
    rw [hpc] at hpast
    obtain ⟨rfl, htail⟩ := tail_of_full hk.inv hpast hlt
    rcases htail with hfull | hheld
    · refine ⟨mid, List.prefix_rfl, ?_⟩
      rw [unclaimed_eq hk.inv hk.books]
      omega
    · by_contra hno
      refine hok.2 ⟨req', _, hpc, hheld, pre, req, mid, rfl, hone, fun mid' hmid => ?_⟩
      by_contra hge
      exact hno ⟨mid', hmid, not_lt.mp hge⟩

/-- A hidden head makes the answer `None`, and makes it untrue. -/
theorem not_headHidden {s' : Threads T α} {t : T} {b : Bool} {e : List (T × Mark α)} (hk : Kept c s h)
    (ht : EmptyTrue (h ++ e)) (hs : (calls T α c).step s (.run t b) = some (s', e)) :
    ¬ HeadHidden s h t := by
  rintro ⟨p, hpc, ⟨u, hu⟩, pre, mid, rfl, hone, v, q, req, hv, hlt⟩
  have hstamp := stamp_of_writing hk.inv hu
  have hacc : (s.pc t).step b s.ring = some (s.ring, .idle, [.deqEmpty]) := by
    rw [hpc]
    simp only [Pc.step, hstamp]
    rw [if_neg (by omega), if_pos (by omega)]
  obtain rfl : e = [(t, .did .deqEmpty)] := events_of_access hacc hs
  obtain ⟨w, hw⟩ := ht pre t mid [] rfl hone v q req hv
  have hmem : (w, Mark.did (.deqClaimed q)) ∈ pre ++ (t, .tryDequeue) :: mid := by
    rcases List.mem_append.mp hw with hl | hr
    · exact List.mem_append_left _ hl
    · exact List.mem_append_right _ (List.mem_cons_of_mem _ hr)
  have htaken := hk.taken.mp ⟨w, hmem⟩
  have hahead := hk.inv.ahead u p hu
  omega

/-- A held tail makes the answer `Err`, and makes it untrue. -/
theorem not_tailHeld {s' : Threads T α} {t : T} {b : Bool} {e : List (T × Mark α)} (hk : Kept c s h)
    (ht : FullTrue s.ring.capacity (h ++ e)) (hs : (calls T α c).step s (.run t b) = some (s', e)) :
    ¬ TailHeld s h t := by
  rintro ⟨req, p, hpc, ⟨u, q, hu, hlap⟩, pre, req', mid, rfl, hone, hroom⟩
  have h2 := hk.inv.shape.two_le
  have hstamp := stamp_of_reading hk.inv hu
  rw [hk.inv.shape.cell_congr (q := p) (by rw [← hlap, Nat.add_mod_right])] at hstamp
  have hacc : (s.pc t).step b s.ring = some (s.ring, .idle, [.enqFull req]) := by
    rw [hpc]
    simp only [Pc.step, hstamp]
    rw [if_neg (by omega), if_pos (by omega)]
  obtain rfl : e = [(t, .did (.enqFull req))] := events_of_access hacc hs
  obtain ⟨mid', hmid, hge⟩ := ht pre t req' mid req [] rfl hone
  exact absurd (hroom mid' hmid) (not_lt.mpr hge)

/-! ### The result -/

/-- **The answers of a run are true exactly when its steps are clear.** -/
theorem truthful_iff (hc : 2 ≤ c) (hr : Run (calls T α c) anyStep s h) :
    EmptyTrue h ∧ FullTrue (nextPowerOfTwo (max c 1)) h ↔
      Run (calls T α c) (fun s h a => Clear s h a) s h := by
  constructor
  · rintro ⟨hempty, hfull⟩
    induction hr with
    | init hs => exact Run.init hs
    | @step s s' h e a hr _ hs ih =>
      have hk := run_kept hc hr
      refine (ih hempty.of_append hfull.of_append).step ?_ hs
      cases a with
      | run t b =>
        rw [← hk.capacity] at hfull
        exact ⟨not_headHidden hk hempty hs, not_tailHeld hk hfull hs⟩
      | _ => trivial
  · intro hclear
    refine hclear.invariant
      (I := fun _ h => EmptyTrue h ∧ FullTrue (nextPowerOfTwo (max c 1)) h) ?_ ?_
    · rintro s -
      constructor
      · intro pre t mid post heq
        exact absurd (congrArg List.length heq) (by simp)
      · intro pre t req mid req' post heq
        exact absurd (congrArg List.length heq) (by simp)
    · rintro s h a s' e hr ⟨hempty, hfull⟩ hok hs
      have hk := run_kept hc hr
      refine ⟨hempty.step hk hs hok, ?_⟩
      rw [← hk.capacity] at hfull ⊢
      exact hfull.step hk hs hok

end Runs

/-- A call while no other thread is between a claim and a stamp. -/
def aloneAtCell (s : Threads Bool ℕ) (_ : List (Bool × Mark ℕ)) : Machine.Action Bool ℕ → Bool
  | .run t _ => holds (s.pc (!t)) = none
  | _ => true

theorem clear_of_aloneAtCell {s : Threads Bool ℕ} {h : List (Bool × Mark ℕ)} {a : Machine.Action Bool ℕ}
    (hg : aloneAtCell s h a = true) : Clear s h a := by
  cases a with
  | run t b =>
    have hother : ∀ u, u ≠ t → holds (s.pc u) = none := by
      intro u hu
      rw [Bool.eq_not_of_ne hu]
      exact of_decide_eq_true hg
    constructor
    · rintro ⟨p, hpc, ⟨u, hu⟩, -⟩
      by_cases hut : u = t
      · rw [hut, hpc] at hu
        cases hu
      · exact absurd (holds_of_writing hu) (by rw [hother u hut]; simp)
    · rintro ⟨req, p, hpc, ⟨u, q, hu, -⟩, -⟩
      by_cases hut : u = t
      · rw [hut, hpc] at hu
        cases hu
      · exact absurd (holds_of_reading hu) (by rw [hother u hut]; simp)
  | _ => trivial

/-- One request goes through the ring; the next `try_dequeue` answers `None`, and that is true. -/
theorem truthful_iff_drained : ∃ (s : Threads Bool ℕ) (h : List (Bool × Mark ℕ)),
    Run (calls Bool ℕ 2) anyStep s h ∧ (true, .did (.deqOk 0 7)) ∈ h ∧ (true, .did .deqEmpty) ∈ h ∧
      EmptyTrue h ∧ FullTrue 2 h := by
  obtain ⟨s, h, hr, hp⟩ := exists_run_of_exec (calls Bool ℕ 2) (fun s h a => Clear s h a) aloneAtCell
    (fun _ _ _ => clear_of_aloneAtCell) { ring := RingBuffer.new 2, pc := fun _ => .idle }
    [.tryEnqueue false 7, .run false false, .run false false, .run false false, .run false false,
      .run false false, .tryDequeue true, .run true false, .run true false, .run true false,
      .run true false, .run true false, .tryDequeue true, .run true false, .run true false]
    (fun x => decide ((true, .did (.deqOk 0 7)) ∈ x.2 ∧ (true, .did .deqEmpty) ∈ x.2)) rfl (by decide)
  obtain ⟨hgot, hempty⟩ := of_decide_eq_true hp
  exact ⟨s, h, hr.mono, hgot, hempty, (truthful_iff le_rfl hr.mono).mpr hr⟩

/-- With two cells. A producer is paused after its claim of position 0, the request at position 1 is
answered `Ok`, and `try_dequeue` answers `None`. A consumer is paused after its claim of position 0, one
request is queued, and `try_enqueue` answers `Err`. -/
theorem paused_thread_changes_answers :
    (∃ (s : Threads Bool ℕ) (h : List (Bool × Mark ℕ)),
      Run (calls Bool ℕ 2) anyStep s h ∧ ¬ EmptyTrue h) ∧
    ∃ (s : Threads Bool ℕ) (h : List (Bool × Mark ℕ)),
      Run (calls Bool ℕ 2) anyStep s h ∧ ¬ FullTrue 2 h := by
  constructor
  · obtain ⟨s, h, hr, hp⟩ := exists_run_of_exec (calls Bool ℕ 2) anyStep (fun _ _ _ => true)
      (fun _ _ _ _ => trivial) { ring := RingBuffer.new 2, pc := fun _ => .idle }
      [.tryEnqueue false 7, .run false false, .run false false, .run false false,
        .tryEnqueue true 8, .run true false, .run true false, .run true false, .run true false,
        .run true false, .tryDequeue true, .run true false, .run true false]
      (fun x => decide (x.2 = [(false, .tryEnqueue 7), (false, .did (.enqClaimed 0 7)),
        (true, .tryEnqueue 8), (true, .did (.enqClaimed 1 8)), (true, .did (.enqOk 1 8)),
        (true, .tryDequeue), (true, .did .deqEmpty)])) rfl (by decide)
    refine ⟨s, h, hr, fun htrue => ?_⟩
    obtain ⟨v, hv⟩ := htrue
      [(false, .tryEnqueue 7), (false, .did (.enqClaimed 0 7)), (true, .tryEnqueue 8),
        (true, .did (.enqClaimed 1 8)), (true, .did (.enqOk 1 8))] true [] []
      (of_decide_eq_true hp) (fun _ hm => by cases hm) true 1 8 (by decide)
    revert v
    decide
  · obtain ⟨s, h, hr, hp⟩ := exists_run_of_exec (calls Bool ℕ 2) anyStep (fun _ _ _ => true)
      (fun _ _ _ _ => trivial) { ring := RingBuffer.new 2, pc := fun _ => .idle }
      [.tryEnqueue false 7, .run false false, .run false false, .run false false, .run false false,
        .run false false, .tryEnqueue false 8, .run false false, .run false false, .run false false,
        .run false false, .run false false, .tryDequeue false, .run false false, .run false false,
        .run false false, .tryEnqueue true 9, .run true false, .run true false]
      (fun x => decide (x.2 = [(false, .tryEnqueue 7), (false, .did (.enqClaimed 0 7)),
        (false, .did (.enqOk 0 7)), (false, .tryEnqueue 8), (false, .did (.enqClaimed 1 8)),
        (false, .did (.enqOk 1 8)), (false, .tryDequeue), (false, .did (.deqClaimed 0)),
        (true, .tryEnqueue 9), (true, .did (.enqFull 9))])) rfl (by decide)
    refine ⟨s, h, hr, fun htrue => ?_⟩
    obtain ⟨mid, hmid, hge⟩ := htrue
      [(false, .tryEnqueue 7), (false, .did (.enqClaimed 0 7)), (false, .did (.enqOk 0 7)),
        (false, .tryEnqueue 8), (false, .did (.enqClaimed 1 8)), (false, .did (.enqOk 1 8)),
        (false, .tryDequeue), (false, .did (.deqClaimed 0))] true 9 [] 9 []
      (of_decide_eq_true hp) (fun _ hm => by cases hm)
    rw [List.prefix_nil.mp hmid] at hge
    revert hge
    decide

end FluxThroughput.Ring.Answers
