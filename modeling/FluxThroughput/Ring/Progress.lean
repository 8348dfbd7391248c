import FluxThroughput.Ring.Invariant

/-! # Lock-freedom

How many accesses a call makes. A retry of `try_enqueue` or `try_dequeue` follows a claim by another
thread or a spurious failure of its compare-and-swap: `due` counts the accesses a call still makes when
neither happens, two more for each claim it has not seen, and every access takes one off
(`due_access`). So a call makes at most five accesses, and two for each claim by another thread and
each spurious failure (`call_accesses`); and the accesses of all threads together are bounded by the
number of calls that have returned (`lock_free`). -/

namespace FluxThroughput.Ring.Progress

open FluxThroughput.Lib.Pow2 FluxThroughput.Lib.Transition FluxThroughput.Ring.Machine
open FluxThroughput.Ring.Invariant

variable {α T : Type*}

/-! ### Histories of accesses -/

/-- The counter that a call advances. -/
inductive Side
  | enqueue
  | dequeue
  deriving DecidableEq

/-- A call begins, or a thread makes an access: whether it is a compare-and-swap that fails spuriously,
and what happens. -/
inductive Note (T α : Type*)
  | begins (t : T) (side : Side)
  | access (t : T) (spurious : Bool) (es : List (Event α))
  deriving DecidableEq

def isCas : Pc α → Bool
  | .enqCas _ _ => true
  | .deqCas _ => true
  | _ => false

def note (s : Threads T α) (es : List (T × Event α)) : Action T α → Note T α
  | .tryEnqueue t _ => .begins t .enqueue
  | .tryDequeue t => .begins t .dequeue
  | .run t spurious => .access t (spurious && isCas (s.pc t)) (es.map Prod.snd)

/-- The ring and its threads, with a history of every step. -/
def paced (T α : Type*) [DecidableEq T] (capacity : ℕ) :
    System (Threads T α) (Action T α) (Note T α) where
  init s := s = { ring := RingBuffer.new capacity, pc := fun _ => .idle }
  step s a := (s.step a).map fun x => (x.1, [note s x.2 a])

def Note.thread : Note T α → T
  | .begins t _ => t
  | .access t _ _ => t

def Note.events : Note T α → List (Event α)
  | .begins _ _ => []
  | .access _ _ es => es

/-- The event is a claim on that side. -/
def claims : Side → Event α → Bool
  | .enqueue, .enqClaimed _ _ => true
  | .dequeue, .deqClaimed _ => true
  | _, _ => false

def accesses (h : List (Note T α)) : ℕ := h.countP fun n => n matches .access _ _ _

def spurious (h : List (Note T α)) : ℕ := h.countP fun n => n matches .access _ true _

/-- The calls that have begun. -/
def begun (h : List (Note T α)) : ℕ := h.countP fun n => n matches .begins _ _

/-- The calls that have returned. -/
def answered (h : List (Note T α)) : ℕ := (h.flatMap Note.events).countP fun e => (answer e).isSome

/-- The claims on that side by threads other than `t`. -/
def rivals [DecidableEq T] (t : T) (side : Side) (h : List (Note T α)) : ℕ :=
  ((h.filter fun n => n.thread ≠ t).flatMap Note.events).countP (claims side)

/-- What the thread does. -/
def own [DecidableEq T] (t : T) (h : List (Note T α)) : List (Note T α) :=
  h.filter fun n => n.thread = t

/-- The thread is in one call all along. -/
def OneCall (t : T) (h : List (Note T α)) : Prop := ∀ side, .begins t side ∉ h

section Counts
variable {h : List (Note T α)} {n : Note T α} {t : T} {side : Side} {b : Bool} {es : List (Event α)}

@[simp] theorem accesses_begins : accesses (h ++ [.begins t side]) = accesses h := by
  simp [accesses]

@[simp] theorem accesses_access : accesses (h ++ [.access t b es]) = accesses h + 1 := by
  simp [accesses]

@[simp] theorem spurious_begins : spurious (h ++ [.begins t side]) = spurious h := by
  simp [spurious]

@[simp] theorem spurious_access :
    spurious (h ++ [.access t b es]) = spurious h + if b then 1 else 0 := by
  cases b <;> simp [spurious]

@[simp] theorem begun_begins : begun (h ++ [.begins t side]) = begun h + 1 := by simp [begun]

@[simp] theorem begun_access : begun (h ++ [.access t b es]) = begun h := by simp [begun]

@[simp] theorem answered_begins : answered (h ++ [.begins t side]) = answered h := by
  simp [answered, Note.events]

@[simp] theorem answered_access : answered (h ++ [.access t b es]) =
    answered h + es.countP fun e => (answer e).isSome := by
  simp [answered, Note.events]

variable [DecidableEq T]

theorem own_own (hn : n.thread = t) : own t (h ++ [n]) = own t h ++ [n] := by simp [own, hn]

theorem own_other (hn : n.thread ≠ t) : own t (h ++ [n]) = own t h := by simp [own, hn]

theorem rivals_own (hn : n.thread = t) : rivals t side (h ++ [n]) = rivals t side h := by
  simp [rivals, hn]

theorem rivals_other (hn : n.thread ≠ t) :
    rivals t side (h ++ [n]) = rivals t side h + n.events.countP (claims side) := by
  simp [rivals, hn]

end Counts

/-! ### What a call still has to do -/

/-- The accesses that a call still makes when no other thread claims a position of its side and no
compare-and-swap fails spuriously. Each claim since it read the counter costs it two more. -/
def due (r : RingBuffer α) : Pc α → ℕ
  | .idle => 0
  | .enqLoad _ => 5
  | .enqStamp _ pos => 4 + 2 * (r.enqueuePos - pos)
  | .enqCas _ pos => 3 + 2 * (r.enqueuePos - pos)
  | .enqWrite _ _ => 2
  | .enqPublish _ _ => 1
  | .deqLoad => 5
  | .deqStamp pos => 4 + 2 * (r.dequeuePos - pos)
  | .deqCas pos => 3 + 2 * (r.dequeuePos - pos)
  | .deqRead _ => 2
  | .deqFree _ _ => 1
  | .undefined => 0

/-- The side on which the thread has not claimed a position yet. -/
def claiming : Pc α → Option Side
  | .enqLoad _ => some .enqueue
  | .enqStamp _ _ => some .enqueue
  | .enqCas _ _ => some .enqueue
  | .deqLoad => some .dequeue
  | .deqStamp _ => some .dequeue
  | .deqCas _ => some .dequeue
  | _ => none

/-- Whether the thread is in a call. -/
def inCall : Pc α → ℕ
  | .idle => 0
  | _ => 1

/-- A position that a call has read from a counter is not ahead of it. -/
def Behind (r : RingBuffer α) : Pc α → Prop
  | .enqStamp _ pos => pos ≤ r.enqueuePos
  | .enqCas _ pos => pos ≤ r.enqueuePos
  | .deqStamp pos => pos ≤ r.dequeuePos
  | .deqCas pos => pos ≤ r.dequeuePos
  | _ => True

section Access
variable {s : Threads T α} {r r' : RingBuffer α} {pc pc' : Pc α} {b : Bool} {es : List (Event α)}

/-- The stamp at `enqueue_pos` is not ahead of it. -/
theorem stamp_enq_le (hi : Inv s) :
    (s.ring.cell s.ring.enqueuePos).sequence ≤ s.ring.enqueuePos := by
  have h2 := hi.shape.two_le
  have hle := hi.le
  obtain ⟨q, hmod, hq1, hq2, hc⟩ := hi.cells s.ring.enqueuePos
  have hst := hi.stamp hc
  rw [hi.shape.cell_congr hmod] at hst
  by_cases hq : q = s.ring.enqueuePos
  · subst hq
    rcases hc with ⟨-, hc⟩ | ⟨u, hu⟩ | ⟨-, hlt, -⟩
    · rw [hc]
    · exact absurd hu (hi.not_holds le_rfl u)
    · exact absurd hlt (lt_irrefl _)
  · have : q < s.ring.enqueuePos := by
      by_contra hge
      exact hq (eq_of_mod_eq hmod (by omega) (by omega))
    omega

/-- The stamp at `dequeue_pos` is at most that of its published cell. -/
theorem stamp_deq_le (hi : Inv s) :
    (s.ring.cell s.ring.dequeuePos).sequence ≤ s.ring.dequeuePos + 1 := by
  obtain ⟨q, hmod, hq1, hq2, hc⟩ := hi.cells s.ring.dequeuePos
  have hst := hi.stamp hc
  rw [hi.shape.cell_congr hmod] at hst
  have : q ≤ s.ring.dequeuePos := by
    by_contra hlt
    exact absurd (eq_of_mod_eq hmod (by omega) (by omega)) (by omega)
  omega

/-- **An access takes one off**, a spurious failure puts two on. -/
theorem due_access (hi : Inv s) {t : T} (hb : Behind s.ring (s.pc t))
    (hs : (s.pc t).step b s.ring = some (r', pc', es)) :
    due r' pc' + 1 ≤ due s.ring (s.pc t) + if b && isCas (s.pc t) then 2 else 0 := by
  rcases hpc : s.pc t with _ | req | ⟨req, p⟩ | ⟨req, p⟩ | ⟨req, p⟩ | ⟨req, p⟩ | _ | p | p | p |
    ⟨req, p⟩ | _ <;> rw [hpc] at hs hb <;> simp only [Pc.step] at hs
  case enqStamp =>
    split_ifs at hs with h0 h1 <;> cases hs <;> simp only [due, isCas]
    · omega
    · omega
    · -- the stamp has moved on, so the counter has
      have hne : p ≠ s.ring.enqueuePos := by
        rintro rfl
        have := stamp_enq_le hi
        omega
      simp only [Behind] at hb
      omega
  case enqCas =>
    split_ifs at hs with h0 <;> cases hs <;> simp only [due, isCas]
    · omega
    · simp only [Behind] at hb
      cases b
      · have : s.ring.enqueuePos ≠ p := fun h => h0 ⟨rfl, h⟩
        simp
        omega
      · simp
  case deqStamp =>
    split_ifs at hs with h0 h1 <;> cases hs <;> simp only [due, isCas]
    · omega
    · omega
    · have hne : p ≠ s.ring.dequeuePos := by
        rintro rfl
        have := stamp_deq_le hi
        omega
      simp only [Behind] at hb
      omega
  case deqCas =>
    split_ifs at hs with h0 <;> cases hs <;> simp only [due, isCas]
    · omega
    · simp only [Behind] at hb
      cases b
      · have : s.ring.dequeuePos ≠ p := fun h => h0 ⟨rfl, h⟩
        simp
        omega
      · simp
  case deqRead => split at hs <;> cases hs <;> simp [due, isCas]
  case idle | undefined => cases hs
  all_goals
    cases hs
    simp [due, isCas]

/-- Another thread's access costs two for a claim of the side, and nothing else. -/
theorem due_other (side : Side) (hside : claiming pc = none ∨ claiming pc = some side)
    {pc₁ pc₂ : Pc α} (hs : pc₁.step b r = some (r', pc₂, es)) :
    due r' pc ≤ due r pc + 2 * es.countP (claims side) := by
  have hcount : ∀ {p}, r'.enqueuePos - p ≤ r.enqueuePos - p + es.countP (claims .enqueue) ∧
      r'.dequeuePos - p ≤ r.dequeuePos - p + es.countP (claims .dequeue) := by
    intro p
    cases pc₁ <;> simp only [Pc.step] at hs
    case enqStamp | deqStamp | enqCas | deqCas =>
      split_ifs at hs <;> cases hs <;> simp [claims] <;> omega
    case deqRead => split at hs <;> cases hs <;> simp [RingBuffer.setCell]
    case idle | undefined => cases hs
    all_goals
      cases hs
      simp [RingBuffer.setCell]
  rcases hside with hn | hn
  · cases pc <;> simp only [claiming, reduceCtorEq] at hn <;> simp [due]
  · cases pc with
    | enqStamp _ p | enqCas _ p | deqStamp p | deqCas p =>
      cases hn
      have := @hcount p
      simp only [due]
      omega
    | enqLoad | deqLoad =>
      cases hn
      simp [due]
    | _ => cases hn

theorem Behind.mono (hb : Behind r pc) (henq : r.enqueuePos ≤ r'.enqueuePos)
    (hdeq : r.dequeuePos ≤ r'.dequeuePos) : Behind r' pc := by
  cases pc with
  | enqStamp _ p | enqCas _ p => exact hb.trans henq
  | deqStamp p | deqCas p => exact hb.trans hdeq
  | _ => trivial

theorem behind_access (hb : Behind r pc) (hs : pc.step b r = some (r', pc', es)) :
    Behind r' pc' := by
  cases pc <;> simp only [Pc.step] at hs
  case enqStamp | deqStamp | enqCas | deqCas =>
    split_ifs at hs <;> cases hs <;> first | trivial | exact hb | exact le_rfl
  case deqRead => split at hs <;> cases hs <;> trivial
  case idle | undefined => cases hs
  case enqLoad | deqLoad =>
    cases hs
    exact le_rfl
  all_goals
    cases hs
    trivial

/-- A call stays on its side, and claims at most once. -/
theorem claiming_access (hs : pc.step b r = some (r', pc', es)) :
    (claiming pc' = claiming pc ∧ ∀ side, es.countP (claims side) = 0) ∨
      (claiming pc' = none ∧ ∃ side, claiming pc = some side ∧
        ∀ side', es.countP (claims side') = if side' = side then 1 else 0) ∨
      (claiming pc' = none ∧ ∀ side, es.countP (claims side) = 0) := by
  cases pc <;> simp only [Pc.step] at hs
  case enqStamp | deqStamp => split_ifs at hs <;> cases hs <;> simp [claiming, claims]
  case enqCas | deqCas =>
    split_ifs at hs <;> cases hs
    · refine Or.inr (Or.inl ⟨rfl, _, rfl, fun side' => ?_⟩)
      cases side' <;> simp [claims]
    · exact Or.inl ⟨rfl, fun _ => rfl⟩
  case deqRead => split at hs <;> cases hs <;> exact Or.inl ⟨rfl, fun _ => rfl⟩
  case idle | undefined => cases hs
  all_goals
    cases hs
    simp [claiming, claims]

/-- A call is over when it answers. -/
theorem inCall_access (hs : pc.step b r = some (r', pc', es)) :
    es.countP (fun e => (answer e).isSome) + inCall pc' = inCall pc := by
  cases pc <;> simp only [Pc.step] at hs
  case enqStamp | deqStamp | enqCas | deqCas =>
    split_ifs at hs <;> cases hs <;> simp [inCall, answer]
  case deqRead => split at hs <;> cases hs <;> simp [inCall]
  case idle | undefined => cases hs
  all_goals
    cases hs
    simp [inCall, answer]

end Access

/-! ### Steps and their notes -/

section Steps
variable [DecidableEq T] {s s' : Threads T α} {a : Action T α} {c : ℕ} {h e : List (Note T α)}

/-- **What a step does**: it begins a call, or makes an access, and the history says which. -/
theorem paced_cases (hs : (paced T α c).step s a = some (s', e)) :
    (∃ t side pc', s.pc t = .idle ∧
      ((∃ req, pc' = .enqLoad req ∧ side = .enqueue) ∨ (pc' = .deqLoad ∧ side = .dequeue)) ∧
      s' = { s with pc := Function.update s.pc t pc' } ∧ e = [.begins t side]) ∨
    ∃ t b r pc' es, (s.pc t).step b s.ring = some (r, pc', es) ∧
      s' = { ring := r, pc := Function.update s.pc t pc' } ∧
      e = [.access t (b && isCas (s.pc t)) es] := by
  obtain ⟨⟨s'', es⟩, hstep, heq⟩ := Option.map_eq_some_iff.mp hs
  cases heq
  cases a with
  | tryEnqueue t req =>
    simp only [Threads.step] at hstep
    split at hstep <;> cases hstep
    rename_i hpc
    exact Or.inl ⟨t, _, _, hpc, Or.inl ⟨req, rfl, rfl⟩, rfl, rfl⟩
  | tryDequeue t =>
    simp only [Threads.step] at hstep
    split at hstep <;> cases hstep
    rename_i hpc
    exact Or.inl ⟨t, _, _, hpc, Or.inr ⟨rfl, rfl⟩, rfl, rfl⟩
  | run t b =>
    simp only [Threads.step] at hstep
    split at hstep <;> cases hstep
    rename_i es' hpc
    refine Or.inr ⟨t, b, _, _, es', hpc, rfl, ?_⟩
    simp [note, Function.comp_def]

/-- What a run keeps of the ring. -/
structure Kept (s : Threads T α) : Prop where
  inv : Inv s
  behind : ∀ t, Behind s.ring (s.pc t)

theorem Kept.step (hk : Kept s) (hs : (paced T α c).step s a = some (s', e)) : Kept s' := by
  rcases paced_cases hs with ⟨t, side, pc', hidle, hpc, rfl, -⟩ | ⟨t, b, r, pc', es, hpc, rfl, -⟩
  · refine ⟨?_, fun u => ?_⟩
    · rcases hpc with ⟨req, rfl, -⟩ | ⟨rfl, -⟩
      · exact hk.inv.relabel (by rw [hidle]; rfl) rfl trivial
      · exact hk.inv.relabel (by rw [hidle]; rfl) rfl trivial
    · by_cases hu : u = t
      · subst hu
        simp only [Function.update_self]
        rcases hpc with ⟨req, rfl, -⟩ | ⟨rfl, -⟩
        · trivial
        · trivial
      · simpa only [Function.update_of_ne hu] using hk.behind u
  · obtain ⟨-, henq, hdeq⟩ := access_mono hpc
    refine ⟨hk.inv.access hpc, fun u => ?_⟩
    by_cases hu : u = t
    · subst hu
      simpa only [Function.update_self] using behind_access (hk.behind u) hpc
    · simpa only [Function.update_of_ne hu] using (hk.behind u).mono henq hdeq

theorem run_kept (hc : 2 ≤ c) (hr : Run (paced T α c) anyStep s h) : Kept s := by
  refine hr.invariant (I := fun s _ => Kept s) ?_ ?_
  · rintro s rfl
    exact ⟨Inv.new hc, fun _ => trivial⟩
  · intro s h a s' e _ hk _ hs
    exact hk.step hs

end Steps

/-! ### One call -/

section Calls
variable [DecidableEq T] {s s' : Threads T α} {a : Action T α} {c : ℕ} {h mid e : List (Note T α)}
  {t : T} {side : Side}

/-- The accesses of a call so far and those it still has to make, against what it has met. -/
structure Paid (s : Threads T α) (t : T) (side : Side) (mid : List (Note T α)) : Prop where
  stays : claiming (s.pc t) = none ∨ claiming (s.pc t) = some side
  cost : accesses (own t mid) + due s.ring (s.pc t) ≤
    5 + 2 * rivals t side mid + 2 * spurious (own t mid)

theorem Paid.step (hk : Kept s) (hp : Paid s t side mid)
    (hs : (paced T α c).step s a = some (s', e)) (hone : OneCall t e) :
    Paid s' t side (mid ++ e) := by
  have hcost := hp.cost
  rcases paced_cases hs with ⟨u, side', pc', hidle, -, rfl, rfl⟩ | ⟨u, b, r, pc', es, hpc, rfl, rfl⟩
  · have hu : t ≠ u := by
      rintro rfl
      exact hone side' (List.mem_singleton_self _)
    have hn : (Note.begins u side' : Note T α).thread ≠ t := hu.symm
    refine ⟨by simpa only [Function.update_of_ne hu] using hp.stays, ?_⟩
    simp only [Function.update_of_ne hu, own_other hn, rivals_other hn, Note.events,
      List.countP_nil]
    exact hcost
  by_cases hu : t = u
  · subst hu
    have hn : (Note.access t (b && isCas (s.pc t)) es).thread = t := rfl
    have hdue := due_access hk.inv (hk.behind t) hpc
    refine ⟨?_, ?_⟩
    · simp only [Function.update_self]
      rcases claiming_access hpc with ⟨heq, -⟩ | ⟨heq, -⟩ | ⟨heq, -⟩
      · rw [heq]
        exact hp.stays
      · exact Or.inl heq
      · exact Or.inl heq
    · simp only [Function.update_self, own_own hn, rivals_own hn, accesses_access, spurious_access]
      split_ifs at hdue ⊢ <;> omega
  · have hn : (Note.access u (b && isCas (s.pc u)) es).thread ≠ t := Ne.symm hu
    have hdue := due_other side hp.stays hpc
    refine ⟨by simpa only [Function.update_of_ne hu] using hp.stays, ?_⟩
    simp only [Function.update_of_ne hu, own_other hn, rivals_other hn, Note.events]
    omega

theorem run_paid (hc : 2 ≤ c) (hr : Run (paced T α c) anyStep s h) {pre : List (Note T α)}
    (heq : h = pre ++ .begins t side :: mid) (hone : OneCall t mid) : Paid s t side mid := by
  suffices hall : ∀ t pre side mid, h = pre ++ .begins t side :: mid → OneCall t mid →
      Paid s t side mid from hall t pre side mid heq hone
  clear heq hone
  refine hr.invariant (I := fun s h => ∀ t pre side mid, h = pre ++ .begins t side :: mid →
    OneCall t mid → Paid s t side mid) ?_ ?_
  · intro s hs t pre side mid heq
    exact absurd (congrArg List.length heq) (by simp)
  · intro s h a s' e hr ih _ hs t pre side mid heq hone
    rcases split_append heq with ⟨mid', rfl, rfl⟩ | ⟨pre', rfl, hnew⟩
    · refine Paid.step (run_kept hc hr) (ih t pre side mid' rfl fun side' hm => ?_) hs fun side' hm => ?_
      · exact hone side' (List.mem_append_left _ hm)
      · exact hone side' (List.mem_append_right _ hm)
    · rcases paced_cases hs with ⟨u, side', pc', -, hpc, rfl, rfl⟩ | ⟨u, b, r, pc', es, -, -, rfl⟩
      · obtain ⟨rfl, hnil⟩ : pre' = [] ∧ mid = [] := by
          rcases pre' with _ | ⟨y, pre'⟩
          · exact ⟨rfl, (List.cons.inj hnew).2.symm⟩
          · exact absurd (congrArg List.length hnew) (by simp)
        subst hnil
        cases hnew
        refine ⟨?_, ?_⟩
        · simp only [Function.update_self]
          rcases hpc with ⟨req, rfl, rfl⟩ | ⟨rfl, rfl⟩ <;> exact Or.inr rfl
        · simp only [Function.update_self]
          rcases hpc with ⟨req, rfl, rfl⟩ | ⟨rfl, rfl⟩ <;> exact le_rfl
      · rcases pre' with _ | ⟨y, pre'⟩
        · cases hnew
        · exact absurd (congrArg List.length hnew) (by simp)

/-- **The cost of a call**: in any run, at any moment of a call, it has made at most five accesses, two
more for each claim on its side by another thread since it began, and two more for each of its own
compare-and-swaps that failed spuriously. -/
theorem call_accesses (hc : 2 ≤ c) (hr : Run (paced T α c) anyStep s (h ++ .begins t side :: mid))
    (hone : OneCall t mid) :
    accesses (own t mid) ≤ 5 + 2 * rivals t side mid + 2 * spurious (own t mid) := by
  have := (run_paid hc hr rfl hone).cost
  omega

/-- Two producers race for position 0, and the loser's next compare-and-swap fails spuriously. -/
def race : List (Machine.Action Bool ℕ) :=
  [.tryEnqueue false 7, .tryEnqueue true 8, .run false false, .run true false, .run false false,
    .run true false, .run true false, .run false false, .run false false, .run false true,
    .run false false, .run false false, .run false false, .run false false]

theorem call_accesses_race : ∃ mid : List (Note Bool ℕ),
    accesses (own false mid) = 9 ∧ rivals false .enqueue mid = 1 ∧ spurious (own false mid) = 1 ∧
    accesses (own false mid) ≤
      5 + 2 * rivals false .enqueue mid + 2 * spurious (own false mid) := by
  obtain ⟨s, h, hr, hp⟩ := exists_run_of_exec (paced Bool ℕ 2) anyStep (fun _ _ _ => true)
    (fun _ _ _ _ => trivial) { ring := RingBuffer.new 2, pc := fun _ => .idle } race
    (fun x => decide (x.2 = .begins false .enqueue :: x.2.tail ∧
      .begins false .enqueue ∉ x.2.tail ∧ .begins false .dequeue ∉ x.2.tail ∧
      accesses (own false x.2.tail) = 9 ∧ rivals false .enqueue x.2.tail = 1 ∧
      spurious (own false x.2.tail) = 1)) rfl (by decide)
  obtain ⟨heq, henq, hdeq, h1, h2, h3⟩ := of_decide_eq_true hp
  dsimp only at heq
  rw [heq] at hr
  refine ⟨h.tail, h1, h2, h3, call_accesses (h := []) le_rfl hr fun side => ?_⟩
  cases side
  · exact henq
  · exact hdeq

end Calls

/-! ### All calls -/

section Threads
variable [DecidableEq T] [Fintype T] {s s' : Threads T α} {a : Action T α} {c : ℕ}
  {h e : List (Note T α)} {r r' : RingBuffer α} {pc pc' : Pc α} {b : Bool} {es : List (Event α)}

omit [DecidableEq T] in
/-- One value changes, and each of the others grows by at most `k`. -/
theorem sum_step_le {f g : T → ℕ} {t : T} {k : ℕ} (hother : ∀ u ≠ t, g u ≤ f u + k) :
    ∑ u, g u + f t ≤ ∑ u, f u + g t + k * (Fintype.card T - 1) := by
  classical
  have hf := Finset.add_sum_erase Finset.univ f (Finset.mem_univ t)
  have hg := Finset.add_sum_erase Finset.univ g (Finset.mem_univ t)
  have hle : ∑ u ∈ Finset.univ.erase t, g u ≤ ∑ u ∈ Finset.univ.erase t, (f u + k) :=
    Finset.sum_le_sum fun u hu => hother u (Finset.ne_of_mem_erase hu)
  rw [Finset.sum_add_distrib, Finset.sum_const, Finset.card_erase_of_mem (Finset.mem_univ t),
    smul_eq_mul, Finset.card_univ, mul_comm] at hle
  omega

/-- What a call still has to do, with two accesses put by for each other thread that its own claim may
delay. -/
def weight (T : Type*) [Fintype T] (r : RingBuffer α) (pc : Pc α) : ℕ :=
  due r pc + if (claiming pc).isSome then 2 * (Fintype.card T - 1) else 0

omit [DecidableEq T] in
theorem weight_of_none (hn : claiming pc = none) : weight T r pc = due r pc := by
  simp [weight, hn]

omit [DecidableEq T] in
theorem weight_of_some {side : Side} (hs : claiming pc = some side) :
    weight T r pc = due r pc + 2 * (Fintype.card T - 1) := by
  simp [weight, hs]

omit [DecidableEq T] in
theorem weight_other {pc₁ pc₂ : Pc α} (hs : pc₁.step b r = some (r', pc₂, es)) :
    weight T r' pc ≤ weight T r pc +
      2 * (es.countP (claims .enqueue) + es.countP (claims .dequeue)) := by
  unfold weight
  cases hside : claiming pc with
  | none =>
    have := due_other .enqueue (Or.inl hside) hs
    omega
  | some side =>
    have := due_other side (Or.inr hside) hs
    cases side <;> omega

/-- **All calls together lose one with an access**: what a claim costs the others was put by. -/
theorem weight_access (hk : Kept s) {t : T} (hs : (s.pc t).step b s.ring = some (r, pc', es)) :
    ∑ u, weight T r (Function.update s.pc t pc' u) + 1 ≤
      ∑ u, weight T s.ring (s.pc u) + if b && isCas (s.pc t) then 2 else 0 := by
  have hsum := sum_step_le (f := fun u => weight T s.ring (s.pc u))
    (g := fun u => weight T r (Function.update s.pc t pc' u)) (t := t)
    (k := 2 * (es.countP (claims .enqueue) + es.countP (claims .dequeue))) fun u hu => by
      simp only [Function.update_of_ne hu]
      exact weight_other hs
  have hdue := due_access hk.inv (hk.behind t) hs
  simp only [Function.update_self] at hsum
  rcases claiming_access hs with ⟨heq, hnone⟩ | ⟨heq, side, hside, hone⟩ | ⟨heq, hnone⟩
  · have hw : weight T r pc' + due s.ring (s.pc t) = weight T s.ring (s.pc t) + due r pc' := by
      unfold weight
      rw [heq]
      omega
    rw [hnone, hnone] at hsum
    omega
  · have hcount : es.countP (claims .enqueue) + es.countP (claims .dequeue) = 1 := by
      rw [hone, hone]
      cases side <;> rfl
    rw [hcount, weight_of_none heq, weight_of_some hside] at hsum
    omega
  · have hw : due s.ring (s.pc t) ≤ weight T s.ring (s.pc t) := Nat.le_add_right _ _
    rw [hnone, hnone, weight_of_none heq] at hsum
    omega

theorem inCall_sum (pc : T → Pc α) (t : T) (pc' : Pc α) :
    ∑ u, inCall (Function.update pc t pc' u) + inCall (pc t) = ∑ u, inCall (pc u) + inCall pc' := by
  have hother : ∀ u ≠ t, inCall (Function.update pc t pc' u) = inCall (pc u) := fun u hu => by
    rw [Function.update_of_ne hu]
  have hle := sum_step_le (f := fun u => inCall (pc u))
    (g := fun u => inCall (Function.update pc t pc' u)) (k := 0) fun u hu => (hother u hu).le
  have hge := sum_step_le (f := fun u => inCall (Function.update pc t pc' u))
    (g := fun u => inCall (pc u)) (k := 0) fun u hu => (hother u hu).ge
  simp only [Function.update_self] at hle hge
  omega

/-- The accesses so far and those that the calls in progress still have to make. -/
structure Settled (s : Threads T α) (h : List (Note T α)) : Prop where
  cost : accesses h + ∑ t, weight T s.ring (s.pc t) ≤
    (2 * Fintype.card T + 3) * begun h + 2 * spurious h
  calls : begun h = answered h + ∑ t, inCall (s.pc t)

theorem Settled.step (hk : Kept s) (hb : Settled s h)
    (hs : (paced T α c).step s a = some (s', e)) : Settled s' (h ++ e) := by
  have hcost := hb.cost
  have hcalls := hb.calls
  rcases paced_cases hs with ⟨t, side, pc', hidle, hpc, rfl, rfl⟩ | ⟨t, b, r, pc', es, hpc, rfl, rfl⟩
  · have hn : 0 < Fintype.card T := Fintype.card_pos_iff.mpr ⟨t⟩
    have hsum := sum_step_le (f := fun u => weight T s.ring (s.pc u))
      (g := fun u => weight T s.ring (Function.update s.pc t pc' u)) (t := t) (k := 0)
      fun u hu => by simp only [Function.update_of_ne hu]; exact le_rfl
    have hw : weight T s.ring pc' = 2 * Fintype.card T + 3 := by
      rcases hpc with ⟨req, rfl, -⟩ | ⟨rfl, -⟩
      · rw [weight_of_some rfl, due]
        omega
      · rw [weight_of_some rfl, due]
        omega
    have hcall := inCall_sum s.pc t pc'
    have hone : inCall pc' = 1 := by rcases hpc with ⟨req, rfl, -⟩ | ⟨rfl, -⟩ <;> rfl
    have hzero : inCall (s.pc t) = 0 := by rw [hidle]; rfl
    simp only [Function.update_self, hw] at hsum
    refine ⟨?_, ?_⟩
    · rw [accesses_begins, begun_begins, spurious_begins, mul_add, mul_one]
      dsimp only
      omega
    · rw [begun_begins, answered_begins]
      dsimp only
      omega
  · have hsum := weight_access hk hpc
    have hcall := inCall_sum s.pc t pc'
    have hans := inCall_access hpc
    refine ⟨?_, ?_⟩
    · rw [accesses_access, begun_access, spurious_access]
      dsimp only
      split_ifs at hsum ⊢ <;> omega
    · rw [begun_access, answered_access]
      dsimp only
      omega

theorem run_settled (hc : 2 ≤ c) (hr : Run (paced T α c) anyStep s h) : Settled s h := by
  refine hr.invariant (I := fun s h => Settled s h) ?_ ?_
  · rintro s rfl
    exact ⟨by simp [accesses, begun, spurious, weight, due, claiming],
      by simp [begun, answered, inCall]⟩
  · intro s h a s' e hr hb _ hs
    exact hb.step (run_kept hc hr) hs

/-- **Lock-freedom**: in any run, all threads together have made at most `2 n + 3` accesses for each call
that has returned or is in progress, and two for each spurious failure. So calls return as long as
threads take steps, however they interleave. -/
theorem lock_free (hc : 2 ≤ c) (hr : Run (paced T α c) anyStep s h) :
    accesses h ≤ (2 * Fintype.card T + 3) * (answered h + ∑ t, inCall (s.pc t)) + 2 * spurious h := by
  have hb := run_settled hc hr
  rw [← hb.calls]
  exact (Nat.le_add_right _ _).trans hb.cost

theorem lock_free_race : ∃ (s : Threads Bool ℕ) (h : List (Note Bool ℕ)),
    accesses h = 12 ∧ answered h = 1 ∧ ∑ t, inCall (s.pc t) = 1 ∧ spurious h = 1 ∧
    accesses h ≤ (2 * Fintype.card Bool + 3) * (answered h + ∑ t, inCall (s.pc t)) +
      2 * spurious h := by
  obtain ⟨s, h, hr, hp⟩ := exists_run_of_exec (paced Bool ℕ 2) anyStep (fun _ _ _ => true)
    (fun _ _ _ _ => trivial) { ring := RingBuffer.new 2, pc := fun _ => .idle } race
    (fun x => decide (accesses x.2 = 12 ∧ answered x.2 = 1 ∧ ∑ t, inCall (x.1.pc t) = 1 ∧
      spurious x.2 = 1)) rfl (by decide)
  obtain ⟨h1, h2, h3, h4⟩ := of_decide_eq_true hp
  exact ⟨s, h, h1, h2, h3, h4, lock_free le_rfl hr⟩

end Threads

end FluxThroughput.Ring.Progress
