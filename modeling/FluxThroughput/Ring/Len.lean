import FluxThroughput.Ring.Answers

/-! # The length of a ring in use

`len` loads `dequeue_pos` and then `enqueue_pos`, and other threads act between the two loads. The
counters only grow, so the difference is never below the number of requests queued at any moment
between the loads, and it can be above all of them. `is_empty` is that answer being zero: it is true
exactly when the ring was empty all the time between the loads. -/

namespace FluxThroughput.Ring.Len

open FluxThroughput.Lib.Pow2 FluxThroughput.Lib.Transition FluxThroughput.Ring.Machine
open FluxThroughput.Ring.Invariant FluxThroughput.Ring.Delivery FluxThroughput.Ring.Answers

variable {α T : Type*}

/-! ### Calls of `len` -/

/-- What a thread does next in a call of `len`. -/
inductive LenPc
  | idle
  | loadDeq
  | loadEnq (deq : ℕ)
  deriving DecidableEq

/-- The answer of `len`, from the counters it has loaded. -/
def estimate (deq enq capacity : ℕ) : ℕ := if enq ≤ deq then 0 else min (enq - deq) capacity

/-- `Queue::is_empty`, from the answer of `len`. -/
def isEmpty (len : ℕ) : Bool := len == 0

/-- The ring, the calls at it, and the calls of `len`. -/
structure Readers (T α : Type*) where
  threads : Threads T α
  len : T → LenPc

inductive Action (T α : Type*)
  | call (a : Machine.Action T α)
  | len (t : T)
  | load (t : T)

/-- What happens in calls of `try_enqueue` and `try_dequeue`, and the two loads of `len`. -/
inductive Mark (α : Type*)
  | call (m : Answers.Mark α)
  | loaded
  | answered (n : ℕ)
  deriving DecidableEq

def threadOf : Machine.Action T α → T
  | .tryEnqueue t _ => t
  | .tryDequeue t => t
  | .run t _ => t

/-- The next load of a call of `len`. -/
def LenPc.step (r : RingBuffer α) : LenPc → Option (LenPc × Mark α)
  | .idle => none
  | .loadDeq => some (.loadEnq r.dequeuePos, .loaded)
  | .loadEnq deq => some (.idle, .answered (estimate deq r.enqueuePos r.capacity))

/-- Any threads, each in one call at a time. -/
def system (T α : Type*) [DecidableEq T] (capacity : ℕ) :
    System (Readers T α) (Action T α) (T × Mark α) where
  init s := s = { threads := { ring := RingBuffer.new capacity, pc := fun _ => .idle }
                  len := fun _ => .idle }
  step s
    | .call a =>
      match s.len (threadOf a) with
      | .idle =>
        ((calls T α capacity).step s.threads a).map fun x =>
          ({ s with threads := x.1 }, x.2.map fun y => (y.1, .call y.2))
      | _ => none
    | .len t =>
      match s.threads.pc t, s.len t with
      | .idle, .idle => some ({ s with len := Function.update s.len t .loadDeq }, [])
      | _, _ => none
    | .load t =>
      ((s.len t).step s.threads.ring).map fun x =>
        ({ s with len := Function.update s.len t x.1 }, [(t, x.2)])

/-- What happened at the ring. -/
def ringMarks (h : List (T × Mark α)) : List (T × Answers.Mark α) :=
  h.filterMap fun x => match x.2 with
    | .call m => some (x.1, m)
    | _ => none

/-- The requests that had entered the ring, and those that had left it. -/
def entered (h : List (T × Mark α)) : ℕ := (ledger (events (ringMarks h))).claimed.length

def left (h : List (T × Mark α)) : ℕ := (ledger (events (ringMarks h))).taken.length

/-- The number of requests queued after a history. -/
def queued (h : List (T × Mark α)) : ℕ := unclaimed (ringMarks h)

section Counting
variable {h e : List (T × Mark α)}

theorem ringMarks_append (h e : List (T × Mark α)) : ringMarks (h ++ e) = ringMarks h ++ ringMarks e :=
  List.filterMap_append

theorem ringMarks_call (e : List (T × Answers.Mark α)) :
    ringMarks (e.map fun y => (y.1, Mark.call y.2)) = e := by
  induction e with
  | nil => rfl
  | cons x e ih => exact congrArg (x :: ·) ih

end Counting

/-! ### Runs -/

section Runs
variable [DecidableEq T] {s s' : Readers T α} {a : Action T α} {h e : List (T × Mark α)} {c : ℕ}

/-- **What a step is**: one of the ring, the beginning of a `len`, or one of its loads. -/
theorem system_cases (hs : (system T α c).step s a = some (s', e)) :
    (∃ b threads' g, (calls T α c).step s.threads b = some (threads', g) ∧
      s.len (threadOf b) = .idle ∧ s' = { s with threads := threads' } ∧
      e = g.map fun y => (y.1, .call y.2)) ∨
    (∃ t, s' = { s with len := Function.update s.len t .loadDeq } ∧ e = []) ∨
    (∃ t, s' = { s with len := Function.update s.len t (.loadEnq s.threads.ring.dequeuePos) } ∧
      e = [(t, .loaded)]) ∨
    ∃ t deq, s.len t = .loadEnq deq ∧ s' = { s with len := Function.update s.len t .idle } ∧
      e = [(t, .answered (estimate deq s.threads.ring.enqueuePos s.threads.ring.capacity))] := by
  cases a with
  | call b =>
    simp only [system] at hs
    split at hs
    · rename_i hidle
      obtain ⟨x, hx, heq⟩ := Option.map_eq_some_iff.mp hs
      cases heq
      exact Or.inl ⟨b, _, _, hx, hidle, rfl, rfl⟩
    · cases hs
  | len t =>
    simp only [system] at hs
    split at hs <;> cases hs
    exact Or.inr (Or.inl ⟨t, rfl, rfl⟩)
  | load t =>
    obtain ⟨x, hx, heq⟩ := Option.map_eq_some_iff.mp hs
    cases heq
    cases hpc : s.len t <;> rw [hpc] at hx <;> cases hx
    · exact Or.inr (Or.inr (Or.inl ⟨t, rfl, rfl⟩))
    · exact Or.inr (Or.inr (Or.inr ⟨t, _, hpc, rfl, rfl⟩))

/-- The calls at the ring are a run of the ring. -/
theorem run_calls {ok : Guard (Readers T α) (Action T α) (T × Mark α)}
    (hr : Run (system T α c) ok s h) : Run (calls T α c) anyStep s.threads (ringMarks h) := by
  induction hr with
  | init hs =>
    rw [show _ = _ from hs]
    exact Run.init rfl
  | step hr hok hs ih =>
    rw [ringMarks_append]
    rcases system_cases hs with ⟨b, threads', g, hb, -, rfl, rfl⟩ | ⟨t, rfl, rfl⟩ | ⟨t, rfl, rfl⟩ |
      ⟨t, deq, -, rfl, rfl⟩
    · rw [ringMarks_call]
      exact ih.step trivial hb
    all_goals exact (List.append_nil _).symm ▸ ih

/-- The counters after a run, in terms of its history. -/
theorem counters {ok : Guard (Readers T α) (Action T α) (T × Mark α)} (hc : 2 ≤ c)
    (hr : Run (system T α c) ok s h) :
    s.threads.ring.enqueuePos = entered h ∧ s.threads.ring.dequeuePos = left h ∧
      s.threads.ring.capacity = nextPowerOfTwo (max c 1) ∧ left h ≤ entered h ∧
      entered h ≤ left h + nextPowerOfTwo (max c 1) ∧ queued h = entered h - left h := by
  have hk := run_kept hc (run_calls hr)
  have henq : s.threads.ring.enqueuePos = entered h := hk.books.length_claimed.symm
  have hdeq : s.threads.ring.dequeuePos = left h := by
    rw [left, hk.books.taken, List.length_range]
  have hle := hk.inv.le
  have hlap := enq_le hk.inv
  rw [hk.capacity] at hlap
  refine ⟨henq, hdeq, hk.capacity, by omega, by omega, ?_⟩
  rw [queued, unclaimed_eq hk.inv hk.books, henq, hdeq]

/-- What a call of `len` has loaded, and what it has answered. -/
structure Reads (cap : ℕ) (s : Readers T α) (h : List (T × Mark α)) : Prop where
  loaded : ∀ t deq, s.len t = .loadEnq deq → ∀ pre mid, h = pre ++ (t, .loaded) :: mid →
    (∀ m, (t, m) ∉ mid) → deq = left pre
  answered : ∀ pre t mid n post, h = pre ++ (t, .loaded) :: mid ++ (t, .answered n) :: post →
    (∀ m, (t, m) ∉ mid) → n = estimate (left pre) (entered (pre ++ (t, .loaded) :: mid)) cap

omit [DecidableEq T] in
/-- A step whose events are not loads of the thread keeps what it has loaded. -/
theorem loaded_append {t : T} {deq : ℕ} (hold : ∀ pre mid, h = pre ++ (t, Mark.loaded) :: mid →
      (∀ m, (t, m) ∉ mid) → deq = left pre) (hnew : (t, Mark.loaded) ∉ e) {pre mid : List (T × Mark α)}
    (heq : h ++ e = pre ++ (t, .loaded) :: mid) (hmid : ∀ m, (t, m) ∉ mid) : deq = left pre := by
  rcases split_append heq with ⟨mid', hh, rfl⟩ | ⟨pre', -, he⟩
  · exact hold pre mid' hh fun m hm => hmid m (List.mem_append_left _ hm)
  · exact absurd (he ▸ List.mem_append_right _ List.mem_cons_self) hnew

omit [DecidableEq T] in
/-- A step that answers nothing keeps what has been answered. -/
theorem answered_append {cap : ℕ} (hold : ∀ pre t mid n post,
      h = pre ++ (t, Mark.loaded) :: mid ++ (t, .answered n) :: post → (∀ m, (t, m) ∉ mid) →
      n = estimate (left pre) (entered (pre ++ (t, .loaded) :: mid)) cap)
    (hnew : ∀ t n, (t, Mark.answered n) ∉ e) {pre mid post : List (T × Mark α)} {t : T} {n : ℕ}
    (heq : h ++ e = pre ++ (t, .loaded) :: mid ++ (t, .answered n) :: post)
    (hmid : ∀ m, (t, m) ∉ mid) :
    n = estimate (left pre) (entered (pre ++ (t, .loaded) :: mid)) cap := by
  rcases split_append heq with ⟨post', hh, -⟩ | ⟨pre', -, he⟩
  · exact hold pre t mid n post' hh hmid
  · exact absurd (he ▸ List.mem_append_right _ List.mem_cons_self) (hnew t n)

theorem Reads.step (hc : 2 ≤ c) {ok : Guard (Readers T α) (Action T α) (T × Mark α)}
    (hr : Run (system T α c) ok s h) (hi : Reads (nextPowerOfTwo (max c 1)) s h)
    (hs : (system T α c).step s a = some (s', e)) :
    Reads (nextPowerOfTwo (max c 1)) s' (h ++ e) := by
  obtain ⟨henq, hdeq, hcap, -⟩ := counters hc hr
  rcases system_cases hs with ⟨b, threads', g, hb, hidle, rfl, rfl⟩ | ⟨u, rfl, rfl⟩ | ⟨u, rfl, rfl⟩ |
    ⟨u, deq, hu, rfl, rfl⟩
  · have hnew : ∀ t m, (t, m) ∈ g.map (fun y => (y.1, Mark.call y.2)) → ∃ m', m = .call m' := by
      intro t m hm
      obtain ⟨y, -, hy⟩ := List.mem_map.mp hm
      cases hy
      exact ⟨_, rfl⟩
    constructor
    · intro t deq ht pre mid
      refine loaded_append (hi.loaded t deq ht) fun hm => ?_
      obtain ⟨m', hm'⟩ := hnew t _ hm
      cases hm'
    · intro pre t mid n post
      refine answered_append hi.answered fun t n hm => ?_
      obtain ⟨m', hm'⟩ := hnew t _ hm
      cases hm'
  · rw [List.append_nil]
    refine ⟨fun t deq ht => ?_, hi.answered⟩
    by_cases htu : t = u
    · rw [htu] at ht
      simp only [Function.update_self] at ht
      cases ht
    · simp only [Function.update_of_ne htu] at ht
      exact hi.loaded t deq ht
  · constructor
    · intro t deq ht pre mid heq hmid
      by_cases htu : t = u
      · subst htu
        simp only [Function.update_self] at ht
        cases ht
        rcases split_concat heq with ⟨mid', -, rfl⟩ | ⟨rfl, -, -⟩
        · exact absurd (List.mem_append_right _ List.mem_cons_self) (hmid .loaded)
        · exact hdeq
      · simp only [Function.update_of_ne htu] at ht
        refine loaded_append (hi.loaded t deq ht) ?_ heq hmid
        rw [List.mem_singleton, Prod.mk.injEq]
        exact fun hm => htu hm.1
    · intro pre t mid n post
      refine answered_append hi.answered fun t n hm => ?_
      cases List.mem_singleton.mp hm
  · constructor
    · intro t deq ht pre mid
      by_cases htu : t = u
      · rw [htu] at ht
        simp only [Function.update_self] at ht
        cases ht
      · simp only [Function.update_of_ne htu] at ht
        refine loaded_append (hi.loaded t deq ht) fun hm => ?_
        cases List.mem_singleton.mp hm
    · intro pre t mid n post heq hmid
      rcases split_concat heq with ⟨post', hh, -⟩ | ⟨rfl, hlast, -⟩
      · exact hi.answered pre t mid n post' hh hmid
      · cases hlast
        rw [← hi.loaded _ deq hu pre mid rfl hmid, ← henq, hcap]

end Runs

end FluxThroughput.Ring.Len
