import FluxThroughput.Ring.Invariant

/-! # What the ring delivers

Any number of threads on a ring of at least two cells, at every interleaving of their accesses. A
`Ledger` collects the claims and the answers of a history, and `Books` relates it to the state: each
position below a counter was claimed once, an answered enqueue is a claim that is no longer being
written, an answered dequeue a claim that is no longer being read. `Delivers` is what follows for the
callers (`ring_delivers`). -/

namespace FluxThroughput.Ring.Delivery

open FluxThroughput.Lib.Pow2 FluxThroughput.Lib.Transition FluxThroughput.Ring.Machine
open FluxThroughput.Ring.Invariant

variable {α T : Type*}

/-! ### Ledgers -/

/-- The claims and the answers so far, each with its position. -/
structure Ledger (α : Type*) where
  /-- positions that producers have claimed, each for a request -/
  claimed : List (ℕ × α) := []
  /-- positions that consumers have claimed -/
  taken : List ℕ := []
  /-- enqueues that have returned `Ok` -/
  enqueued : List (ℕ × α) := []
  /-- dequeues that have returned a request -/
  dequeued : List (ℕ × α) := []

def Ledger.record (l : Ledger α) : Event α → Ledger α
  | .enqClaimed pos req => { l with claimed := l.claimed ++ [(pos, req)] }
  | .deqClaimed pos => { l with taken := l.taken ++ [pos] }
  | .enqOk pos req => { l with enqueued := l.enqueued ++ [(pos, req)] }
  | .deqOk pos req => { l with dequeued := l.dequeued ++ [(pos, req)] }
  | .enqFull _ => l
  | .deqEmpty => l

def ledger (h : List (T × Event α)) : Ledger α := h.foldl (fun l e => l.record e.2) {}

theorem ledger_append (h : List (T × Event α)) (t : T) (es : List (Event α)) :
    ledger (h ++ es.map (t, ·)) = es.foldl Ledger.record (ledger h) := by
  unfold ledger
  rw [List.foldl_append, List.foldl_map]

/-! ### The books -/

/-- The position that a consumer has claimed and not yet freed. -/
def reading : Pc α → Option ℕ
  | .deqRead p => some p
  | .deqFree _ p => some p
  | _ => none

/-- The request that a thread has in hand for a claimed position. -/
def carriedBy : Pc α → Option (ℕ × α)
  | .enqWrite req p => some (p, req)
  | .enqPublish req p => some (p, req)
  | .deqFree req p => some (p, req)
  | _ => none

theorem holds_of_reading {pc : Pc α} {p : ℕ} (h : reading pc = some p) : holds pc = some p := by
  cases pc <;> cases h <;> rfl

theorem carriedBy_eq_none {pc : Pc α} (h : holds pc = none) : carriedBy pc = none := by
  cases pc <;> first | rfl | cases h

theorem writing_eq_none {pc : Pc α} (h : holds pc = none) : writing pc = none := by
  cases pc <;> first | rfl | cases h

theorem reading_eq_none {pc : Pc α} (h : holds pc = none) : reading pc = none := by
  cases pc <;> first | rfl | cases h

/-- A request that is on its way: in some thread's hands, or published in its cell. -/
def Carries (s : Threads T α) (p : ℕ) (req : α) : Prop :=
  (∃ t, carriedBy (s.pc t) = some (p, req)) ∨ s.ring.cell p = ⟨p + 1, some req⟩

/-- **The ledger accounts for the state.** -/
structure Books (s : Threads T α) (l : Ledger α) : Prop where
  claimed : l.claimed.map Prod.fst = List.range s.ring.enqueuePos
  taken : l.taken = List.range s.ring.dequeuePos
  carries : ∀ p req, Carries s p req → (p, req) ∈ l.claimed
  enqueued : ∀ x, x ∈ l.enqueued ↔ x ∈ l.claimed ∧ ∀ t, writing (s.pc t) ≠ some x.1
  enqueuedOnce : l.enqueued.Nodup
  dequeued : ∀ x, x ∈ l.dequeued ↔
    x ∈ l.claimed ∧ x.1 < s.ring.dequeuePos ∧ ∀ t, reading (s.pc t) ≠ some x.1
  dequeuedOnce : l.dequeued.Nodup

theorem Books.new (capacity : ℕ) :
    Books ({ ring := RingBuffer.new capacity, pc := fun _ => .idle } : Threads T α) {} where
  claimed := rfl
  taken := rfl
  carries p req hx := by
    rcases hx with ⟨_, hx⟩ | hx
    · cases hx
    · cases congrArg Cell.slot hx
  enqueued x := by simp
  enqueuedOnce := List.nodup_nil
  dequeued x := by simp
  dequeuedOnce := List.nodup_nil

section Facts
variable {s : Threads T α} {l : Ledger α} {p : ℕ} {a b req : α}

theorem Books.lt_of_claimed (hb : Books s l) {x : ℕ × α} (hx : x ∈ l.claimed) :
    x.1 < s.ring.enqueuePos := by
  have : x.1 ∈ l.claimed.map Prod.fst := List.mem_map.mpr ⟨_, hx, rfl⟩
  rwa [hb.claimed, List.mem_range] at this

theorem Books.claimed_nodup_fst (hb : Books s l) : (l.claimed.map Prod.fst).Nodup := by
  rw [hb.claimed]
  exact List.nodup_range

/-- A position was claimed for one request. -/
theorem Books.claimed_inj (hb : Books s l) (ha : (p, a) ∈ l.claimed) (hb' : (p, b) ∈ l.claimed) :
    a = b :=
  congrArg Prod.snd (List.inj_on_of_nodup_map hb.claimed_nodup_fst ha hb' rfl)

end Facts

/-! ### One access -/

section Access
variable [DecidableEq T] {s : Threads T α} {l : Ledger α} {t : T} {pc' : Pc α} {p : ℕ} {req : α}

theorem update_eq {β : Type*} {f : Pc α → β} (hf : f pc' = f (s.pc t)) (u : T) :
    f (Function.update s.pc t pc' u) = f (s.pc u) := by
  by_cases hu : u = t
  · rw [hu, Function.update_self, hf]
  · rw [Function.update_of_ne hu]

/-- A position that only the moving thread works on is worked on as that thread says. -/
theorem forall_update_ne {f : Pc α → Option ℕ} {q : ℕ} :
    (∀ u, f (Function.update s.pc t pc' u) ≠ some q) ↔
      f pc' ≠ some q ∧ ∀ u, u ≠ t → f (s.pc u) ≠ some q := by
  constructor
  · intro hx
    refine ⟨by simpa using hx t, fun u hu => ?_⟩
    simpa only [Function.update_of_ne hu] using hx u
  · rintro ⟨ht, hx⟩ u
    by_cases hu : u = t
    · rw [hu, Function.update_self]
      exact ht
    · rw [Function.update_of_ne hu]
      exact hx u hu

omit [DecidableEq T] in
theorem forall_ne_of_none {f : Pc α → Option ℕ} (ht : f (s.pc t) = none) {q : ℕ}
    (hx : ∀ u, u ≠ t → f (s.pc u) ≠ some q) (u : T) : f (s.pc u) ≠ some q := by
  by_cases hu : u = t
  · rw [hu, ht]
    exact (Option.some_ne_none q).symm
  · exact hx u hu

/-- What is carried after the access of one thread. -/
theorem Carries.of_update {r : RingBuffer α} {q : ℕ}
    (hx : Carries { ring := r, pc := Function.update s.pc t pc' } q req)
    (hpc : carriedBy pc' = some (q, req) → Carries s q req)
    (hcell : r.cell q = ⟨q + 1, some req⟩ → Carries s q req) : Carries s q req := by
  rcases hx with ⟨u, hu⟩ | hx
  · by_cases hut : u = t
    · rw [hut] at hu
      simp only [Function.update_self] at hu
      exact hpc hu
    · simp only [Function.update_of_ne hut] at hu
      exact Or.inl ⟨u, hu⟩
  · exact hcell hx

/-- An access that claims and answers nothing, and carries nothing new. -/
theorem Books.silent (hb : Books s l) {r : RingBuffer α}
    (henq : r.enqueuePos = s.ring.enqueuePos) (hdeq : r.dequeuePos = s.ring.dequeuePos)
    (hpc : ∀ q a, carriedBy pc' = some (q, a) → Carries s q a)
    (hcell : ∀ q a, r.cell q = ⟨q + 1, some a⟩ → Carries s q a)
    (hw : writing pc' = writing (s.pc t)) (hr : reading pc' = reading (s.pc t)) :
    Books { ring := r, pc := Function.update s.pc t pc' } l where
  claimed := by rw [henq]; exact hb.claimed
  taken := by rw [hdeq]; exact hb.taken
  carries q a hx := hb.carries q a (hx.of_update (hpc q a) (hcell q a))
  enqueued x := by
    simp only [update_eq hw]
    exact hb.enqueued x
  enqueuedOnce := hb.enqueuedOnce
  dequeued x := by
    simp only [update_eq hr, hdeq]
    exact hb.dequeued x
  dequeuedOnce := hb.dequeuedOnce

/-- A thread that holds nothing moves on, and the buffer stays. -/
theorem Books.relabel (hb : Books s l) (h0 : holds (s.pc t) = none) (h1 : holds pc' = none) :
    Books { s with pc := Function.update s.pc t pc' } l := by
  refine hb.silent rfl rfl (fun q a hq => ?_) (fun q a => Or.inr) ?_ ?_
  · rw [carriedBy_eq_none h1] at hq
    cases hq
  · rw [writing_eq_none h0, writing_eq_none h1]
  · rw [reading_eq_none h0, reading_eq_none h1]

theorem Books.claimEnqueue (hb : Books s l) (hi : Inv s) (hpc : s.pc t = .enqCas req p)
    (heq : s.ring.enqueuePos = p) :
    Books { ring := { s.ring with enqueuePos := p + 1 }
            pc := Function.update s.pc t (.enqWrite req p) }
      { l with claimed := l.claimed ++ [(p, req)] } := by
  have hwt : writing (s.pc t) = none := by rw [hpc]; rfl
  have hle := hi.le
  refine ⟨?_, hb.taken, fun q a hx => ?_, fun x => ?_, hb.enqueuedOnce, fun x => ?_,
    hb.dequeuedOnce⟩
  · rw [List.map_append, hb.claimed, heq, List.range_succ]
    rfl
  · rw [List.mem_append, List.mem_singleton]
    by_cases hq : (q, a) = (p, req)
    · exact Or.inr hq
    · refine Or.inl (hb.carries q a (hx.of_update (fun h1 => ?_) Or.inr))
      exact absurd (Option.some.inj h1).symm hq
  · rw [hb.enqueued, List.mem_append, List.mem_singleton, forall_update_ne]
    constructor
    · rintro ⟨hx, hw⟩
      have hlt := hb.lt_of_claimed hx
      refine ⟨Or.inl hx, fun h1 => ?_, fun u _ => hw u⟩
      have := Option.some.inj h1
      omega
    · rintro ⟨hx, h1, hw⟩
      have hne : x ≠ (p, req) := by
        rintro rfl
        exact h1 rfl
      exact ⟨hx.resolve_right hne, forall_ne_of_none hwt hw⟩
  · have hr : reading (Pc.enqWrite req p) = reading (s.pc t) := by rw [hpc]; rfl
    simp only [update_eq hr]
    rw [hb.dequeued, List.mem_append, List.mem_singleton]
    refine and_congr_left fun hx => ⟨Or.inl, fun h1 => h1.resolve_right ?_⟩
    rintro rfl
    have := hx.1
    omega

theorem Books.write (hb : Books s l) (hi : Inv s) (hpc : s.pc t = .enqWrite req p) :
    Books { ring := s.ring.setCell p { s.ring.cell p with slot := some req }
            pc := Function.update s.pc t (.enqPublish req p) } l := by
  have hok := hi.threads t
  rw [hpc] at hok
  refine hb.silent rfl rfl (fun q a hq => Or.inl ⟨t, by rw [hpc, ← hq]; rfl⟩) (fun q a hq => ?_)
    (by rw [hpc]; rfl) (by rw [hpc]; rfl)
  by_cases hmod : q % s.ring.capacity = p % s.ring.capacity
  · rw [hi.shape.cell_setCell hmod, hok.2] at hq
    have hseq : p = q + 1 := congrArg Cell.sequence hq
    have := hi.shape.two_le
    have := eq_of_mod_eq hmod (by omega) (by omega)
    omega
  · rw [hi.shape.cell_setCell_ne hmod] at hq
    exact Or.inr hq

theorem Books.publish (hb : Books s l) (hi : Inv s) (hpc : s.pc t = .enqPublish req p) :
    Books { ring := s.ring.setCell p { s.ring.cell p with sequence := p + 1 }
            pc := Function.update s.pc t .idle }
      { l with enqueued := l.enqueued ++ [(p, req)] } := by
  have hok := hi.threads t
  rw [hpc] at hok
  have hcarried : Carries s p req := Or.inl ⟨t, by rw [hpc]; rfl⟩
  have hmem := hb.carries p req hcarried
  have hnot : (p, req) ∉ l.enqueued := fun hx =>
    ((hb.enqueued _).mp hx).2 t (by rw [hpc]; rfl)
  have hr : reading (Pc.idle : Pc α) = reading (s.pc t) := by rw [hpc]; rfl
  refine ⟨hb.claimed, hb.taken, fun q a hx => hb.carries q a (hx.of_update (fun h1 => by cases h1)
    fun hq => ?_), fun x => ?_, ?_, fun x => ?_, hb.dequeuedOnce⟩
  · by_cases hmod : q % s.ring.capacity = p % s.ring.capacity
    · rw [hi.shape.cell_setCell hmod, hok.2] at hq
      injection hq with h1 h2
      obtain rfl := Option.some.inj h2
      obtain rfl : p = q := by omega
      exact hcarried
    · rw [hi.shape.cell_setCell_ne hmod] at hq
      exact Or.inr hq
  · rw [List.mem_append, List.mem_singleton, hb.enqueued, forall_update_ne]
    constructor
    · rintro (⟨hx, hw⟩ | rfl)
      · exact ⟨hx, Option.some_ne_none _ ∘ Eq.symm, fun u _ => hw u⟩
      · refine ⟨hmem, Option.some_ne_none _ ∘ Eq.symm, fun u hu hw => hu ?_⟩
        exact hi.unique u t p (holds_of_writing hw) (by rw [hpc]; rfl)
    · rintro ⟨hx, -, hw⟩
      by_cases hxp : x.1 = p
      · exact Or.inr (List.inj_on_of_nodup_map hb.claimed_nodup_fst hx hmem hxp)
      · refine Or.inl ⟨hx, fun u => ?_⟩
        by_cases hu : u = t
        · rw [hu, hpc]
          exact fun h1 => hxp (Option.some.inj h1).symm
        · exact hw u hu
  · rw [List.nodup_append]
    refine ⟨hb.enqueuedOnce, List.nodup_singleton _, fun x hx y hy => ?_⟩
    rw [List.mem_singleton] at hy
    rintro rfl
    exact hnot (hy ▸ hx)
  · simp only [update_eq hr]
    exact hb.dequeued x

theorem Books.claimDequeue (hb : Books s l) (hpc : s.pc t = .deqCas p)
    (heq : s.ring.dequeuePos = p) :
    Books { ring := { s.ring with dequeuePos := p + 1 }
            pc := Function.update s.pc t (.deqRead p) }
      { l with taken := l.taken ++ [p] } := by
  have hrt : reading (s.pc t) = none := by rw [hpc]; rfl
  have hw : writing (Pc.deqRead p : Pc α) = writing (s.pc t) := by rw [hpc]; rfl
  refine ⟨hb.claimed, ?_, fun q a hx => hb.carries q a (hx.of_update (fun h1 => by cases h1) Or.inr),
    fun x => ?_, hb.enqueuedOnce, fun x => ?_, hb.dequeuedOnce⟩
  · rw [hb.taken, heq, List.range_succ]
  · simp only [update_eq hw]
    exact hb.enqueued x
  · rw [hb.dequeued, forall_update_ne, heq]
    change _ ∧ x.1 < p ∧ _ ↔ _ ∧ x.1 < p + 1 ∧ some p ≠ some x.1 ∧ _
    constructor
    · rintro ⟨hx, hlt, hr⟩
      refine ⟨hx, by omega, fun h1 => ?_, fun u _ => hr u⟩
      have := Option.some.inj h1
      omega
    · rintro ⟨hx, hlt, h1, hr⟩
      have hne : p ≠ x.1 := fun h2 => h1 (congrArg some h2)
      exact ⟨hx, by omega, forall_ne_of_none hrt hr⟩

theorem Books.read (hb : Books s l) (hi : Inv s) (hpc : s.pc t = .deqRead p)
    (hcell : s.ring.cell p = ⟨p + 1, some req⟩) :
    Books { ring := s.ring.setCell p { s.ring.cell p with slot := none }
            pc := Function.update s.pc t (.deqFree req p) } l := by
  refine hb.silent rfl rfl (fun q a hq => ?_) (fun q a hq => ?_) (by rw [hpc]; rfl)
    (by rw [hpc]; rfl)
  · cases hq
    exact Or.inr hcell
  · by_cases hmod : q % s.ring.capacity = p % s.ring.capacity
    · rw [hi.shape.cell_setCell hmod] at hq
      cases congrArg Cell.slot hq
    · rw [hi.shape.cell_setCell_ne hmod] at hq
      exact Or.inr hq

theorem Books.free (hb : Books s l) (hi : Inv s) (hpc : s.pc t = .deqFree req p) (n : ℕ) :
    Books { ring := s.ring.setCell p { s.ring.cell p with sequence := n }
            pc := Function.update s.pc t .idle }
      { l with dequeued := l.dequeued ++ [(p, req)] } := by
  have hok := hi.threads t
  rw [hpc] at hok
  have hmem := hb.carries p req (Or.inl ⟨t, by rw [hpc]; rfl⟩)
  have hnot : (p, req) ∉ l.dequeued := fun hx =>
    ((hb.dequeued _).mp hx).2.2 t (by rw [hpc]; rfl)
  have hw : writing (Pc.idle : Pc α) = writing (s.pc t) := by rw [hpc]; rfl
  refine ⟨hb.claimed, hb.taken, fun q a hx => hb.carries q a (hx.of_update (fun h1 => by cases h1)
    fun hq => ?_), fun x => ?_, hb.enqueuedOnce, fun x => ?_, ?_⟩
  · by_cases hmod : q % s.ring.capacity = p % s.ring.capacity
    · rw [hi.shape.cell_setCell hmod, hok.2] at hq
      cases congrArg Cell.slot hq
    · rw [hi.shape.cell_setCell_ne hmod] at hq
      exact Or.inr hq
  · simp only [update_eq hw]
    exact hb.enqueued x
  · rw [List.mem_append, List.mem_singleton, hb.dequeued, forall_update_ne]
    constructor
    · rintro (⟨hx, hlt, hr⟩ | rfl)
      · exact ⟨hx, hlt, Option.some_ne_none _ ∘ Eq.symm, fun u _ => hr u⟩
      · refine ⟨hmem, hok.1, Option.some_ne_none _ ∘ Eq.symm, fun u hu hr => hu ?_⟩
        exact hi.unique u t p (holds_of_reading hr) (by rw [hpc]; rfl)
    · rintro ⟨hx, hlt, -, hr⟩
      by_cases hxp : x.1 = p
      · exact Or.inr (List.inj_on_of_nodup_map hb.claimed_nodup_fst hx hmem hxp)
      · refine Or.inl ⟨hx, hlt, fun u => ?_⟩
        by_cases hu : u = t
        · rw [hu, hpc]
          exact fun h1 => hxp (Option.some.inj h1).symm
        · exact hr u hu
  · rw [List.nodup_append]
    refine ⟨hb.dequeuedOnce, List.nodup_singleton _, fun x hx y hy => ?_⟩
    rw [List.mem_singleton] at hy
    rintro rfl
    exact hnot (hy ▸ hx)

/-- **Every access keeps the books.** -/
theorem Books.access (hb : Books s l) (hi : Inv s) {spurious : Bool} {r : RingBuffer α}
    {es : List (Event α)} (hs : (s.pc t).step spurious s.ring = some (r, pc', es)) :
    Books { ring := r, pc := Function.update s.pc t pc' } (es.foldl Ledger.record l) := by
  have hok := hi.threads t
  rcases hpc : s.pc t with _ | req | ⟨req, p⟩ | ⟨req, p⟩ | ⟨req, p⟩ | ⟨req, p⟩ | _ | p | p | p |
    ⟨req, p⟩ | _ <;> rw [hpc] at hs hok
  · cases hs
  · cases hs
    exact hb.relabel (by rw [hpc]; rfl) rfl
  · simp only [Pc.step] at hs
    split_ifs at hs <;> cases hs <;> exact hb.relabel (by rw [hpc]; rfl) rfl
  · simp only [Pc.step] at hs
    split_ifs at hs with h0 <;> cases hs
    · exact hb.claimEnqueue hi hpc h0.2
    · exact hb.relabel (by rw [hpc]; rfl) rfl
  · cases hs
    exact hb.write hi hpc
  · cases hs
    exact hb.publish hi hpc
  · cases hs
    exact hb.relabel (by rw [hpc]; rfl) rfl
  · simp only [Pc.step] at hs
    split_ifs at hs <;> cases hs <;> exact hb.relabel (by rw [hpc]; rfl) rfl
  · simp only [Pc.step] at hs
    split_ifs at hs with h0 <;> cases hs
    · exact hb.claimDequeue hpc h0.2
    · exact hb.relabel (by rw [hpc]; rfl) rfl
  · obtain ⟨-, req, hcell⟩ := hok
    simp only [Pc.step, hcell] at hs
    cases hs
    have := hb.read hi hpc hcell
    rwa [hcell] at this
  · cases hs
    exact hb.free hi hpc _
  · cases hs

/-! ### Runs -/

/-- **Every step keeps the stamp invariant and the books.** -/
theorem step_inv {s' : Threads T α} {h : List (T × Event α)} {a : Action T α}
    {e : List (T × Event α)} (hi : Inv s) (hb : Books s (ledger h)) (hs : s.step a = some (s', e)) :
    Inv s' ∧ Books s' (ledger (h ++ e)) := by
  rcases step_cases hs with ⟨t, pc', hidle, hbegun, rfl, rfl⟩ | ⟨t, b, r, pc', es, -, hpc, rfl, rfl⟩
  · rw [List.append_nil]
    rcases hbegun with ⟨req, rfl⟩ | rfl
    · exact ⟨hi.relabel (by rw [hidle]; rfl) rfl trivial, hb.relabel (by rw [hidle]; rfl) rfl⟩
    · exact ⟨hi.relabel (by rw [hidle]; rfl) rfl trivial, hb.relabel (by rw [hidle]; rfl) rfl⟩
  · rw [ledger_append]
    exact ⟨hi.access hpc, hb.access hi hpc⟩

theorem run_inv {capacity : ℕ} {h : List (T × Event α)} (hc : 2 ≤ capacity)
    (hr : Run (system T α capacity) anyStep s h) : Inv s ∧ Books s (ledger h) := by
  refine hr.invariant (I := fun s h => Inv s ∧ Books s (ledger h)) ?_ ?_
  · rintro s rfl
    exact ⟨Inv.new hc, Books.new capacity⟩
  · rintro s h a s' e - ⟨hi, hb⟩ - hs
    exact step_inv hi hb hs

end Access

/-! ### What the callers get -/

theorem dropLoop_eq (r : RingBuffer α) :
    ∀ n pos, r.dropLoop n pos = (List.range' pos n).map fun p => (r.cell p).slot
  | 0, _ => rfl
  | n + 1, pos => by
    rw [RingBuffer.dropLoop, dropLoop_eq r n (pos + 1), List.range'_succ, List.map_cons]

section Rest
variable {s : Threads T α} {l : Ledger α} {p q : ℕ}

/-- With no call in progress, the cells of the queued positions are published. -/
theorem published_of_idle (hi : Inv s) (hidle : ∀ t, s.pc t = .idle)
    (hd : s.ring.dequeuePos ≤ p) (he : p < s.ring.enqueuePos) :
    ∃ req, s.ring.cell p = ⟨p + 1, some req⟩ := by
  obtain ⟨q, hmod, h1, h2, hc⟩ := hi.cells p
  have hle := hi.le
  rcases hc with ⟨h3, -⟩ | ⟨t, ht⟩ | ⟨h3, h4, req, hc⟩
  · have := eq_of_mod_eq hmod (by omega) (by omega)
    omega
  · rw [hidle t] at ht
    cases ht
  · obtain rfl := eq_of_mod_eq hmod (by omega) (by omega)
    exact ⟨req, hc⟩

/-- With no call in progress, a cell of no queued position is empty. -/
theorem slot_of_idle (hi : Inv s) (hidle : ∀ t, s.pc t = .idle) (hq : (s.ring.cell q).slot ≠ none) :
    ∃ p, p % s.ring.capacity = q % s.ring.capacity ∧ s.ring.dequeuePos ≤ p ∧
      p < s.ring.enqueuePos := by
  obtain ⟨p, hmod, -, -, hc⟩ := hi.cells q
  rcases hc with ⟨-, hc⟩ | ⟨t, ht⟩ | ⟨h3, h4, -⟩
  · rw [← hi.shape.cell_congr hmod, hc] at hq
    exact absurd rfl hq
  · rw [hidle t] at ht
    cases ht
  · exact ⟨p, hmod, h3, h4⟩

theorem queued_inj (hi : Inv s) (hidle : ∀ t, s.pc t = .idle)
    (hp : s.ring.dequeuePos ≤ p ∧ p < s.ring.enqueuePos)
    (hq : s.ring.dequeuePos ≤ q ∧ q < s.ring.enqueuePos)
    (h : p % s.ring.capacity = q % s.ring.capacity) : p = q :=
  hi.pos_eq h (Or.inr (Or.inr ⟨hp.1, hp.2, published_of_idle hi hidle hp.1 hp.2⟩))
    (Or.inr (Or.inr ⟨hq.1, hq.2, published_of_idle hi hidle hq.1 hq.2⟩))

/-- The queued requests: the claims that no consumer has taken. -/
def rest (s : Threads T α) (l : Ledger α) : List α :=
  (l.claimed.drop s.ring.dequeuePos).map Prod.snd

theorem Books.drop_claimed (hb : Books s l) :
    (l.claimed.drop s.ring.dequeuePos).map Prod.fst =
      List.range' s.ring.dequeuePos (s.ring.enqueuePos - s.ring.dequeuePos) := by
  rw [List.map_drop, hb.claimed, List.range_eq_range', List.drop_range', Nat.zero_add, Nat.mul_one]

theorem Books.take_claimed (hb : Books s l) (hi : Inv s) {x : ℕ × α} :
    x ∈ l.claimed.take s.ring.dequeuePos ↔ x ∈ l.claimed ∧ x.1 < s.ring.dequeuePos := by
  have hfst : (l.claimed.take s.ring.dequeuePos).map Prod.fst =
      List.range s.ring.dequeuePos := by
    rw [List.map_take, hb.claimed, List.take_range, Nat.min_eq_left hi.le]
  constructor
  · intro hx
    have := List.mem_map_of_mem (f := Prod.fst) hx
    rw [hfst, List.mem_range] at this
    exact ⟨List.mem_of_mem_take hx, this⟩
  · rintro ⟨hx, hlt⟩
    rw [← List.take_append_drop s.ring.dequeuePos l.claimed, List.mem_append] at hx
    refine hx.resolve_right fun hx => ?_
    have := List.mem_map_of_mem (f := Prod.fst) hx
    rw [hb.drop_claimed, List.mem_range'_1] at this
    omega

/-- With no call in progress, dropping the buffer drops the queued requests. -/
theorem Books.drop_of_idle (hb : Books s l) (hi : Inv s) (hidle : ∀ t, s.pc t = .idle) :
    s.ring.drop = (rest s l).map some := by
  unfold RingBuffer.drop rest
  rw [dropLoop_eq, ← hb.drop_claimed, List.map_map, List.map_map]
  refine List.map_congr_left fun x hx => ?_
  have hx1 := List.mem_map_of_mem (f := Prod.fst) hx
  rw [hb.drop_claimed, List.mem_range'_1] at hx1
  obtain ⟨req, hcell⟩ := published_of_idle hi hidle hx1.1 (by omega)
  have hreq := hb.carries _ _ (Or.inr hcell)
  have := hb.claimed_inj hreq (List.mem_of_mem_drop hx)
  simp only [Function.comp_apply, hcell, this]

/-- With no call in progress, every claim to write has been answered. -/
theorem Books.enqueued_perm (hb : Books s l) (hidle : ∀ t, s.pc t = .idle) :
    l.enqueued.Perm l.claimed := by
  rw [List.perm_ext_iff_of_nodup hb.enqueuedOnce hb.claimed_nodup_fst.of_map]
  refine fun x => (hb.enqueued x).trans (and_iff_left fun t => ?_)
  rw [hidle t]
  exact (Option.some_ne_none _).symm

/-- With no call in progress, every claim to read has been answered. -/
theorem Books.dequeued_perm (hb : Books s l) (hi : Inv s) (hidle : ∀ t, s.pc t = .idle) :
    l.dequeued.Perm (l.claimed.take s.ring.dequeuePos) := by
  have hn : l.claimed.Nodup := hb.claimed_nodup_fst.of_map
  rw [List.perm_ext_iff_of_nodup hb.dequeuedOnce (hn.sublist (List.take_sublist _ _))]
  intro x
  rw [hb.dequeued, hb.take_claimed hi]
  refine and_congr_right fun _ => and_iff_left fun t => ?_
  rw [hidle t]
  exact (Option.some_ne_none _).symm

theorem Books.length_claimed (hb : Books s l) : l.claimed.length = s.ring.enqueuePos := by
  rw [← List.length_map (f := Prod.fst), hb.claimed, List.length_range]

/-- With no call in progress, `enqueue_pos` counts the enqueues and `dequeue_pos` the dequeues. -/
theorem Books.counts_of_idle (hb : Books s l) (hi : Inv s) (hidle : ∀ t, s.pc t = .idle) :
    l.enqueued.length = s.ring.enqueuePos ∧ l.dequeued.length = s.ring.dequeuePos := by
  refine ⟨(hb.enqueued_perm hidle).length_eq.trans hb.length_claimed, ?_⟩
  rw [(hb.dequeued_perm hi hidle).length_eq, List.length_take, hb.length_claimed,
    Nat.min_eq_left hi.le]

/-- With no call in progress, what was enqueued is what was dequeued and what is queued. -/
theorem Books.perm_of_idle (hb : Books s l) (hi : Inv s) (hidle : ∀ t, s.pc t = .idle) :
    (l.enqueued.map Prod.snd).Perm (l.dequeued.map Prod.snd ++ rest s l) :=
  calc (l.enqueued.map Prod.snd).Perm (l.claimed.map Prod.snd) := (hb.enqueued_perm hidle).map _
    _ = (l.claimed.take s.ring.dequeuePos).map Prod.snd ++ rest s l := by
        rw [rest, ← List.map_append, List.take_append_drop]
    List.Perm _ (l.dequeued.map Prod.snd ++ rest s l) :=
        ((hb.dequeued_perm hi hidle).symm.map _).append_right _

end Rest

/-- **What the ring guarantees to its callers**, in every state of every run. -/
structure Delivers (s : Threads T α) (l : Ledger α) : Prop where
  /-- a payload is written into an empty slot -/
  noOverwrite : ∀ t req p, s.pc t = .enqWrite req p → (s.ring.cell p).slot = none
  /-- a payload is read from a slot that holds one -/
  noEmptyRead : ∀ t p, s.pc t = .deqRead p → (s.ring.cell p).slot ≠ none
  defined : ∀ t, s.pc t ≠ .undefined
  /-- one thread at most is between the claim and the stamp of a slot -/
  exclusive : ∀ t u p q, holds (s.pc t) = some p → holds (s.pc u) = some q →
    p &&& s.ring.mask = q &&& s.ring.mask → t = u
  /-- every position up to the counter is claimed by one producer -/
  producers : l.claimed.map Prod.fst = List.range s.ring.enqueuePos
  /-- a position is claimed by one consumer at most, and after its producer -/
  consumers : l.taken = List.range s.ring.dequeuePos ∧ s.ring.dequeuePos ≤ s.ring.enqueuePos
  /-- a consumer gets the request that the producer of its position wrote -/
  carried : ∀ t req p, s.pc t = .deqFree req p → (p, req) ∈ l.claimed
  answered : ∀ x ∈ l.dequeued, x ∈ l.enqueued
  once : l.enqueued.Nodup ∧ l.dequeued.Nodup
  /-- when all calls have finished, `drop` releases what was not dequeued -/
  finished : (∀ t, s.pc t = .idle) → ∃ left : List α,
    s.ring.drop = left.map some ∧
    (l.enqueued.map Prod.snd).Perm (l.dequeued.map Prod.snd ++ left) ∧
    ∀ i < s.ring.capacity, (s.ring.buffer i).slot ≠ none ↔
      ∃! p, (s.ring.dequeuePos ≤ p ∧ p < s.ring.enqueuePos) ∧ p &&& s.ring.mask = i

theorem delivers {s : Threads T α} {l : Ledger α} (hi : Inv s) (hb : Books s l) : Delivers s l where
  noOverwrite t req p hpc := by
    have hok := hi.threads t
    rw [hpc] at hok
    rw [hok.2]
  noEmptyRead t p hpc := by
    have hok := hi.threads t
    rw [hpc] at hok
    obtain ⟨-, req, hc⟩ := hok
    rw [hc]
    exact Option.some_ne_none req
  defined t hpc := by
    have hok := hi.threads t
    rwa [hpc] at hok
  exclusive t u p q ht hu h := by
    rw [hi.shape.index, hi.shape.index] at h
    exact hi.exclusive ht hu h
  producers := hb.claimed
  consumers := ⟨hb.taken, hi.le⟩
  carried t req p hpc := hb.carries p req (Or.inl ⟨t, by rw [hpc]; rfl⟩)
  answered x hx := by
    obtain ⟨hc, hlt, -⟩ := (hb.dequeued x).mp hx
    refine (hb.enqueued x).mpr ⟨hc, fun t ht => ?_⟩
    have := hi.ahead t x.1 ht
    omega
  once := ⟨hb.enqueuedOnce, hb.dequeuedOnce⟩
  finished hidle := by
    refine ⟨rest s l, hb.drop_of_idle hi hidle, hb.perm_of_idle hi hidle, fun i hlt => ?_⟩
    have hcell : s.ring.buffer i = s.ring.cell i := by
      unfold RingBuffer.cell
      rw [hi.shape.index, Nat.mod_eq_of_lt hlt]
    simp only [hi.shape.index]
    rw [hcell]
    constructor
    · intro hslot
      obtain ⟨p, hmod, hp⟩ := slot_of_idle hi hidle hslot
      rw [Nat.mod_eq_of_lt hlt] at hmod
      refine ⟨p, ⟨hp, hmod⟩, fun q hq => ?_⟩
      exact queued_inj hi hidle hq.1 hp (hq.2.trans hmod.symm)
    · rintro ⟨p, ⟨hp, hmod⟩, -⟩
      obtain ⟨req, hc⟩ := published_of_idle hi hidle hp.1 hp.2
      rw [hi.shape.cell_congr (q := p) (by rw [hmod, Nat.mod_eq_of_lt hlt]), hc]
      exact Option.some_ne_none req

/-- **The ring neither loses, duplicates nor corrupts**: any threads, every interleaving of their
accesses, every capacity of at least two. -/
theorem ring_delivers [DecidableEq T] {s : Threads T α} {h : List (T × Event α)} {capacity : ℕ}
    (hc : 2 ≤ capacity) (hr : Run (system T α capacity) anyStep s h) : Delivers s (ledger h) :=
  let ⟨hi, hb⟩ := run_inv hc hr
  delivers hi hb

/-- Two producers race for position 0; the loser's next compare-and-swap fails spuriously, then it claims
position 1. The winner's thread dequeues its own request. -/
def schedule : List (Machine.Action Bool ℕ) :=
  [.tryEnqueue false 7, .tryEnqueue true 8, .run false false, .run true false, .run false false,
    .run true false, .run true false, .run false false, .run false false, .run false true,
    .run false false, .run false false, .run true false, .run false false, .run true false,
    .run false false, .tryDequeue true, .run true false, .run true false, .run true false,
    .run true false, .run true false]

theorem ring_delivers_race : ∃ (s : Threads Bool ℕ) (h : List (Bool × Event ℕ)),
    (∀ t, s.pc t = .idle) ∧ (ledger h).enqueued = [(0, 8), (1, 7)] ∧
    (ledger h).dequeued = [(0, 8)] ∧ s.ring.drop = [some 7] ∧ Delivers s (ledger h) := by
  obtain ⟨s, h, hr, hp⟩ := exists_run_of_exec (system Bool ℕ 2) anyStep (fun _ _ _ => true)
    (fun _ _ _ _ => trivial) { ring := RingBuffer.new 2, pc := fun _ => .idle } schedule
    (fun x => decide ((∀ t, x.1.pc t = .idle) ∧ (ledger x.2).enqueued = [(0, 8), (1, 7)] ∧
      (ledger x.2).dequeued = [(0, 8)] ∧ x.1.ring.drop = [some 7])) rfl (by decide)
  obtain ⟨h1, h2, h3, h4⟩ := of_decide_eq_true hp
  exact ⟨s, h, h1, h2, h3, h4, ring_delivers le_rfl hr⟩

end FluxThroughput.Ring.Delivery
