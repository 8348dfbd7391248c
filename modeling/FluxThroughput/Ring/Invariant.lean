import FluxThroughput.Ring.Machine

/-! # The stamp invariant

Every cell has a current position `p`: the position its stamp expects (`p`, not published) or has
published (`p + 1`). With at least two cells, the stamp and the cell's index determine `p`. The cell is
free, or some thread holds the position (it is between the claim of `p` and the store of a stamp), or
the cell is published and unread. `Inv` says so of all cells, both counters and all program counters,
and every access keeps it (`Inv.access`). -/

namespace FluxThroughput.Ring.Invariant

open FluxThroughput.Lib.Pow2 FluxThroughput.Lib.Transition FluxThroughput.Ring.Machine

variable {α T : Type*}

/-! ### Cells and positions -/

/-- A power of two of at least two cells, masked accordingly. -/
structure Shape (r : RingBuffer α) : Prop where
  mask : r.mask = r.capacity - 1
  pow : ∃ k, r.capacity = 2 ^ k
  two_le : 2 ≤ r.capacity

theorem Shape.new {capacity : ℕ} (h : 2 ≤ capacity) : Shape (RingBuffer.new capacity : RingBuffer α) where
  mask := rfl
  pow := exists_nextPowerOfTwo _
  two_le := h.trans ((le_max_left _ _).trans (le_nextPowerOfTwo _))

namespace Shape

variable {r : RingBuffer α} {p q : ℕ} {c : Cell α}

theorem index (hs : Shape r) (p : ℕ) : p &&& r.mask = p % r.capacity := by
  rw [hs.mask]; exact and_mask_eq_mod hs.pow p

theorem cell_congr (hs : Shape r) (h : p % r.capacity = q % r.capacity) : r.cell p = r.cell q := by
  unfold RingBuffer.cell
  rw [hs.index, hs.index, h]

theorem cell_setCell (hs : Shape r) (h : q % r.capacity = p % r.capacity) :
    (r.setCell p c).cell q = c := by
  unfold RingBuffer.cell RingBuffer.setCell
  dsimp only
  rw [hs.index, hs.index, h, Function.update_self]

theorem cell_setCell_ne (hs : Shape r) (h : q % r.capacity ≠ p % r.capacity) :
    (r.setCell p c).cell q = r.cell q := by
  unfold RingBuffer.cell RingBuffer.setCell
  dsimp only
  rw [hs.index, hs.index, Function.update_of_ne h]

theorem setCell (hs : Shape r) (p : ℕ) (c : Cell α) : Shape (r.setCell p c) :=
  ⟨hs.mask, hs.pow, hs.two_le⟩

/-- Positions that one stamp may belong to, in one cell, are equal. -/
theorem eq_of_stamp (hs : Shape r) (h : p % r.capacity = q % r.capacity) {x : ℕ}
    (hp : x = p ∨ x = p + 1) (hq : x = q ∨ x = q + 1) : p = q := by
  have := hs.two_le
  exact eq_of_mod_eq h (by omega) (by omega)

end Shape

/-! ### The invariant -/

/-- The position that the thread has claimed and not yet stamped. -/
def holds : Pc α → Option ℕ
  | .enqWrite _ p => some p
  | .enqPublish _ p => some p
  | .deqRead p => some p
  | .deqFree _ p => some p
  | _ => none

/-- The position that a producer has claimed and not yet published. -/
def writing : Pc α → Option ℕ
  | .enqWrite _ p => some p
  | .enqPublish _ p => some p
  | _ => none

theorem holds_of_writing {pc : Pc α} {p : ℕ} (h : writing pc = some p) : holds pc = some p := by
  cases pc <;> cases h <;> rfl

/-- What a thread knows of the cell it is at. -/
def ThreadOk (r : RingBuffer α) : Pc α → Prop
  | .enqCas _ p => p ≤ (r.cell p).sequence
  | .enqWrite _ p => p < r.enqueuePos ∧ r.cell p = ⟨p, none⟩
  | .enqPublish req p => p < r.enqueuePos ∧ r.cell p = ⟨p, some req⟩
  | .deqCas p => p + 1 ≤ (r.cell p).sequence
  | .deqRead p => p < r.dequeuePos ∧ ∃ req, r.cell p = ⟨p + 1, some req⟩
  | .deqFree _ p => p < r.dequeuePos ∧ r.cell p = ⟨p + 1, none⟩
  | .undefined => False
  | _ => True

/-- The three states of a cell at its current position `p`: free, held, published. -/
def CellOk (s : Threads T α) (p : ℕ) : Prop :=
  (s.ring.enqueuePos ≤ p ∧ s.ring.cell p = ⟨p, none⟩) ∨
  (∃ t, holds (s.pc t) = some p) ∨
  (s.ring.dequeuePos ≤ p ∧ p < s.ring.enqueuePos ∧ ∃ req, s.ring.cell p = ⟨p + 1, some req⟩)

/-- **The stamp invariant.** -/
structure Inv (s : Threads T α) : Prop where
  shape : Shape s.ring
  le : s.ring.dequeuePos ≤ s.ring.enqueuePos
  threads : ∀ t, ThreadOk s.ring (s.pc t)
  unique : ∀ t u p, holds (s.pc t) = some p → holds (s.pc u) = some p → t = u
  ahead : ∀ t p, writing (s.pc t) = some p → s.ring.dequeuePos ≤ p
  cells : ∀ q, ∃ p, p % s.ring.capacity = q % s.ring.capacity ∧
    s.ring.enqueuePos ≤ p + s.ring.capacity ∧ p < s.ring.dequeuePos + s.ring.capacity ∧ CellOk s p

theorem Inv.new {capacity : ℕ} (h : 2 ≤ capacity) :
    Inv ({ ring := RingBuffer.new capacity, pc := fun _ => .idle } : Threads T α) where
  shape := Shape.new h
  le := le_rfl
  threads _ := trivial
  unique t u p ht := by cases ht
  ahead t p ht := by cases ht
  cells q := by
    have hs : Shape (RingBuffer.new capacity : RingBuffer α) := Shape.new h
    have hlt := Nat.mod_lt q (show 0 < (RingBuffer.new capacity : RingBuffer α).capacity by
      have := hs.two_le; omega)
    refine ⟨q % (RingBuffer.new capacity : RingBuffer α).capacity, Nat.mod_mod _ _, Nat.zero_le _,
      by simpa [RingBuffer.new] using hlt, Or.inl ⟨Nat.zero_le _, ?_⟩⟩
    unfold RingBuffer.cell
    rw [hs.index, Nat.mod_mod]
    rfl

section Stamps
variable {r : RingBuffer α} {s : Threads T α} {pc : Pc α} {p q : ℕ}

/-- A held position shows in the stamp of its cell. -/
theorem stamp_of_holds (hok : ThreadOk r pc) (hp : holds pc = some p) :
    (r.cell p).sequence = p ∨ (r.cell p).sequence = p + 1 := by
  cases pc <;> cases hp
  · exact Or.inl (by rw [hok.2])
  · exact Or.inl (by rw [hok.2])
  · obtain ⟨-, req, hc⟩ := hok
    exact Or.inr (by rw [hc])
  · exact Or.inr (by rw [hok.2])

theorem Inv.stamp (hi : Inv s) (hc : CellOk s p) :
    (s.ring.cell p).sequence = p ∨ (s.ring.cell p).sequence = p + 1 := by
  rcases hc with ⟨-, hc⟩ | ⟨t, ht⟩ | ⟨-, -, req, hc⟩
  · exact Or.inl (by rw [hc])
  · exact stamp_of_holds (hi.threads t) ht
  · exact Or.inr (by rw [hc])

/-- The producers are at most a lap ahead. -/
theorem enq_le (hi : Inv s) : s.ring.enqueuePos ≤ s.ring.dequeuePos + s.ring.capacity := by
  obtain ⟨p, hmod, h1, h2, -⟩ := hi.cells s.ring.dequeuePos
  have hp : p ≤ s.ring.dequeuePos := by
    by_contra hlt
    have := eq_of_mod_eq hmod (by omega) (by omega)
    omega
  omega

/-- **A cell has one current position.** -/
theorem Inv.pos_eq (hi : Inv s) (h : p % s.ring.capacity = q % s.ring.capacity) (hp : CellOk s p)
    (hq : CellOk s q) : p = q := by
  refine hi.shape.eq_of_stamp h (hi.stamp hp) ?_
  rw [hi.shape.cell_congr h]
  exact hi.stamp hq

/-- **Exclusion**: threads that hold positions of one cell are one thread. -/
theorem Inv.exclusive (hi : Inv s) {t u : T} (ht : holds (s.pc t) = some p)
    (hu : holds (s.pc u) = some q) (h : p % s.ring.capacity = q % s.ring.capacity) : t = u := by
  obtain rfl := hi.pos_eq h (Or.inr (Or.inl ⟨t, ht⟩)) (Or.inr (Or.inl ⟨u, hu⟩))
  exact hi.unique t u p ht hu

end Stamps

/-! ### Steps -/

section Steps
variable [DecidableEq T] {s : Threads T α} {t : T} {pc' : Pc α} {p : ℕ} {req : α}

theorem holds_update {q : ℕ} {u : T} (hu : u ≠ t) :
    holds (Function.update s.pc t pc' u) = some q ↔ holds (s.pc u) = some q := by
  rw [Function.update_of_ne hu]

/-- A thread that holds nothing moves on, and the buffer stays. -/
theorem Inv.relabel (hi : Inv s) (h0 : holds (s.pc t) = none) (h1 : holds pc' = none)
    (hok : ThreadOk s.ring pc') : Inv { s with pc := Function.update s.pc t pc' } := by
  have hup : ∀ u q, holds (Function.update s.pc t pc' u) = some q ↔ holds (s.pc u) = some q := by
    intro u q
    by_cases hu : u = t
    · subst hu; simp [h0, h1]
    · exact holds_update hu
  refine ⟨hi.shape, hi.le, fun u => ?_, fun u v q hu hv => ?_, fun u q hu => ?_, fun q => ?_⟩
  · by_cases hu : u = t
    · subst hu; simpa using hok
    · simpa [Function.update_of_ne hu] using hi.threads u
  · exact hi.unique u v q ((hup u q).mp hu) ((hup v q).mp hv)
  · by_cases hut : u = t
    · subst hut
      have := holds_of_writing hu
      simp [h1] at this
    · simp only [Function.update_of_ne hut] at hu
      exact hi.ahead u q hu
  · obtain ⟨p, h1, h2, h3, hc⟩ := hi.cells q
    exact ⟨p, h1, h2, h3, hc.imp_right fun hc => hc.imp_left fun ⟨u, hu⟩ => ⟨u, (hup u p).mpr hu⟩⟩

omit [DecidableEq T] in
/-- No thread holds the position at a counter. -/
theorem Inv.not_holds (hi : Inv s) (hp : s.ring.enqueuePos ≤ p) (u : T) :
    holds (s.pc u) ≠ some p := by
  intro hu
  have hok := hi.threads u
  have hle := hi.le
  rcases hu' : s.pc u <;> rw [hu'] at hu hok <;> cases hu
  · exact absurd hok.1 (by omega)
  · exact absurd hok.1 (by omega)
  · exact absurd hok.1 (by omega)
  · exact absurd hok.1 (by omega)

omit [DecidableEq T] in
/-- The cell that a producer may claim is free. -/
theorem Inv.cell_of_enqCas (hi : Inv s) (hpc : s.pc t = .enqCas req p)
    (heq : s.ring.enqueuePos = p) : s.ring.cell p = ⟨p, none⟩ := by
  have hseq : p ≤ (s.ring.cell p).sequence := by
    have h := hi.threads t; rw [hpc] at h; exact h
  have h2 := hi.shape.two_le
  obtain ⟨q, hmod, hq1, hq2, hc⟩ := hi.cells p
  have hst := hi.stamp hc
  rw [hi.shape.cell_congr hmod] at hst
  have hqp : q = p := by
    have := hi.le
    exact eq_of_mod_eq hmod (by omega) (by omega)
  subst hqp
  rcases hc with ⟨-, hc⟩ | ⟨u, hu⟩ | ⟨-, hlt, -⟩
  · exact hc
  · exact absurd hu (hi.not_holds heq.le u)
  · omega

omit [DecidableEq T] in
/-- The cell that a consumer may claim is published and unread. -/
theorem Inv.cell_of_deqCas (hi : Inv s) (hpc : s.pc t = .deqCas p)
    (heq : s.ring.dequeuePos = p) :
    p < s.ring.enqueuePos ∧ ∃ req, s.ring.cell p = ⟨p + 1, some req⟩ := by
  have hseq : p + 1 ≤ (s.ring.cell p).sequence := by
    have h := hi.threads t; rw [hpc] at h; exact h
  have h2 := hi.shape.two_le
  obtain ⟨q, hmod, hq1, hq2, hc⟩ := hi.cells p
  have hst := hi.stamp hc
  rw [hi.shape.cell_congr hmod] at hst
  have hqp : q = p := eq_of_mod_eq hmod (by omega) (by omega)
  subst hqp
  rcases hc with ⟨-, hc⟩ | ⟨u, hu⟩ | ⟨-, hlt, hc⟩
  · simp only [hc] at hseq; omega
  · have hok := hi.threads u
    rcases hu' : s.pc u <;> rw [hu'] at hu hok <;> cases hu
    · simp only [hok.2] at hseq; omega
    · simp only [hok.2] at hseq; omega
    · exact absurd hok.1 (by omega)
    · exact absurd hok.1 (by omega)
  · exact ⟨hlt, hc⟩

/-- What other threads know survives a change of one cell that a thread holds, as stamps grow. -/
theorem ThreadOk.frame {r r' : RingBuffer α} {pc : Pc α} (hok : ThreadOk r pc)
    (henq : r.enqueuePos ≤ r'.enqueuePos) (hdeq : r.dequeuePos ≤ r'.dequeuePos)
    (hmono : ∀ q, (r.cell q).sequence ≤ (r'.cell q).sequence)
    (hframe : ∀ q, holds pc = some q → r'.cell q = r.cell q) : ThreadOk r' pc := by
  cases pc with
  | enqCas _ q => exact le_trans hok (hmono q)
  | deqCas q => exact le_trans hok (hmono q)
  | enqWrite _ q | enqPublish _ q =>
    exact ⟨hok.1.trans_le henq, (hframe q rfl).trans hok.2⟩
  | deqRead q =>
    obtain ⟨h1, req, h2⟩ := hok
    exact ⟨h1.trans_le hdeq, req, (hframe q rfl).trans h2⟩
  | deqFree _ q => exact ⟨hok.1.trans_le hdeq, (hframe q rfl).trans hok.2⟩
  | undefined => exact hok
  | _ => trivial

/-- **Claiming a position to write.** -/
theorem Inv.claimEnqueue (hi : Inv s) (hpc : s.pc t = .enqCas req p)
    (heq : s.ring.enqueuePos = p) :
    Inv { ring := { s.ring with enqueuePos := p + 1 }
          pc := Function.update s.pc t (.enqWrite req p) } := by
  have hcell := hi.cell_of_enqCas hpc heq
  have hcellOk : CellOk s p := Or.inl ⟨heq.le, hcell⟩
  have hnone : holds (s.pc t) = none := by rw [hpc]; rfl
  refine ⟨⟨hi.shape.mask, hi.shape.pow, hi.shape.two_le⟩, hi.le.trans (by simp [heq]),
    fun u => ?_, fun u v q hu hv => ?_, fun u q hu => ?_, fun q => ?_⟩
  · by_cases hu : u = t
    · subst hu
      simp only [Function.update_self]
      exact ⟨Nat.lt_succ_self p, hcell⟩
    · simp only [Function.update_of_ne hu]
      exact (hi.threads u).frame (by simp [heq]) le_rfl (fun _ => le_rfl) fun _ _ => rfl
  · by_cases hut : u = t <;> by_cases hvt : v = t
    · rw [hut, hvt]
    · subst hut
      simp only [Function.update_self] at hu
      cases hu
      exact absurd ((holds_update hvt).mp hv) (hi.not_holds heq.le v)
    · subst hvt
      simp only [Function.update_self] at hv
      cases hv
      exact absurd ((holds_update hut).mp hu) (hi.not_holds heq.le u)
    · exact hi.unique u v q ((holds_update hut).mp hu) ((holds_update hvt).mp hv)
  · by_cases hut : u = t
    · subst hut
      simp only [Function.update_self] at hu
      cases hu
      exact hi.le.trans heq.le
    · simp only [Function.update_of_ne hut] at hu
      exact hi.ahead u q hu
  · obtain ⟨p', h1, h2, h3, hc⟩ := hi.cells q
    refine ⟨p', h1, ?_, h3, ?_⟩
    · have hne : s.ring.enqueuePos ≠ p' + s.ring.capacity := by
        intro h
        have hmod : p' % s.ring.capacity = p % s.ring.capacity := by
          rw [← heq, h, Nat.add_mod_right]
        have := hi.pos_eq hmod hc hcellOk
        have := hi.shape.two_le
        omega
      change p + 1 ≤ p' + s.ring.capacity
      omega
    · by_cases hpp : p' = p
      · rw [hpp]
        exact Or.inr (Or.inl ⟨t, by simp only [Function.update_self]; rfl⟩)
      · rcases hc with ⟨hle, hc⟩ | ⟨u, hu⟩ | ⟨hd, hlt, hc⟩
        · refine Or.inl ⟨?_, hc⟩
          change p + 1 ≤ p'
          omega
        · have hut : u ≠ t := by rintro rfl; rw [hnone] at hu; cases hu
          exact Or.inr (Or.inl ⟨u, (holds_update hut).mpr hu⟩)
        · refine Or.inr (Or.inr ⟨hd, ?_, hc⟩)
          change p' < p + 1
          omega

/-- **Claiming a position to read.** -/
theorem Inv.claimDequeue (hi : Inv s) (hpc : s.pc t = .deqCas p)
    (heq : s.ring.dequeuePos = p) :
    Inv { ring := { s.ring with dequeuePos := p + 1 }
          pc := Function.update s.pc t (.deqRead p) } := by
  obtain ⟨hlt, hcell⟩ := hi.cell_of_deqCas hpc heq
  have hcellOk : CellOk s p := Or.inr (Or.inr ⟨heq.le, hlt, hcell⟩)
  have hnone : holds (s.pc t) = none := by rw [hpc]; rfl
  have hfree : ∀ u, holds (s.pc u) ≠ some p := by
    intro u hu
    obtain ⟨req, hcell⟩ := hcell
    have hok := hi.threads u
    rcases hu' : s.pc u <;> rw [hu'] at hu hok <;> cases hu
    · rw [hok.2] at hcell; cases hcell
    · have := congrArg Cell.sequence (hok.2.symm.trans hcell)
      simp at this
    · exact absurd hok.1 (by omega)
    · exact absurd hok.1 (by omega)
  refine ⟨⟨hi.shape.mask, hi.shape.pow, hi.shape.two_le⟩, hlt, fun u => ?_, fun u v q hu hv => ?_,
    fun u q hu => ?_, fun q => ?_⟩
  · by_cases hu : u = t
    · subst hu
      simp only [Function.update_self]
      exact ⟨Nat.lt_succ_self p, hcell⟩
    · simp only [Function.update_of_ne hu]
      exact (hi.threads u).frame le_rfl (by simp [heq]) (fun _ => le_rfl) fun _ _ => rfl
  · by_cases hut : u = t <;> by_cases hvt : v = t
    · rw [hut, hvt]
    · subst hut
      simp only [Function.update_self] at hu
      cases hu
      exact absurd ((holds_update hvt).mp hv) (hfree v)
    · subst hvt
      simp only [Function.update_self] at hv
      cases hv
      exact absurd ((holds_update hut).mp hu) (hfree u)
    · exact hi.unique u v q ((holds_update hut).mp hu) ((holds_update hvt).mp hv)
  · by_cases hut : u = t
    · subst hut
      simp only [Function.update_self] at hu
      cases hu
    · simp only [Function.update_of_ne hut] at hu
      have hge := hi.ahead u q hu
      have hne : q ≠ p := fun h => hfree u (h ▸ holds_of_writing hu)
      change p + 1 ≤ q
      omega
  · obtain ⟨p', h1, h2, h3, hc⟩ := hi.cells q
    refine ⟨p', h1, h2, ?_, ?_⟩
    · change p' < p + 1 + s.ring.capacity
      omega
    · by_cases hpp : p' = p
      · rw [hpp]
        exact Or.inr (Or.inl ⟨t, by simp only [Function.update_self]; rfl⟩)
      · rcases hc with hc | ⟨u, hu⟩ | ⟨hd, hlt', hc⟩
        · exact Or.inl hc
        · have hut : u ≠ t := by rintro rfl; rw [hnone] at hu; cases hu
          exact Or.inr (Or.inl ⟨u, (holds_update hut).mpr hu⟩)
        · refine Or.inr (Or.inr ⟨?_, hlt', hc⟩)
          change p + 1 ≤ p'
          omega

/-- **Working on a held cell**: a thread changes the cell of the position it holds, and goes on holding
it or lets go of it. -/
theorem Inv.update (hi : Inv s) (hp : holds (s.pc t) = some p) {c : Cell α}
    (hmono : (s.ring.cell p).sequence ≤ c.sequence) (hheld : holds pc' = none ∨ holds pc' = some p)
    (hok : ThreadOk (s.ring.setCell p c) pc')
    (hahead : ∀ q, writing pc' = some q → s.ring.dequeuePos ≤ q)
    (hcell : ∃ q, q % s.ring.capacity = p % s.ring.capacity ∧
      s.ring.enqueuePos ≤ q + s.ring.capacity ∧ q < s.ring.dequeuePos + s.ring.capacity ∧
      CellOk { ring := s.ring.setCell p c, pc := Function.update s.pc t pc' } q) :
    Inv { ring := s.ring.setCell p c, pc := Function.update s.pc t pc' } := by
  have hother : ∀ u q, u ≠ t → holds (s.pc u) = some q →
      q % s.ring.capacity ≠ p % s.ring.capacity := fun u q hu hq h => hu (hi.exclusive hq hp h)
  refine ⟨hi.shape.setCell p c, hi.le, fun u => ?_, fun u v q hu hv => ?_, fun u q hu => ?_,
    fun q => ?_⟩
  · by_cases hu : u = t
    · subst hu
      simpa using hok
    · simp only [Function.update_of_ne hu]
      refine (hi.threads u).frame le_rfl le_rfl (fun q => ?_) fun q hq =>
        hi.shape.cell_setCell_ne (hother u q hu hq)
      by_cases hq : q % s.ring.capacity = p % s.ring.capacity
      · rw [hi.shape.cell_setCell hq, hi.shape.cell_congr hq]
        exact hmono
      · rw [hi.shape.cell_setCell_ne hq]
  · have hback : ∀ {w}, holds (Function.update s.pc t pc' w) = some q →
        holds (s.pc w) = some q := by
      intro w hw
      by_cases hwt : w = t
      · subst hwt
        rw [Function.update_self] at hw
        rcases hheld with hn | hn <;> rw [hn] at hw
        · cases hw
        · rw [← hw]; exact hp
      · exact (holds_update hwt).mp hw
    exact hi.unique u v q (hback hu) (hback hv)
  · by_cases hut : u = t
    · subst hut
      simp only [Function.update_self] at hu
      exact hahead q hu
    · simp only [Function.update_of_ne hut] at hu
      exact hi.ahead u q hu
  · by_cases hq : q % s.ring.capacity = p % s.ring.capacity
    · obtain ⟨q', h1, h2⟩ := hcell
      exact ⟨q', h1.trans hq.symm, h2⟩
    · obtain ⟨q', h1, h2, h3, hc⟩ := hi.cells q
      have hne : q' % s.ring.capacity ≠ p % s.ring.capacity := fun h => hq (h1.symm.trans h)
      refine ⟨q', h1, h2, h3, ?_⟩
      unfold CellOk
      dsimp only
      rw [hi.shape.cell_setCell_ne hne]
      rcases hc with hc | ⟨u, hu⟩ | hc
      · exact Or.inl hc
      · have hut : u ≠ t := by
          rintro rfl
          exact hne (by rw [Option.some.inj (hu.symm.trans hp)])
        exact Or.inr (Or.inl ⟨u, (holds_update hut).mpr hu⟩)
      · exact Or.inr (Or.inr hc)

/-- **Every access keeps the invariant.** -/
theorem Inv.access (hi : Inv s) {spurious : Bool} {r : RingBuffer α} {es : List (Event α)}
    (hs : (s.pc t).step spurious s.ring = some (r, pc', es)) :
    Inv { ring := r, pc := Function.update s.pc t pc' } := by
  have hok := hi.threads t
  rcases hpc : s.pc t with _ | req | ⟨req, p⟩ | ⟨req, p⟩ | ⟨req, p⟩ | ⟨req, p⟩ | _ | p | p | p |
    ⟨req, p⟩ | _ <;> rw [hpc] at hs hok
  · cases hs
  · cases hs
    exact hi.relabel (by rw [hpc]; rfl) rfl trivial
  · simp only [Pc.step] at hs
    split_ifs at hs with h0 h1 <;> cases hs
    · refine hi.relabel (by rw [hpc]; rfl) rfl ?_
      change p ≤ _
      omega
    · exact hi.relabel (by rw [hpc]; rfl) rfl trivial
    · exact hi.relabel (by rw [hpc]; rfl) rfl trivial
  · simp only [Pc.step] at hs
    split_ifs at hs with h0 <;> cases hs
    · exact hi.claimEnqueue hpc h0.2
    · exact hi.relabel (by rw [hpc]; rfl) rfl trivial
  · cases hs
    have hc : (s.ring.setCell p { s.ring.cell p with slot := some req }).cell p = ⟨p, some req⟩ := by
      rw [hi.shape.cell_setCell rfl, hok.2]
    obtain ⟨q, h1, h2, h3, hcq⟩ := hi.cells p
    obtain rfl := hi.pos_eq h1 hcq (Or.inr (Or.inl ⟨t, by rw [hpc]; rfl⟩))
    exact hi.update (by rw [hpc]; rfl) le_rfl (Or.inr rfl) ⟨hok.1, hc⟩
      (fun _ h => hi.ahead t _ (by rw [hpc]; exact h))
      ⟨q, rfl, h2, h3, Or.inr (Or.inl ⟨t, by simp only [Function.update_self]; rfl⟩)⟩
  · cases hs
    have hc : (s.ring.setCell p { s.ring.cell p with sequence := p + 1 }).cell p =
        ⟨p + 1, some req⟩ := by
      rw [hi.shape.cell_setCell rfl, hok.2]
    obtain ⟨q, h1, h2, h3, hcq⟩ := hi.cells p
    obtain rfl := hi.pos_eq h1 hcq (Or.inr (Or.inl ⟨t, by rw [hpc]; rfl⟩))
    refine hi.update (by rw [hpc]; rfl) (by rw [hok.2]; exact Nat.le_succ q) (Or.inl rfl) trivial
      (fun _ h => by cases h)
      ⟨q, rfl, h2, h3, Or.inr (Or.inr ⟨hi.ahead t q (by rw [hpc]; rfl), hok.1, req, hc⟩)⟩
  · cases hs
    exact hi.relabel (by rw [hpc]; rfl) rfl trivial
  · simp only [Pc.step] at hs
    split_ifs at hs with h0 h1 <;> cases hs
    · refine hi.relabel (by rw [hpc]; rfl) rfl ?_
      change p + 1 ≤ _
      omega
    · exact hi.relabel (by rw [hpc]; rfl) rfl trivial
    · exact hi.relabel (by rw [hpc]; rfl) rfl trivial
  · simp only [Pc.step] at hs
    split_ifs at hs with h0 <;> cases hs
    · exact hi.claimDequeue hpc h0.2
    · exact hi.relabel (by rw [hpc]; rfl) rfl trivial
  · obtain ⟨hlt, req, hcell⟩ := hok
    simp only [Pc.step, hcell] at hs
    cases hs
    have hc : (s.ring.setCell p { s.ring.cell p with slot := none }).cell p = ⟨p + 1, none⟩ := by
      rw [hi.shape.cell_setCell rfl, hcell]
    obtain ⟨q, h1, h2, h3, hcq⟩ := hi.cells p
    obtain rfl := hi.pos_eq h1 hcq (Or.inr (Or.inl ⟨t, by rw [hpc]; rfl⟩))
    rw [hcell] at hc
    exact hi.update (by rw [hpc]; rfl) (by rw [hcell]) (Or.inr rfl) ⟨hlt, hc⟩
      (fun _ h => by cases h) ⟨q, rfl, h2, h3, Or.inr (Or.inl ⟨t, by simp only [Function.update_self]; rfl⟩)⟩
  · cases hs
    have h2 := hi.shape.two_le
    have hle := hi.le
    have hnext : p + s.ring.mask + 1 = p + s.ring.capacity := by rw [hi.shape.mask]; omega
    have hlt : p < s.ring.dequeuePos := hok.1
    obtain ⟨q, h1, h3, h4, hcq⟩ := hi.cells p
    obtain rfl := hi.pos_eq h1 hcq (Or.inr (Or.inl ⟨t, by rw [hpc]; rfl⟩))
    rw [hnext]
    refine hi.update (by rw [hpc]; rfl) (by rw [hok.2]; dsimp only; omega) (Or.inl rfl) trivial
      (fun _ h => by cases h)
      ⟨q + s.ring.capacity, Nat.add_mod_right _ _, by omega, by omega, Or.inl ⟨h3, ?_⟩⟩
    rw [hi.shape.cell_setCell (Nat.add_mod_right _ _), hok.2]
  · cases hs

/-- An access leaves the capacity, and the counters only grow. -/
theorem access_mono {pc : Pc α} {r r' : RingBuffer α} {b : Bool} {es : List (Event α)}
    (hs : pc.step b r = some (r', pc', es)) : r'.capacity = r.capacity ∧
      r.enqueuePos ≤ r'.enqueuePos ∧ r.dequeuePos ≤ r'.dequeuePos := by
  cases pc <;> simp only [Pc.step] at hs
  case enqStamp | deqStamp =>
    split_ifs at hs <;> cases hs <;> exact ⟨rfl, le_rfl, le_rfl⟩
  case enqCas pos =>
    split_ifs at hs with h <;> cases hs
    · exact ⟨rfl, h.2 ▸ Nat.le_succ _, le_rfl⟩
    · exact ⟨rfl, le_rfl, le_rfl⟩
  case deqCas pos =>
    split_ifs at hs with h <;> cases hs
    · exact ⟨rfl, le_rfl, h.2 ▸ Nat.le_succ _⟩
    · exact ⟨rfl, le_rfl, le_rfl⟩
  case deqRead => split at hs <;> cases hs <;> exact ⟨rfl, le_rfl, le_rfl⟩
  case idle | undefined => cases hs
  all_goals
    cases hs
    exact ⟨rfl, le_rfl, le_rfl⟩

/-- **What a step is**: the beginning of a call, or an access. -/
theorem step_cases {s' : Threads T α} {a : Action T α} {es : List (T × Event α)}
    (hs : s.step a = some (s', es)) :
    (∃ t pc', s.pc t = .idle ∧ ((∃ req, pc' = .enqLoad req) ∨ pc' = .deqLoad) ∧
      s' = { s with pc := Function.update s.pc t pc' } ∧ es = []) ∨
    ∃ t b r pc' es', a = .run t b ∧ (s.pc t).step b s.ring = some (r, pc', es') ∧
      s' = { ring := r, pc := Function.update s.pc t pc' } ∧ es = es'.map (t, ·) := by
  cases a with
  | tryEnqueue t req =>
    simp only [Threads.step] at hs
    split at hs <;> cases hs
    rename_i hpc
    exact Or.inl ⟨t, _, hpc, Or.inl ⟨req, rfl⟩, rfl, rfl⟩
  | tryDequeue t =>
    simp only [Threads.step] at hs
    split at hs <;> cases hs
    rename_i hpc
    exact Or.inl ⟨t, _, hpc, Or.inr rfl, rfl, rfl⟩
  | run t b =>
    simp only [Threads.step] at hs
    split at hs <;> cases hs
    rename_i hpc
    exact Or.inr ⟨t, b, _, _, _, rfl, hpc, rfl, rfl⟩

/-- The capacity is fixed. -/
theorem capacity_step {s' : Threads T α} {a : Action T α} {es : List (T × Event α)}
    (hs : s.step a = some (s', es)) : s'.ring.capacity = s.ring.capacity := by
  rcases step_cases hs with ⟨t, pc', -, -, rfl, -⟩ | ⟨t, b, r, pc', es, -, hpc, rfl, -⟩
  · rfl
  · exact (access_mono hpc).1

end Steps

end FluxThroughput.Ring.Invariant
