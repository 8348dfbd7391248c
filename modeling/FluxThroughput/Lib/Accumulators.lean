import Mathlib

/-! # Accumulators

A family of cells, each with a commutative and associative operation: a cell combines the values sent to
it, one at a time. What it holds in the end does not depend on the order. When several threads send, it
is enough to know what each of them has sent (`own`). -/

namespace FluxThroughput.Lib.Accumulators

/-- Cells indexed by `ι`, each with its operation. -/
structure Cells (ι β : Type*) where
  op : ι → β → β → β
  comm : ∀ i a b, op i a b = op i b a
  assoc : ∀ i a b c, op i (op i a b) c = op i a (op i b c)

variable {ι β T γ δ : Type*}

/-! ### Cells -/

section Sending
variable [DecidableEq ι] (A : Cells ι β) (m : ι → β)

/-- A value is sent to a cell. -/
def Cells.add (x : ι × β) : ι → β := Function.update m x.1 (A.op x.1 (m x.1) x.2)

def Cells.addAll (l : List (ι × β)) : ι → β := l.foldl A.add m

theorem Cells.add_self (i : ι) (b : β) : A.add m (i, b) i = A.op i (m i) b :=
  Function.update_self ..

theorem Cells.add_of_ne {i j : ι} (hne : j ≠ i) (b : β) : A.add m (i, b) j = m j :=
  Function.update_of_ne hne _ _

theorem Cells.add_right_comm (x y : ι × β) : A.add (A.add m x) y = A.add (A.add m y) x := by
  obtain ⟨i, a⟩ := x
  obtain ⟨j, b⟩ := y
  by_cases hij : i = j
  · subst hij
    unfold Cells.add
    simp only [Function.update_self, Function.update_idem]
    rw [A.assoc, A.comm i a b, ← A.assoc]
  · unfold Cells.add
    dsimp only
    rw [Function.update_of_ne (Ne.symm hij), Function.update_of_ne hij, Function.update_comm hij]

theorem Cells.addAll_concat (l : List (ι × β)) (x : ι × β) :
    A.addAll m (l ++ [x]) = A.add (A.addAll m l) x := List.foldl_concat ..

/-- **The order of what is sent does not matter.** -/
theorem Cells.addAll_perm {l l' : List (ι × β)} (h : l.Perm l') :
    A.addAll m l = A.addAll m l' :=
  h.foldl_eq' (fun x _ y _ m => A.add_right_comm m x y) m

end Sending

/-! ### Threads -/

section Threads
variable [DecidableEq T]

/-- What a thread has sent. -/
def own (t : T) (l : List (T × γ)) : List γ := (l.filter fun x => x.1 = t).map Prod.snd

theorem own_append (t : T) (l l' : List (T × γ)) : own t (l ++ l') = own t l ++ own t l' := by
  unfold own
  rw [List.filter_append, List.map_append]

theorem own_self (t : T) (l : List γ) : own t (l.map (t, ·)) = l := by
  unfold own
  rw [List.filter_eq_self.mpr, List.map_map]
  · exact List.map_id l
  · intro x hx
    obtain ⟨y, -, rfl⟩ := List.mem_map.mp hx
    exact decide_eq_true rfl

theorem own_of_ne {t u : T} (hne : u ≠ t) (l : List γ) : own t (l.map (u, ·)) = [] := by
  unfold own
  rw [List.filter_eq_nil_iff.mpr, List.map_nil]
  intro x hx
  obtain ⟨y, -, rfl⟩ := List.mem_map.mp hx
  exact fun h => hne (of_decide_eq_true h)

/-- A sum over all threads, thread by thread. -/
theorem sum_own (w : γ → ℕ) (l : List (T × γ)) {S : Finset T} (hS : ∀ x ∈ l, x.1 ∈ S) :
    (l.map fun x => w x.2).sum = ∑ t ∈ S, ((own t l).map w).sum := by
  induction l with
  | nil => simp [own]
  | cons x l ih =>
    obtain ⟨u, y⟩ := x
    have hown : ∀ t, ((own t ((u, y) :: l)).map w).sum =
        (if t = u then w y else 0) + ((own t l).map w).sum := by
      intro t
      unfold own
      by_cases hut : u = t
      · simp [hut]
      · simp [hut, Ne.symm hut]
    rw [List.map_cons, List.sum_cons, ih fun x hx => hS x (List.mem_cons_of_mem _ hx)]
    simp only [hown, Finset.sum_add_distrib, Finset.sum_ite_eq']
    rw [if_pos (hS _ List.mem_cons_self)]

/-- A thread that does not occur has sent nothing. -/
theorem own_eq_nil {t : T} {l : List (T × γ)} (ht : ∀ x ∈ l, x.1 ≠ t) : own t l = [] := by
  unfold own
  rw [List.filter_eq_nil_iff.mpr fun x hx h => ht x hx (of_decide_eq_true h), List.map_nil]

/-- **What holds for each thread holds for all of them together.** -/
theorem sum_le_of_own (w : γ → ℕ) (w' : δ → ℕ) {l : List (T × γ)} {l' : List (T × δ)}
    (h : ∀ t, ((own t l).map w).sum ≤ ((own t l').map w').sum) :
    (l.map fun x => w x.2).sum ≤ (l'.map fun x => w' x.2).sum := by
  let S := (l.map Prod.fst ++ l'.map Prod.fst).toFinset
  have hS : ∀ x ∈ l, x.1 ∈ S := fun x hx =>
    List.mem_toFinset.mpr (List.mem_append_left _ (List.mem_map_of_mem hx))
  have hS' : ∀ x ∈ l', x.1 ∈ S := fun x hx =>
    List.mem_toFinset.mpr (List.mem_append_right _ (List.mem_map_of_mem hx))
  rw [sum_own w l hS, sum_own w' l' hS']
  exact Finset.sum_le_sum fun t _ => h t

theorem perm_of_own {l l' : List (T × γ)} (h : ∀ t, own t l = own t l') : l.Perm l' := by
  classical
  have hcount : ∀ (l : List (T × γ)) t y, l.count (t, y) = (own t l).count y := by
    intro l t y
    induction l with
    | nil => rfl
    | cons x l ih =>
      obtain ⟨u, z⟩ := x
      unfold own at ih ⊢
      by_cases hut : u = t
      · simp [hut, ih, List.count_cons]
      · simp [hut, ih]
  rw [List.perm_iff_count]
  rintro ⟨t, y⟩
  rw [hcount, hcount, h t]

end Threads

end FluxThroughput.Lib.Accumulators
