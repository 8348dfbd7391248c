import FluxThroughput.Lib.LastWriteWins

/-! # Overwriting without a guard

A map that takes every value that is put in, whatever it holds. It is the guarded map of
`Lib.LastWriteWins` as long as the versions of each key never decrease. Given batches that each carry one
version of a key, it agrees with the guarded map after every batch only then (`overwrite_agrees_iff`). -/

namespace FluxThroughput.Lib.LastWriteWins

variable {σ κ ν : Type*} [DecidableEq κ] [LinearOrder ν]

/-- Put one value in, whatever is there. -/
def overwrite (V : Versioned σ κ ν) (m : κ → Option σ) (x : σ) : κ → Option σ :=
  Function.update m (V.key x) (some x)

/-- The versions of a key, in the order in which they are put in. -/
def versionsOf (V : Versioned σ κ ν) (xs : List σ) (k : κ) : List ν :=
  (xs.filter fun x => V.key x = k).map V.version

/-- **The versions of each key never decrease.** -/
def InOrder (V : Versioned σ κ ν) (xs : List σ) : Prop := ∀ k, (versionsOf V xs k).Pairwise (· ≤ ·)

/-- A batch carries one version of each of its keys. -/
def OneVersion (V : Versioned σ κ ν) (b : List σ) : Prop :=
  ∀ x ∈ b, ∀ y ∈ b, V.key x = V.key y → V.version x = V.version y

variable {V : Versioned σ κ ν} {m : κ → Option σ} {xs ys b : List σ} {x : σ} {k : κ}

omit [LinearOrder ν] in
theorem mem_versionsOf {v : ν} : v ∈ versionsOf V xs k ↔ ∃ x ∈ xs, V.key x = k ∧ V.version x = v := by
  unfold versionsOf
  simp only [List.mem_map, List.mem_filter, decide_eq_true_eq, and_assoc]

omit [LinearOrder ν] in
theorem versionsOf_append : versionsOf V (xs ++ ys) k = versionsOf V xs k ++ versionsOf V ys k := by
  unfold versionsOf
  rw [List.filter_append, List.map_append]

theorem InOrder.left (h : InOrder V (xs ++ ys)) : InOrder V xs := fun k => by
  have hk := h k
  rw [versionsOf_append] at hk
  exact (List.pairwise_append.mp hk).1

/-- In order, values stay in order before one that is at least as new as all of its key. -/
theorem inOrder_append (hxs : InOrder V xs) (hys : InOrder V ys)
    (h : ∀ x ∈ xs, ∀ y ∈ ys, V.key x = V.key y → V.version x ≤ V.version y) : InOrder V (xs ++ ys) := by
  intro k
  rw [versionsOf_append]
  refine List.pairwise_append.mpr ⟨hxs k, hys k, fun v hv w hw => ?_⟩
  obtain ⟨x, hx, hkx, rfl⟩ := mem_versionsOf.mp hv
  obtain ⟨y, hy, hky, rfl⟩ := mem_versionsOf.mp hw
  exact h x hx y hy (hkx.trans hky.symm)

theorem InOrder.le_last (h : InOrder V (xs ++ [x])) {y : σ} (hy : y ∈ xs) (hk : V.key y = V.key x) :
    V.version y ≤ V.version x := by
  have hpair := h (V.key x)
  rw [versionsOf_append] at hpair
  exact (List.pairwise_append.mp hpair).2.2 _ (mem_versionsOf.mpr ⟨y, hy, hk, rfl⟩) _
    (mem_versionsOf.mpr ⟨x, List.mem_singleton_self x, rfl, rfl⟩)

theorem OneVersion.inOrder (h : OneVersion V b) : InOrder V b := by
  intro k
  refine List.pairwise_of_forall_mem_list fun v hv w hw => ?_
  obtain ⟨x, hx, hkx, rfl⟩ := mem_versionsOf.mp hv
  obtain ⟨y, hy, hky, rfl⟩ := mem_versionsOf.mp hw
  exact (h x hx y hy (hkx.trans hky.symm)).le

theorem newest_foldl (V : Versioned σ κ ν) (xs : List σ) :
    Newest V (xs.foldl (put V) fun _ => none) {x | x ∈ xs} := by
  rw [← Set.empty_union {x | x ∈ xs}]
  exact Newest.empty.foldl_put

omit [LinearOrder ν] in
/-- What a key holds in the end was put in for it last. -/
theorem foldl_overwrite_apply (hx : x ∈ xs) :
    ∃ y ∈ xs, V.key y = V.key x ∧ xs.foldl (overwrite V) m (V.key x) = some y := by
  induction xs using List.reverseRecOn with
  | nil => cases hx
  | append_singleton xs z ih =>
    rw [List.foldl_concat]
    by_cases hz : V.key x = V.key z
    · refine ⟨z, List.mem_append_right _ (List.mem_singleton_self z), hz.symm, ?_⟩
      rw [overwrite, hz, Function.update_self]
    · rcases List.mem_append.mp hx with hx | hx
      · obtain ⟨y, hy, hk, hval⟩ := ih hx
        refine ⟨y, List.mem_append_left _ hy, hk, ?_⟩
        rw [overwrite, Function.update_of_ne hz, hval]
      · rw [List.mem_singleton.mp hx] at hz
        exact absurd rfl hz

/-- **In order, no guard is needed.** -/
theorem foldl_overwrite_eq (h : InOrder V xs) :
    xs.foldl (overwrite V) (fun _ => none) = xs.foldl (put V) (fun _ => none) := by
  induction xs using List.reverseRecOn with
  | nil => rfl
  | append_singleton xs x ih =>
    rw [List.foldl_concat, List.foldl_concat, ih h.left]
    refine (put_of_not_stale fun cur hcur => ?_).symm
    obtain ⟨hmem, hk⟩ := (newest_foldl V xs).mem _ cur hcur
    exact h.le_last hmem hk

/-- A batch after which the two maps agree brings no older version than was there. -/
theorem le_of_agrees {ys : List σ} (hone : OneVersion V b)
    (hagree : (ys ++ b).foldl (overwrite V) (fun _ => none) = (ys ++ b).foldl (put V) (fun _ => none))
    {y : σ} (hy : y ∈ ys) (hx : x ∈ b) (hk : V.key y = V.key x) : V.version y ≤ V.version x := by
  obtain ⟨z, hz, hkz, hval⟩ := foldl_overwrite_apply (V := V)
    (m := ys.foldl (overwrite V) fun _ => none) hx
  rw [List.foldl_append] at hagree
  rw [hagree] at hval
  have hnewest := (newest_foldl V (ys ++ b)).newest _ z hval y (List.mem_append_left _ hy) hk
  exact hnewest.trans_eq (hone z hz x hx hkz)

/-- **Agreement after every batch is order.** -/
theorem overwrite_agrees_iff {bs : List (List σ)} (hone : ∀ b ∈ bs, OneVersion V b) :
    (∀ cs, cs <+: bs → cs.flatten.foldl (overwrite V) (fun _ => none) =
      cs.flatten.foldl (put V) (fun _ => none)) ↔ InOrder V bs.flatten := by
  constructor
  · intro hagree
    induction bs using List.reverseRecOn with
    | nil => exact fun k => List.Pairwise.nil
    | append_singleton bs b ih =>
      have hb := hone b (List.mem_append_right _ (List.mem_singleton_self b))
      have hall := hagree _ (List.prefix_refl _)
      rw [List.flatten_concat] at hall ⊢
      exact inOrder_append
        (ih (fun c hc => hone c (List.mem_append_left _ hc))
          fun cs hcs => hagree cs (hcs.trans (List.prefix_append bs [b])))
        hb.inOrder fun y hy x hx hk => le_of_agrees hb hall hy hx hk
  · rintro hord cs ⟨ds, rfl⟩
    rw [List.flatten_append] at hord
    exact foldl_overwrite_eq hord.left

end FluxThroughput.Lib.LastWriteWins
