import Mathlib

/-! # Last write wins

A map that keeps one value for each key, and replaces it by a value that is put in unless its version is
older. What it holds after any values have been put in, in any order and any number of times, is one of
the newest values of each key (`Newest`). Where values of one key and version are equal, this determines
the map (`Newest.unique`), so maps that were given the same values agree. -/

namespace FluxThroughput.Lib.LastWriteWins

variable {σ κ ν : Type*} [DecidableEq κ] [LinearOrder ν]

/-- What a value is a version of, and which. -/
structure Versioned (σ κ ν : Type*) where
  key : σ → κ
  version : σ → ν

/-- Put one value in; a strictly older one changes nothing. -/
def put (V : Versioned σ κ ν) (m : κ → Option σ) (x : σ) : κ → Option σ :=
  match m (V.key x) with
  | some cur => if V.version x < V.version cur then m else Function.update m (V.key x) (some x)
  | none => Function.update m (V.key x) (some x)

/-- **The map holds a newest one of the values given for each key**, and no other key. -/
structure Newest (V : Versioned σ κ ν) (m : κ → Option σ) (given : Set σ) : Prop where
  absent : ∀ k, m k = none ↔ ∀ x ∈ given, V.key x ≠ k
  mem : ∀ k x, m k = some x → x ∈ given ∧ V.key x = k
  newest : ∀ k x, m k = some x → ∀ y ∈ given, V.key y = k → V.version y ≤ V.version x

variable {V : Versioned σ κ ν} {m m' : κ → Option σ} {given : Set σ} {x : σ}

theorem put_of_stale {cur : σ} (hcur : m (V.key x) = some cur) (h : V.version x < V.version cur) :
    put V m x = m := by
  unfold put
  rw [hcur]
  exact if_pos h

theorem put_of_not_stale (h : ∀ cur, m (V.key x) = some cur → V.version cur ≤ V.version x) :
    put V m x = Function.update m (V.key x) (some x) := by
  unfold put
  rcases hcur : m (V.key x) with _ | cur
  · rfl
  · exact if_neg (not_lt.mpr (h cur hcur))

/-- A value put in is older than the one that is held, or replaces it. -/
theorem put_cases (V : Versioned σ κ ν) (m : κ → Option σ) (x : σ) :
    (∃ cur, m (V.key x) = some cur ∧ V.version x < V.version cur ∧ put V m x = m) ∨
      ((∀ cur, m (V.key x) = some cur → V.version cur ≤ V.version x) ∧
        put V m x = Function.update m (V.key x) (some x)) := by
  by_cases h : ∃ cur, m (V.key x) = some cur ∧ V.version x < V.version cur
  · obtain ⟨cur, hcur, hlt⟩ := h
    exact Or.inl ⟨cur, hcur, hlt, put_of_stale hcur hlt⟩
  · have hle : ∀ cur, m (V.key x) = some cur → V.version cur ≤ V.version x := fun cur hcur =>
      not_lt.mp fun hlt => h ⟨cur, hcur, hlt⟩
    exact Or.inr ⟨hle, put_of_not_stale hle⟩

/-- **No version goes back.** -/
theorem put_mono (V : Versioned σ κ ν) (m : κ → Option σ) (x : σ) {k : κ} {y : σ} (hy : m k = some y) :
    ∃ z, put V m x k = some z ∧ V.version y ≤ V.version z := by
  rcases put_cases V m x with ⟨cur, -, -, heq⟩ | ⟨hle, heq⟩
  · exact ⟨y, by rw [heq, hy], le_rfl⟩
  · by_cases hk : k = V.key x
    · subst hk
      exact ⟨x, by rw [heq, Function.update_self], hle y hy⟩
    · exact ⟨y, by rw [heq, Function.update_of_ne hk, hy], le_rfl⟩

theorem foldl_put_mono (V : Versioned σ κ ν) : ∀ (xs : List σ) (m : κ → Option σ) {k : κ} {y : σ},
    m k = some y → ∃ z, xs.foldl (put V) m k = some z ∧ V.version y ≤ V.version z
  | [], _, _, y, hy => ⟨y, hy, le_rfl⟩
  | x :: xs, m, _, _, hy => by
    obtain ⟨y', hy', hle⟩ := put_mono V m x hy
    obtain ⟨z, hz, hle'⟩ := foldl_put_mono V xs (put V m x) hy'
    exact ⟨z, hz, hle.trans hle'⟩

omit [DecidableEq κ] in
theorem Newest.empty : Newest V (fun _ => none) ∅ where
  absent _ := ⟨fun _ _ hx => hx.elim, fun _ => rfl⟩
  mem _ _ h := by cases h
  newest _ _ h := by cases h

omit [DecidableEq κ] in
/-- An older value is one more that is not the newest. -/
theorem Newest.insert_stale (h : Newest V m given) {cur : σ} (hcur : m (V.key x) = some cur)
    (hlt : V.version x < V.version cur) : Newest V m (insert x given) where
  absent k := by
    rw [h.absent k, Set.forall_mem_insert]
    refine ⟨fun hg => ⟨?_, hg⟩, fun hg => hg.2⟩
    rintro rfl
    exact hg cur (h.mem _ cur hcur).1 (h.mem _ cur hcur).2
  mem k y hy := ⟨Set.mem_insert_of_mem x (h.mem k y hy).1, (h.mem k y hy).2⟩
  newest k y hy z hz hk := by
    rcases hz with rfl | hz
    · subst hk
      rw [hcur] at hy
      obtain rfl := Option.some.inj hy
      exact hlt.le
    · exact h.newest k y hy z hz hk

/-- A value that is not older is the newest. -/
theorem Newest.insert_update (h : Newest V m given)
    (hle : ∀ cur, m (V.key x) = some cur → V.version cur ≤ V.version x) :
    Newest V (Function.update m (V.key x) (some x)) (insert x given) where
  absent k := by
    rw [Set.forall_mem_insert]
    by_cases hk : k = V.key x
    · subst hk
      rw [Function.update_self]
      exact ⟨fun h => (by cases h), fun h => absurd rfl h.1⟩
    · rw [Function.update_of_ne hk, h.absent k]
      exact ⟨fun hg => ⟨Ne.symm hk, hg⟩, fun hg => hg.2⟩
  mem k y hy := by
    by_cases hk : k = V.key x
    · subst hk
      rw [Function.update_self] at hy
      obtain rfl := Option.some.inj hy
      exact ⟨Set.mem_insert x given, rfl⟩
    · rw [Function.update_of_ne hk] at hy
      exact ⟨Set.mem_insert_of_mem x (h.mem k y hy).1, (h.mem k y hy).2⟩
  newest k y hy z hz hzk := by
    by_cases hk : k = V.key x
    · subst hk
      rw [Function.update_self] at hy
      obtain rfl := Option.some.inj hy
      rcases hz with rfl | hz
      · exact le_rfl
      · rcases hcur : m (V.key x) with _ | cur
        · exact absurd hzk ((h.absent _).mp hcur z hz)
        · exact (h.newest _ cur hcur z hz hzk).trans (hle cur hcur)
    · rw [Function.update_of_ne hk] at hy
      rcases hz with rfl | hz
      · exact absurd hzk.symm hk
      · exact h.newest k y hy z hz hzk

/-- **One value put in.** -/
theorem Newest.put (h : Newest V m given) (x : σ) : Newest V (put V m x) (insert x given) := by
  rcases put_cases V m x with ⟨cur, hcur, hlt, heq⟩ | ⟨hle, heq⟩
  · rw [heq]
    exact h.insert_stale hcur hlt
  · rw [heq]
    exact h.insert_update hle

/-- **Any number of values put in.** -/
theorem Newest.foldl_put : ∀ {xs : List σ} {m : κ → Option σ} {given : Set σ}, Newest V m given →
    Newest V (xs.foldl (LastWriteWins.put V) m) (given ∪ {x | x ∈ xs})
  | [], _, given, h => by
    have hnil : given ∪ {x | x ∈ ([] : List σ)} = given := by simp
    rw [hnil]
    exact h
  | x :: xs, m, given, h => by
    have hcons : given ∪ {y | y ∈ x :: xs} = insert x given ∪ {y | y ∈ xs} := by
      ext y
      simp only [Set.mem_union, Set.mem_ofPred_eq, List.mem_cons, Set.mem_insert_iff]
      tauto
    rw [hcons]
    exact (h.put x).foldl_put

omit [DecidableEq κ] in
/-- What the map holds: the values given that are newest for their key. -/
theorem Newest.eq_some_iff (h : Newest V m given)
    (hsame : ∀ x ∈ given, ∀ y ∈ given, V.key x = V.key y → V.version x = V.version y → x = y) {k : κ} :
    m k = some x ↔ x ∈ given ∧ V.key x = k ∧ ∀ y ∈ given, V.key y = k → V.version y ≤ V.version x := by
  constructor
  · intro hx
    exact ⟨(h.mem k x hx).1, (h.mem k x hx).2, h.newest k x hx⟩
  · rintro ⟨hx, rfl, hnew⟩
    rcases hy : m (V.key x) with _ | y
    · exact absurd rfl ((h.absent _).mp hy x hx)
    · obtain ⟨hmem, hkey⟩ := h.mem _ y hy
      have hle := h.newest _ y hy x hx rfl
      rw [hsame y hmem x hx hkey (le_antisymm (hnew y hmem hkey) hle)]

omit [DecidableEq κ] in
/-- **Maps that were given the same values agree**, if values of one key and version are equal. -/
theorem Newest.unique (h : Newest V m given) (h' : Newest V m' given)
    (hsame : ∀ x ∈ given, ∀ y ∈ given, V.key x = V.key y → V.version x = V.version y → x = y) :
    m = m' := by
  funext k
  ext x
  rw [h.eq_some_iff hsame, h'.eq_some_iff hsame]

end FluxThroughput.Lib.LastWriteWins
