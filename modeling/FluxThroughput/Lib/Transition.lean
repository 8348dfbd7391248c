import Mathlib

/-! # Guarded runs of a transition system

A `System` has initial states and a partial step function that answers an action with the next state
and the events the step emits. `Run S ok s h`: the state `s` is reached, with history `h`, by steps
each of which met the guard `ok` in the state it was taken from. With the guard that always holds
these are all runs; a stronger guard is a condition on the schedule. -/

namespace FluxThroughput.Lib.Transition

/-- A deterministic step function on states `σ`, driven by actions `α`, emitting events `ε`. -/
structure System (σ α ε : Type*) where
  init : σ → Prop
  step : σ → α → Option (σ × List ε)

/-- A guard: which action may be taken in which state, after which history. -/
abbrev Guard (σ α ε : Type*) := σ → List ε → α → Prop

variable {σ α ε : Type*} {S : System σ α ε} {ok : Guard σ α ε}

/-- **Guarded runs**, with the history of emitted events, oldest first. -/
inductive Run (S : System σ α ε) (ok : Guard σ α ε) : σ → List ε → Prop
  | init {s : σ} : S.init s → Run S ok s []
  | step {s s' : σ} {h e : List ε} {a : α} :
      Run S ok s h → ok s h a → S.step s a = some (s', e) → Run S ok s' (h ++ e)

/-- The guard that allows every step. -/
def anyStep : Guard σ α ε := fun _ _ _ => True

/-- Runs under a guard are runs. -/
theorem Run.mono {s : σ} {h : List ε} (hr : Run S ok s h) : Run S anyStep s h := by
  induction hr with
  | init hs => exact Run.init hs
  | step _ _ hs ih => exact ih.step trivial hs

/-- **Invariants of runs**: what holds initially and is kept by every allowed step of a run. -/
theorem Run.invariant {I : σ → List ε → Prop} (hinit : ∀ s, S.init s → I s [])
    (hstep : ∀ s h a s' e, Run S ok s h → I s h → ok s h a → S.step s a = some (s', e) →
      I s' (h ++ e)) {s : σ} {h : List ε} (hr : Run S ok s h) : I s h := by
  induction hr with
  | init hs => exact hinit _ hs
  | step hr hok hs ih => exact hstep _ _ _ _ _ hr ih hok hs

/-- Where an event stands in a history that has grown: in the old part, or in the new one. -/
theorem split_append {h e pre post : List ε} {x : ε} (heq : h ++ e = pre ++ x :: post) :
    (∃ post', h = pre ++ x :: post' ∧ post = post' ++ e) ∨
      ∃ pre', pre = h ++ pre' ∧ e = pre' ++ x :: post := by
  rcases List.append_eq_append_iff.mp heq with ⟨pre', hpre, he⟩ | ⟨tail, hh, htail⟩
  · exact Or.inr ⟨pre', hpre, he⟩
  · rcases tail with _ | ⟨y, post'⟩
    · refine Or.inr ⟨[], ?_, ?_⟩
      · rw [hh, List.append_nil, List.append_nil]
      · rw [List.nil_append] at htail ⊢
        exact htail.symm
    · rw [List.cons_append] at htail
      obtain ⟨rfl, hpost⟩ := List.cons.inj htail
      exact Or.inl ⟨post', hh, hpost⟩

/-- The same for a history that has grown by one event. -/
theorem split_concat {h pre post : List ε} {x y : ε} (heq : h ++ [y] = pre ++ x :: post) :
    (∃ post', h = pre ++ x :: post' ∧ post = post' ++ [y]) ∨ (pre = h ∧ y = x ∧ post = []) := by
  rcases split_append heq with hold | ⟨pre', rfl, hnew⟩
  · exact Or.inl hold
  · rcases pre' with _ | ⟨z, pre'⟩
    · obtain ⟨rfl, rfl⟩ := List.cons.inj hnew
      exact Or.inr ⟨List.append_nil h, rfl, rfl⟩
    · have hlen := congrArg List.length hnew
      simp only [List.length_cons, List.length_nil, List.cons_append, List.length_append] at hlen
      omega

/-- Run a list of actions, as far as the check `g` allows each in the state it is taken from. -/
def exec (S : System σ α ε) (g : σ → List ε → α → Bool) :
    σ → List ε → List α → Option (σ × List ε)
  | s, h, [] => some (s, h)
  | s, h, a :: as =>
    if g s h a then
      match S.step s a with
      | none => none
      | some (s', e) => exec S g s' (h ++ e) as
    else none

/-- Replaying reaches runs, when the check implies the guard wherever the invariant `J` holds. -/
theorem Run.exec {g : σ → List ε → α → Bool} {J : σ → List ε → Prop}
    (hJ : ∀ s h a s' e, J s h → g s h a = true → S.step s a = some (s', e) → J s' (h ++ e))
    (hg : ∀ s h a, J s h → g s h a = true → ok s h a) {as : List α} :
    ∀ {s s' : σ} {h h' : List ε}, Run S ok s h → J s h →
      exec S g s h as = some (s', h') → Run S ok s' h' ∧ J s' h' := by
  induction as with
  | nil =>
    intro s s' h h' hr hj hx
    simp only [Transition.exec, Option.some.injEq, Prod.mk.injEq] at hx
    obtain ⟨rfl, rfl⟩ := hx
    exact ⟨hr, hj⟩
  | cons a as ih =>
    intro s s' h h' hr hj hx
    simp only [Transition.exec] at hx
    split_ifs at hx with hga
    rcases h1 : S.step s a with _ | ⟨t, e⟩ <;> simp only [h1] at hx
    · cases hx
    · exact ih (Run.step hr (hg _ _ _ hj hga) h1) (hJ _ _ _ _ _ hj hga h1) hx

/-- A schedule from an initial state, replayed: its last state and history are reached, and have the
decidable property `p` that evaluating it shows. -/
theorem exists_run_of_exec_inv (S : System σ α ε) (ok : Guard σ α ε) (J : σ → List ε → Prop)
    (g : σ → List ε → α → Bool)
    (hJ : ∀ s h a s' e, J s h → g s h a = true → S.step s a = some (s', e) → J s' (h ++ e))
    (hg : ∀ s h a, J s h → g s h a = true → ok s h a)
    (s : σ) (as : List α) (p : σ × List ε → Bool) (hs : S.init s) (hj : J s [])
    (h : (exec S g s [] as).map p = some true) :
    ∃ t h, Run S ok t h ∧ J t h ∧ p (t, h) = true := by
  rcases hx : Transition.exec S g s [] as with _ | ⟨t, g⟩
  · simp [hx] at h
  · simp only [hx, Option.map_some, Option.some.injEq] at h
    obtain ⟨hr, hj'⟩ := (Run.init hs).exec hJ hg hj hx
    exact ⟨t, g, hr, hj', h⟩

/-- The same, when the check implies the guard in every state. -/
theorem exists_run_of_exec (S : System σ α ε) (ok : Guard σ α ε) (g : σ → List ε → α → Bool)
    (hg : ∀ s h a, g s h a = true → ok s h a) (s : σ) (as : List α) (p : σ × List ε → Bool)
    (hs : S.init s) (h : (exec S g s [] as).map p = some true) :
    ∃ t h, Run S ok t h ∧ p (t, h) = true :=
  let ⟨t, h, hr, _, hp⟩ := exists_run_of_exec_inv S ok (fun _ _ => True) g
    (fun _ _ _ _ _ _ _ _ => trivial) (fun s h a _ => hg s h a) s as p hs trivial h
  ⟨t, h, hr, hp⟩

end FluxThroughput.Lib.Transition
