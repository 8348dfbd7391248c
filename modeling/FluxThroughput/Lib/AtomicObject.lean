import Mathlib

/-! # Linearizable histories

Threads use a shared object through calls: each call begins, and later returns an answer. In the
*atomic* object a call takes effect in one step, at some moment between its beginning and its return.
A history of beginnings and returns is linearizable when the atomic object can show it. -/

namespace FluxThroughput.Lib.AtomicObject

/-- What a thread is doing: nothing, a call that has not taken effect, or one that has. -/
inductive Phase (ω ρ : Type*)
  | idle
  | called (op : ω)
  | done (op : ω) (ans : ρ)

/-- What is seen of a call. -/
inductive Seen (ω ρ : Type*)
  | call (op : ω)
  | ret (op : ω) (ans : ρ)
  deriving DecidableEq

/-- The value at the start, and what a call may do to it and answer. An effect may depend on the calls
that are in progress. -/
structure Object (T σ ω ρ : Type*) where
  init : σ
  effect : (T → Phase ω ρ) → σ → ω → ρ → σ → Prop

variable {T σ ω ρ : Type*} [DecidableEq T]

/-- **Runs of the atomic object**: the calls in progress, the value, and the history. -/
inductive Object.Runs (O : Object T σ ω ρ) : (T → Phase ω ρ) → σ → List (T × Seen ω ρ) → Prop
  | init : O.Runs (fun _ => .idle) O.init []
  | call {ph : T → Phase ω ρ} {v : σ} {h : List (T × Seen ω ρ)} {t : T} (op : ω) :
      O.Runs ph v h → ph t = .idle →
      O.Runs (Function.update ph t (.called op)) v (h ++ [(t, .call op)])
  | effect {ph : T → Phase ω ρ} {v v' : σ} {h : List (T × Seen ω ρ)} {t : T} {op : ω} {ans : ρ} :
      O.Runs ph v h → ph t = .called op → O.effect ph v op ans v' →
      O.Runs (Function.update ph t (.done op ans)) v' h
  | ret {ph : T → Phase ω ρ} {v : σ} {h : List (T × Seen ω ρ)} {t : T} {op : ω} {ans : ρ} :
      O.Runs ph v h → ph t = .done op ans →
      O.Runs (Function.update ph t .idle) v (h ++ [(t, .ret op ans)])

/-- **Linearizable**: the atomic object can show this history. -/
def Object.Linearizable (O : Object T σ ω ρ) (h : List (T × Seen ω ρ)) : Prop :=
  ∃ ph v, O.Runs ph v h

section Laws
variable {O : Object T σ ω ρ} {ph : T → Phase ω ρ} {v v' : σ} {h : List (T × Seen ω ρ)} {t : T}
  {op : ω} {ans : ρ}

/-- A call that takes effect as it returns. -/
theorem Object.Runs.answer (hr : O.Runs ph v h) (hcalled : ph t = .called op)
    (he : O.effect ph v op ans v') :
    O.Runs (Function.update ph t .idle) v' (h ++ [(t, .ret op ans)]) := by
  have hdone := (hr.effect hcalled he).ret (Function.update_self t _ ph)
  rwa [Function.update_idem] at hdone

end Laws

end FluxThroughput.Lib.AtomicObject
