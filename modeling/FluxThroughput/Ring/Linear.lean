import FluxThroughput.Ring.Answers
import FluxThroughput.Ring.Fifo
import FluxThroughput.Lib.AtomicObject

/-! # The ring as an atomic queue

A call of `try_enqueue` or `try_dequeue` takes effect at its claim: at that moment the atomic bounded
queue appends or removes a request, and the answer is fixed. A refusal takes effect as it is returned.
`None` and `Err` are then the queue's answers, or a call of the other side has taken effect and not
returned yet (`Refused`). So every history is linearizable to the queue with these refusals, and to the
queue alone when no call looks at a cell that a thread of the other side has in hand (`Unheld`). -/

namespace FluxThroughput.Ring.Linear

open FluxThroughput.Lib.Pow2 FluxThroughput.Lib.Transition FluxThroughput.Lib.AtomicObject
open FluxThroughput.Ring.Machine FluxThroughput.Ring.Invariant FluxThroughput.Ring.Delivery
open FluxThroughput.Ring.Answers FluxThroughput.Ring.Fifo

variable {α T : Type*}

/-! ### The queue -/

/-- A refusal while a call of the other side has taken effect and not returned. -/
def Refused (ph : T → Phase (Op α) (Answer α)) : Op α → Answer α → Prop
  | .tryEnqueue req _, .full req' => req' = req ∧ ∃ u x, ph u = .done (.tryDequeue []) (.got x)
  | .tryDequeue _, .empty => ∃ u x, ph u = .done (.tryEnqueue x []) .ok
  | _, _ => False

/-- The atomic bounded queue; with `refuses`, it may also refuse a call in the sense of `Refused`. -/
def queue (T α : Type*) (cap : ℕ) (refuses : Bool) : Object T (List α) (Op α) (Answer α) where
  init := []
  effect ph q op ans q' :=
    answers cap q op = (ans, q') ∨ refuses = true ∧ q' = q ∧ Refused ph op ans

/-- What callers see of a history of the ring. -/
def seenOf : Mark α → Option (Seen (Op α) (Answer α))
  | .tryEnqueue req => some (.call (.tryEnqueue req []))
  | .tryDequeue => some (.call (.tryDequeue []))
  | .did (.enqOk _ req) => some (.ret (.tryEnqueue req []) .ok)
  | .did (.enqFull req) => some (.ret (.tryEnqueue req []) (.full req))
  | .did (.deqOk _ req) => some (.ret (.tryDequeue []) (.got req))
  | .did .deqEmpty => some (.ret (.tryDequeue []) .empty)
  | .did (.enqClaimed _ _) => none
  | .did (.deqClaimed _) => none

def seen (h : List (T × Mark α)) : List (T × Seen (Op α) (Answer α)) :=
  h.filterMap fun x => (seenOf x.2).map (x.1, ·)

/-- The call a thread is in. A claimed position says what a consumer will answer. -/
def phase (l : Ledger α) : Pc α → Phase (Op α) (Answer α)
  | .enqLoad req | .enqStamp req _ | .enqCas req _ => .called (.tryEnqueue req [])
  | .enqWrite req _ | .enqPublish req _ => .done (.tryEnqueue req []) .ok
  | .deqLoad | .deqStamp _ | .deqCas _ => .called (.tryDequeue [])
  | .deqRead p =>
    match l.claimed[p]? with
    | some x => .done (.tryDequeue []) (.got x.2)
    | none => .idle
  | .deqFree req _ => .done (.tryDequeue []) (.got req)
  | .idle | .undefined => .idle

/-- No call looks at a cell that a thread of the other side has claimed and not stamped. -/
def Unheld (s : Threads T α) : Action T α → Prop
  | .run t _ =>
    (∀ p, s.pc t = .deqStamp p → ∀ u, writing (s.pc u) ≠ some p) ∧
    ∀ req p, s.pc t = .enqStamp req p → ∀ u q, reading (s.pc u) = some q → q + s.ring.capacity ≠ p
  | _ => True

/-! ### The ledger and the queue -/

section Ledger
variable {s : Threads T α} {l : Ledger α} {p : ℕ} {req : α}

theorem claimed_getElem? (hb : Books s l) (hm : (p, req) ∈ l.claimed) :
    l.claimed[p]? = some (p, req) := by
  obtain ⟨i, hi, heq⟩ := List.mem_iff_getElem.mp hm
  have hfst : (l.claimed.map Prod.fst)[i]? = some p := by
    rw [List.getElem?_map, List.getElem?_eq_getElem hi, heq]
    rfl
  rw [hb.claimed, List.getElem?_eq_some_iff] at hfst
  obtain ⟨hlt, hip⟩ := hfst
  rw [List.getElem_range] at hip
  subst hip
  rw [List.getElem?_eq_getElem hi, heq]

theorem length_rest (hb : Books s l) : (rest s l).length = s.ring.enqueuePos - s.ring.dequeuePos := by
  rw [rest, List.length_map, List.length_drop, hb.length_claimed]

/-- A consumer that has claimed a position will answer the request claimed there. -/
theorem phase_of_reading (hi : Inv s) (hb : Books s l) {t : T} (hr : reading (s.pc t) = some p) :
    ∃ req, phase l (s.pc t) = .done (.tryDequeue []) (.got req) := by
  have hok := hi.threads t
  have hle := hi.le
  cases hpc : s.pc t <;> rw [hpc] at hr hok <;> cases hr
  · have hlt : p < l.claimed.length := by
      rw [hb.length_claimed]
      exact hok.1.trans_le hle
    refine ⟨l.claimed[p].2, ?_⟩
    simp only [phase, List.getElem?_eq_getElem hlt]
  · exact ⟨_, rfl⟩

theorem phase_of_writing {pc : Pc α} (hw : writing pc = some p) :
    ∃ req, phase l pc = .done (.tryEnqueue req []) .ok := by
  cases pc <;> cases hw <;> exact ⟨_, rfl⟩

/-- What a thread will answer does not change as others claim. -/
theorem phase_append (hi : Inv s) (hb : Books s l) (t : T) (x : ℕ × α) :
    phase { l with claimed := l.claimed ++ [x] } (s.pc t) = phase l (s.pc t) := by
  have hok := hi.threads t
  have hle := hi.le
  cases hpc : s.pc t <;> rw [hpc] at hok <;> try rfl
  rename_i p
  have hlt : p < l.claimed.length := by
    rw [hb.length_claimed]
    exact hok.1.trans_le hle
  simp only [phase, List.getElem?_append_left hlt]

end Ledger

/-! ### One access -/

section Histories

theorem seen_append (h e : List (T × Mark α)) : seen (h ++ e) = seen h ++ seen e :=
  List.filterMap_append

theorem seen_none {t : T} {m : Mark α} (hm : seenOf m = none) : seen [(t, m)] = [] := by
  rw [seen, List.filterMap_cons, hm]
  rfl

theorem seen_some {t : T} {m : Mark α} {y : Seen (Op α) (Answer α)} (hm : seenOf m = some y) :
    seen [(t, m)] = [(t, y)] := by
  rw [seen, List.filterMap_cons, hm]
  rfl

theorem ledger_did (h : List (T × Mark α)) (t : T) (x : Event α) :
    ledger (events (h ++ [(t, .did x)])) = (ledger (events h)).record x := by
  have hnew : events [(t, Mark.did x)] = [(t, x)] := rfl
  rw [events_append, hnew, ledger_concat]

end Histories

section Access
variable [DecidableEq T] {s : Threads T α} {h : List (T × Mark α)} {t : T} {c : ℕ} {refuses : Bool}

/-- The atomic queue shows this history, with the queued requests as its value and every thread where
it is in its call. -/
def Shows (refuses : Bool) (s : Threads T α) (h : List (T × Mark α)) : Prop :=
  (queue T α s.ring.capacity refuses).Runs (phase (ledger (events h)) ∘ s.pc)
    (rest s (ledger (events h))) (seen h)

/-- An access that claims and answers nothing. -/
theorem Shows.silent (hs : Shows refuses s h) {r : RingBuffer α} {pc' : Pc α}
    (hcap : r.capacity = s.ring.capacity) (hdeq : r.dequeuePos = s.ring.dequeuePos)
    (hph : phase (ledger (events h)) pc' = phase (ledger (events h)) (s.pc t)) :
    Shows refuses { ring := r, pc := Function.update s.pc t pc' } h := by
  have hphase : phase (ledger (events h)) ∘ Function.update s.pc t pc' =
      phase (ledger (events h)) ∘ s.pc := funext fun u => update_eq hph u
  have hrest : rest { ring := r, pc := Function.update s.pc t pc' } (ledger (events h)) =
      rest s (ledger (events h)) := by
    rw [rest, hdeq]
    rfl
  unfold Shows
  rw [hphase, hrest, hcap]
  exact hs

/-- A call begins. -/
theorem Shows.begin (hs : Shows refuses s h) (hidle : s.pc t = .idle) {m : Mark α} {op : Op α}
    {pc' : Pc α} (hseen : seenOf m = some (.call op)) (hev : events [(t, m)] = [])
    (hph : ∀ l, phase l pc' = .called op) :
    Shows refuses { s with pc := Function.update s.pc t pc' } (h ++ [(t, m)]) := by
  have hcall := hs.call op (t := t) (by rw [Function.comp_apply, hidle]; rfl)
  unfold Shows
  rw [seen_append, seen_some hseen, events_append, hev, List.append_nil, Function.comp_update, hph]
  exact hcall

/-- A claim takes effect, and the call goes on. -/
theorem Shows.claim (hs : Shows refuses s h) {r : RingBuffer α} {pc' : Pc α} {x : Event α} (op : Op α)
    (ans : Answer α) {q : List α} (hcap : r.capacity = s.ring.capacity)
    (hpc : phase (ledger (events h)) (s.pc t) = .called op) (hseen : seenOf (.did x) = none)
    (hph : phase ((ledger (events h)).record x) pc' = .done op ans)
    (hother : ∀ u, phase ((ledger (events h)).record x) (s.pc u) = phase (ledger (events h)) (s.pc u))
    (hrest : rest { ring := r, pc := Function.update s.pc t pc' } ((ledger (events h)).record x) = q)
    (heff : answers s.ring.capacity (rest s (ledger (events h))) op = (ans, q)) :
    Shows refuses { ring := r, pc := Function.update s.pc t pc' } (h ++ [(t, .did x)]) := by
  have heffect := hs.effect (t := t) hpc (Or.inl heff)
  have hphase : phase ((ledger (events h)).record x) ∘ s.pc = phase (ledger (events h)) ∘ s.pc :=
    funext hother
  unfold Shows
  rw [seen_append, seen_none hseen, List.append_nil, ledger_did, hrest, Function.comp_update, hph,
    hphase, hcap]
  exact heffect

/-- A call returns what its effect fixed. -/
theorem Shows.finish (hs : Shows refuses s h) {r : RingBuffer α} {x : Event α} {op : Op α}
    {ans : Answer α} (hcap : r.capacity = s.ring.capacity) (hdeq : r.dequeuePos = s.ring.dequeuePos)
    (hpc : phase (ledger (events h)) (s.pc t) = .done op ans)
    (hseen : seenOf (.did x) = some (.ret op ans))
    (hclaimed : ((ledger (events h)).record x).claimed = (ledger (events h)).claimed) :
    Shows refuses { ring := r, pc := Function.update s.pc t .idle } (h ++ [(t, .did x)]) := by
  have hret := hs.ret (t := t) hpc
  have hphase : phase ((ledger (events h)).record x) = phase (ledger (events h)) := by
    funext pc
    cases pc <;> simp only [phase, hclaimed]
  have hrest : rest { ring := r, pc := Function.update s.pc t .idle } ((ledger (events h)).record x) =
      rest s (ledger (events h)) := by
    rw [rest, hdeq, hclaimed]
    rfl
  unfold Shows
  rw [seen_append, seen_some hseen, ledger_did, hphase, hrest, Function.comp_update, hcap]
  exact hret

/-- A call is refused. -/
theorem Shows.refuse (hs : Shows refuses s h) {x : Event α} (op : Op α) {ans : Answer α}
    (hpc : phase (ledger (events h)) (s.pc t) = .called op)
    (hseen : seenOf (.did x) = some (.ret op ans))
    (hrecord : (ledger (events h)).record x = ledger (events h))
    (heff : (queue T α s.ring.capacity refuses).effect (phase (ledger (events h)) ∘ s.pc)
      (rest s (ledger (events h))) op ans (rest s (ledger (events h)))) :
    Shows refuses { s with pc := Function.update s.pc t .idle } (h ++ [(t, .did x)]) := by
  have hanswer := hs.answer (t := t) hpc heff
  unfold Shows
  rw [seen_append, seen_some hseen, ledger_did, hrecord, Function.comp_update]
  exact hanswer

/-- **Every access is the atomic queue's**, or changes nothing that callers see. -/
theorem Shows.access (hk : Kept c s h) (hs : Shows refuses s h) {b : Bool} {r : RingBuffer α}
    {pc' : Pc α} {es : List (Event α)} (hacc : (s.pc t).step b s.ring = some (r, pc', es))
    (hok : refuses = true ∨ Unheld s (.run t b)) :
    Shows refuses { ring := r, pc := Function.update s.pc t pc' }
      (h ++ es.map fun x => (t, .did x)) := by
  have hi := hk.inv
  have hb := hk.books
  have hi' := hi.access hacc
  have hb' := hb.access hi hacc
  have henq := enq_le hi'
  have hle := hi'.le
  have hlen := length_rest hb
  have hpast := hk.past t
  have hthread := hi.threads t
  rcases hpc : s.pc t with _ | req | ⟨req, p⟩ | ⟨req, p⟩ | ⟨req, p⟩ | ⟨req, p⟩ | _ | p | p | p |
    ⟨req, p⟩ | _ <;> rw [hpc] at hacc hpast hthread <;> simp only [Pc.step] at hacc
  case idle | undefined => cases hacc
  case enqLoad =>
    cases hacc
    exact (List.append_nil h).symm ▸ hs.silent rfl rfl (by rw [hpc]; rfl)
  case deqLoad =>
    cases hacc
    exact (List.append_nil h).symm ▸ hs.silent rfl rfl (by rw [hpc]; rfl)
  case enqStamp =>
    split_ifs at hacc with h0 h1 <;> cases hacc
    · exact (List.append_nil h).symm ▸ hs.silent rfl rfl (by rw [hpc]; rfl)
    · obtain ⟨rfl, htail⟩ := tail_of_full hi hpast (by omega)
      refine hs.refuse (.tryEnqueue req []) (by rw [hpc]; rfl) rfl rfl ?_
      by_cases hfull : s.ring.dequeuePos + s.ring.capacity ≤ s.ring.enqueuePos
      · left
        simp only [answers]
        rw [if_neg (by omega)]
      · obtain ⟨u, q, hu, hlap⟩ := htail.resolve_left hfull
        obtain ⟨x, hx⟩ := phase_of_reading hi hb hu
        refine Or.inr ⟨hok.resolve_right fun hun => ?_, rfl, rfl, u, x, hx⟩
        exact hun.2 req _ hpc u q hu hlap
    · exact (List.append_nil h).symm ▸ hs.silent rfl rfl (by rw [hpc]; rfl)
  case deqStamp =>
    split_ifs at hacc with h0 h1 <;> cases hacc
    · exact (List.append_nil h).symm ▸ hs.silent rfl rfl (by rw [hpc]; rfl)
    · obtain ⟨rfl, hhead⟩ := head_of_empty hi hpast (by omega)
      refine hs.refuse (.tryDequeue []) (by rw [hpc]; rfl) rfl rfl ?_
      by_cases hempty : s.ring.enqueuePos = s.ring.dequeuePos
      · left
        have hnil : rest s (ledger (events h)) = [] := List.length_eq_zero_iff.mp (by omega)
        simp only [hnil, answers]
      · obtain ⟨u, hu⟩ := hhead.resolve_left hempty
        obtain ⟨x, hx⟩ := phase_of_writing (l := ledger (events h)) hu
        refine Or.inr ⟨hok.resolve_right fun hun => ?_, rfl, u, x, hx⟩
        exact hun.1 _ hpc u hu
    · exact (List.append_nil h).symm ▸ hs.silent rfl rfl (by rw [hpc]; rfl)
  case enqCas =>
    split_ifs at hacc with h0 <;> cases hacc
    · obtain ⟨-, rfl⟩ := h0
      have hroom : s.ring.enqueuePos + 1 ≤ s.ring.dequeuePos + s.ring.capacity := henq
      have hbefore := hi.le
      refine hs.claim (.tryEnqueue req []) .ok rfl (by rw [hpc]; rfl) rfl rfl
        (fun u => phase_append hi hb u _) (q := rest s (ledger (events h)) ++ [req]) ?_ ?_
      · rw [rest, Ledger.record, List.drop_append_of_le_length, List.map_append]
        · rfl
        · rwa [hb.length_claimed]
      · simp only [answers]
        rw [if_pos (by omega)]
    · exact (List.append_nil h).symm ▸ hs.silent rfl rfl (by rw [hpc]; rfl)
  case deqCas =>
    split_ifs at hacc with h0 <;> cases hacc
    · obtain ⟨-, rfl⟩ := h0
      have hlt : s.ring.dequeuePos < (ledger (events h)).claimed.length := by
        rw [hb.length_claimed]
        exact hle
      refine hs.claim (.tryDequeue [])
        (.got (ledger (events h)).claimed[s.ring.dequeuePos].2) rfl (by rw [hpc]; rfl) rfl
        ?_ (fun _ => rfl) rfl ?_
      · simp only [phase, Ledger.record, List.getElem?_eq_getElem hlt]
      · simp only [rest, Ledger.record]
        rw [List.drop_eq_getElem_cons hlt, List.map_cons]
        rfl
    · exact (List.append_nil h).symm ▸ hs.silent rfl rfl (by rw [hpc]; rfl)
  case enqWrite =>
    cases hacc
    exact (List.append_nil h).symm ▸ hs.silent rfl rfl (by rw [hpc]; rfl)
  case enqPublish =>
    cases hacc
    exact hs.finish rfl rfl (by rw [hpc]; rfl) rfl rfl
  case deqRead =>
    split at hacc <;> cases hacc
    · rename_i req hreq
      have hcarried : (p, req) ∈ (ledger (events h)).claimed :=
        hb'.carries p req (Or.inl ⟨t, by simp only [Function.update_self]; rfl⟩)
      refine (List.append_nil h).symm ▸ hs.silent rfl rfl ?_
      rw [hpc]
      simp only [phase, claimed_getElem? hb hcarried]
    · exact absurd (hi'.threads t) (by simp only [Function.update_self]; exact id)
  case deqFree =>
    cases hacc
    exact hs.finish rfl rfl (by rw [hpc]; rfl) rfl rfl

end Access

/-! ### Runs -/

section Runs
variable [DecidableEq T] {s : Threads T α} {h : List (T × Mark α)} {c : ℕ} {refuses : Bool}

theorem Shows.step {s' : Threads T α} {a : Action T α} {e : List (T × Mark α)} (hk : Kept c s h)
    (hs : Shows refuses s h) (hstep : (calls T α c).step s a = some (s', e))
    (hok : refuses = true ∨ Unheld s a) : Shows refuses s' (h ++ e) := by
  obtain ⟨⟨s'', es⟩, hthreads, heq⟩ := Option.map_eq_some_iff.mp hstep
  cases heq
  cases a with
  | tryEnqueue t req =>
    simp only [Threads.step] at hthreads
    split at hthreads <;> cases hthreads
    rename_i hidle
    exact hs.begin hidle rfl rfl fun _ => rfl
  | tryDequeue t =>
    simp only [Threads.step] at hthreads
    split at hthreads <;> cases hthreads
    rename_i hidle
    exact hs.begin hidle rfl rfl fun _ => rfl
  | run t b =>
    simp only [Threads.step] at hthreads
    split at hthreads <;> cases hthreads
    rename_i hacc
    rw [begun, List.nil_append, List.map_map]
    exact hs.access hk hacc hok

theorem run_shows (refuses : Bool) {ok : Guard (Threads T α) (Action T α) (T × Mark α)} (hc : 2 ≤ c)
    (hok : ∀ s h a, ok s h a → refuses = true ∨ Unheld s a) (hr : Run (calls T α c) ok s h) :
    Shows refuses s h := by
  refine hr.invariant (I := fun s h => Shows refuses s h) ?_ fun s h a s' e hr' hs hg hstep => ?_
  · rintro s rfl
    exact Object.Runs.init
  · exact hs.step (run_kept hc hr') hstep (hok s h a hg)

/-- **The ring is linearizable**: in every run of any threads, what callers see is a history of the
atomic queue of the ring's capacity, in which a refusal may also be due to a call of the other side that
has taken effect and not returned. -/
theorem linearizable (hc : 2 ≤ c) (hr : Run (calls T α c) anyStep s h) :
    (queue T α (nextPowerOfTwo (max c 1)) true).Linearizable (seen h) := by
  have hshows := run_shows true hc (fun _ _ _ _ => Or.inl rfl) hr
  rw [← (run_kept hc hr).capacity]
  exact ⟨_, _, hshows⟩

/-- **The ring is the atomic queue** in the runs in which no call looks at a cell that a thread of the
other side has in hand. -/
theorem linearizable_unheld (hc : 2 ≤ c) (hr : Run (calls T α c) (fun s _ a => Unheld s a) s h) :
    (queue T α (nextPowerOfTwo (max c 1)) false).Linearizable (seen h) := by
  have hshows := run_shows false hc (fun _ _ _ => Or.inr) hr
  rw [← (run_kept hc hr).capacity]
  exact ⟨_, _, hshows⟩

end Runs

/-! ### Two threads -/

/-- A producer is paused after its claim of position 0, the next request is answered `Ok`, and
`try_dequeue` answers `None`. -/
theorem linearizable_paused : ∃ (s : Threads Bool ℕ) (h : List (Bool × Mark ℕ)),
    Run (calls Bool ℕ 2) anyStep s h ∧
    seen h = [(false, .call (.tryEnqueue 7 [])), (true, .call (.tryEnqueue 8 [])),
      (true, .ret (.tryEnqueue 8 []) .ok), (true, .call (.tryDequeue [])),
      (true, .ret (.tryDequeue []) .empty)] ∧
    (queue Bool ℕ 2 true).Linearizable (seen h) := by
  obtain ⟨s, h, hr, hp⟩ := exists_run_of_exec (calls Bool ℕ 2) anyStep (fun _ _ _ => true)
    (fun _ _ _ _ => trivial) { ring := RingBuffer.new 2, pc := fun _ => .idle }
    [.tryEnqueue false 7, .run false false, .run false false, .run false false,
      .tryEnqueue true 8, .run true false, .run true false, .run true false, .run true false,
      .run true false, .tryDequeue true, .run true false, .run true false]
    (fun x => decide (x.2 = [(false, .tryEnqueue 7), (false, .did (.enqClaimed 0 7)),
      (true, .tryEnqueue 8), (true, .did (.enqClaimed 1 8)), (true, .did (.enqOk 1 8)),
      (true, .tryDequeue), (true, .did .deqEmpty)])) rfl (by decide)
  have heq : h = _ := of_decide_eq_true hp
  exact ⟨s, h, hr, by rw [heq]; rfl, linearizable le_rfl hr⟩

theorem unheld_of_aloneAtCell {s : Threads Bool ℕ} {h : List (Bool × Mark ℕ)}
    {a : Machine.Action Bool ℕ} (hg : aloneAtCell s h a = true) : Unheld s a := by
  cases a with
  | run t b =>
    have hother : ∀ u, u ≠ t → holds (s.pc u) = none := by
      intro u hu
      rw [Bool.eq_not_of_ne hu]
      exact of_decide_eq_true hg
    have hself : ∀ u p, holds (s.pc u) = some p → holds (s.pc t) = some p := by
      intro u p hu
      by_cases hut : u = t
      · rwa [← hut]
      · rw [hother u hut] at hu
        cases hu
    constructor
    · intro p hpc u hu
      have := hself u p (holds_of_writing hu)
      rw [hpc] at this
      cases this
    · intro req p hpc u q hu
      have := hself u q (holds_of_reading hu)
      rw [hpc] at this
      cases this
  | _ => trivial

/-- Two producers race for position 0, the consumers take the requests in the order of the claims, and
the third `try_dequeue` answers `None`. -/
theorem linearizable_unheld_race : ∃ (s : Threads Bool ℕ) (h : List (Bool × Mark ℕ)),
    Run (calls Bool ℕ 2) (fun s _ a => Unheld s a) s h ∧
    seen h = [(false, .call (.tryEnqueue 7 [])), (true, .call (.tryEnqueue 8 [])),
      (true, .ret (.tryEnqueue 8 []) .ok), (false, .ret (.tryEnqueue 7 []) .ok),
      (false, .call (.tryDequeue [])), (true, .call (.tryDequeue [])),
      (false, .ret (.tryDequeue []) (.got 8)), (true, .ret (.tryDequeue []) (.got 7)),
      (true, .call (.tryDequeue [])), (true, .ret (.tryDequeue []) .empty)] ∧
    (queue Bool ℕ 2 false).Linearizable (seen h) := by
  obtain ⟨s, h, hr, hp⟩ := exists_run_of_exec (calls Bool ℕ 2) (fun s _ a => Unheld s a) aloneAtCell
    (fun _ _ _ => unheld_of_aloneAtCell) { ring := RingBuffer.new 2, pc := fun _ => .idle }
    [.tryEnqueue false 7, .tryEnqueue true 8, .run false false, .run true false, .run false false,
      .run true false, .run true false, .run true false, .run true false, .run false false,
      .run false false, .run false false, .run false false, .run false false, .tryDequeue false,
      .tryDequeue true, .run false false, .run true false, .run false false, .run true false,
      .run false false, .run false false, .run false false, .run true false, .run true false,
      .run true false, .run true false, .run true false, .tryDequeue true, .run true false,
      .run true false]
    (fun x => decide (x.2 = [(false, .tryEnqueue 7), (true, .tryEnqueue 8),
      (true, .did (.enqClaimed 0 8)), (true, .did (.enqOk 0 8)), (false, .did (.enqClaimed 1 7)),
      (false, .did (.enqOk 1 7)), (false, .tryDequeue), (true, .tryDequeue),
      (false, .did (.deqClaimed 0)), (false, .did (.deqOk 0 8)), (true, .did (.deqClaimed 1)),
      (true, .did (.deqOk 1 7)), (true, .tryDequeue), (true, .did .deqEmpty)])) rfl (by decide)
  have heq : h = _ := of_decide_eq_true hp
  exact ⟨s, h, hr, by rw [heq]; rfl, linearizable_unheld le_rfl hr⟩

end FluxThroughput.Ring.Linear
