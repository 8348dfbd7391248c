import FluxThroughput.Lib.Pow2
import FluxThroughput.Lib.Transition

/-! # The ring buffer and its atomic steps

`RingBuffer` is the bounded queue with a stamp in each cell; payloads are opaque. `Pc` says which
atomic access a call makes next, and `Pc.step` makes it: a load of a counter, a load of a stamp, a
compare-and-swap that may fail spuriously, a write or a read of the payload, a store of a stamp.
Memory is sequentially consistent and the counters do not wrap.

`system` lets any set of threads take such steps in any order. `call` is one call with no other thread
acting, and `run` a sequence of them. -/

namespace FluxThroughput.Ring.Machine

open FluxThroughput.Lib.Pow2 FluxThroughput.Lib.Transition

/-! ### The buffer -/

/-- One slot: its stamp, and the payload if there is one. -/
structure Cell (α : Type*) where
  sequence : ℕ
  slot : Option α
  deriving DecidableEq

structure RingBuffer (α : Type*) where
  buffer : ℕ → Cell α
  mask : ℕ
  capacity : ℕ
  enqueuePos : ℕ
  dequeuePos : ℕ

variable {α T : Type*}

namespace RingBuffer

/-- The capacity is rounded up to a power of two; cell `i` is stamped `i`. -/
def new (capacity : ℕ) : RingBuffer α :=
  let cap := nextPowerOfTwo (max capacity 1)
  { buffer := fun i => { sequence := i, slot := none }
    mask := cap - 1
    capacity := cap
    enqueuePos := 0
    dequeuePos := 0 }

/-- The cell of a logical position. -/
def cell (r : RingBuffer α) (pos : ℕ) : Cell α := r.buffer (pos &&& r.mask)

def setCell (r : RingBuffer α) (pos : ℕ) (c : Cell α) : RingBuffer α :=
  { r with buffer := Function.update r.buffer (pos &&& r.mask) c }

/-- The number of requests queued, from the two counters. -/
def len (r : RingBuffer α) : ℕ :=
  if r.enqueuePos ≤ r.dequeuePos then 0 else min (r.enqueuePos - r.dequeuePos) r.capacity

/-- The payloads that `drop` releases, from the position `pos` on. -/
def dropLoop (r : RingBuffer α) : ℕ → ℕ → List (Option α)
  | 0, _ => []
  | n + 1, pos => (r.cell pos).slot :: dropLoop r n (pos + 1)

/-- `Drop`: the slots from `dequeue_pos` up to `enqueue_pos`. -/
def drop (r : RingBuffer α) : List (Option α) := r.dropLoop (r.enqueuePos - r.dequeuePos) r.dequeuePos

end RingBuffer

/-! ### Program counters -/

/-- What a thread does next in a call of `try_enqueue` or `try_dequeue`. -/
inductive Pc (α : Type*)
  | idle
  | enqLoad (req : α)
  | enqStamp (req : α) (pos : ℕ)
  | enqCas (req : α) (pos : ℕ)
  | enqWrite (req : α) (pos : ℕ)
  | enqPublish (req : α) (pos : ℕ)
  | deqLoad
  | deqStamp (pos : ℕ)
  | deqCas (pos : ℕ)
  | deqRead (pos : ℕ)
  | deqFree (req : α) (pos : ℕ)
  -- an uninitialised payload has been read
  | undefined
  deriving DecidableEq

/-- Claims of positions, and the answers of calls. -/
inductive Event (α : Type*)
  | enqClaimed (pos : ℕ) (req : α)
  | enqOk (pos : ℕ) (req : α)
  | enqFull (req : α)
  | deqClaimed (pos : ℕ)
  | deqOk (pos : ℕ) (req : α)
  | deqEmpty
  deriving DecidableEq

/-- **One atomic access.** -/
def Pc.step (spurious : Bool) (r : RingBuffer α) :
    Pc α → Option (RingBuffer α × Pc α × List (Event α))
  | .idle => none
  | .enqLoad req => some (r, .enqStamp req r.enqueuePos, [])
  | .enqStamp req pos =>
    let diff : ℤ := (r.cell pos).sequence - pos
    if diff = 0 then some (r, .enqCas req pos, [])
    else if diff < 0 then some (r, .idle, [.enqFull req])
    else some (r, .enqLoad req, [])
  | .enqCas req pos =>
    if spurious = false ∧ r.enqueuePos = pos then
      some ({ r with enqueuePos := pos + 1 }, .enqWrite req pos, [.enqClaimed pos req])
    else some (r, .enqStamp req r.enqueuePos, [])
  | .enqWrite req pos =>
    some (r.setCell pos { r.cell pos with slot := some req }, .enqPublish req pos, [])
  | .enqPublish req pos =>
    some (r.setCell pos { r.cell pos with sequence := pos + 1 }, .idle, [.enqOk pos req])
  | .deqLoad => some (r, .deqStamp r.dequeuePos, [])
  | .deqStamp pos =>
    let diff : ℤ := (r.cell pos).sequence - (pos + 1)
    if diff = 0 then some (r, .deqCas pos, [])
    else if diff < 0 then some (r, .idle, [.deqEmpty])
    else some (r, .deqLoad, [])
  | .deqCas pos =>
    if spurious = false ∧ r.dequeuePos = pos then
      some ({ r with dequeuePos := pos + 1 }, .deqRead pos, [.deqClaimed pos])
    else some (r, .deqStamp r.dequeuePos, [])
  | .deqRead pos =>
    match (r.cell pos).slot with
    | some req => some (r.setCell pos { r.cell pos with slot := none }, .deqFree req pos, [])
    | none => some (r, .undefined, [])
  | .deqFree req pos =>
    some (r.setCell pos { r.cell pos with sequence := pos + r.mask + 1 }, .idle, [.deqOk pos req])
  | .undefined => none

/-! ### Many threads -/

/-- The buffer and every thread's program counter. -/
structure Threads (T α : Type*) where
  ring : RingBuffer α
  pc : T → Pc α

/-- A thread begins a call, or makes its next access. -/
inductive Action (T α : Type*)
  | tryEnqueue (t : T) (req : α)
  | tryDequeue (t : T)
  | run (t : T) (spurious : Bool)

def Threads.step [DecidableEq T] (s : Threads T α) :
    Action T α → Option (Threads T α × List (T × Event α))
  | .tryEnqueue t req =>
    match s.pc t with
    | .idle => some ({ s with pc := Function.update s.pc t (.enqLoad req) }, [])
    | _ => none
  | .tryDequeue t =>
    match s.pc t with
    | .idle => some ({ s with pc := Function.update s.pc t .deqLoad }, [])
    | _ => none
  | .run t spurious =>
    match (s.pc t).step spurious s.ring with
    | some (r, pc, es) =>
      some ({ ring := r, pc := Function.update s.pc t pc }, es.map (t, ·))
    | none => none

/-- Threads on a fresh buffer of the requested capacity. -/
def system (T α : Type*) [DecidableEq T] (capacity : ℕ) :
    System (Threads T α) (Action T α) (T × Event α) where
  init s := s = { ring := RingBuffer.new capacity, pc := fun _ => .idle }
  step := Threads.step

/-! ### One thread -/

/-- One call with no other thread acting, for at most `fuel` accesses: its answer and the buffer after
it. Access `n` fails spuriously, if it is a compare-and-swap, as the list says. -/
def call : ℕ → List Bool → RingBuffer α → Pc α → Option (Event α × RingBuffer α)
  | 0, _, _, _ => none
  | fuel + 1, spurious, r, pc =>
    match pc.step (spurious.headD false) r with
    | some (r, .idle, [e]) => some (e, r)
    | some (r, pc, _) => call fuel spurious.tail r pc
    | none => none

/-- `drain_into`: up to `max` pops; the requests moved, and the buffer after. -/
def drainInto (fuel : ℕ) : ℕ → List (List Bool) → RingBuffer α → Option (List α × RingBuffer α)
  | 0, _, r => some ([], r)
  | max + 1, spurious, r =>
    match call fuel (spurious.headD []) r .deqLoad with
    | some (.deqOk _ req, r) =>
      match drainInto fuel max spurious.tail r with
      | some (out, r) => some (req :: out, r)
      | none => none
    | some (_, r) => some ([], r)
    | none => none

/-- A call a single thread makes, with the spurious failures it meets. -/
inductive Op (α : Type*)
  | tryEnqueue (req : α) (spurious : List Bool)
  | tryDequeue (spurious : List Bool)
  | drainInto (max : ℕ) (spurious : List (List Bool))
  | len

/-- What a call answers. -/
inductive Answer (α : Type*)
  | ok
  | full (req : α)
  | got (req : α)
  | empty
  | drained (out : List α)
  | len (n : ℕ)
  deriving DecidableEq

def answer : Event α → Option (Answer α)
  | .enqOk _ _ => some .ok
  | .enqFull req => some (.full req)
  | .deqOk _ req => some (.got req)
  | .deqEmpty => some .empty
  | .enqClaimed _ _ => none
  | .deqClaimed _ => none

def Op.apply (fuel : ℕ) (r : RingBuffer α) : Op α → Option (Answer α × RingBuffer α)
  | .tryEnqueue req spurious =>
    (call fuel spurious r (.enqLoad req)).bind fun x => (answer x.1).map (·, x.2)
  | .tryDequeue spurious =>
    (call fuel spurious r .deqLoad).bind fun x => (answer x.1).map (·, x.2)
  | .drainInto max spurious =>
    (Machine.drainInto fuel max spurious r).map fun x => (.drained x.1, x.2)
  | .len => some (.len r.len, r)

/-- The answers of a sequence of calls. -/
def run (fuel : ℕ) : RingBuffer α → List (Op α) → Option (List (Answer α))
  | _, [] => some []
  | r, op :: ops =>
    match op.apply fuel r with
    | some (a, r) => (run fuel r ops).map (a :: ·)
    | none => none

end FluxThroughput.Ring.Machine
