import FluxThroughput.Domain.Types

/-! # The LSN authority

One counter for every appender, and the set of durable LSNs below whose minimum checkpoints are
clamped. The counter is a `fetch_add`, so it wraps. -/

namespace FluxThroughput.Lsn.Authority

open FluxThroughput.Domain.Types FluxThroughput.Lib.U64

structure LsnState where
  next : Lsn
  pending : Finset Lsn
  deriving DecidableEq

namespace LsnState

def new (start : Lsn) : LsnState := { next := start, pending := ∅ }

def alloc (s : LsnState) : Lsn × LsnState := (s.next, { s with next := s.next + 1 })

def allocBlock (s : LsnState) (count : UInt64) : Lsn × LsnState :=
  (s.next, { s with next := s.next + count })

def notePending (s : LsnState) (lsn : Lsn) : LsnState :=
  { s with pending := insert lsn s.pending }

def noteDrained (s : LsnState) (lsn : Lsn) : LsnState :=
  { s with pending := s.pending.erase lsn }

/-- The proposal, clamped strictly below the lowest pending LSN. -/
def checkpointWatermark (s : LsnState) (proposed : Lsn) : Option Lsn :=
  match s.pending.min with
  | none => some proposed
  | some min => if min = 0 then none else some (Min.min proposed (min - 1))

/-- **The clamp**: a watermark is below every pending LSN, and never above the proposal. -/
theorem checkpointWatermark_lt {s : LsnState} {proposed safe : Lsn}
    (h : s.checkpointWatermark proposed = some safe) :
    safe ≤ proposed ∧ ∀ l ∈ s.pending, safe < l := by
  unfold checkpointWatermark at h
  rcases hm : s.pending.min with _ | m
  · rw [hm] at h
    dsimp only at h
    have hempty : s.pending = ∅ := Finset.min_eq_top.mp hm
    exact ⟨by rw [Option.some.inj h], by simp [hempty]⟩
  · rw [hm] at h
    dsimp only at h
    split_ifs at h with h0
    obtain rfl := Option.some.inj h
    refine ⟨min_le_left _ _, fun l hl => ?_⟩
    have hml : m ≤ l := Finset.min_le_of_eq hl hm
    have hlt : m - 1 < m := (lt_iff_le_sub_one h0).mpr le_rfl
    exact lt_of_le_of_lt (min_le_right _ _) (lt_of_lt_of_le hlt hml)

end LsnState

end FluxThroughput.Lsn.Authority
