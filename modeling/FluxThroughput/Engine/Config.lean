import Mathlib

/-! # The configuration

The knobs the modelled functions read. Durations are nanoseconds; the directory and the two sleep
lengths are left out. -/

namespace FluxThroughput.Engine.Config

structure FluxConfig where
  ringCapacity : ℕ
  flushMaxBatch : ℕ
  flushInterval : ℕ
  walFsync : Bool
  storeRetryLimit : ℕ
  deriving DecidableEq, Repr

namespace FluxConfig

protected def default : FluxConfig :=
  { ringCapacity := 65536, flushMaxBatch := 4096, flushInterval := 50000000, walFsync := true,
    storeRetryLimit := 5 }

/-- The checks made at start, in order, with their messages. -/
def validate (c : FluxConfig) : Except String Unit :=
  if c.ringCapacity = 0 then .error "ring_capacity must be >= 1"
  else if c.flushMaxBatch = 0 then .error "flush_max_batch must be >= 1"
  else if c.flushInterval = 0 then .error "flush_interval must be > 0"
  else if c.storeRetryLimit = 0 then .error "store_retry_limit must be >= 1"
  else .ok ()

/-- **What validation guarantees**: the four bounds the crate relies on, and no more. -/
theorem validate_eq_ok_iff {c : FluxConfig} : c.validate = .ok () ↔
    0 < c.ringCapacity ∧ 0 < c.flushMaxBatch ∧ 0 < c.flushInterval ∧ 0 < c.storeRetryLimit := by
  unfold validate
  split_ifs <;> simp <;> omega

/-- The defaults pass their own checks. -/
theorem validate_default : FluxConfig.default.validate = .ok () := rfl

end FluxConfig

/-- **A configuration that has passed its checks.** -/
structure ValidConfig extends FluxConfig where
  valid : toFluxConfig.validate = .ok ()

/-- The defaults, but with a small ring and one state to a batch. -/
def oneByOne : ValidConfig :=
  ⟨{ FluxConfig.default with ringCapacity := 8, flushMaxBatch := 1 }, rfl⟩

theorem ValidConfig.flushMaxBatch_pos (c : ValidConfig) : 0 < c.flushMaxBatch :=
  (FluxConfig.validate_eq_ok_iff.mp c.valid).2.1

theorem ValidConfig.storeRetryLimit_pos (c : ValidConfig) : 0 < c.storeRetryLimit :=
  (FluxConfig.validate_eq_ok_iff.mp c.valid).2.2.2

end FluxThroughput.Engine.Config
