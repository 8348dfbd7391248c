import Mathlib

/-! # The linear order of 64-bit words

Core has the order of `UInt64` and its decision procedures; Mathlib's order theory (minima of
finite sets, `max`, the `order` tactic) needs it as a `LinearOrder`. -/

namespace FluxThroughput.Lib.U64

instance linearOrder : LinearOrder UInt64 where
  le_refl := UInt64.le_refl
  le_trans _ _ _ := UInt64.le_trans
  lt_iff_le_not_ge a b := by grind
  le_antisymm _ _ := UInt64.le_antisymm
  le_total := UInt64.le_total
  toDecidableLE := inferInstance
  toDecidableEq := inferInstance
  toDecidableLT := inferInstance

/-- `saturating_add(1)`: one past `x`, or `x` itself at the top of the range. -/
def saturatingSucc (x : UInt64) : UInt64 := if x = UInt64.ofNat (UInt64.size - 1) then x else x + 1

/-- Below a nonzero word is the same as up to its predecessor. -/
theorem lt_iff_le_sub_one {a b : UInt64} (hb : b ≠ 0) : a < b ↔ a ≤ b - 1 := by
  have h0 : b.toNat ≠ 0 := fun h => hb (UInt64.toNat_inj.mp (by simpa using h))
  have h1 : (b - 1).toNat = b.toNat - 1 := by
    rw [UInt64.toNat_sub_of_le b 1 (UInt64.le_iff_toNat_le.mpr (by
      have : (1 : UInt64).toNat = 1 := rfl
      omega))]
    rfl
  rw [UInt64.lt_iff_toNat_lt, UInt64.le_iff_toNat_le, h1]
  omega

end FluxThroughput.Lib.U64
