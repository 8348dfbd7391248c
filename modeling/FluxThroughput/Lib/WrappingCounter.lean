import FluxThroughput.Lib.Pow2

/-! # Counters that wrap

A counter kept in a word of `w` bits shows its value modulo `2 ^ w`. Of two values less than half the
range apart the words still tell the signed distance (`toInt_sub`), and of two values less than the
range apart whether they are equal (`ofNat_inj`). Their order they tell exactly when both counters
have wrapped equally often (`ofNat_le_iff`). -/

namespace FluxThroughput.Lib.WrappingCounter

open FluxThroughput.Lib.Pow2

variable {w x y : ℕ}

/-- **The signed distance of two words** is that of their values. -/
theorem toInt_sub (h1 : x < y + 2 ^ (w - 1)) (h2 : y ≤ x + 2 ^ (w - 1)) (hw : 0 < w) :
    (BitVec.ofNat w x - BitVec.ofNat w y).toInt = (x : ℤ) - y := by
  have hpow : 2 ^ w = 2 * 2 ^ (w - 1) := by
    rw [← Nat.pow_succ']
    congr 1
    omega
  rw [BitVec.toInt_sub, BitVec.toInt_ofNat', BitVec.toInt_ofNat', Int.bmod_sub_bmod,
    Int.sub_bmod_bmod]
  exact Int.bmod_eq_of_le_mul_two (by omega) (by omega)

/-- Values that differ by less than the range have different words. -/
theorem ofNat_inj (h1 : x < y + 2 ^ w) (h2 : y < x + 2 ^ w) :
    BitVec.ofNat w x = BitVec.ofNat w y ↔ x = y := by
  constructor
  · intro h
    have hmod := congrArg BitVec.toNat h
    rw [BitVec.toNat_ofNat, BitVec.toNat_ofNat] at hmod
    exact eq_of_mod_eq hmod h1 h2
  · rintro rfl
    rfl

/-- How often a counter has wrapped, and what its word shows. -/
theorem eq_wraps (w x : ℕ) : x = 2 ^ w * (x / 2 ^ w) + (BitVec.ofNat w x).toNat := by
  rw [BitVec.toNat_ofNat, Nat.div_add_mod]

/-- A leading counter has wrapped as often as the one it leads, or once more. -/
theorem wraps_le (hle : x ≤ y) (hlt : y < x + 2 ^ w) :
    y / 2 ^ w = x / 2 ^ w ∨ y / 2 ^ w = x / 2 ^ w + 1 := by
  have h1 : x / 2 ^ w ≤ y / 2 ^ w := Nat.div_le_div_right hle
  have h2 : y / 2 ^ w ≤ (x + 2 ^ w) / 2 ^ w := Nat.div_le_div_right hlt.le
  rw [Nat.add_div_right _ (Nat.two_pow_pos w)] at h2
  omega

/-- **The order of two words** is that of their values exactly when both have wrapped equally often. -/
theorem ofNat_le_iff (hle : x ≤ y) (hlt : y < x + 2 ^ w) :
    BitVec.ofNat w x ≤ BitVec.ofNat w y ↔ y / 2 ^ w = x / 2 ^ w := by
  have hx := eq_wraps w x
  have hy := eq_wraps w y
  rw [BitVec.le_def]
  rcases wraps_le hle hlt with h | h
  · rw [h] at hy
    exact ⟨fun _ => h, fun _ => by omega⟩
  · rw [h, Nat.mul_add, Nat.mul_one] at hy
    exact ⟨fun _ => by omega, fun h' => by omega⟩

/-- The distance of two words in order. -/
theorem toNat_sub (hle : x ≤ y) (hlt : y < x + 2 ^ w) (h : y / 2 ^ w = x / 2 ^ w) :
    (BitVec.ofNat w y - BitVec.ofNat w x).toNat = y - x := by
  have hx := eq_wraps w x
  have hy := eq_wraps w y
  rw [BitVec.toNat_sub_of_le ((ofNat_le_iff hle hlt).mpr h)]
  rw [h] at hy
  omega

end FluxThroughput.Lib.WrappingCounter
