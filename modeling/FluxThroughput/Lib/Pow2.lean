import Mathlib

/-! # Rounding up to a power of two, and masking

`nextPowerOfTwo n` is the least power of two that is at least `n`. For a power of two `c`, masking
with `c - 1` is reduction modulo `c`; positions less than `c` apart have different residues. -/

namespace FluxThroughput.Lib.Pow2

/-- The least power of two that is at least `n`. -/
def nextPowerOfTwo (n : ℕ) : ℕ := if n ≤ 1 then 1 else 2 ^ (Nat.log2 (n - 1) + 1)

theorem exists_nextPowerOfTwo (n : ℕ) : ∃ k, nextPowerOfTwo n = 2 ^ k := by
  unfold nextPowerOfTwo
  split_ifs
  · exact ⟨0, rfl⟩
  · exact ⟨_, rfl⟩

theorem le_nextPowerOfTwo (n : ℕ) : n ≤ nextPowerOfTwo n := by
  unfold nextPowerOfTwo
  split_ifs with h
  · exact h
  · have := Nat.lt_log2_self (n := n - 1)
    omega

theorem and_mask_eq_mod {c : ℕ} (hc : ∃ k, c = 2 ^ k) (n : ℕ) : n &&& (c - 1) = n % c := by
  obtain ⟨k, rfl⟩ := hc
  exact Nat.and_two_pow_sub_one_eq_mod n k

/-- Two positions with the same residue that are less than `c` apart are equal. -/
theorem eq_of_mod_eq {c p q : ℕ} (h : p % c = q % c) (hpq : p < q + c) (hqp : q < p + c) :
    p = q := by
  rcases le_total p q with hle | hle
  · have hd : c ∣ q - p := (Nat.modEq_iff_dvd' hle).mp h
    have := Nat.eq_zero_of_dvd_of_lt hd (by omega)
    omega
  · have hd : c ∣ p - q := (Nat.modEq_iff_dvd' hle).mp h.symm
    have := Nat.eq_zero_of_dvd_of_lt hd (by omega)
    omega

end FluxThroughput.Lib.Pow2
