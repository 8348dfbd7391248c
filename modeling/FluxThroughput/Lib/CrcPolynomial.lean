import FluxThroughput.Lib.Crc

/-! # Cyclic redundancy checks as remainders

A register of `w` bits is a polynomial over the field of two elements, its low bit the leading coefficient;
so is a message, its first bit the leading coefficient. A step of the register multiplies by `X` and
subtracts the generator when the degree has become `w` (`ofRegister_step`). So what a message leaves in the
register is a remainder modulo the generator (`register_eq_remainder`). -/

namespace FluxThroughput.Lib.CrcPolynomial

open FluxThroughput.Lib.Crc Polynomial

variable {w : ℕ} {poly : BitVec w}

/-- A bit as a coefficient. -/
def coeffOf (b : Bool) : ZMod 2 := if b then 1 else 0

theorem coeffOf_xor (a b : Bool) : coeffOf (a ^^ b) = coeffOf a + coeffOf b := by
  cases a <;> cases b <;> decide

/-- The polynomial of a register: its low bit is the leading coefficient. -/
noncomputable def ofRegister (c : BitVec w) : (ZMod 2)[X] :=
  ∑ i ∈ Finset.range w, C (coeffOf (c.getLsbD (w - 1 - i))) * X ^ i

/-- The polynomial that a register divides by. -/
noncomputable def generator (poly : BitVec w) : (ZMod 2)[X] := X ^ w + ofRegister poly

/-- The polynomial of a message: its first bit is the leading coefficient. -/
noncomputable def ofBits (bs : List Bool) : (ZMod 2)[X] := bs.foldl (fun m b => X * m + C (coeffOf b)) 0

theorem coeff_ofRegister (c : BitVec w) (i : ℕ) :
    (ofRegister c).coeff i = if i < w then coeffOf (c.getLsbD (w - 1 - i)) else 0 := by
  unfold ofRegister
  rw [finsetSum_coeff]
  simp only [coeff_C_mul, coeff_X_pow, mul_ite, mul_one, mul_zero]
  rw [Finset.sum_ite_eq]
  simp only [Finset.mem_range]

theorem degree_ofRegister (c : BitVec w) : (ofRegister c).degree < w := by
  rw [degree_lt_iff_coeff_zero]
  intro i hi
  rw [coeff_ofRegister, if_neg (by omega)]

theorem ofRegister_xor (a b : BitVec w) : ofRegister (a ^^^ b) = ofRegister a + ofRegister b := by
  ext i
  rw [coeff_add, coeff_ofRegister, coeff_ofRegister, coeff_ofRegister, BitVec.getLsbD_xor]
  split_ifs
  · exact coeffOf_xor _ _
  · exact (add_zero 0).symm

theorem monic_generator (poly : BitVec w) : (generator poly).Monic :=
  monic_X_pow_add (degree_ofRegister poly)

/-- **A step multiplies by `X`** and subtracts the generator if the degree has become `w`. -/
theorem ofRegister_step (poly : BitVec w) (hw : 0 < w) (c : BitVec w) :
    X * ofRegister c = C (coeffOf (c.getLsbD 0)) * generator poly + ofRegister (step poly c) := by
  have hshift : ∀ c : BitVec w,
      X * ofRegister c = C (coeffOf (c.getLsbD 0)) * X ^ w + ofRegister (c >>> 1) := by
    intro c
    ext i
    rw [coeff_add, coeff_C_mul, coeff_X_pow, coeff_ofRegister, BitVec.getLsbD_ushiftRight]
    rcases i with _ | i
    · rw [coeff_X_mul_zero, if_neg hw.ne, if_pos hw, BitVec.getLsbD_of_ge c (1 + (w - 1 - 0)) (by omega)]
      simp [coeffOf]
    · rw [coeff_X_mul, coeff_ofRegister]
      rcases Nat.lt_trichotomy (i + 1) w with hlt | heq | hgt
      · rw [if_pos (by omega), if_neg (by omega), if_pos hlt, mul_zero, zero_add]
        congr 2
        omega
      · rw [if_pos (by omega), if_pos heq, if_neg (by omega), mul_one, add_zero]
        congr 2
        omega
      · rw [if_neg (by omega), if_neg (by omega), if_neg (by omega), mul_zero, add_zero]
  rw [hshift c]
  unfold step generator
  rcases c.getLsbD 0 with _ | _
  · simp [coeffOf]
  · have h2 : ofRegister poly + ofRegister poly = 0 := CharTwo.add_self_eq_zero _
    simp only [coeffOf, if_true, C_1, one_mul]
    rw [ofRegister_xor, add_assoc, add_left_comm (ofRegister poly), h2, add_zero]

/-- One bit at the low end is the leading coefficient. -/
theorem ofRegister_bit (hw : 0 < w) (b : Bool) :
    X * ofRegister ((BitVec.ofBool b).setWidth w) = C (coeffOf b) * X ^ w := by
  ext i
  rw [coeff_C_mul, coeff_X_pow]
  rcases i with _ | i
  · rw [coeff_X_mul_zero, if_neg hw.ne, mul_zero]
  · rw [coeff_X_mul, coeff_ofRegister, BitVec.getLsbD_setWidth, BitVec.getLsbD_ofBool]
    rcases Nat.lt_trichotomy (i + 1) w with hlt | heq | hgt
    · have h1 : ¬ w - 1 - i = 0 := by omega
      simp [h1, hlt.ne, coeffOf]
    · have h1 : w - 1 - i = 0 := by omega
      have h2 : i < w := by omega
      simp [h1, h2, hw, heq]
    · rw [if_neg (by omega), if_neg (by omega), mul_zero]

/-- **One message bit**: the register is multiplied by `X`, with the bit at the top, and reduced. -/
theorem ofRegister_feedBit (poly : BitVec w) (hw : 0 < w) (c : BitVec w) (b : Bool) : ∃ q,
    X * ofRegister c + C (coeffOf b) * X ^ w = q * generator poly + ofRegister (feedBit poly c b) := by
  have h := ofRegister_step poly hw (c ^^^ (BitVec.ofBool b).setWidth w)
  rw [ofRegister_xor, mul_add, ofRegister_bit hw] at h
  exact ⟨_, h⟩

theorem ofBits_concat (bs : List Bool) (b : Bool) : ofBits (bs ++ [b]) = X * ofBits bs + C (coeffOf b) := by
  rw [ofBits, List.foldl_append]
  rfl

/-- **A message**: what is left is the message behind the register it started with, reduced. -/
theorem ofRegister_foldl (poly : BitVec w) (hw : 0 < w) (c : BitVec w) (bs : List Bool) : ∃ q,
    X ^ bs.length * ofRegister c + X ^ w * ofBits bs =
      q * generator poly + ofRegister (bs.foldl (feedBit poly) c) := by
  induction bs using List.reverseRecOn with
  | nil => exact ⟨0, by simp [ofBits]⟩
  | append_singleton bs b ih =>
    obtain ⟨q, hq⟩ := ih
    obtain ⟨q', hq'⟩ := ofRegister_feedBit poly hw (bs.foldl (feedBit poly) c) b
    refine ⟨X * q + q', ?_⟩
    have hlen : (bs ++ [b]).length = bs.length + 1 := List.length_append
    rw [List.foldl_append, List.foldl_cons, List.foldl_nil, ofBits_concat, hlen]
    calc X ^ (bs.length + 1) * ofRegister c + X ^ w * (X * ofBits bs + C (coeffOf b))
        = X * (X ^ bs.length * ofRegister c + X ^ w * ofBits bs) + C (coeffOf b) * X ^ w := by ring
      _ = X * (q * generator poly) + (X * ofRegister (bs.foldl (feedBit poly) c) +
            C (coeffOf b) * X ^ w) := by rw [hq]; ring
      _ = _ := by rw [hq']; ring

/-- **The register is the remainder** of the message behind the register it started with. -/
theorem register_eq_remainder (hw : 0 < w) (c : BitVec w) (bs : List Bool) :
    ofRegister (bs.foldl (feedBit poly) c) =
      (X ^ bs.length * ofRegister c + X ^ w * ofBits bs) %ₘ generator poly := by
  obtain ⟨q, hq⟩ := ofRegister_foldl poly hw c bs
  refine (div_modByMonic_unique q _ (monic_generator poly) ⟨?_, ?_⟩).2.symm
  · rw [hq, add_comm, mul_comm]
  · have hdeg : (generator poly).degree = w := by
      unfold generator
      rw [degree_add_eq_left_of_degree_lt (by rw [degree_X_pow]; exact degree_ofRegister poly), degree_X_pow]
    rw [hdeg]
    exact degree_ofRegister _

end FluxThroughput.Lib.CrcPolynomial
