import FluxThroughput.Domain.Damage
import FluxThroughput.Lib.CrcPolynomial

/-! # The checksum is the standard CRC-32

`crc32Loop` is the source's loop over the table that its own loop has filled, with the index checked. It
computes `crc32`, which is the register fed bit by bit; what it leaves is the remainder of the message
modulo the polynomial of the standard. -/

namespace FluxThroughput.Domain.Checksum

open FluxThroughput.Domain.Types FluxThroughput.Domain.Frame FluxThroughput.Domain.Damage
open FluxThroughput.Lib.Crc FluxThroughput.Lib.CrcPolynomial Polynomial

/-! ### The table -/

/-- The inner loop: eight bits of one entry. -/
def tableEntry : ℕ → UInt32 → UInt32
  | 0, crc => crc
  | n + 1, crc => tableEntry n (if crc &&& 1 ≠ 0 then (crc >>> 1) ^^^ 0xEDB88320 else crc >>> 1)

/-- The outer loop: `n` entries from the index `i` on. -/
def fillTable : ℕ → ℕ → List UInt32 → List UInt32
  | 0, _, table => table
  | n + 1, i, table => fillTable n (i + 1) (table.set i (tableEntry 8 (UInt32.ofNat i)))

/-- `crc32_table`. -/
def builtTable : List UInt32 := fillTable 256 0 (List.replicate 256 0)

/-- `crc32` over the built table: `none` where an index would be out of range. -/
def crc32Loop (bytes : Bytes) : Option UInt32 :=
  (bytes.foldlM (fun (crc : UInt32) b =>
    (builtTable[((crc ^^^ b.toUInt32) &&& 0xFF).toNat]?).map ((crc >>> 8) ^^^ ·)) 0xFFFFFFFF).map
      (· ^^^ 0xFFFFFFFF)

theorem tableEntry_eq : ∀ (n : ℕ) (crc : UInt32), tableEntry n crc = tableStep^[n] crc
  | 0, _ => rfl
  | n + 1, crc => by
    rw [tableEntry, tableEntry_eq n, Function.iterate_succ_apply]
    rfl

/-- What the outer loop has filled when it is done. -/
theorem getElem_fillTable : ∀ {n i : ℕ} {table : List UInt32} {j : ℕ}, i + n ≤ table.length →
    (fillTable n i table)[j]? = if i ≤ j ∧ j < i + n then some (crc32Table j) else table[j]?
  | 0, i, table, j, _ => by
    rw [fillTable, if_neg (by omega)]
  | n + 1, i, table, j, hlen => by
    have hset : i + 1 + n ≤ (table.set i (tableEntry 8 (UInt32.ofNat i))).length := by
      rw [List.length_set]
      omega
    rw [fillTable, getElem_fillTable hset]
    rcases Nat.lt_trichotomy j i with hlt | rfl | hgt
    · rw [if_neg (by omega), if_neg (by omega), List.getElem?_set_ne (by omega)]
    · rw [if_neg (by omega), if_pos (by omega), List.getElem?_set_self (by omega), tableEntry_eq]
      rfl
    · by_cases hj : j < i + 1 + n
      · rw [if_pos (by omega), if_pos (by omega)]
      · rw [if_neg (by omega), if_neg (by omega), List.getElem?_set_ne (by omega)]

theorem getElem_builtTable {j : ℕ} (hj : j < 256) : builtTable[j]? = some (crc32Table j) := by
  have hlen : 0 + 256 ≤ (List.replicate 256 (0 : UInt32)).length := by rw [List.length_replicate]
  rw [builtTable, getElem_fillTable hlen, if_pos (by omega)]

/-- A masked index is in the table. -/
theorem index_lt (x : UInt32) : (x &&& 0xFF).toNat < 256 := by
  rw [UInt32.toNat_and]
  exact Nat.lt_succ_of_le Nat.and_le_right

/-- **The loop over the built table** never indexes out of range, and computes `crc32`. -/
theorem crc32Loop_eq (bytes : Bytes) : crc32Loop bytes = some (crc32 bytes) := by
  have hfold : ∀ (bytes : Bytes) (crc : UInt32), bytes.foldlM (fun (crc : UInt32) b =>
      (builtTable[((crc ^^^ b.toUInt32) &&& 0xFF).toNat]?).map ((crc >>> 8) ^^^ ·)) crc =
      some (bytes.foldl (fun (crc : UInt32) b =>
        (crc >>> 8) ^^^ crc32Table ((crc ^^^ b.toUInt32) &&& 0xFF).toNat) crc) := by
    intro bytes
    induction bytes with
    | nil => exact fun _ => rfl
    | cons b bytes ih =>
      intro crc
      rw [List.foldlM_cons, getElem_builtTable (index_lt _), List.foldl_cons]
      exact ih _
  rw [crc32Loop, hfold]
  rfl

/-! ### The standard -/

/-- `X ^ 32` and the terms of `0x04C11DB7`, which is `0xEDB88320` reflected. -/
theorem generator_poly : generator poly = X ^ 32 + X ^ 26 + X ^ 23 + X ^ 22 + X ^ 16 + X ^ 12 + X ^ 11 +
    X ^ 10 + X ^ 8 + X ^ 7 + X ^ 5 + X ^ 4 + X ^ 2 + X + 1 := by
  have hbit : ∀ i, poly.getLsbD i = Nat.testBit 0xEDB88320 i := fun i => rfl
  unfold generator ofRegister
  simp only [Finset.sum_range_succ, Finset.sum_range_zero, hbit, coeffOf, Nat.testBit]
  simp
  ring

/-- The register fed bit by bit. -/
theorem register_bits (bs : Bytes) : register bs = (bits bs).foldl (feedBit poly) 0xFFFFFFFF#32 :=
  foldl_feed (by omega) bs _

/-- **The checksum is CRC-32/ISO-HDLC**: the loop over the table computes the register that starts from
ones, is fed the bits of the message with the reflected polynomial, and is complemented; this register is
the remainder of the message, behind the ones it starts from, modulo the polynomial of the standard. -/
theorem crc32_standard (bs : Bytes) :
    crc32Loop bs = some (crc32 bs) ∧
      (crc32 bs).toBitVec = (bits bs).foldl (feedBit poly) 0xFFFFFFFF#32 ^^^ 0xFFFFFFFF#32 ∧
      ofRegister ((crc32 bs).toBitVec ^^^ 0xFFFFFFFF#32) =
        (X ^ (8 * bs.length) * ofRegister 0xFFFFFFFF#32 + X ^ 32 * ofBits (bits bs)) %ₘ
          (X ^ 32 + X ^ 26 + X ^ 23 + X ^ 22 + X ^ 16 + X ^ 12 + X ^ 11 + X ^ 10 + X ^ 8 + X ^ 7 + X ^ 5 +
            X ^ 4 + X ^ 2 + X + 1) := by
  have hbits : (crc32 bs).toBitVec =
      (bits bs).foldl (feedBit poly) 0xFFFFFFFF#32 ^^^ 0xFFFFFFFF#32 := by
    rw [toBitVec_crc32, register_bits]
  refine ⟨crc32Loop_eq bs, hbits, ?_⟩
  rw [hbits, BitVec.xor_assoc, BitVec.xor_self, BitVec.xor_zero, register_eq_remainder (by omega),
    length_bits, generator_poly]

end FluxThroughput.Domain.Checksum
