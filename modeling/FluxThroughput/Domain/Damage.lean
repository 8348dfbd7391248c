import FluxThroughput.Domain.Decode
import FluxThroughput.Lib.Crc

/-! # Damage to a frame

The checksum is the register of `Lib.Crc` for the reflected polynomial `0xEDB88320`, fed a byte at a time
from the table. A frame with its checksum leaves the same register whatever its record is (`residue`), so
no two frames of one length differ in one window of four bytes only; and a damaged frame that is accepted
has the length it had, as four bytes do not reach both length fields. -/

namespace FluxThroughput.Domain.Damage

open FluxThroughput.Domain.Types FluxThroughput.Domain.Frame FluxThroughput.Domain.Decode
open FluxThroughput.Lib.LittleEndian FluxThroughput.Lib.Crc

/-! ### The checksum as a register -/

/-- `0xEDB8_8320`. -/
def poly : BitVec 32 := 0xEDB88320#32

theorem msb_poly : poly.msb = true := by decide

/-- The register after some bytes. -/
def register (bs : Bytes) : BitVec 32 := bs.foldl (feed poly) 0xFFFFFFFF#32

theorem and_one_ne_zero_iff (c : UInt32) : (c &&& 1 ≠ 0) ↔ c.toBitVec.getLsbD 0 = true := by
  rw [Ne, ← UInt32.toBitVec_inj, UInt32.toBitVec_and]
  have h : c.toBitVec &&& (1 : UInt32).toBitVec =
      BitVec.setWidth 32 (BitVec.ofBool (c.toBitVec.getLsbD 0)) :=
    BitVec.and_one_eq_setWidth_ofBool_getLsbD
  rw [h]
  rcases c.toBitVec.getLsbD 0 with _ | _ <;> decide

theorem toBitVec_tableStep (c : UInt32) : (tableStep c).toBitVec = step poly c.toBitVec := by
  unfold tableStep step
  by_cases h : c &&& 1 ≠ 0
  · rw [if_pos h, if_pos ((and_one_ne_zero_iff c).mp h)]
    rfl
  · rw [if_neg h, if_neg (mt (and_one_ne_zero_iff c).mpr h)]
    rfl

theorem toBitVec_iterate : ∀ (n : ℕ) (c : UInt32),
    (tableStep^[n] c).toBitVec = (step poly)^[n] c.toBitVec
  | 0, _ => rfl
  | n + 1, c => by
    rw [Function.iterate_succ_apply, Function.iterate_succ_apply, toBitVec_iterate n,
      toBitVec_tableStep]

/-- **One byte from the table** is eight steps of the register. -/
theorem toBitVec_tableByte (c : UInt32) (b : UInt8) :
    ((c >>> 8) ^^^ crc32Table ((c ^^^ b.toUInt32) &&& 0xFF).toNat).toBitVec = feed poly c.toBitVec b := by
  have hb : b.toBitVec.setWidth 32 >>> 8 = 0#32 := by
    apply BitVec.eq_of_getLsbD_eq
    intro i _
    rw [BitVec.getLsbD_ushiftRight, BitVec.getLsbD_setWidth,
      BitVec.getLsbD_of_ge b.toBitVec (8 + i) (by omega), Bool.and_false, BitVec.getLsbD_zero]
  unfold crc32Table feed
  rw [UInt32.ofNat_toNat, iterate_eight, UInt32.toBitVec_xor, toBitVec_iterate,
    BitVec.ushiftRight_xor_distrib, hb, BitVec.xor_zero]
  rfl

theorem toBitVec_foldl : ∀ (bs : Bytes) (c : UInt32),
    (bs.foldl (fun (crc : UInt32) b =>
      let idx := ((crc ^^^ b.toUInt32) &&& 0xFF).toNat
      (crc >>> 8) ^^^ crc32Table idx) c).toBitVec = bs.foldl (feed poly) c.toBitVec
  | [], _ => rfl
  | b :: bs, c => by
    rw [List.foldl_cons, List.foldl_cons, toBitVec_foldl bs, toBitVec_tableByte]

theorem toBitVec_crc32 (bs : Bytes) : (crc32 bs).toBitVec = register bs ^^^ 0xFFFFFFFF#32 := by
  unfold crc32
  rw [UInt32.toBitVec_xor, toBitVec_foldl]
  rfl

/-- A stored word reads as itself. -/
theorem word_le32 (x : UInt32) : word (le32 x) = x.toBitVec := by
  unfold word le32
  rw [ofLe_toLe, Nat.mod_eq_of_lt (by exact x.toNat_lt)]
  exact BitVec.ofNat_toNat 32 x.toBitVec

/-- **The residue**: every frame leaves the same register. -/
theorem residue (r : WalRecord) : register (encode r) = (step poly)^[32] 0xFFFFFFFF#32 := by
  have hlen : 8 * (le32 (crc32 (body r))).length = 32 := by rw [length_le32]
  have hcancel : register (body r) ^^^ (register (body r) ^^^ 0xFFFFFFFF#32) = 0xFFFFFFFF#32 := by
    rw [← BitVec.xor_assoc, BitVec.xor_self, BitVec.zero_xor]
  have happend : register (encode r) =
      (le32 (crc32 (body r))).foldl (feed poly) (register (body r)) := by
    unfold encode register
    rw [List.foldl_append]
  rw [happend, register_eq _ hlen.le, hlen, word_le32, toBitVec_crc32, hcancel]

/-! ### Damage in one window -/

/-- The strings agree outside the four bytes from `i`. -/
def AgreeOutside (i : ℕ) (e f : Bytes) : Prop := ∀ j, j < i ∨ i + 4 ≤ j → f[j]? = e[j]?

section Window
variable {e f s : Bytes} {i : ℕ}

/-- A window that reaches past the end may be moved down. -/
theorem AgreeOutside.move (h : AgreeOutside i e f) (hlen : f.length = e.length)
    (hle : 4 ≤ e.length) : ∃ k, k + 4 ≤ e.length ∧ AgreeOutside k e f := by
  by_cases hi : i + 4 ≤ e.length
  · exact ⟨i, hi, h⟩
  · refine ⟨e.length - 4, by omega, fun j hj => ?_⟩
    rcases hj with hj | hj
    · exact h j (by omega)
    · rw [List.getElem?_eq_none (by omega), List.getElem?_eq_none (by omega)]

/-- **No two frames differ in one window only.** -/
theorem eq_of_agreeOutside {r r' : WalRecord} (hlen : (encode r').length = (encode r).length)
    (h : AgreeOutside i (encode r) (encode r')) : encode r' = encode r := by
  have hlong : 4 ≤ (encode r).length := by
    rw [length_encode]
    show 4 ≤ 36 + r.blob.length + 4
    omega
  obtain ⟨k, hk, hagree⟩ := h.move hlen hlong
  have hsplit : ∀ bytes : Bytes, k + 4 ≤ bytes.length → bytes =
      slice bytes 0 k ++ (slice bytes k (k + 4) ++ slice bytes (k + 4) bytes.length) := by
    intro bytes hb
    rw [← slice_split (by omega) hb, ← slice_split (by omega) (by omega), slice_self]
  have hbefore : slice (encode r') 0 k = slice (encode r) 0 k :=
    slice_congr fun p _ hp => hagree p (Or.inl hp)
  have hafter : slice (encode r') (k + 4) (encode r').length =
      slice (encode r) (k + 4) (encode r).length := by
    rw [hlen]
    exact slice_congr fun p hp _ => hagree p (Or.inr hp)
  have hin : ∀ bytes : Bytes, k + 4 ≤ bytes.length → (slice bytes k (k + 4)).length = 4 := by
    intro bytes hb
    rw [length_slice hb]
    omega
  have h4 := hin (encode r) hk
  have h4' := hin (encode r') (by omega)
  have hregister : register (encode r') = register (encode r) := by rw [residue, residue]
  rw [hsplit (encode r') (by omega), hsplit (encode r) hk, hbefore, hafter] at hregister
  have hwindow := window_injective msb_poly (h4'.trans h4.symm) (by omega) hregister
  rw [hsplit (encode r') (by omega), hsplit (encode r) hk, hbefore, hafter, hwindow]

/-- Four bytes do not reach both length fields: an accepted string has the length it had. -/
theorem frameLen_of_agreeOutside {r r' : WalRecord} {n : ℕ} (hfits : Fits r)
    (hlen : f.length = (encode r).length) (h : AgreeOutside i (encode r) f)
    (hdec : decode (f ++ s) = .ok (r', n)) : n = frameLen r := by
  have ha := decode_inv hdec
  have hframe : frameLen r = 36 + r.blob.length + 4 := rfl
  rw [length_encode] at hlen
  have hslice : ∀ p q, q ≤ f.length → (q ≤ i ∨ i + 4 ≤ p) →
      slice (f ++ s) p q = slice (encode r) p q := by
    intro p q hq hpq
    have hf : slice (f ++ s) p q = slice f p q := by
      rw [← slice_take hq, List.take_left]
    rw [hf]
    exact slice_congr fun j hj1 hj2 => h j (by omega)
  have hh : Headed (encode r) r := by
    have := headed_encode r []
    rwa [List.append_nil] at this
  have hlt : frameLen r < 2 ^ 32 := hfits
  by_cases hi : i < 8
  · have hblob : n = 36 + (ofLe32 (slice (f ++ s) 32 36)).toNat + 4 := ha.payloadLen
    rw [hslice 32 36 (by omega) (by omega), hh.blobLen, toNat_ofNat_of_lt (by omega)] at hblob
    exact hblob
  · have hfield := ha.frameLen
    rw [hslice 4 8 (by omega) (by omega), hh.frameLen, toNat_ofNat_of_lt hlt] at hfield
    exact hfield.symm

end Window

/-- **Damage within at most four consecutive bytes is detected**, whatever follows the frame. -/
theorem damage_detected {r : WalRecord} {f : Bytes} (s : Bytes) (hfits : Fits r)
    (hlen : f.length = (encode r).length) (hne : f ≠ encode r)
    (hwindow : ∃ i m, m ≤ 4 ∧ ∀ j, j < i ∨ i + m ≤ j → f[j]? = (encode r)[j]?) :
    ∃ e, decode (f ++ s) = .error e := by
  obtain ⟨i, m, hm, hout⟩ := hwindow
  have hi : AgreeOutside i (encode r) f := fun j hj => hout j (by omega)
  rcases hdec : decode (f ++ s) with e | ⟨r', n⟩
  · exact ⟨e, rfl⟩
  · exfalso
    have ha := decode_inv hdec
    have hn : n = f.length := by
      rw [hlen, length_encode]
      exact frameLen_of_agreeOutside hfits hlen hi hdec
    have hf : f = encode r' := by
      rw [encode_eq, ← ha.take_eq, hn, List.take_left]
    subst hf
    exact hne (eq_of_agreeOutside hlen hi)

def intact : WalRecord := { lsn := 1, playerId := 7, version := 1, blob := [1, 2, 3] }

/-- A frame whose length field is damaged, and another frame after it. -/
theorem damage_detected_length : ∃ e, decode ((encode intact).set 4 44 ++ encode intact) = .error e := by
  refine damage_detected (r := intact) (encode intact) (by decide) List.length_set
    (by decide +kernel) ⟨4, 1, by omega, fun j hj => List.getElem?_set_ne (by omega)⟩

end FluxThroughput.Domain.Damage
