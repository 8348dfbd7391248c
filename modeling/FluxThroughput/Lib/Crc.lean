import FluxThroughput.Lib.LittleEndian

/-! # Reflected cyclic redundancy checks

A register of `w` bits is shifted down bit by bit, and the polynomial is added whenever a one falls out.
The step is linear in exclusive or, and injective if the polynomial has its top bit. So a string of at most
`w` bits that is fed to the register acts as the word that it reads as (`register_eq`), and two strings
that differ only in one window of `w` bits leave different registers (`window_injective`). -/

namespace FluxThroughput.Lib.Crc

open FluxThroughput.Lib.LittleEndian

variable {w : ℕ}

/-! ### One bit -/

/-- One bit of the register. -/
def step (poly c : BitVec w) : BitVec w := if c.getLsbD 0 then (c >>> 1) ^^^ poly else c >>> 1

section Step
variable {poly : BitVec w}

/-- **The step is linear.** -/
theorem step_xor (a b : BitVec w) : step poly (a ^^^ b) = step poly a ^^^ step poly b := by
  have hcancel : ∀ x y : BitVec w, (x ^^^ poly) ^^^ (y ^^^ poly) = x ^^^ y := by
    intro x y
    have hswap : (x ^^^ poly) ^^^ (y ^^^ poly) = (x ^^^ y) ^^^ (poly ^^^ poly) := by ac_rfl
    rw [hswap, BitVec.xor_self, BitVec.xor_zero]
  unfold step
  rw [BitVec.getLsbD_xor, BitVec.ushiftRight_xor_distrib]
  rcases a.getLsbD 0 with _ | _ <;> rcases b.getLsbD 0 with _ | _
  · rfl
  · show (a >>> 1 ^^^ b >>> 1) ^^^ poly = a >>> 1 ^^^ (b >>> 1 ^^^ poly)
    ac_rfl
  · show (a >>> 1 ^^^ b >>> 1) ^^^ poly = (a >>> 1 ^^^ poly) ^^^ b >>> 1
    ac_rfl
  · exact (hcancel _ _).symm

theorem iterate_xor : ∀ (n : ℕ) (a b : BitVec w),
    (step poly)^[n] (a ^^^ b) = (step poly)^[n] a ^^^ (step poly)^[n] b
  | 0, _, _ => rfl
  | n + 1, a, b => by
    rw [Function.iterate_succ_apply, Function.iterate_succ_apply, Function.iterate_succ_apply,
      step_xor, iterate_xor n]

/-- The top bit of the result is the bit that fell out. -/
theorem msb_step (hp : poly.msb = true) (c : BitVec w) : (step poly c).msb = c.getLsbD 0 := by
  have hshift : (c >>> 1).msb = false := by
    rw [BitVec.msb_ushiftRight]
    simp
  unfold step
  rcases h : c.getLsbD 0 with _ | _
  · exact hshift
  · rw [if_pos rfl, BitVec.msb_xor, hshift, hp]
    rfl

theorem eq_zero_of_step (hp : poly.msb = true) {c : BitVec w} (h : step poly c = 0#w) : c = 0#w := by
  have hlow : c.getLsbD 0 = false := by
    rw [← msb_step hp, h]
    exact BitVec.msb_zero
  have hhigh : c >>> 1 = 0#w := by
    unfold step at h
    rwa [hlow] at h
  apply BitVec.eq_of_getLsbD_eq
  intro i _
  rcases i with _ | i
  · rw [hlow, BitVec.getLsbD_zero]
  · have hbit := congrArg (fun x : BitVec w => x.getLsbD i) hhigh
    simp only [BitVec.getLsbD_ushiftRight, BitVec.getLsbD_zero] at hbit
    rw [BitVec.getLsbD_zero, ← hbit, Nat.add_comm]

/-- **The step is injective.** -/
theorem step_injective (hp : poly.msb = true) : Function.Injective (step poly) := by
  intro a b h
  have hxor : step poly (a ^^^ b) = 0#w := by rw [step_xor, h, BitVec.xor_self]
  exact BitVec.xor_eq_zero_iff.mp (eq_zero_of_step hp hxor)

/-- Bits that are clear only move the rest down. -/
theorem iterate_shift {c : BitVec w} : ∀ {n : ℕ}, (∀ i < n, c.getLsbD i = false) →
    (step poly)^[n] c = c >>> n
  | 0, _ => (BitVec.ushiftRight_zero c).symm
  | n + 1, hc => by
    have hn : (step poly)^[n] c = c >>> n := iterate_shift fun i hi => hc i (by omega)
    have hlow : (c >>> n).getLsbD 0 = false := by
      rw [BitVec.getLsbD_ushiftRight]
      exact hc n (Nat.lt_succ_self n)
    rw [Function.iterate_succ_apply', hn, step, hlow, BitVec.shiftRight_add]
    rfl

/-- The part of a word above its low byte. -/
theorem iterate_high (x : BitVec w) : (step poly)^[8] (x >>> 8 <<< 8) = x >>> 8 := by
  have hclear : ∀ i < 8, (x >>> 8 <<< 8).getLsbD i = false := by
    intro i hi
    rw [BitVec.getLsbD_shiftLeft]
    simp [hi]
  rw [iterate_shift hclear]
  apply BitVec.eq_of_getLsbD_eq
  intro i hi
  rw [BitVec.getLsbD_ushiftRight, BitVec.getLsbD_shiftLeft, Nat.add_sub_cancel_left,
    BitVec.getLsbD_ushiftRight]
  by_cases hfit : 8 + i < w
  · simp [hfit]
  · rw [BitVec.getLsbD_of_ge x (8 + i) (by omega), Bool.and_false]

theorem split_low (x : BitVec w) : x = (x >>> 8 <<< 8) ^^^ (x &&& 255#w) := by
  apply BitVec.eq_of_getLsbD_eq
  intro i hi
  have h255 : (255#w).getLsbD i = decide (i < 8) := by
    rw [BitVec.getLsbD_ofNat, decide_eq_true hi, Bool.true_and]
    exact Nat.testBit_two_pow_sub_one 8 i
  rw [BitVec.getLsbD_xor, BitVec.getLsbD_and, h255, BitVec.getLsbD_shiftLeft,
    BitVec.getLsbD_ushiftRight]
  by_cases h8 : i < 8
  · simp [h8]
  · rw [Nat.add_sub_cancel' (by omega)]
    simp [h8, hi]

/-- **Eight steps at once**: those of the low byte, added to the rest moved down a byte. -/
theorem iterate_eight (x : BitVec w) :
    (step poly)^[8] x = (x >>> 8) ^^^ (step poly)^[8] (x &&& 255#w) := by
  conv_lhs => rw [split_low x]
  rw [iterate_xor, iterate_high]

end Step

/-! ### Bytes -/

section Bytes
variable (poly : BitVec w)

/-- One byte into the register. -/
def feed (c : BitVec w) (b : UInt8) : BitVec w := (step poly)^[8] (c ^^^ b.toBitVec.setWidth w)

/-- The word that a string reads as. -/
def word (bs : List UInt8) : BitVec w := BitVec.ofNat w (ofLe bs)

variable {poly}

theorem word_cons (b : UInt8) (bs : List UInt8) :
    (word (b :: bs) : BitVec w) = b.toBitVec.setWidth w ^^^ (word bs <<< 8) := by
  apply BitVec.eq_of_getLsbD_eq
  intro i hi
  have hsum : ofLe (b :: bs) = 2 ^ 8 * ofLe bs + b.toNat := by
    rw [ofLe]
    omega
  rw [word, word, hsum, BitVec.getLsbD_ofNat, Nat.testBit_two_pow_mul_add _ b.toNat_lt,
    BitVec.getLsbD_xor, BitVec.getLsbD_shiftLeft, BitVec.getLsbD_setWidth]
  by_cases h8 : i < 8
  · simp [hi, h8]
    rfl
  · have hb : b.toBitVec.getLsbD i = false := BitVec.getLsbD_of_ge _ _ (by omega)
    have hlow : i - 8 < w := by omega
    have hrest : (BitVec.ofNat w (ofLe bs)).getLsbD (i - 8) = (ofLe bs).testBit (i - 8) := by
      rw [BitVec.getLsbD_ofNat, decide_eq_true hlow, Bool.true_and]
    rw [hb, hrest]
    simp [hi, h8]

/-- The word of a string that fits in the register, moved up a byte and down again. -/
theorem shift_word (poly : BitVec w) {bs : List UInt8} (h : 8 * (bs.length + 1) ≤ w) :
    (step poly)^[8] (word bs <<< 8) = word bs := by
  have hclear : ∀ i < 8, (word bs <<< 8 : BitVec w).getLsbD i = false := by
    intro i hi
    rw [BitVec.getLsbD_shiftLeft]
    simp [hi]
  rw [iterate_shift hclear]
  apply BitVec.eq_of_getLsbD_eq
  intro i hi
  have hword : (word bs : BitVec w).getLsbD i = (decide (i < w) && (ofLe bs).testBit i) :=
    BitVec.getLsbD_ofNat w _ i
  rw [BitVec.getLsbD_ushiftRight, BitVec.getLsbD_shiftLeft, Nat.add_sub_cancel_left]
  by_cases hfit : 8 + i < w
  · simp [hfit]
  · have hlt : ofLe bs < 2 ^ i := by
      refine (ofLe_lt bs).trans_le ?_
      rw [show 256 = 2 ^ 8 from rfl, ← pow_mul]
      exact Nat.pow_le_pow_right (by omega) (by omega)
    rw [hword, Nat.testBit_lt_two_pow hlt]
    simp [hfit]

/-- **A string that fits in the register acts as its word.** -/
theorem register_eq : ∀ {bs : List UInt8} (c : BitVec w), 8 * bs.length ≤ w →
    bs.foldl (feed poly) c = (step poly)^[8 * bs.length] (c ^^^ word bs)
  | [], c, _ => by
    have hzero : (word [] : BitVec w) = 0#w := rfl
    rw [hzero, BitVec.xor_zero]
    rfl
  | b :: bs, c, h => by
    rw [List.length_cons] at h
    have ih : bs.foldl (feed poly) (feed poly c b) =
        (step poly)^[8 * bs.length] (feed poly c b ^^^ word bs) := register_eq _ (by omega)
    have hstep : feed poly c b ^^^ word bs = (step poly)^[8] (c ^^^ word (b :: bs)) := by
      rw [feed, ← shift_word poly h, ← iterate_xor, word_cons, BitVec.xor_assoc]
    rw [List.foldl_cons, ih, hstep, ← Function.iterate_add_apply, List.length_cons, Nat.mul_succ]

theorem word_injective {u v : List UInt8} (hlen : u.length = v.length) (hu : 8 * u.length ≤ w)
    (h : (word u : BitVec w) = word v) : u = v := by
  have hpow : 256 ^ u.length ≤ 2 ^ w := by
    rw [show 256 = 2 ^ 8 from rfl, ← pow_mul]
    exact Nat.pow_le_pow_right (by omega) hu
  have hltu := ofLe_lt u
  have hltv := ofLe_lt v
  rw [← hlen] at hltv
  have hnat := congrArg BitVec.toNat h
  rw [word, word, BitVec.toNat_ofNat, BitVec.toNat_ofNat, Nat.mod_eq_of_lt (hltu.trans_le hpow),
    Nat.mod_eq_of_lt (hltv.trans_le hpow)] at hnat
  rw [← toLe_ofLe u, ← toLe_ofLe v, hnat, hlen]

theorem feed_injective (hp : poly.msb = true) (b : UInt8) :
    Function.Injective fun c => feed poly c b := by
  intro c c' h
  exact (BitVec.xor_left_inj _).mp ((step_injective hp).iterate 8 h)

theorem register_injective (hp : poly.msb = true) : ∀ {bs : List UInt8} {c c' : BitVec w},
    bs.foldl (feed poly) c = bs.foldl (feed poly) c' → c = c'
  | [], _, _, h => h
  | b :: _, _, _, h => feed_injective hp b (register_injective hp h)

/-- **Two strings that differ in one window of the register's size leave different registers.** -/
theorem window_injective (hp : poly.msb = true) {a u v z : List UInt8} {c : BitVec w}
    (hlen : u.length = v.length) (hu : 8 * u.length ≤ w)
    (h : (a ++ (u ++ z)).foldl (feed poly) c = (a ++ (v ++ z)).foldl (feed poly) c) : u = v := by
  simp only [List.foldl_append] at h
  have hmid := register_injective hp h
  have hv : 8 * v.length ≤ w := by rwa [← hlen]
  rw [register_eq _ hu, register_eq _ hv, hlen] at hmid
  have hword := (step_injective hp).iterate _ hmid
  exact word_injective hlen hu ((BitVec.xor_right_inj _).mp hword)

end Bytes

/-! ### Bits -/

section Bits
variable (poly : BitVec w)

/-- One message bit into the register: it is added to the low bit, and one step is made. -/
def feedBit (c : BitVec w) (b : Bool) : BitVec w := step poly (c ^^^ (BitVec.ofBool b).setWidth w)

/-- The bits of a byte, least significant first. -/
def bitsOf (b : UInt8) : List Bool := (List.range 8).map b.toBitVec.getLsbD

/-- The bits of a message. -/
def bits (bs : List UInt8) : List Bool := bs.flatMap bitsOf

variable {poly}

theorem length_bits : ∀ bs : List UInt8, (bits bs).length = 8 * bs.length
  | [] => rfl
  | b :: bs => by
    have hbyte : (bitsOf b).length = 8 := by rw [bitsOf, List.length_map, List.length_range]
    have ih := length_bits bs
    unfold bits at ih
    rw [bits, List.flatMap_cons, List.length_append, hbyte, ih, List.length_cons]
    omega

/-- A bit moved down to the low end. -/
theorem iterate_bit {k : ℕ} (hk : k < w) (b : Bool) :
    (step poly)^[k] ((BitVec.ofBool b).setWidth w <<< k) = (BitVec.ofBool b).setWidth w := by
  have hclear : ∀ i < k, ((BitVec.ofBool b).setWidth w <<< k).getLsbD i = false := by
    intro i hi
    rw [BitVec.getLsbD_shiftLeft]
    simp [hi]
  rw [iterate_shift hclear]
  apply BitVec.eq_of_getLsbD_eq
  intro i hi
  rw [BitVec.getLsbD_ushiftRight, BitVec.getLsbD_shiftLeft, Nat.add_sub_cancel_left]
  by_cases hfit : k + i < w
  · simp [hfit]
  · have h0 : i ≠ 0 := by omega
    simp [hfit, BitVec.getLsbD_setWidth, BitVec.getLsbD_ofBool, h0]

/-- The low `k + 1` bits are the low `k` bits and bit `k`. -/
theorem setWidth_succ {n k : ℕ} (x : BitVec n) : (x.setWidth (k + 1)).setWidth w =
    (x.setWidth k).setWidth w ^^^ ((BitVec.ofBool (x.getLsbD k)).setWidth w <<< k) := by
  apply BitVec.eq_of_getLsbD_eq
  intro i hi
  simp only [BitVec.getLsbD_xor, BitVec.getLsbD_shiftLeft, BitVec.getLsbD_setWidth, BitVec.getLsbD_ofBool]
  rcases Nat.lt_trichotomy i k with hlt | rfl | hgt
  · simp [hlt, hi, Nat.lt_succ_of_lt hlt]
  · simp [hi, show 0 < w by omega]
  · have h1 : ¬ i < k := by omega
    have h2 : ¬ i < k + 1 := by omega
    have h3 : ¬ i - k = 0 := by omega
    simp [h1, h2, h3]

/-- **The low bits of a word, one after the other**, act as these bits all at once. -/
theorem foldl_bits {n : ℕ} (c : BitVec w) (x : BitVec n) : ∀ {k : ℕ}, k ≤ w →
    ((List.range k).map x.getLsbD).foldl (feedBit poly) c =
      (step poly)^[k] (c ^^^ (x.setWidth k).setWidth w)
  | 0, _ => by
    have hzero : (x.setWidth 0).setWidth w = 0#w := by
      rw [BitVec.eq_nil (x.setWidth 0)]
      rfl
    rw [hzero, BitVec.xor_zero]
    rfl
  | k + 1, hk => by
    have ih := foldl_bits c x (k := k) (by omega)
    rw [List.range_succ, List.map_append, List.foldl_append, ih, List.map_singleton, List.foldl_cons,
      List.foldl_nil, feedBit, ← iterate_bit (show k < w by omega) (x.getLsbD k), ← iterate_xor,
      Function.iterate_succ_apply', setWidth_succ, BitVec.xor_assoc]

/-- **A byte is its eight bits.** -/
theorem feed_eq (hw : 8 ≤ w) (c : BitVec w) (b : UInt8) :
    feed poly c b = (bitsOf b).foldl (feedBit poly) c := by
  rw [bitsOf, foldl_bits c b.toBitVec hw, BitVec.setWidth_eq, feed]

theorem foldl_feed (hw : 8 ≤ w) : ∀ (bs : List UInt8) (c : BitVec w),
    bs.foldl (feed poly) c = (bits bs).foldl (feedBit poly) c
  | [], _ => rfl
  | b :: bs, c => by
    rw [List.foldl_cons, feed_eq hw, foldl_feed hw bs, bits, bits, List.flatMap_cons, List.foldl_append]

end Bits

end FluxThroughput.Lib.Crc
