import Mathlib

/-! # Little-endian words and slices of byte strings

`toLe k x` is the low `k` bytes of `x`, least significant first, and `ofLe` reads such a string back.
`slice i j` is the part of a string from offset `i` up to `j`; the lemmas read it in a concatenation and
in a prefix. -/

namespace FluxThroughput.Lib.LittleEndian

/-! ### Words -/

/-- The low `k` bytes of `x`, least significant first. -/
def toLe : ℕ → ℕ → List UInt8
  | 0, _ => []
  | k + 1, x => UInt8.ofNat x :: toLe k (x / 256)

/-- The number whose little-endian bytes are given. -/
def ofLe : List UInt8 → ℕ
  | [] => 0
  | b :: bs => b.toNat + 256 * ofLe bs

@[simp] theorem length_toLe : ∀ k x, (toLe k x).length = k
  | 0, _ => rfl
  | k + 1, x => by rw [toLe, List.length_cons, length_toLe]

theorem ofLe_toLe : ∀ k x, ofLe (toLe k x) = x % 256 ^ k
  | 0, x => by rw [pow_zero, Nat.mod_one]; rfl
  | k + 1, x => by
    have hb : (UInt8.ofNat x).toNat = x % 256 := UInt8.toNat_ofNat'
    rw [toLe, ofLe, ofLe_toLe k, hb, pow_succ', Nat.mod_mul]

/-- Every string of bytes is the word it reads as. -/
theorem toLe_ofLe : ∀ bs : List UInt8, toLe bs.length (ofLe bs) = bs
  | [] => rfl
  | b :: bs => by
    have hb := b.toNat_lt
    have hlow : UInt8.ofNat (b.toNat + 256 * ofLe bs) = b := by
      apply UInt8.toNat_inj.mp
      rw [UInt8.toNat_ofNat']
      omega
    have hhigh : (b.toNat + 256 * ofLe bs) / 256 = ofLe bs := by omega
    rw [List.length_cons, toLe, ofLe, hlow, hhigh, toLe_ofLe bs]

theorem ofLe_lt : ∀ bs : List UInt8, ofLe bs < 256 ^ bs.length
  | [] => Nat.one_pos
  | b :: bs => by
    have hb := b.toNat_lt
    have ih := ofLe_lt bs
    rw [List.length_cons, ofLe, pow_succ']
    omega

/-- `u32::to_le_bytes`. -/
def le32 (x : UInt32) : List UInt8 := toLe 4 x.toNat

/-- `u64::to_le_bytes`. -/
def le64 (x : UInt64) : List UInt8 := toLe 8 x.toNat

/-- `u32::from_le_bytes`. -/
def ofLe32 (bs : List UInt8) : UInt32 := UInt32.ofNat (ofLe bs)

/-- `u64::from_le_bytes`. -/
def ofLe64 (bs : List UInt8) : UInt64 := UInt64.ofNat (ofLe bs)

@[simp] theorem length_le32 (x : UInt32) : (le32 x).length = 4 := length_toLe 4 _
@[simp] theorem length_le64 (x : UInt64) : (le64 x).length = 8 := length_toLe 8 _

@[simp] theorem ofLe32_le32 (x : UInt32) : ofLe32 (le32 x) = x := by
  unfold ofLe32 le32
  rw [ofLe_toLe, Nat.mod_eq_of_lt (by exact x.toNat_lt), UInt32.ofNat_toNat]

@[simp] theorem ofLe64_le64 (x : UInt64) : ofLe64 (le64 x) = x := by
  unfold ofLe64 le64
  rw [ofLe_toLe, Nat.mod_eq_of_lt (by exact x.toNat_lt), UInt64.ofNat_toNat]

theorem toNat_ofLe32 {bs : List UInt8} (h : bs.length = 4) : (ofLe32 bs).toNat = ofLe bs := by
  have hlt := ofLe_lt bs
  rw [h] at hlt
  unfold ofLe32
  rw [UInt32.toNat_ofNat', Nat.mod_eq_of_lt (by exact hlt)]

theorem toNat_ofLe64 {bs : List UInt8} (h : bs.length = 8) : (ofLe64 bs).toNat = ofLe bs := by
  have hlt := ofLe_lt bs
  rw [h] at hlt
  unfold ofLe64
  rw [UInt64.toNat_ofNat', Nat.mod_eq_of_lt (by exact hlt)]

theorem le32_ofLe32 {bs : List UInt8} (h : bs.length = 4) : le32 (ofLe32 bs) = bs := by
  unfold le32
  rw [toNat_ofLe32 h, ← h, toLe_ofLe]

theorem le64_ofLe64 {bs : List UInt8} (h : bs.length = 8) : le64 (ofLe64 bs) = bs := by
  unfold le64
  rw [toNat_ofLe64 h, ← h, toLe_ofLe]

/-! ### Slices -/

section Slices
variable {β : Type*} {i j k n : ℕ} {a b c : List β}

/-- `bytes[i..j]`, for offsets in range. -/
def slice (bytes : List β) (i j : ℕ) : List β := (bytes.take j).drop i

/-- The slice at a known offset and of a known length. -/
theorem slice_append (hi : a.length = i) (hj : i + b.length = j) :
    slice (a ++ (b ++ c)) i j = b := by
  subst hi hj
  unfold slice
  rw [← List.append_assoc, ← List.length_append, List.take_left, List.drop_left]

theorem slice_zero (hj : a.length = j) : slice (a ++ b) 0 j = a := by
  unfold slice
  rw [List.drop_zero, List.take_left' hj]

/-- A slice within a prefix is a slice of the whole. -/
theorem slice_take (h : j ≤ n) : slice (a.take n) i j = slice a i j := by
  unfold slice
  rw [List.take_take, Nat.min_eq_left h]

theorem length_slice (h : j ≤ a.length) : (slice a i j).length = j - i := by
  unfold slice
  rw [List.length_drop, List.length_take, Nat.min_eq_left h]

/-- Adjacent slices join. -/
theorem slice_split (hij : i ≤ j) (hjk : j ≤ k) : slice a i k = slice a i j ++ slice a j k := by
  unfold slice
  have htake : (a.take j).drop i = ((a.take k).drop i).take (j - i) := by
    rw [← List.drop_take, List.take_take, Nat.min_eq_left hjk]
  have hdrop : (a.take k).drop j = ((a.take k).drop i).drop (j - i) := by
    rw [List.drop_drop, Nat.add_sub_cancel' hij]
  rw [htake, hdrop, List.take_append_drop]

theorem slice_self : slice a 0 a.length = a := by
  unfold slice
  rw [List.drop_zero, List.take_length]

/-- A slice depends on its own offsets only. -/
theorem slice_congr (h : ∀ p, i ≤ p → p < j → a[p]? = b[p]?) : slice a i j = slice b i j := by
  unfold slice
  apply List.ext_getElem?
  intro p
  rw [List.getElem?_drop, List.getElem?_drop, List.getElem?_take, List.getElem?_take]
  by_cases hp : i + p < j
  · rw [if_pos hp, if_pos hp, h (i + p) (Nat.le_add_right i p) hp]
  · rw [if_neg hp, if_neg hp]

end Slices

end FluxThroughput.Lib.LittleEndian
