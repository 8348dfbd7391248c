import FluxThroughput.Domain.Frame

/-! # What the decoder accepts

`decode` accepts a byte string exactly when a frame that `encode` writes is a prefix of it: the two length
fields, the magic and the checksum leave no other string, as for every sealed format. `decodeChecked` is the
decoder with every slice checked against its string, as the source's indexing is; it never fails. -/

namespace FluxThroughput.Domain.Decode

open FluxThroughput.Domain.Types FluxThroughput.Domain.Frame FluxThroughput.Lib.LittleEndian
open FluxThroughput.Lib.Sealed

/-! ### Accepted strings are frames -/

theorem decode_inv {buf : Bytes} {r : WalRecord} {n : ℕ} (h : decode buf = .ok (r, n)) :
    flxr.Accepted buf r n := Format.decode_eq_some_iff_accepted.mp (decode_eq_ok_iff.mp h)

/-- **Canonical frames**: the decoder accepts a record exactly in front of its own frame. -/
theorem decode_ok_iff (buf : Bytes) (r : WalRecord) (n : ℕ) :
    decode buf = .ok (r, n) ↔ encode r <+: buf ∧ n = (encode r).length ∧ n < 2 ^ 32 := by
  rw [decode_eq_ok_iff, Format.decode_eq_some_iff, ← encode_eq, length_encode]
  constructor
  · rintro ⟨hfits, hpre, hn⟩
    refine ⟨hpre, hn, ?_⟩
    rw [hn]
    exact hfits
  · rintro ⟨hpre, hn, hlt⟩
    refine ⟨?_, hpre, hn⟩
    rw [hn] at hlt
    exact hlt

/-- What the codec of the log decodes is a frame that fits. -/
theorem codec_decode_inv {buf : Bytes} {r : WalRecord} {n : ℕ}
    (h : codec.decode buf = some (r, n)) : Fits r ∧ encode r <+: buf := by
  rw [codec_decode, decode_toOption, Format.decode_eq_some_iff, ← encode_eq] at h
  exact ⟨h.1, h.2.1⟩

/-- Every strict prefix of a frame that fits is truncated. -/
theorem decode_strict_prefix {r : WalRecord} {p : Bytes} (hfits : (encode r).length < 2 ^ 32)
    (hp : p <+: encode r) (hne : p ≠ encode r) : decode p = .error .truncated := by
  have heq := List.prefix_iff_eq_take.mp hp
  have hlt : p.length < (encode r).length := by
    rcases Nat.lt_or_ge p.length (encode r).length with hlt | hge
    · exact hlt
    · rw [List.take_of_length_le hge] at heq
      exact absurd heq hne
  rw [length_encode] at hfits hlt
  rw [heq]
  exact decode_cut hfits hlt

/-! ### Indexing -/

/-- `buf[i..j]`, with the bounds the language checks. -/
def index (buf : Bytes) (i j : ℕ) : Option Bytes :=
  if i ≤ j ∧ j ≤ buf.length then some (slice buf i j) else none

/-- `u32::from_le_bytes(buf[i..j].try_into().unwrap())`. -/
def indexU32 (buf : Bytes) (i j : ℕ) : Option UInt32 :=
  (index buf i j).bind fun bs => if bs.length = 4 then some (ofLe32 bs) else none

/-- `u64::from_le_bytes(buf[i..j].try_into().unwrap())`. -/
def indexU64 (buf : Bytes) (i j : ℕ) : Option UInt64 :=
  (index buf i j).bind fun bs => if bs.length = 8 then some (ofLe64 bs) else none

/-- **The decoder with every index checked**: `none` where the source would panic. -/
def decodeChecked (buf : Bytes) : Option (Except DecodeError (WalRecord × ℕ)) := do
  if buf.length < walHeaderLen then return .error .truncated
  let magic ← indexU32 buf 0 4
  if magic ≠ walMagic then return .error .badMagic
  let frameLen := (← indexU32 buf 4 8).toNat
  if frameLen < walHeaderLen + walCrcLen then return .error .truncated
  if buf.length < frameLen then return .error .truncated
  let blobLen := (← indexU32 buf 32 36).toNat
  if frameLen ≠ walHeaderLen + blobLen + walCrcLen then return .error .truncated
  let bodyEnd := frameLen - walCrcLen
  let storedCrc ← indexU32 buf bodyEnd frameLen
  let actualCrc := crc32 (← index buf 0 bodyEnd)
  if storedCrc ≠ actualCrc then return .error .badCrc
  let lsn ← indexU64 buf 8 16
  let playerId ← indexU64 buf 16 24
  let version ← indexU64 buf 24 32
  let blob ← index buf walHeaderLen (walHeaderLen + blobLen)
  return .ok ({ lsn, playerId, version, blob }, frameLen)

section Index
variable (buf : Bytes) {i j : ℕ}

theorem index_eq (hij : i ≤ j) (hj : j ≤ buf.length) : index buf i j = some (slice buf i j) :=
  if_pos ⟨hij, hj⟩

theorem indexU32_eq (hij : i + 4 = j) (hj : j ≤ buf.length) :
    indexU32 buf i j = some (ofLe32 (slice buf i j)) := by
  have hlen : (slice buf i j).length = 4 := by
    rw [length_slice hj]
    omega
  unfold indexU32
  rw [index_eq buf (by omega) hj, Option.bind_some, if_pos hlen]

theorem indexU64_eq (hij : i + 8 = j) (hj : j ≤ buf.length) :
    indexU64 buf i j = some (ofLe64 (slice buf i j)) := by
  have hlen : (slice buf i j).length = 8 := by
    rw [length_slice hj]
    omega
  unfold indexU64
  rw [index_eq buf (by omega) hj, Option.bind_some, if_pos hlen]

end Index

/-- **The decoder never indexes out of range.** -/
theorem decodeChecked_eq (buf : Bytes) : decodeChecked buf = some (decode buf) := by
  unfold decodeChecked decode
  by_cases h1 : buf.length < walHeaderLen
  · rw [if_pos h1, if_pos h1]; rfl
  have hlen : 36 ≤ buf.length := not_lt.mp h1
  have hmagic := indexU32_eq buf (i := 0) (j := 4) rfl (by omega)
  have hframe := indexU32_eq buf (i := 4) (j := 8) rfl (by omega)
  have hblob := indexU32_eq buf (i := 32) (j := 36) rfl (by omega)
  have hlsn := indexU64_eq buf (i := 8) (j := 16) rfl (by omega)
  have hplayer := indexU64_eq buf (i := 16) (j := 24) rfl (by omega)
  have hversion := indexU64_eq buf (i := 24) (j := 32) rfl (by omega)
  rw [if_neg h1, if_neg h1]
  simp only [hmagic, hframe, hblob, hlsn, hplayer, hversion, Option.bind_eq_bind, Option.bind_some]
  by_cases h2 : ofLe32 (slice buf 0 4) ≠ walMagic
  · rw [if_pos h2, if_pos h2]; rfl
  rw [if_neg h2, if_neg h2]
  generalize (ofLe32 (slice buf 4 8)).toNat = n
  generalize (ofLe32 (slice buf 32 36)).toNat = m
  by_cases h3 : n < walHeaderLen + walCrcLen
  · rw [if_pos h3, if_pos h3]; rfl
  by_cases h4 : buf.length < n
  · rw [if_neg h3, if_neg h3, if_pos h4, if_pos h4]; rfl
  by_cases h5 : n ≠ walHeaderLen + m + walCrcLen
  · rw [if_neg h3, if_neg h3, if_neg h4, if_neg h4, if_pos h5, if_pos h5]; rfl
  have hn : n = 36 + m + 4 := not_not.mp h5
  have hbody := index_eq buf (i := 0) (j := n - walCrcLen) (Nat.zero_le _)
    (le_trans (Nat.sub_le _ _) (not_lt.mp h4))
  have hcrc := indexU32_eq buf (i := n - walCrcLen) (j := n)
    (by show n - 4 + 4 = n; omega) (not_lt.mp h4)
  have hpay := index_eq buf (i := walHeaderLen) (j := walHeaderLen + m) (by omega)
    (by show 36 + m ≤ buf.length; omega)
  rw [if_neg h3, if_neg h3, if_neg h4, if_neg h4, if_neg h5, if_neg h5]
  simp only [hbody, hcrc, hpay, Option.bind_some]
  by_cases h6 : ofLe32 (slice buf (n - walCrcLen) n) ≠ crc32 (slice buf 0 (n - walCrcLen))
  · rw [if_pos h6, if_pos h6]; rfl
  · rw [if_neg h6, if_neg h6]; rfl

/-- **The decoder accepts exactly the frames the encoder writes**: it accepts a record only in front of
its whole frame, which is shorter than `2 ^ 32` bytes; it reports every strict prefix of such a frame as
truncated; and no string makes it index out of range. -/
theorem decode_accepts_exactly_frames :
    (∀ (buf : Bytes) (r : WalRecord) (n : ℕ),
      decode buf = .ok (r, n) ↔ encode r <+: buf ∧ n = (encode r).length ∧ n < 2 ^ 32) ∧
    (∀ (r : WalRecord) (p : Bytes), (encode r).length < 2 ^ 32 → p <+: encode r → p ≠ encode r →
      decode p = .error .truncated) ∧
    ∀ buf : Bytes, decodeChecked buf = some (decode buf) :=
  ⟨decode_ok_iff, fun _ _ => decode_strict_prefix, decodeChecked_eq⟩

end FluxThroughput.Domain.Decode
