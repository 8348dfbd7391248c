import FluxThroughput.Domain.Decode
import FluxThroughput.Lib.Sealed

/-! # The records of the disk store

`encode_record` and `decode_record` of the store on disk: its own frames, with another magic than the
log's and without an LSN. They are the sealed frames of the format `dbvk`, so a record is accepted exactly
in front of its own frame (`decodeRecord_iff`). -/

namespace FluxThroughput.Store.DiskRecord

open FluxThroughput.Domain.Types FluxThroughput.Domain.Frame FluxThroughput.Domain.Decode
open FluxThroughput.Lib.LittleEndian FluxThroughput.Lib.Sealed

/-! ### The frames -/

def recMagic : UInt32 := 0x4B564442
def recHeaderLen : ℕ := 28
def recCrcLen : ℕ := 4

/-- The total length of a state's frame. -/
def recordLen (st : PlayerState) : ℕ := recHeaderLen + st.blob.length + recCrcLen

/-- Everything the checksum covers. -/
def recordBody (st : PlayerState) : Bytes :=
  le32 recMagic ++ (le32 (UInt32.ofNat (recordLen st)) ++ (le64 st.playerId ++ (le64 st.version ++
    (le32 (UInt32.ofNat st.blob.length) ++ st.blob))))

/-- **One state as a frame.** The checksum is a copy of the log's. -/
def encodeRecord (st : PlayerState) : Bytes := recordBody st ++ le32 (crc32 (recordBody st))

inductive DecodeOne
  | record (st : PlayerState) (consumed : ℕ)
  | tornTail
  deriving DecidableEq, Repr

/-- **A frame from the front of a byte string.** -/
def decodeRecord (buf : Bytes) : DecodeOne :=
  if buf.length < recHeaderLen then .tornTail
  else if ofLe32 (slice buf 0 4) ≠ recMagic then .tornTail
  else
    let frameLen := (ofLe32 (slice buf 4 8)).toNat
    if frameLen < recHeaderLen + recCrcLen ∨ buf.length < frameLen then .tornTail
    else
      let blobLen := (ofLe32 (slice buf 24 28)).toNat
      if frameLen ≠ recHeaderLen + blobLen + recCrcLen then .tornTail
      else
        let bodyEnd := frameLen - recCrcLen
        if ofLe32 (slice buf bodyEnd frameLen) ≠ crc32 (slice buf 0 bodyEnd) then .tornTail
        else
          .record
            { playerId := ofLe64 (slice buf 8 16)
              version := ofLe64 (slice buf 16 24)
              blob := slice buf recHeaderLen (recHeaderLen + blobLen) } frameLen

/-- The decoder with every index checked: `none` where the source would panic. -/
def decodeRecordChecked (buf : Bytes) : Option DecodeOne := do
  if buf.length < recHeaderLen then return .tornTail
  let magic ← indexU32 buf 0 4
  if magic ≠ recMagic then return .tornTail
  let frameLen := (← indexU32 buf 4 8).toNat
  if frameLen < recHeaderLen + recCrcLen ∨ buf.length < frameLen then return .tornTail
  let blobLen := (← indexU32 buf 24 28).toNat
  if frameLen ≠ recHeaderLen + blobLen + recCrcLen then return .tornTail
  let bodyEnd := frameLen - recCrcLen
  let storedCrc ← indexU32 buf bodyEnd frameLen
  let actualCrc := crc32 (← index buf 0 bodyEnd)
  if storedCrc ≠ actualCrc then return .tornTail
  let playerId ← indexU64 buf 8 16
  let version ← indexU64 buf 16 24
  let blob ← index buf recHeaderLen (recHeaderLen + blobLen)
  return .record { playerId, version, blob } frameLen

/-! ### As sealed frames -/

/-- A state by its fields and its blob. -/
def dbvk : Format PlayerState where
  magic := recMagic
  checksum := crc32
  fieldsLen := 16
  fields st := le64 st.playerId ++ le64 st.version
  payload := PlayerState.blob
  make f p := { playerId := ofLe64 (f.take 8), version := ofLe64 (f.drop 8), blob := p }
  length_fields st := by rw [List.length_append, length_le64, length_le64]
  make_fields st := by
    rw [List.take_left' (length_le64 _), List.drop_left' (length_le64 _), ofLe64_le64, ofLe64_le64]
  fields_make {f} p hf := by
    have htake : (f.take 8).length = 8 := by rw [List.length_take]; omega
    have hdrop : (f.drop 8).length = 8 := by rw [List.length_drop]; omega
    simp only [le64_ofLe64 htake, le64_ofLe64 hdrop, List.take_append_drop]
  payload_make _ _ := rfl

theorem encodeRecord_eq (st : PlayerState) : encodeRecord st = dbvk.encode st := by
  have hbody : recordBody st = dbvk.body st := by
    unfold recordBody Format.body Format.header dbvk
    simp only [List.append_assoc]
    rfl
  rw [encodeRecord, hbody]
  rfl

theorem decodeRecord_eq (buf : Bytes) : decodeRecord buf =
    match dbvk.decode buf with
    | some (st, n) => .record st n
    | none => .tornTail := by
  have hid : (slice buf 8 24).take 8 = slice buf 8 16 := by
    unfold slice
    rw [List.take_drop, List.take_take]
    rfl
  have hversion : (slice buf 8 24).drop 8 = slice buf 16 24 := by
    unfold slice
    rw [List.drop_drop]
  have hh : dbvk.headerLen = recHeaderLen := rfl
  have hf : 8 + dbvk.fieldsLen = 24 := rfl
  have hm : dbvk.magic = recMagic := rfl
  have hs : dbvk.checksum = crc32 := rfl
  have hmake : ∀ f p, dbvk.make f p = ⟨ofLe64 (f.take 8), ofLe64 (f.drop 8), p⟩ := fun _ _ => rfl
  unfold decodeRecord Format.decode
  rw [hh, hf, hm, hs]
  have hword : (ofLe32 (slice buf 24 28)).toNat = (ofLe32 (slice buf 24 recHeaderLen)).toNat := rfl
  dsimp only
  rw [hword]
  generalize (ofLe32 (slice buf 4 8)).toNat = n
  generalize (ofLe32 (slice buf 24 recHeaderLen)).toNat = m
  by_cases h1 : buf.length < recHeaderLen
  · rw [if_pos h1, if_pos h1]
  by_cases h2 : ofLe32 (slice buf 0 4) ≠ recMagic
  · rw [if_neg h1, if_neg h1, if_pos h2, if_pos h2]
  rw [if_neg h1, if_neg h1, if_neg h2, if_neg h2]
  by_cases h3 : n < recHeaderLen + 4 ∨ buf.length < n
  · rw [if_pos (show n < recHeaderLen + recCrcLen ∨ buf.length < n from h3), if_pos h3]
  rw [if_neg (show ¬ (n < recHeaderLen + recCrcLen ∨ buf.length < n) from h3), if_neg h3]
  by_cases h4 : n ≠ recHeaderLen + m + 4
  · rw [if_pos (show n ≠ recHeaderLen + m + recCrcLen from h4), if_pos h4]
  rw [if_neg (show ¬ n ≠ recHeaderLen + m + recCrcLen from h4), if_neg h4]
  by_cases h5 : ofLe32 (slice buf (n - 4) n) ≠ crc32 (slice buf 0 (n - 4))
  · rw [if_pos (show ofLe32 (slice buf (n - recCrcLen) n) ≠ crc32 (slice buf 0 (n - recCrcLen)) from h5),
      if_pos h5]
  · rw [if_neg (show ¬ ofLe32 (slice buf (n - recCrcLen) n) ≠ crc32 (slice buf 0 (n - recCrcLen)) from h5),
      if_neg h5]
    simp only [hmake, hid, hversion]

/-! ### What is accepted -/

/-- **A record is accepted exactly in front of its own frame.** -/
theorem decodeRecord_iff (buf : Bytes) (st : PlayerState) (n : ℕ) : decodeRecord buf = .record st n ↔
    encodeRecord st <+: buf ∧ n = (encodeRecord st).length ∧ n < 2 ^ 32 := by
  have hiff : decodeRecord buf = .record st n ↔ dbvk.decode buf = some (st, n) := by
    rw [decodeRecord_eq]
    rcases dbvk.decode buf with _ | ⟨st', n'⟩
    · simp
    · simp
  rw [hiff, Format.decode_eq_some_iff, encodeRecord_eq, dbvk.length_encode]
  constructor
  · rintro ⟨hfits, hpre, rfl⟩
    exact ⟨hpre, rfl, hfits⟩
  · rintro ⟨hpre, rfl, hfits⟩
    exact ⟨hfits, hpre, rfl⟩

/-- **The decoder never indexes out of range.** -/
theorem decodeRecordChecked_eq (buf : Bytes) : decodeRecordChecked buf = some (decodeRecord buf) := by
  unfold decodeRecordChecked decodeRecord
  by_cases h1 : buf.length < recHeaderLen
  · rw [if_pos h1, if_pos h1]; rfl
  have hlen : 28 ≤ buf.length := not_lt.mp h1
  have hmagic := indexU32_eq buf (i := 0) (j := 4) rfl (by omega)
  have hframe := indexU32_eq buf (i := 4) (j := 8) rfl (by omega)
  have hblob := indexU32_eq buf (i := 24) (j := 28) rfl (by omega)
  have hid := indexU64_eq buf (i := 8) (j := 16) rfl (by omega)
  have hversion := indexU64_eq buf (i := 16) (j := 24) rfl (by omega)
  rw [if_neg h1, if_neg h1]
  simp only [hmagic, hframe, hblob, hid, hversion, Option.bind_eq_bind, Option.bind_some]
  by_cases h2 : ofLe32 (slice buf 0 4) ≠ recMagic
  · rw [if_pos h2, if_pos h2]; rfl
  rw [if_neg h2, if_neg h2]
  generalize (ofLe32 (slice buf 4 8)).toNat = n
  generalize (ofLe32 (slice buf 24 28)).toNat = m
  by_cases h3 : n < recHeaderLen + recCrcLen ∨ buf.length < n
  · rw [if_pos h3, if_pos h3]; rfl
  by_cases h4 : n ≠ recHeaderLen + m + recCrcLen
  · rw [if_neg h3, if_neg h3, if_pos h4, if_pos h4]; rfl
  have hn : n = 28 + m + 4 := not_not.mp h4
  have hle : n ≤ buf.length := by omega
  have hbody := index_eq buf (i := 0) (j := n - recCrcLen) (Nat.zero_le _)
    (le_trans (Nat.sub_le _ _) hle)
  have hcrc := indexU32_eq buf (i := n - recCrcLen) (j := n) (by show n - 4 + 4 = n; omega) hle
  have hpay := index_eq buf (i := recHeaderLen) (j := recHeaderLen + m) (by omega)
    (by show 28 + m ≤ buf.length; omega)
  rw [if_neg h3, if_neg h3, if_neg h4, if_neg h4]
  simp only [hbody, hcrc, hpay, Option.bind_some]
  by_cases h5 : ofLe32 (slice buf (n - recCrcLen) n) ≠ crc32 (slice buf 0 (n - recCrcLen))
  · rw [if_pos h5, if_pos h5]; rfl
  · rw [if_neg h5, if_neg h5]; rfl

/-- **The store's decoder accepts exactly the frames its encoder writes**, takes every strict prefix of one
and every frame of the log for a torn tail, and never indexes out of range. -/
theorem decodeRecord_accepts_exactly_frames :
    (∀ buf st n, decodeRecord buf = .record st n ↔
      encodeRecord st <+: buf ∧ n = (encodeRecord st).length ∧ n < 2 ^ 32) ∧
    (∀ st p, (encodeRecord st).length < 2 ^ 32 → p <+: encodeRecord st → p ≠ encodeRecord st →
      decodeRecord p = .tornTail) ∧
    (∀ rec s, decodeRecord (Domain.Frame.encode rec ++ s) = .tornTail) ∧
    ∀ buf, decodeRecordChecked buf = some (decodeRecord buf) := by
  refine ⟨decodeRecord_iff, fun st p hlen hp hne => ?_, fun rec s => ?_, decodeRecordChecked_eq⟩
  · have heq := List.prefix_iff_eq_take.mp hp
    have hlt : p.length < (encodeRecord st).length := by
      rcases Nat.lt_or_ge p.length (encodeRecord st).length with hlt | hge
      · exact hlt
      · rw [List.take_of_length_le hge] at heq
        exact absurd heq hne
    rw [encodeRecord_eq] at hlen hlt heq
    rw [dbvk.length_encode] at hlen hlt
    rw [heq, decodeRecord_eq, Format.decode_take hlen hlt]
  · unfold decodeRecord
    rw [(headed_encode rec s).magic]
    split_ifs with h1 h2
    · rfl
    · rfl
    · exact absurd (show walMagic = recMagic by simpa using h2) (by decide)

end FluxThroughput.Store.DiskRecord
