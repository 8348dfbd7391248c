import FluxThroughput.Domain.Types
import FluxThroughput.Lib.Sealed

/-! # The wire format of the log

`WalRecord.encode` writes one record as a frame with its length and a checksum, and `WalRecord.decode`
reads a frame from the front of a byte string. They are the sealed frames of the format `flxr`, apart from
the kinds of error. So records whose frames are shorter than `2 ^ 32` bytes form a `Codec`: their frames read
back whole, and cut short are truncated. -/

namespace FluxThroughput.Domain.Frame

open FluxThroughput.Domain.Types FluxThroughput.Lib.LittleEndian FluxThroughput.Lib.Frames
open FluxThroughput.Lib.Sealed

/-! ### The checksum -/

/-- One bit of the checksum's shift register. -/
def tableStep (crc : UInt32) : UInt32 :=
  if crc &&& 1 ≠ 0 then (crc >>> 1) ^^^ 0xEDB88320 else crc >>> 1

/-- The lookup table, by index. -/
def crc32Table (i : ℕ) : UInt32 := tableStep^[8] (UInt32.ofNat i)

def crc32 (bytes : Bytes) : UInt32 :=
  let crc := bytes.foldl (fun (crc : UInt32) b =>
    let idx := ((crc ^^^ b.toUInt32) &&& 0xFF).toNat
    (crc >>> 8) ^^^ crc32Table idx) 0xFFFFFFFF
  crc ^^^ 0xFFFFFFFF

example : crc32 [49, 50, 51, 52, 53, 54, 55, 56, 57] = 0xCBF43926 := by decide +kernel

/-! ### Frames -/

def walMagic : UInt32 := 0x464C5852
def walHeaderLen : ℕ := 36
def walCrcLen : ℕ := 4

/-- The total length of a record's frame. -/
def frameLen (rec : WalRecord) : ℕ := walHeaderLen + rec.blob.length + walCrcLen

/-- Everything before the payload. The lengths are stored in 32 bits. -/
def header (rec : WalRecord) : Bytes :=
  le32 walMagic ++ (le32 (UInt32.ofNat (frameLen rec)) ++ (le64 rec.lsn ++ (le64 rec.playerId ++
    (le64 rec.version ++ le32 (UInt32.ofNat rec.blob.length)))))

/-- Everything the checksum covers. -/
def body (rec : WalRecord) : Bytes := header rec ++ rec.blob

/-- **One record as a frame.** -/
def encode (rec : WalRecord) : Bytes := body rec ++ le32 (crc32 (body rec))

/-- **A frame from the front of a byte string**: the record, and the number of bytes consumed. -/
def decode (buf : Bytes) : Except DecodeError (WalRecord × ℕ) :=
  if buf.length < walHeaderLen then .error .truncated
  else if ofLe32 (slice buf 0 4) ≠ walMagic then .error .badMagic
  else
    let frameLen := (ofLe32 (slice buf 4 8)).toNat
    if frameLen < walHeaderLen + walCrcLen then .error .truncated
    else if buf.length < frameLen then .error .truncated
    else
      let blobLen := (ofLe32 (slice buf 32 36)).toNat
      if frameLen ≠ walHeaderLen + blobLen + walCrcLen then .error .truncated
      else
        let bodyEnd := frameLen - walCrcLen
        if ofLe32 (slice buf bodyEnd frameLen) ≠ crc32 (slice buf 0 bodyEnd) then .error .badCrc
        else
          .ok
            ({ lsn := ofLe64 (slice buf 8 16)
               playerId := ofLe64 (slice buf 16 24)
               version := ofLe64 (slice buf 24 32)
               blob := slice buf walHeaderLen (walHeaderLen + blobLen) }, frameLen)

/-- The frame's length fits its length field. -/
def Fits (rec : WalRecord) : Prop := frameLen rec < 2 ^ 32

instance : DecidablePred Fits := fun rec => inferInstanceAs (Decidable (frameLen rec < 2 ^ 32))

/-! ### As sealed frames -/

/-- A record by its fields and its blob. -/
def flxr : Format WalRecord where
  magic := walMagic
  checksum := crc32
  fieldsLen := 24
  fields rec := le64 rec.lsn ++ (le64 rec.playerId ++ le64 rec.version)
  payload := WalRecord.blob
  make f p :=
    { lsn := ofLe64 (f.take 8)
      playerId := ofLe64 ((f.drop 8).take 8)
      version := ofLe64 (f.drop 16)
      blob := p }
  length_fields rec := by simp only [List.length_append, length_le64]
  make_fields rec := by
    have hdrop : (le64 rec.lsn ++ (le64 rec.playerId ++ le64 rec.version)).drop 16 = le64 rec.version := by
      rw [← List.append_assoc]
      exact List.drop_left' (by rw [List.length_append, length_le64, length_le64])
    rw [hdrop, List.take_left' (length_le64 _), List.drop_left' (length_le64 _),
      List.take_left' (length_le64 _), ofLe64_le64, ofLe64_le64, ofLe64_le64]
  fields_make {f} p hf := by
    have h1 : (f.take 8).length = 8 := by rw [List.length_take]; omega
    have h2 : ((f.drop 8).take 8).length = 8 := by rw [List.length_take, List.length_drop]; omega
    have h3 : (f.drop 16).length = 8 := by rw [List.length_drop]; omega
    have hsplit : (f.drop 8).take 8 ++ f.drop 16 = f.drop 8 := by
      have hdrop : f.drop 16 = (f.drop 8).drop 8 := by rw [List.drop_drop]
      rw [hdrop, List.take_append_drop]
    simp only [le64_ofLe64 h1, le64_ofLe64 h2, le64_ofLe64 h3, hsplit, List.take_append_drop]
  payload_make _ _ := rfl

theorem header_eq (rec : WalRecord) : header rec = flxr.header rec := by
  unfold header Format.header flxr
  simp only [List.append_assoc]
  rfl

theorem body_eq (rec : WalRecord) : body rec = flxr.body rec := congrArg (· ++ rec.blob) (header_eq rec)

theorem encode_eq (rec : WalRecord) : encode rec = flxr.encode rec := by
  rw [encode, body_eq]
  rfl

/-- The decoder accepts what the format accepts. -/
theorem decode_toOption (buf : Bytes) : (decode buf).toOption = flxr.decode buf := by
  have hlsn : (slice buf 8 32).take 8 = slice buf 8 16 := by
    unfold slice
    rw [List.take_drop, List.take_take]
    rfl
  have hplayer : ((slice buf 8 32).drop 8).take 8 = slice buf 16 24 := by
    unfold slice
    rw [List.drop_drop, List.take_drop, List.take_take]
    rfl
  have hversion : (slice buf 8 32).drop 16 = slice buf 24 32 := by
    unfold slice
    rw [List.drop_drop]
  have hh : flxr.headerLen = walHeaderLen := rfl
  have hf : 8 + flxr.fieldsLen = 32 := rfl
  have hm : flxr.magic = walMagic := rfl
  have hs : flxr.checksum = crc32 := rfl
  have hmake : ∀ f p, flxr.make f p =
      ⟨ofLe64 (f.take 8), ofLe64 ((f.drop 8).take 8), ofLe64 (f.drop 16), p⟩ := fun _ _ => rfl
  have hc : walCrcLen = 4 := rfl
  have hw : walHeaderLen = 36 := rfl
  unfold decode Format.decode
  rw [hh, hf, hm, hs, hc]
  dsimp only
  rw [hw]
  generalize (ofLe32 (slice buf 4 8)).toNat = n
  generalize (ofLe32 (slice buf 32 36)).toNat = m
  by_cases h1 : buf.length < 36
  · rw [if_pos h1, if_pos h1]; rfl
  by_cases h2 : ofLe32 (slice buf 0 4) ≠ walMagic
  · rw [if_neg h1, if_neg h1, if_pos h2, if_pos h2]; rfl
  rw [if_neg h1, if_neg h1, if_neg h2, if_neg h2]
  by_cases h3 : n < 36 + 4
  · rw [if_pos h3, if_pos (Or.inl h3)]; rfl
  by_cases h4 : buf.length < n
  · rw [if_neg h3, if_pos h4, if_pos (Or.inr h4)]; rfl
  rw [if_neg h3, if_neg h4, if_neg (not_or.mpr ⟨h3, h4⟩)]
  by_cases h5 : n ≠ 36 + m + 4
  · rw [if_pos h5, if_pos h5]; rfl
  rw [if_neg h5, if_neg h5]
  by_cases h6 : ofLe32 (slice buf (n - 4) n) ≠ crc32 (slice buf 0 (n - 4))
  · rw [if_pos h6, if_pos h6]; rfl
  · rw [if_neg h6, if_neg h6]
    simp only [hmake, hlsn, hplayer, hversion]
    rfl

theorem decode_eq_ok_iff {buf : Bytes} {rec : WalRecord} {n : ℕ} :
    decode buf = .ok (rec, n) ↔ flxr.decode buf = some (rec, n) := by
  rw [← decode_toOption]
  rcases decode buf with e | x
  · constructor <;>
    · intro h
      cases h
  · constructor
    · intro h
      rw [Except.ok.inj h]
      rfl
    · exact fun h => congrArg Except.ok (Option.some.inj h)

/-! ### Reading a frame back -/

section Read
variable {rec : WalRecord} {buf : Bytes} {n : ℕ}

theorem length_encode (rec : WalRecord) : (encode rec).length = frameLen rec := by
  rw [encode_eq, flxr.length_encode]
  rfl

/-- The first fields of a buffer that starts with a record's frame, and the last of its header. -/
structure Headed (buf : Bytes) (rec : WalRecord) : Prop where
  magic : ofLe32 (slice buf 0 4) = walMagic
  frameLen : ofLe32 (slice buf 4 8) = UInt32.ofNat (frameLen rec)
  blobLen : ofLe32 (slice buf 32 36) = UInt32.ofNat rec.blob.length

theorem headed_encode (rec : WalRecord) (s : Bytes) : Headed (encode rec ++ s) rec := by
  have hpre : flxr.header rec <+: encode rec ++ s := by
    rw [← header_eq, encode, body, List.append_assoc, List.append_assoc]
    exact List.prefix_append _ _
  obtain ⟨hmagic, hframe, -, hblob⟩ := Format.slice_header hpre
  exact ⟨hmagic, hframe, hblob⟩

theorem toNat_ofNat_of_lt {n : ℕ} (h : n < 2 ^ 32) : (UInt32.ofNat n).toNat = n := by
  rw [UInt32.toNat_ofNat', Nat.mod_eq_of_lt h]

/-- **Round trip**, in front of anything. -/
theorem decode_encode (h : Fits rec) (s : Bytes) :
    decode (encode rec ++ s) = .ok (rec, frameLen rec) := by
  rw [decode_eq_ok_iff, Format.decode_eq_some_iff, encode_eq]
  exact ⟨h, List.prefix_append _ s, rfl⟩

/-- **A frame that is not whole hides what is behind it**, up to its length. -/
theorem decode_short (h : Fits rec) {k : ℕ} (hk : 8 ≤ k) (hs : (encode rec).take k <+: buf)
    (hlen : buf.length < frameLen rec) : decode buf = .error .truncated := by
  have hshort : k < frameLen rec := by
    have hle := hs.length_le
    rw [List.length_take, length_encode] at hle
    omega
  have hfront : ∀ j ≤ k, buf.take j = (encode rec).take j := by
    intro j hj
    have htake := hs.take j
    rw [List.take_take, min_eq_left hj] at htake
    exact (htake.eq_of_length (by
      have hle := hs.length_le
      rw [List.length_take, length_encode] at hle
      rw [List.length_take, List.length_take, length_encode]
      omega)).symm
  have hh := headed_encode rec []
  rw [List.append_nil] at hh
  have hmagic : ofLe32 (slice buf 0 4) = walMagic := by
    rw [slice, hfront 4 (by omega)]
    exact hh.magic
  have hframe : ofLe32 (slice buf 4 8) = UInt32.ofNat (frameLen rec) := by
    rw [slice, hfront 8 hk]
    exact hh.frameLen
  have hge : ¬ frameLen rec < walHeaderLen + walCrcLen := by
    unfold frameLen
    omega
  unfold decode
  by_cases h36 : buf.length < walHeaderLen
  · rw [if_pos h36]
  · rw [if_neg h36, hmagic, if_neg (by simp)]
    simp only [hframe, toNat_ofNat_of_lt h]
    rw [if_neg hge, if_pos hlen]

/-- **A frame cut short is truncated.** -/
theorem decode_cut (h : Fits rec) (hn : n < frameLen rec) :
    decode ((encode rec).take n) = .error .truncated := by
  have hlen : ((encode rec).take n).length = n := by
    rw [List.length_take, length_encode]
    omega
  rcases Nat.lt_or_ge n 8 with hlt | hge
  · unfold decode
    rw [if_pos]
    rw [hlen]
    exact lt_trans hlt (by decide)
  · exact decode_short h hge (List.prefix_refl _) (by rw [hlen]; exact hn)

end Read

/-- The frames of the log as a codec. -/
def codec : Codec WalRecord UInt8 where
  encode := encode
  decode buf := (decode buf).toOption
  Fits := Fits
  decode_encode h s := by rw [decode_encode h s, length_encode]; rfl
  decode_cut h n hn := by rw [decode_cut h (by rwa [length_encode] at hn)]; rfl
  encode_ne_nil rec h := by
    have := length_encode rec
    rw [h] at this
    cases this

theorem codec_decode (buf : Bytes) : codec.decode buf = (decode buf).toOption := rfl

/-- What `decode` rejects may stand behind the last whole frame. -/
theorem torn_of_error {buf : Bytes} {e : DecodeError} (h : decode buf = .error e) : codec.Torn buf := by
  right
  rw [codec_decode, h]
  rfl

/-! ### Records of player 7 -/

/-- A record of one byte. -/
def sample (lsn : Lsn) : WalRecord := { lsn := lsn, playerId := 7, version := 1, blob := [1] }

/-- A record with a blob of zeros. -/
def zeros (lsn : Lsn) (n : ℕ) : WalRecord :=
  { lsn := lsn, playerId := 7, version := 1, blob := List.replicate n 0 }

theorem frameLen_zeros (lsn : Lsn) (n : ℕ) : frameLen (zeros lsn n) = 36 + n + 4 := by
  unfold frameLen zeros
  rw [List.length_replicate]
  rfl

end FluxThroughput.Domain.Frame
