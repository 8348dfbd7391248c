import FluxThroughput.Lib.Frames
import FluxThroughput.Lib.LittleEndian

/-! # Sealed frames

A frame is a magic word, its own length, the fields of a value (of one fixed size), the length of the
payload, the payload and a checksum of everything before. For any magic, fields and checksum, `decode`
accepts exactly the frames that `encode` writes and whose length fits its word (`decode_eq_some_iff`), so
they form a codec. A frame whose first bytes are in place hides what is behind it, up to its length
(`decode_eq_none_of_header`). -/

namespace FluxThroughput.Lib.Sealed

open FluxThroughput.Lib.LittleEndian FluxThroughput.Lib.Frames

/-- The format of a frame: how a value is made of its fields and its payload. -/
structure Format (α : Type*) where
  magic : UInt32
  checksum : List UInt8 → UInt32
  fieldsLen : ℕ
  fields : α → List UInt8
  payload : α → List UInt8
  make : List UInt8 → List UInt8 → α
  length_fields : ∀ a, (fields a).length = fieldsLen
  make_fields : ∀ a, make (fields a) (payload a) = a
  fields_make : ∀ {f} p, f.length = fieldsLen → fields (make f p) = f
  payload_make : ∀ {f} p, f.length = fieldsLen → payload (make f p) = p

namespace Format

variable {α : Type*} (F : Format α)

def headerLen : ℕ := 8 + F.fieldsLen + 4

def frameLen (a : α) : ℕ := F.headerLen + (F.payload a).length + 4

/-- Everything before the payload. -/
def header (a : α) : List UInt8 :=
  le32 F.magic ++ (le32 (UInt32.ofNat (F.frameLen a)) ++ (F.fields a ++
    le32 (UInt32.ofNat (F.payload a).length)))

/-- Everything the checksum covers. -/
def body (a : α) : List UInt8 := F.header a ++ F.payload a

def encode (a : α) : List UInt8 := F.body a ++ le32 (F.checksum (F.body a))

/-- The value at the front of a string, and the length of its frame. -/
def decode (buf : List UInt8) : Option (α × ℕ) :=
  if buf.length < F.headerLen then none
  else if ofLe32 (slice buf 0 4) ≠ F.magic then none
  else
    let n := (ofLe32 (slice buf 4 8)).toNat
    if n < F.headerLen + 4 ∨ buf.length < n then none
    else
      let m := (ofLe32 (slice buf (8 + F.fieldsLen) F.headerLen)).toNat
      if n ≠ F.headerLen + m + 4 then none
      else if ofLe32 (slice buf (n - 4) n) ≠ F.checksum (slice buf 0 (n - 4)) then none
      else some (F.make (slice buf 8 (8 + F.fieldsLen)) (slice buf F.headerLen (F.headerLen + m)), n)

/-- The frame's length fits its length field. -/
def Fits (a : α) : Prop := F.frameLen a < 2 ^ 32

instance : DecidablePred F.Fits := fun a => inferInstanceAs (Decidable (F.frameLen a < 2 ^ 32))

theorem length_header (a : α) : (F.header a).length = F.headerLen := by
  simp only [header, List.length_append, length_le32, F.length_fields, headerLen]
  omega

theorem length_body (a : α) : (F.body a).length = F.headerLen + (F.payload a).length := by
  rw [body, List.length_append, F.length_header]

theorem length_encode (a : α) : (F.encode a).length = F.frameLen a := by
  rw [encode, List.length_append, F.length_body, length_le32]
  rfl

theorem lt_frameLen (a : α) : 12 < F.frameLen a := by
  unfold frameLen headerLen
  omega

/-! ### What is accepted -/

/-- What an accepted string satisfies. -/
structure Accepted (buf : List UInt8) (a : α) (n : ℕ) : Prop where
  magic : ofLe32 (slice buf 0 4) = F.magic
  frameLen : (ofLe32 (slice buf 4 8)).toNat = n
  whole : n ≤ buf.length
  payloadLen : n = F.headerLen + (ofLe32 (slice buf (8 + F.fieldsLen) F.headerLen)).toNat + 4
  sum : ofLe32 (slice buf (n - 4) n) = F.checksum (slice buf 0 (n - 4))
  value : F.make (slice buf 8 (8 + F.fieldsLen)) (slice buf F.headerLen (n - 4)) = a

variable {F} {buf : List UInt8} {a : α} {n : ℕ}

theorem decode_eq_some_iff_accepted : F.decode buf = some (a, n) ↔ F.Accepted buf a n := by
  unfold decode
  constructor
  · intro h
    by_cases h1 : buf.length < F.headerLen
    · rw [if_pos h1] at h; cases h
    by_cases h2 : ofLe32 (slice buf 0 4) ≠ F.magic
    · rw [if_neg h1, if_pos h2] at h; cases h
    rw [if_neg h1, if_neg h2] at h
    generalize hn : (ofLe32 (slice buf 4 8)).toNat = k at h
    generalize hm : (ofLe32 (slice buf (8 + F.fieldsLen) F.headerLen)).toNat = m at h
    by_cases h3 : k < F.headerLen + 4 ∨ buf.length < k
    · rw [if_pos h3] at h; cases h
    by_cases h4 : k ≠ F.headerLen + m + 4
    · rw [if_neg h3, if_pos h4] at h; cases h
    by_cases h5 : ofLe32 (slice buf (k - 4) k) ≠ F.checksum (slice buf 0 (k - 4))
    · rw [if_neg h3, if_neg h4, if_pos h5] at h; cases h
    rw [if_neg h3, if_neg h4, if_neg h5] at h
    obtain ⟨hvalue, rfl⟩ := Prod.mk.inj (Option.some.inj h)
    have hk : k = F.headerLen + m + 4 := not_not.mp h4
    have hend : F.headerLen + m = k - 4 := by omega
    refine ⟨not_not.mp h2, hn, by omega, by rw [hm]; exact hk, not_not.mp h5, ?_⟩
    rw [← hvalue, hend]
  · intro h
    have hlen := h.payloadLen
    have hwhole := h.whole
    have hend : F.headerLen + (ofLe32 (slice buf (8 + F.fieldsLen) F.headerLen)).toNat = n - 4 := by
      omega
    simp only [h.magic, h.frameLen, hend]
    rw [if_neg (by omega), if_neg (by simp), if_neg (by omega), if_neg (by omega),
      if_neg (not_not.mpr h.sum), h.value]

/-- The first bytes of a frame, whatever follows them. -/
theorem slice_header {s : List UInt8} (hs : F.header a <+: s) :
    ofLe32 (slice s 0 4) = F.magic ∧ ofLe32 (slice s 4 8) = UInt32.ofNat (F.frameLen a) ∧
      slice s 8 (8 + F.fieldsLen) = F.fields a ∧
      ofLe32 (slice s (8 + F.fieldsLen) F.headerLen) = UInt32.ofNat (F.payload a).length := by
  obtain ⟨t, rfl⟩ := hs
  have hfields := F.length_fields a
  refine ⟨?_, ?_, ?_, ?_⟩
  · rw [header, List.append_assoc, slice_zero (length_le32 _), ofLe32_le32]
  · rw [header, List.append_assoc, List.append_assoc, slice_append (length_le32 _)
      (by rw [length_le32]), ofLe32_le32]
  · have hword : (le32 F.magic ++ le32 (UInt32.ofNat (F.frameLen a))).length = 8 := by
      rw [List.length_append, length_le32, length_le32]
    rw [header, List.append_assoc, List.append_assoc, List.append_assoc, ← List.append_assoc,
      slice_append hword (by rw [hfields])]
  · have hword : (le32 F.magic ++ (le32 (UInt32.ofNat (F.frameLen a)) ++ F.fields a)).length =
        8 + F.fieldsLen := by
      rw [List.length_append, List.length_append, length_le32, length_le32, hfields]
      omega
    have hsplit : F.header a ++ t = (le32 F.magic ++ (le32 (UInt32.ofNat (F.frameLen a)) ++
        F.fields a)) ++ (le32 (UInt32.ofNat (F.payload a).length) ++ t) := by
      simp only [header, List.append_assoc]
    rw [hsplit, slice_append hword (by rw [length_le32]; rfl), ofLe32_le32]

namespace Accepted

/-- The parts of an accepted string have the lengths of the value's parts. -/
theorem lengths (h : F.Accepted buf a n) :
    (slice buf 8 (8 + F.fieldsLen)).length = F.fieldsLen ∧ F.headerLen + 4 ≤ n ∧
      (F.payload a).length = (ofLe32 (slice buf (8 + F.fieldsLen) F.headerLen)).toNat := by
  have hlen := h.payloadLen
  have hwhole := h.whole
  have hheader : F.headerLen = 8 + F.fieldsLen + 4 := rfl
  have hfields : (slice buf 8 (8 + F.fieldsLen)).length = F.fieldsLen := by
    rw [length_slice (by omega)]
    omega
  refine ⟨hfields, by omega, ?_⟩
  rw [← h.value, F.payload_make _ hfields, length_slice (by omega)]
  omega

theorem frameLen_eq (h : F.Accepted buf a n) : F.frameLen a = n := by
  have hlen := h.payloadLen
  unfold Format.frameLen
  rw [h.lengths.2.2, ← hlen]

/-- The accepted length was read from 32 bits. -/
theorem fits (h : F.Accepted buf a n) : F.Fits a := by
  unfold Fits
  rw [h.frameLen_eq, ← h.frameLen]
  exact (ofLe32 (slice buf 4 8)).toNat_lt

/-- A word field is the encoding of what it reads as. -/
theorem le32_slice {i j : ℕ} (h : F.Accepted buf a n) (hij : i + 4 = j) (hj : j ≤ n) :
    le32 (ofLe32 (slice buf i j)) = slice buf i j := by
  have hw := h.whole
  apply le32_ofLe32
  rw [length_slice (by omega)]
  omega

/-- **An accepted string starts with the frame of its value.** -/
theorem take_eq (h : F.Accepted buf a n) : buf.take n = F.encode a := by
  obtain ⟨hfields, hle, hpay⟩ := h.lengths
  have hheader : F.headerLen = 8 + F.fieldsLen + 4 := rfl
  have hmagic : le32 F.magic = slice buf 0 4 := by rw [← h.magic, h.le32_slice rfl (by omega)]
  have hframe : le32 (UInt32.ofNat (F.frameLen a)) = slice buf 4 8 := by
    rw [h.frameLen_eq, ← h.frameLen, UInt32.ofNat_toNat, h.le32_slice rfl (by omega)]
  have hword : le32 (UInt32.ofNat (F.payload a).length) = slice buf (8 + F.fieldsLen) F.headerLen := by
    rw [hpay, UInt32.ofNat_toNat, h.le32_slice hheader.symm (by omega)]
  have hmake : F.fields a = slice buf 8 (8 + F.fieldsLen) ∧ F.payload a = slice buf F.headerLen (n - 4) := by
    rw [← h.value]
    exact ⟨F.fields_make _ hfields, F.payload_make _ hfields⟩
  have hbody : F.body a = slice buf 0 (n - 4) := by
    rw [body, header, hmagic, hframe, hword, hmake.1, hmake.2, ← slice_split (by omega) (by omega),
      ← slice_split (by omega) (by omega), ← slice_split (by omega) (by omega),
      ← slice_split (by omega) (by omega)]
  have hsum : le32 (F.checksum (F.body a)) = slice buf (n - 4) n := by
    rw [hbody, ← h.sum, h.le32_slice (by omega) le_rfl]
  rw [encode, hsum, hbody, ← slice_split (by omega) (by omega)]
  rfl

end Accepted

/-- A frame in front of anything is accepted. -/
theorem accepted_encode (h : F.Fits a) (s : List UInt8) :
    F.Accepted (F.encode a ++ s) a (F.frameLen a) := by
  have hlen : F.frameLen a = F.headerLen + (F.payload a).length + 4 := rfl
  have hend : F.frameLen a - 4 = F.headerLen + (F.payload a).length := by omega
  have hfit : F.frameLen a < 2 ^ 32 := h
  have hword : ∀ k, k < 2 ^ 32 → (UInt32.ofNat k).toNat = k := fun k hk => by
    rw [UInt32.toNat_ofNat', Nat.mod_eq_of_lt hk]
  have hsplit : F.encode a ++ s = F.body a ++ (le32 (F.checksum (F.body a)) ++ s) := by
    rw [encode, List.append_assoc]
  have hbody : F.encode a ++ s = F.header a ++ (F.payload a ++ (le32 (F.checksum (F.body a)) ++ s)) := by
    rw [hsplit, body, List.append_assoc]
  obtain ⟨hmagic, hframe, hfields, hpay⟩ :=
    slice_header (F := F) (a := a) (s := F.encode a ++ s) ⟨_, hbody.symm⟩
  refine ⟨hmagic, by rw [hframe, hword _ hfit], ?_, ?_, ?_, ?_⟩
  · rw [List.length_append, F.length_encode]
    exact Nat.le_add_right _ _
  · rw [hpay, hword _ (by omega)]
    rfl
  · rw [hend, hsplit, slice_append (F.length_body a) (by rw [length_le32]; rfl),
      slice_zero (F.length_body a), ofLe32_le32]
  · rw [hfields, hend, hbody, slice_append (F.length_header a) rfl, F.make_fields]

/-- **Canonical frames**: a value is accepted exactly in front of its own frame, if that fits. -/
theorem decode_eq_some_iff :
    F.decode buf = some (a, n) ↔ F.Fits a ∧ F.encode a <+: buf ∧ n = F.frameLen a := by
  rw [decode_eq_some_iff_accepted]
  constructor
  · intro h
    refine ⟨h.fits, ?_, h.frameLen_eq.symm⟩
    rw [← h.take_eq]
    exact List.take_prefix n buf
  · rintro ⟨hfits, ⟨s, rfl⟩, rfl⟩
    exact accepted_encode hfits s

/-- **A frame that is not whole hides what is behind it**: a string that starts with the magic and the
length of a frame is rejected while it is shorter than that frame. -/
theorem decode_eq_none_of_header {k : ℕ} (hfits : F.Fits a) (hk : 8 ≤ k)
    (hs : (F.encode a).take k <+: buf) (hlen : buf.length < F.frameLen a) : F.decode buf = none := by
  rcases hdec : F.decode buf with _ | ⟨b, n⟩
  · rfl
  · have h := decode_eq_some_iff_accepted.mp hdec
    obtain ⟨t, ht⟩ := hs
    obtain ⟨-, hframe, -, -⟩ := slice_header (F := F) (a := a) (s := F.encode a)
      ⟨_, by rw [encode, body, List.append_assoc]⟩
    have hword : slice buf 4 8 = slice (F.encode a) 4 8 := by
      have hshort : k < F.frameLen a := by
        have := congrArg List.length ht
        rw [List.length_append, List.length_take, F.length_encode] at this
        omega
      rw [← slice_take (a := F.encode a) hk, ← ht]
      unfold slice
      rw [List.take_append_of_le_length (by rw [List.length_take, F.length_encode]; omega)]
    have hn := h.frameLen
    rw [hword, hframe, UInt32.toNat_ofNat', Nat.mod_eq_of_lt hfits] at hn
    have hwhole := h.whole
    omega

/-- A frame cut short is rejected. -/
theorem decode_take (hfits : F.Fits a) (hn : n < F.frameLen a) : F.decode ((F.encode a).take n) = none := by
  have hlen : ((F.encode a).take n).length = n := by
    rw [List.length_take, F.length_encode]
    omega
  rcases Nat.lt_or_ge n 8 with hlt | hge
  · unfold decode
    rw [if_pos]
    rw [hlen]
    unfold headerLen
    omega
  · exact decode_eq_none_of_header hfits hge (List.prefix_refl _) (by omega)

variable (F)

/-- **The frames as a codec.** -/
def codec : Codec α UInt8 where
  encode := F.encode
  decode := F.decode
  Fits := F.Fits
  decode_encode {a} h s := decode_eq_some_iff.mpr ⟨h, List.prefix_append _ s, F.length_encode a⟩
  decode_cut {a} h n hn := decode_take h (by rwa [F.length_encode] at hn)
  encode_ne_nil a h := by
    have hlen := F.length_encode a
    rw [h, List.length_nil] at hlen
    have := F.lt_frameLen a
    omega

end Format

end FluxThroughput.Lib.Sealed
