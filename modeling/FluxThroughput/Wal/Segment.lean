import FluxThroughput.Domain.Frame

/-! # The segment file

A segment is the file magic and then frames. `decodeSegment` reads frames until the first that does not
decode; on the image of a log with a torn tail it finds the log and where the tail begins. -/

namespace FluxThroughput.Wal.Segment

open FluxThroughput.Domain.Types FluxThroughput.Domain.Frame FluxThroughput.Lib.Frames

/-- `b"FLUXWAL1"`. -/
def headerMagic : Bytes := [70, 76, 85, 88, 87, 65, 76, 49]

def headerLen : ℕ := 8

/-- The scan from `pos` on. A frame takes at least one byte, so the length of the segment is enough fuel. -/
def decodeLoop (bytes : Bytes) : ℕ → ℕ → List WalRecord → List WalRecord × ℕ
  | 0, pos, records => (records, pos)
  | fuel + 1, pos, records =>
    if pos < bytes.length then
      match decode (bytes.drop pos) with
      | .ok (rec, consumed) => decodeLoop bytes fuel (pos + consumed) (records ++ [rec])
      | .error _ => (records, pos)
    else (records, pos)

/-- **The valid log of a segment**: its records, and the offset just past the last good frame. -/
def decodeSegment (bytes : Bytes) : List WalRecord × ℕ :=
  if bytes.length < headerLen then ([], bytes.length)
  else if bytes.take headerLen ≠ headerMagic then ([], bytes.length)
  else decodeLoop bytes bytes.length headerLen []

/-- The bytes of a log: the header and one frame for each record. -/
def image (records : List WalRecord) : Bytes := headerMagic ++ codec.frames records

theorem image_append (a b : List WalRecord) : image (a ++ b) = image a ++ codec.frames b := by
  rw [image, Codec.frames_append, ← List.append_assoc, image]

theorem headerLen_le_image (records : List WalRecord) : headerLen ≤ (image records).length := by
  rw [image, List.length_append]
  exact Nat.le_add_right _ _

theorem take_image (records : List WalRecord) (t : Bytes) :
    (image records ++ t).take headerLen = headerMagic := by
  rw [image, List.append_assoc]
  exact List.take_left' rfl

/-- The scan of a segment is the scan of its frames. -/
theorem decodeLoop_eq (bytes : Bytes) : ∀ (fuel pos : ℕ) (records : List WalRecord),
    decodeLoop bytes fuel pos records =
      (records ++ (codec.scan fuel (bytes.drop pos)).1, pos + (codec.scan fuel (bytes.drop pos)).2)
  | 0, pos, records => by
    rw [decodeLoop, Codec.scan, List.append_nil, Nat.add_zero]
  | fuel + 1, pos, records => by
    rw [decodeLoop, Codec.scan]
    by_cases hpos : pos < bytes.length
    · have hne : bytes.drop pos ≠ [] := by
        rw [Ne, List.drop_eq_nil_iff]
        omega
      rw [if_pos hpos, if_neg hne]
      have hdec : codec.decode (bytes.drop pos) = (decode (bytes.drop pos)).toOption := rfl
      rw [hdec]
      rcases decode (bytes.drop pos) with e | ⟨rec, consumed⟩
      · simp [Except.toOption]
      · simp only [Except.toOption]
        rw [decodeLoop_eq bytes fuel, List.drop_drop, List.append_assoc, Nat.add_assoc]
        rfl
    · rw [if_neg hpos, if_pos (List.drop_eq_nil_of_le (not_lt.mp hpos)), List.append_nil,
        Nat.add_zero]

/-- **The image of a log reads back**, up to its torn tail. -/
theorem decodeSegment_image {records : List WalRecord} {t : Bytes} (ht : codec.Torn t)
    (hfits : ∀ rec ∈ records, Fits rec) :
    decodeSegment (image records ++ t) = (records, (image records).length) := by
  have hlen := headerLen_le_image records
  have hfuel : records.length ≤ (image records ++ t).length := by
    have := Codec.length_le_frames (C := codec) records
    rw [List.length_append, image, List.length_append]
    omega
  have hdrop : (image records ++ t).drop headerLen = codec.frames records ++ t := by
    rw [image, List.append_assoc]
    exact List.drop_left' rfl
  unfold decodeSegment
  rw [if_neg (by rw [List.length_append]; omega), if_neg (not_not.mpr (take_image records t)),
    decodeLoop_eq, hdrop, Codec.scan_frames ht _ hfuel hfits, List.nil_append, image,
    List.length_append]
  rfl

end FluxThroughput.Wal.Segment
