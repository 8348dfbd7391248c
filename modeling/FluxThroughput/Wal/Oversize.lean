import FluxThroughput.Domain.Decode
import FluxThroughput.Wal.Refine

/-! # Blobs of any length

Nothing on the append path limits the length of a blob, and the lengths are stored in 32 bits. The
segment that appends leave is the image of their records whatever the lengths are, but what is decoded
was read from 32 bits: a record whose frame is longer is never returned. -/

namespace FluxThroughput.Wal.Oversize

open FluxThroughput.Domain.Types FluxThroughput.Domain.Frame FluxThroughput.Domain.Decode
open FluxThroughput.Lib.LittleEndian FluxThroughput.Lib.Frames
open FluxThroughput.Wal.Segment FluxThroughput.Wal.File FluxThroughput.Wal.Refine

/-! ### What appends leave -/

/-- The disk and the writer after appends to the `Wal` of an empty directory. -/
def appended (batches : List (List WalRecord)) : Option (Disk × Inner) :=
  (openWal Disk.empty).map (batches.foldl fun w batch => (appendBatch w.1 w.2 batch).2)

/-- The writer is at the end of the image of some records. -/
def Holds (w : Disk × Inner) (records : List WalRecord) : Prop :=
  w.1.readAll = some (image records) ∧ w.1.active = some w.2.file ∧ AtEnd w.1 w.2 w.2.file

theorem holds_append {w : Disk × Inner} {records : List WalRecord} (h : Holds w records)
    (batch : List WalRecord) : Holds (appendBatch w.1 w.2 batch).2 (records ++ batch) := by
  obtain ⟨hread, hact, hend⟩ := h
  have hbytes : w.1.files w.2.file = image records := by
    rw [Disk.readAll, hact] at hread
    exact Option.some.inj hread
  by_cases hne : batch = []
  · subst hne
    rw [appendBatch, if_pos rfl, List.append_nil]
    exact ⟨hread, hact, hend⟩
  · have hfile : (w.1.write w.2.file w.2.cursor (codec.frames batch)).files w.2.file =
        image (records ++ batch) := by
      simp only [Disk.write, Disk.setFile, Function.update_self]
      rw [hend.cursor, overwrite_end, hbytes, image_append]
    rw [appendBatch_eq hend.buffer hne]
    refine ⟨?_, hact, rfl, ?_, hend.buffer⟩
    · show Option.map _ w.1.active = _
      rw [hact, Option.map_some, hfile]
    · show w.2.cursor + (codec.frames batch).length = _
      rw [hfile, hend.cursor, hbytes, image_append, List.length_append]

theorem holds_appends : ∀ (batches : List (List WalRecord)) {w : Disk × Inner}
    {records : List WalRecord}, Holds w records →
    Holds (batches.foldl (fun w batch => (appendBatch w.1 w.2 batch).2) w) (records ++ batches.flatten)
  | [], w, records, h => by
    rw [List.flatten_nil, List.append_nil]
    exact h
  | batch :: batches, w, records, h => by
    rw [List.flatten_cons, ← List.append_assoc]
    exact holds_appends batches (holds_append h batch)

/-- **The segment that appends leave** is the header and the frame of every record. -/
theorem readAll_appended (batches : List (List WalRecord)) :
    (appended batches).bind (fun w => w.1.readAll) = some (image batches.flatten) := by
  obtain ⟨d, hopen, hd, -⟩ := openWal_empty
  have hbytes : d.files 0 = image [] := by rw [hd.bytes, List.append_nil]
  have h : Holds (d, Inner.new 0 (d.files 0).length 0) [] := by
    refine ⟨?_, hd.active, atEnd_new⟩
    rw [Disk.readAll, hd.active, Option.map_some, hbytes]
  have h' := holds_appends batches h
  rw [appended, hopen]
  exact h'.1

/-! ### What is read back -/

/-- **Every record of a decoded segment has a frame shorter than `2 ^ 32` bytes.** -/
theorem decodeSegment_fits (bytes : Bytes) : ∀ r ∈ (decodeSegment bytes).1, Fits r := by
  intro r hr
  unfold decodeSegment at hr
  by_cases hshort : bytes.length < headerLen
  · rw [if_pos hshort] at hr
    cases hr
  · by_cases hmagic : bytes.take headerLen ≠ headerMagic
    · rw [if_neg hshort, if_pos hmagic] at hr
      cases hr
    · rw [if_neg hshort, if_neg hmagic, decodeLoop_eq, List.nil_append] at hr
      exact Codec.scan_fits (fun h => (codec_decode_inv h).1) _ _ r hr

/-- A log reads back exactly when the frames of all its records fit. -/
theorem decodeSegment_image_iff (records : List WalRecord) :
    decodeSegment (image records) = (records, (image records).length) ↔ ∀ r ∈ records, Fits r := by
  constructor
  · intro h r hr
    have hfits := decodeSegment_fits (image records)
    rw [h] at hfits
    exact hfits r hr
  · intro h
    have hseg : decodeSegment (image records ++ []) = (records, (image records).length) :=
      decodeSegment_image (Or.inl rfl) h
    rwa [List.append_nil] at hseg

/-- **Acknowledged writes of any length**: appends leave the segment of their records, and it decodes to
exactly these and to its full length if and only if every frame is shorter than `2 ^ 32` bytes. -/
theorem appended_reads_back_iff (batches : List (List WalRecord)) :
    ∃ bytes, (appended batches).bind (fun w => w.1.readAll) = some bytes ∧
      bytes = headerMagic ++ batches.flatten.flatMap encode ∧
      (decodeSegment bytes = (batches.flatten, bytes.length) ↔
        ∀ r ∈ batches.flatten, r.blob.length < 2 ^ 32 - 40) := by
  refine ⟨image batches.flatten, readAll_appended batches, rfl, ?_⟩
  rw [decodeSegment_image_iff]
  refine forall_congr' fun r => forall_congr' fun _ => ?_
  have hlen : frameLen r = 36 + r.blob.length + 4 := rfl
  unfold Fits
  omega

/-! ### A wrapped length -/

/-- A frame whose stored length is too small is taken for a torn tail. -/
theorem decode_wrapped {r : WalRecord} (h : frameLen r % 2 ^ 32 < walHeaderLen + walCrcLen)
    (s : Bytes) : decode (encode r ++ s) = .error .truncated := by
  have hh := headed_encode r s
  have hlen : ¬ (encode r ++ s).length < walHeaderLen := by
    have := length_encode r
    rw [List.length_append, this]
    unfold frameLen
    omega
  unfold decode
  simp only [hh.magic, hh.frameLen, UInt32.toNat_ofNat']
  rw [if_neg hlen, if_neg (by simp), if_pos h]

/-- Nothing is read of a log whose first frame has such a length. -/
theorem decodeSegment_wrapped {r : WalRecord} (h : frameLen r % 2 ^ 32 < walHeaderLen + walCrcLen)
    (records : List WalRecord) : decodeSegment (image (r :: records)) = ([], headerLen) := by
  have hdec : decode (codec.frames (r :: records)) = .error .truncated := by
    rw [Codec.frames_cons]
    exact decode_wrapped h _
  have hnone : ∀ rec ∈ ([] : List WalRecord), Fits rec := fun rec hrec => by cases hrec
  have himage : image (r :: records) = image [] ++ codec.frames (r :: records) :=
    image_append [] (r :: records)
  rw [himage, decodeSegment_image (torn_of_error hdec) hnone]
  rfl

def later : WalRecord := { lsn := 2, playerId := 8, version := 1, blob := [1, 2, 3] }

/-- **One oversized blob** makes itself and the small record after it unreadable. -/
theorem oversized_hides_later :
    (appended [[zeros 1 (2 ^ 32 - 40)], [later]]).bind (fun w => w.1.readAll) =
      some (image [zeros 1 (2 ^ 32 - 40), later]) ∧
    decodeSegment (image [zeros 1 (2 ^ 32 - 40), later]) = ([], headerLen) := by
  refine ⟨readAll_appended [[zeros 1 (2 ^ 32 - 40)], [later]], decodeSegment_wrapped ?_ [later]⟩
  rw [frameLen_zeros]
  norm_num [walHeaderLen, walCrcLen]

end FluxThroughput.Wal.Oversize
