import FluxThroughput.Domain.Decode
import FluxThroughput.Wal.Segment

/-! # The longest valid log of a segment

Every segment splits in one way into the image of a log and a rest that is empty or does not decode
(`LogOf`), and `decode_segment` finds this log: every log whose image is a prefix of the segment is a prefix
of it. `decodeSegmentChecked` is the source's loop with every slice checked against its string, and without
an answer when it runs out of steps; each step consumes a frame, so it ends. -/

namespace FluxThroughput.Wal.Longest

open FluxThroughput.Domain.Types FluxThroughput.Domain.Frame FluxThroughput.Domain.Decode
open FluxThroughput.Lib.Frames FluxThroughput.Lib.LittleEndian FluxThroughput.Wal.Segment

/-! ### The loop with its slices checked -/

/-- The scan for at most `fuel` rounds: `none` where the source would panic, or has not ended. -/
def decodeLoopChecked (bytes : Bytes) : ℕ → ℕ → ℕ → List WalRecord → Option (List WalRecord × ℕ)
  | 0, _, _, _ => none
  | fuel + 1, pos, goodEnd, records =>
    if pos < bytes.length then
      match (index bytes pos bytes.length).bind decodeChecked with
      | some (.ok (rec, consumed)) =>
        decodeLoopChecked bytes fuel (pos + consumed) (pos + consumed) (records ++ [rec])
      | some (.error _) => some (records, goodEnd)
      | none => none
    else some (records, goodEnd)

/-- `decode_segment` for at most `fuel` rounds of its loop, with every slice checked. -/
def decodeSegmentChecked (fuel : ℕ) (bytes : Bytes) : Option (List WalRecord × ℕ) :=
  if bytes.length < headerLen then some ([], bytes.length)
  else
    match index bytes 0 headerLen with
    | none => none
    | some magic =>
      if magic ≠ headerMagic then some ([], bytes.length)
      else decodeLoopChecked bytes fuel headerLen headerLen []

/-- **The loop ends** within one round for each byte that is left, and no slice is out of range. -/
theorem decodeLoopChecked_eq (bytes : Bytes) : ∀ {fuel n pos : ℕ} {records : List WalRecord},
    bytes.length - pos < fuel → bytes.length - pos ≤ n →
    decodeLoopChecked bytes fuel pos pos records = some (decodeLoop bytes n pos records)
  | 0, _, _, _, hfuel, _ => by omega
  | fuel + 1, n, pos, records, hfuel, hn => by
    rw [decodeLoopChecked]
    by_cases hpos : pos < bytes.length
    · obtain ⟨n, rfl⟩ : ∃ m, n = m + 1 := ⟨n - 1, by omega⟩
      have hslice : slice bytes pos bytes.length = bytes.drop pos := by
        rw [slice, List.take_length]
      rw [decodeLoop, if_pos hpos, if_pos hpos, index_eq bytes hpos.le le_rfl, Option.bind_some,
        decodeChecked_eq, hslice]
      rcases hdec : decode (bytes.drop pos) with e | ⟨rec, consumed⟩
      · rfl
      · have ha := decode_inv hdec
        have hge : 40 ≤ consumed := ha.lengths.2.1
        exact decodeLoopChecked_eq bytes (by omega) (by omega)
    · rw [if_neg hpos]
      cases n with
      | zero => rfl
      | succ n => rw [decodeLoop, if_neg hpos]

theorem decodeSegmentChecked_eq {fuel : ℕ} {bytes : Bytes} (hfuel : bytes.length < fuel) :
    decodeSegmentChecked fuel bytes = some (decodeSegment bytes) := by
  unfold decodeSegmentChecked decodeSegment
  by_cases hshort : bytes.length < headerLen
  · rw [if_pos hshort, if_pos hshort]
  · have hslice : slice bytes 0 headerLen = bytes.take headerLen := by
      rw [slice, List.drop_zero]
    rw [if_neg hshort, if_neg hshort, index_eq bytes (Nat.zero_le _) (not_lt.mp hshort), hslice]
    simp only
    by_cases hmagic : bytes.take headerLen ≠ headerMagic
    · rw [if_pos hmagic, if_pos hmagic]
    · rw [if_neg hmagic, if_neg hmagic]
      exact decodeLoopChecked_eq bytes (by omega) (by omega)

/-! ### The log of a segment -/

/-- **A segment split** into the image of a log, whose frames are shorter than `2 ^ 32` bytes, and a rest
that is empty or does not decode. -/
structure LogOf (bytes : Bytes) (records : List WalRecord) (rest : Bytes) : Prop where
  split : bytes = image records ++ rest
  rest : rest = [] ∨ ∃ e, decode rest = .error e
  fits : ∀ rec ∈ records, Fits rec

section LogOf
variable {bytes rest rest' : Bytes} {records records' : List WalRecord}

/-- What does not decode is torn. -/
theorem torn_iff : codec.Torn rest ↔ rest = [] ∨ ∃ e, decode rest = .error e := by
  refine or_congr_right ?_
  rw [codec_decode]
  rcases decode rest with e | x
  · exact ⟨fun _ => ⟨e, rfl⟩, fun _ => rfl⟩
  · exact ⟨fun h => (by cases h), fun ⟨_, h⟩ => (by cases h)⟩

/-- **The scan finds the log**, and where it ends. -/
theorem LogOf.decodeSegment (h : LogOf bytes records rest) :
    decodeSegment bytes = (records, (image records).length) := by
  rw [h.split]
  exact decodeSegment_image (torn_iff.mpr h.rest) h.fits

theorem LogOf.unique (h : LogOf bytes records rest) (h' : LogOf bytes records' rest') :
    records' = records ∧ rest' = rest := by
  have hrecords : records' = records :=
    (Prod.mk.inj (h'.decodeSegment.symm.trans h.decodeSegment)).1
  subst hrecords
  exact ⟨rfl, List.append_cancel_left (h'.split.symm.trans h.split)⟩

/-- **Every segment is split so.** -/
theorem exists_logOf (hmagic : headerMagic <+: bytes) : ∃ records rest, LogOf bytes records rest := by
  obtain ⟨body, rfl⟩ := hmagic
  obtain ⟨records, rest, rfl, htorn, hfits⟩ :=
    Codec.exists_frames (C := codec) codec_decode_inv _ body le_rfl
  exact ⟨records, rest, by rw [image, List.append_assoc], torn_iff.mp htorn, hfits⟩

/-- **The log is the longest**: every log whose image the segment starts with is a prefix of it. -/
theorem LogOf.longest (h : LogOf bytes records rest) (hfits : ∀ rec ∈ records', Fits rec)
    (hopening : image records' <+: bytes) : records' <+: records := by
  obtain ⟨behind, hsplit⟩ := hopening
  obtain ⟨more, rest', hbehind, htorn, hmore⟩ :=
    Codec.exists_frames (C := codec) codec_decode_inv _ behind le_rfl
  have h' : LogOf bytes (records' ++ more) rest' := by
    refine ⟨?_, torn_iff.mp htorn, fun rec hrec => ?_⟩
    · rw [← hsplit, hbehind, image_append, List.append_assoc]
    · exact (List.mem_append.mp hrec).elim (hfits rec) (hmore rec)
  exact ⟨more, (h.unique h').1⟩

/-- The log alone. -/
theorem LogOf.cut (h : LogOf bytes records rest) : LogOf (bytes.take (image records).length) records [] where
  split := by rw [h.split, List.take_left, List.append_nil]
  rest := Or.inl rfl
  fits := h.fits

end LogOf

/-- **`decode_segment` finds the longest valid log**: on every segment with the file magic it ends with no
slice out of range, and returns the records of the one split into a log and a rest, and where the rest
begins. No longer log starts the segment, and the segment cut there decodes to the same, with nothing
left over. -/
theorem decodeSegment_longest {bytes : Bytes} (hmagic : headerMagic <+: bytes) :
    ∃ records goodEnd rest, decodeSegment bytes = (records, goodEnd) ∧
      (∀ fuel, bytes.length < fuel → decodeSegmentChecked fuel bytes = some (records, goodEnd)) ∧
      LogOf bytes records rest ∧ goodEnd = (image records).length ∧
      (∀ records' rest', LogOf bytes records' rest' → records' = records ∧ rest' = rest) ∧
      (∀ records', (∀ rec ∈ records', Fits rec) → image records' <+: bytes → records' <+: records) ∧
      decodeSegment (bytes.take goodEnd) = (records, goodEnd) ∧ (bytes.take goodEnd).length = goodEnd := by
  obtain ⟨records, rest, h⟩ := exists_logOf hmagic
  refine ⟨records, (image records).length, rest, h.decodeSegment, fun fuel hfuel => ?_, h, rfl,
    fun _ _ => h.unique, fun _ => h.longest, h.cut.decodeSegment, ?_⟩
  · rw [decodeSegmentChecked_eq hfuel, h.decodeSegment]
  · rw [h.split, List.take_left]

/-- A segment of one frame and a torn one. -/
def tornSegment : Bytes :=
  image [{ lsn := 1, playerId := 7, version := 1, blob := [1, 2] }] ++ [88, 82, 76]

theorem decodeSegment_longest_torn : ∃ records goodEnd rest,
    decodeSegment tornSegment = (records, goodEnd) ∧ LogOf tornSegment records rest ∧
      goodEnd = (image records).length := by
  have hmagic : headerMagic <+: tornSegment := ⟨_, (List.append_assoc headerMagic _ _).symm⟩
  obtain ⟨records, goodEnd, rest, hdec, -, hlog, hend, -⟩ := decodeSegment_longest hmagic
  exact ⟨records, goodEnd, rest, hdec, hlog, hend⟩

end FluxThroughput.Wal.Longest
