import FluxThroughput.Store.DiskKv

/-! # What the store on disk keeps

The store is opened, persists batches, meets full devices and failing syncs, and is closed or killed at any
byte. While a batch whose write fails has only frames smaller than the writer's buffer, the file and the
buffer together always hold whole frames (`Holds`): a failed write keeps in the buffer what it has not
written. So the index, in every state and after every reopening, is what last-write-wins makes of a list
that contains every acknowledged batch and nothing that was not handed in (`serves_of_run`). With a frame as
large as the buffer this fails (`acked_lost`). -/

namespace FluxThroughput.Store.DiskDurable

open FluxThroughput.Domain.Types FluxThroughput.Lib.Frames FluxThroughput.Lib.LastWriteWins
open FluxThroughput.Lib.Sealed FluxThroughput.Lib.Transition
open FluxThroughput.Store.DiskRecord FluxThroughput.Store.DiskKv

/-- The frames of the data file. -/
abbrev records : Codec PlayerState UInt8 := dbvk.codec

theorem frames_cons_eq (st : PlayerState) (states : List PlayerState) :
    records.frames (st :: states) = encodeRecord st ++ records.frames states := by
  rw [encodeRecord_eq]
  rfl

/-! ### What a call writes -/

section Writes
variable {capacity : ℕ} {io io' : Io} {buffer buffer' data : Bytes} {ok : Bool}

/-- **A write moves bytes from the buffer to the file, and adds some.** -/
structure Writes (io : Io) (buffer : Bytes) (io' : Io) (buffer' added : Bytes) : Prop where
  content : io'.file ++ buffer' = io.file ++ buffer ++ added
  grows : io.file <+: io'.file

theorem Writes.refl (io : Io) (buffer : Bytes) : Writes io buffer io buffer [] :=
  ⟨(List.append_nil _).symm, List.prefix_refl _⟩

theorem Writes.trans {io'' : Io} {buffer'' added added' : Bytes} (h : Writes io buffer io' buffer' added)
    (h' : Writes io' buffer' io'' buffer'' added') :
    Writes io buffer io'' buffer'' (added ++ added') := by
  refine ⟨?_, h.grows.trans h'.grows⟩
  rw [h'.content, h.content, List.append_assoc]

/-- What the call leaves on disk is a prefix of all it has to write. -/
theorem Writes.file_prefix {added : Bytes} (h : Writes io buffer io' buffer' added) :
    io'.file <+: io.file ++ buffer ++ added := by
  rw [← h.content]
  exact List.prefix_append _ _

theorem file_writeAll (io : Io) (data : Bytes) : ∃ k, (io.writeAll data).2.file = io.file ++ data.take k ∧
    ((io.writeAll data).1 = true → data.take k = data) ∧
    (io.room = none → (io.writeAll data).1 = true ∧ (io.writeAll data).2.room = none) := by
  unfold Io.writeAll
  rcases hroom : io.room with _ | room
  · exact ⟨data.length, by rw [List.take_length], fun _ => List.take_length, fun _ => ⟨rfl, rfl⟩⟩
  · refine ⟨room, rfl, fun hok => ?_, fun hnone => by cases hnone⟩
    exact List.take_of_length_le (of_decide_eq_true hok)

theorem writes_flushBuf (io : Io) (buffer : Bytes) :
    Writes io buffer (flushBuf io buffer).2.1 (flushBuf io buffer).2.2 [] ∧
      ((flushBuf io buffer).1 = true → (flushBuf io buffer).2.2 = []) ∧
      (io.room = none → (flushBuf io buffer).1 = true ∧ (flushBuf io buffer).2.1.room = none) := by
  unfold flushBuf Io.writeAll
  rcases hroom : io.room with _ | room
  · refine ⟨⟨?_, List.prefix_append _ _⟩, fun _ => rfl, fun _ => ⟨rfl, rfl⟩⟩
    simp only [List.append_nil]
  · refine ⟨⟨?_, List.prefix_append _ _⟩, fun hok => ?_, fun hnone => by cases hnone⟩
    · simp only [List.append_assoc, List.take_append_drop, List.append_nil]
    · exact List.drop_eq_nil_of_le (of_decide_eq_true hok)

/-- Past the empty buffer. -/
theorem writes_writeAll (io : Io) {buffer data : Bytes} (hempty : buffer = [] ∨ data = []) :
    ∃ k, Writes io buffer (io.writeAll data).2 buffer (data.take k) ∧
      ((io.writeAll data).1 = true → data.take k = data) ∧
      (io.room = none → (io.writeAll data).1 = true ∧ (io.writeAll data).2.room = none) := by
  obtain ⟨k, hfile, hok, hnone⟩ := file_writeAll io data
  refine ⟨k, ⟨?_, ?_⟩, hok, hnone⟩
  · rw [hfile]
    rcases hempty with rfl | rfl
    · rw [List.append_nil, List.append_nil]
    · rw [List.take_nil, List.append_nil, List.append_nil]
  · rw [hfile]
    exact List.prefix_append _ _

/-- **`write_all` on the buffered writer**: all of the data, or none of it; in part only past the buffer. -/
theorem writes_bufWriteAll (capacity : ℕ) (io : Io) (buffer data : Bytes) :
    ∃ k, Writes io buffer (bufWriteAll capacity io buffer data).2.1
        (bufWriteAll capacity io buffer data).2.2 (data.take k) ∧
      ((bufWriteAll capacity io buffer data).1 = true → data.take k = data) ∧
      ((bufWriteAll capacity io buffer data).1 = false → data.length < capacity → k = 0) ∧
      (io.room = none → (bufWriteAll capacity io buffer data).1 = true ∧
        (bufWriteAll capacity io buffer data).2.1.room = none) := by
  have hbuffered : ∀ io' buffer', Writes io buffer io' buffer' [] →
      Writes io buffer io' (buffer' ++ data) (data.take data.length) := by
    intro io' buffer' h
    refine ⟨?_, h.grows⟩
    rw [List.take_length, ← List.append_assoc, h.content, List.append_nil]
  have hdirect : ∀ io' buffer', Writes io buffer io' buffer' [] → (buffer' = [] ∨ data = []) →
      (io.room = none → io'.room = none) → capacity ≤ data.length →
      ∃ k, Writes io buffer (io'.writeAll data).2 buffer' (data.take k) ∧
        ((io'.writeAll data).1 = true → data.take k = data) ∧
        ((io'.writeAll data).1 = false → data.length < capacity → k = 0) ∧
        (io.room = none → (io'.writeAll data).1 = true ∧ (io'.writeAll data).2.room = none) := by
    intro io' buffer' h hempty hroom hle
    obtain ⟨k, hw, hok, hnone⟩ := writes_writeAll io' hempty
    exact ⟨k, by simpa using h.trans hw, hok, fun _ hlt => absurd hlt (by omega),
      fun hr => hnone (hroom hr)⟩
  unfold bufWriteAll
  by_cases h1 : data.length < capacity - buffer.length
  · rw [if_pos h1]
    exact ⟨data.length, hbuffered io buffer (Writes.refl io buffer), fun _ => List.take_length,
      fun hf => (by cases hf), fun hr => ⟨rfl, hr⟩⟩
  rw [if_neg h1]
  by_cases h2 : capacity - buffer.length < data.length
  · rw [if_pos h2]
    obtain ⟨hw, hempty, hnone⟩ := writes_flushBuf io buffer
    rcases hflush : flushBuf io buffer with ⟨ok, io', buffer'⟩
    rw [hflush] at hw hempty hnone
    rcases ok with _ | _
    · exact ⟨0, hw, fun hf => (by cases hf), fun _ _ => rfl, fun hr => by cases (hnone hr).1⟩
    · by_cases h3 : capacity ≤ data.length
      · simp only [Bool.not_true, Bool.false_eq_true, if_false, if_pos h3]
        exact hdirect io' buffer' hw (Or.inl (hempty rfl)) (fun hr => (hnone hr).2) h3
      · simp only [Bool.not_true, Bool.false_eq_true, if_false, if_neg h3]
        exact ⟨data.length, hbuffered io' buffer' hw, fun _ => List.take_length,
          fun hf => (by cases hf), fun hr => ⟨trivial, (hnone hr).2⟩⟩
  · rw [if_neg h2]
    by_cases h3 : capacity ≤ data.length
    · simp only [Bool.not_true, Bool.false_eq_true, if_false, if_pos h3]
      have hempty : buffer = [] ∨ data = [] := by
        rw [← List.length_eq_zero_iff, ← List.length_eq_zero_iff]
        omega
      exact hdirect io buffer (Writes.refl io buffer) hempty id h3
    · simp only [Bool.not_true, Bool.false_eq_true, if_false, if_neg h3]
      exact ⟨data.length, hbuffered io buffer (Writes.refl io buffer), fun _ => List.take_length,
        fun hf => (by cases hf), fun hr => ⟨trivial, hr⟩⟩

/-- **The frames of a batch**, as far as they are written: a prefix of them; whole frames, if none of them is
as large as the buffer. -/
theorem writes_appendAll (capacity : ℕ) : ∀ (states : List PlayerState) (io : Io) (buffer : Bytes),
    ∃ added, Writes io buffer (appendAll capacity io buffer states).2.1
        (appendAll capacity io buffer states).2.2 added ∧
      added <+: records.frames states ∧
      ((appendAll capacity io buffer states).1 = true → added = records.frames states) ∧
      ((∀ st ∈ states, (encodeRecord st).length < capacity) →
        ∃ m, added = records.frames (states.take m)) ∧
      (io.room = none → (appendAll capacity io buffer states).1 = true ∧
        (appendAll capacity io buffer states).2.1.room = none)
  | [], io, buffer => ⟨[], Writes.refl io buffer, List.nil_prefix, fun _ => rfl, fun _ => ⟨0, rfl⟩,
      fun hr => ⟨rfl, hr⟩⟩
  | st :: states, io, buffer => by
    obtain ⟨k, hw, hok, hfail, hnone⟩ := writes_bufWriteAll capacity io buffer (encodeRecord st)
    rw [appendAll]
    rcases hwrite : bufWriteAll capacity io buffer (encodeRecord st) with ⟨ok, io', buffer'⟩
    rw [hwrite] at hw hok hfail hnone
    rcases ok with _ | _
    · refine ⟨_, hw, ?_, fun hf => (by cases hf), fun hsmall => ⟨0, ?_⟩, fun hr => by cases (hnone hr).1⟩
      · rw [frames_cons_eq]
        exact (List.take_prefix k _).trans (List.prefix_append _ _)
      · rw [hfail rfl (hsmall st List.mem_cons_self)]
        rfl
    · obtain ⟨added, hw', hpre, hall, hsmall, hnone'⟩ := writes_appendAll capacity states io' buffer'
      refine ⟨_, hw.trans hw', ?_, fun h => ?_, fun h => ?_, fun hr => hnone' (hnone hr).2⟩
      · rw [hok rfl, frames_cons_eq]
        exact (List.prefix_append_right_inj _).mpr hpre
      · rw [hok rfl, frames_cons_eq, hall h]
      · obtain ⟨m, rfl⟩ := hsmall fun st' hst' => h st' (List.mem_cons_of_mem st hst')
        exact ⟨m + 1, by rw [hok rfl, List.take_succ_cons, frames_cons_eq]⟩

/-- **What `persist_batch` does**, for its answer, the file and the process after it. -/
structure Persists (file : Bytes) (inner : Inner) (states : List PlayerState)
    (x : Except StoreError Unit × Bytes × Inner) (added : Bytes) : Prop where
  content : x.2.1 ++ x.2.2.buffer = file ++ inner.buffer ++ added
  grows : file <+: x.2.1
  frames : added <+: records.frames states
  all : x.1 = .ok () → added = records.frames states
  flushed : x.1 = .ok () → states ≠ [] → x.2.2.buffer = []
  index_ok : x.1 = .ok () → x.2.2.index = states.foldl Index.upsert inner.index
  index_error : ∀ e, x.1 = .error e → x.2.2.index = inner.index

theorem persists_persistBatch (capacity : ℕ) (file : Bytes) (inner : Inner) (states : List PlayerState)
    (faults : Faults) : ∃ added,
      Persists file inner states (persistBatch capacity file inner states faults) added ∧
      ((faults.write = none ∨ ∀ st ∈ states, (encodeRecord st).length < capacity) →
        ∃ m, added = records.frames (states.take m)) := by
  unfold persistBatch
  by_cases hne : states = []
  · rw [if_pos hne]
    subst hne
    exact ⟨[], ⟨(List.append_nil _).symm, List.prefix_refl _, List.nil_prefix, fun _ => rfl,
      fun _ h => absurd rfl h, fun _ => rfl, fun e he => by cases he⟩, fun _ => ⟨0, rfl⟩⟩
  rw [if_neg hne]
  obtain ⟨added, hw, hpre, hall, hsmall, hnone⟩ :=
    writes_appendAll capacity states ⟨file, faults.write.map Prod.fst⟩ inner.buffer
  rcases happend : appendAll capacity ⟨file, faults.write.map Prod.fst⟩ inner.buffer states with
    ⟨ok, io, buffer⟩
  rw [happend] at hw hall hnone
  rcases ok with _ | _
  · refine ⟨added, ⟨hw.content, hw.grows, hpre, fun h => (by cases h), fun h => (by cases h),
      fun h => (by cases h), fun _ _ => rfl⟩, fun h => ?_⟩
    rcases h with h | h
    · have hroom : faults.write.map Prod.fst = none := by rw [h]; rfl
      cases (hnone hroom).1
    · exact hsmall h
  · obtain ⟨hw', hempty, -⟩ := writes_flushBuf io buffer
    have hboth := hw.trans hw'
    rw [List.append_nil] at hboth
    have hm : ∃ m, added = records.frames (states.take m) :=
      ⟨states.length, by rw [List.take_length, hall rfl]⟩
    dsimp only
    rcases hflush : flushBuf io buffer with ⟨ok, io', buffer'⟩
    rw [hflush] at hboth hempty
    rcases ok with _ | _
    · exact ⟨added, ⟨hboth.content, hboth.grows, hpre, fun h => (by cases h), fun h => (by cases h),
        fun h => (by cases h), fun _ _ => rfl⟩, fun _ => hm⟩
    · rcases hsync : faults.sync with _ | e
      · exact ⟨added, ⟨hboth.content, hboth.grows, hpre, fun _ => hall rfl, fun _ _ => hempty rfl,
          fun _ => rfl, fun e he => by cases he⟩, fun _ => hm⟩
      · exact ⟨added, ⟨hboth.content, hboth.grows, hpre, fun h => (by cases h), fun h => (by cases h),
          fun h => (by cases h), fun _ _ => rfl⟩, fun _ => hm⟩

/-- What a killed call leaves on disk. -/
theorem Persists.file_prefix {file : Bytes} {inner : Inner} {states : List PlayerState}
    {x : Except StoreError Unit × Bytes × Inner} {added : Bytes}
    (h : Persists file inner states x added) :
    x.2.1 <+: file ++ inner.buffer ++ records.frames states := by
  have hcontent : x.2.1 <+: file ++ inner.buffer ++ added := by
    rw [← h.content]
    exact List.prefix_append _ _
  exact hcontent.trans ((List.prefix_append_right_inj _).mpr h.frames)

end Writes

/-! ### Reading the file back -/

section Reads
variable {log : List PlayerState} {torn : Bytes}

theorem codec_decode_eq (buf : Bytes) : records.decode buf =
    match decodeRecord buf with
    | .record st n => some (st, n)
    | .tornTail => none := by
  rw [decodeRecord_eq]
  show dbvk.decode buf = _
  rcases dbvk.decode buf with _ | x <;> rfl

/-- The replay is a scan of the frames, and puts in what it reads. -/
theorem replay_eq (bytes : Bytes) : ∀ (fuel offset : ℕ) (index : Index),
    replay bytes fuel offset index =
      ((records.scan fuel (bytes.drop offset)).1.foldl Index.upsert index,
        offset + (records.scan fuel (bytes.drop offset)).2)
  | 0, offset, index => rfl
  | fuel + 1, offset, index => by
    rw [replay, Codec.scan]
    by_cases hlt : offset < bytes.length
    · have hne : bytes.drop offset ≠ [] := by
        rw [Ne, List.drop_eq_nil_iff]
        omega
      rw [if_pos hlt, if_neg hne, codec_decode_eq]
      rcases decodeRecord (bytes.drop offset) with ⟨st, consumed⟩ | _
      · dsimp only
        rw [replay_eq bytes fuel, List.drop_drop, List.foldl_cons, Nat.add_assoc]
      · rfl
    · rw [if_neg hlt, if_pos (List.drop_eq_nil_of_le (not_lt.mp hlt))]
      rfl

/-- **The replay of whole frames and a torn tail.** -/
theorem replay_frames (ht : records.Torn torn) (hf : ∀ st ∈ log, dbvk.Fits st) :
    replay (records.frames log ++ torn) (records.frames log ++ torn).length 0 Index.empty =
      (log.foldl Index.upsert Index.empty, (records.frames log).length) := by
  have hfuel : log.length ≤ (records.frames log ++ torn).length := by
    have := Codec.length_le_frames (C := records) log
    rw [List.length_append]
    omega
  rw [replay_eq, List.drop_zero, Codec.scan_frames ht _ hfuel hf, Nat.zero_add]

/-- **`open` on whole frames and a torn tail.** -/
theorem openStore_frames {disk : Option Bytes} (hd : disk.getD [] = records.frames log ++ torn)
    (ht : records.Torn torn) (hf : ∀ st ∈ log, dbvk.Fits st) :
    openStore disk = (records.frames log, ⟨[], log.foldl Index.upsert Index.empty⟩) := by
  have hbuild : rebuildIndex disk = (log.foldl Index.upsert Index.empty, (records.frames log).length) := by
    rcases disk with _ | bytes
    · obtain ⟨hlog, rfl⟩ := List.append_eq_nil_iff.mp hd.symm
      have hnil : log = [] := by
        have := Codec.length_le_frames (C := records) log
        rw [hlog] at this
        exact List.length_eq_zero_iff.mp (by simpa using this)
      subst hnil
      rfl
    · obtain rfl : bytes = records.frames log ++ torn := hd
      exact replay_frames ht hf
  unfold openStore
  rw [hbuild, hd]
  dsimp only
  split_ifs with hlt
  · rw [List.take_left]
  · have hnil : torn = [] := by
      rw [List.length_append] at hlt
      exact List.length_eq_zero_iff.mp (by omega)
    rw [hnil, List.append_nil]

end Reads

/-! ### The index -/

section Index
variable {log : List PlayerState} {index : Index}

theorem map_upsert (index : Index) (st : PlayerState) :
    (index.upsert st).map = put stateVersioned index.map st := by
  have hmock : (index.upsert st).map = Mock.upsertOne index.map st := by
    unfold Index.upsert Mock.upsertOne
    rcases index.map st.playerId with _ | cur
    · rfl
    · dsimp only
      split_ifs <;> rfl
  rw [hmock, Converge.upsertOne_eq]

theorem map_upserts : ∀ (log : List PlayerState) (index : Index),
    (log.foldl Index.upsert index).map = log.foldl (put stateVersioned) index.map
  | [], _ => rfl
  | st :: log, index => by
    rw [List.foldl_cons, List.foldl_cons, map_upserts log, map_upsert]

theorem keys_upsert (index : Index) (st : PlayerState) :
    (index.upsert st).keys = insert st.playerId index.keys := by
  unfold Index.upsert
  rcases hcur : index.map st.playerId with _ | cur
  · rfl
  · dsimp only
    split_ifs
    · exact (Finset.insert_eq_of_mem ((index.mem_keys _).mpr (by rw [hcur]; rfl))).symm
    · rfl

theorem keys_upserts : ∀ (log : List PlayerState) (index : Index),
    (log.foldl Index.upsert index).keys = index.keys ∪ (log.map PlayerState.playerId).toFinset
  | [], index => by simp
  | st :: log, index => by
    rw [List.foldl_cons, keys_upserts log, keys_upsert, List.map_cons, List.toFinset_cons,
      Finset.insert_union, Finset.union_insert]

/-- **The store serves a list of states**: `load` is what last-write-wins makes of it, and `count` the number
of its players. -/
structure Serves (index : Index) (log : List PlayerState) : Prop where
  load : index.load = log.foldl (put stateVersioned) (fun _ => none)
  count : index.count = (log.map PlayerState.playerId).toFinset.card

theorem serves_upserts (log : List PlayerState) : Serves (log.foldl Index.upsert Index.empty) log where
  load := map_upserts log Index.empty
  count := by
    unfold Index.count
    rw [keys_upserts]
    exact congrArg Finset.card (Finset.empty_union _)

theorem Serves.newest (h : Serves index log) : Newest stateVersioned index.load {st | st ∈ log} := by
  rw [h.load, ← Set.empty_union {st | st ∈ log}]
  exact Newest.empty.foldl_put

end Index

/-! ### Runs -/

/-- The states of the batches acknowledged, in order. -/
def acked : List Event → List PlayerState
  | [] => []
  | .persisted states :: h => states ++ acked h
  | _ :: h => acked h

/-- The states of all batches handed to the store, in order. -/
def called : List Event → List PlayerState
  | [] => []
  | .persisted states :: h => states ++ called h
  | .failed states _ :: h => states ++ called h
  | .cut states :: h => states ++ called h
  | _ :: h => called h

/-- **The log has everything acknowledged**, and with the pending states nothing that was not handed in, in
order. -/
structure Between (h : List Event) (log pending : List PlayerState) : Prop where
  acked : (acked h).Sublist log
  called : (log ++ pending).Sublist (called h)

theorem acked_append : ∀ h e : List Event, acked (h ++ e) = acked h ++ acked e
  | [], _ => rfl
  | x :: h, e => by cases x <;> simp [acked, acked_append h e]

theorem called_append : ∀ h e : List Event, called (h ++ e) = called h ++ called e
  | [], _ => rfl
  | x :: h, e => by cases x <;> simp [called, called_append h e]

section Between
variable {h : List Event} {log pending more states : List PlayerState} {x : Event}

/-- A call that does not succeed may have put in some of its states. -/
theorem between_tried (hb : Between h log pending) (ha : acked [x] = []) (hc : called [x] = states)
    (hmore : more.Sublist states) : Between (h ++ [x]) log (pending ++ more) := by
  constructor
  · rw [acked_append, ha, List.append_nil]
    exact hb.acked
  · rw [called_append, hc, ← List.append_assoc]
    exact hb.called.append hmore

theorem between_quiet (hb : Between h log pending) (ha : acked [x] = []) (hc : called [x] = []) :
    Between (h ++ [x]) log pending := by
  have h := between_tried hb ha hc (List.Sublist.refl [])
  rw [List.append_nil] at h
  exact h

/-- A call that succeeds puts in all that is pending, and its states. -/
theorem between_persisted (states : List PlayerState) (hb : Between h log pending) :
    Between (h ++ [.persisted states]) (log ++ pending ++ states) [] := by
  constructor
  · rw [acked_append]
    exact (hb.acked.trans (List.sublist_append_left _ _)).append (by simp [acked])
  · rw [called_append, List.append_nil]
    exact hb.called.append (by simp [called])

/-- Of what is pending, the first states may become part of the log. -/
theorem between_settle (hb : Between h log pending) (m : ℕ) :
    Between h (log ++ pending.take m) [] := by
  constructor
  · exact hb.acked.trans (List.sublist_append_left _ _)
  · rw [List.append_nil]
    exact ((List.take_sublist m pending).append_left log).trans hb.called

end Between

/-- **Batches fit**: frames are shorter than `2 ^ 32` bytes, and smaller than the writer's buffer in a batch
whose write fails. -/
def Action.Fits (capacity : ℕ) : Action → Prop
  | .persistBatch states faults => (∀ st ∈ states, dbvk.Fits st) ∧
      (faults.write = none ∨ ∀ st ∈ states, (encodeRecord st).length < capacity)
  | .persistKilled states _ => ∀ st ∈ states, dbvk.Fits st
  | _ => True

instance (capacity : ℕ) : DecidablePred (Action.Fits capacity) := fun a => by
  cases a <;> unfold Action.Fits <;> infer_instance

def fitting (capacity : ℕ) : Guard Node DiskKv.Action Event := fun _ _ a => Action.Fits capacity a

/-- The file and the buffer together hold the frames of a log and of states still pending, the file the log
at least. -/
structure Content (file buffer : Bytes) (log pending : List PlayerState) : Prop where
  content : file ++ buffer = records.frames (log ++ pending)
  durable : records.frames log <+: file
  fits : ∀ st ∈ log ++ pending, dbvk.Fits st

/-- **What the store holds**: a log, with a torn tail while it is closed, and pending states while it is
open. The index serves a log of its own: it has not seen what failed calls have left in the file. -/
def Holds (s : Node) (h : List Event) : Prop :=
  match s.proc with
  | none => ∃ log torn, s.disk.getD [] = records.frames log ++ torn ∧ records.Torn torn ∧
      (∀ st ∈ log, dbvk.Fits st) ∧ Between h log []
  | some inner =>
    (∃ log pending, Content (s.disk.getD []) inner.buffer log pending ∧ Between h log pending) ∧
    ∃ log, Between h log [] ∧ inner.index = log.foldl Index.upsert Index.empty

section Runs
variable {capacity : ℕ} {s s' : Node} {h e : List Event} {a : DiskKv.Action}
  {log pending states : List PlayerState} {file cut added : Bytes} {inner : Inner}
  {x : Except StoreError Unit × Bytes × Inner} {disk : Option Bytes}

/-- **A file cut behind the log** holds the log, some of the states behind it, and a torn tail. -/
theorem holds_down {ev : Event} (hlog : records.frames log <+: cut)
    (hcut : cut <+: records.frames (log ++ pending)) (hf : ∀ st ∈ log ++ pending, dbvk.Fits st)
    (hb : Between (h ++ [ev]) log pending) : Holds ⟨some cut, none⟩ (h ++ [ev]) := by
  obtain ⟨behind, rfl⟩ := hlog
  rw [Codec.frames_append, List.prefix_append_right_inj] at hcut
  have hfits : ∀ st ∈ pending, records.Fits st := fun st hst => hf st (List.mem_append_right _ hst)
  obtain ⟨m, torn, htake, ht⟩ := Codec.exists_take_frames behind.length hfits
  rw [← List.prefix_iff_eq_take.mp hcut] at htake
  have hsub : (log ++ pending.take m).Sublist (log ++ pending) :=
    (List.take_sublist m pending).append_left log
  refine ⟨log ++ pending.take m, torn, ?_, ht, fun st hst => hf st (hsub.subset hst),
    between_settle hb m⟩
  rw [Codec.frames_append, List.append_assoc, ← htake]
  rfl

/-- The frames that a call writes come behind the pending ones. -/
theorem Content.add (hc : Content file inner.buffer log pending) (hp : Persists file inner states x added)
    {more : List PlayerState} (hadded : added = records.frames more) (hf : ∀ st ∈ more, dbvk.Fits st) :
    Content x.2.1 x.2.2.buffer log (pending ++ more) := by
  refine ⟨?_, hc.durable.trans hp.grows, fun st hst => ?_⟩
  · rw [hp.content, hc.content, hadded, ← Codec.frames_append, List.append_assoc]
  · rw [← List.append_assoc] at hst
    exact (List.mem_append.mp hst).elim (hc.fits st) (hf st)

/-- What is in the file is no longer pending. -/
theorem Content.settle (hc : Content file [] log pending) : Content file [] (log ++ pending) [] := by
  have hfile := hc.content
  rw [List.append_nil] at hfile
  refine ⟨?_, ?_, ?_⟩
  · rw [List.append_nil, List.append_nil]
    exact hfile
  · rw [hfile]
  · rw [List.append_nil]
    exact hc.fits

/-- **Opening the store** reads a log, cuts the torn tail off the file, and serves the log. -/
theorem holds_open (hh : Holds ⟨disk, none⟩ h) : ∃ log,
    openStore disk = (records.frames log, ⟨[], log.foldl Index.upsert Index.empty⟩) ∧
      (∀ st ∈ log, dbvk.Fits st) ∧ Between h log [] := by
  obtain ⟨log, torn, hd, ht, hf, hb⟩ := hh
  exact ⟨log, openStore_frames hd ht hf, hf, hb⟩

/-- A step of a store that is closed. -/
theorem step_down (hs : Node.step capacity ⟨disk, none⟩ a = some (s', e))
    (hh : Holds ⟨disk, none⟩ h) : Holds s' (h ++ e) := by
  have hclosed := hh
  obtain ⟨log, torn, hd, ht, hf, hb⟩ := hclosed
  cases a with
  | openStore =>
    obtain ⟨rfl, rfl⟩ := Prod.mk.inj (Option.some.inj hs)
    have hb' := between_quiet hb (x := .opened) rfl rfl
    rw [openStore_frames hd ht hf]
    refine ⟨⟨log, [], ⟨?_, List.prefix_refl _, by simpa using hf⟩, hb'⟩, log, hb', rfl⟩
    simp
  | openStopped stop =>
    obtain ⟨rfl, rfl⟩ := Prod.mk.inj (Option.some.inj hs)
    have hb' := between_quiet hb (x := .down) rfl rfl
    cases stop with
    | read => exact ⟨log, torn, hd, ht, hf, hb'⟩
    | create => exact ⟨log, torn, hd, ht, hf, hb'⟩
    | truncate =>
      refine ⟨log, [], ?_, Or.inl rfl, hf, hb'⟩
      simp only [openStopped, openStore_frames hd ht hf, Option.getD_some, List.append_nil]
  | _ => cases hs

/-- A call that returns. -/
theorem step_persistBatch {faults : Faults}
    (hs : Node.step capacity ⟨disk, some inner⟩ (.persistBatch states faults) = some (s', e))
    (ha : Action.Fits capacity (.persistBatch states faults)) (hh : Holds ⟨disk, some inner⟩ h) :
    Holds s' (h ++ e) := by
  obtain ⟨⟨log, pending, hc, hb⟩, served, hserved, hindex⟩ := hh
  obtain ⟨hfits, hsmall⟩ := ha
  obtain ⟨added, hp, hwhole⟩ := persists_persistBatch capacity (disk.getD []) inner states faults
  obtain ⟨m, hadded⟩ := hwhole hsmall
  have htake : (states.take m).Sublist states := List.take_sublist m states
  have hcontent := hc.add hp hadded fun st hst => hfits st (htake.subset hst)
  simp only [Node.step] at hs
  rcases hx : persistBatch capacity (disk.getD []) inner states faults with ⟨err | _, file, inner'⟩
  · rw [hx] at hs hp hcontent
    obtain ⟨rfl, rfl⟩ := Prod.mk.inj (Option.some.inj hs)
    have hcalled : called [.failed states err] = states := List.append_nil states
    have hserved' := between_tried hserved (x := .failed states err) rfl hcalled (List.nil_sublist _)
    refine ⟨⟨log, pending ++ states.take m, hcontent, between_tried hb rfl hcalled htake⟩, served,
      hserved', ?_⟩
    rw [← hindex]
    exact hp.index_error err rfl
  · rw [hx] at hs hp
    obtain ⟨rfl, rfl⟩ := Prod.mk.inj (Option.some.inj hs)
    have hcontent := hc.add hp (hp.all rfl) hfits
    have hserved' := between_persisted states hserved
    rw [List.append_nil] at hserved'
    refine ⟨?_, served ++ states, hserved', ?_⟩
    · by_cases hne : states = []
      · -- an empty batch leaves the buffer as it is
        subst hne
        exact ⟨log, pending ++ [], hcontent, between_tried hb rfl rfl (List.Sublist.refl _)⟩
      · have hbuffer : inner'.buffer = [] := hp.flushed rfl hne
        simp only [hbuffer] at hcontent
        have hb' := between_persisted states hb
        rw [List.append_assoc] at hb'
        refine ⟨log ++ (pending ++ states), [], ?_, hb'⟩
        simp only [hbuffer]
        exact hcontent.settle
    · rw [List.foldl_append, ← hindex]
      exact hp.index_ok rfl

/-- A step of a store that is open. -/
theorem step_up (hs : Node.step capacity ⟨disk, some inner⟩ a = some (s', e))
    (ha : Action.Fits capacity a) (hh : Holds ⟨disk, some inner⟩ h) : Holds s' (h ++ e) := by
  have hopen := hh
  obtain ⟨⟨log, pending, hc, hb⟩, -⟩ := hopen
  have hquiet := between_quiet hb (x := .down) rfl rfl
  cases a with
  | persistBatch states faults => exact step_persistBatch hs ha hh
  | persistKilled states written =>
    obtain ⟨added, hp, -⟩ :=
      persists_persistBatch capacity (disk.getD []) inner states ⟨some (written, ""), none⟩
    obtain ⟨rfl, rfl⟩ := Prod.mk.inj (Option.some.inj hs)
    have hcalled : called [.cut states] = states := List.append_nil states
    have hcut := hp.file_prefix
    rw [hc.content, ← Codec.frames_append, List.append_assoc] at hcut
    refine holds_down (hc.durable.trans hp.grows) hcut (fun st hst => ?_)
      (between_tried hb rfl hcalled (List.Sublist.refl _))
    rw [← List.append_assoc] at hst
    exact (List.mem_append.mp hst).elim (hc.fits st) (ha st)
  | close room =>
    obtain ⟨hw, -, -⟩ := writes_flushBuf ⟨disk.getD [], room⟩ inner.buffer
    obtain ⟨rfl, rfl⟩ := Prod.mk.inj (Option.some.inj hs)
    have hcut := hw.file_prefix
    rw [List.append_nil, hc.content] at hcut
    exact holds_down (hc.durable.trans hw.grows) hcut hc.fits hquiet
  | kill =>
    obtain ⟨rfl, rfl⟩ := Prod.mk.inj (Option.some.inj hs)
    have hcut : disk.getD [] <+: records.frames (log ++ pending) := by
      rw [← hc.content]
      exact List.prefix_append _ _
    exact holds_down hc.durable hcut hc.fits hquiet
  | _ => cases hs

theorem run_holds (hr : Run (system capacity) (fitting capacity) s h) : Holds s h := by
  refine hr.invariant (I := Holds) ?_ ?_
  · rintro s rfl
    exact ⟨[], [], rfl, Or.inl rfl, fun st hst => (by cases hst), List.Sublist.refl _,
      List.Sublist.refl _⟩
  · rintro ⟨disk, _ | inner⟩ h a s' e - hh ha hs
    · exact step_down hs hh
    · exact step_up hs ha hh

end Runs

/-! ### The result -/

/-- **The store on disk serves what it has acknowledged**, in every run with full devices, failing syncs and
kills at any byte: the index of an open store, and of a closed one when it is opened, is what last-write-wins
makes of a list with every acknowledged batch and nothing that was not handed in, in their order; opening a
store again changes neither the file nor the index. -/
theorem serves_of_run {capacity : ℕ} {s : Node} {h : List Event}
    (hr : Run (system capacity) (fitting capacity) s h) :
    (∀ inner, s.proc = some inner →
      ∃ log, (acked h).Sublist log ∧ log.Sublist (called h) ∧ Serves inner.index log) ∧
    (s.proc = none → ∃ bytes inner log,
      s.step capacity .openStore = some (⟨some bytes, some inner⟩, [.opened]) ∧
      (acked h).Sublist log ∧ log.Sublist (called h) ∧ Serves inner.index log ∧
      openStore (some bytes) = (bytes, inner)) := by
  have hh := run_holds hr
  obtain ⟨disk, _ | inner⟩ := s
  · refine ⟨fun inner hp => (by cases hp), fun _ => ?_⟩
    obtain ⟨log, hopen, hf, hb⟩ := holds_open hh
    have hcalled := hb.called
    rw [List.append_nil] at hcalled
    refine ⟨_, _, log, rfl, hb.acked, hcalled, ?_, ?_⟩
    · rw [hopen]
      exact serves_upserts log
    · rw [hopen]
      exact openStore_frames (List.append_nil _).symm (Or.inl rfl) hf
  · refine ⟨fun inner' hp => ?_, fun hp => by cases hp⟩
    obtain rfl := Option.some.inj hp
    obtain ⟨-, log, hb, hindex⟩ := hh
    have hcalled := hb.called
    rw [List.append_nil] at hcalled
    refine ⟨log, hb.acked, hcalled, ?_⟩
    rw [hindex]
    exact serves_upserts log

/-- The device is full inside the second of three frames, the next batch succeeds, and the process is
killed inside the one after it. -/
theorem serves_of_run_full : ∃ s h, h = [.opened, .persisted [⟨7, 1, [1]⟩],
      .failed [⟨7, 2, [2]⟩, ⟨8, 1, [1]⟩] (.transient "disk flush failed: full"), .persisted [⟨7, 3, []⟩],
      .cut [⟨8, 2, [2]⟩]] ∧
    ∃ bytes inner log, Node.step 8192 s .openStore = some (⟨some bytes, some inner⟩, [.opened]) ∧
      (acked h).Sublist log ∧ log.Sublist (called h) ∧ Serves inner.index log ∧
      openStore (some bytes) = (bytes, inner) := by
  obtain ⟨s, h, hr, hp⟩ := exists_run_of_exec (system 8192) (fitting 8192)
    (fun _ _ a => decide (Action.Fits 8192 a))
    (fun _ _ a ha => show Action.Fits 8192 a from of_decide_eq_true ha)
    ⟨none, none⟩
    [.openStore, .persistBatch [⟨7, 1, [1]⟩] Faults.none,
      .persistBatch [⟨7, 2, [2]⟩, ⟨8, 1, [1]⟩] ⟨some (50, "full"), none⟩,
      .persistBatch [⟨7, 3, []⟩] Faults.none, .persistKilled [⟨8, 2, [2]⟩] 20]
    (fun x => decide (x.2 = [.opened, .persisted [⟨7, 1, [1]⟩],
      .failed [⟨7, 2, [2]⟩, ⟨8, 1, [1]⟩] (.transient "disk flush failed: full"),
      .persisted [⟨7, 3, []⟩], .cut [⟨8, 2, [2]⟩]]) && decide (x.1.proc.isNone = true))
    rfl (by decide +kernel)
  rw [Bool.and_eq_true, decide_eq_true_eq, decide_eq_true_eq, Option.isNone_iff_eq_none] at hp
  exact ⟨s, h, hp.1, (serves_of_run hr).2 hp.2⟩

/-! ### The bound is exact -/

theorem Action.Fits.mono {b c : ℕ} (hbc : b ≤ c) {a : DiskKv.Action} (ha : Action.Fits b a) :
    Action.Fits c a := by
  cases a with
  | persistBatch states faults =>
    exact ⟨ha.1, ha.2.imp_right fun h st hst => (h st hst).trans_le hbc⟩
  | persistKilled states written => exact ha
  | _ => trivial

theorem run_mono {capacity b c : ℕ} (hbc : b ≤ c) {s : Node} {h : List Event}
    (hr : Run (system capacity) (fitting b) s h) : Run (system capacity) (fitting c) s h := by
  induction hr with
  | init hs => exact Run.init hs
  | step _ hok hs ih => exact ih.step (Action.Fits.mono hbc hok) hs

theorem length_encodeRecord (st : PlayerState) : (encodeRecord st).length = 32 + st.blob.length := by
  rw [encodeRecord_eq, dbvk.length_encode]
  show 28 + st.blob.length + 4 = _
  omega

/-- A state whose frame has `n` bytes. -/
def sized (id : PlayerId) (n : ℕ) : PlayerState :=
  { playerId := id, version := 1, blob := List.replicate (n - 32) 0 }

theorem length_sized (id : PlayerId) {n : ℕ} (hn : 32 ≤ n) : (encodeRecord (sized id n)).length = n := by
  rw [length_encodeRecord, sized, List.length_replicate]
  omega

section Large
variable {capacity : ℕ}

/-- The device takes ten bytes of a frame as large as the buffer. -/
theorem persist_large (hc : 42 < capacity) :
    persistBatch capacity [] ⟨[], Index.empty⟩ [sized 1 capacity] ⟨some (10, ""), none⟩ =
      (.error (.transient "disk append failed: "), (encodeRecord (sized 1 capacity)).take 10,
        ⟨[], Index.empty⟩) := by
  have hlen := length_sized 1 (n := capacity) (by omega)
  have hwrite : bufWriteAll capacity ⟨[], some 10⟩ [] (encodeRecord (sized 1 capacity)) =
      (false, ⟨(encodeRecord (sized 1 capacity)).take 10, some 0⟩, []) := by
    have hroom : 10 - capacity = 0 := by omega
    have hno : ¬ capacity ≤ 10 := by omega
    unfold bufWriteAll Io.writeAll
    simp [hlen, hroom, hno]
  unfold persistBatch
  rw [if_neg (List.cons_ne_nil _ _)]
  simp only [Option.map_some, appendAll, hwrite]
  rfl

/-- A small frame behind it is buffered and flushed. -/
theorem persist_small (hc : 42 < capacity) (file : Bytes) :
    persistBatch capacity file ⟨[], Index.empty⟩ [sized 2 32] Faults.none =
      (.ok (), file ++ encodeRecord (sized 2 32), ⟨[], Index.empty.upsert (sized 2 32)⟩) := by
  have hlen := length_sized 2 (le_refl 32)
  have hwrite : bufWriteAll capacity ⟨file, none⟩ [] (encodeRecord (sized 2 32)) =
      (true, ⟨file, none⟩, encodeRecord (sized 2 32)) := by
    have hlt : 32 < capacity := by omega
    unfold bufWriteAll
    simp [hlen, hlt]
  unfold persistBatch
  rw [if_neg (List.cons_ne_nil _ _)]
  simp only [Faults.none, Option.map_none, appendAll, hwrite]
  rfl

/-- **An acknowledged state is lost** behind a frame as large as the buffer. -/
theorem acked_lost (hc : 42 < capacity) (hfit : capacity < 2 ^ 32) : ∃ s h,
    Run (system capacity) (fitting (capacity + 1)) s h ∧ s.proc = none ∧ sized 2 32 ∈ acked h ∧
      (openStore s.disk).2.index.load 2 = none := by
  have hlarge := length_sized 1 (n := capacity) (by omega)
  have hsmall := length_sized 2 (le_refl 32)
  have hfits1 : dbvk.Fits (sized 1 capacity) := by
    show dbvk.frameLen _ < 2 ^ 32
    rw [← dbvk.length_encode, ← encodeRecord_eq, hlarge]
    exact hfit
  have hfits2 : dbvk.Fits (sized 2 32) := by
    show dbvk.frameLen _ < 2 ^ 32
    rw [← dbvk.length_encode, ← encodeRecord_eq, hsmall]
    norm_num
  have hok1 : Action.Fits (capacity + 1) (.persistBatch [sized 1 capacity] ⟨some (10, ""), none⟩) := by
    refine ⟨fun st hst => by rwa [List.mem_singleton.mp hst], Or.inr fun st hst => ?_⟩
    rw [List.mem_singleton.mp hst, hlarge]
    omega
  have hok2 : Action.Fits (capacity + 1) (.persistBatch [sized 2 32] Faults.none) :=
    ⟨fun st hst => by rwa [List.mem_singleton.mp hst], Or.inl rfl⟩
  have hopen : Run (system capacity) (fitting (capacity + 1)) ⟨some [], some ⟨[], Index.empty⟩⟩
      ([] ++ [.opened]) :=
    (Run.init rfl).step (show Action.Fits (capacity + 1) .openStore from trivial) rfl
  have hfailed : Run (system capacity) (fitting (capacity + 1))
      ⟨some ((encodeRecord (sized 1 capacity)).take 10), some ⟨[], Index.empty⟩⟩
      ([] ++ [.opened] ++ [.failed [sized 1 capacity] (.transient "disk append failed: ")]) :=
    hopen.step hok1 (by simp only [system, Node.step, Option.getD_some, persist_large hc])
  have hpersisted : Run (system capacity) (fitting (capacity + 1))
      ⟨some ((encodeRecord (sized 1 capacity)).take 10 ++ encodeRecord (sized 2 32)),
        some ⟨[], Index.empty.upsert (sized 2 32)⟩⟩
      ([] ++ [.opened] ++ [.failed [sized 1 capacity] (.transient "disk append failed: ")] ++
        [.persisted [sized 2 32]]) :=
    hfailed.step hok2 (by simp only [system, Node.step, Option.getD_some, persist_small hc])
  refine ⟨_, _, hpersisted.step (show Action.Fits (capacity + 1) .kill from trivial) rfl, rfl, ?_, ?_⟩
  · simp [acked]
  · have hdecode : dbvk.decode ((encodeRecord (sized 1 capacity)).take 10 ++
        encodeRecord (sized 2 32)) = none := by
      refine Format.decode_eq_none_of_header hfits1 (k := 10) (by omega) ?_ ?_
      · rw [← encodeRecord_eq]
        exact List.prefix_append _ _
      · rw [← dbvk.length_encode, ← encodeRecord_eq, hlarge, List.length_append, List.length_take, hlarge,
          hsmall]
        omega
    have hopened : openStore (some ((encodeRecord (sized 1 capacity)).take 10 ++
        encodeRecord (sized 2 32))) = (records.frames [], ⟨[], Index.empty⟩) :=
      openStore_frames (List.nil_append _).symm (Or.inr hdecode) (fun st hst => by cases hst)
    rw [hopened]
    rfl

end Large

/-- **The bound on the frames is exact**: acknowledged states survive every reopening, at their version or a
newer one, if and only if the frames of a batch whose write fails are smaller than the writer's buffer. -/
theorem acked_kept_iff {capacity bound : ℕ} (hc : 42 < capacity) (hfit : capacity < 2 ^ 32) :
    (∀ s h, Run (system capacity) (fitting bound) s h → s.proc = none → ∀ st ∈ acked h,
      ∃ st', (openStore s.disk).2.index.load st.playerId = some st' ∧ st.version ≤ st'.version) ↔
    bound ≤ capacity := by
  constructor
  · intro hall
    by_contra hlt
    obtain ⟨s, h, hr, hp, hmem, hnone⟩ := acked_lost hc hfit
    obtain ⟨st', hload, -⟩ := hall s h (run_mono (by omega) hr) hp _ hmem
    rw [show (sized 2 32).playerId = 2 from rfl, hnone] at hload
    cases hload
  · intro hle s h hr hp st hst
    obtain ⟨bytes, inner, log, hs, hacked, -, hserves, -⟩ := (serves_of_run (run_mono hle hr)).2 hp
    obtain ⟨disk, proc⟩ := s
    obtain rfl : proc = none := hp
    have hinner : (openStore disk).2 = inner := by
      have hnode := (Prod.mk.inj (Option.some.inj hs)).1
      exact Option.some.inj (Node.mk.inj hnode).2
    have hnew := hserves.newest
    have hmem : st ∈ log := hacked.subset hst
    rw [hinner]
    rcases hload : inner.index.load st.playerId with _ | st'
    · exact absurd rfl ((hnew.absent _).mp hload st hmem)
    · exact ⟨st', rfl, hnew.newest _ _ hload st hmem rfl⟩

/-- The capacity of the writer that the store opens. -/
theorem acked_kept_iff_default : (∀ s h, Run (system 8192) (fitting 8193) s h → s.proc = none →
      ∀ st ∈ acked h, ∃ st', (openStore s.disk).2.index.load st.playerId = some st' ∧
        st.version ≤ st'.version) ↔ 8193 ≤ 8192 :=
  acked_kept_iff (by decide) (by decide)

end FluxThroughput.Store.DiskDurable
