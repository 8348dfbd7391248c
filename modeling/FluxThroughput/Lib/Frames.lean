import Mathlib

/-! # Streams of self-delimiting frames

A `Codec` writes values as frames that can be read from the front of any string, and rejects a frame
that has been cut short. `scan` reads frames until the first that is rejected. On a stream of whole
frames and a rejected tail it finds the values and where the tail begins (`scan_frames`); cutting such
a stream anywhere leaves whole frames and a rejected tail (`exists_take_frames`). -/

namespace FluxThroughput.Lib.Frames

/-- Frames over an alphabet `β` for the values of `α` that fit. `decode` gives the value at the front of
a string, and the length of its frame. -/
structure Codec (α β : Type*) where
  encode : α → List β
  decode : List β → Option (α × ℕ)
  Fits : α → Prop
  decode_encode : ∀ {a}, Fits a → ∀ s, decode (encode a ++ s) = some (a, (encode a).length)
  decode_cut : ∀ {a}, Fits a → ∀ n < (encode a).length, decode ((encode a).take n) = none
  encode_ne_nil : ∀ a, encode a ≠ []

namespace Codec

variable {α β : Type*} (C : Codec α β)

/-- The concatenated frames of some values. -/
def frames (as : List α) : List β := as.flatMap C.encode

/-- Read frames from the front until one is rejected: the values, and the length read. -/
def scan : ℕ → List β → List α × ℕ
  | 0, _ => ([], 0)
  | fuel + 1, bytes =>
    if bytes = [] then ([], 0)
    else
      match C.decode bytes with
      | none => ([], 0)
      | some (a, n) => (a :: (scan fuel (bytes.drop n)).1, n + (scan fuel (bytes.drop n)).2)

/-- What may follow the last whole frame: nothing, or something that is not a frame. -/
def Torn (t : List β) : Prop := t = [] ∨ C.decode t = none

variable {C} {as bs : List α} {s t : List β}

@[simp] theorem frames_nil : C.frames [] = [] := rfl

@[simp] theorem frames_cons (a : α) (as : List α) :
    C.frames (a :: as) = C.encode a ++ C.frames as := rfl

theorem frames_append : C.frames (as ++ bs) = C.frames as ++ C.frames bs := List.flatMap_append

theorem length_le_frames : ∀ as : List α, as.length ≤ (C.frames as).length
  | [] => le_rfl
  | a :: as => by
    have h1 := length_le_frames as
    have h2 : 0 < (C.encode a).length := List.length_pos_iff.mpr (C.encode_ne_nil a)
    rw [List.length_cons, frames_cons, List.length_append]
    omega

theorem scan_torn (ht : C.Torn t) : ∀ fuel, C.scan fuel t = ([], 0)
  | 0 => rfl
  | fuel + 1 => by
    rw [scan]
    rcases ht with rfl | ht
    · rfl
    · rw [ht]
      split_ifs <;> rfl

/-- **A stream of whole frames is read back**, up to its torn tail. -/
theorem scan_frames (ht : C.Torn t) : ∀ {as : List α} (fuel : ℕ), as.length ≤ fuel →
    (∀ a ∈ as, C.Fits a) → C.scan fuel (C.frames as ++ t) = (as, (C.frames as).length)
  | [], fuel, _, _ => scan_torn ht fuel
  | a :: as, 0, hlen, _ => by cases hlen
  | a :: as, fuel + 1, hlen, hfits => by
    have hne : C.frames (a :: as) ++ t ≠ [] := by simp [C.encode_ne_nil a]
    have hdec : C.decode (C.frames (a :: as) ++ t) = some (a, (C.encode a).length) := by
      rw [frames_cons, List.append_assoc]
      exact C.decode_encode (hfits a List.mem_cons_self) _
    have hrest := scan_frames ht fuel (Nat.le_of_succ_le_succ hlen)
      fun b hb => hfits b (List.mem_cons_of_mem _ hb)
    rw [scan, if_neg hne, hdec]
    simp only [frames_cons, List.append_assoc, List.drop_left, hrest, List.length_append]

/-- What a scan returns fits, if what is decoded fits. -/
theorem scan_fits (hdec : ∀ {s a n}, C.decode s = some (a, n) → C.Fits a) :
    ∀ fuel s, ∀ a ∈ (C.scan fuel s).1, C.Fits a
  | 0, s, a, ha => by cases ha
  | fuel + 1, s, a, ha => by
    rw [scan] at ha
    by_cases hs : s = []
    · rw [if_pos hs] at ha
      cases ha
    · rw [if_neg hs] at ha
      rcases h : C.decode s with _ | ⟨b, n⟩
      · rw [h] at ha
        cases ha
      · rw [h] at ha
        rcases List.mem_cons.mp ha with rfl | ha
        · exact hdec h
        · exact scan_fits hdec fuel _ a ha

/-- **Cutting a stream of frames** leaves the frames of the first values, and a torn tail. -/
theorem exists_take_frames : ∀ {as : List α} (n : ℕ), (∀ a ∈ as, C.Fits a) →
    ∃ m t, (C.frames as).take n = C.frames (as.take m) ++ t ∧ C.Torn t
  | [], n, _ => ⟨0, [], by simp, Or.inl rfl⟩
  | a :: as, n, hfits => by
    by_cases hn : n < (C.encode a).length
    · refine ⟨0, (C.encode a).take n, ?_, Or.inr (C.decode_cut (hfits a List.mem_cons_self) n hn)⟩
      rw [frames_cons, List.take_append_of_le_length hn.le]
      rfl
    · obtain ⟨m, t, h, ht⟩ := exists_take_frames (n - (C.encode a).length)
        fun b hb => hfits b (List.mem_cons_of_mem _ hb)
      refine ⟨m + 1, t, ?_, ht⟩
      rw [frames_cons, List.take_append, List.take_of_length_le (not_lt.mp hn), h, List.take_succ_cons,
        frames_cons, List.append_assoc]

/-- **Every string is a stream of frames and a torn tail**, if what is decoded is a frame. -/
theorem exists_frames (hdec : ∀ {s a n}, C.decode s = some (a, n) → C.Fits a ∧ C.encode a <+: s) :
    ∀ (k : ℕ) (s : List β), s.length ≤ k →
      ∃ as t, s = C.frames as ++ t ∧ C.Torn t ∧ ∀ a ∈ as, C.Fits a := by
  intro k
  induction k with
  | zero =>
    intro s hs
    have hnil : s = [] := List.length_eq_zero_iff.mp (by omega)
    exact ⟨[], [], by rw [hnil]; rfl, Or.inl rfl, fun a ha => by cases ha⟩
  | succ k ih =>
    intro s hs
    rcases h : C.decode s with _ | ⟨a, n⟩
    · exact ⟨[], s, rfl, Or.inr h, fun a ha => by cases ha⟩
    · obtain ⟨hfits, rest, rfl⟩ := hdec h
      have hpos : 0 < (C.encode a).length := List.length_pos_iff.mpr (C.encode_ne_nil a)
      rw [List.length_append] at hs
      obtain ⟨as, t, rfl, ht, has⟩ := ih rest (by omega)
      refine ⟨a :: as, t, ?_, ht, List.forall_mem_cons.mpr ⟨hfits, has⟩⟩
      rw [frames_cons, List.append_assoc]

end Codec

end FluxThroughput.Lib.Frames
