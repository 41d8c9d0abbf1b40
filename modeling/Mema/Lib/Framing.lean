import Mema.Lib.Bytes

/-!
# Length-prefixed frames

A frame is a payload behind its own little-endian length. A framed file is a header and
then frames, so the file past the start of frame `k` is exactly the frames from `k` on.
-/

namespace Framing

open Bytes

/-- A payload behind its length in `w` bytes. -/
def frame (w : Nat) (p : List UInt8) : List UInt8 := leBytes w p.length ++ p

/-- Consecutive frames. -/
def frames (w : Nat) (ps : List (List UInt8)) : List UInt8 := ps.flatMap (frame w)

/-- Where frame `k` begins in a file whose first frame begins at `base`. -/
def start (w base : Nat) (ps : List (List UInt8)) (k : Nat) : Nat :=
  base + (frames w (ps.take k)).length

@[simp] theorem length_frame (w : Nat) (p : List UInt8) : (frame w p).length = w + p.length := by
  simp [frame]

@[simp] theorem frames_nil (w : Nat) : frames w [] = [] := rfl

theorem frames_cons (w : Nat) (p : List UInt8) (ps : List (List UInt8)) :
    frames w (p :: ps) = frame w p ++ frames w ps := rfl

theorem frames_append (w : Nat) (ps qs : List (List UInt8)) :
    frames w (ps ++ qs) = frames w ps ++ frames w qs := List.flatMap_append

theorem frames_singleton (w : Nat) (p : List UInt8) : frames w [p] = frame w p := by
  simp [frames]

/-- The frames from `k` on are what follows the start of frame `k`. -/
theorem drop_start (w : Nat) (pre : List UInt8) (ps : List (List UInt8)) (k : Nat) :
    (pre ++ frames w ps).drop (start w pre.length ps k) = frames w (ps.drop k) := by
  have hs : pre ++ frames w ps = (pre ++ frames w (ps.take k)) ++ frames w (ps.drop k) := by
    rw [List.append_assoc, ← frames_append, List.take_append_drop]
  have hl : start w pre.length ps k = (pre ++ frames w (ps.take k)).length := by
    rw [start, List.length_append]
  rw [hs, hl, List.drop_left]

@[simp] theorem start_zero (w base : Nat) (ps : List (List UInt8)) : start w base ps 0 = base := by
  simp [start]

/-- Frame `k + 1` begins right after frame `k`. -/
theorem start_succ (w base : Nat) (ps : List (List UInt8)) (k : Nat) (hk : k < ps.length) :
    start w base ps (k + 1) = start w base ps k + w + ps[k].length := by
  rw [start, start, List.take_succ_eq_append_getElem hk, frames_append, frames_singleton,
    List.length_append, length_frame]
  omega

/-- Distinct frames begin at distinct places. -/
theorem start_lt (w base : Nat) (hw : 0 < w) (ps : List (List UInt8)) {j k : Nat}
    (hj : j < k) (hk : k ≤ ps.length) : start w base ps j < start w base ps k := by
  induction k with
  | zero => omega
  | succ k ih =>
    have hs := start_succ w base ps k (by omega)
    rcases Nat.lt_or_ge j k with hjk | hjk
    · have := ih hjk (by omega)
      omega
    · have he : j = k := by omega
      subst he
      omega

/-- The length field of the first frame. -/
theorem take_frame (w : Nat) (p rest : List UInt8) :
    (frame w p ++ rest).take w = leBytes w p.length := by
  rw [frame, List.append_assoc, List.take_append_of_le_length (by simp), List.take_of_length_le
    (by simp)]

/-- What follows the length field of the first frame. -/
theorem drop_frame (w : Nat) (p rest : List UInt8) :
    (frame w p ++ rest).drop w = p ++ rest := by
  rw [frame, List.append_assoc, List.drop_append_of_le_length (by simp), List.drop_of_length_le
    (by simp), List.nil_append]

/-- Whether bytes are whole frames, `fuel` of them at most. -/
def isFrames (w : Nat) : Nat → List UInt8 → Bool
  | 0, bs => bs.isEmpty
  | fuel + 1, bs => bs.isEmpty ||
      (decide (leNat (bs.take w) ≤ (bs.drop w).length) &&
        isFrames w fuel ((bs.drop w).drop (leNat (bs.take w))))

/-- Frames are recognised when their lengths fit their length fields. -/
theorem isFrames_frames (w : Nat) {ps : List (List UInt8)}
    (hlt : (frames w ps).length < 256 ^ w) {fuel : Nat} (hfuel : ps.length ≤ fuel) :
    isFrames w fuel (frames w ps) = true := by
  induction ps generalizing fuel with
  | nil =>
    cases fuel with
    | zero => rfl
    | succ fuel => rfl
  | cons p ps ih =>
    cases fuel with
    | zero => cases hfuel
    | succ fuel =>
      rw [frames_cons, List.length_append, length_frame] at hlt
      have hp : p.length < 256 ^ w := by omega
      have hrest := ih (by omega) (by simpa using hfuel)
      rw [frames_cons, isFrames, take_frame, drop_frame, leNat_leBytes_of_lt hp, List.drop_left,
        hrest, List.length_append, decide_eq_true (Nat.le_add_right _ _), Bool.and_self,
        Bool.or_true]

/-- Each frame has its length field. -/
theorem length_le_length_frames {w : Nat} (hw : 0 < w) (ps : List (List UInt8)) :
    ps.length ≤ (frames w ps).length := by
  induction ps with
  | nil => exact Nat.le_refl 0
  | cons p ps ih =>
    rw [frames_cons, List.length_append, length_frame, List.length_cons]
    omega

/-- Bytes that are not recognised are no concatenation of frames. -/
theorem ne_frames_of_isFrames {w : Nat} (hw : 0 < w) {bs : List UInt8}
    (hlt : bs.length < 256 ^ w) (h : isFrames w bs.length bs = false) (ps : List (List UInt8)) :
    bs ≠ frames w ps := by
  rintro rfl
  rw [isFrames_frames w hlt (length_le_length_frames hw ps)] at h
  cases h

end Framing
