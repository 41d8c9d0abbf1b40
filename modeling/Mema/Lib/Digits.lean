import Mathlib.Algebra.Group.Nat.Defs
import Mathlib.Data.List.TakeWhile

/-!
# Blanks and hexadecimal digits of ASCII text

Scanners skip blanks and take maximal runs. A numeral of `k` digits is below `16 ^ k`.
-/

namespace Digits

/-- White space. -/
def isBlank (b : UInt8) : Bool := (9 ≤ b && b ≤ 13) || b = 32

/-- The value of a hexadecimal digit. -/
def hexDigit (b : UInt8) : Option Nat :=
  if 48 ≤ b ∧ b ≤ 57 then some (b.toNat - 48)
  else if 65 ≤ b ∧ b ≤ 70 then some (b.toNat - 55)
  else if 97 ≤ b ∧ b ≤ 102 then some (b.toNat - 87)
  else none

/-- The value of a hexadecimal numeral, most significant digit first. -/
def hexValue (digits : List UInt8) : Nat :=
  digits.foldl (fun n b ↦ 16 * n + (hexDigit b).getD 0) 0

theorem hexDigit_lt {b : UInt8} {n : Nat} (h : hexDigit b = some n) : n < 16 := by
  unfold hexDigit at h
  split at h
  · next hb =>
    have := UInt8.le_iff_toNat_le.mp hb.2
    cases h
    rw [show (57 : UInt8).toNat = 57 from rfl] at this
    omega
  · split at h
    · next hb =>
      have := UInt8.le_iff_toNat_le.mp hb.2
      cases h
      rw [show (70 : UInt8).toNat = 70 from rfl] at this
      omega
    · split at h
      · next hb =>
        have := UInt8.le_iff_toNat_le.mp hb.2
        cases h
        rw [show (102 : UInt8).toNat = 102 from rfl] at this
        omega
      · cases h

theorem getD_hexDigit_lt (b : UInt8) : (hexDigit b).getD 0 < 16 := by
  cases h : hexDigit b with
  | none => show 0 < 16; omega
  | some n => exact hexDigit_lt h

/-- A numeral is bounded by its number of digits. -/
theorem hexValue_lt (digits : List UInt8) : hexValue digits < 16 ^ digits.length := by
  have hfold : ∀ (ds : List UInt8) (n k : Nat), n < 16 ^ k →
      ds.foldl (fun n b ↦ 16 * n + (hexDigit b).getD 0) n < 16 ^ (k + ds.length) := by
    intro ds
    induction ds with
    | nil => exact fun n k h ↦ h
    | cons d ds ih =>
      intro n k h
      have hd := getD_hexDigit_lt d
      have hnext : 16 * n + (hexDigit d).getD 0 < 16 ^ (k + 1) := by
        rw [Nat.pow_succ]
        omega
      rw [List.foldl_cons, List.length_cons, show k + (ds.length + 1) = k + 1 + ds.length by omega]
      exact ih _ (k + 1) hnext
  have h := hfold digits 0 0 (by decide)
  rwa [Nat.zero_add] at h

/-- A hexadecimal digit lies beyond the blanks. -/
theorem lt_of_hexDigit {b : UInt8} (h : (hexDigit b).isSome = true) : 32 < b := by
  unfold hexDigit at h
  split at h
  · next hb => exact Std.lt_of_lt_of_le (by decide) hb.1
  · split at h
    · next hb => exact Std.lt_of_lt_of_le (by decide) hb.1
    · split at h
      · next hb => exact Std.lt_of_lt_of_le (by decide) hb.1
      · cases h

/-- No hexadecimal digit is a blank. -/
theorem isBlank_of_hexDigit {b : UInt8} (h : (hexDigit b).isSome = true) : isBlank b = false := by
  have hlt := UInt8.lt_iff_toNat_lt.mp (lt_of_hexDigit h)
  rw [show (32 : UInt8).toNat = 32 from rfl] at hlt
  have hle : ¬ b ≤ 13 := by
    rw [UInt8.le_iff_toNat_le, show (13 : UInt8).toNat = 13 from rfl]
    omega
  have hne : b ≠ 32 := by
    rintro rfl
    exact absurd hlt (by decide)
  simp [isBlank, hle, hne]

/-! ### Maximal runs -/

variable {σ : Type} {p : σ → Bool}

/-- A run ends where the predicate first fails. -/
theorem takeWhile_run {xs : List σ} {y : σ} (hxs : ∀ x ∈ xs, p x = true) (hy : p y = false)
    (ys : List σ) : (xs ++ y :: ys).takeWhile p = xs := by
  rw [List.takeWhile_append_of_pos hxs, List.takeWhile_cons_of_neg (by rw [hy]; decide),
    List.append_nil]

/-- What follows a run is left over. -/
theorem dropWhile_run {xs : List σ} {y : σ} (hxs : ∀ x ∈ xs, p x = true) (hy : p y = false)
    (ys : List σ) : (xs ++ y :: ys).dropWhile p = y :: ys := by
  rw [List.dropWhile_append_of_pos hxs, List.dropWhile_cons_of_neg (by rw [hy]; decide)]

/-- A run ends at the end of the list, or where the predicate first fails. -/
theorem takeWhile_ends {xs ys : List σ} (hxs : ∀ x ∈ xs, p x = true)
    (hys : ∀ y ∈ ys.head?, p y = false) : (xs ++ ys).takeWhile p = xs := by
  cases ys with
  | nil => rw [List.append_nil, List.takeWhile_eq_self_iff.mpr hxs]
  | cons y ys => exact takeWhile_run hxs (hys y rfl) ys

theorem dropWhile_ends {xs ys : List σ} (hxs : ∀ x ∈ xs, p x = true)
    (hys : ∀ y ∈ ys.head?, p y = false) : (xs ++ ys).dropWhile p = ys := by
  cases ys with
  | nil => rw [List.append_nil, List.dropWhile_eq_nil_iff.mpr hxs]
  | cons y ys => exact dropWhile_run hxs (hys y rfl) ys

end Digits
