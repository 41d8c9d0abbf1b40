import Mathlib.Data.Nat.Notation

/-!
# Binary search for a predicate

The least index of a range where a monotone predicate holds, found by halving an interval whose
lower end is past a failure and whose upper end is at a success.
-/

namespace Search

/-- Halve `[lo, hi)` until it is empty. -/
def halve (f : Nat → Bool) (lo hi : Nat) : Nat :=
  if lo < hi then
    let mid := (lo + hi) / 2
    if f mid then halve f lo mid else halve f (mid + 1) hi
  else lo
termination_by hi - lo

/-- The least index below `n` where `f` holds, or `n`. -/
def search (n : Nat) (f : Nat → Bool) : Nat := halve f 0 n

/-- Once true, true up to `n`. -/
def MonotoneBelow (n : Nat) (f : Nat → Bool) : Prop :=
  ∀ i j, i ≤ j → j < n → f i = true → f j = true

/-- Failures lie below the interval and successes from its end on. -/
private structure Inv (n : Nat) (f : Nat → Bool) (lo hi : Nat) : Prop where
  ordered : lo ≤ hi
  bounded : hi ≤ n
  below : ∀ i, i < lo → f i = false
  above : ∀ i, hi ≤ i → i < n → f i = true

private theorem halve_inv {n : Nat} {f : Nat → Bool} (hf : MonotoneBelow n f) {lo hi : Nat}
    (h : Inv n f lo hi) : Inv n f (halve f lo hi) (halve f lo hi) := by
  fun_induction halve f lo hi with
  | case1 lo hi hlt mid hmid ih =>
    apply ih
    have hle := h.bounded
    refine ⟨by omega, by omega, h.below, ?_⟩
    intro i hi hn
    exact hf mid i hi hn hmid
  | case2 lo hi hlt mid hmid ih =>
    apply ih
    have hle := h.bounded
    refine ⟨by omega, hle, ?_, h.above⟩
    intro i hi
    -- a success at or before the middle would reach the middle
    cases hfi : f i with
    | false => rfl
    | true => exact absurd (hf i mid (by omega) (by omega) hfi) hmid
  | case3 lo hi hlt =>
    have heq : hi = lo := by
      have := h.ordered
      omega
    rw [heq] at h
    exact h

private theorem search_inv {n : Nat} {f : Nat → Bool} (hf : MonotoneBelow n f) :
    Inv n f (search n f) (search n f) := by
  apply halve_inv hf
  refine ⟨Nat.zero_le n, Nat.le_refl n, ?_, ?_⟩
  · intro i hi
    omega
  · intro i hi hn
    omega

/-- Where the predicate fails, the search goes on beyond. -/
theorem lt_search {n : Nat} {f : Nat → Bool} (hf : MonotoneBelow n f) {i : Nat} (hn : i < n)
    (hi : f i = false) : i < search n f := by
  apply Nat.lt_of_not_le
  intro hle
  rw [(search_inv hf).above i hle hn] at hi
  cases hi

end Search
