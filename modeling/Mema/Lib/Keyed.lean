import Mathlib.Data.List.Basic
import Mathlib.Logic.Function.Basic

/-!
# Maps filled in order

Storing values under their keys one after the other leaves, for each key, the last value
that has it.
-/

namespace Keyed

universe u v
variable {κ : Type u} {ν : Type v} [DecidableEq κ]

/-- Store values in order, each under its key. -/
def storeAll (key : ν → κ) (m : κ → Option ν) (xs : List ν) : κ → Option ν :=
  xs.foldl (fun m x ↦ Function.update m (key x) (some x)) m

/-- The last value with this key. -/
def lastWith (key : ν → κ) (k : κ) : List ν → Option ν
  | [] => none
  | x :: xs => (lastWith key k xs).or (if key x = k then some x else none)

variable {key : ν → κ} {k : κ} {xs : List ν}

/-- Later values go before what the map held. -/
theorem storeAll_apply (key : ν → κ) (m : κ → Option ν) (xs : List ν) (k : κ) :
    storeAll key m xs k = (lastWith key k xs).or (m k) := by
  induction xs generalizing m with
  | nil => rfl
  | cons x xs ih =>
    show storeAll key (Function.update m (key x) (some x)) xs k = _
    rw [ih, lastWith, Option.or_assoc]
    by_cases h : key x = k
    · subst h
      rw [Function.update_self, if_pos rfl]
      rfl
    · rw [Function.update_of_ne (Ne.symm h), if_neg h]
      rfl

/-- An empty map is left with the last values. -/
theorem storeAll_empty (key : ν → κ) (xs : List ν) (k : κ) :
    storeAll key (fun _ ↦ none) xs k = lastWith key k xs := by
  rw [storeAll_apply, Option.or_none]

/-- The last value with a key is one of the values, and has the key. -/
theorem lastWith_mem {x : ν} (h : lastWith key k xs = some x) : x ∈ xs ∧ key x = k := by
  induction xs with
  | nil => cases h
  | cons y ys ih =>
    rw [lastWith] at h
    cases hlast : lastWith key k ys with
    | some z =>
      rw [hlast, Option.some_or] at h
      have hx := ih (hlast.trans h)
      exact ⟨List.mem_cons_of_mem y hx.1, hx.2⟩
    | none =>
      rw [hlast, Option.none_or] at h
      split at h
      · next hy =>
        cases h
        exact ⟨List.mem_cons_self, hy⟩
      · cases h

/-- There is a last value exactly when there is one. -/
theorem lastWith_eq_none_iff : lastWith key k xs = none ↔ ∀ x ∈ xs, key x ≠ k := by
  induction xs with
  | nil => simp [lastWith]
  | cons y ys ih =>
    rw [lastWith, Option.or_eq_none_iff, ih, List.forall_mem_cons, and_comm]
    simp

theorem exists_lastWith {x : ν} (hx : x ∈ xs) : ∃ y, lastWith key (key x) xs = some y := by
  cases h : lastWith key (key x) xs with
  | some y => exact ⟨y, rfl⟩
  | none => exact absurd rfl (lastWith_eq_none_iff.mp h x hx)

/-- A value that alone has its key is the last with it. -/
theorem lastWith_of_filter_eq {x : ν} (h : xs.filter (fun y ↦ key y = k) = [x]) :
    lastWith key k xs = some x := by
  have hmem {y : ν} : y ∈ xs ∧ key y = k ↔ y = x := by
    have hy : y ∈ xs.filter (fun y ↦ key y = k) ↔ y ∈ [x] := by rw [h]
    simpa using hy
  cases hlast : lastWith key k xs with
  | some y => rw [hmem.mp (lastWith_mem hlast)]
  | none =>
    have hx := hmem.mpr rfl
    exact absurd hx.2 (lastWith_eq_none_iff.mp hlast x hx.1)

/-- Relabelling the keys injectively changes nothing. -/
theorem lastWith_comp {κ' : Type u} [DecidableEq κ'] {f : κ → κ'} (hf : Function.Injective f)
    (key : ν → κ) (k : κ) (xs : List ν) :
    lastWith (fun x ↦ f (key x)) (f k) xs = lastWith key k xs := by
  induction xs with
  | nil => rfl
  | cons x xs ih => simp only [lastWith, ih, hf.eq_iff]

end Keyed
