import Mathlib.Data.List.Infix

/-!
# The first occurrence of a pattern

What follows the first occurrence of a pattern in a text, and how it is found across a
separator: an element that is not in the pattern, so that no occurrence contains it.
-/

namespace Substring

variable {σ : Type} [DecidableEq σ] {p : List σ}

/-- What follows the first occurrence of `p`. -/
def behind (p xs : List σ) : Option (List σ) := (xs.dropInfix? p).map Prod.snd

omit [DecidableEq σ] in
private theorem snd_dropInfix?_go [BEq σ] (xs acc : List σ) :
    (List.dropInfix?.go p xs acc).map Prod.snd = (List.dropInfix?.go p xs []).map Prod.snd := by
  induction xs generalizing acc with
  | nil =>
    unfold List.dropInfix?.go
    split <;> rfl
  | cons x xs ih =>
    unfold List.dropInfix?.go
    cases (x :: xs).dropPrefix? p with
    | none =>
      show (List.dropInfix?.go p xs (x :: acc)).map Prod.snd =
        (List.dropInfix?.go p xs [x]).map Prod.snd
      rw [ih (x :: acc), ih [x]]
    | some s => rfl

theorem behind_nil (hp : p ≠ []) : behind p [] = none := by
  cases p with
  | nil => exact absurd rfl hp
  | cons x p => rfl

/-- The occurrence is at the start of the text or in its tail. -/
theorem behind_cons (x : σ) (xs : List σ) :
    behind p (x :: xs) = ((x :: xs).dropPrefix? p).or (behind p xs) := by
  show (List.dropInfix?.go p (x :: xs) []).map Prod.snd = _
  rw [List.dropInfix?.go]
  cases (x :: xs).dropPrefix? p with
  | none => exact snd_dropInfix?_go xs [x]
  | some s => rfl

/-- A text that begins with the pattern. -/
theorem behind_append_self (hp : p ≠ []) (xs : List σ) : behind p (p ++ xs) = some xs := by
  cases p with
  | nil => exact absurd rfl hp
  | cons x p =>
    have hstart : (x :: p ++ xs).dropPrefix? (x :: p) = some xs :=
      List.dropPrefix?_eq_some_iff.mpr ⟨x :: p, rfl, beq_self_eq_true _⟩
    rw [List.cons_append] at hstart ⊢
    rw [behind_cons, hstart, Option.some_or]

/-- Nothing is found exactly where the pattern does not occur. -/
theorem behind_eq_none (hp : p ≠ []) {xs : List σ} : behind p xs = none ↔ ¬ p <:+: xs := by
  induction xs with
  | nil =>
    rw [List.infix_nil]
    exact ⟨fun _ ↦ hp, fun _ ↦ behind_nil hp⟩
  | cons x xs ih =>
    rw [behind_cons, List.infix_cons_iff, not_or, ← ih]
    cases hstart : (x :: xs).dropPrefix? p with
    | some s =>
      obtain ⟨q, heq, hq⟩ := List.dropPrefix?_eq_some_iff.mp hstart
      rw [beq_iff_eq] at hq
      subst hq
      simp [heq]
    | none =>
      have hnot : ¬ p <+: x :: xs := by
        rintro ⟨s, hs⟩
        have hsome := List.dropPrefix?_eq_some_iff.mpr ⟨p, hs.symm, beq_self_eq_true p⟩
        rw [hstart] at hsome
        cases hsome
      simp [hnot]

/-! ### Separators -/

variable {s : σ}

theorem dropPrefix?_append_cons (hs : s ∉ p) (xs ys : List σ) :
    (xs ++ s :: ys).dropPrefix? p = (xs.dropPrefix? p).map (· ++ s :: ys) := by
  induction p generalizing xs with
  | nil => simp
  | cons y p ih =>
    have hy : y ≠ s := fun h ↦ hs (by rw [h]; exact List.mem_cons_self)
    cases xs with
    | nil => simp [List.dropPrefix?, Ne.symm hy]
    | cons x xs =>
      simp only [List.cons_append, List.dropPrefix?]
      split
      · exact ih (fun h ↦ hs (List.mem_cons_of_mem _ h)) xs
      · rfl

/-- The first occurrence is before the separator or, failing that, behind it. -/
theorem behind_append_cons (hp : p ≠ []) (hs : s ∉ p) (xs ys : List σ) :
    behind p (xs ++ s :: ys) = ((behind p xs).map (· ++ s :: ys)).or (behind p ys) := by
  induction xs with
  | nil =>
    have hnone : (s :: ys).dropPrefix? p = none := by
      have h := dropPrefix?_append_cons hs [] ys
      cases p with
      | nil => exact absurd rfl hp
      | cons y p => exact h
    rw [behind_nil hp, List.nil_append, behind_cons, hnone, Option.map_none]
  | cons x xs ih =>
    have hstart := dropPrefix?_append_cons hs (x :: xs) ys
    rw [List.cons_append] at hstart ⊢
    rw [behind_cons, hstart, behind_cons, ih]
    cases (x :: xs).dropPrefix? p with
    | none => rfl
    | some t => rfl

/-- A separator at the start is passed over. -/
theorem behind_cons_of_not_mem (hp : p ≠ []) (hs : s ∉ p) (ys : List σ) :
    behind p (s :: ys) = behind p ys := by
  have h := behind_append_cons hp hs [] ys
  rwa [behind_nil hp] at h

end Substring
