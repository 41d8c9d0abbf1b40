import Mathlib.Data.List.Sort
import Mathlib.Tactic.Linarith
import Mema.Lib.Nesting

/-!
# Spans of frames and stabbing queries

Each closed frame of a bracketed stream covers a closed interval of positions, from its
opening token to the token before the one that closes it. The spans that contain a position
start exactly at the frames open just after that position's token (`stab_spans`).
-/

namespace Spans

open Nesting

universe u
variable {α : Type u}

/-- A closed interval of positions. -/
structure Span where
  lo : Int
  hi : Int
  deriving DecidableEq, Repr

/-- The interval contains the position. -/
def Span.contains (x : Span) (j : Int) : Bool := decide (x.lo ≤ j) && decide (j ≤ x.hi)

/-- Where the intervals that contain a position start. -/
def stab (xs : List Span) (j : Int) : List Int := (xs.filter (·.contains j)).map Span.lo

/-- Replace the frame of each token by the token's position, counted from `i`. -/
def label : Int → List (Token α) → List (Token Int)
  | _, [] => []
  | i, .enter _ :: ts => .enter i :: label (i + 1) ts
  | i, .leave _ :: ts => .leave i :: label (i + 1) ts
  | i, .other :: ts => .other :: label (i + 1) ts

/-- Replay positions from `i`, collecting the span of each frame that is closed. -/
def spans : Int → List Int → List (Token α) → Option (List Int × List Span)
  | _, s, [] => some (s, [])
  | i, s, .enter _ :: ts => spans (i + 1) (i :: s) ts
  | i, s, .other :: ts => spans (i + 1) s ts
  | _, [], .leave _ :: _ => none
  | i, p :: s, .leave _ :: ts =>
    (spans (i + 1) s ts).map fun r ↦ (r.1, ⟨p, i - 1⟩ :: r.2)

/-- Positions still open and below `i`, innermost first. -/
def Below (i : Int) (s : List Int) : Prop := (i :: s).Pairwise (· > ·)

theorem stab_cons_of_contains {x : Span} {xs : List Span} {j : Int} (hlo : x.lo ≤ j)
    (hhi : j ≤ x.hi) : stab (x :: xs) j = x.lo :: stab xs j := by
  have hc : x.contains j = true := by simp [Span.contains, hlo, hhi]
  simp only [stab, List.filter_cons, hc, ↓reduceIte, List.map_cons]

theorem stab_cons_of_not_contains {x : Span} {xs : List Span} {j : Int}
    (h : ¬ (x.lo ≤ j ∧ j ≤ x.hi)) : stab (x :: xs) j = stab xs j := by
  have hc : ¬ x.contains j = true := by simpa [Span.contains] using h
  simp only [stab, List.filter_cons, hc, Bool.false_eq_true, ↓reduceIte]

/-- Stabbing distributes over concatenation. -/
theorem stab_append (xs ys : List Span) (j : Int) :
    stab (xs ++ ys) j = stab xs j ++ stab ys j := by
  rw [stab, List.filter_append, List.map_append, stab, stab]

theorem Below.enter {i : Int} {s : List Int} (h : Below i s) : Below (i + 1) (i :: s) := by
  obtain ⟨hi, hs⟩ := List.pairwise_cons.mp h
  apply List.pairwise_cons.mpr
  refine ⟨?_, h⟩
  intro p hp
  rcases List.mem_cons.mp hp with rfl | hp
  · omega
  · have := hi p hp
    omega

theorem Below.next {i : Int} {s : List Int} (h : Below i s) : Below (i + 1) s := by
  obtain ⟨hi, hs⟩ := List.pairwise_cons.mp h
  apply List.pairwise_cons.mpr
  refine ⟨?_, hs⟩
  intro p hp
  have := hi p hp
  omega

theorem Below.leave {i p : Int} {s : List Int} (h : Below i (p :: s)) : Below (i + 1) s := by
  obtain ⟨hi, hs⟩ := List.pairwise_cons.mp h
  have hs' : Below i s := List.pairwise_cons.mpr
    ⟨fun q hq ↦ hi q (List.mem_cons_of_mem _ hq), (List.pairwise_cons.mp hs).2⟩
  exact hs'.next

theorem Below.lt {i : Int} {s : List Int} (h : Below i s) {p : Int} (hp : p ∈ s) : p < i :=
  (List.pairwise_cons.mp h).1 p hp

/-- Everything below `i` is kept by a threshold at or above `i - 1`. -/
theorem Below.filter_le {i j : Int} {s : List Int} (h : Below i s) (hj : i ≤ j + 1) :
    s.filter (· ≤ j) = s := by
  apply List.filter_eq_self.mpr
  intro p hp
  have := h.lt hp
  simp only [decide_eq_true_eq]
  omega

/-- The positions left open are those of the labelled replay. -/
theorem spans_fst (i : Int) (s : List Int) (ts : List (Token α)) :
    (spans i s ts).map Prod.fst = replay s (label i ts) := by
  induction ts generalizing i s with
  | nil => rfl
  | cons t ts ih =>
    cases t with
    | enter a => exact ih (i + 1) (i :: s)
    | other => exact ih (i + 1) s
    | leave a =>
      cases s with
      | nil => rfl
      | cons p s =>
        rw [spans, label, replay_leave_cons, ← ih, Option.map_map]
        rfl

/-- Spans that end after `i` reach every earlier position through the frames already open:
those closed later, together with those never closed, are the frames open before `i`. -/
theorem stab_before {i j : Int} {s s' : List Int} {xs : List Span} {ts : List (Token α)}
    (h : spans i s ts = some (s', xs)) (hj : j < i) :
    (stab xs j ++ s'.filter (· ≤ j)).Perm (s.filter (· ≤ j)) := by
  induction ts generalizing i s xs with
  | nil =>
    cases h
    exact List.Perm.refl _
  | cons t ts ih =>
    cases t with
    | enter a =>
      have hp := ih (i := i + 1) (s := i :: s) h (by omega)
      rwa [List.filter_cons_of_neg (by simpa using hj)] at hp
    | other => exact ih (i := i + 1) (s := s) h (by omega)
    | leave a =>
      cases s with
      | nil => cases h
      | cons p s =>
        obtain ⟨⟨r, ys⟩, hr, he⟩ := Option.map_eq_some_iff.mp h
        cases he
        have hp := ih hr (by omega)
        by_cases hpj : p ≤ j
        · rw [stab_cons_of_contains hpj (by simp only; omega), List.cons_append,
            List.filter_cons_of_pos (by simpa using hpj)]
          exact hp.cons p
        · rw [stab_cons_of_not_contains (fun hc ↦ hpj hc.1),
            List.filter_cons_of_neg (by simpa using hpj)]
          exact hp

/-- The spans containing position `i + k`, with the frames never closed that start at or
before it, start exactly at the frames open after the first `k + 1` tokens. -/
theorem stab_spans {i : Int} {s s' : List Int} {xs : List Span} {ts : List (Token α)}
    (hb : Below i s) (h : spans i s ts = some (s', xs)) (k : Nat) (hk : k < ts.length) :
    ∃ r, replay s (label i (ts.take (k + 1))) = some r ∧ Below (i + k + 1) r ∧
      (stab xs (i + k) ++ s'.filter (· ≤ i + k)).Perm r := by
  induction ts generalizing i s xs k with
  | nil => simp at hk
  | cons t ts ih =>
    have shift (k : Nat) : i + ((k + 1 : Nat) : Int) = i + 1 + k := by
      simp only [Nat.cast_add, Nat.cast_one]
      omega
    -- After the first token the statement is `stab_before`; later positions use induction.
    have settle {r : List Int} {ys : List Span} (hbr : Below (i + 1) r)
        (hr : spans (i + 1) r ts = some (s', ys)) :
        (∃ q, replay r (label (i + 1) (ts.take k)) = some q ∧ Below (i + k + 1) q ∧
          (stab ys (i + k) ++ s'.filter (· ≤ i + k)).Perm q) := by
      cases k with
      | zero =>
        refine ⟨r, rfl, by simpa using hbr, ?_⟩
        have hp := stab_before hr (j := i) (by omega)
        rw [hbr.filter_le (by omega)] at hp
        simpa using hp
      | succ k =>
        have hk' : k < ts.length := by simpa using hk
        obtain ⟨q, hq, hbq, hp⟩ := ih hbr hr k hk'
        rw [shift]
        exact ⟨q, hq, hbq, hp⟩
    rw [List.take_succ_cons]
    cases t with
    | enter a => exact settle hb.enter h
    | other => exact settle hb.next h
    | leave a =>
      cases s with
      | nil => cases h
      | cons p s =>
        obtain ⟨⟨r, ys⟩, hr, he⟩ := Option.map_eq_some_iff.mp h
        cases he
        rw [stab_cons_of_not_contains (by simp only; omega)]
        exact settle hb.leave hr

/-- Labelled replay names the frames of the plain replay: when `f` sends each open position
to its frame, and each opening token's position to that token's frame. -/
theorem replay_label (f : Int → α) (i : Int) (s : List Int) (ts : List (Token α))
    (hf : ∀ k (hk : k < ts.length) a, ts[k] = .enter a → f (i + k) = a) :
    replay (s.map f) ts = (replay s (label i ts)).map (List.map f) := by
  induction ts generalizing i s with
  | nil => rfl
  | cons t ts ih =>
    have hf' : ∀ k (hk : k < ts.length) a, ts[k] = .enter a → f (i + 1 + k) = a := by
      intro k hk a ha
      have hshift : i + 1 + (k : Int) = i + ((k + 1 : Nat) : Int) := by
        simp only [Nat.cast_add, Nat.cast_one]
        omega
      rw [hshift]
      exact hf (k + 1) (by simpa using hk) a (by simpa using ha)
    cases t with
    | enter a =>
      have h0 : f i = a := by simpa using hf 0 (by simp) a rfl
      rw [replay_enter, label, replay_enter, ← h0, ← List.map_cons]
      exact ih (i + 1) (i :: s) hf'
    | other => exact ih (i + 1) s hf'
    | leave a =>
      cases s with
      | nil => rfl
      | cons p s => exact ih (i + 1) s hf'

/-- A position left open was open before or labels one of the tokens. -/
theorem mem_replay_label {i : Int} {s r : List Int} {ts : List (Token α)}
    (h : replay s (label i ts) = some r) {p : Int} (hp : p ∈ r) :
    p ∈ s ∨ i ≤ p ∧ p < i + ts.length := by
  induction ts generalizing i s with
  | nil =>
    cases h
    exact .inl hp
  | cons t ts ih =>
    have hlen : ((t :: ts).length : Int) = ts.length + 1 := by simp
    rw [hlen]
    cases t with
    | enter a =>
      rcases ih (i := i + 1) (s := i :: s) h with hmem | hnew
      · rcases List.mem_cons.mp hmem with rfl | hmem
        · exact .inr ⟨by omega, by omega⟩
        · exact .inl hmem
      · exact .inr ⟨by omega, by omega⟩
    | other =>
      rcases ih (i := i + 1) (s := s) h with hmem | hnew
      · exact .inl hmem
      · exact .inr ⟨by omega, by omega⟩
    | leave a =>
      cases s with
      | nil => cases h
      | cons q s =>
        rcases ih (i := i + 1) (s := s) h with hmem | hnew
        · exact .inl (List.mem_cons_of_mem _ hmem)
        · exact .inr ⟨by omega, by omega⟩

/-- Sorting the starts of a decreasing stack lists the frames outermost first. -/
theorem mergeSort_eq_reverse {i : Int} {xs s : List Int} (hb : Below i s) (hp : xs.Perm s) :
    xs.mergeSort (· ≤ ·) = s.reverse := by
  have hs : s.reverse.Pairwise (· ≤ ·) := by
    apply List.pairwise_reverse.mpr
    exact (List.pairwise_cons.mp hb).2.imp fun h ↦ le_of_lt h
  have hm : (xs.mergeSort (· ≤ ·)).Pairwise (· ≤ ·) := by
    have htrans (a b c : Int) (hab : decide (a ≤ b) = true) (hbc : decide (b ≤ c) = true) :
        decide (a ≤ c) = true := by
      simp only [decide_eq_true_eq] at hab hbc ⊢
      omega
    have htotal (a b : Int) : (decide (a ≤ b) || decide (b ≤ a)) = true := by
      simp only [Bool.or_eq_true, decide_eq_true_eq]
      omega
    simpa using List.pairwise_mergeSort htrans htotal xs
  apply List.Perm.eq_of_pairwise (fun a b _ _ hab hba ↦ le_antisymm hab hba) hm hs
  exact (List.mergeSort_perm xs _).trans (hp.trans (List.reverse_perm s).symm)

end Spans
