import Mathlib.Data.List.Basic
import Mathlib.Data.Option.Basic

/-!
# Call brackets and their replay

A token stream opens and closes frames. Replaying it keeps the stack of open frames,
innermost first, and fails on a close with nothing open. A close pops whatever frame is
innermost; whether it names the same frame is the separate grammar `Nested`.
-/

namespace Nesting

universe u v
variable {α : Type u} {β : Type v}

/-- One event of a bracketed stream. -/
inductive Token (α : Type u)
  | enter (a : α)
  | leave (a : α)
  | other
  deriving DecidableEq, Repr

/-- Relabel the frames of a token. -/
def Token.map (f : α → β) : Token α → Token β
  | .enter a => .enter (f a)
  | .leave a => .leave (f a)
  | .other => .other

/-- One token acts on the stack of open frames. -/
def step : List α → Token α → Option (List α)
  | s, .enter a => some (a :: s)
  | _ :: s, .leave _ => some s
  | [], .leave _ => none
  | s, .other => some s

/-- Replay a stream from a stack of open frames. -/
def replay : List α → List (Token α) → Option (List α)
  | s, [] => some s
  | s, t :: ts => (step s t).bind fun s' ↦ replay s' ts

/-- Number of opening tokens. -/
def enters : List (Token α) → Nat
  | [] => 0
  | .enter _ :: ts => enters ts + 1
  | .leave _ :: ts => enters ts
  | .other :: ts => enters ts

/-- Number of closing tokens. -/
def leaves : List (Token α) → Nat
  | [] => 0
  | .enter _ :: ts => leaves ts
  | .leave _ :: ts => leaves ts + 1
  | .other :: ts => leaves ts

/-- Properly nested streams: every frame is closed, under its own name. -/
inductive Nested : List (Token α) → Prop
  | nil : Nested []
  | other {ts : List (Token α)} : Nested ts → Nested (.other :: ts)
  | frame (a : α) {ts us : List (Token α)} :
      Nested ts → Nested us → Nested (.enter a :: (ts ++ .leave a :: us))

@[simp] theorem replay_enter (s : List α) (a : α) (ts : List (Token α)) :
    replay s (.enter a :: ts) = replay (a :: s) ts := rfl

@[simp] theorem replay_leave_cons (s : List α) (a b : α) (ts : List (Token α)) :
    replay (b :: s) (.leave a :: ts) = replay s ts := rfl

@[simp] theorem replay_other (s : List α) (ts : List (Token α)) :
    replay s (.other :: ts) = replay s ts := rfl

/-- Replay threads through a cut. -/
theorem replay_append (s : List α) (ts us : List (Token α)) :
    replay s (ts ++ us) = (replay s ts).bind fun s' ↦ replay s' us := by
  induction ts generalizing s with
  | nil => rfl
  | cons t ts ih =>
    rw [List.cons_append, replay, replay]
    cases h : step s t with
    | none => rfl
    | some s' => simp [ih]

/-- A replayable stream has replayable prefixes. -/
theorem replay_left {s s' : List α} {ts us : List (Token α)} (h : replay s (ts ++ us) = some s') :
    ∃ r, replay s ts = some r ∧ replay r us = some s' := by
  rw [replay_append] at h
  exact Option.bind_eq_some_iff.mp h

/-- Frames below those a stream reaches stay in place. -/
theorem replay_append_stack {s r : List α} {ts : List (Token α)} (h : replay s ts = some r)
    (t : List α) : replay (s ++ t) ts = some (r ++ t) := by
  induction ts generalizing s with
  | nil =>
    cases h
    rfl
  | cons u ts ih =>
    cases u with
    | enter a => exact ih (s := a :: s) h
    | other => exact ih (s := s) h
    | leave a =>
      cases s with
      | nil => cases h
      | cons b s => exact ih (s := s) h

/-- Relabelling commutes with replay. -/
theorem replay_map (f : α → β) (s : List α) (ts : List (Token α)) :
    replay (s.map f) (ts.map (Token.map f)) = (replay s ts).map (List.map f) := by
  induction ts generalizing s with
  | nil => rfl
  | cons t ts ih =>
    rw [List.map_cons]
    cases t with
    | enter a => exact ih (a :: s)
    | other => exact ih s
    | leave a =>
      cases s with
      | nil => rfl
      | cons b s => exact ih s

/-! ### Closing the innermost frame -/

/-- Every close names the innermost open frame. -/
def Matched : List α → List (Token α) → Prop
  | _, [] => True
  | s, .enter a :: ts => Matched (a :: s) ts
  | [], .leave _ :: _ => False
  | b :: s, .leave a :: ts => b = a ∧ Matched s ts
  | s, .other :: ts => Matched s ts

/-- A matched stream is matched up to a cut and goes on from the frames open there. -/
theorem matched_append {s s' : List α} {ts us : List (Token α)} (h : replay s ts = some s') :
    Matched s (ts ++ us) ↔ Matched s ts ∧ Matched s' us := by
  induction ts generalizing s with
  | nil =>
    cases h
    simp [Matched]
  | cons t ts ih =>
    cases t with
    | enter a => exact ih (s := a :: s) h
    | other => exact ih (s := s) h
    | leave a =>
      cases s with
      | nil => cases h
      | cons b s =>
        rw [List.cons_append, Matched, Matched, ih (s := s) h, and_assoc]

/-- A stream whose front is not matched is not matched. -/
theorem Matched.left {s : List α} {ts us : List (Token α)} (h : Matched s (ts ++ us)) :
    Matched s ts := by
  induction ts generalizing s with
  | nil => trivial
  | cons t ts ih =>
    cases t with
    | enter a => exact ih (s := a :: s) h
    | other => exact ih (s := s) h
    | leave a =>
      cases s with
      | nil => exact h.elim
      | cons b s => exact ⟨h.1, ih (s := s) h.2⟩

/-- A matched stream replays. -/
theorem Matched.replay {s : List α} {ts : List (Token α)} (h : Matched s ts) :
    ∃ s', Nesting.replay s ts = some s' := by
  induction ts generalizing s with
  | nil => exact ⟨s, rfl⟩
  | cons t ts ih =>
    cases t with
    | enter a => exact ih (s := a :: s) h
    | other => exact ih (s := s) h
    | leave a =>
      cases s with
      | nil => exact h.elim
      | cons b s => exact ih (s := s) h.2

/-- The opening and closing tokens. -/
def brackets (ts : List (Token α)) : List (Token α) :=
  ts.filter fun t ↦ t matches .enter _ | .leave _

@[simp] theorem brackets_append (ts us : List (Token α)) :
    brackets (ts ++ us) = brackets ts ++ brackets us :=
  List.filter_append ts us

/-- Other tokens close nothing. -/
theorem matched_brackets (s : List α) (ts : List (Token α)) :
    Matched s (brackets ts) ↔ Matched s ts := by
  induction ts generalizing s with
  | nil => exact Iff.rfl
  | cons t ts ih =>
    cases t with
    | enter a => exact ih (a :: s)
    | other => exact ih s
    | leave a =>
      cases s with
      | nil => exact Iff.rfl
      | cons b s => exact and_congr_right fun _ ↦ ih s

/-- Opening counts add. -/
@[simp] theorem enters_append (ts us : List (Token α)) :
    enters (ts ++ us) = enters ts + enters us := by
  induction ts with
  | nil => simp [enters]
  | cons t ts ih => cases t <;> simp only [List.cons_append, enters, ih]; omega

/-- Closing counts add. -/
@[simp] theorem leaves_append (ts us : List (Token α)) :
    leaves (ts ++ us) = leaves ts + leaves us := by
  induction ts with
  | nil => simp [leaves]
  | cons t ts ih => cases t <;> simp only [List.cons_append, leaves, ih]; omega

/-- A successful replay balances the counts against the stack heights. -/
theorem length_replay {s s' : List α} {ts : List (Token α)} (h : replay s ts = some s') :
    s'.length + leaves ts = s.length + enters ts := by
  induction ts generalizing s with
  | nil =>
    cases h
    rfl
  | cons t ts ih =>
    cases t with
    | enter a =>
      have := ih (s := a :: s) h
      simp only [List.length_cons, enters, leaves] at this ⊢
      omega
    | other => exact ih (s := s) h
    | leave a =>
      cases s with
      | nil => cases h
      | cons b s =>
        have := ih (s := s) h
        simp only [List.length_cons, enters, leaves] at this ⊢
        omega

/-- Replay succeeds exactly when no prefix closes more frames than were open or opened. -/
theorem replay_isSome_iff (s : List α) (ts : List (Token α)) :
    (replay s ts).isSome ↔ ∀ p, p <+: ts → leaves p ≤ s.length + enters p := by
  constructor
  · rintro h p ⟨q, rfl⟩
    obtain ⟨s', hs⟩ := Option.isSome_iff_exists.mp h
    obtain ⟨r, hr, -⟩ := replay_left hs
    have := length_replay hr
    omega
  · intro h
    induction ts generalizing s with
    | nil => rfl
    | cons t ts ih =>
      have cut : ∀ p, p <+: ts → leaves (t :: p) ≤ s.length + enters (t :: p) := fun p hp ↦
        h _ (List.cons_prefix_cons.mpr ⟨rfl, hp⟩)
      cases t with
      | enter a =>
        apply ih (a :: s)
        intro p hp
        have := cut p hp
        simp only [leaves, enters, List.length_cons] at this ⊢
        omega
      | other => exact ih s cut
      | leave a =>
        cases s with
        | nil =>
          have := cut [] List.nil_prefix
          simp [leaves, enters] at this
        | cons b s =>
          apply ih s
          intro p hp
          have := cut p hp
          simp only [leaves, enters, List.length_cons] at this ⊢
          omega

/-! ### The grammar -/

/-- A properly nested stream opens as often as it closes. -/
theorem Nested.enters_eq_leaves {ts : List (Token α)} (h : Nested ts) :
    enters ts = leaves ts := by
  induction h with
  | nil => rfl
  | other _ ih => exact ih
  | frame a _ _ iht ihu =>
    simp only [enters, leaves, enters_append, leaves_append, iht, ihu]
    omega

end Nesting
