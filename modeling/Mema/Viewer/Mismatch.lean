import Mema.Viewer.FuncTree

/-!
# Exits that name another function

`memaviz/functree.go:24–36`: after popping, `BuildStree` compares the function pointers of
"these", meaning the exit and its enter. Both sides of the comparison read the enter, so the
check never fires.
-/

namespace Mema

open Nesting

/-- The function pointers the records open and close. -/
def pointerTokens (records : List Record) : List (Token UInt64) :=
  records.map fun r ↦ r.token.map Record.funcPointer

/-- While the records are replayed from the context, some exit carries another function
pointer than the innermost open enter. -/
def MismatchedExit (contextRecords records : List Record) : Prop :=
  ∃ before r after opened frames, records = before ++ r :: after ∧ r.type = MEMA_FUNC_EXIT ∧
    replay contextRecords (before.map Record.token) = some (opened :: frames) ∧
    r.funcPointer ≠ opened.funcPointer

/-- Every exit carries the function pointer of the innermost open enter. -/
def ExitsMatch (contextRecords records : List Record) : Prop :=
  Matched (contextRecords.map Record.funcPointer) (pointerTokens records)

/-- `BuildStree` panics with its own error on a mismatched exit and only then. -/
structure DetectsMismatch {τ : Type} (S : Stree τ) (contextRecords records : List Record) :
    Prop where
  panics : MismatchedExit contextRecords records →
    buildStree S contextRecords records = .error .notMatching
  passes : ExitsMatch contextRecords records →
    ∃ tree context, buildStree S contextRecords records = .ok (tree, context)

variable {τ : Type} {S : Stree τ} {contextRecords records : List Record}

/-- The comparison of the enter with itself never fails. -/
theorem buildStree_ne_notMatching (S : Stree τ) (contextRecords records : List Record) :
    buildStree S contextRecords records ≠ .error .notMatching := by
  have hspec := buildStree_spec S contextRecords records
  cases hr : replay contextRecords (records.map Record.token) with
  | none =>
    rw [hr] at hspec
    rw [hspec]
    intro heq
    cases heq
  | some frames =>
    rw [hr] at hspec
    obtain ⟨tree, hok, -⟩ := hspec
    rw [hok]
    intro heq
    cases heq

/-- Matching exits have an enter to close. -/
theorem ExitsMatch.replay (h : ExitsMatch contextRecords records) :
    ∃ frames, Nesting.replay contextRecords (records.map Record.token) = some frames := by
  obtain ⟨pointers, hp⟩ := Matched.replay h
  have htokens : pointerTokens records =
      (records.map Record.token).map (Token.map Record.funcPointer) := by
    rw [pointerTokens, List.map_map]
    rfl
  rw [htokens, replay_map, Option.map_eq_some_iff] at hp
  obtain ⟨frames, hframes, -⟩ := hp
  exact ⟨frames, hframes⟩

theorem ExitsMatch.passes (S : Stree τ) (h : ExitsMatch contextRecords records) :
    ∃ tree context, buildStree S contextRecords records = .ok (tree, context) := by
  obtain ⟨frames, hframes⟩ := h.replay
  have hspec := buildStree_spec S contextRecords records
  rw [hframes] at hspec
  obtain ⟨tree, hok, -⟩ := hspec
  exact ⟨tree, frames, hok⟩

/-- For every block and context, mismatches are detected exactly when there is none. -/
theorem detectsMismatch_iff (S : Stree τ) (contextRecords records : List Record) :
    DetectsMismatch S contextRecords records ↔ ¬ MismatchedExit contextRecords records := by
  constructor
  · intro h hmis
    exact buildStree_ne_notMatching S contextRecords records (h.panics hmis)
  · intro hnone
    exact ⟨fun hmis ↦ absurd hmis hnone, fun hmatch ↦ hmatch.passes S⟩

/-- A function at 16 is entered and one at 32 is left, and the tree is built. -/
theorem mismatch_undetected :
    ¬ DetectsMismatch Stree.listing [] [enterRecord 16, exitRecord 32] := by
  intro h
  have hpanics := h.panics ⟨[enterRecord 16], exitRecord 32, [], enterRecord 16, [], rfl,
    by decide, by decide, by decide⟩
  exact buildStree_ne_notMatching _ _ _ hpanics

end Mema
