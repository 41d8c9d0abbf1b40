import Mathlib.Data.List.Basic
import Mathlib.Logic.Relation

/-!
# Machines with labelled steps

A step may be disabled, fail, or lead to a next state; a failed machine takes no further step.
What holds at the start and survives every step holds in every reachable state, and a goal is
reached when every state short of it leads to one with less left to do.
-/

universe u v w

/-- Start states and labelled steps. -/
structure Machine (σ : Type u) (α : Type v) (ε : Type w) where
  start : σ → Prop
  step : α → σ → Option (Except ε σ)

namespace Machine

variable {σ : Type u} {α : Type v} {ε : Type w} (M : Machine σ α ε)

/-- The states that some interleaving of steps reaches. -/
inductive Reachable : σ → Prop
  | start {s : σ} (h : M.start s) : Reachable s
  | step {s s' : σ} {a : α} (h : Reachable s) (hs : M.step a s = some (.ok s')) : Reachable s'

/-- The states reached by steps that all meet a condition on the state they are taken in. -/
inductive ReachableBy (cond : α → σ → Prop) : σ → Prop
  | start {s : σ} (h : M.start s) : ReachableBy cond s
  | step {s s' : σ} {a : α} (h : ReachableBy cond s) (hc : cond a s)
    (hs : M.step a s = some (.ok s')) : ReachableBy cond s'

/-- The steps of a schedule one after the other; nothing when one of them is disabled. -/
def run : List α → σ → Option (Except ε σ)
  | [], s => some (.ok s)
  | a :: as, s =>
    match M.step a s with
    | some (.ok s') => run as s'
    | r => r

variable {M}

/-- A step that cannot fail leads to the state it computes. -/
theorem eq_some_of_map_ok {o : Option σ} {s : σ}
    (h : o.map (Except.ok : σ → Except ε σ) = some (.ok s)) : o = some s :=
  Option.map_injective (fun _ _ ↦ Except.ok.inj) h

/-- An invariant of the steps holds in every reachable state. -/
theorem Reachable.invariant {Inv : σ → Prop} (hstart : ∀ s, M.start s → Inv s)
    (hstep : ∀ a s s', Inv s → M.step a s = some (.ok s') → Inv s') {s : σ}
    (h : M.Reachable s) : Inv s := by
  induction h with
  | start h => exact hstart _ h
  | step _ hs ih => exact hstep _ _ _ ih hs

/-- An invariant of the steps that meet a condition holds in every state they reach. -/
theorem ReachableBy.invariant {cond : α → σ → Prop} {Inv : σ → Prop}
    (hstart : ∀ s, M.start s → Inv s)
    (hstep : ∀ a s s', Inv s → cond a s → M.step a s = some (.ok s') → Inv s') {s : σ}
    (h : M.ReachableBy cond s) : Inv s := by
  induction h with
  | start h => exact hstart _ h
  | step _ hc hs ih => exact hstep _ _ _ ih hc hs

/-- What steps of a kind reach, steps reach. -/
theorem ReachableBy.reachable {cond : α → σ → Prop} {s : σ} (h : M.ReachableBy cond s) :
    M.Reachable s := by
  induction h with
  | start h => exact .start h
  | step _ _ hs ih => exact .step ih hs

/-- A schedule runs as its first step and then the rest. -/
theorem run_cons {a : α} {as : List α} {s s' : σ} (h : M.step a s = some (.ok s')) :
    M.run (a :: as) s = M.run as s' := by
  rw [run, h]

/-- A schedule that runs through takes its first step, and runs through from there. -/
theorem exists_of_run_cons {a : α} {as : List α} {s t : σ}
    (h : M.run (a :: as) s = some (.ok t)) :
    ∃ s', M.step a s = some (.ok s') ∧ M.run as s' = some (.ok t) := by
  rw [Machine.run] at h
  split at h
  · next s' hs => exact ⟨s', hs, h⟩
  · next hnone =>
    cases hs : M.step a s with
    | none =>
      rw [hs] at h
      cases h
    | some r =>
      rw [hs] at h
      cases h
      exact absurd hs (hnone t)

/-- A schedule reaches the state it ends in. -/
theorem Reachable.run {s s' : σ} (h : M.Reachable s) (as : List α)
    (hrun : M.run as s = some (.ok s')) : M.Reachable s' := by
  induction as generalizing s with
  | nil =>
    cases hrun
    exact h
  | cons a as ih =>
    obtain ⟨s₁, hs, hrest⟩ := exists_of_run_cons hrun
    exact ih (.step h hs) hrest

/-- So does one whose steps meet a condition in every state. -/
theorem ReachableBy.run {cond : α → σ → Prop} {s s' : σ} (h : M.ReachableBy cond s)
    (as : List α) (hrun : M.run as s = some (.ok s'))
    (hcond : ∀ a ∈ as, ∀ s, cond a s) : M.ReachableBy cond s' := by
  induction as generalizing s with
  | nil =>
    cases hrun
    exact h
  | cons a as ih =>
    obtain ⟨s₁, hs, hrest⟩ := exists_of_run_cons hrun
    have ha : cond a s := hcond a (List.mem_cons_self ..) s
    exact ih (.step h ha hs) hrest fun b hb ↦ hcond b (List.mem_cons_of_mem a hb)

variable (M) in
/-- A step that meets a condition. -/
def StepBy (cond : α → σ → Prop) (s s' : σ) : Prop :=
  ∃ a, cond a s ∧ M.step a s = some (.ok s')

/-- What is reached goes on with such steps. -/
theorem ReachableBy.trans {cond : α → σ → Prop} {s t : σ} (h : M.ReachableBy cond s)
    (hsteps : Relation.ReflTransGen (M.StepBy cond) s t) : M.ReachableBy cond t := by
  induction hsteps with
  | refl => exact h
  | tail _ hlast ih =>
    obtain ⟨a, hc, hs⟩ := hlast
    exact ih.step hc hs

/-- Where every state short of a goal leads to a state with less left, it leads to the goal. -/
theorem exists_reach_of_lt {r : σ → σ → Prop} {Inv Goal : σ → Prop} (left : σ → Nat)
    (hless : ∀ s, Inv s → ¬ Goal s →
      ∃ s', Relation.ReflTransGen r s s' ∧ Inv s' ∧ left s' < left s)
    {s : σ} (h : Inv s) : ∃ t, Relation.ReflTransGen r s t ∧ Goal t := by
  induction hleft : left s using Nat.strongRecOn generalizing s with
  | _ m ih =>
    by_cases hgoal : Goal s
    · exact ⟨s, .refl, hgoal⟩
    · obtain ⟨s', hsteps, hinv, hlt⟩ := hless s h hgoal
      obtain ⟨t, hrest, ht⟩ := ih (left s') (hleft ▸ hlt) hinv rfl
      exact ⟨t, hsteps.trans hrest, ht⟩

end Machine

/-! ### Total steps -/

namespace Steps

variable {σ : Type u} {α : Type v} (step : σ → α → σ) {P Q : σ → α → Prop}

/-- Every step of a run meets a condition on the state it is taken in. -/
def Each (P : σ → α → Prop) : σ → List α → Prop
  | _, [] => True
  | s, a :: as => P s a ∧ Each P (step s a) as

variable {step}

/-- Conditions on a step that agree under an invariant which either of them carries on agree on
whole runs. -/
theorem each_congr {Inv : σ → Prop} (hiff : ∀ s a, Inv s → (P s a ↔ Q s a))
    (hnext : ∀ s a, Inv s → P s a → Inv (step s a)) {s : σ} (h : Inv s) (as : List α) :
    Each step P s as ↔ Each step Q s as := by
  induction as generalizing s with
  | nil => exact Iff.rfl
  | cons a as ih =>
    rw [Each, Each, ← hiff s a h]
    exact and_congr_right fun hP ↦ ih (hnext s a h hP)

end Steps
