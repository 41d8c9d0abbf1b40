import Mathlib.Data.List.Basic
import Mathlib.Algebra.Order.Ring.Nat
import Mathlib.Tactic.Ring

/-!
# Append logs cut into full chunks

A log accumulates items and cuts a chunk as soon as it holds `k` of them. Finished chunks are
full, so item `i` of the log is item `i % k` of chunk `i / k`.
-/

namespace Chunks

universe u
variable {α : Type u}

/-- Finished chunks and the items waiting for the next cut. -/
structure Log (α : Type u) where
  done : List (List α)
  pending : List α
  deriving DecidableEq, Repr

namespace Log

/-- The log before anything is pushed. -/
def empty : Log α := ⟨[], []⟩

/-- Append one item, cutting a chunk when `k` items are held. -/
def push (k : Nat) (l : Log α) (x : α) : Log α :=
  if l.pending.length + 1 = k then ⟨l.done ++ [l.pending ++ [x]], []⟩
  else ⟨l.done, l.pending ++ [x]⟩

/-- Cut whatever is pending, even nothing. -/
def cut (l : Log α) : Log α := ⟨l.done ++ [l.pending], []⟩

/-- Everything pushed so far. -/
def contents (l : Log α) : List α := l.done.flatten ++ l.pending

/-- Full chunks only, and room for one more item. -/
structure Filled (k : Nat) (l : Log α) : Prop where
  room : l.pending.length < k
  full : ∀ c ∈ l.done, c.length = k

/-- Cutting keeps the contents. -/
@[simp] theorem contents_cut (l : Log α) : l.cut.contents = l.contents := by
  simp [cut, contents]

theorem filled_empty {k : Nat} (hk : 0 < k) : (empty : Log α).Filled k :=
  ⟨hk, by simp [empty]⟩

/-- One push keeps every finished chunk full. -/
theorem Filled.push {k : Nat} {l : Log α} (h : l.Filled k) (x : α) : (l.push k x).Filled k := by
  have hroom := h.room
  unfold Log.push
  split
  · next hc =>
    constructor
    · simp only [List.length_nil]
      omega
    · intro c hc'
      rcases List.mem_append.mp hc' with hd | hn
      · exact h.full c hd
      · rw [List.mem_singleton.mp hn, List.length_append, List.length_singleton]
        exact hc
  · next hc =>
    refine ⟨?_, h.full⟩
    simp only [List.length_append, List.length_singleton]
    omega

/-- The items of full chunks are counted by the chunks. -/
theorem Filled.length_contents {k : Nat} {l : Log α} (h : l.Filled k) :
    l.contents.length = k * l.done.length + l.pending.length := by
  have hsum : ∀ cs : List (List α), (∀ c ∈ cs, c.length = k) →
      cs.flatten.length = k * cs.length := by
    intro cs hcs
    induction cs with
    | nil => simp
    | cons c cs ih =>
      have hc := hcs c (by simp)
      have hr := ih fun c hc ↦ hcs c (by simp [hc])
      rw [List.flatten_cons, List.length_append, hc, hr, List.length_cons]
      ring
  rw [contents, List.length_append, hsum _ h.full]

/-- The pending items are those past the last full chunk. -/
theorem Filled.length_pending {k : Nat} {l : Log α} (h : l.Filled k) :
    l.pending.length = l.contents.length % k := by
  rw [h.length_contents, Nat.mul_add_mod, Nat.mod_eq_of_lt h.room]

/-- A log of full chunks and its contents determine each other. -/
theorem Filled.length_done {k : Nat} {l : Log α} (h : l.Filled k) :
    l.done.length = l.contents.length / k := by
  have hk : 0 < k := Nat.lt_of_le_of_lt (Nat.zero_le _) h.room
  rw [h.length_contents, Nat.mul_add_div hk, Nat.div_eq_of_lt h.room, Nat.add_zero]

/-- No chunk of a cut log is longer than a full one. -/
theorem Filled.length_le_of_mem_cut {k : Nat} {l : Log α} (h : l.Filled k) {chunk : List α}
    (hc : chunk ∈ l.cut.done) : chunk.length ≤ k := by
  rcases List.mem_append.mp hc with hdone | hpending
  · exact le_of_eq (h.full chunk hdone)
  · rw [List.mem_singleton.mp hpending]
    exact le_of_lt h.room

/-- Item `i` of a cut log is item `i % k` of chunk `i / k`. -/
theorem Filled.getElem_cut {k : Nat} {l : Log α} (h : l.Filled k) {i : Nat}
    (hi : i < l.contents.length) :
    (l.cut.done[i / k]?).bind (fun chunk ↦ chunk[i % k]?) = some l.contents[i] := by
  have hroom := h.room
  have hall : ∀ cs : List (List α), (∀ c ∈ cs, c.length = k) → ∀ i x,
      (cs.flatten ++ l.pending)[i]? = some x →
      ((cs ++ [l.pending])[i / k]?).bind (fun chunk ↦ chunk[i % k]?) = some x := by
    intro cs hcs
    induction cs with
    | nil =>
      intro i x hx
      rw [List.flatten_nil, List.nil_append] at hx
      have hlt := (List.getElem?_eq_some_iff.mp hx).1
      rw [Nat.div_eq_of_lt (by omega), Nat.mod_eq_of_lt (by omega)]
      exact hx
    | cons c cs ih =>
      intro i x hx
      have hc := hcs c (by simp)
      rw [List.flatten_cons, List.append_assoc] at hx
      by_cases hlt : i < k
      · rw [List.getElem?_append_left (by omega)] at hx
        rw [Nat.div_eq_of_lt hlt, Nat.mod_eq_of_lt hlt]
        exact hx
      · rw [List.getElem?_append_right (by omega), hc] at hx
        have hrec := ih (fun c hc ↦ hcs c (by simp [hc])) (i - k) x hx
        rw [Nat.div_eq_sub_div (by omega) (by omega), Nat.mod_eq_sub_mod (by omega)]
        exact hrec
  exact hall l.done h.full i _ (List.getElem?_eq_getElem hi)

end Log

end Chunks
