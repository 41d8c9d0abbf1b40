import Mathlib.Algebra.BigOperators.Group.List.Basic
import Mathlib.Data.List.Basic
import Mathlib.Data.List.Chain

/-!
# Coalescing adjacent events through a bounded buffer

A stream of events and barriers is coalesced by merging an event with the one right after it.
A bounded buffer that merges into its newest event, hands everything out when it is full and at
every barrier, coalesces the stream in order whatever its capacity.
-/

namespace Coalesce

universe u v
variable {ε : Type u} {φ : Type v}

/-- An event of the stream, or a point that no merge crosses. -/
inductive Item (ε : Type u)
  | event (e : ε)
  | barrier
  deriving DecidableEq, Repr

/-- Relabel an item. -/
def Item.map (f : ε → φ) : Item ε → Item φ
  | .event e => .event (f e)
  | .barrier => .barrier

/-- Merge each event with its successor where they merge; a merged event is final. -/
def coalesce (merge : ε → ε → Option ε) : List (Item ε) → List ε
  | [] => []
  | .barrier :: xs => coalesce merge xs
  | .event e :: [] => [e]
  | .event e :: .barrier :: xs => e :: coalesce merge xs
  | .event e :: .event f :: xs =>
    match merge e f with
    | some g => g :: coalesce merge xs
    | none => e :: coalesce merge (.event f :: xs)

/-- Merged events merge no further, on either side. -/
structure Merging (merge : ε → ε → Option ε) : Prop where
  final : ∀ {e f g}, merge e f = some g → ∀ h, merge g h = none
  fresh : ∀ {e f g}, merge e f = some g → ∀ h, merge h g = none

/-- Hold one more item: what the buffer hands out, and what it keeps. -/
def push (merge : ε → ε → Option ε) (capacity : Nat) (buffer : List ε) :
    Item ε → List ε × List ε
  | .barrier => (buffer, [])
  | .event e =>
    match buffer.getLast?.bind fun l ↦ merge l e with
    | some g => ([], buffer.dropLast ++ [g])
    | none => if buffer.length = capacity then (buffer, [e]) else ([], buffer ++ [e])

/-- Hold several items. -/
def pushes (merge : ε → ε → Option ε) (capacity : Nat) :
    List ε → List (Item ε) → List ε × List ε
  | buffer, [] => ([], buffer)
  | buffer, x :: xs =>
    let (out, kept) := push merge capacity buffer x
    let (out', kept') := pushes merge capacity kept xs
    (out ++ out', kept')

/-- Merging events that carry a label: the first event's label stays. -/
def labelled (merge : ε → ε → Option ε) (e f : ε × φ) : Option (ε × φ) :=
  (merge e.1 f.1).map fun g ↦ (g, e.2)

/-- No two neighbours in the buffer merge. -/
def Settled (merge : ε → ε → Option ε) (buffer : List ε) : Prop :=
  buffer.IsChain fun e f ↦ merge e f = none

section Spec

variable {merge : ε → ε → Option ε}

theorem Merging.labelled (hm : Merging merge) : Merging (labelled (φ := φ) merge) where
  final := by
    intro e f g h i
    obtain ⟨g', hg', rfl⟩ := Option.map_eq_some_iff.mp h
    exact Option.map_eq_none_iff.mpr (hm.final hg' i.1)
  fresh := by
    intro e f g h i
    obtain ⟨g', hg', rfl⟩ := Option.map_eq_some_iff.mp h
    exact Option.map_eq_none_iff.mpr (hm.fresh hg' i.1)

theorem Settled.map {merge' : φ → φ → Option φ} {f : ε → φ}
    (hf : ∀ e e', merge' (f e) (f e') = (merge e e').map f) {buffer : List ε}
    (hs : Settled merge buffer) : Settled merge' (buffer.map f) := by
  apply (List.isChain_map f).mpr
  apply hs.imp
  intro e e' he
  rw [hf, he, Option.map_none]

theorem coalesce_of_merge {e f g : ε} (h : merge e f = some g) (xs : List (Item ε)) :
    coalesce merge (.event e :: .event f :: xs) = g :: coalesce merge xs := by
  rw [coalesce, h]

theorem coalesce_of_not_merge {e f : ε} (h : merge e f = none) (xs : List (Item ε)) :
    coalesce merge (.event e :: .event f :: xs) = e :: coalesce merge (.event f :: xs) := by
  rw [coalesce, h]

/-- A final event comes out as it is. -/
theorem coalesce_final {g : ε} (h : ∀ f, merge g f = none) (xs : List (Item ε)) :
    coalesce merge (.event g :: xs) = g :: coalesce merge xs := by
  cases xs with
  | nil => rfl
  | cons x xs =>
    cases x with
    | barrier => rfl
    | event f => exact coalesce_of_not_merge (h f) xs

/-- Settled events come out as they are when the next event does not merge into the last. -/
theorem coalesce_settled {buffer : List ε} {xs : List (Item ε)} (hs : Settled merge buffer)
    (hx : ∀ l ∈ buffer.getLast?, ∀ f ys, xs = .event f :: ys → merge l f = none) :
    coalesce merge (buffer.map .event ++ xs) = buffer ++ coalesce merge xs := by
  induction buffer with
  | nil => rfl
  | cons e buffer ih =>
    cases buffer with
    | nil =>
      cases xs with
      | nil => rfl
      | cons x xs =>
        cases x with
        | barrier => rfl
        | event f => exact coalesce_of_not_merge (hx e rfl f xs rfl) xs
    | cons f buffer =>
      have hpair := List.isChain_cons_cons.mp hs
      have hrest := ih hpair.2 hx
      have hstep := coalesce_of_not_merge hpair.1 (buffer.map .event ++ xs)
      simp only [List.map_cons, List.cons_append] at hrest ⊢
      rw [hstep, hrest]

/-- The buffer before its last two entries are merged. -/
private theorem coalesce_merge_last (hm : Merging merge) {buffer : List ε} {l e g : ε}
    (hs : Settled merge (buffer ++ [l])) (hg : merge l e = some g) (xs : List (Item ε)) :
    coalesce merge ((buffer ++ [l]).map .event ++ .event e :: xs) =
      coalesce merge ((buffer ++ [g]).map .event ++ xs) := by
  have hchain := List.isChain_append.mp hs
  have hleft : coalesce merge (buffer.map .event ++ (.event l :: .event e :: xs)) =
      buffer ++ coalesce merge (.event l :: .event e :: xs) := by
    apply coalesce_settled hchain.1
    intro k hk f ys hf
    cases hf
    exact hchain.2.2 k hk l rfl
  have hright : coalesce merge (buffer.map .event ++ (.event g :: xs)) =
      buffer ++ coalesce merge (.event g :: xs) := by
    apply coalesce_settled hchain.1
    intro k hk f ys hf
    cases hf
    exact hm.fresh hg k
  simp only [List.map_append, List.map_cons, List.map_nil, List.append_assoc, List.cons_append,
    List.nil_append]
  rw [hleft, hright, coalesce_of_merge hg, coalesce_final (hm.final hg)]

/-- One push hands out a prefix of the coalesced stream and keeps the buffer settled. -/
theorem push_spec (hm : Merging merge) (capacity : Nat) {buffer : List ε}
    (hs : Settled merge buffer) (x : Item ε) :
    Settled merge (push merge capacity buffer x).2 ∧ ∀ xs,
      coalesce merge (buffer.map .event ++ x :: xs) =
        (push merge capacity buffer x).1 ++
          coalesce merge ((push merge capacity buffer x).2.map .event ++ xs) := by
  cases x with
  | barrier =>
    refine ⟨.nil, ?_⟩
    intro xs
    have hout : coalesce merge (buffer.map .event ++ .barrier :: xs) =
        buffer ++ coalesce merge (.barrier :: xs) := by
      apply coalesce_settled hs
      intro l hl f ys hf
      cases hf
    rw [hout]
    rfl
  | event e =>
    cases hmerge : buffer.getLast?.bind fun l ↦ merge l e with
    | some g =>
      obtain ⟨l, hl, hg⟩ := Option.bind_eq_some_iff.mp hmerge
      have hsplit : buffer = buffer.dropLast ++ [l] :=
        (List.dropLast_append_getLast? l hl).symm
      simp only [push, hmerge]
      rw [hsplit] at hs
      constructor
      · apply List.isChain_append.mpr
        refine ⟨(List.isChain_append.mp hs).1, .singleton g, ?_⟩
        intro k hk f hf
        cases hf
        exact hm.fresh hg k
      · intro xs
        conv_lhs => rw [hsplit]
        exact coalesce_merge_last hm hs hg xs
    | none =>
      have hlast : ∀ l ∈ buffer.getLast?, merge l e = none := by
        intro l hl
        rw [Option.mem_def.mp hl, Option.bind_some] at hmerge
        exact hmerge
      simp only [push, hmerge]
      split
      · refine ⟨.singleton e, ?_⟩
        intro xs
        apply coalesce_settled hs
        intro l hl f ys hf
        cases hf
        exact hlast l hl
      · constructor
        · apply List.isChain_append.mpr
          refine ⟨hs, .singleton e, ?_⟩
          intro l hl f hf
          cases hf
          exact hlast l hl
        · intro xs
          rw [List.map_append, List.append_assoc, List.nil_append]
          rfl

/-- Several pushes do the same. -/
theorem pushes_spec (hm : Merging merge) (capacity : Nat) {buffer : List ε}
    (hs : Settled merge buffer) (items : List (Item ε)) :
    Settled merge (pushes merge capacity buffer items).2 ∧ ∀ xs,
      coalesce merge (buffer.map .event ++ (items ++ xs)) =
        (pushes merge capacity buffer items).1 ++
          coalesce merge ((pushes merge capacity buffer items).2.map .event ++ xs) := by
  induction items generalizing buffer with
  | nil => exact ⟨hs, fun xs ↦ rfl⟩
  | cons x items ih =>
    obtain ⟨hkept, hpush⟩ := push_spec hm capacity hs x
    obtain ⟨hkept', hpushes⟩ := ih hkept
    refine ⟨hkept', ?_⟩
    intro xs
    rw [List.cons_append, hpush, hpushes, pushes, ← List.append_assoc]

/-- Holding one list after another. -/
theorem pushes_append (capacity : Nat) (buffer : List ε) (xs ys : List (Item ε)) :
    pushes merge capacity buffer (xs ++ ys) =
      ((pushes merge capacity buffer xs).1 ++
          (pushes merge capacity (pushes merge capacity buffer xs).2 ys).1,
        (pushes merge capacity (pushes merge capacity buffer xs).2 ys).2) := by
  induction xs generalizing buffer with
  | nil => rfl
  | cons x xs ih => simp only [List.cons_append, pushes, ih, List.append_assoc]

/-- A buffer with room for an event never outgrows its capacity. -/
theorem length_push {capacity : Nat} (hc : 0 < capacity) {buffer : List ε}
    (hb : buffer.length ≤ capacity) (x : Item ε) :
    (push merge capacity buffer x).2.length ≤ capacity := by
  cases x with
  | barrier => exact Nat.zero_le _
  | event e =>
    cases hmerge : buffer.getLast?.bind fun l ↦ merge l e with
    | some g =>
      obtain ⟨l, hl, -⟩ := Option.bind_eq_some_iff.mp hmerge
      have hpos : 0 < buffer.length := List.length_pos_of_mem (List.mem_of_getLast? hl)
      simp only [push, hmerge, List.length_append, List.length_dropLast, List.length_singleton]
      omega
    | none =>
      simp only [push, hmerge]
      split
      · exact hc
      · rw [List.length_append, List.length_singleton]
        omega

theorem length_pushes {capacity : Nat} (hc : 0 < capacity) {buffer : List ε}
    (hb : buffer.length ≤ capacity) (xs : List (Item ε)) :
    (pushes merge capacity buffer xs).2.length ≤ capacity := by
  induction xs generalizing buffer with
  | nil => exact hb
  | cons x xs ih => exact ih (length_push hc hb x)

/-- What holds of held and new events, and passes to merged ones, holds of the kept ones. -/
theorem push_forall {P : ε → Prop} (hP : ∀ {e f g}, merge e f = some g → P e → P g)
    {capacity : Nat} {buffer : List ε} (hb : ∀ e ∈ buffer, P e) {x : Item ε}
    (hx : ∀ e, x = .event e → P e) : ∀ e ∈ (push merge capacity buffer x).2, P e := by
  cases x with
  | barrier => exact fun e he ↦ absurd he List.not_mem_nil
  | event f =>
    cases hmerge : buffer.getLast?.bind fun l ↦ merge l f with
    | some g =>
      obtain ⟨l, hl, hg⟩ := Option.bind_eq_some_iff.mp hmerge
      simp only [push, hmerge, List.mem_append, List.mem_singleton]
      rintro e (he | rfl)
      · exact hb e ((List.dropLast_sublist buffer).subset he)
      · exact hP hg (hb l (List.mem_of_getLast? hl))
    | none =>
      simp only [push, hmerge]
      split
      · intro e he
        rw [List.mem_singleton.mp he]
        exact hx f rfl
      · simp only [List.mem_append, List.mem_singleton]
        rintro e (he | rfl)
        · exact hb e he
        · exact hx e rfl

theorem pushes_forall {P : ε → Prop} (hP : ∀ {e f g}, merge e f = some g → P e → P g)
    {capacity : Nat} {buffer : List ε} (hb : ∀ e ∈ buffer, P e) {xs : List (Item ε)}
    (hx : ∀ e, .event e ∈ xs → P e) : ∀ e ∈ (pushes merge capacity buffer xs).2, P e := by
  induction xs generalizing buffer with
  | nil => exact hb
  | cons x xs ih =>
    apply ih
    · exact push_forall hP hb fun e he ↦ hx e (he ▸ List.mem_cons_self)
    · exact fun e he ↦ hx e (List.mem_cons_of_mem x he)

/-- Relabelling events along a function that respects merging relabels what a push does. -/
theorem push_map {merge' : φ → φ → Option φ} {f : ε → φ}
    (hf : ∀ e e', merge' (f e) (f e') = (merge e e').map f) (capacity : Nat) (buffer : List ε)
    (x : Item ε) :
    push merge' capacity (buffer.map f) (x.map f) =
      ((push merge capacity buffer x).1.map f, (push merge capacity buffer x).2.map f) := by
  cases x with
  | barrier => rfl
  | event e =>
    have hlast : ((buffer.map f).getLast?.bind fun l ↦ merge' l (f e)) =
        (buffer.getLast?.bind fun l ↦ merge l e).map f := by
      rw [List.getLast?_map]
      cases buffer.getLast? with
      | none => rfl
      | some l => exact hf l e
    simp only [push, Item.map, hlast, List.length_map]
    cases buffer.getLast?.bind fun l ↦ merge l e with
    | some g => simp [List.map_dropLast]
    | none =>
      simp only [Option.map_none]
      split
      · rfl
      · simp

/-- Relabelling several items. -/
theorem pushes_map {merge' : φ → φ → Option φ} {f : ε → φ}
    (hf : ∀ e e', merge' (f e) (f e') = (merge e e').map f) (capacity : Nat) (buffer : List ε)
    (xs : List (Item ε)) :
    pushes merge' capacity (buffer.map f) (xs.map (Item.map f)) =
      ((pushes merge capacity buffer xs).1.map f, (pushes merge capacity buffer xs).2.map f) := by
  induction xs generalizing buffer with
  | nil => rfl
  | cons x xs ih => simp only [List.map_cons, pushes, push_map hf, ih, List.map_append]

/-! ### Weights -/

section Weight

variable {M : Type*} [AddCommMonoid M] {w : ε → M}

/-- The weight of an item; a barrier has none. -/
def Item.weight (w : ε → M) : Item ε → M
  | .event e => w e
  | .barrier => 0

/-- When a merged event weighs what its two parts do, a push neither loses nor adds weight. -/
theorem push_weight (hw : ∀ {e f g}, merge e f = some g → w g = w e + w f) (capacity : Nat)
    (buffer : List ε) (x : Item ε) :
    ((push merge capacity buffer x).1.map w).sum + ((push merge capacity buffer x).2.map w).sum =
      (buffer.map w).sum + x.weight w := by
  cases x with
  | barrier => rfl
  | event e =>
    cases hmerge : buffer.getLast?.bind fun l ↦ merge l e with
    | some g =>
      obtain ⟨l, hl, hg⟩ := Option.bind_eq_some_iff.mp hmerge
      have hsplit : buffer = buffer.dropLast ++ [l] :=
        (List.dropLast_append_getLast? l hl).symm
      simp only [push, hmerge, Item.weight]
      conv_rhs => rw [hsplit]
      simp [hw hg, add_assoc]
    | none =>
      simp only [push, hmerge, Item.weight]
      split
      · simp
      · simp

/-- Several pushes do not either. -/
theorem pushes_weight (hw : ∀ {e f g}, merge e f = some g → w g = w e + w f) (capacity : Nat)
    (buffer : List ε) (xs : List (Item ε)) :
    ((pushes merge capacity buffer xs).1.map w).sum +
        ((pushes merge capacity buffer xs).2.map w).sum =
      (buffer.map w).sum + (xs.map (Item.weight w)).sum := by
  induction xs generalizing buffer with
  | nil => simp [pushes]
  | cons x xs ih =>
    rw [pushes, List.map_append, List.sum_append, add_assoc, ih, ← add_assoc, push_weight hw,
      List.map_cons, List.sum_cons, add_assoc]

end Weight

end Spec

end Coalesce
