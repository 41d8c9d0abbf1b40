import Mema.Viewer.Drawable

/-!
# Detail requests

`memaviz/block.go:218–239` and `data.go:203–225`: the main thread sends a request inside the guard
`requests.vertices` and marks the guard done afterwards; the reader replaces the guard when it has
served the request. A request is lost when the reader is faster than the mark.
-/

namespace Mema.Viewer

open Function

/-- What a step does to the requests, their guards, and the mark the main thread still owes. -/
inductive RequestStep (a : Action) (s t : State) : Prop
  | none (honce : t.verticesOnce = s.verticesOnce) (hrequested : t.requested = s.requested)
    (hmark : t.main.marking = .none ∨ t.main.marking = s.main.marking)
  | send (k : Nat) (honce : t.verticesOnce = s.verticesOnce)
    (hrequested : t.requested = s.requested ++ [k]) (hmark : t.main.marking = some k)
  | mark (k : Nat) (hmark : s.main.marking = some k)
    (honce : t.verticesOnce = update s.verticesOnce k true)
    (hrequested : t.requested = s.requested) (hdone : t.main.marking = .none)
  | reset (k : Nat) (more : Bool) (ha : a = .reader) (hreader : s.reader = .serve .reset k more)
    (honce : t.verticesOnce = update s.verticesOnce k false)
    (hrequested : s.requested = k :: t.requested) (hmark : t.main.marking = s.main.marking)

section Steps

variable {n : Nat} {s t : State} {a : Action}

@[simp] theorem verticesOnce_requestTexture (s : State) (k : Nat) :
    (s.requestTexture k).verticesOnce = s.verticesOnce := by
  unfold State.requestTexture
  split <;> rfl

@[simp] theorem reader_requestTexture (s : State) (k : Nat) :
    (s.requestTexture k).reader = s.reader := by
  unfold State.requestTexture
  split <;> rfl

@[simp] theorem detailRequest_requestTexture (s : State) (k : Nat) :
    (s.requestTexture k).detailRequest = s.detailRequest := by
  unfold State.requestTexture
  split <;> rfl

@[simp] theorem main_requestTexture (s : State) (k : Nat) :
    (s.requestTexture k).main = s.main := by
  unfold State.requestTexture
  split <;> rfl

/-- Inside `Block.Draw` only the send and the mark touch the requests. -/
theorem drawStep_requests {stage : DrawStage} {k : Nat} {detailed : Bool} {rest : List Int}
    (hmain : s.main = .drawing stage k detailed rest)
    (ht : s.drawStep stage k detailed rest = some t) : RequestStep a s t := by
  cases stage with
  | texture =>
    cases ht
    by_cases htex : s.tex k = true
    · simp only [htex, if_true]
      exact .none rfl rfl (.inl rfl)
    · simp only [htex]
      refine .none (verticesOnce_requestTexture s k) ?_ (.inl rfl)
      simp [State.requested]
  | vertices =>
    cases ht
    refine .none rfl rfl (.inl ?_)
    dsimp only
    split <;> rfl
  | once =>
    cases ht
    refine .none rfl rfl (.inl ?_)
    dsimp only
    split <;> rfl
  | send =>
    simp only [State.drawStep, Option.ite_none_right_eq_some, Option.some.injEq] at ht
    obtain ⟨-, rfl⟩ := ht
    exact .send k rfl (List.append_assoc ..).symm rfl
  | mark =>
    cases ht
    exact .mark k (by rw [hmain]; rfl) rfl rfl rfl
  | quad =>
    cases ht
    refine .none rfl rfl (.inl ?_)
    dsimp only
    split <;> rfl
  | unload =>
    cases ht
    exact .none rfl rfl (.inl rfl)
  | points =>
    cases ht
    exact .none rfl rfl (.inl rfl)

/-- The other steps of the main thread leave them alone. -/
theorem mainStep_requests (ht : s.mainStep = some (.ok t)) : RequestStep a s t := by
  unfold State.mainStep at ht
  split at ht
  · cases ht
  · cases ht
    exact .none rfl rfl (.inl rfl)
  · split at ht
    · cases ht
    · cases ht
      exact .none rfl rfl (.inl rfl)
  · next hmain => exact drawStep_requests hmain (Machine.eq_some_of_map_ok ht)
  · split at ht
    · cases ht
    · cases ht
      exact .none rfl rfl (.inr rfl)
    · cases ht
      exact .none rfl rfl (.inl rfl)
  · next stage k hmain =>
    unfold State.buildStep at ht
    split at ht
    · cases ht
      exact .none rfl rfl (.inl rfl)
    · split at ht
      · cases ht
        exact .none rfl rfl (.inl rfl)
      · cases ht
    · cases ht
      exact .none rfl rfl (.inl rfl)
    · cases ht
      exact .none rfl rfl (.inl rfl)

/-- A reader that serves no other request than before, from the same channel. -/
theorem requested_congr (hserving : t.reader.serving = s.reader.serving)
    (hqueue : t.detailRequest = s.detailRequest) : t.requested = s.requested := by
  rw [State.requested, State.requested, hserving, hqueue]

/-- The reader receives requests, and forgets them when it resets their guard. -/
theorem readerStep_requests (ht : s.readerStep n = some t) : RequestStep .reader s t := by
  cases hreader : s.reader with
  | drain more =>
    cases hqueue : s.detailRequest with
    | nil =>
      simp only [State.readerStep, hreader, hqueue] at ht
      cases more with
      | true =>
        cases ht
        exact .none rfl (requested_congr (by rw [hreader]; rfl) hqueue.symm) (.inr rfl)
      | false =>
        cases ht
        exact .none rfl rfl (.inr rfl)
    | cons k rest =>
      simp only [State.readerStep, hreader, hqueue] at ht
      cases ht
      refine .none rfl ?_ (.inr rfl)
      rw [State.requested, State.requested, hreader, hqueue]
      rfl
  | serve stage k more =>
    cases stage with
    | decode =>
      simp only [State.readerStep, hreader] at ht
      cases ht
      exact .none rfl (requested_congr (by rw [hreader]; rfl) rfl) (.inr rfl)
    | vertices =>
      simp only [State.readerStep, hreader] at ht
      cases ht
      exact .none rfl (requested_congr (by rw [hreader]; rfl) rfl) (.inr rfl)
    | reset =>
      simp only [State.readerStep, hreader] at ht
      cases ht
      refine .reset k more rfl hreader rfl ?_ rfl
      rw [State.requested, State.requested, hreader]
      rfl
  | read =>
    simp only [State.readerStep, hreader] at ht
    split at ht
    · cases ht
      exact .none rfl (requested_congr (by rw [hreader]; rfl) rfl) (.inr rfl)
    · cases ht
      exact .none rfl (requested_congr (by rw [hreader]; rfl) rfl) (.inr rfl)
  | send k =>
    simp only [State.readerStep, hreader] at ht
    cases ht

/-- What a step does to the requests. -/
theorem step_requests (ht : s.step n a = some (.ok t)) : RequestStep a s t := by
  cases a with
  | draw startIndex m =>
    simp only [State.step, Option.ite_none_right_eq_some, Option.some.injEq] at ht
    obtain ⟨-, ht⟩ := ht
    cases ht
    exact .none rfl rfl (.inl rfl)
  | main => exact mainStep_requests ht
  | endWork =>
    simp only [State.step, Option.ite_none_right_eq_some, Option.some.injEq] at ht
    obtain ⟨-, ht⟩ := ht
    cases ht
    exact .none rfl rfl (.inl rfl)
  | reader => exact readerStep_requests (Machine.eq_some_of_map_ok ht)
  | newBlock =>
    simp only [State.step] at ht
    split at ht
    · next k hreader _ =>
      cases ht
      exact .none rfl (requested_congr (by rw [hreader]; rfl) rfl) (.inr rfl)
    · cases ht
  | consumer =>
    have ht' := Machine.eq_some_of_map_ok ht
    unfold State.consumerStep at ht'
    split at ht'
    · cases ht'
    · cases ht'
      exact .none rfl rfl (.inr rfl)
    · next k _ =>
      cases ht'
      refine .none (verticesOnce_requestTexture s k) ?_ (.inr ?_)
      · simp [State.requested]
      · simp
    · split at ht'
      · cases ht'
        exact .none rfl rfl (.inr rfl)
      · cases ht'
  | textureRequest k =>
    simp only [State.step, Option.ite_none_right_eq_some, Option.some.injEq] at ht
    obtain ⟨-, ht⟩ := ht
    cases ht
    exact .none rfl rfl (.inr rfl)

end Steps

/-! ### Runs in which the reader waits for the mark -/

/-- The reader does not reset the guard of a block between the main thread's send and mark. -/
def Undisturbed (a : Action) (s : State) : Prop :=
  a = .reader → ∀ k more, s.reader = .serve .reset k more → s.main.marking ≠ some k

/-- A state that such steps lead to. -/
abbrev ReachedUndisturbed (n : Nat) (s : State) : Prop := (viewer n).ReachableBy Undisturbed s

theorem Undisturbed.of_ne {a : Action} {s : State} (ha : a ≠ .reader := by simp) :
    Undisturbed a s := fun h ↦ absurd h ha

/-- Between requests the reader disturbs nothing. -/
theorem Undisturbed.of_reader {a : Action} {s : State}
    (h : ∀ stage k more, s.reader ≠ .serve stage k more) : Undisturbed a s :=
  fun _ k more hreader ↦ absurd hreader (h .reset k more)

/-- A guard that is done has a request in the channel or in service; so a block drawn in detail
without vertices has a request there, or one can still be made. -/
structure RequestsKept (s : State) : Prop where
  done : ∀ k, s.verticesOnce k = true → k ∈ s.requested
  drawn : ∀ stage k rest, s.main = .drawing stage k true rest → s.vertexData k = false →
    k ∈ s.requested ∨ s.verticesOnce k = false

/-- Done and almost done guards have a request. -/
structure Marked (s : State) : Prop where
  done : ∀ k, s.verticesOnce k = true → k ∈ s.requested
  marking : ∀ k, s.main.marking = some k → k ∈ s.requested

theorem Marked.step {n : Nat} {s t : State} {a : Action} (h : Marked s) (hcond : Undisturbed a s)
    (ht : s.step n a = some (.ok t)) : Marked t := by
  cases step_requests ht with
  | none honce hrequested hmark =>
    constructor
    · intro k hk
      rw [honce] at hk
      rw [hrequested]
      exact h.done k hk
    · intro k hk
      rw [hrequested]
      rcases hmark with hmark | hmark
      · rw [hmark] at hk
        cases hk
      · rw [hmark] at hk
        exact h.marking k hk
  | send j honce hrequested hmark =>
    constructor
    · intro k hk
      rw [honce] at hk
      rw [hrequested]
      exact List.mem_append_left _ (h.done k hk)
    · intro k hk
      rw [hmark] at hk
      cases hk
      rw [hrequested]
      exact List.mem_append_right _ (List.mem_singleton.mpr rfl)
  | mark j hmark honce hrequested hdone =>
    constructor
    · intro k hk
      rw [hrequested]
      by_cases hkj : k = j
      · subst hkj
        exact h.marking k hmark
      · rw [honce, update_of_ne hkj] at hk
        exact h.done k hk
    · intro k hk
      rw [hdone] at hk
      cases hk
  | reset j more ha hreader honce hrequested hmark =>
    -- The request that leaves is that of `j`, whose guard is cleared and not about to be marked.
    have hleft (k : Nat) (hkj : k ≠ j) (hk : k ∈ s.requested) : k ∈ t.requested := by
      rw [hrequested] at hk
      exact List.mem_of_ne_of_mem hkj hk
    constructor
    · intro k hk
      have hkj : k ≠ j := by
        rintro rfl
        rw [honce, update_self] at hk
        cases hk
      rw [honce, update_of_ne hkj] at hk
      exact hleft k hkj (h.done k hk)
    · intro k hk
      rw [hmark] at hk
      have hkj : k ≠ j := by
        rintro rfl
        exact hcond ha k more hreader hk
      exact hleft k hkj (h.marking k hk)

/-- In every run in which the reader never resets a guard between the send of its request and its
mark, no request is lost. -/
theorem requestsKept_of_undisturbed {n : Nat} {s : State}
    (h : (viewer n).ReachableBy Undisturbed s) : RequestsKept s := by
  have hmarked : Marked s := by
    apply h.invariant
    · rintro s rfl
      exact ⟨nofun, nofun⟩
    · exact fun _ _ _ hs hcond ht ↦ hs.step hcond ht
  refine ⟨hmarked.done, ?_⟩
  intro stage k rest _ _
  by_cases honce : s.verticesOnce k = true
  · exact .inl (hmarked.done k honce)
  · exact .inr (Bool.eq_false_iff.mpr honce)

/-- Undisturbed, the reader never replaces a guard that the main thread is inside of, so that the
mutex which `Do` unlocks in the end is its own. -/
theorem Undisturbed.outside_do {n : Nat} {s : State} (hcond : Undisturbed .reader s)
    (h : (viewer n).Reachable s) {k : Nat} {more : Bool}
    (hreader : s.reader = .serve .reset k more) {stage : DrawStage} {detailed : Bool}
    {rest : List Int} (hmain : s.main = .drawing stage k detailed rest) :
    stage ≠ .send ∧ stage ≠ .mark := by
  have hinv := Inv.of_reachable h
  have hnot := hcond rfl k more hreader
  constructor
  · rintro rfl
    have hok := hinv.main
    rw [hmain] at hok
    have hserved : k ∈ s.requested := by
      rw [State.requested, hreader]
      exact List.mem_cons_self
    rcases hinv.marks k hserved with honce | hmark
    · rw [hok.2.2.2 rfl] at honce
      cases honce
    · exact hnot hmark
  · rintro rfl
    rw [hmain] at hnot
    exact hnot rfl

/-- One block is loaded, published, textured and drawn in detail, up to the send of its request. -/
def requestOne : List Action :=
  [.newBlock, .consumer, .consumer, .consumer, .textureRequest 0, .draw 0 40960, .main, .main,
    .main, .main, .main, .main, .main, .endWork, .draw 0 40960, .main, .main, .main, .main, .main]

/-- A request is sent and its guard marked before the reader looks. -/
theorem requestsKept_of_undisturbed_marked :
    ∃ s, s.verticesOnce 0 = true ∧ s.detailRequest = [0] ∧ RequestsKept s := by
  have hread : (viewer 1).ReachableBy Undisturbed _ := .step (a := .reader) (.start rfl) nofun rfl
  have hsend : (viewer 1).ReachableBy Undisturbed _ := .step (a := .reader) hread nofun rfl
  have hrequest : (viewer 1).ReachableBy Undisturbed _ :=
    hsend.run (requestOne ++ [.main]) rfl (by simp [requestOne, Undisturbed])
  exact ⟨_, rfl, rfl, requestsKept_of_undisturbed hrequest⟩

/-- A reset between the send and the mark loses the request: the mark comes next, with nothing in
the channel or in service behind it. -/
theorem lost_of_disturbed {n : Nat} {s : State} (h : (viewer n).Reachable s) {k : Nat} {more : Bool}
    (hreader : s.reader = .serve .reset k more) (hmark : s.main.marking = some k) :
    ∃ t, (viewer n).run [.reader, .main] s = some (.ok t) ∧ t.verticesOnce k = true ∧
      k ∉ t.requested := by
  have hdistinct : k ∉ s.detailRequest := by
    have hnodup := (Inv.of_reachable h).distinct
    rw [State.requested, hreader] at hnodup
    exact (List.nodup_cons.mp hnodup).1
  have hmain : ∃ detailed rest, s.main = .drawing .mark k detailed rest := by
    unfold MainAt.marking at hmark
    split at hmark
    · next j detailed rest hmain =>
      cases hmark
      exact ⟨detailed, rest, hmain⟩
    · cases hmark
  obtain ⟨detailed, rest, hmain⟩ := hmain
  let reset : State := { s with
    verticesOnce := update s.verticesOnce k false
    reader := .drain more }
  let marked : State := { reset with
    verticesOnce := update reset.verticesOnce k true
    main := .drawing .quad k detailed rest }
  have hreset : (viewer n).step .reader s = some (.ok reset) := by
    simp [viewer, State.step, State.readerStep, hreader, reset]
  have hmarked : (viewer n).step .main reset = some (.ok marked) := by
    simp [viewer, State.step, State.mainStep, State.drawStep, hmain, reset, marked]
  refine ⟨marked, ?_, update_self .., hdistinct⟩
  rw [Machine.run_cons hreset, Machine.run_cons hmarked, Machine.run]

/-- The reader serves a request and resets its guard before the main thread marks it: the guard is
done, and nothing is requested. -/
theorem request_lost :
    ∃ s, (viewer 1).run ([.reader, .reader] ++ requestOne ++
        [.reader, .reader, .reader, .reader, .main]) State.started = some (.ok s) ∧
      s.verticesOnce 0 = true ∧ s.requested = [] ∧ ¬ RequestsKept s := by
  refine ⟨_, rfl, rfl, rfl, ?_⟩
  intro hkept
  exact absurd (hkept.done 0 rfl) List.not_mem_nil

end Mema.Viewer
