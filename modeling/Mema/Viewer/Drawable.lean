import Mema.Viewer.Scheduling

/-!
# Every published block is drawable

What the goroutines hold between them: each block read is in exactly one place on its way to
`data.blocks`, the guard of a texture request is done exactly while the request is on its way, and
the main thread drops vertex data of textured blocks only.
-/

namespace Mema.Viewer

open Function

/-! ### Where blocks and requests are -/

def Work.published : Work → Option Nat
  | .publish k => some k
  | .texture _ => none

def Work.textured : Work → Option Nat
  | .publish _ => none
  | .texture k => some k

/-- The block at whose texture the main thread is. -/
def MainAt.built : MainAt → List Nat
  | .building _ k => [k]
  | _ => []

/-- The block whose texture the main thread is about to create. -/
def MainAt.starting : MainAt → List Nat
  | .building .newTexture k => [k]
  | _ => []

/-- The block whose request is sent and not yet marked. -/
def MainAt.marking : MainAt → Option Nat
  | .drawing .mark k _ _ => some k
  | _ => none

def ReaderAt.sending : ReaderAt → List Nat
  | .send k => [k]
  | _ => []

def ReaderAt.serving : ReaderAt → List Nat
  | .serve _ k _ => [k]
  | _ => []

def ConsumerAt.lifting : ConsumerAt → List Nat
  | .lift k => [k]
  | .texture k => [k]
  | _ => []

def ConsumerAt.lifted : ConsumerAt → List Nat
  | .publish k => [k]
  | _ => []

namespace State

/-- Blocks on their way through `main_thread_work`. -/
def publishing (s : State) : List Nat := s.mainThreadWork.filterMap Work.published

/-- Texture work in `main_thread_work`. -/
def texturing (s : State) : List Nat := s.mainThreadWork.filterMap Work.textured

/-- Blocks that have asked for their texture: published ones, and those about to be. -/
def lifted (s : State) : List Nat := s.blocks ++ s.publishing ++ s.consumer.lifted

/-- Detail requests being served or waiting. -/
def requested (s : State) : List Nat := s.reader.serving ++ s.detailRequest

end State

/-- At these stages of `Block.Draw` the block has a texture. -/
def DrawStage.textured : DrawStage → Bool
  | .once => true
  | .send => true
  | .mark => true
  | .unload => true
  | _ => false

/-- What the main thread relies on where it stands. -/
def MainAt.Ok (blocks : List Nat) (tex vertexData verticesOnce : Nat → Bool) : MainAt → Prop
  | .frame => True
  | .working => True
  | .blocks _ rest => ∀ i ∈ rest, 0 ≤ i ∧ i < blocks.length
  | .drawing stage k _ rest => k ∈ blocks ∧ (∀ i ∈ rest, 0 ≤ i ∧ i < blocks.length) ∧
      (stage.textured = true → tex k = true) ∧ (stage = .send → verticesOnce k = false)
  | .building stage k => (stage = .render → vertexData k = true) ∧
      (stage ≠ .newTexture → tex k = true)

/-- What holds between the goroutines. -/
structure Inv (n : Nat) (s : State) : Prop where
  order : s.lifted ++ s.consumer.lifting ++ s.reader.sending = List.range s.framesRead
  bound : s.framesRead ≤ n
  once : ∀ k, (s.textureRequests ++ s.texturing ++ s.main.built).count k =
    (s.textureOnce k).toNat
  await : ∀ k ∈ s.textureRequests ++ s.texturing ++ s.main.starting, s.tex k = false
  unlifted : ∀ k, k ∉ s.lifted → s.tex k = false ∧ s.textureOnce k = false
  builds : ∀ k, s.textureBuilds k = (s.tex k).toNat
  drawable : ∀ k ∈ s.lifted, s.tex k = true ∨ s.vertexData k = true
  lifting : ∀ k, s.consumer = .texture k → s.vertexData k = true
  distinct : s.requested.Nodup
  marks : ∀ k ∈ s.requested, s.verticesOnce k = true ∨ s.main.marking = some k
  textured : ∀ k ∈ s.requested, s.tex k = true ∧ k ∈ s.blocks
  main : s.main.Ok s.blocks s.tex s.vertexData s.verticesOnce

theorem started_inv (n : Nat) : Inv n State.started where
  order := rfl
  bound := Nat.zero_le n
  once _ := rfl
  await := nofun
  unlifted _ _ := ⟨rfl, rfl⟩
  builds _ := rfl
  drawable := nofun
  lifting := nofun
  distinct := List.nodup_nil
  marks := nofun
  textured := nofun
  main := trivial

/-- What the main thread relies on survives more vertices and fewer marks. -/
theorem MainAt.Ok.mono {blocks : List Nat} {tex vertexData vertexData' once once' : Nat → Bool}
    {m : MainAt} (h : m.Ok blocks tex vertexData once)
    (hvertices : ∀ k, vertexData k = true → vertexData' k = true)
    (honce : ∀ k, once k = false → once' k = false) : m.Ok blocks tex vertexData' once' := by
  cases m with
  | frame => trivial
  | working => trivial
  | blocks detailed rest => exact h
  | drawing stage k detailed rest =>
    obtain ⟨hk, hrest, hstage, hsend⟩ := h
    exact ⟨hk, hrest, hstage, fun hs ↦ honce k (hsend hs)⟩
  | building stage k =>
    obtain ⟨hrender, hbuilt⟩ := h
    exact ⟨fun hs ↦ hvertices k (hrender hs), hbuilt⟩

theorem update_true {f : Nat → Bool} {j : Nat} (k : Nat) (hj : f j = true) :
    update f k true j = true := by
  by_cases hjk : j = k
  · rw [hjk, update_self]
  · rw [update_of_ne hjk, hj]

theorem update_false {f : Nat → Bool} {j : Nat} (k : Nat) (hj : f j = false) :
    update f k false j = false := by
  by_cases hjk : j = k
  · rw [hjk, update_self]
  · rw [update_of_ne hjk, hj]

section Facts

variable {n : Nat} {s : State}

/-- A textured block has asked for its texture. -/
theorem Inv.lifted_of_tex (h : Inv n s) {k : Nat} (hk : s.tex k = true) : k ∈ s.lifted := by
  by_contra hout
  rw [(h.unlifted k hout).1] at hk
  cases hk

/-- So has a block whose request is on its way. -/
theorem Inv.lifted_of_once (h : Inv n s) {k : Nat} (hk : s.textureOnce k = true) :
    k ∈ s.lifted := by
  by_contra hout
  rw [(h.unlifted k hout).2] at hk
  cases hk

/-- A block the consumer works on has not asked for its texture. -/
theorem Inv.not_lifted (h : Inv n s) {k : Nat} (hk : k ∈ s.consumer.lifting) : k ∉ s.lifted := by
  have hnodup : (s.lifted ++ s.consumer.lifting ++ s.reader.sending).Nodup := by
    rw [h.order]
    exact List.nodup_range
  intro hlifted
  exact List.disjoint_of_nodup_append (List.Nodup.of_append_left hnodup) hlifted hk

/-- Vertices of a textured block may be dropped. -/
theorem Inv.drop (h : Inv n s) {k : Nat} (hk : s.tex k = true) :
    (∀ j ∈ s.lifted, s.tex j = true ∨ update s.vertexData k false j = true) ∧
      ∀ j, s.consumer = .texture j → update s.vertexData k false j = true := by
  constructor
  · intro j hj
    by_cases hjk : j = k
    · exact .inl (hjk ▸ hk)
    · rw [update_of_ne hjk]
      exact h.drawable j hj
  · intro j hj
    have hjk : j ≠ k := by
      rintro rfl
      have hlifting : j ∈ s.consumer.lifting := by
        rw [hj]
        exact List.mem_singleton.mpr rfl
      exact h.not_lifted hlifting (h.lifted_of_tex hk)
    rw [update_of_ne hjk]
    exact h.lifting j hj

/-- A guard of a texture request goes up with the request. -/
theorem Inv.once_request (h : Inv n s) {k : Nat} (hk : s.textureOnce k = false) (j : Nat) :
    ((s.textureRequests ++ [k]) ++ s.texturing ++ s.main.built).count j =
      (update s.textureOnce k true j).toNat := by
  have hcount := h.once j
  by_cases hjk : j = k
  · subst hjk
    rw [hk] at hcount
    simp only [List.count_append, List.count_singleton_self, update_self] at hcount ⊢
    simp only [Bool.toNat_false, Bool.toNat_true] at hcount ⊢
    omega
  · rw [update_of_ne hjk, ← hcount]
    simp only [List.count_append, List.count_singleton, beq_iff_eq, Ne.symm hjk, if_false]
    omega

/-- A request for the texture of a block that has none. -/
theorem Inv.await_request (h : Inv n s) {k : Nat} (hk : s.tex k = false) :
    ∀ j ∈ (s.textureRequests ++ [k]) ++ s.texturing ++ s.main.starting, s.tex j = false := by
  intro j hj
  simp only [List.mem_append, List.mem_singleton] at hj
  rcases hj with ((hj | rfl) | hj) | hj
  · exact h.await j (by simp [hj])
  · exact hk
  · exact h.await j (by simp [hj])
  · exact h.await j (by simp [hj])

/-- While the main thread is at a texture, nothing else is on its way for the block. -/
theorem Inv.building (h : Inv n s) {stage : BuildStage} {k : Nat}
    (hmain : s.main = .building stage k) :
    s.textureOnce k = true ∧ k ∉ s.textureRequests ++ s.texturing := by
  have hcount := h.once k
  rw [hmain, List.count_append] at hcount
  change _ + [k].count k = _ at hcount
  rw [List.count_singleton_self] at hcount
  have honce : s.textureOnce k = true := by
    by_contra hk
    rw [Bool.not_eq_true] at hk
    rw [hk] at hcount
    cases hcount
  refine ⟨honce, ?_⟩
  rw [honce] at hcount
  exact List.count_eq_zero.mp (Nat.succ.inj hcount)

/-- A texture is begun for a block that has none, and has vertices. -/
theorem Inv.starting (h : Inv n s) {k : Nat} (hmain : s.main = .building .newTexture k) :
    s.tex k = false ∧ s.vertexData k = true := by
  have htex : s.tex k = false := by
    apply h.await
    rw [hmain]
    exact List.mem_append_right _ (List.mem_singleton.mpr rfl)
  have hlifted := h.lifted_of_once (h.building hmain).1
  exact ⟨htex, (h.drawable k hlifted).resolve_left (by rw [htex]; decide)⟩

/-- The main thread sends requests for blocks that have none. -/
theorem Inv.not_requested (h : Inv n s) {k : Nat} {detailed : Bool} {rest : List Int}
    (hmain : s.main = .drawing .send k detailed rest) : k ∉ s.requested := by
  have hok := h.main
  rw [hmain] at hok
  obtain ⟨-, -, -, hsend⟩ := hok
  intro hin
  rcases h.marks k hin with hmark | hmark
  · rw [hsend rfl] at hmark
    cases hmark
  · rw [hmain] at hmark
    cases hmark

/-- Blocks and requests may move on as long as each of them stays on its way. -/
theorem Inv.moved (h : Inv n s) (m : MainAt) (c : ConsumerAt) (requests : List Nat)
    (work : List Work) (blocks : List Nat)
    (hlifted : blocks ++ work.filterMap Work.published ++ c.lifted = s.lifted)
    (hlifting : c.lifting = s.consumer.lifting)
    (hconsumer : ∀ k, c = .texture k → s.consumer = .texture k)
    (hcount : ∀ j, (requests ++ work.filterMap Work.textured ++ m.built).count j =
      (s.textureRequests ++ s.texturing ++ s.main.built).count j)
    (hawait : ∀ j ∈ requests ++ work.filterMap Work.textured ++ m.starting, s.tex j = false)
    (hblocks : s.blocks ⊆ blocks) (hmarking : m.marking = s.main.marking)
    (hmain : m.Ok blocks s.tex s.vertexData s.verticesOnce) :
    Inv n { s with
      main := m
      consumer := c
      textureRequests := requests
      mainThreadWork := work
      blocks := blocks } where
  order := by
    show blocks ++ work.filterMap Work.published ++ c.lifted ++ c.lifting ++ _ = _
    rw [hlifted, hlifting]
    exact h.order
  bound := h.bound
  once j := (hcount j).trans (h.once j)
  await := hawait
  unlifted j hj := by
    apply h.unlifted j
    rw [← hlifted]
    exact hj
  builds := h.builds
  drawable j hj := by
    apply h.drawable j
    rw [← hlifted]
    exact hj
  lifting k hk := h.lifting k (hconsumer k hk)
  distinct := h.distinct
  marks j hj := by
    show _ ∨ m.marking = some j
    rw [hmarking]
    exact h.marks j hj
  textured j hj := (h.textured j hj).imp_right fun hblock ↦ hblocks hblock
  main := hmain

end Facts

/-! ### The main thread -/

section Main

variable {n : Nat} {s : State}

/-- The guard of a block without a texture goes up with its request. -/
theorem Inv.request (h : Inv n s) {k : Nat} (hk : k ∈ s.lifted) (htex : s.tex k = false)
    (honce : s.textureOnce k = false) :
    Inv n { s with
      textureOnce := update s.textureOnce k true
      textureRequests := s.textureRequests ++ [k] } :=
  { h with
    once := h.once_request honce
    await := h.await_request htex
    unlifted := by
      intro j hj
      have hjk : j ≠ k := fun he ↦ hj (he ▸ hk)
      obtain ⟨htex, honce⟩ := h.unlifted j hj
      exact ⟨htex, (update_of_ne hjk ..).trans honce⟩ }

/-- A request is sent for a block that has none. -/
theorem Inv.send {k : Nat} {detailed : Bool} {rest : List Int}
    (h : Inv n { s with main := .drawing .send k detailed rest }) :
    Inv n { s with
      detailRequest := s.detailRequest ++ [k]
      main := .drawing .mark k detailed rest } := by
  obtain ⟨hk, hrest, hstage, -⟩ := h.main
  have hnew : k ∉ s.requested := h.not_requested rfl
  have hrequested : (s.reader.serving ++ (s.detailRequest ++ [k])) = s.requested ++ [k] := by
    rw [State.requested, List.append_assoc]
  exact { h with
    distinct := by
      change (s.reader.serving ++ (s.detailRequest ++ [k])).Nodup
      rw [hrequested]
      exact List.Nodup.append h.distinct (List.nodup_singleton k) (by simpa using hnew)
    marks := by
      intro j hj
      change j ∈ s.reader.serving ++ (s.detailRequest ++ [k]) at hj
      rw [hrequested, List.mem_append, List.mem_singleton] at hj
      rcases hj with hj | rfl
      · rcases h.marks j hj with hmark | hmark
        · exact .inl hmark
        · cases hmark
      · exact .inr rfl
    textured := by
      intro j hj
      change j ∈ s.reader.serving ++ (s.detailRequest ++ [k]) at hj
      rw [hrequested, List.mem_append, List.mem_singleton] at hj
      rcases hj with hj | rfl
      · exact h.textured j hj
      · exact ⟨hstage rfl, hk⟩
    main := ⟨hk, hrest, fun _ ↦ hstage rfl, nofun⟩ }

/-- Its guard is marked. -/
theorem Inv.mark {k : Nat} {detailed : Bool} {rest : List Int}
    (h : Inv n { s with main := .drawing .mark k detailed rest }) :
    Inv n { s with
      verticesOnce := update s.verticesOnce k true
      main := .drawing .quad k detailed rest } := by
  obtain ⟨hk, hrest, -, -⟩ := h.main
  exact { h with
    marks := by
      intro j hj
      by_cases hjk : j = k
      · subst hjk
        exact .inl (update_self ..)
      · rcases h.marks j hj with hmark | hmark
        · exact .inl ((update_of_ne hjk ..).trans hmark)
        · exact absurd (Option.some.inj hmark).symm hjk
    main := ⟨hk, hrest, nofun, nofun⟩ }

/-- The steps of `Block.Draw`. -/
theorem Inv.drawStep {stage : DrawStage} {k : Nat} {detailed : Bool} {rest : List Int}
    (h : Inv n { s with main := .drawing stage k detailed rest }) {t : State}
    (ht : { s with main := .drawing stage k detailed rest }.drawStep stage k detailed rest =
      some t) : Inv n t := by
  obtain ⟨hk, hrest, hstage, -⟩ := h.main
  have hlifted : k ∈ s.lifted := List.mem_append_left _ (List.mem_append_left _ hk)
  cases stage with
  | texture =>
    cases ht
    by_cases htex : s.tex k = true
    · simp only [htex, if_true]
      exact { h with main := ⟨hk, hrest, nofun, nofun⟩ }
    · rw [Bool.not_eq_true] at htex
      by_cases honce : s.textureOnce k = true
      · simp only [htex, Bool.false_eq_true, if_false, State.requestTexture, honce, if_true]
        exact { h with main := ⟨hk, hrest, nofun, nofun⟩ }
      · rw [Bool.not_eq_true] at honce
        simp only [htex, Bool.false_eq_true, if_false, State.requestTexture, honce]
        exact { h.request hlifted htex honce with main := ⟨hk, hrest, nofun, nofun⟩ }
  | vertices =>
    cases ht
    by_cases hneed : (detailed && !s.vertexData k) = true
    · have htex : s.tex k = true := by
        rw [Bool.and_eq_true, Bool.not_eq_true'] at hneed
        exact (h.drawable k hlifted).resolve_right (by rw [hneed.2]; decide)
      simp only [hneed, if_true]
      exact { h with main := ⟨hk, hrest, fun _ ↦ htex, nofun⟩ }
    · simp only [hneed]
      exact { h with main := ⟨hk, hrest, nofun, nofun⟩ }
  | once =>
    cases ht
    by_cases honce : s.verticesOnce k = true
    · simp only [honce, if_true]
      exact { h with main := ⟨hk, hrest, nofun, nofun⟩ }
    · rw [Bool.not_eq_true] at honce
      simp only [honce, Bool.false_eq_true, if_false]
      exact { h with main := ⟨hk, hrest, fun _ ↦ hstage rfl, fun _ ↦ honce⟩ }
  | send =>
    simp only [State.drawStep, Option.ite_none_right_eq_some, Option.some.injEq] at ht
    obtain ⟨-, rfl⟩ := ht
    exact h.send
  | mark =>
    cases ht
    exact h.mark
  | quad =>
    cases ht
    by_cases htex : (s.tex k && (!detailed || !s.vertexData k)) = true
    · simp only [htex, if_true]
      rw [Bool.and_eq_true] at htex
      exact { h with main := ⟨hk, hrest, fun _ ↦ htex.1, nofun⟩ }
    · simp only [htex]
      exact { h with main := ⟨hk, hrest, nofun, nofun⟩ }
  | unload =>
    cases ht
    obtain ⟨hdrawable, hlifting⟩ := h.drop (hstage rfl)
    by_cases hdrop : (s.vertexData k && !s.detailNeeded k) = true
    · simp only [hdrop, if_true]
      exact { h with
        drawable := hdrawable
        lifting := hlifting
        main := ⟨hk, hrest, nofun, nofun⟩ }
    · simp only [hdrop]
      exact { h with main := ⟨hk, hrest, nofun, nofun⟩ }
  | points =>
    cases ht
    exact { h with main := hrest }

/-- The texture of a block is created. -/
theorem Inv.newTexture {k : Nat} (h : Inv n { s with main := .building .newTexture k }) :
    Inv n { s with
      tex := update s.tex k true
      textureBuilds := update s.textureBuilds k (s.textureBuilds k + 1)
      main := .building .render k } := by
  obtain ⟨honce, hrest⟩ := h.building rfl
  have hlifted : k ∈ s.lifted := h.lifted_of_once honce
  obtain ⟨htex, hvertices⟩ := h.starting rfl
  exact { h with
    await := by
      intro j hj
      change j ∈ s.textureRequests ++ s.texturing ++ [] at hj
      rw [List.append_nil] at hj
      have hjk : j ≠ k := fun he ↦ hrest (he ▸ hj)
      exact (update_of_ne hjk ..).trans (h.await j (List.mem_append_left _ hj))
    unlifted := by
      intro j hj
      have hjk : j ≠ k := fun he ↦ hj (he ▸ hlifted)
      obtain ⟨hout, hguard⟩ := h.unlifted j hj
      exact ⟨(update_of_ne hjk ..).trans hout, hguard⟩
    builds := by
      intro j
      by_cases hjk : j = k
      · subst hjk
        change update s.textureBuilds j (s.textureBuilds j + 1) j =
          (update s.tex j true j).toNat
        have hbuilds : s.textureBuilds j = (s.tex j).toNat := h.builds j
        rw [update_self, update_self, hbuilds, htex]
        rfl
      · change update s.textureBuilds k _ j = (update s.tex k true j).toNat
        rw [update_of_ne hjk, update_of_ne hjk]
        exact h.builds j
    drawable := fun j hj ↦ (h.drawable j hj).imp_left (update_true k)
    textured := fun j hj ↦ (h.textured j hj).imp_left (update_true k)
    main := ⟨fun _ ↦ hvertices, fun _ ↦ update_self ..⟩ }

/-- Its guard is replaced when nothing else is on its way. -/
theorem Inv.resetTexture {k : Nat} (h : Inv n { s with main := .building .reset k }) :
    Inv n { s with
      textureOnce := update s.textureOnce k false
      main := .working } := by
  obtain ⟨honce, hrest⟩ := h.building rfl
  have hlifted : k ∈ s.lifted := h.lifted_of_once honce
  exact { h with
    once := by
      intro j
      have hj := h.once j
      change (s.textureRequests ++ s.texturing ++ [k]).count j = (s.textureOnce j).toNat at hj
      change (s.textureRequests ++ s.texturing ++ []).count j =
        (update s.textureOnce k false j).toNat
      rw [List.append_nil]
      by_cases hjk : j = k
      · subst hjk
        rw [update_self]
        exact List.count_eq_zero.mpr hrest
      · have hlast : ([k] : List Nat).count j = 0 := List.count_eq_zero.mpr (by simpa using hjk)
        have hsum : (s.textureRequests ++ s.texturing ++ [k]).count j =
          (s.textureRequests ++ s.texturing).count j + [k].count j := List.count_append
        rw [update_of_ne hjk, ← hj, hsum, hlast, Nat.add_zero]
    unlifted := by
      intro j hj
      have hjk : j ≠ k := fun he ↦ hj (he ▸ hlifted)
      obtain ⟨hout, hguard⟩ := h.unlifted j hj
      exact ⟨hout, (update_of_ne hjk ..).trans hguard⟩
    main := trivial }

/-- The steps of `BuildTexture`: its block has vertices. -/
theorem Inv.buildStep {stage : BuildStage} {k : Nat}
    (h : Inv n { s with main := .building stage k }) :
    ∃ t, { s with main := .building stage k }.buildStep stage k = .ok t ∧ Inv n t := by
  obtain ⟨hrender, hbuilt⟩ := h.main
  cases stage with
  | newTexture => exact ⟨_, rfl, h.newTexture⟩
  | render =>
    have hvertices : s.vertexData k = true := hrender rfl
    refine ⟨{ s with main := .building .release k }, ?_, { h with
      main := ⟨nofun, fun _ ↦ hbuilt (by decide)⟩ }⟩
    exact if_pos hvertices
  | release =>
    refine ⟨_, rfl, ?_⟩
    have htex : s.tex k = true := hbuilt (by decide)
    obtain ⟨hdrawable, hlifting⟩ := h.drop htex
    by_cases hneed : s.detailNeeded k = true
    · simp only [hneed, if_true]
      exact { h with main := ⟨nofun, fun _ ↦ htex⟩ }
    · rw [Bool.not_eq_true] at hneed
      simp only [hneed]
      exact { h with
        drawable := hdrawable
        lifting := hlifting
        main := ⟨nofun, fun _ ↦ htex⟩ }
  | reset => exact ⟨_, rfl, h.resetTexture⟩

/-- A queued block is published. -/
theorem Inv.publish_work (h : Inv n { s with main := .working }) {k : Nat} {work : List Work}
    (hwork : s.mainThreadWork = .publish k :: work) :
    Inv n { s with main := .working, mainThreadWork := work, blocks := s.blocks ++ [k] } := by
  apply h.moved .working s.consumer s.textureRequests work (s.blocks ++ [k])
  · rw [State.lifted, State.publishing, hwork]
    simp [Work.published]
  · rfl
  · exact fun _ hk ↦ hk
  · intro j
    rw [State.texturing, hwork]
    rfl
  · intro j hj
    apply h.await j
    rw [State.texturing, hwork]
    exact hj
  · exact List.subset_append_left _ _
  · rfl
  · trivial

/-- Queued texture work is begun. -/
theorem Inv.texture_work (h : Inv n { s with main := .working }) {k : Nat} {work : List Work}
    (hwork : s.mainThreadWork = .texture k :: work) :
    Inv n { s with main := .building .newTexture k, mainThreadWork := work } := by
  have htexturing : s.texturing = k :: work.filterMap Work.textured := by
    rw [State.texturing, hwork]
    rfl
  have hperm : (s.textureRequests ++ work.filterMap Work.textured ++ [k]).Perm
      (s.textureRequests ++ s.texturing ++ []) := by
    rw [htexturing, List.append_nil, List.append_assoc]
    exact (List.perm_append_singleton k _).append_left _
  apply h.moved (.building .newTexture k) s.consumer s.textureRequests work s.blocks
  · rw [State.lifted, State.publishing, hwork]
    rfl
  · rfl
  · exact fun _ hk ↦ hk
  · exact fun j ↦ hperm.count_eq j
  · exact fun j hj ↦ h.await j (hperm.mem_iff.mp hj)
  · exact fun _ hk ↦ hk
  · rfl
  · exact ⟨nofun, nofun⟩

/-- No step of the main thread fails. -/
theorem Inv.mainStep (h : Inv n s) {r : Except Fault State} (hr : s.mainStep = some r) :
    ∃ t, r = .ok t ∧ Inv n t := by
  cases hmain : s.main with
  | frame =>
    simp only [State.mainStep, hmain] at hr
    cases hr
  | blocks detailed rest =>
    have hs : { s with main := .blocks detailed rest } = s := by rw [← hmain]
    rw [← hs] at h
    cases rest with
    | nil =>
      simp only [State.mainStep, hmain] at hr
      cases hr
      exact ⟨_, rfl, { h with main := trivial }⟩
    | cons i rest =>
      have hvalid := h.main i (List.mem_cons_self ..)
      obtain ⟨k, hk, hindex⟩ := goIndex_of_valid hvalid
      simp only [State.mainStep, hmain] at hr
      rw [show goIndex s.blocks i = some k from hindex] at hr
      cases hr
      refine ⟨_, rfl, { h with main := ⟨hk, ?_, nofun, nofun⟩ }⟩
      exact fun j hj ↦ h.main j (List.mem_cons_of_mem i hj)
  | drawing stage k detailed rest =>
    have hs : { s with main := .drawing stage k detailed rest } = s := by rw [← hmain]
    simp only [State.mainStep, hmain, Option.map_eq_some_iff] at hr
    obtain ⟨t, ht, rfl⟩ := hr
    rw [← hs] at h ht
    exact ⟨t, rfl, h.drawStep ht⟩
  | working =>
    have hs : { s with main := .working } = s := by rw [← hmain]
    rw [← hs] at h
    cases hwork : s.mainThreadWork with
    | nil =>
      simp only [State.mainStep, hmain, hwork] at hr
      cases hr
    | cons w work =>
      cases w with
      | publish k =>
        simp only [State.mainStep, hmain, hwork] at hr
        cases hr
        exact ⟨_, rfl, h.publish_work hwork⟩
      | texture k =>
        simp only [State.mainStep, hmain, hwork] at hr
        cases hr
        exact ⟨_, rfl, h.texture_work hwork⟩
  | building stage k =>
    have hs : { s with main := .building stage k } = s := by rw [← hmain]
    simp only [State.mainStep, hmain, Option.some.injEq] at hr
    rw [← hs] at h hr
    obtain ⟨t, ht, hinv⟩ := h.buildStep
    exact ⟨t, hr.symm.trans ht, hinv⟩

end Main

/-! ### The other goroutines -/

section Goroutines

variable {n : Nat} {s : State}

/-- Vertices may come at any time. -/
theorem Inv.vertices (h : Inv n s) (k : Nat) :
    Inv n { s with vertexData := update s.vertexData k true } :=
  { h with
    drawable := fun j hj ↦ (h.drawable j hj).imp_right (update_true k)
    lifting := fun j hj ↦ update_true k (h.lifting j hj)
    main := h.main.mono (fun _ hj ↦ update_true k hj) fun _ hj ↦ hj }

/-- A served request ends with the reset of its guard. -/
theorem Inv.reset {k : Nat} {more : Bool} (h : Inv n { s with reader := .serve .reset k more }) :
    Inv n { s with
      reader := .drain more
      verticesOnce := update s.verticesOnce k false } := by
  have hdistinct : (k :: s.detailRequest).Nodup := h.distinct
  rw [List.nodup_cons] at hdistinct
  exact { h with
    distinct := hdistinct.2
    marks := by
      intro j hj
      have hjk : j ≠ k := fun he ↦ hdistinct.1 (he ▸ hj)
      rcases h.marks j (List.mem_cons_of_mem k hj) with hmark | hmark
      · exact .inl ((update_of_ne hjk ..).trans hmark)
      · exact .inr hmark
    textured := fun j hj ↦ h.textured j (List.mem_cons_of_mem k hj)
    main := h.main.mono (fun _ hj ↦ hj) fun _ hj ↦ update_false k hj }

/-- A frame is read: the next block is on its way. -/
theorem Inv.read (h : Inv n { s with reader := .read }) (hlt : s.framesRead < n) :
    Inv n { s with reader := .send s.framesRead, framesRead := s.framesRead + 1 } :=
  { h with
    order := by
      have horder : s.lifted ++ s.consumer.lifting ++ [] = List.range s.framesRead := h.order
      change s.lifted ++ s.consumer.lifting ++ [s.framesRead] = List.range (s.framesRead + 1)
      rw [List.range_succ, ← horder, List.append_nil]
    bound := hlt }

/-- The steps of the reading goroutine. -/
theorem Inv.readerStep (h : Inv n s) {t : State} (ht : s.readerStep n = some t) : Inv n t := by
  cases hreader : s.reader with
  | drain more =>
    have hs : { s with reader := .drain more } = s := by rw [← hreader]
    cases hqueue : s.detailRequest with
    | nil =>
      have hs' : { s with reader := .drain more, detailRequest := [] } = s := by
        rw [← hqueue]
        exact hs
      rw [← hs'] at h ht
      cases more with
      | true =>
        cases ht
        exact { h with }
      | false =>
        cases ht
        exact h
    | cons k rest =>
      have hs' : { s with reader := .drain more, detailRequest := k :: rest } = s := by
        rw [← hqueue]
        exact hs
      rw [← hs'] at h ht
      cases ht
      exact { h with }
  | serve stage k more =>
    have hs : { s with reader := .serve stage k more } = s := by rw [← hreader]
    rw [← hs] at h ht
    cases stage with
    | decode =>
      cases ht
      exact { h with }
    | vertices =>
      cases ht
      exact { h.vertices k with }
    | reset =>
      cases ht
      exact h.reset
  | read =>
    have hs : { s with reader := .read } = s := by rw [← hreader]
    rw [← hs] at h ht
    by_cases hlt : s.framesRead < n
    · simp only [State.readerStep, hlt, if_true, Option.some.injEq] at ht
      subst ht
      exact h.read hlt
    · simp only [State.readerStep, hlt, if_false, Option.some.injEq] at ht
      subst ht
      exact { h with }
  | send k =>
    simp only [State.readerStep, hreader] at ht
    cases ht

/-- The consumer asks for the texture of a block it has lifted. -/
theorem Inv.lift {k : Nat} (h : Inv n { s with consumer := .texture k }) :
    Inv n { s.requestTexture k with consumer := .publish k } := by
  have hnot : k ∉ s.blocks ++ s.publishing ++ [] := h.not_lifted (List.mem_singleton.mpr rfl)
  obtain ⟨htex, honce⟩ := h.unlifted k hnot
  have hguard : s.textureOnce k = false := honce
  simp only [State.requestTexture, hguard, Bool.false_eq_true, if_false]
  exact { h with
    order := by
      have horder : s.blocks ++ s.publishing ++ [] ++ [k] ++ s.reader.sending =
        List.range s.framesRead := h.order
      change s.blocks ++ s.publishing ++ [k] ++ [] ++ s.reader.sending = List.range s.framesRead
      rw [List.append_nil] at horder ⊢
      exact horder
    once := h.once_request hguard
    await := h.await_request htex
    unlifted := by
      intro j hj
      change j ∉ s.blocks ++ s.publishing ++ [k] at hj
      rw [List.mem_append, List.mem_singleton, not_or] at hj
      have hout : j ∉ s.blocks ++ s.publishing ++ [] := by
        rw [List.append_nil]
        exact hj.1
      obtain ⟨hjtex, hjonce⟩ := h.unlifted j hout
      exact ⟨hjtex, (update_of_ne hj.2 ..).trans hjonce⟩
    drawable := by
      intro j hj
      change j ∈ s.blocks ++ s.publishing ++ [k] at hj
      rw [List.mem_append, List.mem_singleton] at hj
      rcases hj with hj | rfl
      · exact h.drawable j (List.mem_append_left _ hj)
      · exact .inr (h.lifting j rfl)
    lifting := nofun }

/-- A lifted block is queued for publication. -/
theorem Inv.queue {k : Nat} (h : Inv n { s with consumer := .publish k }) :
    Inv n { s with
      consumer := .receive
      mainThreadWork := s.mainThreadWork ++ [.publish k] } := by
  have htexturing : (s.mainThreadWork ++ [Work.publish k]).filterMap Work.textured =
      s.texturing := by
    rw [List.filterMap_append]
    exact List.append_nil _
  apply h.moved s.main .receive s.textureRequests (s.mainThreadWork ++ [Work.publish k]) s.blocks
  · rw [List.filterMap_append]
    simp [State.lifted, State.publishing, Work.published, ConsumerAt.lifted]
  · rfl
  · nofun
  · intro j
    rw [htexturing]
    rfl
  · intro j hj
    rw [htexturing] at hj
    exact h.await j hj
  · exact fun _ hk ↦ hk
  · rfl
  · exact h.main

/-- The steps of the consumer. -/
theorem Inv.consumerStep (h : Inv n s) {t : State} (ht : s.consumerStep = some t) : Inv n t := by
  cases hconsumer : s.consumer with
  | receive =>
    simp only [State.consumerStep, hconsumer] at ht
    cases ht
  | lift k =>
    have hs : { s with consumer := .lift k } = s := by rw [← hconsumer]
    rw [← hs] at h ht
    cases ht
    exact { h.vertices k with lifting := fun j hj ↦ by cases hj; exact update_self .. }
  | texture k =>
    have hs : { s with consumer := .texture k } = s := by rw [← hconsumer]
    rw [← hs] at h
    simp only [State.consumerStep, hconsumer, Option.some.injEq] at ht
    subst ht
    exact h.lift
  | publish k =>
    have hs : { s with consumer := .publish k } = s := by rw [← hconsumer]
    rw [← hs] at h ht
    simp only [State.consumerStep, Option.ite_none_right_eq_some, Option.some.injEq] at ht
    obtain ⟨-, rfl⟩ := ht
    exact h.queue

/-- A goroutine has sent the work on a texture. -/
theorem Inv.send_texture (h : Inv n s) {k : Nat} (hk : k ∈ s.textureRequests) :
    Inv n { s with
      textureRequests := s.textureRequests.erase k
      mainThreadWork := s.mainThreadWork ++ [.texture k] } := by
  have htexturing : (s.mainThreadWork ++ [Work.texture k]).filterMap Work.textured =
      s.texturing ++ [k] := List.filterMap_append
  have hperm (rest : List Nat) :
      ((s.textureRequests.erase k) ++ (s.texturing ++ [k]) ++ rest).Perm
        (s.textureRequests ++ s.texturing ++ rest) := by
    apply List.Perm.append_right
    have hmove := (List.perm_cons_erase hk).append_right s.texturing
    refine List.Perm.trans ?_ hmove.symm
    rw [← List.append_assoc]
    exact List.perm_append_singleton k _
  apply h.moved s.main s.consumer (s.textureRequests.erase k) (s.mainThreadWork ++ [Work.texture k])
    s.blocks
  · rw [List.filterMap_append]
    simp [State.lifted, State.publishing, Work.published]
  · rfl
  · exact fun _ hk ↦ hk
  · intro j
    rw [htexturing]
    exact (hperm s.main.built).count_eq j
  · intro j hj
    rw [htexturing] at hj
    exact h.await j ((hperm s.main.starting).mem_iff.mp hj)
  · exact fun _ hk ↦ hk
  · rfl
  · exact h.main

/-- A new block passes from the reader to the consumer. -/
theorem Inv.newBlock {k : Nat} (h : Inv n { s with reader := .send k, consumer := .receive }) :
    Inv n { s with reader := .drain true, consumer := .lift k } :=
  { h with
    order := by
      have horder : s.blocks ++ s.publishing ++ [] ++ [] ++ [k] = List.range s.framesRead := h.order
      change s.blocks ++ s.publishing ++ [] ++ [k] ++ [] = List.range s.framesRead
      rw [← horder]
      simp only [List.append_nil]
    lifting := nofun }

end Goroutines

/-! ### Every run -/

section Runs

variable {n : Nat} {s : State}

/-- No step fails, and every step keeps the invariant. -/
theorem Inv.step (h : Inv n s) {a : Action} {r : Except Fault State} (hr : s.step n a = some r) :
    ∃ t, r = .ok t ∧ Inv n t := by
  cases a with
  | draw startIndex m =>
    simp only [State.step, Option.ite_none_right_eq_some, Option.some.injEq] at hr
    obtain ⟨hmain, rfl⟩ := hr
    have hs : { s with main := .frame } = s := by rw [← hmain]
    rw [← hs] at h
    exact ⟨_, rfl, { h with main := drawRange_valid startIndex m s.blocks.length }⟩
  | main => exact h.mainStep hr
  | endWork =>
    simp only [State.step, Option.ite_none_right_eq_some, Option.some.injEq] at hr
    obtain ⟨hmain, rfl⟩ := hr
    have hs : { s with main := .working } = s := by rw [← hmain]
    rw [← hs] at h
    exact ⟨_, rfl, { h with main := trivial }⟩
  | reader =>
    simp only [State.step, Option.map_eq_some_iff] at hr
    obtain ⟨t, ht, rfl⟩ := hr
    exact ⟨t, rfl, h.readerStep ht⟩
  | newBlock =>
    simp only [State.step] at hr
    split at hr
    · next k hreader hconsumer =>
      have hs : { s with reader := .send k, consumer := .receive } = s := by
        rw [← hreader, ← hconsumer]
      rw [← hs] at h
      cases hr
      exact ⟨_, rfl, h.newBlock⟩
    · cases hr
  | consumer =>
    simp only [State.step, Option.map_eq_some_iff] at hr
    obtain ⟨t, ht, rfl⟩ := hr
    exact ⟨t, rfl, h.consumerStep ht⟩
  | textureRequest k =>
    simp only [State.step, Option.ite_none_right_eq_some, Option.some.injEq] at hr
    obtain ⟨⟨hk, -⟩, rfl⟩ := hr
    exact ⟨_, rfl, h.send_texture hk⟩

theorem Inv.of_reachable (h : (viewer n).Reachable s) : Inv n s := by
  apply h.invariant
  · rintro s rfl
    exact started_inv n
  · intro a s t hs ht
    obtain ⟨t', he, hinv⟩ := hs.step ht
    cases he
    exact hinv

end Runs

/-- A published block has a texture or vertices; a texture is only built of a block that has
vertices, and at most once; and no step fails. -/
structure Drawable (n : Nat) (s : State) : Prop where
  drawable : ∀ k ∈ s.blocks, s.vertexData k = false → s.tex k = true
  present : ∀ stage k, s.main = .building stage k → stage = .newTexture ∨ stage = .render →
    s.vertexData k = true
  once : ∀ k, s.textureBuilds k ≤ 1
  safe : ∀ a r, s.step n a = some r → ∃ t, r = .ok t

/-- Whatever the interleaving, every published block stays drawable. -/
theorem drawable_of_reachable {n : Nat} {s : State} (h : (viewer n).Reachable s) :
    Drawable n s := by
  have hinv := Inv.of_reachable h
  constructor
  · intro k hk hvertices
    have hlifted : k ∈ s.lifted := List.mem_append_left _ (List.mem_append_left _ hk)
    exact (hinv.drawable k hlifted).resolve_right (by rw [hvertices]; decide)
  · rintro stage k hmain (rfl | rfl)
    · exact (hinv.starting hmain).2
    · have hok := hinv.main
      rw [hmain] at hok
      exact hok.1 rfl
  · intro k
    rw [hinv.builds k]
    exact Bool.toNat_le _
  · intro a r hr
    obtain ⟨t, ht, -⟩ := hinv.step hr
    exact ⟨t, ht⟩

/-- The one block of a file, published while the work on its texture is queued. -/
theorem drawable_of_reachable_oneBlock :
    ∃ s, s.blocks = [0] ∧ s.mainThreadWork = [.texture 0] ∧ Drawable 1 s := by
  have hread : (viewer 1).Reachable _ := .step (a := .reader) (.start rfl) rfl
  have hsend : (viewer 1).Reachable _ := .step (a := .reader) hread rfl
  have hnew : (viewer 1).Reachable _ := .step (a := .newBlock) hsend rfl
  have hlift : (viewer 1).Reachable _ := .step (a := .consumer) hnew rfl
  have htexture : (viewer 1).Reachable _ := .step (a := .consumer) hlift rfl
  have hpublish : (viewer 1).Reachable _ := .step (a := .consumer) htexture rfl
  have hrequest : (viewer 1).Reachable _ := .step (a := .textureRequest 0) hpublish rfl
  have hframe : (viewer 1).Reachable _ := .step (a := .draw 0 40960) hrequest rfl
  have hwork : (viewer 1).Reachable _ := .step (a := .main) hframe rfl
  have hshown : (viewer 1).Reachable _ := .step (a := .main) hwork rfl
  exact ⟨_, rfl, rfl, drawable_of_reachable hshown⟩

end Mema.Viewer
