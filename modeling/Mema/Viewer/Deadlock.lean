import Mema.Viewer.Requests

/-!
# The cycle of blocking sends

`memaviz/data.go:31,130–243`, `block.go:203–239` and `main.go:47–61`: the main thread is the only
receiver of `main_thread_work`, the consumer of `new_block`, and the reader of `detail_request`.
Each request in the channel is for another published block with a texture, so all three can only
wait for each other when there are enough blocks to fill both channels.
-/

namespace Mema.Viewer

open Function

/-- The main thread waits to send a request, the reader to hand on a block, and the consumer to
queue one. -/
structure CyclicWait (s : State) : Prop where
  main : ∃ k detailed rest, s.main = .drawing .send k detailed rest
  requests : detailRequestCap ≤ s.detailRequest.length
  reader : ∃ k, s.reader = .send k
  consumer : ∃ k, s.consumer = .publish k
  work : mainThreadWorkCap ≤ s.mainThreadWork.length

/-- In a cyclic wait nobody takes another step. -/
theorem CyclicWait.stuck {n : Nat} {s : State} (h : CyclicWait s) (a : Action) :
    s.step n a = none := by
  obtain ⟨⟨k, detailed, rest, hmain⟩, hrequests, ⟨r, hreader⟩, ⟨b, hconsumer⟩, hwork⟩ := h
  have hsend : ¬ s.detailRequest.length < detailRequestCap := not_lt.mpr hrequests
  have hqueue : ¬ s.mainThreadWork.length < mainThreadWorkCap := not_lt.mpr hwork
  cases a with
  | draw startIndex m => simp [State.step, hmain]
  | main => simp [State.step, State.mainStep, hmain, State.drawStep, hsend]
  | endWork => simp [State.step, hmain]
  | reader => simp [State.step, State.readerStep, hreader]
  | newBlock => simp [State.step, hreader, hconsumer]
  | consumer => simp [State.step, State.consumerStep, hconsumer, hqueue]
  | textureRequest j => simp [State.step, hqueue]

/-! ### Too few blocks -/

/-- Queued work is publications and texture work. -/
theorem length_mainThreadWork (s : State) :
    s.mainThreadWork.length = s.publishing.length + s.texturing.length := by
  rw [State.publishing, State.texturing]
  induction s.mainThreadWork with
  | nil => rfl
  | cons w work ih =>
    cases w with
    | publish k =>
      have hpublished : (Work.publish k :: work).filterMap Work.published =
        k :: work.filterMap Work.published := rfl
      have htextured : (Work.publish k :: work).filterMap Work.textured =
        work.filterMap Work.textured := rfl
      rw [hpublished, htextured, List.length_cons, List.length_cons]
      omega
    | texture k =>
      have hpublished : (Work.texture k :: work).filterMap Work.published =
        work.filterMap Work.published := rfl
      have htextured : (Work.texture k :: work).filterMap Work.textured =
        k :: work.filterMap Work.textured := rfl
      rw [hpublished, htextured, List.length_cons, List.length_cons]
      omega

section Counting

variable {n : Nat} {s : State}

/-- Queued texture work is for different blocks. -/
theorem Inv.nodup_texturing (h : Inv n s) : s.texturing.Nodup := by
  rw [List.nodup_iff_count_le_one]
  intro k
  have hcount := h.once k
  have hle := Bool.toNat_le (s.textureOnce k)
  rw [List.count_append, List.count_append] at hcount
  omega

/-- It is for blocks that have asked for it and have no texture. -/
theorem Inv.of_mem_texturing (h : Inv n s) {k : Nat} (hk : k ∈ s.texturing) :
    k ∈ s.lifted ∧ s.tex k = false := by
  have hcount := h.once k
  have hpos := List.count_pos_iff.mpr hk
  rw [List.count_append, List.count_append] at hcount
  have honce : s.textureOnce k = true := by
    by_contra hguard
    rw [Bool.not_eq_true] at hguard
    rw [hguard, Bool.toNat_false] at hcount
    omega
  exact ⟨h.lifted_of_once honce, h.await k (by simp [hk])⟩

/-- With the block whose request waits to be sent, the requested blocks are all different, and
published and textured. -/
theorem Inv.requested_send (h : Inv n s) {k : Nat} {detailed : Bool} {rest : List Int}
    (hmain : s.main = .drawing .send k detailed rest) :
    (k :: s.requested).Nodup ∧ ∀ j ∈ k :: s.requested, s.tex j = true ∧ j ∈ s.blocks := by
  constructor
  · exact List.nodup_cons.mpr ⟨h.not_requested hmain, h.distinct⟩
  · intro j hj
    rcases List.mem_cons.mp hj with rfl | hj
    · have hok := h.main
      rw [hmain] at hok
      exact ⟨hok.2.2.1 rfl, hok.1⟩
    · exact h.textured j hj

/-- A cyclic wait takes the blocks requested, those in the queue twice over, the consumer's and
the reader's. -/
theorem Inv.le_of_cyclicWait (h : Inv n s) (hwait : CyclicWait s) : 1008 ≤ n := by
  obtain ⟨⟨k, detailed, rest, hmain⟩, hrequests, ⟨r, hreader⟩, ⟨b, hconsumer⟩, hwork⟩ := hwait
  obtain ⟨hdistinct, htextured⟩ := h.requested_send hmain
  have hrequested : s.requested = s.detailRequest := by
    rw [State.requested, hreader]
    rfl
  rw [hrequested] at hdistinct htextured
  -- Requested blocks are published; with those whose texture is queued they are lifted.
  have hblocks : (k :: s.detailRequest).length ≤ s.blocks.length :=
    (List.subperm_of_subset hdistinct fun j hj ↦ (htextured j hj).2).length_le
  have hlifted : (k :: s.detailRequest ++ s.texturing).length ≤ s.lifted.length := by
    apply List.Subperm.length_le
    apply List.subperm_of_subset
    · apply List.Nodup.append hdistinct h.nodup_texturing
      intro j hj hj'
      have htex := (htextured j hj).1
      rw [(h.of_mem_texturing hj').2] at htex
      cases htex
    · intro j hj
      rcases List.mem_append.mp hj with hj | hj
      · exact List.mem_append_left _ (List.mem_append_left _ (htextured j hj).2)
      · exact (h.of_mem_texturing hj).1
  have horder := congrArg List.length h.order
  have hlength := length_mainThreadWork s
  have hbound := h.bound
  rw [hreader, hconsumer] at horder
  simp only [State.lifted, hconsumer, ConsumerAt.lifted, ConsumerAt.lifting, ReaderAt.sending,
    List.length_append, List.length_cons, List.length_nil, List.length_range]
    at horder hlifted hblocks
  have hcap : detailRequestCap = 1000 := rfl
  have hcap' : mainThreadWorkCap = 10 := rfl
  omega

end Counting

/-! ### Enough blocks -/

/-- The first `m` blocks are published and textured, without vertices; no frame has been drawn in
detail, and all goroutines are at rest. -/
structure Settled (m : Nat) (s : State) : Prop where
  main : s.main = .working
  reader : s.reader = .drain true
  consumer : s.consumer = .receive
  requests : s.textureRequests = []
  details : s.detailRequest = []
  blocks : s.blocks = List.range m
  read : m ≤ s.framesRead
  tex : ∀ k, k < m → s.tex k = true
  vertices : ∀ k, k < m → s.vertexData k = false
  needs : ∀ k, s.detailNeeded k = false
  marks : ∀ k, s.verticesOnce k = false
  fresh : ∀ k, s.framesRead ≤ k → s.textureOnce k = false

section Schedule

variable {n m i : Nat} {s : State}

/-- The reader takes the next block from the file and the consumer brings it up to its
publication. -/
theorem reachable_lift (h : ReachedUndisturbed n s) (hs : Settled m s) (hlt : s.framesRead < n) :
    ReachedUndisturbed n { s with
      reader := .drain true
      consumer := .publish s.framesRead
      framesRead := s.framesRead + 1
      vertexData := update s.vertexData s.framesRead true
      textureOnce := update s.textureOnce s.framesRead true
      textureRequests := [s.framesRead] } := by
  have hread : ReachedUndisturbed n { s with reader := .read } := by
    refine .step (a := .reader) h (.of_reader (by simp [hs.reader])) ?_
    simp [viewer, State.step, State.readerStep, hs.reader, hs.details]
  have hsend : ReachedUndisturbed n { s with
      reader := .send s.framesRead
      framesRead := s.framesRead + 1 } := by
    refine .step (a := .reader) hread (.of_reader (by simp)) ?_
    simp [viewer, State.step, State.readerStep, hlt]
  have hnew : ReachedUndisturbed n { s with
      reader := .drain true
      consumer := .lift s.framesRead
      framesRead := s.framesRead + 1 } := by
    refine .step (a := .newBlock) hsend .of_ne ?_
    simp [viewer, State.step, hs.consumer]
  have hlift : ReachedUndisturbed n { s with
      reader := .drain true
      consumer := .texture s.framesRead
      framesRead := s.framesRead + 1
      vertexData := update s.vertexData s.framesRead true } := .step (a := .consumer) hnew .of_ne rfl
  refine .step (a := .consumer) hlift .of_ne ?_
  simp [viewer, State.step, State.consumerStep, State.requestTexture, hs.fresh, hs.requests]

/-- When there is room, it is queued, and then its texture. -/
theorem reachable_queue (h : ReachedUndisturbed n s) (hs : Settled m s) (hlt : s.framesRead < n)
    (hroom : s.mainThreadWork.length + 2 ≤ mainThreadWorkCap) :
    ReachedUndisturbed n { s with
      reader := .drain true
      consumer := .receive
      framesRead := s.framesRead + 1
      vertexData := update s.vertexData s.framesRead true
      textureOnce := update s.textureOnce s.framesRead true
      textureRequests := []
      mainThreadWork :=
        s.mainThreadWork ++ [.publish s.framesRead] ++ [.texture s.framesRead] } := by
  have hpublish : ReachedUndisturbed n { s with
      reader := .drain true
      consumer := .receive
      framesRead := s.framesRead + 1
      vertexData := update s.vertexData s.framesRead true
      textureOnce := update s.textureOnce s.framesRead true
      textureRequests := [s.framesRead]
      mainThreadWork := s.mainThreadWork ++ [.publish s.framesRead] } := by
    refine .step (a := .consumer) (reachable_lift h hs hlt) .of_ne ?_
    have hless : s.mainThreadWork.length < mainThreadWorkCap := by omega
    simp [viewer, State.step, State.consumerStep, hless]
  refine .step (a := .textureRequest s.framesRead) hpublish .of_ne ?_
  have hless : s.mainThreadWork.length + 1 < mainThreadWorkCap := by omega
  simp [viewer, State.step, hless]

/-- The main thread publishes one block and builds its texture, which drops its vertices. -/
theorem reachable_publish {k : Nat} (h : ReachedUndisturbed n s) (hmain : s.main = .working)
    (hwork : s.mainThreadWork = [.publish k, .texture k]) (hvertices : s.vertexData k = true)
    (hneeded : s.detailNeeded k = false) :
    ReachedUndisturbed n { s with
      main := .working
      mainThreadWork := []
      blocks := s.blocks ++ [k]
      tex := update s.tex k true
      textureBuilds := update s.textureBuilds k (s.textureBuilds k + 1)
      vertexData := update s.vertexData k false
      textureOnce := update s.textureOnce k false } := by
  have hpublish : ReachedUndisturbed n { s with
      main := .working
      mainThreadWork := [.texture k]
      blocks := s.blocks ++ [k] } := by
    refine .step (a := .main) h .of_ne ?_
    simp [viewer, State.step, State.mainStep, hmain, hwork]
  have hwork : ReachedUndisturbed n { s with
      main := .building .newTexture k
      mainThreadWork := []
      blocks := s.blocks ++ [k] } := .step (a := .main) hpublish .of_ne rfl
  have hnew : ReachedUndisturbed n { s with
      main := .building .render k
      mainThreadWork := []
      blocks := s.blocks ++ [k]
      tex := update s.tex k true
      textureBuilds := update s.textureBuilds k (s.textureBuilds k + 1) } :=
    .step (a := .main) hwork .of_ne rfl
  have hrender : ReachedUndisturbed n { s with
      main := .building .release k
      mainThreadWork := []
      blocks := s.blocks ++ [k]
      tex := update s.tex k true
      textureBuilds := update s.textureBuilds k (s.textureBuilds k + 1) } := by
    refine .step (a := .main) hnew .of_ne ?_
    simp [viewer, State.step, State.mainStep, State.buildStep, hvertices]
  have hrelease : ReachedUndisturbed n { s with
      main := .building .reset k
      mainThreadWork := []
      blocks := s.blocks ++ [k]
      tex := update s.tex k true
      textureBuilds := update s.textureBuilds k (s.textureBuilds k + 1)
      vertexData := update s.vertexData k false } := by
    refine .step (a := .main) hrender .of_ne ?_
    simp [viewer, State.step, State.mainStep, State.buildStep, hneeded]
  exact .step (a := .main) hrelease .of_ne rfl

/-- The viewer at rest stays so when the next block is queued. -/
theorem Settled.queue (hs : Settled m s) (w : List Work) : Settled m { s with
    reader := .drain true
    consumer := .receive
    framesRead := s.framesRead + 1
    vertexData := update s.vertexData s.framesRead true
    textureOnce := update s.textureOnce s.framesRead true
    textureRequests := []
    mainThreadWork := w } where
  main := hs.main
  reader := rfl
  consumer := rfl
  requests := rfl
  details := hs.details
  blocks := hs.blocks
  read := Nat.le_succ_of_le hs.read
  tex := hs.tex
  vertices k hk := by
    have hread := hs.read
    show update s.vertexData s.framesRead true k = false
    rw [update_of_ne (by omega)]
    exact hs.vertices k hk
  needs := hs.needs
  marks := hs.marks
  fresh k hk := by
    show update s.textureOnce s.framesRead true k = false
    rw [update_of_ne (Nat.ne_of_gt hk)]
    exact hs.fresh k (Nat.le_of_succ_le hk)

/-- It is at rest again with one more block when that is published and textured. -/
theorem Settled.publish (hs : Settled m s) (hread : m < s.framesRead) : Settled (m + 1) { s with
    main := .working
    mainThreadWork := []
    blocks := s.blocks ++ [m]
    tex := update s.tex m true
    textureBuilds := update s.textureBuilds m (s.textureBuilds m + 1)
    vertexData := update s.vertexData m false
    textureOnce := update s.textureOnce m false } where
  main := rfl
  reader := hs.reader
  consumer := hs.consumer
  requests := hs.requests
  details := hs.details
  blocks := by
    show s.blocks ++ [m] = List.range (m + 1)
    rw [hs.blocks, List.range_succ]
  read := hread
  tex k hk := by
    show update s.tex m true k = true
    by_cases hkm : k = m
    · rw [hkm, update_self]
    · rw [update_of_ne hkm]
      exact hs.tex k (by omega)
  vertices k hk := by
    show update s.vertexData m false k = false
    by_cases hkm : k = m
    · rw [hkm, update_self]
    · rw [update_of_ne hkm]
      exact hs.vertices k (by omega)
  needs := hs.needs
  marks := hs.marks
  fresh k hk := update_false m (hs.fresh k hk)

/-- The viewer comes to rest with any number of blocks. -/
theorem exists_settled (m : Nat) (hm : m ≤ n) : ∃ s, ReachedUndisturbed n s ∧ Settled m s ∧
    s.framesRead = m ∧ s.mainThreadWork = [] := by
  induction m with
  | zero =>
    have hdraw : ReachedUndisturbed n _ := .step (a := .draw 0 0) (.start rfl) .of_ne rfl
    have hmain : ReachedUndisturbed n { State.started with main := .working } :=
      .step (a := .main) hdraw .of_ne rfl
    exact ⟨_, hmain, ⟨rfl, rfl, rfl, rfl, rfl, rfl, le_rfl, nofun, nofun, fun _ ↦ rfl, fun _ ↦ rfl,
      fun _ _ ↦ rfl⟩, rfl, rfl⟩
  | succ m ih =>
    obtain ⟨s, h, hs, hread, hwork⟩ := ih (Nat.le_of_succ_le hm)
    have hqueue := reachable_queue h hs (by omega) (by rw [hwork]; decide)
    have hqueued := hs.queue (s.mainThreadWork ++ [.publish s.framesRead] ++
      [.texture s.framesRead])
    rw [hwork, hread] at hqueue hqueued
    have hpublish := reachable_publish hqueue hs.main rfl (update_self ..) (hs.needs m)
    exact ⟨_, hpublish, hqueued.publish (Nat.lt_succ_self m), rfl, rfl⟩

/-- With the main thread elsewhere, any number of blocks that fit are queued with their
textures. -/
theorem exists_backlog (m : Nat) (j : Nat) (hj : m + j ≤ n) (hroom : 2 * j ≤ mainThreadWorkCap) :
    ∃ s, ReachedUndisturbed n s ∧ Settled m s ∧ s.framesRead = m + j ∧
      s.mainThreadWork.length = 2 * j := by
  induction j with
  | zero =>
    obtain ⟨s, h, hs, hread, hwork⟩ := exists_settled m hj
    exact ⟨s, h, hs, hread, by rw [hwork]; rfl⟩
  | succ j ih =>
    obtain ⟨s, h, hs, hread, hwork⟩ := ih (by omega) (by omega)
    refine ⟨_, reachable_queue h hs (by omega) (by omega), hs.queue _, congrArg (· + 1) hread, ?_⟩
    simp only [List.length_append, List.length_singleton, hwork]
    omega

/-- The reader and the consumer wait, all of the first `m` blocks are published and textured, and
the first `i` of them have been requested. -/
structure Waiting (m i : Nat) (s : State) : Prop where
  reader : ∃ k, s.reader = .send k
  consumer : ∃ k, s.consumer = .publish k
  work : mainThreadWorkCap ≤ s.mainThreadWork.length
  blocks : s.blocks = List.range m
  tex : ∀ k, k < m → s.tex k = true
  vertices : ∀ k, k < m → s.vertexData k = false
  marks : ∀ k, i ≤ k → s.verticesOnce k = false
  details : s.detailRequest.length = i

/-- Seven more blocks than the main thread has published keep the reader and the consumer
waiting. -/
theorem exists_waiting (m : Nat) (hm : m + 7 ≤ n) :
    ∃ s, ReachedUndisturbed n s ∧ Waiting m 0 s ∧ s.main = .frame := by
  obtain ⟨s, h, hs, hread, hwork⟩ := exists_backlog (n := n) m 5 (by omega) (by decide)
  have hlift := reachable_lift h hs (by omega)
  have hnext : ReachedUndisturbed n { s with
      reader := .read
      consumer := .publish s.framesRead
      framesRead := s.framesRead + 1
      vertexData := update s.vertexData s.framesRead true
      textureOnce := update s.textureOnce s.framesRead true
      textureRequests := [s.framesRead] } := by
    refine .step (a := .reader) hlift (.of_reader (by simp)) ?_
    simp [viewer, State.step, State.readerStep, hs.details]
  have hsend : ReachedUndisturbed n { s with
      reader := .send (s.framesRead + 1)
      consumer := .publish s.framesRead
      framesRead := s.framesRead + 2
      vertexData := update s.vertexData s.framesRead true
      textureOnce := update s.textureOnce s.framesRead true
      textureRequests := [s.framesRead] } := by
    refine .step (a := .reader) hnext (.of_reader (by simp)) ?_
    have hless : s.framesRead + 1 < n := by omega
    simp [viewer, State.step, State.readerStep, hless]
  have hframe : ReachedUndisturbed n { s with
      main := .frame
      reader := .send (s.framesRead + 1)
      consumer := .publish s.framesRead
      framesRead := s.framesRead + 2
      vertexData := update s.vertexData s.framesRead true
      textureOnce := update s.textureOnce s.framesRead true
      textureRequests := [s.framesRead] } := by
    refine .step (a := .endWork) hsend .of_ne ?_
    simp [viewer, State.step, hs.main]
  refine ⟨_, hframe, ?_, rfl⟩
  constructor
  · exact ⟨_, rfl⟩
  · exact ⟨_, rfl⟩
  · exact le_of_eq hwork.symm
  · exact hs.blocks
  · exact hs.tex
  · intro k hk
    show update s.vertexData s.framesRead true k = false
    rw [update_of_ne (by omega)]
    exact hs.vertices k hk
  · exact fun k _ ↦ hs.marks k
  · show s.detailRequest.length = 0
    rw [hs.details]
    rfl

/-- A block drawn in detail is about to be requested when it has a texture and nothing else. -/
theorem reachable_send {rest : List Int} (h : ReachedUndisturbed n s) (hs : Waiting m i s)
    (hmain : s.main = .blocks true (i :: rest)) (hi : i < m) :
    ReachedUndisturbed n { s with
      main := .drawing .send i true rest
      detailNeeded := update s.detailNeeded i true } := by
  have hindex : goIndex s.blocks (i : Int) = some i := by
    rw [goIndex, if_neg (by omega), hs.blocks, Int.toNat_natCast, List.getElem?_range hi]
  have hdraw : ReachedUndisturbed n { s with main := .drawing .texture i true rest } := by
    refine .step (a := .main) h .of_ne ?_
    simp [viewer, State.step, State.mainStep, hmain, hindex]
  have htexture : ReachedUndisturbed n { s with main := .drawing .vertices i true rest } := by
    refine .step (a := .main) hdraw .of_ne ?_
    simp [viewer, State.step, State.mainStep, State.drawStep, hs.tex i hi]
  have hvertices : ReachedUndisturbed n { s with
      main := .drawing .once i true rest
      detailNeeded := update s.detailNeeded i true } := by
    refine .step (a := .main) htexture .of_ne ?_
    simp [viewer, State.step, State.mainStep, State.drawStep, hs.vertices i hi]
  refine .step (a := .main) hvertices .of_ne ?_
  simp [viewer, State.step, State.mainStep, State.drawStep, hs.marks i le_rfl]

/-- When there is room, it is requested, marked and drawn as a quad. -/
theorem exists_request {rest : List Int} (h : ReachedUndisturbed n s) (hs : Waiting m i s)
    (hmain : s.main = .blocks true (i :: rest)) (hi : i < m) (hroom : i < detailRequestCap) :
    ∃ s', ReachedUndisturbed n s' ∧ Waiting m (i + 1) s' ∧ s'.main = .blocks true rest := by
  have hless : s.detailRequest.length < detailRequestCap := by rw [hs.details]; exact hroom
  have hsend : ReachedUndisturbed n { s with
      main := .drawing .mark i true rest
      detailNeeded := update s.detailNeeded i true
      detailRequest := s.detailRequest ++ [i] } := by
    refine .step (a := .main) (reachable_send h hs hmain hi) .of_ne ?_
    simp [viewer, State.step, State.mainStep, State.drawStep, hless]
  have hmark : ReachedUndisturbed n { s with
      main := .drawing .quad i true rest
      detailNeeded := update s.detailNeeded i true
      detailRequest := s.detailRequest ++ [i]
      verticesOnce := update s.verticesOnce i true } := .step (a := .main) hsend .of_ne rfl
  have hquad : ReachedUndisturbed n { s with
      main := .drawing .unload i true rest
      detailNeeded := update s.detailNeeded i true
      detailRequest := s.detailRequest ++ [i]
      verticesOnce := update s.verticesOnce i true } := by
    refine .step (a := .main) hmark .of_ne ?_
    simp [viewer, State.step, State.mainStep, State.drawStep, hs.tex i hi, hs.vertices i hi]
  have hunload : ReachedUndisturbed n { s with
      main := .drawing .points i true rest
      detailNeeded := update s.detailNeeded i true
      detailRequest := s.detailRequest ++ [i]
      verticesOnce := update s.verticesOnce i true } := by
    refine .step (a := .main) hquad .of_ne ?_
    simp [viewer, State.step, State.mainStep, State.drawStep, hs.vertices i hi]
  have hpoints : ReachedUndisturbed n { s with
      main := .blocks true rest
      detailNeeded := update s.detailNeeded i true
      detailRequest := s.detailRequest ++ [i]
      verticesOnce := update s.verticesOnce i true } := .step (a := .main) hunload .of_ne rfl
  refine ⟨_, hpoints, ?_, rfl⟩
  constructor
  · exact hs.reader
  · exact hs.consumer
  · exact hs.work
  · exact hs.blocks
  · exact hs.tex
  · exact hs.vertices
  · intro k hk
    show update s.verticesOnce i true k = false
    rw [update_of_ne (by omega)]
    exact hs.marks k (Nat.le_of_succ_le hk)
  · show (s.detailRequest ++ [i]).length = i + 1
    rw [List.length_append, hs.details]
    rfl

/-- A frame that starts at the `i`-th of `m` blocks and is less than a block wide. -/
theorem indices_narrow (hi : i < m) : (drawRange (i * nperblock) 40960 m).detailed = true ∧
    (drawRange (i * nperblock) 40960 m).indices =
      if i + 1 < m then [(i : Int), ((i + 1 : Nat) : Int)] else [(i : Int)] := by
  have hpos : nperblock ≠ 0 := by decide
  have hwidth : Int.tdiv 40960 nperblock = 0 := by decide
  have hstart : ¬ (i : Int) < 0 := by omega
  have htwo : ¬ (0 + 2 : Int) < 1 := by omega
  simp only [DrawRange.indices, drawRange, Int.mul_tdiv_cancel _ hpos, hwidth, if_neg hstart,
    if_neg htwo]
  by_cases hnext : i + 1 < m
  · have hcount : (if (i : Int) + (0 + 2) ≥ m then (m : Int) - i else 0 + 2) = 2 := by
      split_ifs <;> omega
    rw [hcount, if_pos hnext]
    refine ⟨rfl, ?_⟩
    simp [ints, List.range_succ]
  · have hcount : (if (i : Int) + (0 + 2) ≥ m then (m : Int) - i else 0 + 2) = 1 := by
      split_ifs <;> omega
    rw [hcount, if_neg hnext]
    refine ⟨rfl, ?_⟩
    simp [ints, List.range_succ]

/-- A narrow frame requests two blocks. -/
theorem exists_frame (h : ReachedUndisturbed n s) (hs : Waiting m i s) (hmain : s.main = .frame)
    (hi : i + 1 < m) (hroom : i + 1 < detailRequestCap) :
    ∃ s', ReachedUndisturbed n s' ∧ Waiting m (i + 2) s' ∧ s'.main = .frame := by
  obtain ⟨hdetailed, hindices⟩ := indices_narrow (i := i) (m := m) (by omega)
  rw [if_pos hi] at hindices
  have hblocks : s.blocks.length = m := by rw [hs.blocks, List.length_range]
  have hdraw : ReachedUndisturbed n { s with
      main := .blocks true [(i : Int), ((i + 1 : Nat) : Int)] } := by
    refine .step (a := .draw (i * nperblock) 40960) h .of_ne ?_
    simp only [viewer, State.step, if_pos hmain, hblocks, hdetailed, hindices]
  have hwait : Waiting m i { s with main := .blocks true [(i : Int), ((i + 1 : Nat) : Int)] } :=
    ⟨hs.reader, hs.consumer, hs.work, hs.blocks, hs.tex, hs.vertices, hs.marks, hs.details⟩
  obtain ⟨s₁, h₁, hs₁, hmain₁⟩ := exists_request hdraw hwait rfl (by omega) (by omega)
  obtain ⟨s₂, h₂, hs₂, hmain₂⟩ := exists_request h₁ hs₁ hmain₁ hi hroom
  have hworking : ReachedUndisturbed n { s₂ with main := .working } := by
    refine .step (a := .main) h₂ .of_ne ?_
    simp [viewer, State.step, State.mainStep, hmain₂]
  have hframe : ReachedUndisturbed n { s₂ with main := .frame } :=
    .step (a := .endWork) hworking .of_ne rfl
  exact ⟨_, hframe, ⟨hs₂.reader, hs₂.consumer, hs₂.work, hs₂.blocks, hs₂.tex, hs₂.vertices,
    hs₂.marks, hs₂.details⟩, rfl⟩

/-- Narrow frames one after the other fill the channel of requests. -/
theorem exists_requests (m j : Nat) (hj : 2 * j ≤ detailRequestCap) (hjm : 2 * j ≤ m)
    (hm : m + 7 ≤ n) :
    ∃ s, ReachedUndisturbed n s ∧ Waiting m (2 * j) s ∧ s.main = .frame := by
  induction j with
  | zero => exact exists_waiting m hm
  | succ j ih =>
    obtain ⟨s, h, hs, hmain⟩ := ih (by omega) (by omega)
    exact exists_frame (i := 2 * j) h hs hmain (by omega) (by omega)

/-- With enough blocks the goroutines wait for each other. -/
theorem exists_cyclicWait (hn : 1008 ≤ n) : ∃ s, ReachedUndisturbed n s ∧ CyclicWait s := by
  obtain ⟨s, h, hs, hmain⟩ := exists_requests (n := n) 1001 500 (by decide) (by decide) (by omega)
  have hblocks : s.blocks.length = 1001 := by rw [hs.blocks, List.length_range]
  obtain ⟨hdetailed, hindices⟩ := indices_narrow (i := 1000) (m := 1001) (by decide)
  rw [if_neg (by decide)] at hindices
  have hdraw : ReachedUndisturbed n { s with main := .blocks true [((1000 : Nat) : Int)] } := by
    refine .step (a := .draw ((1000 : Nat) * nperblock) 40960) h .of_ne ?_
    simp only [viewer, State.step, if_pos hmain, hblocks, hdetailed, hindices]
  have hwait : Waiting 1001 1000 { s with main := .blocks true [((1000 : Nat) : Int)] } :=
    ⟨hs.reader, hs.consumer, hs.work, hs.blocks, hs.tex, hs.vertices, hs.marks, hs.details⟩
  have hsend := reachable_send hdraw hwait rfl (by decide)
  exact ⟨_, hsend, ⟨_, _, _, rfl⟩, ge_of_eq hs.details, hs.reader, hs.consumer, hs.work⟩

end Schedule

/-- No run has a cyclic wait, on any schedule, exactly when the file is too short to fill both
channels. -/
theorem no_cyclicWait_iff (n : Nat) :
    (∀ s, (viewer n).Reachable s → ¬ CyclicWait s) ↔ n ≤ 1007 := by
  constructor
  · intro hnone
    by_contra hn
    obtain ⟨s, h, hwait⟩ := exists_cyclicWait (n := n) (by omega)
    exact hnone s h.reachable hwait
  · intro hn s h hwait
    have hle := (Inv.of_reachable h).le_of_cyclicWait hwait
    omega

/-- With 1008 blocks the viewer can come to a stop for good. -/
theorem viewer_deadlocks : ∃ s, (viewer 1008).Reachable s ∧ CyclicWait s ∧
    ∀ a, (viewer 1008).step a s = none := by
  obtain ⟨s, h, hwait⟩ := exists_cyclicWait (n := 1008) le_rfl
  exact ⟨s, h.reachable, hwait, hwait.stuck⟩

end Mema.Viewer
