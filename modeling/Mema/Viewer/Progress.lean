import Mema.Viewer.Deadlock
import Mema.Viewer.Requests

/-!
# Loading can always be finished

`memaviz/block.go:144–335`, `data.go:130–243` and `main.go:47–61`: apart from the frames the main
thread chooses to draw, each step of a goroutine leaves less to do. Whatever has happened so far,
the goroutines can bring every block of the file onto the screen, unless they come to wait for each
other. The runs are those in which the reader replaces no `Once` that is being marked.
-/

namespace Mema.Viewer

open Function

/-! ### What is left to do -/

def DrawStage.left : DrawStage → Nat
  | .texture => 18
  | .vertices => 11
  | .once => 10
  | .send => 9
  | .mark => 4
  | .quad => 3
  | .unload => 2
  | .points => 1

def BuildStage.left : BuildStage → Nat
  | .newTexture => 4
  | .render => 3
  | .release => 2
  | .reset => 1

/-- A block still to be drawn may ask for its texture, and for its vertices. -/
def MainAt.left : MainAt → Nat
  | .frame => 0
  | .blocks _ rest => 1 + 19 * rest.length
  | .drawing stage _ _ rest => stage.left + (1 + 19 * rest.length)
  | .working => 0
  | .building stage _ => stage.left

def ServeStage.left : ServeStage → Nat
  | .decode => 3
  | .vertices => 2
  | .reset => 1

def ReaderAt.left : ReaderAt → Nat
  | .drain more => 2 * more.toNat
  | .serve stage _ more => stage.left + 2 * more.toNat
  | .read => 1
  | .send _ => 13

def ConsumerAt.left : ConsumerAt → Nat
  | .receive => 0
  | .lift _ => 10
  | .texture _ => 9
  | .publish _ => 2

def Work.left : Work → Nat
  | .publish _ => 1
  | .texture _ => 5

/-- A bound on the steps the goroutines can take before the main thread starts another frame. -/
def State.left (n : Nat) (s : State) : Nat :=
  13 * (n - s.framesRead) + s.main.left + s.reader.left + s.consumer.left +
    6 * s.textureRequests.length + (s.mainThreadWork.map Work.left).sum +
    4 * s.detailRequest.length

/-- The step is neither the start of a frame nor the end of its work, and not the reader finding
no request when the file is at its end. -/
def State.Advances (s : State) : Action → Prop
  | .draw _ _ => False
  | .endWork => False
  | .reader => s.reader ≠ .drain false ∨ s.detailRequest ≠ []
  | _ => True

section Steps

variable {n : Nat} {s t : State}

/-- Asking for a texture takes a step of the goroutine that is started. -/
theorem left_requestTexture (n : Nat) (s : State) (k : Nat) :
    (s.requestTexture k).left n ≤ s.left n + 6 := by
  rw [State.requestTexture]
  split
  · exact Nat.le_add_right ..
  · simp only [State.left, List.length_append, List.length_singleton]
    omega

/-- Moving the main thread changes what it has left. -/
theorem left_move (n : Nat) (s : State) (m : MainAt) :
    { s with main := m }.left n + s.main.left = s.left n + m.left := by
  simp only [State.left]
  omega

/-- A step of `Block.Draw` leaves less, with all that it asks for. -/
theorem left_drawStep {stage : DrawStage} {k : Nat} {detailed : Bool} {rest : List Int}
    (hmain : s.main = .drawing stage k detailed rest)
    (ht : s.drawStep stage k detailed rest = some t) : t.left n < s.left n := by
  have hleft := congrArg MainAt.left hmain
  cases stage with
  | texture =>
    have hrequest := left_requestTexture n s k
    have hmove := left_move n (s.requestTexture k) (.drawing .vertices k detailed rest)
    have hstay := left_move n s (.drawing .vertices k detailed rest)
    rw [main_requestTexture] at hmove
    cases ht
    simp only [MainAt.left, DrawStage.left] at hleft hmove hstay
    split <;> omega
  | vertices =>
    cases ht
    simp only [State.left, hmain, MainAt.left]
    split <;> simp only [DrawStage.left] <;> omega
  | once =>
    cases ht
    simp only [State.left, hmain, MainAt.left]
    split <;> simp only [DrawStage.left] <;> omega
  | send =>
    simp only [State.drawStep, Option.ite_none_right_eq_some, Option.some.injEq] at ht
    obtain ⟨-, rfl⟩ := ht
    simp only [State.left, hmain, MainAt.left, DrawStage.left, List.length_append,
      List.length_singleton]
    omega
  | mark =>
    cases ht
    simp only [State.left, hmain, MainAt.left, DrawStage.left]
    omega
  | quad =>
    cases ht
    simp only [State.left, hmain, MainAt.left]
    split <;> simp only [DrawStage.left] <;> omega
  | unload =>
    cases ht
    simp only [State.left, hmain, MainAt.left, DrawStage.left]
    omega
  | points =>
    cases ht
    simp only [State.left, hmain, MainAt.left, DrawStage.left]
    omega

/-- So does one of `BuildTexture`. -/
theorem left_buildStep {stage : BuildStage} {k : Nat} (hmain : s.main = .building stage k)
    (ht : s.buildStep stage k = .ok t) : t.left n < s.left n := by
  cases stage with
  | newTexture =>
    cases ht
    simp only [State.left, hmain, MainAt.left, BuildStage.left]
    omega
  | render =>
    simp only [State.buildStep] at ht
    split at ht <;> cases ht
    simp only [State.left, hmain, MainAt.left, BuildStage.left]
    omega
  | release =>
    cases ht
    simp only [State.left, hmain, MainAt.left, BuildStage.left]
    omega
  | reset =>
    cases ht
    simp only [State.left, hmain, MainAt.left, BuildStage.left]
    omega

/-- Every step of the main thread inside a frame leaves less. -/
theorem left_mainStep (ht : s.mainStep = some (.ok t)) : t.left n < s.left n := by
  rw [State.mainStep] at ht
  split at ht
  · cases ht
  · next hmain =>
    cases ht
    simp only [State.left, hmain, MainAt.left]
    omega
  · next hmain =>
    split at ht
    · cases ht
    · cases ht
      simp only [State.left, hmain, MainAt.left, DrawStage.left, List.length_cons]
      omega
  · next hmain => exact left_drawStep hmain (Machine.eq_some_of_map_ok ht)
  · next hmain =>
    split at ht
    · cases ht
    · next hwork =>
      cases ht
      simp only [State.left, hmain, hwork, List.map_cons, List.sum_cons, Work.left]
      omega
    · next hwork =>
      cases ht
      simp only [State.left, hmain, hwork, List.map_cons, List.sum_cons, Work.left, MainAt.left,
        BuildStage.left]
      omega
  · next hmain =>
    exact left_buildStep hmain (Option.some.inj ht)

/-- So does every step of the reader that does something. -/
theorem left_readerStep (hs : s.reader ≠ .drain false ∨ s.detailRequest ≠ [])
    (ht : s.readerStep n = some t) : t.left n < s.left n := by
  rw [State.readerStep] at ht
  split at ht
  · next more hreader =>
    split at ht
    · next k rest hrequests =>
      cases ht
      simp only [State.left, hreader, hrequests, ReaderAt.left, ServeStage.left, List.length_cons]
      omega
    · next hrequests =>
      have hmore : more = true := by
        by_contra hmore
        rw [Bool.not_eq_true] at hmore
        rw [hmore] at hreader
        exact hs.elim (· hreader) (· hrequests)
      rw [hmore, if_pos rfl] at ht
      cases ht
      simp only [State.left, hreader, hmore, ReaderAt.left, Bool.toNat_true]
      omega
  · next hreader =>
    cases ht
    simp only [State.left, hreader, ReaderAt.left, ServeStage.left]
    omega
  · next hreader =>
    cases ht
    simp only [State.left, hreader, ReaderAt.left, ServeStage.left]
    omega
  · next hreader =>
    cases ht
    simp only [State.left, hreader, ReaderAt.left, ServeStage.left]
    omega
  · next hreader =>
    split at ht <;> cases ht <;>
      simp only [State.left, hreader, ReaderAt.left, Bool.toNat_false] <;> omega
  · cases ht

theorem left_consumerStep (ht : s.consumerStep = some t) : t.left n < s.left n := by
  rw [State.consumerStep] at ht
  split at ht
  · cases ht
  · next hconsumer =>
    cases ht
    simp only [State.left, hconsumer, ConsumerAt.left]
    omega
  · next k hconsumer =>
    have hrequest := left_requestTexture n s k
    have hstays : (s.requestTexture k).consumer = s.consumer := by
      rw [State.requestTexture]
      split <;> rfl
    cases ht
    simp only [State.left, hstays, hconsumer, ConsumerAt.left] at hrequest ⊢
    omega
  · next hconsumer =>
    rw [Option.ite_none_right_eq_some] at ht
    obtain ⟨-, ht⟩ := ht
    cases ht
    simp only [State.left, hconsumer, ConsumerAt.left, List.map_append, List.sum_append,
      List.map_singleton, List.sum_singleton, Work.left]
    omega

/-- What advances leaves less to do. -/
theorem left_step {a : Action} (ha : s.Advances a) (ht : s.step n a = some (.ok t)) :
    t.left n < s.left n := by
  cases a with
  | draw startIndex m => exact ha.elim
  | main => exact left_mainStep ht
  | endWork => exact ha.elim
  | reader => exact left_readerStep ha (Machine.eq_some_of_map_ok ht)
  | newBlock =>
    simp only [State.step] at ht
    split at ht
    · next hreader hconsumer =>
      cases ht
      simp only [State.left, hreader, hconsumer, ReaderAt.left, ConsumerAt.left, Bool.toNat_true]
      omega
    · cases ht
  | consumer => exact left_consumerStep (Machine.eq_some_of_map_ok ht)
  | textureRequest k =>
    rw [State.step, Option.ite_none_right_eq_some] at ht
    obtain ⟨⟨hk, -⟩, ht⟩ := ht
    cases ht
    have hpos := List.length_pos_of_mem hk
    simp only [State.left, List.length_erase_of_mem hk, List.map_append, List.sum_append,
      List.map_singleton, List.sum_singleton, Work.left]
    omega

end Steps

/-! ### What is asked for stays asked for -/

/-- Whether the reader has not seen the end of the file. -/
def ReaderAt.more : ReaderAt → Bool
  | .drain more => more
  | .serve _ _ more => more
  | _ => true

/-- The block has a texture, or has asked for one. -/
def State.Asked (s : State) (k : Nat) : Prop := s.tex k = true ∨ s.textureOnce k = true

/-- The reader has stopped at the end of the file only, and lifted blocks have asked for their
textures. -/
structure Loading (n : Nat) (s : State) : Prop where
  ended : s.reader.more = false → n ≤ s.framesRead
  asked : ∀ k ∈ s.lifted, s.Asked k

section Keeping

variable {n : Nat} {s t : State}

theorem asked_requestTexture (s : State) (k : Nat) :
    (s.requestTexture k).textureOnce k = true ∧
      ∀ j, s.Asked j → (s.requestTexture k).Asked j := by
  rw [State.requestTexture]
  split
  · next honce => exact ⟨honce, fun j hj ↦ hj⟩
  · refine ⟨update_self .., fun j hj ↦ hj.imp id fun hj ↦ ?_⟩
    exact update_true k hj

theorem lifted_requestTexture (s : State) (k : Nat) : (s.requestTexture k).lifted = s.lifted := by
  rw [State.requestTexture]
  split <;> rfl

/-- What asked for a texture before a step has done so after it. -/
structure Keeps (s t : State) : Prop where
  reader : t.reader = s.reader
  framesRead : t.framesRead = s.framesRead
  lifted : ∀ k ∈ t.lifted, k ∈ s.lifted
  asked : ∀ k, s.Asked k → t.Asked k

/-- A step that leaves all of this alone. -/
theorem Keeps.of_eq (hreader : t.reader = s.reader) (hread : t.framesRead = s.framesRead)
    (hlifted : t.lifted = s.lifted) (hasked : t.Asked = s.Asked) : Keeps s t where
  reader := hreader
  framesRead := hread
  lifted k hk := by rwa [hlifted] at hk
  asked k hk := by rwa [hasked]

theorem Loading.keep (h : Loading n s) (hkeep : Keeps s t) : Loading n t where
  ended := by
    rw [hkeep.reader, hkeep.framesRead]
    exact h.ended
  asked k hk := hkeep.asked k (h.asked k (hkeep.lifted k hk))

theorem keeps_requestTexture (s : State) (k : Nat) : Keeps s (s.requestTexture k) where
  reader := reader_requestTexture s k
  framesRead := by
    rw [State.requestTexture]
    split <;> rfl
  lifted j hj := by rwa [lifted_requestTexture] at hj
  asked := (asked_requestTexture s k).2

theorem keeps_drawStep {stage : DrawStage} {k : Nat} {detailed : Bool} {rest : List Int}
    (ht : s.drawStep stage k detailed rest = some t) : Keeps s t := by
  cases stage with
  | texture =>
    have hkeep := keeps_requestTexture s k
    cases ht
    split
    · exact .of_eq rfl rfl rfl rfl
    · exact ⟨hkeep.reader, hkeep.framesRead, hkeep.lifted, hkeep.asked⟩
  | send =>
    simp only [State.drawStep, Option.ite_none_right_eq_some, Option.some.injEq] at ht
    obtain ⟨-, rfl⟩ := ht
    exact .of_eq rfl rfl rfl rfl
  | _ =>
    cases ht
    exact .of_eq rfl rfl rfl rfl

theorem keeps_buildStep (h : Inv n s) {stage : BuildStage} {k : Nat}
    (hmain : s.main = .building stage k) (ht : s.buildStep stage k = .ok t) : Keeps s t := by
  cases stage with
  | newTexture =>
    cases ht
    refine ⟨rfl, rfl, fun _ hj ↦ hj, fun j hj ↦ hj.imp (fun htex ↦ ?_) id⟩
    exact update_true k htex
  | render =>
    simp only [State.buildStep] at ht
    split at ht <;> cases ht
    exact .of_eq rfl rfl rfl rfl
  | release =>
    cases ht
    exact .of_eq rfl rfl rfl rfl
  | reset =>
    have hok := h.main
    rw [hmain] at hok
    cases ht
    refine ⟨rfl, rfl, fun _ hj ↦ hj, fun j hj ↦ ?_⟩
    by_cases hjk : j = k
    · rw [hjk]
      exact .inl (hok.2 (by decide))
    · refine hj.imp id fun honce ↦ ?_
      show update s.textureOnce k false j = true
      rw [update_of_ne hjk]
      exact honce

theorem keeps_mainStep (h : Inv n s) (ht : s.mainStep = some (.ok t)) : Keeps s t := by
  rw [State.mainStep] at ht
  split at ht
  · cases ht
  · cases ht
    exact .of_eq rfl rfl rfl rfl
  · split at ht
    · cases ht
    · cases ht
      exact .of_eq rfl rfl rfl rfl
  · exact keeps_drawStep (Machine.eq_some_of_map_ok ht)
  · split at ht
    · cases ht
    · next k work hwork =>
      cases ht
      refine ⟨rfl, rfl, fun j hj ↦ ?_, fun _ hj ↦ hj⟩
      simp only [State.lifted, State.publishing, hwork, List.filterMap_cons, Work.published,
        List.mem_append, List.mem_cons] at hj ⊢
      tauto
    · next k work hwork =>
      cases ht
      refine ⟨rfl, rfl, fun j hj ↦ ?_, fun _ hj ↦ hj⟩
      simpa only [State.lifted, State.publishing, hwork, List.filterMap_cons, Work.published]
        using hj
  · next hmain => exact keeps_buildStep h hmain (Option.some.inj ht)

theorem Loading.readerStep (h : Loading n s) (ht : s.readerStep n = some t) : Loading n t := by
  have hasked := h.asked
  have hended := h.ended
  rw [State.readerStep] at ht
  split at ht
  · next more hreader =>
    rw [hreader] at hended
    split at ht
    · cases ht
      exact ⟨hended, hasked⟩
    · split at ht
      · cases ht
        exact ⟨fun hmore ↦ Bool.noConfusion hmore, hasked⟩
      · cases ht
        exact h
  · next hreader =>
    rw [hreader] at hended
    cases ht
    exact ⟨hended, hasked⟩
  · next hreader =>
    rw [hreader] at hended
    cases ht
    exact ⟨hended, hasked⟩
  · next hreader =>
    rw [hreader] at hended
    cases ht
    exact ⟨hended, hasked⟩
  · split at ht
    · cases ht
      exact ⟨fun hmore ↦ Bool.noConfusion hmore, hasked⟩
    · next hend =>
      cases ht
      exact ⟨fun _ ↦ not_lt.mp hend, hasked⟩
  · cases ht

theorem Loading.consumerStep (h : Loading n s) (ht : s.consumerStep = some t) : Loading n t := by
  rw [State.consumerStep] at ht
  split at ht
  · cases ht
  · next hconsumer =>
    cases ht
    refine ⟨h.ended, fun j hj ↦ h.asked j ?_⟩
    simpa only [State.lifted, State.publishing, hconsumer, ConsumerAt.lifted] using hj
  · next k hconsumer =>
    have hloading := h.keep (keeps_requestTexture s k)
    cases ht
    refine ⟨hloading.ended, fun j hj ↦ ?_⟩
    rcases List.mem_append.mp hj with hj | hj
    · exact hloading.asked j (List.mem_append_left _ hj)
    · rw [List.mem_singleton.mp hj]
      exact .inr (asked_requestTexture s k).1
  · next k hconsumer =>
    rw [Option.ite_none_right_eq_some] at ht
    obtain ⟨-, ht⟩ := ht
    cases ht
    refine ⟨h.ended, fun j hj ↦ h.asked j ?_⟩
    simpa [State.lifted, State.publishing, hconsumer, ConsumerAt.lifted, Work.published] using hj

theorem Loading.step (hinv : Inv n s) (h : Loading n s) {a : Action}
    (ht : s.step n a = some (.ok t)) : Loading n t := by
  cases a with
  | draw startIndex m =>
    rw [State.step] at ht
    split at ht <;> cases ht
    exact ⟨h.ended, h.asked⟩
  | main => exact h.keep (keeps_mainStep hinv ht)
  | endWork =>
    rw [State.step] at ht
    split at ht <;> cases ht
    exact ⟨h.ended, h.asked⟩
  | reader => exact h.readerStep (Machine.eq_some_of_map_ok ht)
  | newBlock =>
    simp only [State.step] at ht
    split at ht
    · next hreader hconsumer =>
      cases ht
      refine ⟨fun hmore ↦ Bool.noConfusion hmore, fun j hj ↦ h.asked j ?_⟩
      simpa only [State.lifted, State.publishing, hconsumer, ConsumerAt.lifted] using hj
    · cases ht
  | consumer => exact h.consumerStep (Machine.eq_some_of_map_ok ht)
  | textureRequest k =>
    rw [State.step, Option.ite_none_right_eq_some] at ht
    obtain ⟨-, ht⟩ := ht
    cases ht
    refine ⟨h.ended, fun j hj ↦ h.asked j ?_⟩
    simpa [State.lifted, State.publishing, Work.published] using hj

theorem Loading.of_reachable (h : (viewer n).Reachable s) : Loading n s := by
  induction h with
  | start h =>
    cases h
    exact ⟨nofun, nofun⟩
  | step h hs ih => exact ih.step (Inv.of_reachable h) hs

end Keeping

/-! ### Loading -/

/-- Every block of the file is published, in the file's order, and textured once; nothing is on
its way. -/
structure Loaded (n : Nat) (s : State) : Prop where
  blocks : s.blocks = List.range n
  textured : ∀ k < n, s.tex k = true ∧ s.textureBuilds k = 1
  reader : s.reader = .drain false
  consumer : s.consumer = .receive
  requests : s.textureRequests = []
  details : s.detailRequest = []
  work : s.mainThreadWork = []

/-- No goroutine can advance. -/
def Stuck (n : Nat) (s : State) : Prop := ∀ a, s.Advances a → s.step n a = none

section Loading

variable {n : Nat} {s : State}

/-- The reader is stuck with a block nobody takes, or at the end of the file. -/
theorem Stuck.reader (h : Stuck n s) :
    (∃ k, s.reader = .send k) ∨ s.reader = .drain false ∧ s.detailRequest = [] := by
  have hstep := h .reader
  rw [State.Advances, State.step, Option.map_eq_none_iff, State.readerStep] at hstep
  by_contra hwait
  rw [not_or, not_exists, not_and_or] at hwait
  have hnone := hstep hwait.2
  split at hnone
  · next more hreader =>
    split at hnone
    · cases hnone
    · split at hnone <;> cases hnone
  · cases hnone
  · cases hnone
  · cases hnone
  · split at hnone <;> cases hnone
  · next k hreader => exact hwait.1 k hreader

/-- The consumer is stuck without a block, or with one it cannot queue. -/
theorem Stuck.consumer (h : Stuck n s) : s.consumer = .receive ∨
    (∃ k, s.consumer = .publish k) ∧ mainThreadWorkCap ≤ s.mainThreadWork.length := by
  have hnone := h .consumer trivial
  rw [State.step, Option.map_eq_none_iff, State.consumerStep] at hnone
  split at hnone
  · next hconsumer => exact .inl hconsumer
  · cases hnone
  · cases hnone
  · next k hconsumer =>
    split at hnone
    · cases hnone
    · next hfull => exact .inr ⟨⟨k, hconsumer⟩, not_lt.mp hfull⟩

/-- They are not stuck with each other. -/
theorem Stuck.newBlock (h : Stuck n s) {k : Nat} (hreader : s.reader = .send k) :
    s.consumer ≠ .receive := by
  intro hconsumer
  have hnone := h .newBlock trivial
  simp only [State.step, hreader, hconsumer] at hnone
  cases hnone

/-- Requests for textures are stuck when the queue is full. -/
theorem Stuck.requests (h : Stuck n s) : s.textureRequests = [] ∨
    mainThreadWorkCap ≤ s.mainThreadWork.length := by
  cases hrequests : s.textureRequests with
  | nil => exact .inl rfl
  | cons k rest =>
    right
    by_contra hroom
    have hnone := h (.textureRequest k) trivial
    have hmem : k ∈ s.textureRequests := by
      rw [hrequests]
      exact List.mem_cons_self
    rw [State.step, if_pos ⟨hmem, not_le.mp hroom⟩] at hnone
    cases hnone

/-- The main thread is stuck between frames, without work, or with a request it cannot send. -/
theorem Stuck.main (h : Stuck n s) : s.main = .frame ∨
    s.main = .working ∧ s.mainThreadWork = [] ∨
    (∃ k detailed rest, s.main = .drawing .send k detailed rest) ∧
      detailRequestCap ≤ s.detailRequest.length := by
  have hnone : s.mainStep = none := h .main trivial
  rw [State.mainStep] at hnone
  split at hnone
  · next hmain => exact .inl hmain
  · cases hnone
  · split at hnone <;> cases hnone
  · next stage k detailed rest hmain =>
    rw [Option.map_eq_none_iff] at hnone
    cases stage with
    | send =>
      rw [State.drawStep] at hnone
      split at hnone
      · cases hnone
      · next hfull => exact .inr (.inr ⟨⟨k, detailed, rest, hmain⟩, not_lt.mp hfull⟩)
    | _ => cases hnone
  · next hmain =>
    split at hnone
    · next hwork => exact .inr (.inl ⟨hmain, hwork⟩)
    · cases hnone
    · cases hnone
  · cases hnone

/-- When everything is idle, everything is loaded. -/
theorem Loading.loaded (h : Loading n s) (hinv : Inv n s) (hmain : s.main.built = [])
    (hreader : s.reader = .drain false) (hconsumer : s.consumer = .receive)
    (hrequests : s.textureRequests = []) (hdetails : s.detailRequest = [])
    (hwork : s.mainThreadWork = []) : Loaded n s := by
  have hread : s.framesRead = n := by
    have hended := h.ended (by rw [hreader]; rfl)
    exact le_antisymm hinv.bound hended
  have hpublishing : s.publishing = [] := by rw [State.publishing, hwork]; rfl
  have htexturing : s.texturing = [] := by rw [State.texturing, hwork]; rfl
  have hlifted : s.lifted = s.blocks := by
    rw [State.lifted, hpublishing, hconsumer, List.append_nil]
    exact List.append_nil _
  have hblocks : s.blocks = List.range n := by
    have horder := hinv.order
    rw [hlifted, hconsumer, hreader, hread] at horder
    simpa only [ConsumerAt.lifting, ReaderAt.sending, List.append_nil] using horder
  have htex : ∀ k < n, s.tex k = true := by
    intro k hk
    have hmem : k ∈ s.lifted := by
      rw [hlifted, hblocks]
      exact List.mem_range.mpr hk
    refine (h.asked k hmem).resolve_right fun honce ↦ ?_
    have hcount := hinv.once k
    rw [hrequests, htexturing, hmain, honce] at hcount
    cases hcount
  refine ⟨hblocks, fun k hk ↦ ⟨htex k hk, ?_⟩, hreader, hconsumer, hrequests, hdetails, hwork⟩
  rw [hinv.builds k, htex k hk]
  rfl

/-- Goroutines that are stuck with no work in the queue have loaded the file. -/
theorem Stuck.loaded (h : Stuck n s) (hinv : Inv n s) (hloading : Loading n s)
    (hmain : s.main.built = []) (hwork : s.mainThreadWork = []) : Loaded n s := by
  have hroom : ¬ mainThreadWorkCap ≤ s.mainThreadWork.length := by
    rw [hwork]
    decide
  have hconsumer := h.consumer.resolve_right fun hfull ↦ hroom hfull.2
  have hrequests := h.requests.resolve_right hroom
  obtain ⟨hreader, hdetails⟩ := h.reader.resolve_left fun ⟨k, hreader⟩ ↦
    h.newBlock hreader hconsumer
  exact hloading.loaded hinv hmain hreader hconsumer hrequests hdetails hwork

/-- Stuck with a request that cannot be sent, they all wait for each other. -/
theorem Stuck.cyclicWait (h : Stuck n s)
    (hmain : ∃ k detailed rest, s.main = .drawing .send k detailed rest)
    (hfull : detailRequestCap ≤ s.detailRequest.length) : CyclicWait s := by
  have hreader : ∃ k, s.reader = .send k := by
    refine h.reader.resolve_right fun hidle ↦ ?_
    rw [hidle.2] at hfull
    exact absurd hfull (by decide)
  obtain ⟨k, hk⟩ := hreader
  obtain ⟨hconsumer, hwork⟩ := h.consumer.resolve_left (h.newBlock hk)
  exact ⟨hmain, hfull, ⟨k, hk⟩, hconsumer, hwork⟩

/-- Goroutines that are stuck have loaded the file, wait for each other, or wait for a frame. -/
theorem Stuck.cases (h : Stuck n s) (hinv : Inv n s) (hloading : Loading n s) :
    Loaded n s ∨ CyclicWait s ∨ s.main = .frame ∧ s.mainThreadWork ≠ [] := by
  rcases h.main with hmain | ⟨hmain, hwork⟩ | ⟨hmain, hfull⟩
  · by_cases hwork : s.mainThreadWork = []
    · exact .inl (h.loaded hinv hloading (by rw [hmain]; rfl) hwork)
    · exact .inr (.inr ⟨hmain, hwork⟩)
  · exact .inl (h.loaded hinv hloading (by rw [hmain]; rfl) hwork)
  · exact .inr (.inl (h.cyclicWait hmain hfull))

/-- A frame behind the last block draws nothing. -/
theorem indices_behind (loaded : Nat) :
    (drawRange (loaded * nperblock) 0 loaded).indices = [] := by
  rw [List.eq_nil_iff_forall_not_mem]
  intro i hi
  rw [DrawRange.indices, mem_ints, nBlocks_drawRange le_rfl, startBlock_drawRange,
    Int.mul_ediv_cancel _ (by decide)] at hi
  omega

/-- Such a frame gets to the queued work. -/
theorem reach_working (hmain : s.main = .frame) :
    Relation.ReflTransGen ((viewer n).StepBy Undisturbed) s { s with main := .working } := by
  have hdraw : (viewer n).step (.draw (s.blocks.length * nperblock) 0) s = some (.ok { s with
      main := .blocks
        (drawRange (s.blocks.length * nperblock) 0 s.blocks.length).detailed [] }) := by
    simp only [viewer, State.step, if_pos hmain, indices_behind]
  exact .tail (.single ⟨_, .of_ne, hdraw⟩) ⟨.main, .of_ne, rfl⟩

/-- A goroutine that can advance leads to a state with less left. -/
theorem exists_less_of_advances (h : (viewer n).Reachable s) {a : Action} (hcond : Undisturbed a s)
    (ha : s.Advances a) (hstep : s.step n a ≠ none) :
    ∃ t, (viewer n).StepBy Undisturbed s t ∧ t.left n < s.left n := by
  obtain ⟨r, hr⟩ := Option.ne_none_iff_exists'.mp hstep
  obtain ⟨t, rfl, -⟩ := (Inv.of_reachable h).step hr
  exact ⟨t, ⟨a, hcond, hr⟩, left_step ha hr⟩

/-- Before a disturbance the main thread can set its mark. -/
theorem step_marking {k : Nat} (hmark : s.main.marking = some k) : s.step n .main ≠ none := by
  show s.mainStep ≠ none
  unfold MainAt.marking at hmark
  split at hmark
  · next j detailed rest hmain =>
    rw [State.mainStep, hmain]
    exact Option.some_ne_none _
  · cases hmark

/-- When some goroutine can advance, one can without disturbing another. -/
theorem exists_undisturbed {a : Action} (ha : s.Advances a) (hstep : s.step n a ≠ none) :
    ∃ b, Undisturbed b s ∧ s.Advances b ∧ s.step n b ≠ none := by
  by_cases hcond : Undisturbed a s
  · exact ⟨a, hcond, ha, hstep⟩
  · simp only [Undisturbed, not_forall, not_not] at hcond
    obtain ⟨-, k, more, -, hmark⟩ := hcond
    exact ⟨.main, .of_ne, trivial, step_marking hmark⟩

/-- Short of a loaded file and of a cyclic wait, some schedule leaves less to do. -/
theorem exists_less (h : ReachedUndisturbed n s) (hgoal : ¬ (Loaded n s ∨ CyclicWait s)) :
    ∃ t, Relation.ReflTransGen ((viewer n).StepBy Undisturbed) s t ∧ t.left n < s.left n := by
  by_cases hstuck : Stuck n s
  · -- Only the main thread can go on, with a frame and then the first of the queued work.
    obtain ⟨hmain, hwork⟩ : s.main = .frame ∧ s.mainThreadWork ≠ [] := by
      have hcases := hstuck.cases (Inv.of_reachable h.reachable) (Loading.of_reachable h.reachable)
      tauto
    have hworking := reach_working (n := n) hmain
    have hadvances : State.step n .main { s with main := .working } ≠ none := by
      show State.mainStep { s with main := .working } ≠ none
      obtain ⟨w, work, hw⟩ := List.exists_cons_of_ne_nil hwork
      rw [State.mainStep, hw]
      cases w <;> exact Option.some_ne_none _
    obtain ⟨t, hstep, hlt⟩ :=
      exists_less_of_advances (h.trans hworking).reachable (a := .main) .of_ne trivial hadvances
    refine ⟨t, hworking.tail hstep, ?_⟩
    have hmove := left_move n s .working
    rw [hmain] at hmove
    exact hlt.trans_eq hmove
  · obtain ⟨a, ha, hstep⟩ : ∃ a, s.Advances a ∧ s.step n a ≠ none := by
      simpa only [Stuck, not_forall, exists_prop] using hstuck
    obtain ⟨b, hcond, hb, hstep⟩ := exists_undisturbed ha hstep
    obtain ⟨t, ht, hlt⟩ := exists_less_of_advances h.reachable hcond hb hstep
    exact ⟨t, .single ht, hlt⟩

/-- From every state undisturbed steps load the file or end in a cyclic wait. -/
theorem exists_loaded_or_cyclicWait (h : ReachedUndisturbed n s) :
    ∃ t, Relation.ReflTransGen ((viewer n).StepBy Undisturbed) s t ∧
      (Loaded n t ∨ CyclicWait t) := by
  refine Machine.exists_reach_of_lt (State.left n) (fun s h hgoal ↦ ?_) h
  obtain ⟨t, hsteps, hlt⟩ := exists_less h hgoal
  exact ⟨t, hsteps, h.trans hsteps, hlt⟩

/-- A cyclic wait lasts. -/
theorem CyclicWait.lasts (h : CyclicWait s) {t : State}
    (hsteps : Relation.ReflTransGen ((viewer n).StepBy Undisturbed) s t) : t = s := by
  rcases hsteps.cases_head with rfl | ⟨s', ⟨a, -, hs⟩, -⟩
  · rfl
  · exact absurd (hs.symm.trans (h.stuck a)) (Option.some_ne_none _)

end Loading

/-- Whatever the goroutines have done without disturbing each other, undisturbed steps lead on to
where every block is published in order, each with a texture built once, or to the cyclic wait;
they can always do the former exactly when the file is too short to fill both channels. -/
theorem always_loadable_iff (n : Nat) :
    (∀ s, (viewer n).ReachableBy Undisturbed s →
      ∃ t, Relation.ReflTransGen ((viewer n).StepBy Undisturbed) s t ∧
        (Loaded n t ∨ CyclicWait t)) ∧
    ((∀ s, (viewer n).ReachableBy Undisturbed s →
      ∃ t, Relation.ReflTransGen ((viewer n).StepBy Undisturbed) s t ∧ Loaded n t) ↔
        n ≤ 1007) := by
  refine ⟨fun s h ↦ exists_loaded_or_cyclicWait h, ?_, ?_⟩
  · intro hload
    by_contra hn
    obtain ⟨s, h, hwait⟩ := exists_cyclicWait (n := n) (by omega)
    obtain ⟨t, hsteps, ht⟩ := hload s h
    rw [hwait.lasts hsteps] at ht
    obtain ⟨k, hk⟩ := hwait.reader
    rw [ht.reader] at hk
    cases hk
  · intro hn s h
    obtain ⟨t, hsteps, ht⟩ := exists_loaded_or_cyclicWait h
    refine ⟨t, hsteps, ht.resolve_right fun hwait ↦ ?_⟩
    have hle := (Inv.of_reachable (h.trans hsteps).reachable).le_of_cyclicWait hwait
    omega

end Mema.Viewer
