import Mema.Viewer.Vertices

/-!
# The stack depth a call is drawn at

`GenerateVertices` starts at the length of the block's context and counts calls from there.
Without `-stree` the context stays empty, so every block starts at depth zero.
-/

namespace Mema

open Nesting

/-- Function enters and exits, which are drawn at a stack depth. -/
def Record.IsCall (r : Record) : Prop := r.type = MEMA_FUNC_ENTER ∨ r.type = MEMA_FUNC_EXIT

/-- `stack_depth` when the loop of `GenerateVertices` reaches position `j`. -/
def depthAt (start : Int) (records : List Record) (j : Nat) : Int :=
  (records.take j).foldl nextDepth start

/-- The contexts the consumer hands to the blocks. -/
def contexts {τ : Type} (S : Stree τ) (flags : ViewerFlags) : List Record →
    List (List Record) → Except GoPanic (List (List Record))
  | _, [] => .ok []
  | currentContext, records :: blocks => do
    let (_, context) ← stackContext S flags currentContext records
    let rest ← contexts S flags context blocks
    return currentContext :: rest

/-! ### What is drawn -/

/-- A call is drawn at its depth, in one colour or the other. -/
theorem recordVertex_call {F : Rounding} {flags : ViewerFlags} {regions : Regions} {pos : Nat}
    {stackDepth : Int} {rec : Record} {vertex : Option Vertex}
    (h : recordVertex F flags regions pos stackDepth rec = .ok vertex) (hcall : rec.IsCall) :
    ∃ colour, vertex =
      some ⟨some (depthX F (drawDepth stackDepth rec)), F.round pos, colour⟩ := by
  rcases hcall with he | hx
  · rw [recordVertex, if_neg (by rw [he]; decide), if_pos he] at h
    cases h
    exact ⟨_, rfl⟩
  · rw [recordVertex, if_neg (by rw [hx]; decide), if_neg (by rw [hx]; decide), if_pos hx] at h
    cases h
    exact ⟨_, rfl⟩

/-- Every call in a drawn block has its vertex at the depth the loop has reached. -/
theorem generateLoop_call {F : Rounding} {flags : ViewerFlags} {regions : Regions} {n pos : Nat}
    {start : Int} {records : List Record} {vs : List Vertex}
    (h : generateLoop F flags regions n pos start records = .ok vs) {j : Nat} (hn : j < n)
    (hj : j < records.length) (hcall : records[j].IsCall) :
    ∃ v ∈ vs, v.y = F.round (pos + j : Nat) ∧
      v.x = some (depthX F (drawDepth (depthAt start records j) records[j])) := by
  induction n generalizing pos start records vs j with
  | zero => omega
  | succ n ih =>
    cases records with
    | nil => simp at hj
    | cons r records =>
      obtain ⟨vertex, hvertex, h⟩ := ok_of_bind h
      obtain ⟨vertices, hrest, h⟩ := ok_of_bind h
      cases h
      cases j with
      | zero =>
        obtain ⟨colour, rfl⟩ := recordVertex_call hvertex hcall
        exact ⟨_, List.mem_append_left _ (List.mem_singleton_self _), rfl, rfl⟩
      | succ j =>
        obtain ⟨v, hv, hy, hx⟩ := ih hrest (by omega) (by simpa using hj) hcall
        refine ⟨v, List.mem_append_right _ hv, ?_, hx⟩
        rw [hy, Nat.add_assoc, Nat.add_comm 1 j]

/-- The consumer hands these contexts to the blocks it loads. -/
theorem consumeBlocks_contexts {τ : Type} {S : Stree τ} {F : Rounding} {flags : ViewerFlags}
    {context : List Record} {raws : List RawBlock} {blocks : List (Block τ)}
    (h : consumeBlocks S F flags context raws = .ok blocks) :
    contexts S flags context (raws.map RawBlock.records) =
      .ok (blocks.map Block.contextRecords) := by
  induction raws generalizing context blocks with
  | nil =>
    cases h
    rfl
  | cons b raws ih =>
    obtain ⟨⟨block, next⟩, hblock, h⟩ := ok_of_bind h
    obtain ⟨rest, hrest, h⟩ := ok_of_bind h
    cases h
    obtain ⟨⟨tree, context'⟩, hstack, hblock⟩ := ok_of_bind hblock
    obtain ⟨regions, -, hblock⟩ := ok_of_bind hblock
    obtain ⟨vertices, -, hblock⟩ := ok_of_bind hblock
    cases hblock
    simp only [List.map_cons, contexts, hstack, bind, Except.bind, ih hrest]
    rfl

/-! ### The replay of the stream -/

/-- The depth of a call in the replay of the stream before it: an enter counts itself. -/
def streamDepth (before : List Record) (r : Record) : Int :=
  if r.type = MEMA_FUNC_ENTER then (((openFrames (before ++ [r])).getD []).length : Int)
  else (((openFrames before).getD []).length : Int)

/-- The record `r`, behind `before` in the stream of all blocks, is drawn at `depth`. -/
inductive DrawnAt {τ : Type} (S : Stree τ) (flags : ViewerFlags) (blocks : List (List Record)) :
    List Record → Record → Int → Prop
  | intro {starts : List (List Record)} {k j : Nat} (hk : k < blocks.length)
      (hs : k < starts.length) (hj : j < blocks[k].length)
      (hstarts : contexts S flags [] blocks = .ok starts) :
      DrawnAt S flags blocks ((blocks.take k).flatten ++ blocks[k].take j) blocks[k][j]
        (drawDepth (depthAt starts[k].length blocks[k] j) blocks[k][j])

/-- Displayed depth is continuous: all blocks are processed, every call is drawn at its depth
in the replay of the whole stream, and an enter and its matching exit at the same depth. -/
structure DepthContinuous {τ : Type} (S : Stree τ) (flags : ViewerFlags)
    (blocks : List (List Record)) : Prop where
  processed : ∃ starts, contexts S flags [] blocks = .ok starts ∧ starts.length = blocks.length
  depth : ∀ before r d, DrawnAt S flags blocks before r d → r.IsCall → d = streamDepth before r
  matched : ∀ before enter within exit d d', DrawnAt S flags blocks before enter d →
    DrawnAt S flags blocks (before ++ enter :: within) exit d' →
    enter.type = MEMA_FUNC_ENTER → exit.type = MEMA_FUNC_EXIT →
    openFrames within = some [] → d = d'

section Replay

variable {τ : Type} {S : Stree τ} {flags : ViewerFlags}

theorem length_replay_token {frames frames' : List Record} {r : Record}
    (h : replay frames [r.token] = some frames') :
    nextDepth frames.length r = frames'.length := by
  have hlen := length_replay h
  unfold Record.token at hlen
  unfold nextDepth
  split at hlen
  · next he =>
    rw [if_pos he]
    simp only [leaves, enters] at hlen
    omega
  · next he =>
    rw [if_neg he]
    split at hlen
    · next hx =>
      rw [if_pos hx]
      simp only [leaves, enters] at hlen
      omega
    · next hx =>
      rw [if_neg hx]
      simp only [leaves, enters] at hlen
      omega

/-- The loop's depth follows the replay: it is off by what its start is off. -/
theorem depthAt_replay {frames frames' : List Record} {records : List Record}
    (h : replay frames (records.map Record.token) = some frames') (start : Int) :
    records.foldl nextDepth start = start + (frames'.length - frames.length) := by
  induction records generalizing frames start with
  | nil =>
    cases h
    simp
  | cons r records ih =>
    have hcons : (r :: records).map Record.token = [r.token] ++ records.map Record.token := rfl
    rw [hcons] at h
    obtain ⟨mid, hstep, hrest⟩ := replay_left h
    have hmid := length_replay_token hstep
    have hshift : nextDepth start r = start + (mid.length - frames.length) := by
      rw [← hmid]
      unfold nextDepth
      split
      · omega
      · split <;> omega
    rw [List.foldl_cons, ih hrest, hshift]
    omega

/-- A replayed stream replays every initial part of it. -/
theorem openFrames_left {xs ys : List Record} (h : (openFrames (xs ++ ys)).isSome) :
    ∃ frames, openFrames xs = some frames := by
  rw [openFrames, List.map_append, replay_append] at h
  exact Option.isSome_iff_exists.mp (Option.isSome_of_isSome_bind h)

theorem openFrames_append_of {xs frames : List Record} (h : openFrames xs = some frames)
    (ys : List Record) :
    openFrames (xs ++ ys) = replay frames (ys.map Record.token) := by
  rw [openFrames, List.map_append, replay_append]
  change (openFrames xs).bind _ = _
  rw [h, Option.bind_some]

/-- Each block starts from the frames open before it with `-stree`, and from the first context
without. -/
theorem contexts_spec (S : Stree τ) {before context : List Record} {frames : List Record}
    (hbefore : openFrames before = some frames) (hctx : flags.useStree = true → context = frames)
    {blocks : List (List Record)} (h : (openFrames (before ++ blocks.flatten)).isSome) :
    ∃ starts, contexts S flags context blocks = .ok starts ∧ starts.length = blocks.length ∧
      ∀ k (hk : k < starts.length), starts[k] =
        if flags.useStree then (openFrames (before ++ (blocks.take k).flatten)).getD []
        else context := by
  induction blocks generalizing before context frames with
  | nil => exact ⟨[], rfl, rfl, fun k hk ↦ absurd hk (by simp)⟩
  | cons records blocks ih =>
    rw [List.flatten_cons, ← List.append_assoc] at h
    obtain ⟨frames', hframes'⟩ := openFrames_left h
    have hreplay := openFrames_append_of hbefore records
    rw [hframes'] at hreplay
    -- With `-stree` the next context is what is open after the block.
    have hnext : ∃ tree next, stackContext S flags context records = .ok (tree, next) ∧
        (flags.useStree = true → next = frames') ∧ (flags.useStree = false → next = context) := by
      cases hu : flags.useStree with
      | false => exact ⟨none, context, by simp [stackContext, hu], nofun, fun _ ↦ rfl⟩
      | true =>
        have hspec := buildStree_spec S context records
        rw [hctx hu, ← hreplay] at hspec
        obtain ⟨tree, hbuild, -⟩ := hspec
        refine ⟨some tree, frames', ?_, fun _ ↦ rfl, nofun⟩
        rw [stackContext, if_pos hu, hctx hu, hbuild]
        rfl
    obtain ⟨tree, next, hstack, hon, hoff⟩ := hnext
    obtain ⟨starts, hstarts, hlen, hget⟩ := ih hframes' hon h
    refine ⟨context :: starts, ?_, by simp [hlen], ?_⟩
    · simp only [contexts, hstack, bind, Except.bind, hstarts]
      rfl
    · intro k hk
      cases k with
      | zero =>
        simp only [List.getElem_cons_zero, List.take_zero, List.flatten_nil, List.append_nil,
          hbefore, Option.getD_some]
        split
        · next hu => exact hctx hu
        · rfl
      | succ k =>
        rw [List.getElem_cons_succ, hget k (by simpa using hk), List.take_succ_cons,
          List.flatten_cons, ← List.append_assoc]
        split
        · rfl
        · next hu => exact hoff (by simpa using hu)

/-- In a block of a replayed stream the depth a record is drawn at is off by what the block's
start is off. -/
theorem drawDepth_replay {before records after frames : List Record}
    (hbefore : openFrames before = some frames)
    (h : (openFrames (before ++ records ++ after)).isSome) {j : Nat} (hj : j < records.length)
    (start : Int) :
    drawDepth (depthAt start records j) records[j] =
      streamDepth (before ++ records.take j) records[j] + (start - frames.length) := by
  have hsplit : before ++ records ++ after =
      (before ++ records.take j) ++ ([records[j]] ++ (records.drop (j + 1) ++ after)) := by
    conv_lhs => rw [← List.take_append_drop j records, List.drop_eq_getElem_cons hj]
    simp only [List.append_assoc, List.cons_append, List.nil_append]
  rw [hsplit] at h
  obtain ⟨mid, hmid⟩ := openFrames_left h
  rw [← List.append_assoc] at h
  obtain ⟨next, hnext⟩ := openFrames_left h
  have hrun := hmid
  rw [openFrames_append_of hbefore] at hrun
  have hdepth : depthAt start records j = start + (mid.length - frames.length) :=
    depthAt_replay hrun start
  have hone := hnext
  rw [openFrames_append_of hmid] at hone
  have hlen := length_replay_token hone
  unfold nextDepth at hlen
  unfold drawDepth streamDepth
  rw [hmid, hnext, hdepth, Option.getD_some, Option.getD_some]
  split
  · next he =>
    rw [if_pos he] at hlen
    omega
  · omega

/-- Between an enter and its matching exit the stream replays to the enter's own depth. -/
theorem streamDepth_matched {before within : List Record} {enter exit : Record}
    {frames : List Record} (hbefore : openFrames before = some frames)
    (he : enter.type = MEMA_FUNC_ENTER) (hx : exit.type = MEMA_FUNC_EXIT)
    (hwithin : openFrames within = some []) :
    streamDepth before enter = streamDepth (before ++ enter :: within) exit := by
  have htoken : enter.token = .enter enter := if_pos he
  have henter : openFrames (before ++ [enter]) = some (enter :: frames) := by
    rw [openFrames_append_of hbefore, List.map_singleton, htoken, replay_enter]
    rfl
  have hend : openFrames (before ++ enter :: within) = some (enter :: frames) := by
    have hcons : before ++ enter :: within = (before ++ [enter]) ++ within := by simp
    rw [hcons, openFrames_append_of henter]
    exact replay_append_stack hwithin (enter :: frames)
  rw [streamDepth, if_pos he, henter, streamDepth, if_neg (by rw [hx]; decide), hend]

private theorem flatten_split {blocks : List (List Record)} {k : Nat} (hk : k < blocks.length) :
    blocks.flatten = (blocks.take k).flatten ++ blocks[k] ++ (blocks.drop (k + 1)).flatten := by
  conv_lhs => rw [← List.take_append_drop k blocks, List.drop_eq_getElem_cons hk]
  rw [List.flatten_append, List.flatten_cons, List.append_assoc]

/-- A drawn depth is off by the frames that are open before the block and not in its context. -/
theorem drawDepth_of_contexts {blocks starts : List (List Record)}
    (h : (openFrames blocks.flatten).isSome) (hstarts : contexts S flags [] blocks = .ok starts)
    {k j : Nat} (hk : k < blocks.length) (hs : k < starts.length) (hj : j < blocks[k].length) :
    ∃ frames, openFrames (blocks.take k).flatten = some frames ∧
      drawDepth (depthAt starts[k].length blocks[k] j) blocks[k][j] =
        streamDepth ((blocks.take k).flatten ++ blocks[k].take j) blocks[k][j] +
          ((if flags.useStree then (frames.length : Int) else 0) - frames.length) := by
  have hnil : openFrames [] = some [] := rfl
  obtain ⟨starts', hstarts', -, hget⟩ := contexts_spec S hnil (fun _ ↦ rfl) h
  cases hstarts.symm.trans hstarts'
  rw [flatten_split hk] at h
  have hbefore := h
  rw [List.append_assoc] at hbefore
  obtain ⟨frames, hframes⟩ := openFrames_left hbefore
  refine ⟨frames, hframes, ?_⟩
  rw [drawDepth_replay hframes h hj, hget k hs, List.nil_append, hframes, Option.getD_some]
  split <;> rfl

/-- What is drawn behind `before` is part of a stream that replays. -/
theorem DrawnAt.openFrames_before {blocks : List (List Record)}
    (h : (openFrames blocks.flatten).isSome) {before : List Record} {r : Record} {d : Int}
    (hd : DrawnAt S flags blocks before r d) : ∃ frames, openFrames before = some frames := by
  cases hd with
  | intro hk hs hj _ =>
    next k j starts =>
    rw [flatten_split hk, ← List.take_append_drop j blocks[k], ← List.append_assoc,
      List.append_assoc] at h
    exact openFrames_left h

/-- For every stream without unmatched exits and every cut of it, displayed depth is
continuous exactly when `-stree` is on or every block with a call starts with no open frames. -/
theorem depthContinuous_iff (S : Stree τ) (flags : ViewerFlags) (blocks : List (List Record))
    (h : (openFrames blocks.flatten).isSome) :
    DepthContinuous S flags blocks ↔
      (flags.useStree = true ∨ ∀ k (hk : k < blocks.length), (∃ r ∈ blocks[k], r.IsCall) →
        openFrames (blocks.take k).flatten = some []) := by
  have hnil : openFrames [] = some [] := rfl
  obtain ⟨starts, hstarts, hlen, -⟩ := contexts_spec S hnil (fun _ ↦ rfl) h
  constructor
  · intro hcont
    cases hu : flags.useStree with
    | true => exact .inl rfl
    | false =>
      right
      intro k hk hcalls
      obtain ⟨r, hr, hcall⟩ := hcalls
      obtain ⟨j, hj, rfl⟩ := List.mem_iff_getElem.mp hr
      have hs : k < starts.length := by omega
      obtain ⟨frames, hframes, hdrawn⟩ := drawDepth_of_contexts h hstarts hk hs hj
      have hd := hcont.depth _ _ _ (.intro hk hs hj hstarts) hcall
      rw [hdrawn, hu, if_neg (by decide)] at hd
      have hempty : frames.length = 0 := by omega
      rw [hframes, List.length_eq_zero_iff.mp hempty]
  · intro hcond
    -- Under the condition every block with a call starts at the replay's depth.
    have hdepth : ∀ before r d, DrawnAt S flags blocks before r d → r.IsCall →
        d = streamDepth before r := by
      intro before r d hdraw hcall
      cases hdraw with
      | intro hk hs hj hstarts' =>
        obtain ⟨frames, hframes, hdrawn⟩ := drawDepth_of_contexts h hstarts' hk hs hj
        rw [hdrawn]
        by_cases hu : flags.useStree = true
        · rw [if_pos hu, Int.sub_self, Int.add_zero]
        · have hempty := hcond.resolve_left hu _ hk ⟨_, List.getElem_mem hj, hcall⟩
          rw [hframes] at hempty
          cases hempty
          rw [if_neg hu]
          exact Int.add_zero _
    refine ⟨⟨starts, hstarts, hlen⟩, hdepth, ?_⟩
    intro before enter within exit d d' hd hd' he hx hwithin
    obtain ⟨frames, hframes⟩ := hd.openFrames_before h
    rw [hdepth _ _ _ hd (.inl he), hdepth _ _ _ hd' (.inr hx)]
    exact streamDepth_matched hframes he hx hwithin

end Replay

/-- With the default flags a frame left open by the first block is forgotten in the second:
its callee is drawn at depth 1, not 2. -/
theorem depth_restarts_by_default : ¬ DepthContinuous Stree.listing ViewerFlags.default
    [[enterRecord 16], [enterRecord 32]] := by
  intro h
  have hstarts : contexts Stree.listing ViewerFlags.default []
      [[enterRecord 16], [enterRecord 32]] = .ok [[], []] := rfl
  have hcall : (enterRecord 32).IsCall := .inl (by decide)
  have hd := h.depth _ _ _ (.intro (k := 1) (j := 0) (by decide) (by decide) (by decide) hstarts)
    hcall
  exact absurd hd (by decide)

/-- With `-stree` the same stream is drawn at the depths of its replay. -/
theorem depthContinuous_iff_two_blocks :
    DepthContinuous Stree.listing { ViewerFlags.default with useStree := true }
        [[enterRecord 16], [enterRecord 32]] ↔
      (true = true ∨ ∀ k (hk : k < [[enterRecord 16], [enterRecord 32]].length),
        (∃ r ∈ [[enterRecord 16], [enterRecord 32]][k], r.IsCall) →
        openFrames ([[enterRecord 16], [enterRecord 32]].take k).flatten = some []) :=
  depthContinuous_iff Stree.listing _ _ (by decide)

end Mema
