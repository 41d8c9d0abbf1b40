import Mema.Lib.Spans
import Mema.Viewer.Reader

/-!
# Call stacks of a block

`memaviz/functree.go:13–82` and `memaviz/stack.go`. Frames inherited from earlier blocks have
negative indices; each closed frame becomes an interval of the segment tree, and the frames
left open become the next block's context. Replaying the records is the abstract view.
-/

namespace Mema

open Nesting Spans

/-! ### The stack -/

/-- `Stack`, `stack.go:5–13`: the linked elements and their number. -/
structure Stack (α : Type) where
  top : List α
  size : Nat
  size_eq : size = top.length

namespace Stack

variable {α : Type}

/-- `new(Stack)`. -/
def new : Stack α := ⟨[], 0, rfl⟩

/-- `Stack.Push`. -/
def push (value : α) (s : Stack α) : Stack α :=
  ⟨value :: s.top, s.size + 1, by rw [s.size_eq, List.length_cons]⟩

/-- `Stack.Pop`; an empty stack pops nil. -/
def pop : Stack α → Option (α × Stack α)
  | ⟨[], _, _⟩ => none
  | ⟨value :: next, size, h⟩ => some (value, ⟨next, size - 1, by rw [h, List.length_cons]; rfl⟩)

theorem pop_of_nil {s : Stack α} (h : s.top = []) : s.pop = none := by
  obtain ⟨top, size, hs⟩ := s
  cases h
  rfl

theorem pop_of_cons {s : Stack α} {x : α} {xs : List α} (h : s.top = x :: xs) :
    ∃ s', s.pop = some (x, s') ∧ s'.top = xs := by
  obtain ⟨top, size, hs⟩ := s
  cases h
  exact ⟨_, rfl, rfl⟩

end Stack

/-! ### The segment tree -/

/-- go-stree: `NewTree`, `Push`, `BuildTree` and `Query`. -/
structure Stree (τ : Type) where
  newTree : τ
  push : τ → Int → Int → τ
  buildTree : τ → τ
  query : τ → Int → Int → List Span

namespace Stree

variable {τ : Type}

/-- Push intervals in order. -/
def pushAll (S : Stree τ) (tree : τ) (xs : List Span) : τ :=
  xs.foldl (fun t x ↦ S.push t x.lo x.hi) tree

/-- `Query(a, a)` returns the pushed intervals that contain `a`, each once, in any order. -/
def Lawful (S : Stree τ) : Prop :=
  ∀ (xs : List Span) (a : Int),
    (S.query (S.buildTree (S.pushAll S.newTree xs)) a a).Perm (xs.filter (·.contains a))

theorem pushAll_append (S : Stree τ) (tree : τ) (xs ys : List Span) :
    S.pushAll tree (xs ++ ys) = S.pushAll (S.pushAll tree xs) ys := List.foldl_append

end Stree

/-! ### `BuildStree` and `GetStack` -/

/-- The record behind an index: negative ones count back into the context. -/
def recordAt (contextRecords records : List Record) (i : Int) : Except GoPanic Record :=
  match if i < 0 then contextRecords[(-i - 1).toNat]? else records[i.toNat]? with
  | some r => .ok r
  | none => .error .indexOutOfRange

section BuildStree

variable {τ : Type} (S : Stree τ) (contextRecords records : List Record)

/-- The loop over the records, `functree.go:21–41`. The inner `r` shadows the exit record, so
the comparison is of the entry's function pointer with itself. -/
def buildRecords : Nat → List Record → Stack Int → τ → Except GoPanic (Stack Int × τ)
  | _, [], s, tree => .ok (s, tree)
  | i, r :: rest, s, tree =>
    if r.type = MEMA_FUNC_ENTER then buildRecords (i + 1) rest (s.push i) tree
    else if r.type = MEMA_FUNC_EXIT then
      match s.pop with
      | none => .error .nilAssertion
      | some (iStart, s) =>
        match recordAt contextRecords records iStart with
        | .error p => .error p
        | .ok r =>
          if r.funcPointer ≠ r.funcPointer then .error .notMatching
          else buildRecords (i + 1) rest s (S.push tree iStart (i - 1))
    else buildRecords (i + 1) rest s tree

/-- The loop that empties the stack, `functree.go:43–55`, over what it pops. -/
def popContext : List Int → τ → Except GoPanic (τ × List Record)
  | [], tree => .ok (tree, [])
  | iStart :: s, tree =>
    let tree := S.push tree iStart records.length
    match recordAt contextRecords records iStart with
    | .error p => .error p
    | .ok r =>
      match popContext s tree with
      | .error p => .error p
      | .ok (tree, context) => .ok (tree, r :: context)

/-- The stack `BuildStree` starts from, `functree.go:15–19`. -/
def contextStack : Stack Int :=
  (List.range contextRecords.length).foldl
    (fun s (i : Nat) ↦ s.push (-(contextRecords.length : Int) + i)) Stack.new

/-- `Block.BuildStree`, `functree.go:13–60`: the tree and the next block's context. -/
def buildStree : Except GoPanic (τ × List Record) := do
  let (s, tree) ← buildRecords S contextRecords records 0 records (contextStack contextRecords)
    S.newTree
  let (tree, returnContext) ← popContext S contextRecords records s.top tree
  return (S.buildTree tree, returnContext)

/-- `Block.GetStack`, `functree.go:63–85`. -/
def getStack (stackStree : Option τ) (record : Int) : Except GoPanic (List Record) :=
  match stackStree with
  | none => .ok []
  | some tree =>
    let entryIndices := (S.query tree record record).map Span.lo
    (entryIndices.mergeSort (· ≤ ·)).mapM (recordAt contextRecords records)

end BuildStree

/-! ### Indices of frames -/

/-- An index that `recordAt` resolves. -/
def Indexes (contextRecords records : List Record) (i : Int) : Prop :=
  -(contextRecords.length : Int) ≤ i ∧ i < records.length

/-- The frame behind an index, a zeroed record where there is none. -/
def frameAt (contextRecords records : List Record) (i : Int) : Record :=
  (if i < 0 then contextRecords[(-i - 1).toNat]? else records[i.toNat]?).getD Slot.zero

section Indices

variable {contextRecords records : List Record}

theorem recordAt_eq {i : Int} (h : Indexes contextRecords records i) :
    recordAt contextRecords records i = .ok (frameAt contextRecords records i) := by
  obtain ⟨hlo, hhi⟩ := h
  unfold recordAt frameAt
  by_cases hneg : i < 0
  · have hlt : (-i - 1).toNat < contextRecords.length := by omega
    simp only [hneg, ↓reduceIte, List.getElem?_eq_getElem hlt, Option.getD_some]
  · have hlt : i.toNat < records.length := by omega
    simp only [hneg, ↓reduceIte, List.getElem?_eq_getElem hlt, Option.getD_some]

theorem mapM_recordAt {is : List Int} (h : ∀ i ∈ is, Indexes contextRecords records i) :
    is.mapM (recordAt contextRecords records) = .ok (is.map (frameAt contextRecords records)) := by
  induction is with
  | nil => rfl
  | cons i is ih =>
    rw [List.mapM_cons, recordAt_eq (h i (by simp)), ih fun j hj ↦ h j (by simp [hj])]
    rfl

/-- Innermost first, the starting stack counts down from -1. -/
theorem top_contextStack (contextRecords : List Record) :
    (contextStack contextRecords).top =
      (List.range contextRecords.length).map fun k : Nat ↦ -(k : Int) - 1 := by
  have hfold : ∀ (is : List Nat) (n : Int) (s : Stack Int),
      (is.foldl (fun s (i : Nat) ↦ s.push (-n + i)) s).top =
        (is.reverse.map fun i : Nat ↦ -n + (i : Int)) ++ s.top := by
    intro is n s
    induction is generalizing s with
    | nil => rfl
    | cons i is ih =>
      rw [List.foldl_cons, ih, List.reverse_cons, List.map_append, List.append_assoc]
      rfl
  rw [contextStack, hfold]
  apply List.ext_getElem
  · simp [Stack.new]
  · intro k hk hk'
    have hlt : k < contextRecords.length := by simpa using hk'
    simp only [Stack.new, List.append_nil, List.getElem_map, List.getElem_reverse,
      List.length_range, List.getElem_range]
    omega

theorem map_frameAt_contextStack (contextRecords records : List Record) :
    (contextStack contextRecords).top.map (frameAt contextRecords records) = contextRecords := by
  rw [top_contextStack]
  apply List.ext_getElem
  · simp
  · intro k hk hk'
    have hneg : -(k : Int) - 1 < 0 := by omega
    have hidx : (-(-(k : Int) - 1) - 1).toNat = k := by omega
    simp only [List.getElem_map, List.getElem_range, frameAt, hneg, ↓reduceIte, hidx,
      List.getElem?_eq_getElem hk', Option.getD_some]

theorem below_contextStack (contextRecords : List Record) :
    Below 0 (contextStack contextRecords).top := by
  rw [top_contextStack]
  apply List.pairwise_cons.mpr
  constructor
  · intro p hp
    obtain ⟨k, -, rfl⟩ := List.mem_map.mp hp
    omega
  · apply List.pairwise_map.mpr
    exact List.pairwise_lt_range.imp fun h ↦ by omega

theorem indexes_contextStack (contextRecords records : List Record) :
    ∀ p ∈ (contextStack contextRecords).top, Indexes contextRecords records p := by
  rw [top_contextStack]
  intro p hp
  obtain ⟨k, hk, rfl⟩ := List.mem_map.mp hp
  have := List.mem_range.mp hk
  exact ⟨by omega, by omega⟩

end Indices

/-! ### One block -/

section Block

variable {τ : Type} {S : Stree τ} {contextRecords records : List Record}

/-- The record loop follows the spans of the block's tokens: it pushes them in order and
keeps the open positions, and it dies exactly where a frame is missing. -/
theorem buildRecords_spec (S : Stree τ) {i : Nat} {rest : List Record} {s : Stack Int}
    (hlen : i + rest.length = records.length) (tree : τ)
    (hs : ∀ p ∈ s.top, Indexes contextRecords records p) :
    match spans i s.top (rest.map Record.token) with
    | none => buildRecords S contextRecords records i rest s tree = .error .nilAssertion
    | some (left, xs) => (∀ p ∈ left, Indexes contextRecords records p) ∧
        ∃ s', buildRecords S contextRecords records i rest s tree =
          .ok (s', S.pushAll tree xs) ∧ s'.top = left := by
  induction rest generalizing i s tree with
  | nil => exact ⟨hs, s, rfl, rfl⟩
  | cons r rest ih =>
    rw [List.length_cons] at hlen
    have hcast : (i : Int) + 1 = ((i + 1 : Nat) : Int) := by omega
    rw [List.map_cons, buildRecords, Record.token]
    by_cases henter : r.type = MEMA_FUNC_ENTER
    · have hpush : ∀ p ∈ (s.push (i : Int)).top, Indexes contextRecords records p := by
        intro p hp
        rcases List.mem_cons.mp hp with rfl | hp
        · exact ⟨by omega, by omega⟩
        · exact hs p hp
      have hrec := ih (i := i + 1) (by omega) tree hpush
      simp only [henter, ↓reduceIte, spans]
      rw [hcast]
      exact hrec
    · by_cases hexit : r.type = MEMA_FUNC_EXIT
      · rw [if_neg henter, if_pos hexit, if_neg henter, if_pos hexit]
        cases htop : s.top with
        | nil =>
          rw [Stack.pop_of_nil htop]
          rfl
        | cons p top =>
          obtain ⟨s', hpop, hs'⟩ := Stack.pop_of_cons htop
          rw [htop] at hs
          have hp := hs p (by simp)
          have hrest : ∀ q ∈ s'.top, Indexes contextRecords records q := by
            rw [hs']
            exact fun q hq ↦ hs q (by simp [hq])
          have hrec := ih (i := i + 1) (by omega) (S.push tree p (i - 1)) hrest
          rw [hs', ← hcast] at hrec
          rw [hpop]
          simp only [recordAt_eq hp, ne_eq, not_true_eq_false, ↓reduceIte, spans]
          cases hsp : spans ((i : Int) + 1) top (rest.map Record.token) with
          | none =>
            rw [hsp] at hrec
            exact hrec
          | some q =>
            rw [hsp] at hrec
            exact hrec
      · rw [if_neg henter, if_neg hexit, if_neg henter, if_neg hexit]
        have hrec := ih (i := i + 1) (by omega) tree hs
        rw [← hcast] at hrec
        exact hrec

/-- Emptying the stack pushes an interval to the block's end for each open frame. -/
theorem popContext_spec (S : Stree τ) {left : List Int} (tree : τ)
    (h : ∀ p ∈ left, Indexes contextRecords records p) :
    popContext S contextRecords records left tree =
      .ok (S.pushAll tree (left.map fun p ↦ ⟨p, records.length⟩),
        left.map (frameAt contextRecords records)) := by
  induction left generalizing tree with
  | nil => rfl
  | cons p left ih =>
    have hrec := ih (S.push tree p records.length) fun q hq ↦ h q (by simp [hq])
    simp only [popContext, recordAt_eq (h p (by simp)), hrec]
    rfl

/-- Replaying tokens from the context names the frames of the positions. -/
theorem replay_records (contextRecords records : List Record) (n : Nat) :
    replay contextRecords ((records.take n).map Record.token) =
      (replay (contextStack contextRecords).top
        (label 0 ((records.take n).map Record.token))).map
          (List.map (frameAt contextRecords records)) := by
  have hmap := map_frameAt_contextStack contextRecords records
  conv_lhs => rw [← hmap]
  apply replay_label
  intro k hk a ha
  rw [List.length_map, List.length_take] at hk
  have hlt : k < records.length := by omega
  rw [List.getElem_map, List.getElem_take] at ha
  have hframe : frameAt contextRecords records (0 + k) = records[k] := by
    have hnn : ¬ (0 + (k : Int)) < 0 := by omega
    have hidx : (0 + (k : Int)).toNat = k := by omega
    simp only [frameAt, hnn, ↓reduceIte, hidx, List.getElem?_eq_getElem hlt, Option.getD_some]
  rw [hframe]
  unfold Record.token at ha
  split at ha
  · cases ha
    rfl
  · split at ha
    · cases ha
    · cases ha

/-- Which intervals of the tree contain a position of the block. -/
private theorem stab_pushed (left : List Int) (xs : List Span) {j : Nat}
    (hj : j < records.length) :
    stab (xs ++ left.map fun p ↦ ⟨p, records.length⟩) j =
      stab xs j ++ left.filter (· ≤ (j : Int)) := by
  rw [stab_append]
  congr 1
  induction left with
  | nil => rfl
  | cons p left ih =>
    rw [List.map_cons]
    by_cases hp : p ≤ (j : Int)
    · rw [stab_cons_of_contains hp (by simp only; omega), ih,
        List.filter_cons_of_pos (by simpa using hp)]
    · rw [stab_cons_of_not_contains fun h ↦ hp h.1, ih,
        List.filter_cons_of_neg (by simpa using hp)]

/-- Over a lawful tree, the query at a record answers with the open positions. -/
theorem query_openPositions (hS : S.Lawful) {left : List Int} {xs : List Span}
    (hsp : spans 0 (contextStack contextRecords).top (records.map Record.token) =
      some (left, xs)) {j : Nat} (hj : j < records.length) :
    ∃ r, replay (contextStack contextRecords).top
        (label 0 ((records.take (j + 1)).map Record.token)) = some r ∧
      (∀ p ∈ r, Indexes contextRecords records p) ∧
      ((S.query (S.buildTree (S.pushAll S.newTree
        (xs ++ left.map fun p ↦ ⟨p, records.length⟩))) j j).map Span.lo).mergeSort (· ≤ ·) =
          r.reverse := by
  obtain ⟨r, hr, hbelow, hperm⟩ := stab_spans (below_contextStack _) hsp j (by simpa using hj)
  rw [zero_add] at hbelow hperm
  rw [← List.map_take] at hr
  refine ⟨r, hr, ?_, ?_⟩
  · intro p hp
    rcases mem_replay_label hr hp with hctx | ⟨hlo, hhi⟩
    · exact indexes_contextStack _ _ p hctx
    · rw [List.length_map, List.length_take] at hhi
      exact ⟨by omega, by omega⟩
  · -- The query answers with the intervals that contain `j`, that is with the open frames.
    have hquery := (hS (xs ++ left.map fun p ↦ ⟨p, records.length⟩) j).map Span.lo
    have hstab := stab_pushed left xs hj
    rw [stab] at hstab
    rw [hstab] at hquery
    exact mergeSort_eq_reverse hbelow (hquery.trans hperm)

/-- `BuildStree` panics exactly on an unmatched exit; otherwise it pushes the spans of the
block's frames and returns the frames open at its end. -/
theorem buildStree_eq (S : Stree τ) (contextRecords records : List Record) :
    match spans 0 (contextStack contextRecords).top (records.map Record.token) with
    | none => replay contextRecords (records.map Record.token) = none ∧
        buildStree S contextRecords records = .error .nilAssertion
    | some (left, xs) =>
        replay contextRecords (records.map Record.token) =
          some (left.map (frameAt contextRecords records)) ∧
        buildStree S contextRecords records =
          .ok (S.buildTree (S.pushAll S.newTree (xs ++ left.map fun p ↦ ⟨p, records.length⟩)),
            left.map (frameAt contextRecords records)) := by
  have hloop := buildRecords_spec S (Nat.zero_add records.length) S.newTree
    (indexes_contextStack contextRecords records)
  have hfst := spans_fst 0 (contextStack contextRecords).top (records.map Record.token)
  have hreplay := replay_records contextRecords records records.length
  rw [List.take_length, ← hfst] at hreplay
  rw [Nat.cast_zero] at hloop
  cases hsp : spans 0 (contextStack contextRecords).top (records.map Record.token) with
  | none =>
    rw [hsp] at hloop hreplay
    refine ⟨hreplay, ?_⟩
    simp only [buildStree, hloop]
    rfl
  | some q =>
    obtain ⟨left, xs⟩ := q
    rw [hsp] at hloop hreplay
    obtain ⟨hleft, s', hrun, htop⟩ := hloop
    have hpop := popContext_spec S (S.pushAll S.newTree xs) hleft
    rw [← S.pushAll_append] at hpop
    refine ⟨hreplay, ?_⟩
    simp only [buildStree, hrun, bind, Except.bind, htop, hpop]
    rfl

/-- Over a lawful tree, a tree that was built answers at a record with the open positions. -/
theorem query_of_buildStree (hS : S.Lawful) {tree : τ} {context : List Record}
    (h : buildStree S contextRecords records = .ok (tree, context)) {j : Nat}
    (hj : j < records.length) :
    ∃ r, replay (contextStack contextRecords).top
        (label 0 ((records.take (j + 1)).map Record.token)) = some r ∧
      (∀ p ∈ r, Indexes contextRecords records p) ∧
      ((S.query tree j j).map Span.lo).mergeSort (· ≤ ·) = r.reverse := by
  have heq := buildStree_eq S contextRecords records
  cases hsp : spans 0 (contextStack contextRecords).top (records.map Record.token) with
  | none =>
    rw [hsp] at heq
    rw [heq.2] at h
    cases h
  | some q =>
    rw [hsp] at heq
    rw [heq.2] at h
    cases h
    exact query_openPositions hS hsp hj

/-- `BuildStree` panics exactly on an unmatched exit; otherwise it returns the frames open at
the block's end, and over a lawful tree `GetStack` returns the frames open after a record,
outermost first. -/
theorem buildStree_spec (S : Stree τ) (contextRecords records : List Record) :
    match replay contextRecords (records.map Record.token) with
    | none => buildStree S contextRecords records = .error .nilAssertion
    | some frames => ∃ tree, buildStree S contextRecords records = .ok (tree, frames) ∧
        (S.Lawful → ∀ j, j < records.length → ∃ stack,
          replay contextRecords ((records.take (j + 1)).map Record.token) = some stack ∧
          getStack S contextRecords records (some tree) j = .ok stack.reverse) := by
  have heq := buildStree_eq S contextRecords records
  cases hsp : spans 0 (contextStack contextRecords).top (records.map Record.token) with
  | none =>
    rw [hsp] at heq
    rw [heq.1]
    exact heq.2
  | some q =>
    rw [hsp] at heq
    rw [heq.1]
    refine ⟨_, heq.2, ?_⟩
    intro hS j hj
    obtain ⟨r, hr, hvalid, hsort⟩ := query_of_buildStree hS heq.2 hj
    have hr' := replay_records contextRecords records (j + 1)
    rw [hr, Option.map_some] at hr'
    refine ⟨r.map (frameAt contextRecords records), hr', ?_⟩
    have hvalid' : ∀ p ∈ r.reverse, Indexes contextRecords records p :=
      fun p hp ↦ hvalid p (List.mem_reverse.mp hp)
    simp only [getStack, hsort, mapM_recordAt hvalid', List.map_reverse]

end Block

/-- Accesses open and close nothing. -/
theorem replay_accesses {records : List Record}
    (h : ∀ r ∈ records, r.type = MEMA_ACCESS) (context : List Record) :
    replay context (records.map Record.token) = some context := by
  induction records with
  | nil => rfl
  | cons r records ih =>
    have hr := h r (by simp)
    have htoken : r.token = .other := by
      rw [Record.token, if_neg (by rw [hr]; decide), if_neg (by rw [hr]; decide)]
    rw [List.map_cons, htoken, replay_other]
    exact ih fun q hq ↦ h q (by simp [hq])

/-! ### Blocks in order -/

/-- A block after `BuildStree`, with the context it received and the one it returned. -/
structure StackBlock (τ : Type) where
  contextRecords : List Record
  records : List Record
  stackStree : Option τ
  returnContext : List Record

/-- The consumer of `new_block` with `-stree` on, `data.go:130–152`, as far as stacks go:
`current_context` is threaded through `BuildStree`. -/
def buildBlocks {τ : Type} (S : Stree τ) : List Record → List (List Record) →
    Except GoPanic (List (StackBlock τ))
  | _, [] => .ok []
  | currentContext, records :: blocks => do
    let (tree, context) ← buildStree S currentContext records
    let rest ← buildBlocks S context blocks
    return ⟨currentContext, records, some tree, context⟩ :: rest

/-- `GetStack` on a block. -/
def StackBlock.getStack {τ : Type} (S : Stree τ) (b : StackBlock τ) (record : Int) :
    Except GoPanic (List Record) :=
  Mema.getStack S b.contextRecords b.records b.stackStree record

/-- The frames open after some records of a stream, innermost first. -/
def openFrames (stream : List Record) : Option (List Record) :=
  replay [] (stream.map Record.token)

/-- What block `k` of a cut stream shows agrees with the replay of the uncut stream: after
each of its records, and at its end. -/
structure StackBlock.Agrees {τ : Type} (S : Stree τ) (b : StackBlock τ)
    (before : List Record) : Prop where
  stack : ∀ j, j < b.records.length → ∃ frames,
    openFrames (before ++ b.records.take (j + 1)) = some frames ∧
      b.getStack S j = .ok frames.reverse
  context : openFrames (before ++ b.records) = some b.returnContext

section Blocks

variable {τ : Type} {S : Stree τ}

private theorem openFrames_append (xs ys : List Record) :
    openFrames (xs ++ ys) =
      (openFrames xs).bind fun frames ↦ replay frames (ys.map Record.token) := by
  rw [openFrames, List.map_append, replay_append]
  rfl

/-- Blocks are processed as long as the stream replays, each agreeing with the replay. -/
theorem buildBlocks_spec (hS : S.Lawful) {before : List Record} {context : List Record}
    (hbefore : openFrames before = some context) {blocks : List (List Record)}
    (h : (openFrames (before ++ blocks.flatten)).isSome) :
    ∃ bs, buildBlocks S context blocks = .ok bs ∧ bs.map StackBlock.records = blocks ∧
      ∀ k (hk : k < bs.length), bs[k].Agrees S (before ++ (blocks.take k).flatten) := by
  induction blocks generalizing before context with
  | nil => exact ⟨[], rfl, rfl, by simp⟩
  | cons records blocks ih =>
    rw [List.flatten_cons, ← List.append_assoc] at h
    have hblock := openFrames_append before records
    rw [hbefore, Option.bind_some] at hblock
    -- The block itself replays, being part of the stream.
    have hsome : (openFrames (before ++ records)).isSome := by
      rw [openFrames_append] at h
      exact Option.isSome_of_isSome_bind h
    obtain ⟨frames, hframes⟩ := Option.isSome_iff_exists.mp hsome
    have hspec := buildStree_spec S context records
    rw [← hblock, hframes] at hspec
    obtain ⟨tree, hbuild, hstacks⟩ := hspec
    obtain ⟨bs, hbs, hrecords, hagrees⟩ := ih hframes h
    refine ⟨⟨context, records, some tree, frames⟩ :: bs, ?_, by simp [hrecords], ?_⟩
    · simp only [buildBlocks, hbuild, bind, Except.bind, hbs]
      rfl
    · intro k hk
      cases k with
      | zero =>
        simp only [List.getElem_cons_zero, List.take_zero, List.flatten_nil, List.append_nil]
        refine ⟨?_, hframes⟩
        intro j hj
        obtain ⟨stack, hstack, hget⟩ := hstacks hS j hj
        refine ⟨stack, ?_, hget⟩
        rw [openFrames_append, hbefore, Option.bind_some]
        exact hstack
      | succ k =>
        have hk' : k < bs.length := by simpa using hk
        rw [List.getElem_cons_succ, List.take_succ_cons, List.flatten_cons, ← List.append_assoc]
        exact hagrees k hk'

/-- Stacks do not depend on the cut: over a lawful segment tree, for every stream whose exits
all have an earlier unmatched enter and every cut of it, each block's `GetStack` and returned
context agree with the replay of the whole stream. -/
theorem stacks_independent_of_cut (hS : S.Lawful) (blocks : List (List Record))
    (h : (openFrames blocks.flatten).isSome) :
    ∃ bs, buildBlocks S [] blocks = .ok bs ∧ bs.map StackBlock.records = blocks ∧
      ∀ k (hk : k < bs.length), bs[k].Agrees S (blocks.take k).flatten := by
  have hnil : openFrames [] = some [] := rfl
  have hspec := buildBlocks_spec hS hnil h
  simpa only [List.nil_append] using hspec

end Blocks

/-- A segment tree that keeps the list of pushed intervals. -/
def Stree.listing : Stree (List Span) where
  newTree := []
  push tree lo hi := tree ++ [⟨lo, hi⟩]
  buildTree := id
  query tree lo _ := tree.filter (·.contains lo)

theorem Stree.lawful_listing : Stree.listing.Lawful := by
  have hpush : ∀ xs tree : List Span, Stree.listing.pushAll tree xs = tree ++ xs := by
    intro xs
    induction xs with
    | nil => simp [pushAll]
    | cons x xs ih =>
      intro tree
      change Stree.listing.pushAll (tree ++ [x]) xs = _
      rw [ih, List.append_assoc]
      rfl
  intro xs a
  rw [hpush]
  exact List.Perm.refl _

/-- A function enter record of the viewer. -/
def enterRecord (addr : UInt64) : Record := (Logged.funcEnter addr).write Slot.zero

/-- A function exit record of the viewer. -/
def exitRecord (addr : UInt64) : Record := (Logged.funcExit addr).write Slot.zero

/-- A frame opened in the first block and closed at the first record of the third. -/
theorem stacks_independent_of_cut_three_blocks :
    ∃ bs, buildBlocks Stree.listing [] [[enterRecord 16], [enterRecord 32, exitRecord 32],
        [exitRecord 16]] = .ok bs ∧
      bs.map StackBlock.records = [[enterRecord 16], [enterRecord 32, exitRecord 32],
        [exitRecord 16]] ∧
      ∀ k (hk : k < bs.length), bs[k].Agrees Stree.listing
        ((([[enterRecord 16], [enterRecord 32, exitRecord 32],
          [exitRecord 16]] : List (List Record)).take k).flatten) :=
  stacks_independent_of_cut Stree.lawful_listing _ (by decide)

end Mema
