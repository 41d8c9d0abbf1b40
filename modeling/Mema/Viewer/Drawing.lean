import Mema.Viewer.Reader

/-!
# The blocks a frame draws

`memaviz/data.go:263–296` and `util.go:155–164`: the visible range of blocks, whether they are
few enough to be drawn in detail, and the offset each is drawn at. Blocks outside the loaded
ones are never touched, and every loaded block in the window is drawn.
-/

namespace Mema

/-- `nperblock`. -/
def nperblock : Int := 10 * 1024 * 1024 / 56

/-- `ints`, `util.go:155–164`. -/
def ints (low n : Int) : List Int := (List.range n.toNat).map fun (i : Nat) ↦ low + (i : Int)

/-- What `ProgramData.Draw` computes before its loop. -/
structure DrawRange where
  startBlock : Int
  nBlocks : Int
  detailed : Bool
  deriving DecidableEq, Repr

/-- `ProgramData.Draw` up to its loop, `data.go:263–280`, with `loaded` blocks. -/
def drawRange (startIndex n : Int) (loaded : Nat) : DrawRange :=
  let startBlock := startIndex.tdiv nperblock
  let startBlock := if startBlock < 0 then 0 else startBlock
  let nBlocks := n.tdiv nperblock + 2
  let nBlocks := if nBlocks < 1 then 1 else nBlocks
  let nBlocks := if startBlock + nBlocks ≥ loaded then loaded - startBlock else nBlocks
  ⟨startBlock, nBlocks, decide (nBlocks < 20)⟩

/-- The indices of the loop of `ProgramData.Draw`, `data.go:291`. -/
def DrawRange.indices (r : DrawRange) : List Int := ints r.startBlock r.nBlocks

/-- `data.blocks[i]`. -/
def goIndex {α : Type} (xs : List α) (i : Int) : Option α := if i < 0 then none else xs[i.toNat]?

/-- What the loop passes to `Block.Draw`, with the block's index. -/
structure DrawCall where
  index : Int
  start : Int
  N : Int
  detailed : Bool
  deriving DecidableEq, Repr

/-- Where `Block.Draw` puts record `p` of the block, counted in records from the window's first:
it translates by `-start`, `block.go:277–285`. -/
def DrawCall.position (c : DrawCall) (p : Int) : Int := p - c.start

/-- `ProgramData.Draw`, `data.go:263–296`, given `nrecords` of each loaded block; there is no
result when `data.blocks` is indexed out of range. -/
def drawBlocks (startIndex n : Int) (nrecords : List Int) : Option (List DrawCall) :=
  let r := drawRange startIndex n nrecords.length
  r.indices.mapM fun i ↦
    (goIndex nrecords i).map fun nrecords ↦
      ⟨i, startIndex - i * nrecords, nrecords, r.detailed⟩

theorem mem_ints {low n i : Int} : i ∈ ints low n ↔ low ≤ i ∧ i < low + n := by
  rw [ints, List.mem_map]
  constructor
  · rintro ⟨j, hj, rfl⟩
    have hlt := List.mem_range.mp hj
    omega
  · intro h
    refine ⟨(i - low).toNat, List.mem_range.mpr (by omega), by omega⟩

/-- Only loaded blocks are drawn. -/
theorem drawRange_valid (startIndex n : Int) (loaded : Nat) :
    ∀ i ∈ (drawRange startIndex n loaded).indices, 0 ≤ i ∧ i < loaded := by
  intro i hi
  rw [DrawRange.indices, mem_ints, drawRange] at hi
  dsimp only at hi
  split_ifs at hi <;> omega

theorem goIndex_of_valid {α : Type} {xs : List α} {i : Int} (h : 0 ≤ i ∧ i < xs.length) :
    ∃ x ∈ xs, goIndex xs i = some x := by
  have hlt : i.toNat < xs.length := by omega
  refine ⟨xs[i.toNat], List.getElem_mem hlt, ?_⟩
  rw [goIndex, if_neg (by omega), List.getElem?_eq_getElem hlt]

/-! ### The window is covered -/

/-- Block `i` holds a record of the window `[startIndex, startIndex + n)`. -/
def Intersects (startIndex n i : Int) : Prop :=
  ∃ q, i * nperblock ≤ q ∧ q < (i + 1) * nperblock ∧ startIndex ≤ q ∧ q < startIndex + n

/-- Truncation and the clamp together round down, and to the first block. -/
theorem startBlock_drawRange (startIndex n : Int) (loaded : Nat) :
    (drawRange startIndex n loaded).startBlock = max 0 (startIndex / nperblock) := by
  have hper : nperblock = 187245 := rfl
  show (if startIndex.tdiv nperblock < 0 then 0 else startIndex.tdiv nperblock) = _
  rw [hper]
  rcases Int.le_total 0 startIndex with hstart | hstart
  · rw [Int.tdiv_eq_ediv_of_nonneg hstart]
    omega
  · obtain ⟨m, rfl⟩ : ∃ m : Int, startIndex = -m := ⟨-startIndex, (Int.neg_neg _).symm⟩
    rw [Int.neg_tdiv, Int.tdiv_eq_ediv_of_nonneg (by omega)]
    omega

/-- Two blocks more than fit in the window are drawn, unless fewer are loaded. -/
theorem nBlocks_drawRange {startIndex n : Int} (hn : 0 ≤ n) (loaded : Nat) :
    (drawRange startIndex n loaded).nBlocks =
      min (n / nperblock + 2) (loaded - (drawRange startIndex n loaded).startBlock) := by
  have hper : nperblock = 187245 := rfl
  simp only [drawRange, hper, Int.tdiv_eq_ediv_of_nonneg hn]
  split_ifs <;> omega

/-- Every loaded block in the window is drawn. -/
theorem mem_indices_of_intersects {startIndex n i : Int} {loaded : Nat} (hn : 0 ≤ n)
    (hi : 0 ≤ i ∧ i < loaded) (h : Intersects startIndex n i) :
    i ∈ (drawRange startIndex n loaded).indices := by
  obtain ⟨q, hlow, hhigh, hstart, hend⟩ := h
  have hper : nperblock = 187245 := rfl
  rw [DrawRange.indices, mem_ints, nBlocks_drawRange hn, startBlock_drawRange]
  rw [hper] at hlow hhigh ⊢
  omega

/-- With full blocks no index is out of range, and each call gets the offset of its block. -/
theorem drawBlocks_eq (startIndex n : Int) {nrecords : List Int}
    (hfull : ∀ k ∈ nrecords, k = nperblock) :
    drawBlocks startIndex n nrecords =
      some ((drawRange startIndex n nrecords.length).indices.map fun i ↦
        ⟨i, startIndex - i * nperblock, nperblock,
          (drawRange startIndex n nrecords.length).detailed⟩) := by
  have hvalid := drawRange_valid startIndex n nrecords.length
  rw [drawBlocks]
  generalize (drawRange startIndex n nrecords.length).indices = is at hvalid
  induction is with
  | nil => rfl
  | cons i is ih =>
    obtain ⟨k, hk, hindex⟩ := goIndex_of_valid (hvalid i List.mem_cons_self)
    rw [List.mapM_cons, ih fun j hj ↦ hvalid j (List.mem_cons_of_mem _ hj), hindex, hfull k hk]
    rfl

/-- For full blocks, whatever the start index and however many are loaded, drawing a window
touches loaded blocks only, draws every one of them that intersects the window, and puts record
`p` of block `i` at `i * nperblock + p - startIndex`. -/
theorem drawBlocks_covers {startIndex n : Int} (hn : 0 ≤ n) {nrecords : List Int}
    (hfull : ∀ k ∈ nrecords, k = nperblock) :
    ∃ calls, drawBlocks startIndex n nrecords = some calls ∧
      (∀ c ∈ calls, (0 ≤ c.index ∧ c.index < nrecords.length) ∧
        ∀ p, c.position p = c.index * nperblock + p - startIndex) ∧
      ∀ i : Int, 0 ≤ i ∧ i < nrecords.length → Intersects startIndex n i →
        ∃ c ∈ calls, c.index = i := by
  refine ⟨_, drawBlocks_eq startIndex n hfull, ?_, ?_⟩
  · intro c hc
    obtain ⟨i, hi, rfl⟩ := List.mem_map.mp hc
    refine ⟨drawRange_valid startIndex n nrecords.length i hi, fun p ↦ ?_⟩
    show p - (startIndex - i * nperblock) = i * nperblock + p - startIndex
    omega
  · intro i hi h
    exact ⟨_, List.mem_map_of_mem (mem_indices_of_intersects hn hi h), rfl⟩

/-- A window across the boundary of two of three loaded blocks. -/
theorem drawBlocks_covers_boundary :
    ∃ calls, drawBlocks 187240 10 [187245, 187245, 187245] = some calls ∧
      (∀ c ∈ calls, (0 ≤ c.index ∧ c.index < 3) ∧
        ∀ p, c.position p = c.index * nperblock + p - 187240) ∧
      ∀ i : Int, 0 ≤ i ∧ i < 3 → Intersects 187240 10 i → ∃ c ∈ calls, c.index = i :=
  @drawBlocks_covers 187240 10 (by decide) [187245, 187245, 187245] (by decide)

end Mema
