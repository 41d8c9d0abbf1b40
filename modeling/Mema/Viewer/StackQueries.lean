import Mema.Viewer.Binary
import Mema.Viewer.Interleaving

/-!
# Stack queries on published blocks

`memaviz/functree.go:62–92`, `block.go:444–450` and `data.go:136–151,203–219`: the segment tree
keeps indices into the block's records, which `GenerateVertices` releases. A query then still
finds the frames inherited from earlier blocks, which have records of their own.
-/

namespace Mema

open Nesting Spans Framing

/-! ### `GetStackNames` -/

/-- Ways a stack query panics. -/
inductive QueryPanic
  | stack (p : GoPanic)
  | table (p : TablePanic)
  | binary (p : BinaryPanic)
  deriving DecidableEq, Repr

section Names

variable {τ : Type} {S : Stree τ} {files : Files}

/-- `ProgramData.GetSymbol`, `exec.go:207–210`. -/
def programSymbol (region : List MemRegion) (addr : UInt64) (loaded : LoadedBinaries S files) :
    Except QueryPanic (List UInt8 × LoadedBinaries S files) :=
  match getRegion region addr with
  | .error p => .error (.table p)
  | .ok r =>
    match r.getSymbol addr loaded with
    | .error p => .error (.binary p)
    | .ok result => .ok result

/-- The loop of `GetStackNames` over a stack, `functree.go:87–91`. -/
def stackNames (region : List MemRegion) : List Record → LoadedBinaries S files →
    Except QueryPanic (List (List UInt8) × LoadedBinaries S files)
  | [], loaded => .ok ([], loaded)
  | f :: stack, loaded =>
    match programSymbol region f.funcPointer loaded with
    | .error p => .error p
    | .ok (name, loaded) =>
      match stackNames region stack loaded with
      | .error p => .error p
      | .ok (names, loaded) => .ok (name :: names, loaded)

/-- `Block.GetStackNames`, `functree.go:84–92`. -/
def getStackNames (region : List MemRegion) (stack : Except GoPanic (List Record))
    (loaded : LoadedBinaries S files) :
    Except QueryPanic (List (List UInt8) × LoadedBinaries S files) :=
  match stack with
  | .error p => .error (.stack p)
  | .ok stack => stackNames region stack loaded

/-- The function of the frame lies in no mapping. -/
def Unmapped (region : List MemRegion) (f : Record) : Prop :=
  ∀ r ∈ region, ¬ r.Contains f.funcPointer

theorem programSymbol_unmapped {region : List MemRegion} {f : Record} (h : Unmapped region f)
    (loaded : LoadedBinaries S files) :
    programSymbol region f.funcPointer loaded = .ok (nilText, loaded) := by
  have hbinary : (MemRegion.unknown f.funcPointer).getBinary loaded = .ok (none, loaded) :=
    if_pos rfl
  simp only [programSymbol, getRegion_unmapped h, MemRegion.getSymbol, hbinary]

/-- On a sorted table the names of a stack are found exactly when none of its functions is
mapped. -/
theorem stackNames_ok_iff {region : List MemRegion}
    (hsorted : region.Pairwise fun r q ↦ r.low < q.low) (stack : List Record)
    (loaded : LoadedBinaries S files) :
    (∃ names loaded', stackNames region stack loaded = .ok (names, loaded')) ↔
      ∀ f ∈ stack, Unmapped region f := by
  induction stack generalizing loaded with
  | nil => exact ⟨fun _ ↦ by simp, fun _ ↦ ⟨[], loaded, rfl⟩⟩
  | cons f stack ih =>
    rw [stackNames, List.forall_mem_cons]
    by_cases hf : Unmapped region f
    · rw [programSymbol_unmapped hf]
      simp only [hf, true_and]
      rw [← ih loaded]
      constructor
      · rintro ⟨names, loaded', h⟩
        split at h
        · cases h
        · next names loaded' hrest => exact ⟨names, loaded', hrest⟩
      · rintro ⟨names, loaded', h⟩
        rw [h]
        exact ⟨_, _, rfl⟩
    · have hmapped : ∃ r ∈ region, r.Contains f.funcPointer := by
        simpa [Unmapped] using hf
      simp only [programSymbol, getRegion_mapped hsorted hmapped, hf, false_and, iff_false]
      rintro ⟨names, loaded', h⟩
      cases h

end Names

/-! ### Frames by position -/

/-- The positions of the frames open after record `j`, innermost first: where the frame's
enter stands in the block, or a negative index into the context. -/
def openPositions (contextRecords records : List Record) (j : Nat) : List Int :=
  (replay (contextStack contextRecords).top
    (label 0 ((records.take (j + 1)).map Record.token))).getD []

/-- Some frame open after record `j` was opened inside the block. -/
def OpenedInside (contextRecords records : List Record) (j : Nat) : Prop :=
  ∃ p ∈ openPositions contextRecords records j, 0 ≤ p

/-- The frames open after record `j`. -/
def framesAt (contextRecords records : List Record) (j : Nat) : List Record :=
  (replay contextRecords ((records.take (j + 1)).map Record.token)).getD []

section Released

variable {τ : Type} {S : Stree τ} {contextRecords records : List Record}

theorem mapM_ok {α β ε : Type} {f : α → Except ε β} {l : List α} {ys : List β}
    (h : l.mapM f = .ok ys) : ∀ x ∈ l, ∃ y, f x = .ok y := by
  induction l generalizing ys with
  | nil => simp
  | cons a l ih =>
    rw [List.mapM_cons] at h
    cases ha : f a with
    | error e =>
      rw [ha] at h
      cases h
    | ok b =>
      rw [ha] at h
      cases hl : l.mapM f with
      | error e =>
        rw [hl] at h
        cases h
      | ok bs =>
        rw [List.forall_mem_cons]
        exact ⟨⟨b, ha⟩, ih hl⟩

theorem mapM_congr {α β ε : Type} {f g : α → Except ε β} {l : List α}
    (h : ∀ x ∈ l, f x = g x) : l.mapM f = l.mapM g := by
  induction l with
  | nil => rfl
  | cons a l ih =>
    rw [List.forall_mem_cons] at h
    rw [List.mapM_cons, List.mapM_cons, h.1, ih h.2]

/-- Inherited frames are found without the records. -/
theorem recordAt_of_neg {p : Int} (hp : p < 0) (records' : List Record) :
    recordAt contextRecords records p = recordAt contextRecords records' p := by
  unfold recordAt
  rw [if_pos hp, if_pos hp]

/-- A frame opened inside the block is not. -/
theorem recordAt_released {p : Int} (hp : 0 ≤ p) :
    recordAt contextRecords [] p = .error .indexOutOfRange := by
  unfold recordAt
  rw [if_neg (by omega)]
  rfl

/-- Directly after `BuildStree` a query returns the open frames, outermost first. -/
theorem getStack_built (hS : S.Lawful) {tree : τ} {context : List Record}
    (h : buildStree S contextRecords records = .ok (tree, context)) {j : Nat}
    (hj : j < records.length) :
    getStack S contextRecords records (some tree) j =
      .ok (framesAt contextRecords records j).reverse := by
  have hspec := buildStree_spec S contextRecords records
  cases hr : replay contextRecords (records.map Record.token) with
  | none =>
    rw [hr] at hspec
    rw [hspec] at h
    cases h
  | some frames =>
    rw [hr] at hspec
    obtain ⟨tree', hok, hstack⟩ := hspec
    rw [hok] at h
    cases h
    obtain ⟨stack, hstack, hget⟩ := hstack hS j hj
    rw [hget, framesAt, hstack]
    rfl

/-- Without the records the query returns the same frames exactly when all of them are
inherited. -/
theorem getStack_released_iff (hS : S.Lawful) {tree : τ} {context : List Record}
    (h : buildStree S contextRecords records = .ok (tree, context)) {j : Nat}
    (hj : j < records.length) :
    getStack S contextRecords [] (some tree) j =
        .ok (framesAt contextRecords records j).reverse ↔
      ¬ OpenedInside contextRecords records j := by
  obtain ⟨r, hr, -, hsort⟩ := query_of_buildStree hS h hj
  have hpositions : openPositions contextRecords records j = r := by
    rw [openPositions, hr]
    rfl
  have hbuilt := getStack_built hS h hj
  rw [OpenedInside, hpositions]
  simp only [getStack, hsort] at hbuilt ⊢
  constructor
  · rintro hget ⟨p, hp, hnonneg⟩
    obtain ⟨f, hf⟩ := mapM_ok hget p (List.mem_reverse.mpr hp)
    rw [recordAt_released hnonneg] at hf
    cases hf
  · intro hinherited
    rw [← hbuilt]
    apply mapM_congr
    intro p hp
    apply recordAt_of_neg
    by_contra hnonneg
    exact hinherited ⟨p, List.mem_reverse.mp hp, by omega⟩

end Released

/-! ### Published blocks -/

section Published

variable {τ : Type}

/-- A file with an accepted page table and payloads that can be decoded, shown with `-stree`. -/
structure StreeTrace (V : ViewerEnv τ) (scan : Sscanf) where
  table : List UInt8
  region : List MemRegion
  payloads : List (List UInt8)
  nul_not_mem : 0 ∉ table
  accepted : pageTable scan table = .ok region
  file : V.file = magicBytes ++ (table ++ 0 :: frames 8 payloads)
  fits : ∀ p ∈ payloads, p.length ≤ viewerBufsize
  determined : ∀ p ∈ payloads, V.clz4.Determines p
  useStree : V.flags.useStree = true
  lawful : V.stree.Lawful

/-- `block.records` of published block `k`: the records decoded for the request that is being
served, if it is for this block; `GenerateVertices` has released those of earlier loads. -/
def LoaderState.recordsOf (s : LoaderState τ) (k : Nat) : List Record :=
  match s.reader with
  | .rebuild k' _ _ records => if k' = k then records else []
  | _ => []

/-- The records of published block `k` are held: a request for it is being served, between
`decode_records` and the end of `GenerateVertices`. -/
def LoaderState.Holds (s : LoaderState τ) (k : Nat) : Prop :=
  ∃ currentOffset more records, s.reader = .rebuild k currentOffset more records

/-- `GetStack` on published block `k`. -/
def LoaderState.getStack (S : Stree τ) (s : LoaderState τ) (k : Nat) (j : Int) :
    Except GoPanic (List Record) :=
  match s.blocks[k]? with
  | none => .error .indexOutOfRange
  | some b =>
    Mema.getStack S b.block.contextRecords (s.recordsOf k) b.block.stackStree j

/-- `GetStack` and `GetStackNames` on published block `k` do not panic and go by the frames
that `GetStack` returned directly after `BuildStree`. -/
structure QueriesWork (V : ViewerEnv τ) (region : List MemRegion) (s : LoaderState τ) (k : Nat)
    (block : Block τ) (records : List Record) (j : Nat) : Prop where
  stack : ∃ stack, getStack V.stree block.contextRecords records block.stackStree j = .ok stack ∧
    s.getStack V.stree k j = .ok stack
  names : ∀ (files : Files) (loaded : LoadedBinaries V.stree files), ∃ names,
    getStackNames region (getStack V.stree block.contextRecords records block.stackStree j)
        loaded = .ok names ∧
      getStackNames region (s.getStack V.stree k j) loaded = .ok names

/-- The block's records are held or every open frame was inherited, and no open frame's
function is mapped. -/
structure FramesResolve (region : List MemRegion) (s : LoaderState τ) (k : Nat)
    (contextRecords records : List Record) (j : Nat) : Prop where
  held : s.Holds k ∨ ¬ OpenedInside contextRecords records j
  unmapped : ∀ f ∈ framesAt contextRecords records j, Unmapped region f

variable {V : ViewerEnv τ}

/-- A first load with `-stree` keeps the tree and releases the records. -/
theorem consumeBlock_stree (hstree : V.flags.useStree = true) {context context' : List Record}
    {raw : RawBlock} {block : Block τ}
    (h : consumeBlock V.stree V.rounding V.flags context raw = .ok (block, context')) :
    block.contextRecords = context ∧ ∃ tree after, block.stackStree = some tree ∧
      buildStree V.stree context raw.records = .ok (tree, after) := by
  obtain ⟨⟨tree, context''⟩, htree, h⟩ := ok_of_bind h
  obtain ⟨regions, -, h⟩ := ok_of_bind h
  obtain ⟨vertices, -, h⟩ := ok_of_bind h
  cases h
  rw [stackContext, if_pos hstree] at htree
  obtain ⟨⟨tree', after⟩, hbuild, htree⟩ := ok_of_bind htree
  cases htree
  exact ⟨rfl, tree', _, rfl, hbuild⟩

/-- The query on a published block, by whether its records are held. -/
theorem getStack_published_iff {base : Nat} {ps : List (List UInt8)} {n : Nat}
    {s : LoaderState τ} (h : Loading V base ps n s) (hS : V.stree.Lawful)
    {k : Nat} {b : ShownBlock τ} {p : List UInt8} (hb : s.blocks[k]? = some b)
    (hp : ps[k]? = some p) {tree : τ} {after : List Record}
    (htree : b.block.stackStree = some tree)
    (hbuild : buildStree V.stree b.block.contextRecords (decodedRecords V.clz4 p) =
      .ok (tree, after)) {j : Nat} (hj : j < (decodedRecords V.clz4 p).length) :
    s.getStack V.stree k j =
        .ok (framesAt b.block.contextRecords (decodedRecords V.clz4 p) j).reverse ↔
      s.Holds k ∨ ¬ OpenedInside b.block.contextRecords (decodedRecords V.clz4 p) j := by
  rw [LoaderState.getStack, hb]
  dsimp only
  rw [htree]
  by_cases hholds : s.Holds k
  · obtain ⟨off, more, records, hreader⟩ := hholds
    have hok := h.reader
    rw [hreader] at hok
    obtain ⟨-, -, p', hp', hrecords⟩ := hok
    cases hp.symm.trans hp'
    have hof : s.recordsOf k = decodedRecords V.clz4 p := by
      rw [LoaderState.recordsOf, hreader, hrecords]
      exact if_pos rfl
    rw [hof]
    exact iff_of_true (getStack_built hS hbuild hj) (.inl ⟨off, more, records, hreader⟩)
  · have hof : s.recordsOf k = [] := by
      unfold LoaderState.recordsOf
      split
      · next k' off more records hreader =>
        apply if_neg
        rintro rfl
        exact hholds ⟨off, more, records, hreader⟩
      · rfl
    rw [hof, getStack_released_iff hS hbuild hj]
    exact (or_iff_right hholds).symm

/-- On a published block stack queries work exactly when the frames can be resolved. -/
theorem StreeTrace.queriesWork_iff {scan : Sscanf} (trace : StreeTrace V scan)
    {s : LoaderState τ} {n : Nat}
    (hn : Loading V (8 + trace.table.length + 1) trace.payloads n s) {k : Nat}
    {b : ShownBlock τ} {p : List UInt8} (hb : s.blocks[k]? = some b)
    (hp : trace.payloads[k]? = some p) {j : Nat} (hj : j < (decodedRecords V.clz4 p).length) :
    QueriesWork V trace.region s k b.block (decodedRecords V.clz4 p) j ↔
      FramesResolve trace.region s k b.block.contextRecords (decodedRecords V.clz4 p) j := by
  obtain ⟨b', p', before, after, hb', hp', hconsume⟩ :=
    hn.consumed (List.getElem?_eq_some_iff.mp hb).1
  cases hb.symm.trans hb'
  cases hp.symm.trans hp'
  obtain ⟨hcontext, tree, after', htree, hbuild⟩ := consumeBlock_stree trace.useStree hconsume
  rw [← hcontext] at hbuild
  have hbuilt : getStack V.stree b.block.contextRecords (decodedRecords V.clz4 p) (some tree) j =
      .ok (framesAt b.block.contextRecords (decodedRecords V.clz4 p) j).reverse :=
    getStack_built trace.lawful hbuild hj
  rw [← htree] at hbuilt
  have hpublished := getStack_published_iff hn trace.lawful hb hp htree hbuild hj
  have hnames (files : Files) (loaded : LoadedBinaries V.stree files) :=
    stackNames_ok_iff (pageTable_sorted trace.accepted)
      (framesAt b.block.contextRecords (decodedRecords V.clz4 p) j).reverse loaded
  constructor
  · rintro ⟨⟨stack, hstack, hget⟩, hnamed⟩
    rw [hbuilt] at hstack
    cases hstack
    refine ⟨hpublished.mp hget, ?_⟩
    obtain ⟨⟨names, loaded'⟩, hok, -⟩ :=
      hnamed ⟨fun _ ↦ none, fun _ _ ↦ [], id⟩ LoadedBinaries.empty
    rw [hbuilt] at hok
    have hall := (hnames _ _).mp ⟨names, loaded', hok⟩
    exact fun f hf ↦ hall f (List.mem_reverse.mpr hf)
  · rintro ⟨hheld, hunmapped⟩
    have hget := hpublished.mpr hheld
    refine ⟨⟨_, hbuilt, hget⟩, fun files loaded ↦ ?_⟩
    obtain ⟨names, loaded', hok⟩ := (hnames files loaded).mpr fun f hf ↦
      hunmapped f (List.mem_reverse.mp hf)
    rw [hbuilt, hget]
    exact ⟨(names, loaded'), hok, hok⟩

/-- In every reachable state, for every published block and every index in it, stack queries
work exactly when the frames can be resolved. -/
theorem queries_on_published_iff {scan : Sscanf} (trace : StreeTrace V scan)
    {s : LoaderState τ} (h : (loader V (tableAccepts scan)).Reachable s) {k : Nat}
    {b : ShownBlock τ} {p : List UInt8} (hb : s.blocks[k]? = some b)
    (hp : trace.payloads[k]? = some p) {j : Nat} (hj : j < (decodedRecords V.clz4 p).length) :
    QueriesWork V trace.region s k b.block (decodedRecords V.clz4 p) j ↔
      FramesResolve trace.region s k b.block.contextRecords (decodedRecords V.clz4 p) j := by
  obtain ⟨n, hn⟩ := loading_of_reachable (tableAccepts scan) trace.nul_not_mem trace.file
    trace.fits trace.determined h
  exact trace.queriesWork_iff hn hb hp hj

end Published

/-! ### One function entry -/

/-- A trace of that entry with no mappings. -/
def oneEntry : ViewerEnv (List Span) :=
  ⟨Stree.listing, .none, { ViewerFlags.default with useStree := true }, lz4Clz4,
    magicBytes ++ ([] ++ 0 :: frames 8 [entryPayload])⟩

def oneEntryTrace : StreeTrace oneEntry asciiSscanf where
  table := []
  region := []
  payloads := [entryPayload]
  nul_not_mem := List.not_mem_nil
  accepted := rfl
  file := rfl
  fits := by
    intro p hp
    rw [List.mem_singleton.mp hp]
    exact length_entryPayload
  determined := by
    intro p hp
    rw [List.mem_singleton.mp hp]
    exact determines_entryPayload
  useStree := rfl
  lawful := Stree.lawful_listing

/-- The block is published, and its records are not held. -/
theorem reachable_oneEntry : ∃ s b,
    (loader oneEntry (tableAccepts asciiSscanf)).Reachable s ∧ s.blocks[0]? = some b ∧
      s.reader = .tell := by
  obtain ⟨block, hconsume⟩ := exists_consumeBlock_entry oneEntry rfl 9
  rw [← decodedRecords_entryPayload] at hconsume
  obtain ⟨input, -, hs⟩ := reachable_published (V := oneEntry) (tableAccepts asciiSscanf)
    oneEntryTrace.nul_not_mem rfl rfl oneEntryTrace.fits rfl hconsume
  exact ⟨_, _, hs, rfl, rfl⟩

theorem zero_lt_length_entryPayload : 0 < (decodedRecords oneEntry.clz4 entryPayload).length := by
  rw [oneEntry, decodedRecords_entryPayload, padded, List.singleton_append, List.length_cons]
  omega

/-- The equivalence at the published entry. -/
theorem queries_on_published_iff_oneEntry : ∃ s b, s.blocks[0]? = some b ∧
    (QueriesWork oneEntry oneEntryTrace.region s 0 b.block
        (decodedRecords oneEntry.clz4 entryPayload) 0 ↔
      FramesResolve oneEntryTrace.region s 0 b.block.contextRecords
        (decodedRecords oneEntry.clz4 entryPayload) 0) := by
  obtain ⟨s, b, hs, hb, -⟩ := reachable_oneEntry
  exact ⟨s, b, hb, queries_on_published_iff oneEntryTrace hs hb rfl zero_lt_length_entryPayload⟩

/-- On the published block the query for the entry panics. -/
theorem query_of_released_records : ∃ s b,
    (loader oneEntry (tableAccepts asciiSscanf)).Reachable s ∧ s.blocks[0]? = some b ∧
      ¬ QueriesWork oneEntry oneEntryTrace.region s 0 b.block
        (decodedRecords oneEntry.clz4 entryPayload) 0 := by
  obtain ⟨s, b, hs, hb, hreader⟩ := reachable_oneEntry
  obtain ⟨n, hn⟩ := loading_of_reachable (tableAccepts asciiSscanf) oneEntryTrace.nul_not_mem
    oneEntryTrace.file oneEntryTrace.fits oneEntryTrace.determined hs
  refine ⟨s, b, hs, hb, ?_⟩
  intro hwork
  have hresolve := (oneEntryTrace.queriesWork_iff (p := entryPayload) hn hb rfl
    zero_lt_length_entryPayload).mp hwork
  rcases hresolve.held with ⟨off, more, records, hrebuild⟩ | hinherited
  · rw [hreader] at hrebuild
    cases hrebuild
  · apply hinherited
    have htoken : (enterRecord 16).token = .enter (enterRecord 16) := by decide
    have hopen : openPositions b.block.contextRecords
        (decodedRecords oneEntry.clz4 entryPayload) 0 =
          0 :: (contextStack b.block.contextRecords).top := by
      rw [oneEntry, decodedRecords_entryPayload, padded, List.singleton_append, openPositions,
        List.take_succ_cons, List.map_cons, htoken]
      rfl
    exact ⟨0, by rw [hopen]; exact List.mem_cons_self, Int.le_refl 0⟩

end Mema
