import Mathlib.Data.Finset.Sort
import Mathlib.Algebra.Order.Field.Basic
import Mathlib.Data.Rat.Cast.Order
import Mathlib.Order.Monotone.Defs
import Mema.Viewer.FuncTree

/-!
# Active pages and vertices of a block

`memaviz/block.go:41–119,349–450`: the pages a block touches, what is cut away to their left,
and one vertex for each visible record. Single-precision results pass through a rounding
function; addresses wrap at 64 bits.
-/

namespace Mema

/-! ### Single precision -/

/-- Rounding to single precision: monotone, and exact on the small halves. -/
structure Rounding where
  round : Rat → Rat
  monotone : Monotone round
  exact : ∀ n : Int, -8 ≤ n → n ≤ 8 → round ((n : Rat) / 2) = (n : Rat) / 2

/-- Arithmetic without rounding error. -/
def Rounding.none : Rounding := ⟨id, monotone_id, fun _ _ _ ↦ rfl⟩

/-! ### `ActiveRegionIDs` -/

/-- The viewer's command-line flags, `main.go:31–40`. -/
structure ViewerFlags where
  useStree : Bool
  pageSize : UInt64
  hideQpFraction : UInt64
  deriving DecidableEq, Repr

/-- The defaults of the flags. -/
def ViewerFlags.default : ViewerFlags := ⟨false, 4096, 0⟩

/-- What `ActiveRegionIDs` stores in the block. -/
structure Regions where
  quietPages : Finset UInt64
  activePages : Finset UInt64
  displayActivePages : Finset UInt64
  nPagesToLeft : List (UInt64 × UInt64)
  nInactiveToLeft : List (UInt64 × UInt64)

/-- The keys of `page_activity`, once for each access, `block.go:44–53`. -/
def accessedPages (flags : ViewerFlags) (records : List Record) :
    Except GoPanic (List UInt64) :=
  let accesses := records.filter fun r ↦ r.type = MEMA_ACCESS
  if flags.pageSize = 0 ∧ accesses ≠ [] then .error .divideByZero
  else .ok (accesses.map fun r ↦ r.addr / flags.pageSize)

/-- The loop that counts inactive pages to the left, `block.go:107–118`. -/
def inactiveToLeft : Option UInt64 → UInt64 → List UInt64 → List (UInt64 × UInt64)
  | _, _, [] => []
  | previous, total, p :: pages =>
    let inactive := match previous with
      | none => p
      | some q => p - q
    let total := total + (inactive - 1)
    (p, total) :: inactiveToLeft (some p) total pages

/-- Less than a fraction of the activity of the busiest page, `block.go:56–61,88–91`. -/
def quiet (flags : ViewerFlags) (touched : List UInt64) (page : UInt64) : Prop :=
  let highest := touched.foldl (fun h p ↦ max h (touched.count p)) 0
  flags.hideQpFraction ≠ 0 ∧ touched.count page < highest / flags.hideQpFraction.toNat

instance (flags : ViewerFlags) (touched : List UInt64) :
    DecidablePred (quiet flags touched) := fun _ ↦ inferInstanceAs (Decidable (_ ∧ _))

/-- The maps `ActiveRegionIDs` builds from the page activity, `block.go:63–118`; no earlier
block's pages are copied, the loop over past blocks being empty. -/
def regionsOf (flags : ViewerFlags) (touched : List UInt64) : Regions :=
  let active := touched.toFinset.filter fun p ↦ ¬ quiet flags touched p
  let sorted := active.sort (· ≤ ·)
  { quietPages := touched.toFinset.filter (quiet flags touched)
    activePages := active
    displayActivePages := active
    nPagesToLeft := sorted.zipIdx.map fun p ↦ (p.1, .ofNat p.2)
    nInactiveToLeft := inactiveToLeft none 0 sorted }

/-- `Block.ActiveRegionIDs`, `block.go:41–119`. -/
def activeRegionIDs (flags : ViewerFlags) (records : List Record) :
    Except GoPanic Regions := do
  let touched ← accessedPages flags records
  return regionsOf flags touched

/-! ### `GenerateVertices` -/

/-- One vertex: position and colour. No `x` stands for a NaN. -/
structure Vertex where
  x : Option Rat
  y : Rat
  colour : UInt8 × UInt8 × UInt8
  deriving DecidableEq

/-- `n_inactive_to_left[page]`; a missing key reads zero. -/
def Regions.inactiveBefore (regions : Regions) (page : UInt64) : UInt64 :=
  (regions.nInactiveToLeft.lookup page).getD 0

/-- The abscissa of an access, `block.go:415–420`. Without width the quotient is infinite,
or a NaN that passes both comparisons. -/
def accessX (F : Rounding) (offset width : UInt64) : Except GoPanic (Option Rat) :=
  if width = 0 then if offset = 0 then .ok none else .error .unexpectedX
  else
    let x := F.round (F.round offset.toNat / F.round width.toNat)
    let x := F.round (F.round (x - 1 / 2) * 4)
    if x > 4 ∨ x < -4 then .error .unexpectedX else .ok (some x)

/-- The colour of an access, `block.go:423`. -/
def accessColour (rec : Record) : UInt8 × UInt8 × UInt8 :=
  (rec.isWrite.toUInt8 * 255, (1 - rec.isWrite).toUInt8 * 255, 0)

/-- The abscissa of a call at a stack depth, `block.go:379,393`. -/
def depthX (F : Rounding) (stackDepth : Int) : Rat :=
  F.round (2 + F.round (F.round stackDepth / 80))

/-- The vertex of an access record, none on a quiet page, `block.go:408–426`. -/
def accessVertex (F : Rounding) (flags : ViewerFlags) (regions : Regions) (pos : Nat)
    (rec : Record) : Except GoPanic (Option Vertex) :=
  let width := (.ofNat regions.displayActivePages.card + 1) * flags.pageSize
  if flags.pageSize = 0 then .error .divideByZero
  else
    let page := rec.addr / flags.pageSize
    if page ∈ regions.quietPages then .ok none
    else
      match accessX F (rec.addr - regions.inactiveBefore page * flags.pageSize) width with
      | .error p => .error p
      | .ok x => .ok (some ⟨x, F.round pos, accessColour rec⟩)

/-- `stack_depth` when a record is drawn: an enter counts itself. -/
def drawDepth (stackDepth : Int) (rec : Record) : Int :=
  if rec.type = MEMA_FUNC_ENTER then stackDepth + 1 else stackDepth

/-- `stack_depth` after a record: an exit is counted after it is drawn. -/
def nextDepth (stackDepth : Int) (rec : Record) : Int :=
  if rec.type = MEMA_FUNC_ENTER then stackDepth + 1
  else if rec.type = MEMA_FUNC_EXIT then stackDepth - 1
  else stackDepth

/-- The body of the loop of `GenerateVertices`: what a record adds, `block.go:374–426`. -/
def recordVertex (F : Rounding) (flags : ViewerFlags) (regions : Regions) (pos : Nat)
    (stackDepth : Int) (rec : Record) : Except GoPanic (Option Vertex) :=
  if rec.type = MEMA_ACCESS then accessVertex F flags regions pos rec
  else if rec.type = MEMA_FUNC_ENTER then
    .ok (some ⟨some (depthX F (drawDepth stackDepth rec)), F.round pos, (64, 64, 255)⟩)
  else if rec.type = MEMA_FUNC_EXIT then
    .ok (some ⟨some (depthX F (drawDepth stackDepth rec)), F.round pos, (255, 64, 64)⟩)
  else .error .unexpectedRecordType

/-- The loop of `GenerateVertices` over `n` more positions, `block.go:369–440`. -/
def generateLoop (F : Rounding) (flags : ViewerFlags) (regions : Regions) :
    Nat → Nat → Int → List Record → Except GoPanic (List Vertex)
  | 0, _, _, _ => .ok []
  | _ + 1, _, _, [] => .error .indexOutOfRange
  | n + 1, pos, stackDepth, rec :: records => do
    let vertex ← recordVertex F flags regions pos stackDepth rec
    let vertices ← generateLoop F flags regions n (pos + 1) (nextDepth stackDepth rec) records
    return vertex.toList ++ vertices

/-- `Block.GenerateVertices`, `block.go:349–450`, started at the depth of the context. The
caller loses the records. -/
def generateVertices (F : Rounding) (flags : ViewerFlags) (regions : Regions)
    (contextRecords : List Record) (nrecords : Nat) (records : List Record) :
    Except GoPanic (List Vertex) :=
  generateLoop F flags regions nrecords 0 contextRecords.length records

/-! ### The consumer of new blocks -/

/-- A loaded block: what the consumer has added to the decoded one. -/
structure Block (τ : Type) where
  fileOffset : Nat
  nrecords : Nat
  records : List Record
  contextRecords : List Record
  stackStree : Option τ
  regions : Regions
  vertexData : List Vertex

section Consumer

variable {τ : Type} (S : Stree τ) (F : Rounding) (flags : ViewerFlags)

/-- The tree of a block and the context of the next one; without `-stree` the context stays
as it is, `data.go:135–140`. -/
def stackContext (currentContext : List Record) (records : List Record) :
    Except GoPanic (Option τ × List Record) :=
  if flags.useStree then do
    let (tree, context) ← buildStree S currentContext records
    return (some tree, context)
  else .ok (none, currentContext)

/-- One turn of the consumer, `data.go:136–144`. -/
def consumeBlock (currentContext : List Record) (b : RawBlock) :
    Except GoPanic (Block τ × List Record) := do
  let (tree, context) ← stackContext S flags currentContext b.records
  let regions ← activeRegionIDs flags b.records
  let vertices ← generateVertices F flags regions currentContext b.nrecords b.records
  return ({
    fileOffset := b.fileOffset
    nrecords := b.nrecords
    records := []
    contextRecords := currentContext
    stackStree := tree
    regions := regions
    vertexData := vertices }, context)

/-- The consumer over all blocks of a file. -/
def consumeBlocks : List Record → List RawBlock → Except GoPanic (List (Block τ))
  | _, [] => .ok []
  | currentContext, b :: bs => do
    let (block, context) ← consumeBlock S F flags currentContext b
    let blocks ← consumeBlocks context bs
    return block :: blocks

end Consumer

/-! ### Accesses stay on the canvas -/

/-- Cumulated gaps telescope: before the page at index `i` of the sorted list lie `i` active
pages and everything else up to the page itself is inactive. -/
theorem inactiveToLeft_eq {previous : Option UInt64} {total : UInt64} {c : Nat}
    (h : total = previous.getD 0 - .ofNat c) (pages : List UInt64) :
    inactiveToLeft previous total pages =
      (pages.zipIdx c).map fun p ↦ (p.1, p.1 - (.ofNat p.2 + 1)) := by
  induction pages generalizing previous total c with
  | nil => rfl
  | cons p pages ih =>
    have hstep : inactiveToLeft previous total (p :: pages) =
        (p, total + ((p - previous.getD 0) - 1)) ::
          inactiveToLeft (some p) (total + ((p - previous.getD 0) - 1)) pages := by
      cases previous with
      | none => simp [inactiveToLeft]
      | some q => rfl
    have hsucc : (UInt64.ofNat (c + 1)) = .ofNat c + 1 := by
      rw [UInt64.ofNat_add]
      rfl
    have htotal : total + ((p - previous.getD 0) - 1) = p - (.ofNat c + 1) := by
      rw [h]
      grind
    have hrec : inactiveToLeft (some p) (p - (.ofNat c + 1)) pages =
        (pages.zipIdx (c + 1)).map fun p ↦ (p.1, p.1 - (.ofNat p.2 + 1)) :=
      ih (by rw [hsucc]; rfl)
    rw [hstep, htotal, hrec]
    rfl

/-- Every page of the list is found with its own index. -/
theorem lookup_inactive {pages : List UInt64} {p : UInt64} (hp : p ∈ pages) (c : Nat) :
    ∃ i, i < c + pages.length ∧
      ((pages.zipIdx c).map fun p ↦ (p.1, p.1 - (UInt64.ofNat p.2 + 1))).lookup p =
        some (p - (.ofNat i + 1)) := by
  induction pages generalizing c with
  | nil => cases hp
  | cons q pages ih =>
    rw [List.zipIdx_cons, List.map_cons, List.length_cons]
    by_cases heq : p = q
    · subst heq
      exact ⟨c, by omega, by simp⟩
    · have hmem := (List.mem_cons.mp hp).resolve_left heq
      obtain ⟨i, hi, hlookup⟩ := ih hmem (c + 1)
      have hne : (p == q) = false := by simpa using heq
      exact ⟨i, by omega, by simpa only [List.lookup_cons, hne] using hlookup⟩

/-- An offset inside the width is drawn between -2 and 2. -/
theorem accessX_ok (F : Rounding) {offset width : UInt64} (h : offset < width) :
    ∃ x, accessX F offset width = .ok (some x) := by
  have hlt : offset.toNat < width.toNat := h
  have hw : width ≠ 0 := by
    intro h0
    rw [h0] at hlt
    simp at hlt
  have h1 : F.round 1 = 1 := by simpa using F.exact 2 (by decide) (by decide)
  have h0 : F.round 0 = 0 := by simpa using F.exact 0 (by decide) (by decide)
  have hhalf : F.round (1 / 2) = 1 / 2 := by simpa using F.exact 1 (by decide) (by decide)
  have hnhalf : F.round (-(1 / 2)) = -(1 / 2) := by
    have := F.exact (-1) (by decide) (by decide)
    norm_num at this ⊢
    exact this
  have h2 : F.round 2 = 2 := by
    have := F.exact 4 (by decide) (by decide)
    norm_num at this
    exact this
  have hn2 : F.round (-2) = -2 := by
    have := F.exact (-4) (by decide) (by decide)
    norm_num at this
    exact this
  -- Rounding keeps the quotient in the unit interval, being monotone and exact at its ends.
  have hwidth : F.round 1 ≤ F.round width.toNat := by
    apply F.monotone
    have : 1 ≤ width.toNat := by omega
    exact_mod_cast this
  have hoff : F.round 0 ≤ F.round offset.toNat := F.monotone (Nat.cast_nonneg _)
  have hle : F.round offset.toNat ≤ F.round width.toNat := by
    apply F.monotone
    exact_mod_cast le_of_lt hlt
  have hpos : 0 < F.round width.toNat := by linarith
  set q := F.round (F.round offset.toNat / F.round width.toNat) with hq
  have hq0 : F.round 0 ≤ q := F.monotone (div_nonneg (by linarith) (le_of_lt hpos))
  have hq1 : q ≤ F.round 1 := F.monotone ((div_le_one hpos).mpr hle)
  have hlo : F.round (-(1 / 2)) ≤ F.round (q - 1 / 2) := F.monotone (by linarith)
  have hhi : F.round (q - 1 / 2) ≤ F.round (1 / 2) := F.monotone (by linarith)
  have hxlo : F.round (-2) ≤ F.round (F.round (q - 1 / 2) * 4) := F.monotone (by linarith)
  have hxhi : F.round (F.round (q - 1 / 2) * 4) ≤ F.round 2 := F.monotone (by linarith)
  refine ⟨F.round (F.round (q - 1 / 2) * 4), ?_⟩
  rw [accessX, if_neg hw]
  apply if_neg
  rintro (hgt | hlt)
  · linarith
  · linarith

/-- Cutting the inactive pages away keeps the offset in the page and what lies before it. -/
theorem cut_eq {a ps : UInt64} (i : Nat) :
    a - (a / ps - (.ofNat i + 1)) * ps = (.ofNat i + 1) * ps + a % ps := by
  have hdiv : a = a / ps * ps + a % ps := by
    apply UInt64.toNat_inj.mp
    rw [UInt64.toNat_add, UInt64.toNat_mul, UInt64.toNat_div, UInt64.toNat_mod,
      Nat.mod_add_mod, Nat.div_add_mod', Nat.mod_eq_of_lt a.toNat_lt]
  generalize a / ps = q at *
  generalize a % ps = r at *
  subst hdiv
  grind

/-- The first pages and the margin before them do not wrap when all of them fit. -/
theorem pages_toNat {ps : UInt64} {k n : Nat} (hps : ps ≠ 0) (hk : k ≤ n)
    (hn : (n + 1) * ps.toNat < 2 ^ 64) :
    ((UInt64.ofNat k + 1) * ps).toNat = (k + 1) * ps.toNat := by
  have hpos : 0 < ps.toNat := Nat.pos_of_ne_zero fun h0 ↦ hps (UInt64.toNat_inj.mp h0)
  have hle : (k + 1) * ps.toNat ≤ (n + 1) * ps.toNat := Nat.mul_le_mul_right _ (by omega)
  have hone : k + 1 ≤ (k + 1) * ps.toNat := Nat.le_mul_of_pos_right _ hpos
  have hcast : (UInt64.ofNat k + 1) = UInt64.ofNat (k + 1) := by
    rw [UInt64.ofNat_add]
    rfl
  have hsmall : (k + 1) % 2 ^ 64 = k + 1 := Nat.mod_eq_of_lt (by omega)
  rw [hcast, UInt64.toNat_mul, UInt64.toNat_ofNat', hsmall, Nat.mod_eq_of_lt (by omega)]

/-- The cut address in exact arithmetic: the margin, the active pages before its own, and its
offset in the page. -/
theorem cut_toNat {a ps : UInt64} {i n : Nat} (hps : ps ≠ 0) (hi : i < n)
    (hn : (n + 1) * ps.toNat < 2 ^ 64) :
    (a - (a / ps - (.ofNat i + 1)) * ps).toNat = (i + 1) * ps.toNat + a.toNat % ps.toNat := by
  have hpos : 0 < ps.toNat := Nat.pos_of_ne_zero fun h0 ↦ hps (UInt64.toNat_inj.mp h0)
  have hmod : a.toNat % ps.toNat < ps.toNat := Nat.mod_lt _ hpos
  have hmul : (i + 1) * ps.toNat ≤ n * ps.toNat := Nat.mul_le_mul_right _ hi
  have hsucc : (n + 1) * ps.toNat = n * ps.toNat + ps.toNat := Nat.succ_mul _ _
  rw [cut_eq, UInt64.toNat_add, pages_toNat hps (by omega : i ≤ n) hn, UInt64.toNat_mod,
    Nat.mod_eq_of_lt (by omega)]

/-- Cutting the inactive pages away moves an address below the width. -/
theorem cut_lt_width {a ps : UInt64} {i n : Nat} (hps : ps ≠ 0) (hi : i < n)
    (hn : (n + 1) * ps.toNat < 2 ^ 64) :
    a - (a / ps - (.ofNat i + 1)) * ps < (.ofNat n + 1) * ps := by
  have hpos : 0 < ps.toNat := Nat.pos_of_ne_zero fun h0 ↦ hps (UInt64.toNat_inj.mp h0)
  have hmod : a.toNat % ps.toNat < ps.toNat := Nat.mod_lt _ hpos
  have hmul : (i + 1) * ps.toNat ≤ n * ps.toNat := Nat.mul_le_mul_right _ hi
  have hsucc : (n + 1) * ps.toNat = n * ps.toNat + ps.toNat := Nat.succ_mul _ _
  rw [UInt64.lt_iff_toNat_lt, cut_toNat hps hi hn, pages_toNat hps (Nat.le_refl n) hn]
  omega

/-- The pages of a block cover its accesses, and each active page is known by its index among
the active ones. -/
structure Regions.Covers (regions : Regions) (flags : ViewerFlags) (records : List Record) :
    Prop where
  page : ∀ r ∈ records, r.type = MEMA_ACCESS →
    r.addr / flags.pageSize ∈ regions.quietPages ∨
      r.addr / flags.pageSize ∈ regions.displayActivePages
  index : ∀ p ∈ regions.displayActivePages, ∃ i, i < regions.displayActivePages.card ∧
    regions.inactiveBefore p = p - (.ofNat i + 1)
  few : regions.displayActivePages.card ≤ records.length

theorem inactiveBefore_regionsOf {flags : ViewerFlags} {touched : List UInt64} {p : UInt64}
    (hp : p ∈ (regionsOf flags touched).displayActivePages) :
    ∃ i, i < (regionsOf flags touched).displayActivePages.card ∧
      (regionsOf flags touched).inactiveBefore p = p - (.ofNat i + 1) := by
  have htable : (regionsOf flags touched).nInactiveToLeft =
      (((regionsOf flags touched).displayActivePages.sort (· ≤ ·)).zipIdx 0).map
        fun p ↦ (p.1, p.1 - (.ofNat p.2 + 1)) := inactiveToLeft_eq (by rfl) _
  obtain ⟨i, hi, hlookup⟩ := lookup_inactive ((Finset.mem_sort (· ≤ ·)).mpr hp) 0
  rw [Nat.zero_add, Finset.length_sort] at hi
  refine ⟨i, hi, ?_⟩
  rw [Regions.inactiveBefore, htable, hlookup, Option.getD_some]

/-- With a page size `ActiveRegionIDs` succeeds and covers the block. -/
theorem activeRegionIDs_covers {flags : ViewerFlags} (hps : flags.pageSize ≠ 0)
    (records : List Record) :
    ∃ regions, activeRegionIDs flags records = .ok regions ∧ regions.Covers flags records := by
  have htouched : accessedPages flags records =
      .ok ((records.filter fun r ↦ r.type = MEMA_ACCESS).map fun r ↦ r.addr / flags.pageSize) :=
    if_neg fun h ↦ hps h.1
  refine ⟨_, by rw [activeRegionIDs, htouched]; rfl, ?_, ?_, ?_⟩
  · intro r hr hacc
    have hmem : r.addr / flags.pageSize ∈
        ((records.filter fun r ↦ r.type = MEMA_ACCESS).map fun r ↦
          r.addr / flags.pageSize).toFinset := by
      apply List.mem_toFinset.mpr
      apply List.mem_map_of_mem
      exact List.mem_filter.mpr ⟨hr, by simpa using hacc⟩
    simp only [regionsOf, Finset.mem_filter, hmem, true_and]
    exact em _
  · exact fun p hp ↦ inactiveBefore_regionsOf hp
  · apply (Finset.card_filter_le _ _).trans
    apply (List.toFinset_card_le _).trans
    rw [List.length_map]
    exact List.length_filter_le _ _

/-- Every access of a covered block is drawn or lies on a quiet page, when the active pages
and one more fit the address space. -/
theorem accessVertex_ok (F : Rounding) {flags : ViewerFlags} {regions : Regions}
    {records : List Record} (h : regions.Covers flags records) (hps : flags.pageSize ≠ 0)
    (hfit : (regions.displayActivePages.card + 1) * flags.pageSize.toNat < 2 ^ 64) (pos : Nat)
    {r : Record} (hr : r ∈ records) (hacc : r.type = MEMA_ACCESS) :
    ∃ v, accessVertex F flags regions pos r = .ok v := by
  simp only [accessVertex, if_neg hps]
  by_cases hquiet : r.addr / flags.pageSize ∈ regions.quietPages
  · exact ⟨none, if_pos hquiet⟩
  · obtain ⟨i, hi, hbefore⟩ := h.index _ ((h.page r hr hacc).resolve_left hquiet)
    obtain ⟨x, hx⟩ := accessX_ok F (cut_lt_width (a := r.addr) hps hi hfit)
    rw [if_neg hquiet, hbefore, hx]
    exact ⟨_, rfl⟩

/-- One of the three codes the viewer knows. -/
def Record.Known (r : Record) : Prop :=
  r.type = MEMA_ACCESS ∨ r.type = MEMA_FUNC_ENTER ∨ r.type = MEMA_FUNC_EXIT

/-- Records of known codes are drawn at any stack depth. -/
theorem generateLoop_known (F : Rounding) {flags : ViewerFlags} {regions : Regions}
    {all : List Record} (h : regions.Covers flags all) (hps : flags.pageSize ≠ 0)
    (hfit : (regions.displayActivePages.card + 1) * flags.pageSize.toNat < 2 ^ 64)
    {n : Nat} {records : List Record} (hn : n ≤ records.length) (hsub : records ⊆ all)
    (hknown : ∀ r ∈ records, r.Known) (pos : Nat) (stackDepth : Int) :
    ∃ vs, generateLoop F flags regions n pos stackDepth records = .ok vs := by
  induction n generalizing records pos stackDepth with
  | zero => exact ⟨[], rfl⟩
  | succ n ih =>
    cases records with
    | nil => simp at hn
    | cons r records =>
      obtain ⟨v, hv⟩ : ∃ v, recordVertex F flags regions pos stackDepth r = .ok v := by
        unfold recordVertex
        rcases hknown r (by simp) with hr | hr | hr
        · obtain ⟨v, hv⟩ := accessVertex_ok F h hps hfit pos (hsub (by simp)) hr
          exact ⟨v, by rw [if_pos hr, hv]⟩
        · exact ⟨_, by rw [if_neg (by rw [hr]; decide), if_pos hr]⟩
        · exact ⟨_, by rw [if_neg (by rw [hr]; decide), if_neg (by rw [hr]; decide), if_pos hr]⟩
      obtain ⟨vs, hvs⟩ := ih (by simpa using hn) (fun q hq ↦ hsub (by simp [hq]))
        (fun q hq ↦ hknown q (by simp [hq])) (pos + 1) (nextDepth stackDepth r)
      refine ⟨v.toList ++ vs, ?_⟩
      simp only [generateLoop, hv, hvs, bind, Except.bind]
      rfl

/-- A full block of known records whose exits are matched passes the consumer. -/
theorem consumeBlock_known {τ : Type} (S : Stree τ) (F : Rounding) {flags : ViewerFlags}
    (hps : flags.pageSize ≠ 0) (hfit : (expectedNrec + 1) * flags.pageSize.toNat < 2 ^ 64)
    {b : RawBlock} (hlen : b.records.length = expectedNrec) (hn : b.nrecords = expectedNrec)
    (hknown : ∀ r ∈ b.records, r.Known) {context frames : List Record}
    (hreplay : Nesting.replay context (b.records.map Record.token) = some frames) :
    ∃ block, consumeBlock S F flags context b =
      .ok (block, if flags.useStree then frames else context) := by
  obtain ⟨tree, hstack⟩ : ∃ tree, stackContext S flags context b.records =
      .ok (tree, if flags.useStree then frames else context) := by
    have hspec := buildStree_spec S context b.records
    rw [hreplay] at hspec
    obtain ⟨tree, hbuild, -⟩ := hspec
    unfold stackContext
    split
    · exact ⟨some tree, by rw [hbuild]; rfl⟩
    · exact ⟨none, rfl⟩
  obtain ⟨regions, hregions, hcovers⟩ := activeRegionIDs_covers hps b.records
  have hcard : (regions.displayActivePages.card + 1) * flags.pageSize.toNat < 2 ^ 64 := by
    have hle := Nat.mul_le_mul_right flags.pageSize.toNat
      (Nat.succ_le_succ (hlen ▸ hcovers.few))
    exact Nat.lt_of_le_of_lt hle hfit
  obtain ⟨vs, hvs⟩ := generateLoop_known F hcovers hps hcard
    (le_of_eq (hn.trans hlen.symm)) (List.Subset.refl _) hknown 0 context.length
  refine ⟨⟨b.fileOffset, b.nrecords, [], context, tree, regions, vs⟩, ?_⟩
  simp only [consumeBlock, hstack, hregions, generateVertices, hvs, bind, Except.bind]
  rfl

end Mema
