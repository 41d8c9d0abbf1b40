import Mathlib.Algebra.Order.Field.Rat
import Mathlib.Tactic.Linarith
import Mathlib.Tactic.NormNum
import Mema.Viewer.Vertices

/-!
# Compacted addresses

`memaviz/block.go:41–119,408–420`: active and quiet pages partition what a block touches, and
the canvas lays the active pages side by side after a margin of one page.
-/

namespace Mema

/-- How often a page is accessed, `page_activity`. -/
def activity (flags : ViewerFlags) (records : List Record) (page : UInt64) : Nat :=
  records.countP fun r ↦ r.type = MEMA_ACCESS ∧ r.addr / flags.pageSize = page

/-- Active pages below a page. -/
def Regions.activeBelow (regions : Regions) (page : UInt64) : Nat :=
  (regions.activePages.filter (· < page)).card

/-- `Addr - n_inactive_to_left[page] * PAGE_SIZE`, `block.go:415`. -/
def Regions.cut (regions : Regions) (flags : ViewerFlags) (addr : UInt64) : UInt64 :=
  addr - regions.inactiveBefore (addr / flags.pageSize) * flags.pageSize

/-- `width`, `block.go:362`. -/
def Regions.width (regions : Regions) (flags : ViewerFlags) : UInt64 :=
  (.ofNat regions.displayActivePages.card + 1) * flags.pageSize

/-- The accessed pages fall into quiet and active ones, the busiest being active. -/
structure Regions.Partitions (regions : Regions) (flags : ViewerFlags) (records : List Record) :
    Prop where
  exactlyOne : ∀ r ∈ records, r.type = MEMA_ACCESS →
    Xor (r.addr / flags.pageSize ∈ regions.quietPages)
      (r.addr / flags.pageSize ∈ regions.activePages)
  busiest : ∀ r ∈ records, r.type = MEMA_ACCESS →
    (∀ page, activity flags records page ≤ activity flags records (r.addr / flags.pageSize)) →
      r.addr / flags.pageSize ∈ regions.activePages

/-- Addresses of active pages are laid out densely and in order, inside the width. -/
structure Regions.Compacts (regions : Regions) (flags : ViewerFlags) (records : List Record) :
    Prop where
  offset : ∀ addr : UInt64, addr / flags.pageSize ∈ regions.activePages →
    (regions.cut flags addr).toNat =
      (regions.activeBelow (addr / flags.pageSize) + 1) * flags.pageSize.toNat +
        addr.toNat % flags.pageSize.toNat
  inside : ∀ addr : UInt64, addr / flags.pageSize ∈ regions.activePages →
    regions.cut flags addr < regions.width flags
  width : (regions.width flags).toNat = (regions.activePages.card + 1) * flags.pageSize.toNat
  ordered : ∀ r q : Record, r.addr / flags.pageSize ∈ regions.activePages →
    q.addr / flags.pageSize ∈ regions.activePages → r.addr < q.addr → ∀ i j : Nat,
      ∃ v w x y, accessVertex .none flags regions i r = .ok (some v) ∧ v.x = some x ∧
        accessVertex .none flags regions j q = .ok (some w) ∧ w.x = some y ∧ x < y
  expected : ∀ (F : Rounding) (contextRecords : List Record) (nrecords : Nat),
    generateVertices F flags regions contextRecords nrecords records ≠ .error .unexpectedX

/-! ### Quiet and active pages -/

private theorem count_touched (flags : ViewerFlags) (records : List Record) (page : UInt64) :
    ((records.filter fun r ↦ r.type = MEMA_ACCESS).map fun r ↦
      r.addr / flags.pageSize).count page = activity flags records page := by
  induction records with
  | nil => rfl
  | cons r records ih =>
    rw [activity, List.countP_cons, ← activity, ← ih]
    by_cases hacc : r.type = MEMA_ACCESS
    · simp [hacc, List.count_cons]
    · simp [hacc]

private theorem foldl_max_le {α : Type} {f : α → Nat} {m : Nat} {xs : List α} {h : Nat}
    (hh : h ≤ m) (hf : ∀ x ∈ xs, f x ≤ m) : xs.foldl (fun h x ↦ max h (f x)) h ≤ m := by
  induction xs generalizing h with
  | nil => exact hh
  | cons x xs ih =>
    apply ih
    · exact max_le hh (hf x (by simp))
    · intro y hy
      exact hf y (by simp [hy])

/-- A page that no other exceeds is not quiet, whatever the fraction. -/
theorem not_quiet_busiest {flags : ViewerFlags} {touched : List UInt64} {page : UInt64}
    (h : ∀ q ∈ touched, touched.count q ≤ touched.count page) : ¬ quiet flags touched page := by
  intro ⟨_, hlt⟩
  have hhighest : touched.foldl (fun h p ↦ max h (touched.count p)) 0 ≤ touched.count page :=
    foldl_max_le (Nat.zero_le _) h
  have hfraction := Nat.div_le_self
    (touched.foldl (fun h p ↦ max h (touched.count p)) 0) flags.hideQpFraction.toNat
  omega

private theorem mem_touched (flags : ViewerFlags) {records : List Record} {r : Record}
    (hr : r ∈ records) (hacc : r.type = MEMA_ACCESS) :
    r.addr / flags.pageSize ∈ (records.filter fun r ↦ r.type = MEMA_ACCESS).map fun r ↦
      r.addr / flags.pageSize := by
  apply List.mem_map_of_mem
  exact List.mem_filter.mpr ⟨hr, by simpa using hacc⟩

theorem regionsOf_partitions (flags : ViewerFlags) (records : List Record) :
    (regionsOf flags ((records.filter fun r ↦ r.type = MEMA_ACCESS).map fun r ↦
      r.addr / flags.pageSize)).Partitions flags records := by
  constructor
  · intro r hr hacc
    have hmem := List.mem_toFinset.mpr (mem_touched flags hr hacc)
    simp only [regionsOf, Finset.mem_filter, hmem, true_and]
    exact xor_not_right.mpr Iff.rfl
  · intro r hr hacc hmax
    apply Finset.mem_filter.mpr
    refine ⟨List.mem_toFinset.mpr (mem_touched flags hr hacc), not_quiet_busiest ?_⟩
    intro q _
    rw [count_touched, count_touched]
    exact hmax q

/-! ### The offset of a page -/

private theorem lookup_ranked {pages : List UInt64} (hs : pages.Pairwise (· < ·)) {p : UInt64}
    (hp : p ∈ pages) (c : Nat) :
    ((pages.zipIdx c).map fun p ↦ (p.1, p.1 - (UInt64.ofNat p.2 + 1))).lookup p =
      some (p - (.ofNat (c + (pages.filter (· < p)).length) + 1)) := by
  induction pages generalizing c with
  | nil => cases hp
  | cons q pages ih =>
    obtain ⟨hq, hpages⟩ := List.pairwise_cons.mp hs
    rw [List.zipIdx_cons, List.map_cons]
    by_cases heq : p = q
    · subst heq
      have hnone : pages.filter (· < p) = [] := by
        apply List.filter_eq_nil_iff.mpr
        intro r hr
        simpa using UInt64.le_of_lt (hq r hr)
      simp [hnone]
    · have hmem := (List.mem_cons.mp hp).resolve_left heq
      have hne : (p == q) = false := by simpa using heq
      have hfilter : (q :: pages).filter (· < p) = q :: pages.filter (· < p) :=
        List.filter_cons_of_pos (by simpa using hq p hmem)
      have hindex : c + 1 + (pages.filter (· < p)).length =
          c + ((pages.filter (· < p)).length + 1) := by omega
      simp only [List.lookup_cons, hne]
      rw [ih hpages hmem (c + 1), hfilter, List.length_cons, hindex]

private theorem sort_increasing (pages : Finset UInt64) :
    (pages.sort (· ≤ ·)).Pairwise (· < ·) := by
  apply ((Finset.pairwise_sort pages (· ≤ ·)).and (Finset.sort_nodup pages (· ≤ ·))).imp
  intro p q h
  exact UInt64.lt_of_le_of_ne h.1 h.2

private theorem length_filter_sort (pages : Finset UInt64) (p : UInt64) :
    ((pages.sort (· ≤ ·)).filter (· < p)).length = (pages.filter (· < p)).card := by
  have hnodup : ((pages.sort (· ≤ ·)).filter (· < p)).Nodup :=
    (Finset.sort_nodup pages (· ≤ ·)).filter _
  rw [← List.toFinset_card_of_nodup hnodup, List.toFinset_filter, Finset.sort_toFinset]
  simp

/-- The running sum of gaps leaves of an active page's number only the active pages up to it. -/
theorem inactiveBefore_eq {flags : ViewerFlags} {touched : List UInt64} {p : UInt64}
    (hp : p ∈ (regionsOf flags touched).activePages) :
    (regionsOf flags touched).inactiveBefore p =
      p - (.ofNat ((regionsOf flags touched).activeBelow p) + 1) := by
  have htable : (regionsOf flags touched).nInactiveToLeft =
      (((regionsOf flags touched).activePages.sort (· ≤ ·)).zipIdx 0).map
        fun p ↦ (p.1, p.1 - (.ofNat p.2 + 1)) := inactiveToLeft_eq (by rfl) _
  have hlookup := lookup_ranked (sort_increasing _) ((Finset.mem_sort (· ≤ ·)).mpr hp) 0
  rw [Nat.zero_add, length_filter_sort] at hlookup
  rw [Regions.inactiveBefore, htable, hlookup, Option.getD_some]
  rfl

/-- A page has fewer active pages below it than there are, being active itself. -/
theorem activeBelow_lt {regions : Regions} {p : UInt64} (hp : p ∈ regions.activePages) :
    regions.activeBelow p < regions.activePages.card := by
  apply Finset.card_lt_card
  apply Finset.filter_ssubset.mpr
  exact ⟨p, hp, UInt64.lt_irrefl p⟩

/-- A later active page has more active pages below it. -/
theorem activeBelow_strict {regions : Regions} {p q : UInt64} (hp : p ∈ regions.activePages)
    (hlt : p < q) : regions.activeBelow p < regions.activeBelow q := by
  apply Finset.card_lt_card
  apply Finset.ssubset_iff_subset_ne.mpr
  constructor
  · intro r hr
    obtain ⟨hmem, hrp⟩ := Finset.mem_filter.mp hr
    exact Finset.mem_filter.mpr ⟨hmem, UInt64.lt_trans hrp hlt⟩
  · intro heq
    have hpq : p ∈ regions.activePages.filter (· < q) := Finset.mem_filter.mpr ⟨hp, hlt⟩
    rw [← heq] at hpq
    exact UInt64.lt_irrefl p (Finset.mem_filter.mp hpq).2

/-! ### The abscissa in exact arithmetic -/

/-- Without rounding an offset inside the width is drawn where it divides the canvas. -/
theorem accessX_exact {offset width : UInt64} (h : offset < width) :
    accessX .none offset width =
      .ok (some (((offset.toNat : Rat) / width.toNat - 1 / 2) * 4)) := by
  obtain ⟨x, hx⟩ := accessX_ok .none h
  have hw : width ≠ 0 := by
    intro h0
    subst h0
    exact absurd h (by simp)
  have hvalue : x = ((offset.toNat : Rat) / width.toNat - 1 / 2) * 4 := by
    rw [accessX, if_neg hw] at hx
    dsimp only [Rounding.none, id] at hx
    split at hx
    · cases hx
    · simpa using hx.symm
  rw [hx, hvalue]

private theorem exact_lt {a b w : UInt64} (hab : a.toNat < b.toNat) (hb : b < w) :
    ((a.toNat : Rat) / w.toNat - 1 / 2) * 4 < ((b.toNat : Rat) / w.toNat - 1 / 2) * 4 := by
  have hlt : b.toNat < w.toNat := hb
  have hw : (0 : Rat) < w.toNat := by
    have : 0 < w.toNat := by omega
    exact_mod_cast this
  have hcast : (a.toNat : Rat) < b.toNat := by exact_mod_cast hab
  have hdiv : (a.toNat : Rat) / w.toNat < b.toNat / w.toNat :=
    (div_lt_div_iff_of_pos_right hw).mpr hcast
  linarith

/-! ### The compaction -/

section Regions

variable {flags : ViewerFlags} (hps : flags.pageSize ≠ 0) {touched : List UInt64}
  (hfit : ((regionsOf flags touched).activePages.card + 1) * flags.pageSize.toNat < 2 ^ 64)

include hps hfit

theorem regionsOf_offset {addr : UInt64}
    (hpage : addr / flags.pageSize ∈ (regionsOf flags touched).activePages) :
    ((regionsOf flags touched).cut flags addr).toNat =
      ((regionsOf flags touched).activeBelow (addr / flags.pageSize) + 1) *
          flags.pageSize.toNat + addr.toNat % flags.pageSize.toNat := by
  rw [Regions.cut, inactiveBefore_eq hpage]
  exact cut_toNat hps (activeBelow_lt hpage) hfit

theorem regionsOf_inside {addr : UInt64}
    (hpage : addr / flags.pageSize ∈ (regionsOf flags touched).activePages) :
    (regionsOf flags touched).cut flags addr < (regionsOf flags touched).width flags := by
  rw [Regions.cut, inactiveBefore_eq hpage]
  exact cut_lt_width hps (activeBelow_lt hpage) hfit

/-- Cutting keeps the order of the addresses of active pages. -/
theorem regionsOf_cut_lt {a b : UInt64}
    (ha : a / flags.pageSize ∈ (regionsOf flags touched).activePages)
    (hb : b / flags.pageSize ∈ (regionsOf flags touched).activePages) (hab : a < b) :
    ((regionsOf flags touched).cut flags a).toNat <
      ((regionsOf flags touched).cut flags b).toNat := by
  rw [regionsOf_offset hps hfit ha, regionsOf_offset hps hfit hb]
  have hlt : a.toNat < b.toNat := hab
  have hpos : 0 < flags.pageSize.toNat :=
    Nat.pos_of_ne_zero fun h0 ↦ hps (UInt64.toNat_inj.mp h0)
  have hdiv : a.toNat / flags.pageSize.toNat ≤ b.toNat / flags.pageSize.toNat :=
    Nat.div_le_div_right (by omega)
  rcases Nat.lt_or_eq_of_le hdiv with hpages | hpages
  · -- a later page: at least one more page lies below it
    have hpage : a / flags.pageSize < b / flags.pageSize := by
      rw [UInt64.lt_iff_toNat_lt, UInt64.toNat_div, UInt64.toNat_div]
      exact hpages
    have hbelow := activeBelow_strict ha hpage
    have hmod : a.toNat % flags.pageSize.toNat < flags.pageSize.toNat := Nat.mod_lt _ hpos
    have hmul := Nat.mul_le_mul_right flags.pageSize.toNat hbelow
    rw [Nat.succ_mul] at hmul
    rw [Nat.add_mul, Nat.add_mul]
    omega
  · -- the same page: the offsets in it decide
    have hpage : a / flags.pageSize = b / flags.pageSize := by
      apply UInt64.toNat_inj.mp
      rw [UInt64.toNat_div, UInt64.toNat_div]
      exact hpages
    have hadiv := Nat.div_add_mod a.toNat flags.pageSize.toNat
    have hbdiv := Nat.div_add_mod b.toNat flags.pageSize.toNat
    rw [hpage]
    rw [hpages] at hadiv
    omega

/-- An access to an active page is drawn at its cut address. -/
theorem accessVertex_active (r : Record)
    (hpage : r.addr / flags.pageSize ∈ (regionsOf flags touched).activePages) (pos : Nat) :
    ∃ v, accessVertex .none flags (regionsOf flags touched) pos r = .ok (some v) ∧
      v.x = some (((((regionsOf flags touched).cut flags r.addr).toNat : Rat) /
        ((regionsOf flags touched).width flags).toNat - 1 / 2) * 4) := by
  have hquiet : r.addr / flags.pageSize ∉ (regionsOf flags touched).quietPages := by
    intro hquiet
    exact (Finset.mem_filter.mp hpage).2 (Finset.mem_filter.mp hquiet).2
  have hx := accessX_exact (regionsOf_inside hps hfit hpage)
  simp only [accessVertex, if_neg hps, if_neg hquiet]
  rw [← Regions.cut, ← Regions.width, hx]
  exact ⟨_, rfl, rfl⟩

end Regions

/-- The panic over an unexpected abscissa is out of reach while every access can be drawn. -/
private theorem generateLoop_expected {F : Rounding} {flags : ViewerFlags} {regions : Regions}
    {all : List Record} (hall : ∀ r ∈ all, r.type = MEMA_ACCESS → ∀ pos, ∃ v,
      accessVertex F flags regions pos r = .ok v) {n pos : Nat} {stackDepth : Int}
    {records : List Record} (hsub : records ⊆ all) :
    generateLoop F flags regions n pos stackDepth records ≠ .error .unexpectedX := by
  induction n generalizing pos stackDepth records with
  | zero => simp [generateLoop]
  | succ n ih =>
    cases records with
    | nil => simp [generateLoop]
    | cons r records =>
      have hrest : generateLoop F flags regions n (pos + 1) (nextDepth stackDepth r) records ≠
          .error .unexpectedX := ih (List.subset_of_cons_subset hsub)
      have hrec : recordVertex F flags regions pos stackDepth r ≠ .error .unexpectedX := by
        by_cases hacc : r.type = MEMA_ACCESS
        · obtain ⟨v, hv⟩ := hall r (hsub (by simp)) hacc pos
          rw [recordVertex, if_pos hacc, hv]
          simp
        · rw [recordVertex, if_neg hacc]
          split
          · simp
          · split
            · simp
            · simp
      rw [generateLoop]
      cases hv : recordVertex F flags regions pos stackDepth r with
      | error p =>
        rw [hv] at hrec
        simpa [bind, Except.bind] using hrec
      | ok v =>
        cases hvs : generateLoop F flags regions n (pos + 1) (nextDepth stackDepth r) records with
        | error p =>
          rw [hvs] at hrest
          simpa [bind, Except.bind, hvs] using hrest
        | ok vs => simp [bind, Except.bind, pure, Except.pure]

/-- With a page size the pages of a block are partitioned, and its active pages compacted
exactly whenever they and a margin of one page fit the address space. -/
theorem compaction_exact {flags : ViewerFlags} (hps : 1 ≤ flags.pageSize)
    (records : List Record) :
    ∃ regions, activeRegionIDs flags records = .ok regions ∧ regions.Partitions flags records ∧
      ((regions.activePages.card + 1) * flags.pageSize.toNat < 2 ^ 64 →
        regions.Compacts flags records) := by
  have hne : flags.pageSize ≠ 0 := by
    intro h0
    rw [h0] at hps
    exact absurd hps (by decide)
  obtain ⟨regions, hregions, hcovers⟩ := activeRegionIDs_covers hne records
  have htouched : accessedPages flags records =
      .ok ((records.filter fun r ↦ r.type = MEMA_ACCESS).map fun r ↦ r.addr / flags.pageSize) :=
    if_neg fun h ↦ hne h.1
  have heq := hregions
  rw [activeRegionIDs, htouched] at heq
  cases heq
  refine ⟨_, hregions, regionsOf_partitions flags records, fun hfit ↦ ?_⟩
  constructor
  · intro addr hpage
    exact regionsOf_offset hne hfit hpage
  · intro addr hpage
    exact regionsOf_inside hne hfit hpage
  · exact pages_toNat hne (Nat.le_refl _) hfit
  · intro r q hr hq hlt i j
    obtain ⟨v, hv, hvx⟩ := accessVertex_active hne hfit r hr i
    obtain ⟨w, hw, hwx⟩ := accessVertex_active hne hfit q hq j
    refine ⟨v, w, _, _, hv, hvx, hw, hwx, ?_⟩
    exact exact_lt (regionsOf_cut_lt hne hfit hr hq hlt) (regionsOf_inside hne hfit hq)
  · intro F contextRecords nrecords
    apply generateLoop_expected _ (List.Subset.refl _)
    intro r hr hacc pos
    exact accessVertex_ok F hcovers hne hfit pos hr hacc

/-- One access to the first page and one to a page that follows a gap. -/
def twoAccesses : List Record :=
  [(Logged.access 0 0 0 0 0x10 false).write .zero, (Logged.access 0 0 0 0 0x5008 true).write .zero]

/-- The two pages are laid out side by side. -/
theorem compaction_twoAccesses :
    ∃ regions, activeRegionIDs .default twoAccesses = .ok regions ∧
      regions.Partitions .default twoAccesses ∧ regions.Compacts .default twoAccesses := by
  obtain ⟨regions, hregions, hpart, hcompact⟩ :=
    compaction_exact (show 1 ≤ ViewerFlags.default.pageSize by decide) twoAccesses
  have heq : activeRegionIDs .default twoAccesses = .ok (regionsOf .default [0, 5]) := rfl
  rw [heq] at hregions
  cases hregions
  exact ⟨_, heq, hpart, hcompact (by decide)⟩

end Mema
