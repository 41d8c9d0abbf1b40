import Mema.Viewer.Symbols

/-!
# Debug entries by run-time address

`memaviz/exec.go:109–162,225–255`: entries become closed intervals of a segment tree and are
kept in a map by their low address. The lookup queries the tree relative to the mapping and
goes from the low ends it finds back to the entries.
-/

namespace Mema

open Keyed Spans

/-! ### Entries with a range -/

namespace DwarfEntry

/-- The value of `AttrLowpc`. -/
def low (e : DwarfEntry) : UInt64 :=
  match e.lowpc with
  | some (.uint64 v) => v
  | _ => 0

/-- The value of `AttrHighpc`. -/
def high (e : DwarfEntry) : UInt64 :=
  match e.highpc with
  | some (.uint64 v) => v
  | _ => 0

/-- Both ends are given, as addresses. -/
def ranged (e : DwarfEntry) : Bool :=
  match e.lowpc, e.highpc with
  | some (.uint64 _), some (.uint64 _) => true
  | _, _ => false

/-- The half-open range contains the link-time address. -/
def Encloses (e : DwarfEntry) (v : UInt64) : Prop := e.low ≤ v ∧ v < e.high

/-- The range lies within that of `f`. -/
def Within (e f : DwarfEntry) : Prop := f.low ≤ e.low ∧ e.high ≤ f.high

/-- The ranges have no address in common. -/
def Apart (e f : DwarfEntry) : Prop := e.high ≤ f.low ∨ f.high ≤ e.low

/-- The interval pushed for the entry. -/
def span (e : DwarfEntry) : Span := ⟨goInt e.low, goInt e.high⟩

/-- The closed interval contains the address. -/
def Covers (e : DwarfEntry) (v : UInt64) : Prop := e.span.contains (goInt v) = true

instance (e : DwarfEntry) (v : UInt64) : Decidable (e.Covers v) :=
  inferInstanceAs (Decidable (_ = _))

end DwarfEntry

/-- The entries with a range, in the order they are read. -/
def DwarfData.ranges (dw : DwarfData) : List DwarfEntry := dw.entries.filter DwarfEntry.ranged

/-! ### Signed views of addresses -/

theorem goUint64_goInt (x : UInt64) : goUint64 (goInt x) = x := by
  rw [goUint64, goInt, BitVec.ofInt_toInt]

theorem goInt_injective : Function.Injective goInt := fun x y h ↦ by
  rw [← goUint64_goInt x, h, goUint64_goInt]

/-- Addresses from the middle of the address space on are negative. -/
theorem goInt_eq (x : UInt64) :
    goInt x = if x.toNat < 2 ^ 63 then (x.toNat : Int) else x.toNat - 2 ^ 64 := by
  rw [goInt, BitVec.toInt_eq_toNat_cond]
  have hx : x.toBitVec.toNat = x.toNat := rfl
  rw [hx]
  split
  · rw [if_pos (by omega)]
  · rw [if_neg (by omega)]
    rfl

/-! ### Reading -/

section Reading

variable {τ : Type} {S : Stree τ}

/-- The loop pushes the interval of each entry with a range, and keeps the last entry of each
low address. -/
theorem readEntries_ok {entries : List DwarfEntry} {tree tree' : τ}
    {m m' : UInt64 → Option DwarfEntry}
    (h : readEntries S entries tree m = .ok (tree', m')) :
    tree' = S.pushAll tree ((entries.filter DwarfEntry.ranged).map DwarfEntry.span) ∧
      m' = storeAll DwarfEntry.low m (entries.filter DwarfEntry.ranged) := by
  induction entries generalizing tree m with
  | nil =>
    cases h
    exact ⟨rfl, rfl⟩
  | cons e entries ih =>
    obtain ⟨offset, lowpc, highpc⟩ := e
    rw [readEntries] at h
    split at h
    · next lpcv hpcv hlow hhigh =>
      dsimp only at hlow hhigh
      subst hlow hhigh
      exact ih h
    · cases h
    · next hnot _ =>
      have hranged : ¬ DwarfEntry.ranged ⟨offset, lowpc, highpc⟩ = true := by
        intro hr
        unfold DwarfEntry.ranged at hr
        split at hr
        · next lpcv hpcv hlow hhigh => exact hnot lpcv hpcv hlow hhigh
        · cases hr
      rw [List.filter_cons_of_neg hranged]
      exact ih h

/-- Over a lawful tree, the query answers with the intervals of the entries that cover the
address. -/
theorem Binary.ofFile_dwarf (hS : S.Lawful) {path : List UInt8} {file : ElfFile}
    {binary : Binary τ} (h : Binary.ofFile S path file = .ok binary) {dw : DwarfData}
    (hdw : binary.dwarf = some dw) :
    (∀ key, binary.dwarfEntries key = lastWith DwarfEntry.low key dw.ranges) ∧
      ∀ v, (S.query binary.dwarfStree (goInt v) (goInt v)).Perm
        ((dw.ranges.filter (·.Covers v)).map DwarfEntry.span) := by
  unfold Binary.ofFile at h
  split at h
  · cases h
  · next tree dwarfEntries hread =>
    cases h
    have hfile : file.dwarf = some dw := hdw
    rw [hfile, readDwarf] at hread
    split at hread
    · cases hread
    · next tree' m hentries =>
      split at hread
      · cases hread
        obtain ⟨rfl, rfl⟩ := readEntries_ok hentries
        refine ⟨fun key ↦ storeAll_empty DwarfEntry.low dw.ranges key, fun v ↦ ?_⟩
        have hquery := hS (dw.ranges.map DwarfEntry.span) (goInt v)
        have hfilter : (dw.ranges.map DwarfEntry.span).filter (·.contains (goInt v)) =
            (dw.ranges.filter (·.Covers v)).map DwarfEntry.span := by
          rw [List.filter_map]
          apply congrArg (List.map DwarfEntry.span)
          apply List.filter_congr
          intro e _
          exact Bool.decide_eq_true.symm
        rw [hfilter] at hquery
        exact hquery
      · cases hread

end Reading

/-! ### The lookup -/

section Lookup

variable {τ : Type} {S : Stree τ} {files : Files}

/-- A binary with debug entries whose ranges are nested or disjoint, and a mapping of its
first segment. -/
structure DwarfImage (S : Stree τ) (files : Files) where
  binary : Binary τ
  region : MemRegion
  dw : DwarfData
  lawful : S.Lawful
  opened : newBinary S files region.pathname = .ok (some binary)
  known : region.pathname ≠ unknownText
  dwarf : binary.dwarf = some dw
  nodup : dw.ranges.Nodup
  low_lt_high : ∀ e ∈ dw.ranges, e.low < e.high
  laminar : ∀ e ∈ dw.ranges, ∀ f ∈ dw.ranges, e.Apart f ∨ e.Within f ∨ f.Within e

namespace DwarfImage

variable (image : DwarfImage S files)

/-- The address relative to the mapping, which is what the lookup goes by. -/
def offsetOf (addr : UInt64) : UInt64 := addr - image.region.low

/-- The link-time address behind a run-time address. -/
def linkTime (addr : UInt64) : UInt64 := image.offsetOf addr + virtoffset image.binary.elf

/-- The entries the tree answers with. -/
def covering (addr : UInt64) : List DwarfEntry :=
  image.dw.ranges.filter (·.Covers (image.offsetOf addr))

/-- The lookup returns the entries that enclose the link-time address, each once, outermost
first, and no other. -/
def GetsEnclosing (loaded : LoadedBinaries S files) (addr : UInt64) : Prop :=
  ∃ (es : List DwarfEntry) (loaded' : LoadedBinaries S files),
    image.region.getDwarf addr loaded = .ok (es.map some, loaded') ∧ es.Nodup ∧
    (∀ e, e ∈ es ↔ e ∈ image.dw.ranges ∧ e.Encloses (image.linkTime addr)) ∧
      es.Pairwise fun e f ↦ f.Within e

/-- The entries whose closed range contains the offset start at different addresses, and an
entry encloses the link-time address exactly when it is the last one read with its low address
and that is where a closed range that contains the offset starts. -/
structure Unambiguous (addr : UInt64) : Prop where
  distinct : ((image.covering addr).map DwarfEntry.low).Nodup
  exact : ∀ e ∈ image.dw.ranges, e.Encloses (image.linkTime addr) ↔
    lastWith DwarfEntry.low e.low image.dw.ranges = some e ∧
      ∃ f ∈ image.covering addr, f.low = e.low

/-- Low ends of entries lead back to the last entries with them. -/
theorem entries_of_lows {ranges : List DwarfEntry} {los : List Int}
    (h : ∀ lo ∈ los, ∃ e ∈ ranges, goInt e.low = lo) :
    ∃ es : List DwarfEntry,
      los.map (fun lo ↦ lastWith DwarfEntry.low (goUint64 lo) ranges) = es.map some ∧
        es.map (fun e ↦ goInt e.low) = los ∧
        ∀ e ∈ es, lastWith DwarfEntry.low e.low ranges = some e := by
  induction los with
  | nil => exact ⟨[], rfl, rfl, by simp⟩
  | cons lo los ih =>
    obtain ⟨es, hmap, hlow, hlast⟩ := ih fun l hl ↦ h l (List.mem_cons_of_mem lo hl)
    obtain ⟨e, he, rfl⟩ := h lo List.mem_cons_self
    obtain ⟨f, hf⟩ : ∃ f, lastWith DwarfEntry.low e.low ranges = some f := exists_lastWith he
    have hflow : f.low = e.low := (lastWith_mem hf).2
    refine ⟨f :: es, ?_, ?_, ?_⟩
    · rw [List.map_cons, List.map_cons, hmap, goUint64_goInt, hf]
    · rw [List.map_cons, hlow, hflow]
    · intro g hg
      rcases List.mem_cons.mp hg with rfl | hg
      · rw [hflow]
        exact hf
      · exact hlast g hg

/-- Entries the lookup may return: for each low end of a covering interval, in increasing
order, the last entry that starts there. -/
structure Found (addr : UInt64) (es : List DwarfEntry) : Prop where
  lows : (es.map DwarfEntry.low).Perm ((image.covering addr).map DwarfEntry.low)
  sorted : es.Pairwise fun e f ↦ goInt e.low ≤ goInt f.low
  last : ∀ e ∈ es, lastWith DwarfEntry.low e.low image.dw.ranges = some e

theorem getDwarf_spec (loaded : LoadedBinaries S files) (addr : UInt64) :
    ∃ (es : List DwarfEntry) (loaded' : LoadedBinaries S files),
      image.region.getDwarf addr loaded = .ok (es.map some, loaded') ∧ image.Found addr es := by
  obtain ⟨loaded', hbinary⟩ := image.region.getBinary_eq loaded image.known image.opened
  obtain ⟨file, hfile⟩ := newBinary_ofFile image.opened
  obtain ⟨hentries, hquery⟩ := Binary.ofFile_dwarf image.lawful hfile image.dwarf
  have hperm := (hquery (image.offsetOf addr)).map Span.lo
  have hsort := List.mergeSort_perm ((S.query image.binary.dwarfStree
    (goInt (image.offsetOf addr)) (goInt (image.offsetOf addr))).map Span.lo) (· ≤ ·)
  have hsorted := @List.pairwise_mergeSort Int (fun a b ↦ decide (a ≤ b))
    (by simp only [decide_eq_true_eq]; omega)
    (by simp only [Bool.or_eq_true, decide_eq_true_eq]; omega)
    ((S.query image.binary.dwarfStree (goInt (image.offsetOf addr))
      (goInt (image.offsetOf addr))).map Span.lo)
  have hsome : ¬ image.binary.dwarf.isNone = true := by simp [image.dwarf]
  have hrun : image.region.getDwarf addr loaded = .ok ((((S.query image.binary.dwarfStree
      (goInt (image.offsetOf addr)) (goInt (image.offsetOf addr))).map Span.lo).mergeSort
        (· ≤ ·)).map fun lo ↦ lastWith DwarfEntry.low (goUint64 lo) image.dw.ranges, loaded') := by
    rw [MemRegion.getDwarf, hbinary]
    simp only [hsome, Bool.false_eq_true, ↓reduceIte, hentries]
    rfl
  rw [hrun]
  generalize ((S.query image.binary.dwarfStree (goInt (image.offsetOf addr))
    (goInt (image.offsetOf addr))).map Span.lo).mergeSort (· ≤ ·) = los at hsort hsorted ⊢
  have hlos : los.Perm ((image.covering addr).map fun e ↦ goInt e.low) := by
    have h := hsort.trans hperm
    rwa [List.map_map] at h
  obtain ⟨es, hmap, hlow, hlast⟩ := @entries_of_lows image.dw.ranges los (by
    intro lo hlo
    obtain ⟨e, he, rfl⟩ := List.mem_map.mp (hlos.mem_iff.mp hlo)
    exact ⟨e, (List.mem_filter.mp he).1, rfl⟩)
  refine ⟨es, loaded', by rw [hmap], ?_, ?_, hlast⟩
  · show (es.map DwarfEntry.low).Perm ((image.covering addr).map DwarfEntry.low)
    rw [← hlow] at hlos
    have hback := hlos.map goUint64
    simpa only [List.map_map, Function.comp_def, goUint64_goInt] using hback
  · rw [← hlow, List.pairwise_map] at hsorted
    exact hsorted.imp fun h ↦ by simpa using h

/-- Covering intervals all start on one side of the middle of the address space. -/
theorem low_lt_of_goInt_lt {addr : UInt64} {e f : DwarfEntry} (he : e ∈ image.covering addr)
    (hf : f ∈ image.covering addr) (hlt : goInt e.low < goInt f.low) : e.low < f.low := by
  have hcover {g : DwarfEntry} (hg : g ∈ image.covering addr) :
      goInt g.low ≤ goInt (image.offsetOf addr) ∧ goInt (image.offsetOf addr) ≤ goInt g.high ∧
        g.low.toNat < g.high.toNat := by
    obtain ⟨hmem, hc⟩ := List.mem_filter.mp hg
    have hc' : g.Covers (image.offsetOf addr) := by simpa using hc
    simp only [DwarfEntry.Covers, Span.contains, DwarfEntry.span, Bool.and_eq_true] at hc'
    exact ⟨of_decide_eq_true hc'.1, of_decide_eq_true hc'.2,
      UInt64.lt_iff_toNat_lt.mp (image.low_lt_high g hmem)⟩
  have hce := hcover he
  have hcf := hcover hf
  have hbe := e.high.toNat_lt
  have hbf := f.high.toNat_lt
  simp only [goInt_eq] at hce hcf hlt
  rw [UInt64.lt_iff_toNat_lt]
  split at hlt
  · split at hlt
    · omega
    · split at hce
      · split at hcf <;> omega
      · omega
  · split at hlt
    · omega
    · omega

/-- Of two entries that enclose an address the one that starts first contains the other. -/
theorem within_of_low_lt {v : UInt64} {e f : DwarfEntry} (he : e ∈ image.dw.ranges)
    (hf : f ∈ image.dw.ranges) (hve : e.Encloses v) (hvf : f.Encloses v) (hlt : e.low < f.low) :
    f.Within e := by
  rcases image.laminar e he f hf with hapart | hwithin | hwithin
  · rcases hapart with h | h
    · have hlow := UInt64.lt_iff_toNat_lt.mp hve.2
      have hhigh := UInt64.le_iff_toNat_le.mp hvf.1
      have hle := UInt64.le_iff_toNat_le.mp h
      omega
    · have hlow := UInt64.lt_iff_toNat_lt.mp hvf.2
      have hhigh := UInt64.le_iff_toNat_le.mp hve.1
      have hle := UInt64.le_iff_toNat_le.mp h
      omega
  · have hle := UInt64.le_iff_toNat_le.mp hwithin.1
    have hlt' := UInt64.lt_iff_toNat_lt.mp hlt
    omega
  · exact hwithin

section Found

variable {image} {addr : UInt64} {es : List DwarfEntry}

/-- An entry is found when it is the last with its low end, and that is a covering one. -/
theorem Found.mem_iff (h : image.Found addr es) (e : DwarfEntry) :
    e ∈ es ↔ lastWith DwarfEntry.low e.low image.dw.ranges = some e ∧
      ∃ f ∈ image.covering addr, f.low = e.low := by
  constructor
  · intro he
    exact ⟨h.last e he, List.mem_map.mp (h.lows.mem_iff.mp (List.mem_map_of_mem he))⟩
  · rintro ⟨he, f, hf, hlow⟩
    obtain ⟨g, hg, hglow⟩ := List.mem_map.mp (h.lows.mem_iff.mpr (List.mem_map_of_mem hf))
    have hlast := h.last g hg
    rw [hglow, hlow, he] at hlast
    cases hlast
    exact hg

theorem Found.nodup_iff (h : image.Found addr es) :
    es.Nodup ↔ ((image.covering addr).map DwarfEntry.low).Nodup := by
  rw [← h.lows.nodup_iff]
  constructor
  · intro hnodup
    apply List.Nodup.map_on _ hnodup
    intro e he f hf heq
    have hlast := h.last e he
    rw [heq, h.last f hf] at hlast
    exact (Option.some.inj hlast).symm
  · exact List.Nodup.of_map DwarfEntry.low

/-- Enclosing entries that are found with distinct low ends come outermost first. -/
theorem Found.pairwise_within (h : image.Found addr es) (hnodup : es.Nodup)
    (henc : ∀ e ∈ es, e ∈ image.dw.ranges ∧ e.Encloses (image.linkTime addr)) :
    es.Pairwise fun e f ↦ f.Within e := by
  have hlows : es.Pairwise fun e f ↦ e.low ≠ f.low := by
    have hmap : (es.map DwarfEntry.low).Nodup := h.lows.nodup_iff.mpr (h.nodup_iff.mp hnodup)
    exact List.pairwise_map.mp hmap
  apply (h.sorted.and hlows).imp_of_mem
  intro e f he hf ⟨hle, hne⟩
  obtain ⟨hine, hence⟩ := henc e he
  obtain ⟨hinf, hencf⟩ := henc f hf
  apply image.within_of_low_lt hine hinf hence hencf
  obtain ⟨-, e', hce, hloweq⟩ := (h.mem_iff e).mp he
  obtain ⟨-, f', hcf, hloweq'⟩ := (h.mem_iff f).mp hf
  rw [← hloweq, ← hloweq'] at hle hne ⊢
  apply image.low_lt_of_goInt_lt hce hcf
  exact lt_of_le_of_ne hle fun heq ↦ hne (goInt_injective heq)

end Found

/-- For every set of nested or disjoint entries, every base and every address, the lookup
returns exactly the enclosing entries when and only when the tree and the map lead to them
without ambiguity. -/
theorem getsEnclosing_iff (loaded : LoadedBinaries S files) (addr : UInt64) :
    image.GetsEnclosing loaded addr ↔ image.Unambiguous addr := by
  obtain ⟨es, loaded', hrun, hfound⟩ := image.getDwarf_spec loaded addr
  constructor
  · rintro ⟨fs, loaded'', hrun', hnodup, hexact, -⟩
    rw [hrun] at hrun'
    have heq : es = fs := by
      have h := congrArg Prod.fst (Except.ok.inj hrun')
      exact (List.map_injective_iff.mpr (Option.some_injective _)) h
    subst heq
    refine ⟨hfound.nodup_iff.mp hnodup, fun e he ↦ ?_⟩
    rw [← hfound.mem_iff, hexact]
    exact ⟨fun h ↦ ⟨he, h⟩, fun h ↦ h.2⟩
  · rintro ⟨hdistinct, hexact⟩
    have hmem (e : DwarfEntry) :
        e ∈ es ↔ e ∈ image.dw.ranges ∧ e.Encloses (image.linkTime addr) := by
      constructor
      · intro he
        have hin := (lastWith_mem (hfound.last e he)).1
        exact ⟨hin, (hexact e hin).mpr ((hfound.mem_iff e).mp he)⟩
      · rintro ⟨hin, henc⟩
        exact (hfound.mem_iff e).mpr ((hexact e hin).mp henc)
    have hnodup := hfound.nodup_iff.mpr hdistinct
    exact ⟨es, loaded', hrun, hnodup, hmem,
      hfound.pairwise_within hnodup fun e he ↦ (hmem e).mp he⟩

end DwarfImage

end Lookup

/-- The entry of a function from 0x400100 to 0x400200. -/
def functionEntry : DwarfEntry := ⟨11, some (.uint64 0x400100), some (.uint64 0x400200)⟩

/-- A file linked at 0x400000 with that function alone. -/
def linkedHigh : ElfFile :=
  ⟨[⟨PT_LOAD, 0x400000, 0x1000⟩], [], some ⟨[functionEntry], true⟩⟩

/-- A file system with that file alone. -/
def Files.linkedHigh : Files := ⟨fun _ ↦ some Mema.linkedHigh, fun _ _ ↦ [], id⟩

/-- The file mapped where it was linked to be. -/
def linkedHighImage : DwarfImage Stree.listing Files.linkedHigh where
  binary := ⟨[47, 97], linkedHigh, linkedHigh.dwarf,
    storeAll (fun s ↦ s.value - virtoffset linkedHigh) (fun _ ↦ none) linkedHigh.symbols,
    Function.update (fun _ ↦ none) 0x400100 (some functionEntry), [functionEntry.span]⟩
  region := ⟨0x400000, 0x401000, [], [], [], [], [47, 97]⟩
  dw := ⟨[functionEntry], true⟩
  lawful := Stree.lawful_listing
  opened := rfl
  known := by decide
  dwarf := rfl
  nodup := by decide
  low_lt_high := by decide
  laminar := by
    intro e he f hf
    rw [List.mem_singleton.mp he, List.mem_singleton.mp hf]
    exact .inr (.inl ⟨UInt64.le_refl _, UInt64.le_refl _⟩)

/-- No entry is found for an address inside the function. -/
theorem link_base_is_ignored : ¬ linkedHighImage.GetsEnclosing LoadedBinaries.empty 0x400150 := by
  rintro ⟨es, loaded', hrun, -, hmem, -⟩
  obtain ⟨fs, loaded'', hrun', hperm, -, -⟩ :=
    linkedHighImage.getDwarf_spec LoadedBinaries.empty 0x400150
  have hnil : (linkedHighImage.covering 0x400150).map DwarfEntry.low = [] := by decide
  rw [hnil, List.perm_nil, List.map_eq_nil_iff] at hperm
  have hempty : es.map some = [] := by
    have h := congrArg Prod.fst (Except.ok.inj (hrun.symm.trans hrun'))
    rw [hperm] at h
    exact h
  have hin := (hmem functionEntry).mpr ⟨by decide, by decide, by decide⟩
  rw [List.map_eq_nil_iff.mp hempty] at hin
  cases hin

end Mema
