import Mema.Viewer.Binary

/-!
# Symbols by run-time address

`memaviz/exec.go:154–182,207–223`: symbols are stored relative to the first loaded segment
and looked up relative to the low end of the mapping that holds the address. The two differ
by a shift that depends on the segment.
-/

namespace Mema

open Keyed

/-- The start of the page an address lies in. -/
def pageAlign (v : UInt64) : UInt64 := v - v % 4096

/-- The link-time address lies in the segment. -/
def Prog.Contains (p : Prog) (v : UInt64) : Prop := p.vaddr ≤ v ∧ v - p.vaddr < p.memsz

/-- The symbols with this value. -/
def ElfFile.symbolsAt (file : ElfFile) (v : UInt64) : List ElfSymbol :=
  file.symbols.filter (·.value = v)

/-- The name shown for a link-time address: that of its last symbol. -/
def ElfFile.nameAt (file : ElfFile) (demangle : List UInt8 → List UInt8) (v : UInt64) :
    List UInt8 :=
  match lastWith ElfSymbol.value v file.symbols with
  | some s => demangle s.name
  | none => unkText

variable {τ : Type} {S : Stree τ} {files : Files}

/-- A binary loaded at a bias: each of its loaded segments is mapped from the page it starts
in. -/
structure Image (S : Stree τ) (files : Files) where
  path : List UInt8
  binary : Binary τ
  bias : UInt64
  mapping : List (Prog × MemRegion)
  opened : newBinary S files path = .ok (some binary)
  known : path ≠ unknownText
  segments : mapping.map Prod.fst = binary.elf.loads
  pathname : ∀ m ∈ mapping, m.2.pathname = path
  low : ∀ m ∈ mapping, m.2.low = bias + pageAlign m.1.vaddr

/-- The mapping shows this name at the address. -/
def Shows (loaded : LoadedBinaries S files) (r : MemRegion) (addr : UInt64) (name : List UInt8) :
    Prop :=
  ∃ loaded', r.getSymbol addr loaded = .ok (name, loaded')

/-- Each symbol that lies in a segment and shares its value with no other is shown under its
name in the segment's mapping, and other addresses are shown as `unk`. -/
structure Symbolises (image : Image S files) (loaded : LoadedBinaries S files) : Prop where
  named : ∀ m ∈ image.mapping, ∀ s, image.binary.elf.symbolsAt s.value = [s] →
    m.1.Contains s.value → m.2.Contains (image.bias + s.value) →
      Shows loaded m.2 (image.bias + s.value) (files.demangle s.name)
  unknown : ∀ m ∈ image.mapping, ∀ v, image.binary.elf.symbolsAt v = [] →
    m.2.Contains (image.bias + v) → Shows loaded m.2 (image.bias + v) unkText

/-- In the mapping of each segment, moving an address by the difference between the first
segment's address and this segment's page does not change its name. This concerns the
addresses without a symbol, and those in the segment with exactly one. -/
def ShiftKeepsNames (image : Image S files) : Prop :=
  ∀ m ∈ image.mapping, ∀ v, m.2.Contains (image.bias + v) →
    (image.binary.elf.symbolsAt v = [] ∨
      m.1.Contains v ∧ (image.binary.elf.symbolsAt v).length = 1) →
    image.binary.elf.nameAt files.demangle
        (v + (virtoffset image.binary.elf - pageAlign m.1.vaddr)) =
      image.binary.elf.nameAt files.demangle v

/-! ### The lookup -/

/-- What a binary keeps of the file it was read from. -/
theorem Binary.symbolmap_ofFile {path : List UInt8} {file : ElfFile} {binary : Binary τ}
    (h : Binary.ofFile S path file = .ok binary) (key : UInt64) :
    binary.symbolmap key = lastWith ElfSymbol.value (key + virtoffset binary.elf)
      binary.elf.symbols := by
  unfold Binary.ofFile at h
  split at h
  · cases h
  · cases h
    have hinj : Function.Injective fun v : UInt64 ↦ v - virtoffset file := by
      intro v w hvw
      have hvw' : v - virtoffset file = w - virtoffset file := hvw
      rw [← UInt64.sub_add_cancel v (virtoffset file), hvw', UInt64.sub_add_cancel]
    have hkey : key + virtoffset file - virtoffset file = key := UInt64.add_sub_cancel ..
    have hlast := lastWith_comp hinj ElfSymbol.value (key + virtoffset file) file.symbols
    rw [hkey] at hlast
    show storeAll _ _ _ key = _
    rw [storeAll_empty, hlast]

theorem newBinary_ofFile {path : List UInt8} {binary : Binary τ}
    (h : newBinary S files path = .ok (some binary)) :
    ∃ file, Binary.ofFile S path file = .ok binary := by
  have hmap {file : ElfFile} (hf : (Binary.ofFile S path file).map some = .ok (some binary)) :
      Binary.ofFile S path file = .ok binary := by
    cases hof : Binary.ofFile S path file with
    | error p =>
      rw [hof] at hf
      cases hf
    | ok b =>
      rw [hof] at hf
      cases hf
      rfl
  unfold newBinary at h
  split at h
  · cases h
  · next file _ =>
    dsimp only at h
    split at h
    · exact ⟨file, hmap h⟩
    · split at h
      · cases h
      · next file _ => exact ⟨file, hmap h⟩

/-- A mapping shows the name at the shifted address. -/
theorem Image.shows_iff (image : Image S files) (loaded : LoadedBinaries S files)
    {m : Prog × MemRegion} (hm : m ∈ image.mapping) (v : UInt64) (name : List UInt8) :
    Shows loaded m.2 (image.bias + v) name ↔
      image.binary.elf.nameAt files.demangle
        (v + (virtoffset image.binary.elf - pageAlign m.1.vaddr)) = name := by
  have hpath := image.pathname m hm
  have hread : newBinary S files m.2.pathname = .ok (some image.binary) := by
    rw [hpath]
    exact image.opened
  have hknown : m.2.pathname ≠ unknownText := by
    rw [hpath]
    exact image.known
  obtain ⟨loaded', hbinary⟩ := m.2.getBinary_eq loaded hknown hread
  obtain ⟨file, hfile⟩ := newBinary_ofFile image.opened
  have hkey : image.bias + v - m.2.low + virtoffset image.binary.elf =
      v + (virtoffset image.binary.elf - pageAlign m.1.vaddr) := by
    rw [image.low m hm]
    grind
  rw [Shows, MemRegion.getSymbol, hbinary]
  simp only [Binary.symbolmap_ofFile hfile, hkey, ElfFile.nameAt]
  cases lastWith ElfSymbol.value
      (v + (virtoffset image.binary.elf - pageAlign m.1.vaddr)) image.binary.elf.symbols with
  | none => simp
  | some s => simp

theorem ElfFile.nameAt_of_symbolsAt_nil {file : ElfFile} {v : UInt64}
    (h : file.symbolsAt v = []) (demangle : List UInt8 → List UInt8) :
    file.nameAt demangle v = unkText := by
  have hnone : lastWith ElfSymbol.value v file.symbols = none := by
    rw [lastWith_eq_none_iff]
    intro s hs hv
    have hmem : s ∈ file.symbolsAt v := List.mem_filter.mpr ⟨hs, by simpa using hv⟩
    rw [h] at hmem
    cases hmem
  rw [nameAt, hnone]

theorem ElfFile.nameAt_of_symbolsAt {file : ElfFile} {v : UInt64} {s : ElfSymbol}
    (h : file.symbolsAt v = [s]) (demangle : List UInt8 → List UInt8) :
    file.nameAt demangle v = demangle s.name := by
  rw [nameAt, lastWith_of_filter_eq h]

/-- For every binary, bias and mapping, and whatever binaries have been read before, symbols
are shown under their addresses exactly when the shift of each segment keeps the names. -/
theorem symbolises_iff (image : Image S files) (loaded : LoadedBinaries S files) :
    Symbolises image loaded ↔ ShiftKeepsNames image := by
  constructor
  · rintro ⟨hnamed, hunknown⟩ m hm v hin hv
    rcases hv with hnil | ⟨hseg, hone⟩
    · rw [ElfFile.nameAt_of_symbolsAt_nil hnil]
      exact (image.shows_iff loaded hm v _).mp (hunknown m hm v hnil hin)
    · obtain ⟨s, hs⟩ := List.length_eq_one_iff.mp hone
      have hval : s.value = v := by
        have hmem : s ∈ image.binary.elf.symbolsAt v := by
          rw [hs]
          exact List.mem_singleton_self s
        simpa using (List.mem_filter.mp hmem).2
      subst hval
      rw [ElfFile.nameAt_of_symbolsAt hs]
      exact (image.shows_iff loaded hm s.value _).mp (hnamed m hm s hs hseg hin)
  · intro hkeep
    constructor
    · intro m hm s hs hseg hin
      rw [image.shows_iff loaded hm, ← ElfFile.nameAt_of_symbolsAt hs files.demangle]
      exact hkeep m hm s.value hin (.inr ⟨hseg, by rw [hs]; rfl⟩)
    · intro m hm v hnil hin
      rw [image.shows_iff loaded hm, ← ElfFile.nameAt_of_symbolsAt_nil hnil files.demangle]
      exact hkeep m hm v hin (.inl hnil)

/-- A file with a text and a data segment and the symbol `d` in the latter. -/
def twoSegments : ElfFile :=
  ⟨[⟨PT_LOAD, 0x400000, 0x1000⟩, ⟨PT_LOAD, 0x602000, 0x1000⟩], [⟨[100], 0x602010⟩], none⟩

/-- A file system with that file alone, where names need no demangling. -/
def Files.twoSegments : Files := ⟨fun _ ↦ some Mema.twoSegments, fun _ _ ↦ [], id⟩

/-- The file `/a`, loaded where it was linked to be. -/
def twoSegmentsImage : Image Stree.listing Files.twoSegments where
  path := [47, 97]
  binary := ⟨[47, 97], twoSegments, none,
    storeAll (fun s ↦ s.value - virtoffset twoSegments) (fun _ ↦ none) twoSegments.symbols,
    fun _ ↦ none, []⟩
  bias := 0
  mapping := [(⟨PT_LOAD, 0x400000, 0x1000⟩, ⟨0x400000, 0x401000, [], [], [], [], [47, 97]⟩),
    (⟨PT_LOAD, 0x602000, 0x1000⟩, ⟨0x602000, 0x603000, [], [], [], [], [47, 97]⟩)]
  opened := rfl
  known := by decide
  segments := by decide
  pathname := by decide
  low := by decide

/-- The symbol in the second segment is not found. -/
theorem second_segment_unknown :
    ¬ Symbolises twoSegmentsImage (LoadedBinaries.empty (S := Stree.listing)) := by
  intro h
  have hdata : (⟨PT_LOAD, 0x602000, 0x1000⟩, ⟨0x602000, 0x603000, [], [], [], [], [47, 97]⟩) ∈
      twoSegmentsImage.mapping := by decide
  have hshows := h.named _ hdata ⟨[100], 0x602010⟩ (by decide) ⟨by decide, by decide⟩ (by decide)
  rw [twoSegmentsImage.shows_iff _ hdata] at hshows
  exact absurd hshows (by decide)

end Mema
