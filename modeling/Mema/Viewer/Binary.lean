import Mema.Lib.Keyed
import Mema.Viewer.FuncTree
import Mema.Viewer.PageTable

/-!
# Binaries behind the mappings

`memaviz/exec.go:25–33,87–255`: an executable's symbols and DWARF entries, kept in maps and a
segment tree, and the lookups that go through a mapping of the page table. Binaries are read
once for each path.
-/

namespace Mema

open Keyed

/-! ### What `debug/elf` and `debug/dwarf` read -/

/-- `elf.PT_LOAD`. -/
def PT_LOAD : Nat := 1

/-- `elf.Prog`, with the fields `NewBinary` and the loader go by. -/
structure Prog where
  type : Nat
  vaddr : UInt64
  memsz : UInt64
  deriving DecidableEq, Repr

/-- `elf.Symbol`. -/
structure ElfSymbol where
  name : List UInt8
  value : UInt64
  deriving DecidableEq, Repr

/-- The value of an attribute, as far as its Go type matters. -/
inductive DwarfVal
  | uint64 (v : UInt64)
  | other
  deriving DecidableEq, Repr

/-- `dwarf.Entry`, with the two attributes that are read. -/
structure DwarfEntry where
  offset : Nat
  lowpc : Option DwarfVal
  highpc : Option DwarfVal
  deriving DecidableEq, Repr

/-- What `Reader.Next` returns: the entries, then nil or an error. -/
structure DwarfData where
  entries : List DwarfEntry
  readable : Bool

/-- `elf.File`; without a symbol table there are no symbols. -/
structure ElfFile where
  progs : List Prog
  symbols : List ElfSymbol
  dwarf : Option DwarfData

/-- The file system as `NewBinary` sees it: `elf.Open`, `GetDebugFilename`, and the demangler. -/
structure Files where
  elfOpen : List UInt8 → Option ElfFile
  debugFilename : List UInt8 → ElfFile → List UInt8
  demangle : List UInt8 → List UInt8

/-- Ways reading a binary panics. -/
inductive BinaryPanic
  | problemLoadingElf
  | errorReadingDwarf
  | notUint64
  deriving DecidableEq, Repr

/-! ### `NewBinary` -/

/-- `Binary`, `exec.go:25–33`. -/
structure Binary (τ : Type) where
  pathname : List UInt8
  elf : ElfFile
  dwarf : Option DwarfData
  symbolmap : UInt64 → Option ElfSymbol
  dwarfEntries : UInt64 → Option DwarfEntry
  dwarfStree : τ

/-- `int(x)` of an unsigned value. -/
def goInt (x : UInt64) : Int := x.toBitVec.toInt

/-- `uint64(i)`. -/
def goUint64 (i : Int) : UInt64 := .ofBitVec (.ofInt 64 i)

/-- The segments that are loaded. -/
def ElfFile.loads (file : ElfFile) : List Prog := file.progs.filter (·.type = PT_LOAD)

/-- `virtoffset`, `exec.go:154–162`: the address of the first loaded segment. -/
def virtoffset (file : ElfFile) : UInt64 :=
  match file.progs.find? (·.type = PT_LOAD) with
  | some prog => prog.vaddr
  | none => 0

section NewBinary

variable {τ : Type} (S : Stree τ)

/-- The loop over the DWARF entries, `exec.go:121–146`. -/
def readEntries : List DwarfEntry → τ → (UInt64 → Option DwarfEntry) →
    Except BinaryPanic (τ × (UInt64 → Option DwarfEntry))
  | [], tree, dwarfEntries => .ok (tree, dwarfEntries)
  | entry :: rest, tree, dwarfEntries =>
    match entry.lowpc, entry.highpc with
    | some (.uint64 lpcv), some (.uint64 hpcv) =>
      readEntries rest (S.push tree (goInt lpcv) (goInt hpcv))
        (Function.update dwarfEntries lpcv (some entry))
    | some _, some _ => .error .notUint64
    | _, _ => readEntries rest tree dwarfEntries

/-- The tree and the map of the DWARF entries, `exec.go:109–152`. -/
def readDwarf : Option DwarfData → Except BinaryPanic (τ × (UInt64 → Option DwarfEntry))
  | none => .ok (S.newTree, fun _ ↦ none)
  | some dw =>
    match readEntries S dw.entries S.newTree (fun _ ↦ none) with
    | .error p => .error p
    | .ok (tree, dwarfEntries) =>
      if dw.readable then .ok (S.buildTree tree, dwarfEntries) else .error .errorReadingDwarf

/-- `NewBinary` once the file to read is open, `exec.go:103–182`. -/
def Binary.ofFile (path : List UInt8) (file : ElfFile) : Except BinaryPanic (Binary τ) :=
  match readDwarf S file.dwarf with
  | .error p => .error p
  | .ok (tree, dwarfEntries) =>
    .ok ⟨path, file, file.dwarf,
      storeAll (fun s ↦ s.value - virtoffset file) (fun _ ↦ none) file.symbols,
      dwarfEntries, tree⟩

/-- `NewBinary`, `exec.go:87–182`: nil when the file cannot be opened; a separate debug file
goes before the binary itself. -/
def newBinary (files : Files) (path : List UInt8) : Except BinaryPanic (Option (Binary τ)) :=
  match files.elfOpen path with
  | none => .ok none
  | some file =>
    let debugFilename := files.debugFilename path file
    if debugFilename = [] then (Binary.ofFile S path file).map some
    else match files.elfOpen debugFilename with
      | none => .error .problemLoadingElf
      | some file => (Binary.ofFile S path file).map some

end NewBinary

/-! ### Lookups through a mapping -/

/-- `loaded_binaries`: for each path read so far, what `NewBinary` returned. -/
structure LoadedBinaries {τ : Type} (S : Stree τ) (files : Files) where
  binaries : List UInt8 → Option (Option (Binary τ))
  memoized : ∀ path b, binaries path = some b → newBinary S files path = .ok b

section Lookups

variable {τ : Type} {S : Stree τ} {files : Files}

/-- `make(map[string]*Binary)`. -/
def LoadedBinaries.empty : LoadedBinaries S files := ⟨fun _ ↦ none, fun _ _ h ↦ by cases h⟩

theorem memoized_update (loaded : LoadedBinaries S files) {path : List UInt8}
    {binary : Option (Binary τ)} (h : newBinary S files path = .ok binary) :
    ∀ p b, Function.update loaded.binaries path (some binary) p = some b →
      newBinary S files p = .ok b := by
  intro p b hb
  by_cases hp : p = path
  · subst hp
    rw [Function.update_self] at hb
    cases hb
    exact h
  · rw [Function.update_of_ne hp] at hb
    exact loaded.memoized p b hb

/-- `MemRegion.GetBinary`, `exec.go:191–201`. -/
def MemRegion.getBinary (r : MemRegion) (loaded : LoadedBinaries S files) :
    Except BinaryPanic (Option (Binary τ) × LoadedBinaries S files) :=
  if r.pathname = unknownText then .ok (none, loaded)
  else match loaded.binaries r.pathname with
    | some binary => .ok (binary, loaded)
    | none =>
      match h : newBinary S files r.pathname with
      | .error p => .error p
      | .ok binary => .ok (binary, ⟨_, memoized_update loaded h⟩)

/-- Whatever has been read before, a mapping leads to the binary at its path. -/
theorem MemRegion.getBinary_eq (r : MemRegion) (loaded : LoadedBinaries S files)
    (hpath : r.pathname ≠ unknownText) {binary : Option (Binary τ)}
    (h : newBinary S files r.pathname = .ok binary) :
    ∃ loaded', r.getBinary loaded = .ok (binary, loaded') := by
  rw [getBinary, if_neg hpath]
  split
  · next b hb =>
    have heq := (loaded.memoized _ _ hb).symm.trans h
    cases heq
    exact ⟨loaded, rfl⟩
  · split
    · next hp =>
      rw [h] at hp
      cases hp
    · next b hb =>
      rw [h] at hb
      cases hb
      exact ⟨_, rfl⟩

/-- The texts `nil` and `unk`. -/
def nilText : List UInt8 := [110, 105, 108]
def unkText : List UInt8 := [117, 110, 107]

/-- `MemRegion.GetSymbol`, `exec.go:212–223`. -/
def MemRegion.getSymbol (r : MemRegion) (addr : UInt64) (loaded : LoadedBinaries S files) :
    Except BinaryPanic (List UInt8 × LoadedBinaries S files) :=
  match r.getBinary loaded with
  | .error p => .error p
  | .ok (none, loaded) => .ok (nilText, loaded)
  | .ok (some binary, loaded) =>
    match binary.symbolmap (addr - r.low) with
    | none => .ok (unkText, loaded)
    | some sym => .ok (files.demangle sym.name, loaded)

/-- `MemRegion.GetDwarf`, `exec.go:230–255`; a nil entry is one the map does not hold. -/
def MemRegion.getDwarf (r : MemRegion) (addr : UInt64) (loaded : LoadedBinaries S files) :
    Except BinaryPanic (List (Option DwarfEntry) × LoadedBinaries S files) :=
  match r.getBinary loaded with
  | .error p => .error p
  | .ok (none, loaded) => .ok ([], loaded)
  | .ok (some binary, loaded) =>
    if binary.dwarf.isNone then .ok ([], loaded)
    else
      let addr := addr - r.low
      let intervals := S.query binary.dwarfStree (goInt addr) (goInt addr)
      let lowerBounds := (intervals.map Spans.Span.lo).mergeSort (· ≤ ·)
      .ok (lowerBounds.map fun lo ↦ binary.dwarfEntries (goUint64 lo), loaded)

end Lookups

end Mema
