import Mema.Lib.Digits
import Mema.Lib.Search

/-!
# The page table and its lookup

`memaviz/data.go:71–109,246–261` and `exec.go:19–23`: the lines of `/proc/self/maps` become
regions with increasing low addresses, and an address is looked up by a binary search that is
compared with a linear one.
-/

namespace Mema

open Digits Search

/-- `MemRegion`, `exec.go:19–23`, without its pointer back to the data. -/
structure MemRegion where
  low : UInt64
  hi : UInt64
  perms : List UInt8
  offset : List UInt8
  dev : List UInt8
  inode : List UInt8
  pathname : List UInt8
  deriving DecidableEq, Repr

/-- The text `-`. -/
def dash : List UInt8 := [45]

/-- The text `unknown`. -/
def unknownText : List UInt8 := [117, 110, 107, 110, 111, 119, 110]

namespace MemRegion

/-- `MemRegion{}`. -/
def zero : MemRegion := ⟨0, 0, [], [], [], [], []⟩

/-- The region reported where nothing is mapped, `data.go:260`. -/
def unknown (addr : UInt64) : MemRegion := ⟨addr, addr, dash, dash, dash, dash, unknownText⟩

/-- `r.low <= addr && addr < r.hi`. -/
def Contains (r : MemRegion) (addr : UInt64) : Prop := r.low ≤ addr ∧ addr < r.hi

instance (r : MemRegion) (addr : UInt64) : Decidable (r.Contains addr) :=
  inferInstanceAs (Decidable (_ ∧ _))

/-- No address lies in both regions. -/
def Apart (r q : MemRegion) : Prop := ∀ addr, ¬ (r.Contains addr ∧ q.Contains addr)

end MemRegion

/-- Ways the page table and its lookup panic. -/
inductive TablePanic
  | errorParsing (line : List UInt8)
  | notSorted
  | searchesDisagree
  deriving DecidableEq, Repr

/-! ### Parsing -/

/-- The two calls of `fmt.Sscanf` on a line, `data.go:91–95`: what each leaves in the region it
is given, and whether it reports no error. -/
structure Sscanf where
  seven : List UInt8 → MemRegion → MemRegion × Bool
  six : List UInt8 → MemRegion → MemRegion × Bool

section Parsing

variable (scan : Sscanf)

/-- A line with its path name, or without, `data.go:89–101`. -/
def scanLine (line : List UInt8) : Except TablePanic MemRegion :=
  let (x, ok) := scan.seven line .zero
  if ok then .ok x
  else
    let (x, ok) := scan.six line x
    if ok then .ok { x with pathname := [] } else .error (.errorParsing line)

/-- The loop over the lines, `data.go:85–107`; `last` is the low address of the region before. -/
def scanLines : UInt64 → List (List UInt8) → Except TablePanic (List MemRegion)
  | _, [] => .ok []
  | last, line :: lines =>
    if line = [] then scanLines last lines
    else do
      let x ← scanLine scan line
      if last < x.low then
        let regions ← scanLines x.low lines
        return x :: regions
      else .error .notSorted

/-- `data.region` after `ParsePageTable` of a text without its NUL, `data.go:80–107`. -/
def pageTable (text : List UInt8) : Except TablePanic (List MemRegion) :=
  scanLines scan 0 (text.splitOn 10)

/-- The parse of the page table, as far as `ParsePageTable` survives it. -/
def tableAccepts (text : List UInt8) : Bool :=
  match pageTable scan text with
  | .ok _ => true
  | .error _ => false

end Parsing

/-! ### `fmt.Sscanf` on ASCII lines -/

/-- `%x`: blanks, then a maximal run of digits whose value fits. -/
def scanHex (bs : List UInt8) : Option (UInt64 × List UInt8) :=
  let bs := bs.dropWhile isBlank
  let digits := bs.takeWhile fun b ↦ (hexDigit b).isSome
  let value := digits.foldl (fun n b ↦ 16 * n + (hexDigit b).getD 0) 0
  if digits ≠ [] ∧ value < UInt64.size then
    some (.ofNat value, bs.dropWhile fun b ↦ (hexDigit b).isSome)
  else none

/-- A blank of the format and `%s`: blanks, then a maximal run of others. -/
def scanWord (bs : List UInt8) : Option (List UInt8 × List UInt8) :=
  let word := (bs.dropWhile isBlank).takeWhile fun b ↦ !isBlank b
  if bs.head?.any isBlank ∧ word ≠ [] then
    some (word, (bs.dropWhile isBlank).dropWhile fun b ↦ !isBlank b)
  else none

/-- `%x-%x`, then the words; fields before the failing one are already stored. -/
def scanFields (words : List (List UInt8 → MemRegion → MemRegion)) (line : List UInt8)
    (x : MemRegion) : MemRegion × Bool :=
  match scanHex line with
  | none => (x, false)
  | some (low, rest) =>
    match rest with
    | 45 :: rest =>
      match scanHex rest with
      | none => ({ x with low := low }, false)
      | some (hi, rest) => scanWords words rest { x with low := low, hi := hi }
    | _ => ({ x with low := low }, false)
where
  scanWords : List (List UInt8 → MemRegion → MemRegion) → List UInt8 → MemRegion →
      MemRegion × Bool
    | [], _, x => (x, true)
    | store :: words, bs, x =>
      match scanWord bs with
      | none => (x, false)
      | some (word, rest) => scanWords words rest (store word x)

/-- The `%s` operands of the second call. -/
def sixWords : List (List UInt8 → MemRegion → MemRegion) :=
  [fun w x ↦ { x with perms := w }, fun w x ↦ { x with offset := w },
    fun w x ↦ { x with dev := w }, fun w x ↦ { x with inode := w }]

/-- `fmt.Sscanf` where a line holds one byte for each character. -/
def asciiSscanf : Sscanf where
  seven := scanFields (sixWords ++ [fun w x ↦ { x with pathname := w }])
  six := scanFields sixWords

/-! ### Lookup -/

/-- The predicate of the binary search, `data.go:248`. -/
def lowAbove (table : List MemRegion) (addr : UInt64) (i : Nat) : Bool :=
  table[i]?.any fun r ↦ decide (addr < r.low)

/-- The loop of `GetRegion` from index `i` on, `data.go:251–259`. -/
def findRegion (bi : Nat) (addr : UInt64) : Nat → List MemRegion → Except TablePanic MemRegion
  | _, [] => .ok (.unknown addr)
  | i, r :: regions =>
    if r.Contains addr then
      if bi ≠ i then .error .searchesDisagree else .ok r
    else findRegion bi addr (i + 1) regions

/-- `GetRegion`, `data.go:246–261`. -/
def getRegion (table : List MemRegion) (addr : UInt64) : Except TablePanic MemRegion :=
  findRegion (search table.length (lowAbove table addr)) addr 0 table

/-- The region that holds an address is found, and the unknown one where there is none. -/
def FindsRegion (table : List MemRegion) (addr : UInt64) : Prop :=
  ∃ r, getRegion table addr = .ok r ∧
    ((r ∈ table ∧ r.Contains addr) ∨ (r = .unknown addr ∧ ∀ q ∈ table, ¬ q.Contains addr))

/-! ### Sorted tables -/

private theorem scanLines_sorted {scan : Sscanf} {last : UInt64} {lines : List (List UInt8)}
    {regions : List MemRegion} (h : scanLines scan last lines = .ok regions) :
    (∀ r ∈ regions, last < r.low) ∧ regions.Pairwise fun r q ↦ r.low < q.low := by
  induction lines generalizing last regions with
  | nil =>
    cases h
    simp
  | cons line lines ih =>
    rw [scanLines] at h
    split at h
    · exact ih h
    · cases hx : scanLine scan line with
      | error p =>
        rw [hx] at h
        cases h
      | ok x =>
        rw [hx] at h
        by_cases hlt : last < x.low
        · cases hrest : scanLines scan x.low lines with
          | error p => simp [bind, Except.bind, hlt, hrest] at h
          | ok rest =>
            simp only [bind, Except.bind, if_pos hlt, hrest, pure, Except.pure,
              Except.ok.injEq] at h
            subst h
            have hsorted := ih hrest
            constructor
            · intro r hr
              cases List.mem_cons.mp hr with
              | inl heq => rwa [heq]
              | inr hmem => exact UInt64.lt_trans hlt (hsorted.1 r hmem)
            · exact List.Pairwise.cons hsorted.1 hsorted.2
        · simp [bind, Except.bind, hlt] at h

/-- An accepted table lists its regions by strictly increasing low address. -/
theorem pageTable_sorted {scan : Sscanf} {text : List UInt8} {table : List MemRegion}
    (h : pageTable scan text = .ok table) : table.Pairwise fun r q ↦ r.low < q.low :=
  (scanLines_sorted h).2

theorem lowAbove_monotone {table : List MemRegion}
    (h : table.Pairwise fun r q ↦ r.low < q.low) (addr : UInt64) :
    MonotoneBelow table.length (lowAbove table addr) := by
  intro i j hij hj hi
  have hi' : i < table.length := by omega
  rw [lowAbove, List.getElem?_eq_getElem hi', Option.any_some, decide_eq_true_eq] at hi
  rw [lowAbove, List.getElem?_eq_getElem hj, Option.any_some, decide_eq_true_eq]
  rcases Nat.lt_or_eq_of_le hij with hlt | heq
  · exact UInt64.lt_trans hi (List.pairwise_iff_getElem.mp h i j hi' hj hlt)
  · subst heq
    exact hi

/-- The binary search stops beyond every region that starts at or below the address. -/
theorem lt_search_lowAbove {table : List MemRegion}
    (h : table.Pairwise fun r q ↦ r.low < q.low) {addr : UInt64} {i : Nat}
    (hi : i < table.length) (hlow : table[i].low ≤ addr) :
    i < search table.length (lowAbove table addr) := by
  apply lt_search (lowAbove_monotone h addr) hi
  rw [lowAbove, List.getElem?_eq_getElem hi, Option.any_some, decide_eq_false_iff_not]
  exact UInt64.not_lt.mpr hlow

private theorem findRegion_disagrees {bi : Nat} {addr : UInt64} {i : Nat}
    {regions : List MemRegion}
    (hbi : ∀ j (hj : j < regions.length), regions[j].low ≤ addr → i + j < bi)
    (h : ∃ r ∈ regions, r.Contains addr) :
    findRegion bi addr i regions = .error .searchesDisagree := by
  induction regions generalizing i with
  | nil => simp at h
  | cons r regions ih =>
    rw [findRegion]
    by_cases hr : r.Contains addr
    · have hlt : i + 0 < bi := hbi 0 (by simp) hr.1
      rw [if_pos hr, if_pos (by omega)]
    · rw [if_neg hr]
      apply ih
      · intro j hj hlow
        have := hbi (j + 1) (by simpa using hj) (by simpa using hlow)
        omega
      · obtain ⟨q, hq, hcontains⟩ := h
        cases List.mem_cons.mp hq with
        | inl heq => exact absurd (heq ▸ hcontains) hr
        | inr hmem => exact ⟨q, hmem, hcontains⟩

private theorem findRegion_unmapped {bi : Nat} {addr : UInt64} {i : Nat}
    {regions : List MemRegion} (h : ∀ r ∈ regions, ¬ r.Contains addr) :
    findRegion bi addr i regions = .ok (.unknown addr) := by
  induction regions generalizing i with
  | nil => rfl
  | cons r regions ih =>
    rw [findRegion, if_neg (h r (by simp))]
    apply ih
    intro q hq
    exact h q (by simp [hq])

theorem getRegion_unmapped {table : List MemRegion} {addr : UInt64}
    (h : ∀ r ∈ table, ¬ r.Contains addr) : getRegion table addr = .ok (.unknown addr) :=
  findRegion_unmapped h

/-- The first index above the address never is the index of the region that holds it. -/
theorem getRegion_mapped {table : List MemRegion}
    (hsorted : table.Pairwise fun r q ↦ r.low < q.low) {addr : UInt64}
    (h : ∃ r ∈ table, r.Contains addr) :
    getRegion table addr = .error .searchesDisagree := by
  apply findRegion_disagrees _ h
  intro j hj hlow
  rw [Nat.zero_add]
  exact lt_search_lowAbove hsorted hj hlow

/-- On an accepted table of separate regions the lookup works for the unmapped addresses, and
only for these. -/
theorem findsRegion_iff {scan : Sscanf} {text : List UInt8} {table : List MemRegion}
    (h : pageTable scan text = .ok table) (addr : UInt64) :
    FindsRegion table addr ↔ ∀ r ∈ table, ¬ r.Contains addr := by
  constructor
  · intro ⟨q, hq, _⟩ r hr hcontains
    rw [getRegion_mapped (pageTable_sorted h) ⟨r, hr, hcontains⟩] at hq
    cases hq
  · intro hnone
    exact ⟨_, getRegion_unmapped hnone, .inr ⟨rfl, hnone⟩⟩

/-- The line `1000-2000 r 0 d i`. -/
def oneMapping : List UInt8 :=
  [49, 48, 48, 48, 45, 50, 48, 48, 48, 32, 114, 32, 48, 32, 100, 32, 105]

theorem pageTable_oneMapping :
    pageTable asciiSscanf oneMapping = .ok [⟨0x1000, 0x2000, [114], [48], [100], [105], []⟩] := by
  rfl

/-- Below and above the only mapping nothing is mapped. -/
theorem findsRegion_unmapped :
    FindsRegion [⟨0x1000, 0x2000, [114], [48], [100], [105], []⟩] 0x2000 :=
  (findsRegion_iff pageTable_oneMapping 0x2000).mpr (by decide)

/-- The first byte of a mapping is not found. -/
theorem lookup_mapped_fails :
    ¬ ∀ (scan : Sscanf) (text : List UInt8) (table : List MemRegion),
      pageTable scan text = .ok table → table.Pairwise MemRegion.Apart →
        ∀ addr, FindsRegion table addr := by
  intro h
  obtain ⟨r, hr, _⟩ := h asciiSscanf oneMapping _ pageTable_oneMapping (by simp) 0x1000
  rw [getRegion_mapped (pageTable_sorted pageTable_oneMapping) (by decide)] at hr
  cases hr

end Mema
