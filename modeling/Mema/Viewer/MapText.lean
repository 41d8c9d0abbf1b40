import Mema.Lib.Utf8
import Mema.Trace.RoundTrip
import Mema.Viewer.PageTable

/-!
# The page table read back

`memaviz/data.go:71–109` on the text that `mema_rtl.cpp:440–460` writes: `fmt.Sscanf` reads a
path name as one word, so exactly the path names without white space come back whole.
-/

namespace Mema

open Buffered Digits Utf8

/-! ### `fmt.Sscanf` -/

namespace Fmt

/-- `isSpace` of package `fmt`. -/
def isSpace (ch : Char) : Bool :=
  let n := ch.toNat
  (9 ≤ n && n ≤ 13) || n = 32 || n = 0x85 || n = 0xA0 || n = 0x1680 ||
    (0x2000 ≤ n && n ≤ 0x200A) || n = 0x2028 || n = 0x2029 || n = 0x202F || n = 0x205F ||
    n = 0x3000

/-- The value of a hexadecimal digit. -/
def hexRune (ch : Char) : Option Nat :=
  if ch.toNat < 128 then hexDigit (.ofNat ch.toNat) else none

/-- The value of a numeral. -/
def runesValue (digits : List Char) : Nat :=
  digits.foldl (fun n ch ↦ 16 * n + (hexRune ch).getD 0) 0

/-- `%x` into a `uint64`: white space, then a maximal run of digits whose value fits. -/
def scanHex (cs : List Char) : Option (UInt64 × List Char) :=
  let cs := cs.dropWhile isSpace
  let digits := cs.takeWhile fun ch ↦ (hexRune ch).isSome
  if digits ≠ [] ∧ runesValue digits < UInt64.size then
    some (.ofNat (runesValue digits), cs.dropWhile fun ch ↦ (hexRune ch).isSome)
  else none

/-- A blank of the format and `%s`: white space, then a maximal run of other characters. -/
def scanWord (cs : List Char) : Option (List Char × List Char) :=
  let word := (cs.dropWhile isSpace).takeWhile fun ch ↦ !isSpace ch
  if cs.head?.any isSpace ∧ word ≠ [] then
    some (word, (cs.dropWhile isSpace).dropWhile fun ch ↦ !isSpace ch)
  else none

/-- The `%s` operands in order; those before the failing one are already stored. -/
def scanWords : List (List UInt8 → MemRegion → MemRegion) → List Char → MemRegion →
    MemRegion × Bool
  | [], _, x => (x, true)
  | store :: words, cs, x =>
    match scanWord cs with
    | none => (x, false)
    | some (word, rest) => scanWords words rest (store (encode word) x)

/-- `%x-%x`, then the words. -/
def scanFields (words : List (List UInt8 → MemRegion → MemRegion)) (cs : List Char)
    (x : MemRegion) : MemRegion × Bool :=
  match scanHex cs with
  | none => (x, false)
  | some (low, rest) =>
    match rest with
    | '-' :: rest =>
      match scanHex rest with
      | none => ({ x with low := low }, false)
      | some (hi, rest) => scanWords words rest { x with low := low, hi := hi }
    | _ => ({ x with low := low }, false)

/-- The `%s` operands of the first call. -/
def sevenWords : List (List UInt8 → MemRegion → MemRegion) :=
  sixWords ++ [fun w x ↦ { x with pathname := w }]

/-- `fmt.Sscanf` with the two formats of `ParsePageTable`. -/
def sscanf : Sscanf where
  seven line := scanFields sevenWords (decode line)
  six line := scanFields sixWords (decode line)

/-- A text that `%x` reads whole. -/
def IsNumber (digits : List Char) : Prop :=
  digits ≠ [] ∧ (∀ ch ∈ digits, (hexRune ch).isSome = true) ∧ runesValue digits < UInt64.size

/-- A text that `%s` reads whole. -/
def IsWord (word : List Char) : Prop := word ≠ [] ∧ ∀ ch ∈ word, isSpace ch = false

/-- The first word of a text, with the white space before it left out. -/
def firstWord (cs : List Char) : List Char :=
  (cs.dropWhile isSpace).takeWhile fun ch ↦ !isSpace ch

/-- A word ends here. -/
def Ends (cs : List Char) : Prop := ∀ ch ∈ cs.head?, isSpace ch = true

theorem isNumber_of_all {digits : List Char} (h : digits ≠ [])
    (hall : (digits.all fun ch ↦ (hexRune ch).isSome) = true)
    (hvalue : runesValue digits < UInt64.size) : IsNumber digits :=
  ⟨h, List.all_eq_true.mp hall, hvalue⟩

theorem isWord_of_all {word : List Char} (h : word ≠ [])
    (hall : (word.all fun ch ↦ !isSpace ch) = true) : IsWord word := by
  refine ⟨h, fun ch hch ↦ ?_⟩
  have hspace := List.all_eq_true.mp hall ch hch
  rwa [Bool.not_eq_true'] at hspace

theorem isSpace_of_hexRune {ch : Char} (h : (hexRune ch).isSome = true) : isSpace ch = false := by
  unfold hexRune at h
  split at h
  · next hascii =>
    have hlt := UInt8.lt_iff_toNat_lt.mp (lt_of_hexDigit h)
    rw [UInt8.toNat_ofNat', show (32 : UInt8).toNat = 32 from rfl] at hlt
    simp only [isSpace, Bool.or_eq_false_iff, Bool.and_eq_false_iff, decide_eq_false_iff_not]
    omega
  · cases h

theorem dropWhile_isSpace {ch : Char} (h : isSpace ch = false) (cs : List Char) :
    (ch :: cs).dropWhile isSpace = ch :: cs :=
  List.dropWhile_cons_of_neg (by rw [h]; decide)

/-- `%x` takes a numeral that something else follows. -/
theorem scanHex_number {digits : List Char} (h : IsNumber digits) {ch : Char}
    (hch : hexRune ch = none) (rest : List Char) :
    scanHex (digits ++ ch :: rest) = some (.ofNat (runesValue digits), ch :: rest) := by
  have hskip : (digits ++ ch :: rest).dropWhile isSpace = digits ++ ch :: rest := by
    cases digits with
    | nil => exact absurd rfl h.1
    | cons d ds => exact dropWhile_isSpace (isSpace_of_hexRune (h.2.1 d (by simp))) _
  have hstop : (hexRune ch).isSome = false := by rw [hch]; rfl
  simp only [scanHex, hskip, takeWhile_run h.2.1 hstop, dropWhile_run h.2.1 hstop]
  exact if_pos ⟨h.1, h.2.2⟩

/-- The characters of a word go on and what follows it does not. -/
theorem word_run {word rest : List Char} (h : ∀ ch ∈ word, isSpace ch = false)
    (hrest : Ends rest) : (∀ ch ∈ word, (!isSpace ch) = true) ∧
      ∀ ch ∈ rest.head?, (!isSpace ch) = false := by
  constructor
  · intro ch hch
    rw [h ch hch, Bool.not_false]
  · intro ch hch
    rw [hrest ch hch, Bool.not_true]

/-- A blank and `%s` take a word behind one space. -/
theorem scanWord_word {word rest : List Char} (h : IsWord word) (hrest : Ends rest) :
    scanWord (' ' :: (word ++ rest)) = some (word, rest) := by
  have hskip : (' ' :: (word ++ rest)).dropWhile isSpace = word ++ rest := by
    rw [List.dropWhile_cons_of_pos (by decide)]
    cases word with
    | nil => exact absurd rfl h.1
    | cons ch cs => exact dropWhile_isSpace (h.2 ch (by simp)) _
  obtain ⟨hword, hends⟩ := word_run h.2 hrest
  simp only [scanWord, hskip, takeWhile_ends hword hends, dropWhile_ends hword hends]
  exact if_pos ⟨rfl, h.1⟩

/-- After the words of a line comes its path name, read as one word where there is one. -/
theorem scanWord_last {cs : List Char} (h : firstWord cs ≠ [] → cs.head?.any isSpace = true) :
    (scanWord cs).map Prod.fst = if firstWord cs = [] then none else some (firstWord cs) := by
  unfold scanWord
  by_cases hword : firstWord cs = []
  · rw [if_pos hword, if_neg (fun hboth ↦ hboth.2 hword)]
    rfl
  · rw [if_neg hword, if_pos ⟨h hword, hword⟩]
    rfl

end Fmt

/-! ### Lines -/

open Fmt

/-- A line of `/proc/self/maps`. The path name is any bytes but a newline and a NUL. -/
structure MapLine where
  low : List Char
  hi : List Char
  perms : List Char
  offset : List Char
  dev : List Char
  inode : List Char
  blanks : List Char
  pathname : List UInt8
  low_number : IsNumber low
  hi_number : IsNumber hi
  words : ∀ word ∈ [perms, offset, dev, inode], IsWord word ∧ '\x00' ∉ word
  blanks_blank : ∀ ch ∈ blanks, ch = ' ' ∨ ch = '\t'
  pathname_apart : pathname ≠ [] → blanks ≠ []
  newline_not_mem : 10 ∉ pathname
  nul_not_mem : 0 ∉ pathname

namespace MapLine

variable (l : MapLine)

/-- The line up to its path name. -/
def fields : List Char :=
  l.low ++ '-' :: (l.hi ++ ' ' :: (l.perms ++ ' ' :: (l.offset ++ ' ' :: (l.dev ++
    ' ' :: (l.inode ++ l.blanks)))))

/-- The bytes of the line. -/
def text : List UInt8 := encode l.fields ++ l.pathname

/-- The mapping that the line describes. -/
def region : MemRegion where
  low := .ofNat (runesValue l.low)
  hi := .ofNat (runesValue l.hi)
  perms := encode l.perms
  offset := encode l.offset
  dev := encode l.dev
  inode := encode l.inode
  pathname := l.pathname

/-- The path name is UTF-8 text without white space. -/
def Plain : Prop :=
  encode (decode l.pathname) = l.pathname ∧ ∀ ch ∈ decode l.pathname, isSpace ch = false

/-- What the last `%s` reads. -/
def scanned : List Char := firstWord (l.blanks ++ decode l.pathname)

/-- The mapping with its path name cut to that word. -/
def cut : MemRegion := { l.region with pathname := encode l.scanned }

theorem decode_text : decode l.text = l.fields ++ decode l.pathname :=
  decode_encode_append l.fields l.pathname

theorem isSpace_blanks {ch : Char} (h : ch ∈ l.blanks) : isSpace ch = true := by
  rcases l.blanks_blank ch h with rfl | rfl <;> decide

/-- The last field ends at a blank or at the end of the line. -/
theorem ends_rest : Ends (l.blanks ++ decode l.pathname) := by
  intro ch hch
  cases hblanks : l.blanks with
  | nil =>
    have hpath : l.pathname = [] := by
      by_contra hne
      exact l.pathname_apart hne hblanks
    rw [hblanks, hpath, decode_nil] at hch
    cases hch
  | cons c blanks =>
    rw [hblanks] at hch
    obtain rfl : c = ch := Option.some.inj hch
    exact l.isSpace_blanks (by rw [hblanks]; exact List.mem_cons_self)

/-- The path name is found behind a blank. -/
theorem head?_rest (h : l.scanned ≠ []) :
    (l.blanks ++ decode l.pathname).head?.any isSpace = true := by
  have hends := l.ends_rest
  rw [scanned] at h
  cases hrest : l.blanks ++ decode l.pathname with
  | nil =>
    rw [hrest] at h
    exact absurd rfl h
  | cons ch rest =>
    rw [hrest] at hends
    show isSpace ch = true
    exact hends ch rfl

/-- `%x-%x` and the first four words are those of the line. -/
theorem scanFields_text (words : List (List UInt8 → MemRegion → MemRegion)) (x : MemRegion) :
    Fmt.scanFields (sixWords ++ words) (decode l.text) x =
      scanWords words (l.blanks ++ decode l.pathname)
        { l.region with pathname := x.pathname } := by
  have hperms := (l.words l.perms (by simp)).1
  have hoffset := (l.words l.offset (by simp)).1
  have hdev := (l.words l.dev (by simp)).1
  have hinode := (l.words l.inode (by simp)).1
  have hspace : ∀ cs : List Char, Ends (' ' :: cs) := by
    intro cs ch hch
    obtain rfl : ' ' = ch := Option.some.inj hch
    decide
  rw [l.decode_text, fields]
  simp only [List.append_assoc, List.cons_append]
  simp only [Fmt.scanFields, scanHex_number l.low_number (show hexRune '-' = none by decide),
    scanHex_number l.hi_number (show hexRune ' ' = none by decide)]
  simp only [sixWords, List.cons_append, List.nil_append, scanWords,
    scanWord_word hperms (hspace _), scanWord_word hoffset (hspace _),
    scanWord_word hdev (hspace _), scanWord_word hinode l.ends_rest]
  rfl

/-- The first call stores a seventh field only if there is a word left, and then the second
call is not made. -/
theorem scanLine_text :
    scanLine sscanf l.text = .ok l.cut := by
  have hlast : (Fmt.scanWord (l.blanks ++ decode l.pathname)).map Prod.fst =
      if l.scanned = [] then none else some l.scanned := scanWord_last l.head?_rest
  have hsix : ∀ x, sscanf.six l.text x = ({ l.region with pathname := x.pathname }, true) := by
    intro x
    have h := l.scanFields_text [] x
    rw [List.append_nil] at h
    exact h
  have hseven := l.scanFields_text [fun w x ↦ { x with pathname := w }] .zero
  cases hscan : Fmt.scanWord (l.blanks ++ decode l.pathname) with
  | none =>
    rw [hscan] at hlast
    have hnone : l.scanned = [] := by
      by_contra hne
      rw [if_neg hne] at hlast
      cases hlast
    simp only [scanWords, hscan] at hseven
    have hfirst : sscanf.seven l.text .zero =
        ({ l.region with pathname := MemRegion.zero.pathname }, false) := hseven
    simp only [scanLine, hfirst, hsix, cut, hnone, encode_nil]
    rfl
  | some p =>
    rw [hscan] at hlast
    have hword : p.1 = l.scanned := by
      by_cases hne : l.scanned = []
      · rw [if_pos hne] at hlast
        cases hlast
      · rw [if_neg hne] at hlast
        exact Option.some.inj hlast
    simp only [scanWords, hscan, hword] at hseven
    have hfirst : sscanf.seven l.text .zero =
        ({ l.region with pathname := encode l.scanned }, true) := hseven
    simp only [scanLine, hfirst]
    rfl

/-- The last `%s` reads the whole path name where it is plain, and only there. -/
theorem encode_scanned : encode l.scanned = l.pathname ↔ l.Plain := by
  have hskip : l.scanned = firstWord (decode l.pathname) := by
    rw [scanned, firstWord, firstWord, List.dropWhile_append_of_pos fun _ ↦ l.isSpace_blanks]
  rw [hskip]
  constructor
  · intro h
    have hdecode : decode l.pathname = firstWord (decode l.pathname) := by
      rw [← decode_encode (firstWord (decode l.pathname)), h]
    constructor
    · rw [hdecode, h]
    · intro ch hch
      rw [hdecode] at hch
      simpa using List.mem_takeWhile_imp hch
  · intro ⟨hutf8, hplain⟩
    obtain ⟨hrun, -⟩ := word_run hplain (show Ends [] from fun _ h ↦ by cases h)
    have hdrop : (decode l.pathname).dropWhile isSpace = decode l.pathname := by
      cases htext : decode l.pathname with
      | nil => rfl
      | cons ch cs => exact dropWhile_isSpace (hplain ch (by rw [htext]; simp)) cs
    rw [firstWord, hdrop, List.takeWhile_eq_self_iff.mpr hrun, hutf8]

/-- The cut loses nothing exactly from plain path names. -/
theorem cut_eq_region : l.cut = l.region ↔ l.Plain := by
  rw [← l.encode_scanned]
  constructor
  · intro h
    exact congrArg MemRegion.pathname h
  · intro h
    rw [cut, h]
    rfl

/-! ### Separators -/

/-- An ASCII byte that no character of the line stands for is not in its text. -/
theorem not_mem_text {b : UInt8} (hb : b.toNat < 128)
    (hfields : ∀ ch ∈ l.fields, ch.toNat ≠ b.toNat) (hpath : b ∉ l.pathname) : b ∉ l.text := by
  intro h
  cases List.mem_append.mp h with
  | inl h =>
    obtain ⟨ch, hch, heq⟩ := mem_of_mem_encode h hb
    exact hfields ch hch heq
  | inr h => exact hpath h

/-- The characters of the fields: digits, words, blanks and a dash. -/
theorem mem_fields {ch : Char} (h : ch ∈ l.fields) :
    isSpace ch = false ∧ ch.toNat ≠ 0 ∨ ch = ' ' ∨ ch = '\t' := by
  have hdigit : ∀ ds, IsNumber ds → ch ∈ ds → isSpace ch = false ∧ ch.toNat ≠ 0 := by
    intro ds hds hch
    have hsome := hds.2.1 ch hch
    constructor
    · exact isSpace_of_hexRune hsome
    · intro hzero
      rw [hexRune, hzero] at hsome
      exact absurd hsome (by decide)
  have hword : ∀ w ∈ [l.perms, l.offset, l.dev, l.inode], ch ∈ w →
      isSpace ch = false ∧ ch.toNat ≠ 0 := by
    intro w hw hch
    constructor
    · exact (l.words w hw).1.2 ch hch
    · intro hzero
      have hnul : ch = '\x00' := Char.toNat_inj.mp hzero
      exact (l.words w hw).2 (hnul ▸ hch)
  simp only [fields, List.mem_append, List.mem_cons] at h
  rcases h with h | rfl | h | rfl | h | rfl | h | rfl | h | rfl | h | h
  · exact .inl (hdigit _ l.low_number h)
  · exact .inl (by decide)
  · exact .inl (hdigit _ l.hi_number h)
  · exact .inr (.inl rfl)
  · exact .inl (hword _ (by simp) h)
  · exact .inr (.inl rfl)
  · exact .inl (hword _ (by simp) h)
  · exact .inr (.inl rfl)
  · exact .inl (hword _ (by simp) h)
  · exact .inr (.inl rfl)
  · exact .inl (hword _ (by simp) h)
  · exact .inr (l.blanks_blank ch h)

theorem newline_not_mem_text : 10 ∉ l.text := by
  apply l.not_mem_text (by decide) _ l.newline_not_mem
  intro ch hch heq
  have hnewline : ch = '\n' := Char.toNat_inj.mp heq
  subst hnewline
  exact absurd (l.mem_fields hch) (by decide)

theorem nul_not_mem_text : 0 ∉ l.text := by
  apply l.not_mem_text (by decide) _ l.nul_not_mem
  intro ch hch heq
  have hnul : ch = '\x00' := Char.toNat_inj.mp heq
  subst hnul
  exact absurd (l.mem_fields hch) (by decide)

theorem text_ne_nil : l.text ≠ [] := by
  intro h
  rw [text, List.append_eq_nil_iff, encode_eq_nil, fields, List.append_eq_nil_iff] at h
  exact l.low_number.1 h.1.1

end MapLine

/-! ### Tables -/

/-- The text of `/proc/self/maps`, with strictly increasing nonzero low addresses. -/
structure MapTable where
  lines : List MapLine
  nonzero : ∀ l ∈ lines, 0 < l.region.low
  increasing : lines.Pairwise fun l m ↦ l.region.low < m.region.low

/-- `ParsePageTable`, `data.go:71–109`, with the regions it leaves. -/
def readPageTable (scan : Sscanf) (r : Reader UInt8) :
    Except GoPanic (List MemRegion × Reader UInt8) :=
  match r.readBytes viewerBufsize 0 with
  | none => .error .pageTable
  | some (pageTableBytes, r) =>
    match pageTable scan pageTableBytes.dropLast with
    | .ok region => .ok (region, r)
    | .error _ => .error .pageTable

/-- The regions apart, this is the `ParsePageTable` of the loader. -/
theorem parsePageTable_eq (scan : Sscanf) (r : Reader UInt8) :
    parsePageTable (tableAccepts scan) r = (readPageTable scan r).map Prod.snd := by
  unfold parsePageTable readPageTable
  cases r.readBytes viewerBufsize 0 with
  | none => rfl
  | some p =>
    obtain ⟨bytes, r'⟩ := p
    cases htable : pageTable scan bytes.dropLast with
    | ok region => simp only [tableAccepts, htable]; rfl
    | error e => simp only [tableAccepts, htable]; rfl

/-- One region for each line, its path name cut to a word. -/
theorem scanLines_text {lines : List MapLine} {last : UInt64}
    (hlast : ∀ l ∈ lines, last < l.region.low)
    (hlines : lines.Pairwise fun l m ↦ l.region.low < m.region.low) :
    scanLines sscanf last (lines.map MapLine.text ++ [[]]) =
      .ok (lines.map MapLine.cut) := by
  induction lines generalizing last with
  | nil => rfl
  | cons l lines ih =>
    have hrest := ih (fun m ↦ List.rel_of_pairwise_cons hlines) hlines.of_cons
    have hlow : last < l.region.low := hlast l List.mem_cons_self
    rw [List.map_cons, List.cons_append, scanLines, if_neg l.text_ne_nil, l.scanLine_text]
    show (if last < l.region.low then _ else _) = _
    rw [if_pos hlow]
    show (scanLines sscanf l.region.low (lines.map MapLine.text ++ [[]]) >>= fun regions ↦ _) = _
    rw [hrest]
    rfl

namespace MapTable

variable (t : MapTable)

/-- The text, each line ended by a newline. -/
def text : List UInt8 := t.lines.flatMap fun l ↦ l.text ++ [10]

/-- A trace that begins with the header of a run over this table is read without a panic up
to and including the NUL, with one region for each line. -/
def Preserved : Prop :=
  ∀ (start : Startup) (rest : List UInt8), start.flags.filename.isSome = true →
    start.fd ≠ -1 → start.maps.flatten = t.text →
      ∃ r r', parseHeader (Reader.opened ((memaInitialize start).shared.out.bytes ++ rest)) =
          .ok r ∧
        readPageTable sscanf r = .ok (t.lines.map MapLine.region, r') ∧ r'.rest = rest

theorem splitOn_text : t.text.splitOn 10 = t.lines.map MapLine.text ++ [[]] := by
  rw [text]
  induction t.lines with
  | nil => rfl
  | cons l lines ih =>
    rw [List.flatMap_cons, List.append_assoc, List.singleton_append,
      List.splitOn_append_cons_self, List.splitOn_eq_singleton l.newline_not_mem_text, ih]
    rfl

theorem nul_not_mem_text : 0 ∉ t.text := by
  intro h
  obtain ⟨l, -, hmem⟩ := List.mem_flatMap.mp h
  cases List.mem_append.mp hmem with
  | inl h => exact l.nul_not_mem_text h
  | inr h => exact absurd h (by decide)

theorem pageTable_text : pageTable sscanf t.text = .ok (t.lines.map MapLine.cut) := by
  rw [pageTable, t.splitOn_text]
  exact scanLines_text t.nonzero t.increasing

/-- What every run over this table leaves is read up to the NUL, path names cut. -/
theorem exists_readPageTable {start : Startup} (rest : List UInt8)
    (hname : start.flags.filename.isSome = true) (hfd : start.fd ≠ -1)
    (hmaps : start.maps.flatten = t.text) :
    ∃ r r', parseHeader (Reader.opened ((memaInitialize start).shared.out.bytes ++ rest)) =
        .ok r ∧
      readPageTable sscanf r = .ok (t.lines.map MapLine.cut, r') ∧ r'.rest = rest := by
  rw [bytes_memaInitialize hname hfd, hmaps, List.append_assoc, List.append_assoc]
  obtain ⟨r, hheader, hwf, -, hr⟩ := parseHeader_spec
    (Reader.wf_opened (magicBytes ++ (t.text ++ ([0] ++ rest)))) rfl rfl
  obtain ⟨r', hread, -, -, hrest⟩ := Reader.readBytes_spec viewerBufsize (by decide) hwf
    t.nul_not_mem_text hr
  have hregions : readPageTable sscanf r = .ok (t.lines.map MapLine.cut, r') := by
    simp only [readPageTable, hread, List.dropLast_concat, t.pageTable_text]
  exact ⟨r, r', hheader, hregions, hrest⟩

/-- A run that finds this table. -/
def startup : Startup := { Startup.toFile with maps := [t.text] }

/-- A preserved table loses nothing in the cuts. -/
theorem map_cut_of_preserved (h : t.Preserved) :
    t.lines.map MapLine.cut = t.lines.map MapLine.region := by
  have hname : t.startup.flags.filename.isSome = true := rfl
  have hfd : t.startup.fd ≠ -1 := by
    show Startup.toFile.fd ≠ -1
    decide
  have hmaps : t.startup.maps.flatten = t.text := List.append_nil _
  obtain ⟨r, r', hr, hread, -⟩ := h t.startup [] hname hfd hmaps
  obtain ⟨r₀, r₁, hr₀, hread₀, -⟩ := t.exists_readPageTable [] hname hfd hmaps
  obtain rfl : r₀ = r := Except.ok.inj (hr₀.symm.trans hr)
  exact congrArg Prod.fst (Except.ok.inj (hread₀.symm.trans hread))

/-- A table is read back whole exactly when every path name is text without white space. -/
theorem preserved_iff : t.Preserved ↔ ∀ l ∈ t.lines, l.Plain := by
  have hcut : t.lines.map MapLine.cut = t.lines.map MapLine.region ↔
      ∀ l ∈ t.lines, l.Plain := by
    rw [List.map_inj_left]
    exact forall₂_congr fun l _ ↦ l.cut_eq_region
  constructor
  · intro h
    exact hcut.mp (t.map_cut_of_preserved h)
  · intro h start rest hname hfd hmaps
    have hread := t.exists_readPageTable rest hname hfd hmaps
    rwa [hcut.mpr h] at hread

end MapTable

/-- The line `1000-2000 r-xp 0 00:00 1 /a (deleted)`. -/
def MapLine.deleted : MapLine where
  low := "1000".toList
  hi := "2000".toList
  perms := "r-xp".toList
  offset := "0".toList
  dev := "00:00".toList
  inode := "1".toList
  blanks := [' ']
  pathname := encode "/a (deleted)".toList
  low_number := isNumber_of_all (by decide) (by decide) (by decide)
  hi_number := isNumber_of_all (by decide) (by decide) (by decide)
  words := by
    simp only [List.forall_mem_cons, List.not_mem_nil, IsEmpty.forall_iff, implies_true, and_true]
    exact ⟨⟨isWord_of_all (by decide) (by decide), by decide⟩,
      ⟨isWord_of_all (by decide) (by decide), by decide⟩,
      ⟨isWord_of_all (by decide) (by decide), by decide⟩,
      isWord_of_all (by decide) (by decide), by decide⟩
  blanks_blank := List.forall_mem_singleton.mpr (.inl rfl)
  pathname_apart := by decide
  newline_not_mem := by decide
  nul_not_mem := by decide

/-- A path name with a space is cut at it. -/
theorem pathname_is_cut : ¬ ∀ t : MapTable, t.Preserved := by
  intro h
  have hcut := MapTable.map_cut_of_preserved ⟨[.deleted], by decide, by simp⟩ (h _)
  have hplain := MapLine.deleted.cut_eq_region.mp (List.map_inj_left.mp hcut _ (by simp))
  have hspace : ' ' ∈ decode MapLine.deleted.pathname := by
    show ' ' ∈ decode (encode "/a (deleted)".toList)
    rw [decode_encode]
    decide
  exact absurd (hplain.2 ' ' hspace) (by decide)

end Mema
