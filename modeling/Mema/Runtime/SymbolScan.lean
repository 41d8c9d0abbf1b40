import Mathlib.Data.Finset.Card
import Mema.Lib.Digits
import Mema.Runtime.Hooks

/-!
# Selecting the functions to monitor

`mema_rtl.cpp:392–438`: the runtime lists its own symbols with `nm`, demangles the name of
each line and keeps the addresses whose name matches the pattern. A line is cut before it is
read, meant to drop the newline; what it drops is the last character of the name.
-/

namespace Mema

open Digits

/-- What the host answers: the target of `/proc/self/exe`, what a command prints, and the
demangler and `fnmatch`, as functions of the text they receive. -/
structure Host where
  readlink : Option (List UInt8)
  popen : List UInt8 → Option (List UInt8)
  demangle : List UInt8 → Option (List UInt8)
  fnmatch : String → List UInt8 → Bool

/-- The name a symbol demangles to matches the pattern. -/
def Host.selects (host : Host) (pattern : String) (name : List UInt8) : Bool :=
  (host.demangle name).any (host.fnmatch pattern)

/-! ### Reading a line -/

/-- `getline`: the next line with its newline, and what is left; nothing at the end. -/
def getline (text : List UInt8) : Option (List UInt8 × List UInt8) :=
  if text = [] then none
  else match text.dropWhile (· ≠ 10) with
    | [] => some (text, [])
    | newline :: rest => some (text.takeWhile (· ≠ 10) ++ [newline], rest)

/-- The text a character pointer stands for. -/
def cString (memory : List UInt8) : List UInt8 := memory.takeWhile (· ≠ 0)

/-- An optional sign. -/
def scanSign : List UInt8 → Bool × List UInt8
  | 43 :: s => (false, s)
  | 45 :: s => (true, s)
  | s => (false, s)

/-- An optional `0x`, which counts only before a digit. -/
def skipPrefix : List UInt8 → List UInt8
  | 48 :: x :: d :: s =>
    if (x = 88 ∨ x = 120) ∧ (hexDigit d).isSome then d :: s else 48 :: x :: d :: s
  | s => s

/-- `strtol(s, 0, 16)`. -/
def strtolHex (s : List UInt8) : Int :=
  let (negative, s) := scanSign (s.dropWhile isBlank)
  let value := hexValue ((skipPrefix s).takeWhile fun b ↦ (hexDigit b).isSome)
  if negative then max (-(value : Int)) (-(2 : Int) ^ 63) else min (value : Int) (2 ^ 63 - 1)

/-! ### The loop -/

/-- The body of the loop on one line, `mema_rtl.cpp:417–431`. -/
def selectLine (host : Host) (pattern : String) (line : List UInt8) (addrs : Finset UInt64) :
    Except Fault (Finset UInt64) :=
  -- `line[sz-2]` and `line+19` lie in the line only if it is long enough.
  if line.length < 19 then .error .outOfBounds
  else
    let memory := (line ++ [0]).set (line.length - 2) 0
    if host.selects pattern (cString (memory.drop 19)) then
      .ok (insert (UInt64.ofInt (strtolHex (cString memory))) addrs)
    else .ok addrs

theorem length_getline {text line rest : List UInt8} (h : getline text = some (line, rest)) :
    rest.length < text.length := by
  unfold getline at h
  split at h
  · cases h
  · next hne =>
    have hpos := List.length_pos_iff.mpr hne
    have hle := (List.dropWhile_suffix (p := (· ≠ (10 : UInt8))) (l := text)).length_le
    split at h
    · cases h
      exact hpos
    · next heq =>
      cases h
      rw [heq, List.length_cons] at hle
      omega

/-- The loop over the lines of the pipe, `mema_rtl.cpp:414–432`. -/
def selectLines (host : Host) (pattern : String) (pipe : List UInt8) (addrs : Finset UInt64) :
    Except Fault (Finset UInt64) :=
  match _h : getline pipe with
  | none => .ok addrs
  | some (line, rest) =>
    match selectLine host pattern line addrs with
    | .error f => .error f
    | .ok addrs => selectLines host pattern rest addrs
termination_by pipe.length
decreasing_by exact length_getline _h

/-- The command `nm`, with its blank. -/
def nmText : List UInt8 := [110, 109, 32]

/-- `__mema_intialize_function_monitoring`, `mema_rtl.cpp:392–436`, up to the two statements
of `memaInitializeFunctionMonitoring`. -/
def selectFunctions (host : Host) (pattern : String) : Except Fault Monitoring :=
  match host.readlink with
  | none => .ok .failed
  | some exe =>
    -- `readlink` stores at most 1024 bytes.
    if (exe.take 1024).length ≥ 1024 then .ok .failed
    else match host.popen (nmText ++ exe.take 1024) with
      | none => .ok .failed
      | some pipe =>
        match selectLines host pattern pipe ∅ with
        | .error f => .error f
        | .ok addrs => if addrs.card = 0 then .ok .failed else .ok (.selected addrs)

/-! ### Lines printed by `nm` -/

/-- A letter of the alphabet. -/
def IsLetter (b : UInt8) : Prop := (65 ≤ b ∧ b ≤ 90) ∨ (97 ≤ b ∧ b ≤ 122)

instance (b : UInt8) : Decidable (IsLetter b) := inferInstanceAs (Decidable (_ ∨ _))

/-- A line of the listing: an address of 16 hexadecimal digits or blanks, a type letter and a
symbol name. -/
structure SymbolLine where
  address : List UInt8
  letter : UInt8
  name : List UInt8
  length_address : address.length = 16
  digits_or_blanks : (∀ b ∈ address, (hexDigit b).isSome = true) ∨ ∀ b ∈ address, b = 32
  isLetter : IsLetter letter
  newline_not_mem : 10 ∉ name
  nul_not_mem : 0 ∉ name

namespace SymbolLine

/-- The line as printed. -/
def text (l : SymbolLine) : List UInt8 := l.address ++ [32, l.letter, 32] ++ l.name ++ [10]

/-- The address printed on the line, if there is one. -/
def value (l : SymbolLine) : Option UInt64 :=
  if l.address.all fun b ↦ (hexDigit b).isSome then some (.ofNat (hexValue l.address)) else none

/-- What is left of the name in the text handed to the demangler: the cut takes the name's
last character, or the blank before an empty name. -/
def cutName (l : SymbolLine) : List UInt8 := if l.name = [] then [10] else l.name.dropLast

/-- The address `strtol` reads: values that do not fit stop at the largest one, and behind
blanks the type letter is read. -/
def readValue (l : SymbolLine) : UInt64 :=
  match l.value with
  | some v => if v ≤ 0x7fffffffffffffff then v else 0x7fffffffffffffff
  | none => .ofNat ((hexDigit l.letter).getD 0)

end SymbolLine

/-- The listing of a binary. -/
def listingText (listing : List SymbolLine) : List UInt8 := listing.flatMap SymbolLine.text

/-- The loop selects the addresses of exactly those lines whose full name is selected. -/
def SelectsByName (host : Host) (pattern : String) (listing : List SymbolLine) : Prop :=
  ∃ addrs, selectLines host pattern (listingText listing) ∅ = .ok addrs ∧
    ∀ addr, addr ∈ addrs ↔
      ∃ l ∈ listing, l.value = some addr ∧ host.selects pattern l.name = true

/-- The addresses read from the lines whose cut name is selected are those printed on the
lines whose full name is selected. -/
def CutsAgree (host : Host) (pattern : String) (listing : List SymbolLine) : Prop :=
  ∀ addr, (∃ l ∈ listing, l.readValue = addr ∧ host.selects pattern l.cutName = true) ↔
    ∃ l ∈ listing, l.value = some addr ∧ host.selects pattern l.name = true

/-! ### One line -/

/-- The next line ends at the first newline. -/
theorem getline_append {line : List UInt8} (h : 10 ∉ line) (rest : List UInt8) :
    getline (line ++ [10] ++ rest) = some (line ++ [10], rest) := by
  have hall : ∀ b ∈ line, decide (b ≠ (10 : UInt8)) = true := by
    intro b hb
    rw [decide_eq_true_iff]
    rintro rfl
    exact h hb
  have hne : line ++ [10] ++ rest ≠ [] := by simp
  rw [getline, if_neg hne, List.append_assoc, List.singleton_append]
  rw [takeWhile_run hall (by decide), dropWhile_run hall (by decide)]

theorem cString_append {s : List UInt8} (h : 0 ∉ s) (rest : List UInt8) :
    cString (s ++ 0 :: rest) = s := by
  apply takeWhile_run
  · intro b hb
    rw [decide_eq_true_iff]
    rintro rfl
    exact h hb
  · decide

/-! ### Reading the address -/

theorem scanSign_eq {b : UInt8} (h43 : b ≠ 43) (h45 : b ≠ 45) (s : List UInt8) :
    scanSign (b :: s) = (false, b :: s) := by
  unfold scanSign
  split
  · next heq =>
    cases heq
    exact absurd rfl h43
  · next heq =>
    cases heq
    exact absurd rfl h45
  · rfl

theorem skipPrefix_eq {b x : UInt8} (h88 : x ≠ 88) (h120 : x ≠ 120) (s : List UInt8) :
    skipPrefix (b :: x :: s) = b :: x :: s := by
  unfold skipPrefix
  split
  · next heq =>
    cases heq
    apply if_neg
    rintro ⟨rfl | rfl, -⟩
    · exact h88 rfl
    · exact h120 rfl
  · rfl

/-- A numeral ended by a blank is read whole, up to the largest value. -/
theorem strtolHex_digits {digits : List UInt8} (hne : digits ≠ [])
    (hdigits : ∀ b ∈ digits, (hexDigit b).isSome = true) (rest : List UInt8) :
    strtolHex (digits ++ 32 :: rest) = min (hexValue digits : Int) (2 ^ 63 - 1) := by
  have hnot (b x : UInt8) (hb : (hexDigit b).isSome = true) (hx : (hexDigit x).isSome = false) :
      b ≠ x := by
    rintro rfl
    rw [hb] at hx
    cases hx
  have htake : (digits ++ 32 :: rest).takeWhile (fun b ↦ (hexDigit b).isSome) = digits :=
    takeWhile_run hdigits (by decide) rest
  have hskipped : skipPrefix (digits ++ 32 :: rest) = digits ++ 32 :: rest := by
    cases digits with
    | nil => exact absurd rfl hne
    | cons d ds =>
      cases ds with
      | nil => exact skipPrefix_eq (by decide) (by decide) rest
      | cons x ds =>
        have hx := hdigits x (by simp)
        exact skipPrefix_eq (hnot x 88 hx (by decide)) (hnot x 120 hx (by decide)) _
  have hsign : scanSign ((digits ++ 32 :: rest).dropWhile isBlank) =
      (false, digits ++ 32 :: rest) := by
    cases digits with
    | nil => exact absurd rfl hne
    | cons d ds =>
      have hd := hdigits d (by simp)
      have hblank : ¬ isBlank d = true := by
        rw [isBlank_of_hexDigit hd]
        decide
      rw [List.cons_append, List.dropWhile_cons_of_neg hblank]
      exact scanSign_eq (hnot d 43 hd (by decide)) (hnot d 45 hd (by decide)) _
  simp only [strtolHex, hsign, hskipped, htake, Bool.false_eq_true, ↓reduceIte]

theorem ne_of_isLetter {letter x : UInt8} (h : IsLetter letter) (hx : x.toNat < 65) :
    letter ≠ x := by
  rintro rfl
  rcases h with ⟨hlo, -⟩ | ⟨hlo, -⟩
  · have hle : 65 ≤ letter.toNat := UInt8.le_iff_toNat_le.mp hlo
    omega
  · have hle : 97 ≤ letter.toNat := UInt8.le_iff_toNat_le.mp hlo
    omega

theorem isBlank_of_isLetter {letter : UInt8} (h : IsLetter letter) : isBlank letter = false := by
  have hle : ¬ letter ≤ 13 := by
    intro hle
    have hlt : letter.toNat < 65 :=
      Nat.lt_of_le_of_lt (UInt8.le_iff_toNat_le.mp hle) (by decide)
    exact ne_of_isLetter h hlt rfl
  simp [isBlank, hle, ne_of_isLetter h (show (32 : UInt8).toNat < 65 by decide)]

/-- A letter and a blank are a numeral of one digit, or none. -/
theorem hexValue_letter {letter : UInt8} {tail : List UInt8} (htail : ∀ b ∈ tail.head?, b = 32) :
    hexValue ((letter :: tail).takeWhile fun b ↦ (hexDigit b).isSome) =
      (hexDigit letter).getD 0 := by
  have hend : tail.takeWhile (fun b ↦ (hexDigit b).isSome) = [] := by
    cases tail with
    | nil => rfl
    | cons b tail =>
      rw [htail b rfl]
      rfl
  cases hd : hexDigit letter with
  | none =>
    rw [List.takeWhile_cons_of_neg (by rw [hd]; decide)]
    rfl
  | some n =>
    rw [List.takeWhile_cons_of_pos (by rw [hd]; rfl), hend]
    simp [hexValue, hd]

/-- Behind blanks the type letter is read. -/
theorem strtolHex_blanks {blanks : List UInt8} (hblanks : ∀ b ∈ blanks, b = 32) {letter : UInt8}
    (hletter : IsLetter letter) {tail : List UInt8} (htail : ∀ b ∈ tail.head?, b = 32) :
    strtolHex (blanks ++ 32 :: letter :: tail) = ((hexDigit letter).getD 0 : Nat) := by
  have hdrop : (blanks ++ 32 :: letter :: tail).dropWhile isBlank = letter :: tail := by
    have hall : ∀ b ∈ blanks ++ [32], isBlank b = true := by
      intro b hb
      have heq : b = 32 := by
        rcases List.mem_append.mp hb with hb | hb
        · exact hblanks b hb
        · exact List.mem_singleton.mp hb
      rw [heq]
      decide
    rw [← List.singleton_append, ← List.append_assoc]
    exact dropWhile_run hall (isBlank_of_isLetter hletter) tail
  have hskipped : skipPrefix (letter :: tail) = letter :: tail := by
    unfold skipPrefix
    split
    · next heq =>
      cases heq
      exact absurd rfl (ne_of_isLetter hletter (by decide))
    · rfl
  have hsign : scanSign (letter :: tail) = (false, letter :: tail) :=
    scanSign_eq (ne_of_isLetter hletter (by decide)) (ne_of_isLetter hletter (by decide)) tail
  have hsmall := getD_hexDigit_lt letter
  simp only [strtolHex, hdrop, hsign, hskipped, hexValue_letter htail, Bool.false_eq_true,
    ↓reduceIte]
  omega

/-! ### The cut -/

/-- Storing the terminator at the length of the name takes the last byte before it. -/
private theorem set_cut (b : UInt8) (name tail : List UInt8) :
    (b :: (name ++ 10 :: tail)).set name.length 0 =
      (b :: name).dropLast ++ 0 :: 10 :: tail := by
  induction name generalizing b with
  | nil => rfl
  | cons x name ih => simp [ih]

private theorem ofInt_natCast (n : Nat) : UInt64.ofInt n = .ofNat n := by
  apply UInt64.toNat_inj.mp
  rw [UInt64.ofInt, UInt64.toNat_ofNat', UInt64.toNat_ofNat']
  omega

/-- The largest value of `strtol` is the largest signed 64-bit number. -/
theorem ofInt_min {n : Nat} (h : n < 2 ^ 64) : UInt64.ofInt (min (n : Int) (2 ^ 63 - 1)) =
    if UInt64.ofNat n ≤ 0x7fffffffffffffff then .ofNat n else 0x7fffffffffffffff := by
  have hfits : UInt64.ofNat n ≤ 0x7fffffffffffffff ↔ n ≤ 0x7fffffffffffffff := by
    rw [UInt64.le_iff_toNat_le, UInt64.toNat_ofNat', Nat.mod_eq_of_lt h]
    rfl
  by_cases hn : n ≤ 0x7fffffffffffffff
  · rw [if_pos (hfits.mpr hn), min_eq_left (by omega), ofInt_natCast]
  · rw [if_neg (fun h ↦ hn (hfits.mp h)), min_eq_right (by omega)]
    rfl

namespace SymbolLine

variable (l : SymbolLine)

theorem letter_ne {x : UInt8} (hx : x.toNat < 65) : x ≠ l.letter :=
  (ne_of_isLetter l.isLetter hx).symm

theorem not_mem_address {x : UInt8} (hx : (hexDigit x).isSome = false) (hblank : x ≠ 32) :
    x ∉ l.address := by
  intro h
  rcases l.digits_or_blanks with hdigits | hblanks
  · rw [hdigits x h] at hx
    cases hx
  · exact hblank (hblanks x h)

/-- The line, cut as the loop cuts it, with its terminator. -/
theorem cut_text : (l.text ++ [0]).set (l.text.length - 2) 0 =
    l.address ++ 32 :: l.letter :: ((32 :: l.name).dropLast ++ [0, 10, 0]) := by
  have hlen : l.text.length - 2 = l.address.length + (2 + l.name.length) := by
    simp only [text, List.length_append, List.length_cons, List.length_nil]
    omega
  have htext : l.text ++ [0] = l.address ++ 32 :: l.letter :: 32 :: (l.name ++ 10 :: [0]) := by
    simp [text]
  have hset := set_cut 32 l.name [0]
  rw [htext, hlen, List.set_append_right _ _ (by omega), Nat.add_sub_cancel_left]
  rw [show 2 + l.name.length = l.name.length + 1 + 1 by omega, List.set_cons_succ,
    List.set_cons_succ, hset]

/-- The demangler gets the cut name. -/
theorem cString_name :
    cString (((l.text ++ [0]).set (l.text.length - 2) 0).drop 19) = l.cutName := by
  have hlen := l.length_address
  rw [cut_text, List.drop_append, List.drop_of_length_le (by omega), hlen, List.nil_append]
  cases hname : l.name with
  | nil =>
    rw [cutName, if_pos hname]
    rfl
  | cons b name =>
    have hne : l.name ≠ [] := by simp [hname]
    have hnul : 0 ∉ l.name.dropLast := fun h ↦ l.nul_not_mem (List.mem_of_mem_dropLast h)
    rw [cutName, if_neg hne, ← hname]
    rw [List.dropLast_cons_of_ne_nil hne]
    exact cString_append hnul [10, 0]

/-- What `strtol` is given: the cut line up to its new terminator. -/
theorem cString_cut : cString ((l.text ++ [0]).set (l.text.length - 2) 0) =
    l.address ++ 32 :: l.letter :: (32 :: l.name).dropLast := by
  have hname : 0 ∉ (32 :: l.name).dropLast := by
    intro h
    rcases List.mem_cons.mp (List.mem_of_mem_dropLast h) with heq | hmem
    · cases heq
    · exact l.nul_not_mem hmem
  have hnul : 0 ∉ l.address ++ 32 :: l.letter :: (32 :: l.name).dropLast := by
    simp only [List.mem_append, List.mem_cons, not_or]
    exact ⟨l.not_mem_address (by decide) (by decide), by decide, l.letter_ne (by decide), hname⟩
  rw [cut_text, ← cString_append hnul [10, 0]]
  simp

/-- The address is read from the cut line. -/
theorem readValue_eq : UInt64.ofInt (strtolHex
    (cString ((l.text ++ [0]).set (l.text.length - 2) 0))) = l.readValue := by
  have hne : l.address ≠ [] := by
    intro heq
    have hlen := l.length_address
    rw [heq] at hlen
    cases hlen
  rw [cString_cut, readValue, value]
  by_cases hdigits : ∀ b ∈ l.address, (hexDigit b).isSome = true
  · have hlt : hexValue l.address < 2 ^ 64 := by
      have h16 := hexValue_lt l.address
      rw [l.length_address] at h16
      omega
    rw [if_pos (List.all_eq_true.mpr hdigits), strtolHex_digits hne hdigits, ofInt_min hlt]
  · rw [if_neg (mt List.all_eq_true.mp hdigits)]
    have hblanks := l.digits_or_blanks.resolve_left hdigits
    have htail : ∀ b ∈ ((32 :: l.name).dropLast).head?, b = 32 := by
      cases l.name with
      | nil => simp
      | cons x name => simp
    rw [strtolHex_blanks hblanks l.isLetter htail, ofInt_natCast]

/-- The loop body on a printed line. -/
theorem selectLine_text (host : Host) (pattern : String) (addrs : Finset UInt64) :
    selectLine host pattern l.text addrs =
      .ok (if host.selects pattern l.cutName then insert l.readValue addrs else addrs) := by
  have hlen : ¬ l.text.length < 19 := by
    have h16 := l.length_address
    simp only [text, List.length_append, List.length_cons, List.length_nil]
    omega
  rw [selectLine, if_neg hlen]
  simp only [l.cString_name, l.readValue_eq]
  split
  · rfl
  · rfl

end SymbolLine

/-! ### The listing -/

section Listing

variable (host : Host) (pattern : String)

/-- The addresses the loop collects from a listing. -/
def collected (listing : List SymbolLine) (addrs : Finset UInt64) : Finset UInt64 :=
  listing.foldl (fun addrs l ↦
    if host.selects pattern l.cutName then insert l.readValue addrs else addrs) addrs

/-- The loop goes through the lines of the listing in order. -/
theorem selectLines_listing (listing : List SymbolLine) (addrs : Finset UInt64) :
    selectLines host pattern (listingText listing) addrs =
      .ok (collected host pattern listing addrs) := by
  induction listing generalizing addrs with
  | nil =>
    rw [selectLines]
    rfl
  | cons l listing ih =>
    have hnewline : 10 ∉ l.address ++ [32, l.letter, 32] ++ l.name := by
      have hletter : 10 ≠ l.letter := l.letter_ne (by decide)
      have haddress : 10 ∉ l.address := l.not_mem_address (by decide) (by decide)
      simp [haddress, hletter, l.newline_not_mem]
    have hline : getline (listingText (l :: listing)) = some (l.text, listingText listing) :=
      getline_append hnewline (listingText listing)
    rw [selectLines]
    split
    · next hnone =>
      rw [hline] at hnone
      cases hnone
    · next line rest hsome =>
      rw [hline] at hsome
      cases hsome
      rw [l.selectLine_text host pattern addrs]
      exact ih _

/-- What the loop collects. -/
theorem mem_collected (listing : List SymbolLine) (addrs : Finset UInt64) (addr : UInt64) :
    addr ∈ collected host pattern listing addrs ↔ addr ∈ addrs ∨
      ∃ l ∈ listing, l.readValue = addr ∧ host.selects pattern l.cutName = true := by
  induction listing generalizing addrs with
  | nil => simp [collected]
  | cons l listing ih =>
    rw [collected, List.foldl_cons, ← collected, ih]
    by_cases hsel : host.selects pattern l.cutName = true
    · rw [if_pos hsel, Finset.mem_insert]
      simp only [List.exists_mem_cons_iff, hsel, and_true, eq_comm (a := addr)]
      tauto
    · simp [hsel]

theorem selectsByName_iff_collected (listing : List SymbolLine) :
    SelectsByName host pattern listing ↔
      ∀ addr, addr ∈ collected host pattern listing ∅ ↔
        ∃ l ∈ listing, l.value = some addr ∧ host.selects pattern l.name = true := by
  constructor
  · rintro ⟨addrs, hrun, hmem⟩
    rw [selectLines_listing] at hrun
    cases hrun
    exact hmem
  · exact fun hmem ↦ ⟨_, selectLines_listing host pattern listing ∅, hmem⟩

/-- For every listing and pattern, the selection is by full names exactly when the cut names
select the same addresses. -/
theorem selectsByName_iff (listing : List SymbolLine) :
    SelectsByName host pattern listing ↔ CutsAgree host pattern listing := by
  rw [selectsByName_iff_collected, CutsAgree]
  simp only [mem_collected, Finset.notMem_empty, false_or]

end Listing

/-- The symbol `_Z1fv` at 1024. -/
def functionF : SymbolLine where
  address := [48, 48, 48, 48, 48, 48, 48, 48, 48, 48, 48, 48, 48, 52, 48, 48]
  letter := 84
  name := [95, 90, 49, 102, 118]
  length_address := rfl
  digits_or_blanks := .inl (List.all_eq_true.mp (by decide))
  isLetter := by decide
  newline_not_mem := by decide
  nul_not_mem := by decide

/-- A host whose demangler knows the function `f()` and the variable `f`, and whose pattern
matches `f()` alone. -/
def Host.ofF : Host where
  readlink := some [47, 97]
  popen _ := some functionF.text
  demangle name :=
    if name = [95, 90, 49, 102, 118] then some [102, 40, 41]
    else if name = [95, 90, 49, 102] then some [102]
    else none
  fnmatch _ name := name = [102, 40, 41]

/-- The pattern `f()` misses the function `f()`, because its symbol is demangled without the
last character. -/
theorem last_character_is_cut : ¬ SelectsByName Host.ofF "f()" [functionF] := by
  rw [selectsByName_iff_collected]
  intro h
  have hmem := (h 1024).mpr ⟨functionF, by simp, by decide, by decide⟩
  rw [mem_collected] at hmem
  rcases hmem with hempty | ⟨l, hl, -, hsel⟩
  · exact absurd hempty (by decide)
  · rw [List.mem_singleton.mp hl] at hsel
    exact absurd hsel (by decide)

end Mema
