import Mema.Lib.Digits
import Mema.Lib.Substring
import Mema.Runtime.Hooks

/-!
# The options string

`mema_rtl.cpp:57–139`: every flag is looked up by a substring search over the whole string, so
a flag is set from the first occurrence of its name, be it a key or part of another value.
-/

namespace Mema

open Digits Substring

/-! ### Values -/

/-- The quotation marks. -/
def isQuote (ch : Char) : Bool := ch = '\x22' || ch = '\x27'

/-- `GetFlagValue` behind the name, `mema_rtl.cpp:65–85`. -/
def readValue : List Char → List Char
  | '=' :: [] => []
  | '=' :: ch :: pos =>
    if isQuote ch then pos.takeWhile (· != ch) else (ch :: pos).takeWhile (· != ' ')
  | _ => []

/-- `GetFlagValue`, `mema_rtl.cpp:57–86`. -/
def getFlagValue (env : Option (List Char)) (name : List Char) : Option (List Char) :=
  env.bind fun env ↦ (behind name env).map readValue

/-- `atoll`, which saturates. -/
def atoll (val : List Char) : Int :=
  let val := val.dropWhile fun ch ↦ (9 ≤ ch.toNat && ch.toNat ≤ 13) || ch = ' '
  let magnitude (val : List Char) : Int :=
    (val.takeWhile Char.isDigit).foldl (fun n ch ↦ 10 * n + (ch.toNat - 48)) 0
  let n := match val with
    | '-' :: val => -magnitude val
    | '+' :: val => magnitude val
    | val => magnitude val
  max (-2 ^ 63) (min (2 ^ 63 - 1) n)

/-- What a value makes of a boolean flag, `mema_rtl.cpp:92–99`. -/
def setBool (flag : Bool) (val : Option (List Char)) : Bool :=
  match val with
  | none => flag
  | some val =>
    let flag := if val = "0".toList ∨ val = "no".toList ∨ val = "false".toList then false else flag
    if val = "1".toList ∨ val = "yes".toList ∨ val = "true".toList then true else flag

/-- What a value makes of a flag that is an `int`, `mema_rtl.cpp:105–107`. -/
def setInt (flag : Int) (val : Option (List Char)) : Int :=
  match val with
  | none => flag
  | some val => (atoll val).bmod (2 ^ 32)

/-- What a value makes of a flag that is a text, `mema_rtl.cpp:113–115`. -/
def setText (flag : Option String) (val : Option (List Char)) : Option String :=
  match val with
  | none => flag
  | some val => some (String.ofList val)

/-- The three `ParseFlag`, `mema_rtl.cpp:88–116`. -/
def parseFlagBool (env : Option (List Char)) (flag : Bool) (name : List Char) : Bool :=
  setBool flag (getFlagValue env name)

def parseFlagInt (env : Option (List Char)) (flag : Int) (name : List Char) : Int :=
  setInt flag (getFlagValue env name)

def parseFlagText (env : Option (List Char)) (flag : Option String) (name : List Char) :
    Option String :=
  setText flag (getFlagValue env name)

/-- `ParseFlagsFromString`, `mema_rtl.cpp:118–125`. -/
def parseFlagsFromString (f : Flags) (str : Option (List Char)) : Flags :=
  let f := { f with disable := parseFlagBool str f.disable "disable".toList }
  let f := { f with verbosity := parseFlagInt str f.verbosity "verbosity".toList }
  let f := { f with debug := parseFlagBool str f.debug "debug".toList }
  let f := { f with compression := parseFlagBool str f.compression "compression".toList }
  let f := { f with filename := parseFlagText str f.filename "filename".toList }
  { f with funcname := parseFlagText str f.funcname "function".toList }

/-- The flags before any option is read, `mema_rtl.cpp:130–135`. -/
def Flags.default : Flags := ⟨false, 0, false, true, none, none⟩

/-- `InitializeFlags`, `mema_rtl.cpp:127–139`. -/
def initializeFlags (env : Option (List Char)) : Flags := parseFlagsFromString .default env

/-! ### Items -/

/-- The keys. -/
inductive OptionKey
  | disable
  | verbosity
  | debug
  | compression
  | filename
  | function
  deriving DecidableEq, Repr

namespace OptionKey

def name : OptionKey → List Char
  | disable => "disable".toList
  | verbosity => "verbosity".toList
  | debug => "debug".toList
  | compression => "compression".toList
  | filename => "filename".toList
  | function => "function".toList

/-- Two values set the flag alike. -/
def Same (k : OptionKey) (v w : Option (List Char)) : Prop :=
  match k with
  | disable => setBool Flags.default.disable v = setBool Flags.default.disable w
  | verbosity => setInt Flags.default.verbosity v = setInt Flags.default.verbosity w
  | debug => setBool Flags.default.debug v = setBool Flags.default.debug w
  | compression => setBool Flags.default.compression v = setBool Flags.default.compression w
  | filename => setText Flags.default.filename v = setText Flags.default.filename w
  | function => setText Flags.default.funcname v = setText Flags.default.funcname w

theorem Same.refl (k : OptionKey) (v : Option (List Char)) : k.Same v v := by
  cases k <;> rfl

/-- A name is made of lower-case letters. -/
theorem isLower_name (k : OptionKey) : ∀ ch ∈ k.name, ch.isLower = true := by
  cases k <;> exact List.all_eq_true.mp (by decide)

theorem not_mem_name (k : OptionKey) {ch : Char} (h : ch.isLower = false) : ch ∉ k.name := by
  intro hmem
  rw [k.isLower_name ch hmem] at h
  cases h

theorem name_ne_nil (k : OptionKey) : k.name ≠ [] := by
  cases k <;> decide

/-- No name is part of another. -/
theorem behind_name {k k' : OptionKey} (h : k' ≠ k) : behind k.name k'.name = none := by
  cases k <;> cases k' <;> first | exact absurd rfl h | decide

end OptionKey

/-- The flags that are set from the given values. -/
def Flags.assign (value : OptionKey → Option (List Char)) : Flags where
  disable := setBool Flags.default.disable (value .disable)
  verbosity := setInt Flags.default.verbosity (value .verbosity)
  debug := setBool Flags.default.debug (value .debug)
  compression := setBool Flags.default.compression (value .compression)
  filename := setText Flags.default.filename (value .filename)
  funcname := setText Flags.default.funcname (value .function)

theorem Flags.assign_inj {v w : OptionKey → Option (List Char)} :
    Flags.assign v = Flags.assign w ↔ ∀ k : OptionKey, k.Same (v k) (w k) := by
  constructor
  · intro h k
    cases k with
    | disable => exact congrArg Flags.disable h
    | verbosity => exact congrArg Flags.verbosity h
    | debug => exact congrArg Flags.debug h
    | compression => exact congrArg Flags.compression h
    | filename => exact congrArg Flags.filename h
    | function => exact congrArg Flags.funcname h
  · intro h
    rw [Flags.assign, Flags.mk.injEq]
    exact ⟨h .disable, h .verbosity, h .debug, h .compression, h .filename, h .function⟩

/-- Each flag is set from the value that is found for its name. -/
theorem initializeFlags_eq (env : Option (List Char)) :
    initializeFlags env = Flags.assign fun k ↦ getFlagValue env k.name := rfl

/-- Ways to write a value. -/
inductive Quote
  | bare
  | double
  | single
  deriving DecidableEq, Repr

namespace Quote

/-- What stands before and behind the value. -/
def mark : Quote → List Char
  | bare => []
  | double => ['\x22']
  | single => ['\x27']

/-- The characters that cannot stand in the value. -/
def reserved : Quote → List Char
  | bare => [' ', '\x22', '\x27']
  | double => ['\x22']
  | single => ['\x27']

end Quote

/-- `key=value`. -/
structure OptionItem where
  key : OptionKey
  quote : Quote
  value : List Char
  writable : ∀ ch ∈ quote.reserved, ch ∉ value
  nul_not_mem : '\x00' ∉ value

namespace OptionItem

/-- The value as it is written. -/
def body (i : OptionItem) : List Char := i.quote.mark ++ (i.value ++ i.quote.mark)

def text (i : OptionItem) : List Char := i.key.name ++ '=' :: i.body

end OptionItem

/-- Further items, each behind a space. -/
def moreText (items : List OptionItem) : List Char := items.flatMap fun i ↦ ' ' :: i.text

/-- Items separated by spaces. -/
def itemsText : List OptionItem → List Char
  | [] => []
  | i :: items => i.text ++ moreText items

/-- The value of a key's own item. -/
def ownValue (k : OptionKey) (items : List OptionItem) : Option (List Char) :=
  (items.find? fun i ↦ i.key = k).map OptionItem.value

/-- What follows the name of a key where it first occurs in the value of an item before its
own. -/
def collision (k : OptionKey) : List OptionItem → Option (List Char)
  | [] => none
  | i :: items =>
    if i.key = k then none
    else ((behind k.name i.value).map (· ++ (i.quote.mark ++ moreText items))).or
      (collision k items)

/-! ### Reading a text of items -/

/-- What follows an item begins with a space, if there is anything. -/
theorem head?_moreText (items : List OptionItem) : ∀ ch ∈ (moreText items).head?, ch = ' ' := by
  intro ch hch
  cases items with
  | nil => cases hch
  | cons i items => exact (Option.some.inj hch).symm

theorem behind_moreText (k : OptionKey) (items : List OptionItem) :
    behind k.name (moreText items) = behind k.name (itemsText items) := by
  cases items with
  | nil => rfl
  | cons i items =>
    show behind k.name (' ' :: (i.text ++ moreText items)) = _
    exact behind_cons_of_not_mem k.name_ne_nil (k.not_mem_name (by decide)) _

namespace OptionItem

variable (i : OptionItem)

theorem isQuote_of_bare (h : i.quote = .bare) {ch : Char} (hch : ch ∈ i.value) :
    isQuote ch = false := by
  have hwritable := i.writable
  rw [h] at hwritable
  have hdouble : ch ≠ '\x22' := fun heq ↦ hwritable '\x22' (by decide) (heq ▸ hch)
  have hsingle : ch ≠ '\x27' := fun heq ↦ hwritable '\x27' (by decide) (heq ▸ hch)
  simp [isQuote, hdouble, hsingle]

/-- A quoted value ends at the second mark. -/
theorem readValue_quoted {q : Char} (hq : isQuote q = true) (h : q ∉ i.value)
    (rest : List Char) : readValue ('=' :: (q :: (i.value ++ [q]) ++ rest)) = i.value := by
  have hrun : ∀ ch ∈ i.value, (ch != q) = true := by
    intro ch hch
    rw [bne_iff_ne]
    rintro rfl
    exact h hch
  show (if isQuote q then ((i.value ++ [q]) ++ rest).takeWhile (· != q) else _) = i.value
  rw [if_pos hq, List.append_assoc]
  exact takeWhile_run hrun (bne_self_eq_false q) rest

/-- A bare value ends at the space before the next item, or at the end of the text. -/
theorem readValue_bare (h : i.quote = .bare) {rest : List Char}
    (hrest : ∀ ch ∈ rest.head?, ch = ' ') : readValue ('=' :: (i.value ++ rest)) = i.value := by
  have hrun : (i.value ++ rest).takeWhile (· != ' ') = i.value := by
    apply takeWhile_ends
    · intro ch hch
      rw [bne_iff_ne]
      rintro rfl
      exact i.writable ' ' (by rw [h]; decide) hch
    · intro ch hch
      rw [hrest ch hch]
      decide
  have hfirst : ∀ ch ∈ (i.value ++ rest).head?, isQuote ch = false := by
    intro ch hch
    cases hvalue : i.value with
    | nil =>
      rw [hvalue, List.nil_append] at hch
      rw [hrest ch hch]
      decide
    | cons c cs =>
      rw [hvalue] at hch
      obtain rfl : c = ch := Option.some.inj hch
      exact i.isQuote_of_bare h (by rw [hvalue]; exact List.mem_cons_self)
  cases htext : i.value ++ rest with
  | nil => exact (List.append_eq_nil_iff.mp htext).1.symm
  | cons ch pos =>
    rw [htext] at hrun hfirst
    show (if isQuote ch then _ else (ch :: pos).takeWhile (· != ' ')) = i.value
    rw [hfirst ch rfl, if_neg Bool.false_ne_true, hrun]

/-- Behind its own key a value is read whole, and nothing else. -/
theorem readValue_body (items : List OptionItem) :
    readValue ('=' :: (i.body ++ moreText items)) = i.value := by
  have hwritable := i.writable
  rw [body]
  cases hquote : i.quote with
  | double => exact i.readValue_quoted rfl (hwritable _ (by rw [hquote]; decide)) _
  | single => exact i.readValue_quoted rfl (hwritable _ (by rw [hquote]; decide)) _
  | bare =>
    show readValue ('=' :: ((i.value ++ []) ++ moreText items)) = i.value
    rw [List.append_nil]
    exact i.readValue_bare hquote (head?_moreText items)

/-- A name that is found in the text of a value and what follows it is found in the value, or
behind the item. -/
theorem behind_body (k : OptionKey) (items : List OptionItem) :
    behind k.name (i.body ++ moreText items) =
      ((behind k.name i.value).map (· ++ (i.quote.mark ++ moreText items))).or
        (behind k.name (itemsText items)) := by
  have hquoted : ∀ q : Char, q.isLower = false →
      behind k.name (q :: (i.value ++ [q]) ++ moreText items) =
        ((behind k.name i.value).map (· ++ ([q] ++ moreText items))).or
          (behind k.name (itemsText items)) := by
    intro q hq
    have hsep := k.not_mem_name hq
    rw [List.cons_append, behind_cons_of_not_mem k.name_ne_nil hsep, List.append_assoc,
      List.singleton_append, behind_append_cons k.name_ne_nil hsep, behind_moreText]
  rw [body]
  cases i.quote with
  | double => exact hquoted '\x22' (by decide)
  | single => exact hquoted '\x27' (by decide)
  | bare =>
    show behind k.name ((i.value ++ []) ++ moreText items) = _
    rw [List.append_nil]
    cases items with
    | nil =>
      show behind k.name (i.value ++ []) = _
      rw [List.append_nil]
      cases behind k.name i.value with
      | none => exact (behind_nil k.name_ne_nil).symm
      | some t => exact congrArg some (List.append_nil t).symm
    | cons j items =>
      have hspace : ' ' ∉ k.name := k.not_mem_name (by decide)
      rw [← behind_moreText k (j :: items)]
      show behind k.name (i.value ++ ' ' :: (j.text ++ moreText items)) =
        ((behind k.name i.value).map (· ++ ' ' :: (j.text ++ moreText items))).or
          (behind k.name (' ' :: (j.text ++ moreText items)))
      rw [behind_append_cons k.name_ne_nil hspace, behind_cons_of_not_mem k.name_ne_nil hspace]

end OptionItem

/-- A value is looked up behind a collision if there is one, and else in the key's own item. -/
theorem getFlagValue_itemsText (k : OptionKey) (items : List OptionItem) :
    getFlagValue (some (itemsText items)) k.name =
      ((collision k items).map readValue).or (ownValue k items) := by
  show (behind k.name (itemsText items)).map readValue = _
  induction items with
  | nil =>
    show (behind k.name []).map readValue = none
    rw [behind_nil k.name_ne_nil]
    rfl
  | cons i items ih =>
    have htext : itemsText (i :: items) =
        i.key.name ++ '=' :: (i.body ++ moreText items) := by
      rw [itemsText, OptionItem.text, List.append_assoc, List.cons_append]
    rw [htext, collision, ownValue]
    by_cases hkey : i.key = k
    · subst hkey
      rw [behind_append_self i.key.name_ne_nil, if_pos rfl, List.find?_cons_of_pos (by simp)]
      exact congrArg some (i.readValue_body items)
    · rw [behind_append_cons k.name_ne_nil (k.not_mem_name (by decide)),
        OptionKey.behind_name hkey, i.behind_body k items, if_neg hkey,
        List.find?_cons_of_neg (by simpa using hkey)]
      cases behind k.name i.value with
      | some t => rfl
      | none => exact ih

/-! ### The whole string -/

/-- A list of items with distinct keys. -/
structure MemaOptions where
  items : List OptionItem
  distinct : (items.map OptionItem.key).Nodup

namespace MemaOptions

variable (o : MemaOptions)

/-- The value of `MEMA_OPTIONS`. -/
def text : List Char := itemsText o.items

/-- The flags as the items say, each from its own item alone. -/
def flags : Flags := .assign fun k ↦ ownValue k o.items

/-- Every flag is set from its own value, or left at its default. -/
def Faithful : Prop := initializeFlags (some o.text) = o.flags

/-- The flags are those of the items exactly when each name leads to a like value. -/
theorem faithful_iff_same : o.Faithful ↔ ∀ k : OptionKey,
    k.Same (((collision k o.items).map readValue).or (ownValue k o.items))
      (ownValue k o.items) := by
  rw [Faithful, initializeFlags_eq, flags, Flags.assign_inj]
  apply forall_congr'
  intro k
  rw [text, getFlagValue_itemsText]

/-- The options are parsed faithfully exactly when every name that occurs in a value before its
own key is followed there by something that sets the flag alike. -/
theorem faithful_iff : o.Faithful ↔ ∀ (k : OptionKey) (t : List Char),
    collision k o.items = some t → k.Same (some (readValue t)) (ownValue k o.items) := by
  rw [faithful_iff_same]
  apply forall_congr'
  intro k
  cases hcollision : collision k o.items with
  | none =>
    constructor
    · intro _ t ht
      cases ht
    · intro _
      exact .refl k _
  | some t =>
    constructor
    · intro h t' ht
      cases ht
      exact h
    · intro h
      exact h t rfl

end MemaOptions

/-- The options `filename="a debug=1 b"`. -/
def MemaOptions.debugInName : MemaOptions where
  items := [{
    key := .filename
    quote := .double
    value := "a debug=1 b".toList
    writable := List.forall_mem_singleton.mpr (by decide)
    nul_not_mem := by decide }]
  distinct := by decide

/-- A file name turns debugging on. -/
theorem file_name_turns_debug_on : ¬ ∀ o : MemaOptions, o.Faithful := by
  intro h
  have hdebug := congrArg Flags.debug (h .debugInName)
  exact absurd hdebug (by decide)

/-! ### Options that are parsed faithfully -/

/-- There is no collision exactly where no value before the own item contains the name. -/
theorem collision_eq_none {k : OptionKey} {items : List OptionItem} :
    collision k items = none ↔
      ∀ i ∈ items.takeWhile fun i ↦ i.key != k, ¬ k.name <:+: i.value := by
  induction items with
  | nil => simp [collision]
  | cons i items ih =>
    rw [collision]
    by_cases hkey : i.key = k
    · rw [if_pos hkey, List.takeWhile_cons_of_neg (by simp [hkey])]
      simp
    · rw [if_neg hkey, List.takeWhile_cons_of_pos (by simpa using hkey), Option.or_eq_none_iff,
        Option.map_eq_none_iff, behind_eq_none k.name_ne_nil, ih, List.forall_mem_cons]

/-- Where no value contains a name, every flag is set from its own item. -/
theorem MemaOptions.faithful_of_apart (o : MemaOptions)
    (h : ∀ i ∈ o.items, ∀ k : OptionKey, ¬ k.name <:+: i.value) : o.Faithful := by
  rw [faithful_iff_same]
  intro k
  have hnone : collision k o.items = none := by
    rw [collision_eq_none]
    intro i hi
    exact h i ((List.takeWhile_sublist _).mem hi) k
  rw [hnone]
  exact .refl k _

end Mema
