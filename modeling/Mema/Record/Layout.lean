import Mema.Lib.Bytes

/-!
# The 56-byte record slot and its three declarations

`memapass/mema_rtl.cpp:141–159`, `memagrind/memadump/md_main.c:184–205` and
`memaviz/record.go:12–88` each declare the record for themselves. On a 64-bit little-endian
target all three are 56 bytes: a type at 0 and a union of six words at 8. The slot keeps the
raw bytes; a field is a window of it, so a store touches the field's own bytes only.
-/

namespace Mema

open Bytes

/-- `sizeof(MemAccess)`, and memaviz's `RecordSize()`. -/
def recordSize : Nat := 56

/-- One record slot, as raw bytes. -/
structure Slot where
  bytes : List UInt8
  size_eq : bytes.length = recordSize
  deriving DecidableEq

/-- A window of the slot that holds one little-endian value. -/
structure Field where
  off : Nat
  width : Nat
  fits : off + width ≤ recordSize

namespace Field

/-- Windows that share no byte. -/
def Disjoint (f g : Field) : Prop := g.off + g.width ≤ f.off ∨ f.off + f.width ≤ g.off

instance (f g : Field) : Decidable (f.Disjoint g) := inferInstanceAs (Decidable (_ ∨ _))

/-! Both producers store a 4-byte enumeration; the viewer reads `Type int64`. -/

def type : Field := ⟨0, 4, by decide⟩
def typePadding : Field := ⟨4, 4, by decide⟩
def typeWord : Field := ⟨0, 8, by decide⟩

/-! The union `acc` of the producers and `MemAccess` of the viewer. -/

def time : Field := ⟨8, 8, by decide⟩
def pc : Field := ⟨16, 8, by decide⟩
def bp : Field := ⟨24, 8, by decide⟩
def sp : Field := ⟨32, 8, by decide⟩
def addr : Field := ⟨40, 8, by decide⟩

/-! The last word of `acc`: a 1-byte `bool` for memapass, `SizeT size` for memadump and
`IsWrite uint64` for the viewer. -/

def isWrite : Field := ⟨48, 1, by decide⟩
def flagPadding : Field := ⟨49, 7, by decide⟩
def lastWord : Field := ⟨48, 8, by decide⟩

/-- The union `func.addr` and the viewer's `FuncPointer`, over the bytes of `time`. -/
def funcAddr : Field := ⟨8, 8, by decide⟩

end Field

namespace Slot

/-- A slot of static or thread-local storage before anything is stored. -/
def zero : Slot := ⟨List.replicate recordSize 0, by simp⟩

/-- Load a field. -/
def get (f : Field) (s : Slot) : Nat := leNat (load s.bytes f.off f.width)

/-- Store a field, leaving the other bytes of the slot as they were. -/
def set (f : Field) (v : Nat) (s : Slot) : Slot where
  bytes := store s.bytes f.off (leBytes f.width v)
  size_eq := by
    have hf := f.fits
    rw [length_store (by rw [length_leBytes, s.size_eq]; exact hf), s.size_eq]

private theorem store_fits (f : Field) (v : Nat) (s : Slot) :
    f.off + (leBytes f.width v).length ≤ s.bytes.length := by
  rw [length_leBytes, s.size_eq]
  exact f.fits

/-- A stored field reads back modulo its width. -/
@[simp] theorem get_set (f : Field) (v : Nat) (s : Slot) :
    (s.set f v).get f = v % 256 ^ f.width := by
  rw [get, set, load_store_self (store_fits f v s) (length_leBytes _ _), leNat_leBytes]

/-- Storing one field leaves every disjoint field alone. -/
theorem get_set_of_disjoint {f g : Field} (h : f.Disjoint g) (v : Nat) (s : Slot) :
    (s.set f v).get g = s.get g := by
  rw [get, set, load_store_of_disjoint (store_fits f v s)]
  · rfl
  · rw [length_leBytes]
    exact h

/-- Every field of a zeroed slot is zero. -/
@[simp] theorem get_zero (f : Field) : zero.get f = 0 := by
  rw [get, zero, load_replicate f.fits, leNat_replicate_zero]

/-- A wide field is its low part and its high part. -/
theorem get_split (s : Slot) (off m n : Nat) (h : off + (m + n) ≤ recordSize) :
    s.get ⟨off, m + n, h⟩ =
      s.get ⟨off, m, by omega⟩ + 256 ^ m * s.get ⟨off + m, n, by omega⟩ := by
  simp only [get]
  rw [load_add, leNat_append, length_load (by rw [s.size_eq]; omega)]

/-- The viewer's type word is the producers' enumeration above four padding bytes. -/
theorem get_typeWord (s : Slot) :
    s.get .typeWord = s.get .type + 256 ^ 4 * s.get .typePadding :=
  s.get_split 0 4 4 (by decide)

/-- The viewer's flag word is memapass's flag above seven padding bytes. -/
theorem get_lastWord (s : Slot) :
    s.get .lastWord = s.get .isWrite + 256 ^ 1 * s.get .flagPadding :=
  s.get_split 48 1 7 (by decide)

/-- Slots are determined by their bytes. -/
theorem ext {s t : Slot} (h : s.bytes = t.bytes) : s = t := by
  cases s
  cases t
  cases h
  rfl

/-- The bytes of consecutive slots. -/
def bytesOf (ss : List Slot) : List UInt8 := ss.flatMap Slot.bytes

@[simp] theorem length_bytesOf (ss : List Slot) : (bytesOf ss).length = recordSize * ss.length := by
  induction ss with
  | nil => rfl
  | cons s ss ih =>
    have hc : bytesOf (s :: ss) = s.bytes ++ bytesOf ss := rfl
    rw [hc, List.length_append, s.size_eq, ih, List.length_cons]
    ring

/-- Cut memory into slots, as memaviz overlays `Records` on decompressed bytes. -/
def ofBytes (mem : List UInt8) : List Slot :=
  if h : recordSize ≤ mem.length then
    ⟨mem.take recordSize, by rw [List.length_take]; omega⟩ :: ofBytes (mem.drop recordSize)
  else []
termination_by mem.length
decreasing_by
  have : 0 < recordSize := by decide
  rw [List.length_drop]
  omega

/-- One slot is peeled off the front of memory. -/
theorem ofBytes_append (s : Slot) (mem : List UInt8) :
    ofBytes (s.bytes ++ mem) = s :: ofBytes mem := by
  have hs := s.size_eq
  rw [ofBytes, dif_pos (by rw [List.length_append]; omega)]
  congr 1
  · apply Slot.ext
    change (s.bytes ++ mem).take recordSize = s.bytes
    rw [List.take_append_of_le_length (by omega), List.take_of_length_le (by omega)]
  · rw [List.drop_append_of_le_length (by omega), List.drop_of_length_le (by omega),
      List.nil_append]

/-- Overlaying the bytes of slots recovers the slots. -/
theorem ofBytes_bytesOf (ss : List Slot) (mem : List UInt8) :
    ofBytes (bytesOf ss ++ mem) = ss ++ ofBytes mem := by
  induction ss with
  | nil => rfl
  | cons s ss ih =>
    have hc : bytesOf (s :: ss) = s.bytes ++ bytesOf ss := rfl
    rw [hc, List.append_assoc, ofBytes_append, ih, List.cons_append]

/-- Memory holds as many slots as fit in it. -/
theorem length_ofBytes (mem : List UInt8) :
    (ofBytes mem).length = mem.length / recordSize := by
  induction hn : mem.length using Nat.strongRecOn generalizing mem with
  | ind n ih =>
    have hpos : 0 < recordSize := by decide
    rw [ofBytes]
    split
    · next h =>
      have hd := ih (mem.drop recordSize).length (by rw [List.length_drop]; omega) _ rfl
      rw [List.length_cons, hd, List.length_drop, ← hn,
        Nat.div_eq_sub_div hpos h]
    · next h =>
      rw [List.length_nil, Nat.div_eq_of_lt (by omega)]

/-- Zeroed memory is zeroed slots. -/
theorem ofBytes_replicate (n : Nat) :
    ofBytes (List.replicate (recordSize * n) 0) = List.replicate n zero := by
  have h : List.replicate (recordSize * n) (0 : UInt8) = bytesOf (List.replicate n zero) := by
    induction n with
    | zero => rfl
    | succ n ih =>
      have hc : bytesOf (List.replicate (n + 1) zero) =
          zero.bytes ++ bytesOf (List.replicate n zero) := rfl
      rw [hc, ← ih, zero, List.replicate_append_replicate, Nat.mul_succ, Nat.add_comm]
  have hn : ofBytes ([] : List UInt8) = [] := by
    rw [ofBytes, dif_neg (by decide)]
  have := ofBytes_bytesOf (List.replicate n zero) []
  rw [List.append_nil, hn, List.append_nil] at this
  rw [h, this]

end Slot

end Mema
