import Mathlib.Algebra.Order.Ring.Nat
import Mathlib.Data.List.Basic
import Mathlib.Tactic.Ring

/-!
# Little-endian words and flat cell memory

Words are lists of bytes, least significant first. Memory is a list of cells with
in-place stores: a store replaces a window and leaves every disjoint window alone.
-/

namespace Bytes

universe u
variable {α : Type u}

/-- The `n` low bytes of a number, least significant first. -/
def leBytes : Nat → Nat → List UInt8
  | 0, _ => []
  | n + 1, v => UInt8.ofNat v :: leBytes n (v / 256)

/-- The number whose little-endian bytes are given. -/
def leNat : List UInt8 → Nat
  | [] => 0
  | b :: bs => b.toNat + 256 * leNat bs

/-- Read `n` cells from an offset. -/
def load (mem : List α) (off n : Nat) : List α := (mem.drop off).take n

/-- Overwrite the cells from an offset, keeping everything else. -/
def store (mem : List α) (off : Nat) (cells : List α) : List α :=
  mem.take off ++ (cells ++ mem.drop (off + cells.length))

/-! ### Words -/

/-- A word has the requested number of bytes. -/
@[simp] theorem length_leBytes (n v : Nat) : (leBytes n v).length = n := by
  induction n generalizing v with
  | zero => rfl
  | succ n ih => simp [leBytes, ih]

/-- Reading a written word recovers it modulo its width. -/
theorem leNat_leBytes (n v : Nat) : leNat (leBytes n v) = v % 256 ^ n := by
  induction n generalizing v with
  | zero => simp [leBytes, leNat, Nat.mod_one]
  | succ n ih =>
    have hb : (UInt8.ofNat v).toNat = v % 256 := by simp
    rw [leBytes, leNat, ih, hb, Nat.pow_succ, Nat.mul_comm (256 ^ n), Nat.mod_mul]

/-- A word that fits its width is recovered exactly. -/
theorem leNat_leBytes_of_lt {n v : Nat} (h : v < 256 ^ n) : leNat (leBytes n v) = v := by
  rw [leNat_leBytes, Nat.mod_eq_of_lt h]

/-- Bytes are the word of the number they are read as. -/
theorem leBytes_leNat (bs : List UInt8) : leBytes bs.length (leNat bs) = bs := by
  induction bs with
  | nil => rfl
  | cons b bs ih =>
    have hlt : b.toNat < 256 := b.toNat_lt
    have hdiv : (b.toNat + 256 * leNat bs) / 256 = leNat bs := by omega
    have hmod : UInt8.ofNat (b.toNat + 256 * leNat bs) = b := by
      apply UInt8.toNat_inj.mp
      rw [UInt8.toNat_ofNat']
      omega
    rw [List.length_cons, leBytes, leNat, hdiv, ih, hmod]

/-- The low digits come first. -/
theorem leNat_append (xs ys : List UInt8) :
    leNat (xs ++ ys) = leNat xs + 256 ^ xs.length * leNat ys := by
  induction xs with
  | nil => simp [leNat]
  | cons b xs ih =>
    simp only [List.cons_append, leNat, ih, List.length_cons]
    ring

/-- Zero bytes denote zero. -/
theorem leNat_replicate_zero (n : Nat) : leNat (List.replicate n 0) = 0 := by
  induction n with
  | zero => rfl
  | succ n ih => simp [List.replicate_succ, leNat, ih]

/-! ### Loads and stores -/

/-- A load inside memory returns exactly the requested number of cells. -/
theorem length_load {mem : List α} {off n : Nat} (h : off + n ≤ mem.length) :
    (load mem off n).length = n := by
  simp only [load, List.length_take, List.length_drop]
  omega

/-- A store inside memory keeps its size. -/
theorem length_store {mem : List α} {off : Nat} {cells : List α}
    (h : off + cells.length ≤ mem.length) : (store mem off cells).length = mem.length := by
  simp only [store, List.length_append, List.length_take, List.length_drop]
  omega

/-- Loading the stored window returns the stored cells. -/
theorem load_store_self {mem : List α} {off : Nat} {cells : List α} {n : Nat}
    (h : off + cells.length ≤ mem.length) (hn : cells.length = n) :
    load (store mem off cells) off n = cells := by
  have ht : (mem.take off).length = off := by
    rw [List.length_take]
    omega
  rw [load, store, List.drop_append_of_le_length (by omega), List.drop_of_length_le (by omega),
    List.nil_append, ← hn, List.take_left]

/-- Cell access after a store. -/
theorem getElem?_store {mem : List α} {off : Nat} {cells : List α}
    (h : off + cells.length ≤ mem.length) (i : Nat) :
    (store mem off cells)[i]? =
      if off ≤ i ∧ i < off + cells.length then cells[i - off]? else mem[i]? := by
  have ht : (mem.take off).length = off := by
    rw [List.length_take]
    omega
  rw [store]
  by_cases hlo : i < off
  · rw [List.getElem?_append_left (by omega), List.getElem?_take_of_lt hlo,
      if_neg (by omega)]
  · rw [List.getElem?_append_right (by omega), ht]
    by_cases hhi : i < off + cells.length
    · rw [List.getElem?_append_left (by omega), if_pos ⟨by omega, hhi⟩]
    · rw [List.getElem?_append_right (by omega), List.getElem?_drop, if_neg (by omega)]
      congr 1
      omega

/-- A store leaves every disjoint window unchanged. -/
theorem load_store_of_disjoint {mem : List α} {off o n : Nat} {cells : List α}
    (h : off + cells.length ≤ mem.length) (hd : o + n ≤ off ∨ off + cells.length ≤ o) :
    load (store mem off cells) o n = load mem o n := by
  apply List.ext_getElem?
  intro i
  by_cases hi : i < n
  · rw [load, load, List.getElem?_take_of_lt hi, List.getElem?_take_of_lt hi,
      List.getElem?_drop, List.getElem?_drop, getElem?_store h, if_neg (by omega)]
  · rw [load, load, List.getElem?_take, List.getElem?_take, if_neg hi, if_neg hi]

/-- Adjacent loads concatenate. -/
theorem load_add (mem : List α) (off m n : Nat) :
    load mem off (m + n) = load mem off m ++ load mem (off + m) n := by
  rw [load, load, load, List.take_add, List.drop_drop]

/-- A window of constant memory is constant. -/
theorem load_replicate {x : α} {size off n : Nat} (h : off + n ≤ size) :
    load (List.replicate size x) off n = List.replicate n x := by
  rw [load, List.drop_replicate, List.take_replicate]
  congr 1
  omega

end Bytes
