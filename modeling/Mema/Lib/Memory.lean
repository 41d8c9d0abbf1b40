import Mathlib.Logic.Function.Iterate
import Mema.Lib.Bytes

/-!
# Checked memory

Reads and writes of flat cell memory that stop a program at an access outside it, and copies
by fixed-size packets that run on past the end they were asked for. A prefix of the memory is
known; the cells behind it are not.
-/

namespace Memory

open Bytes

universe u
variable {α : Type u}

/-- Why a program was stopped. -/
inductive Trap
  | outOfBounds
  | intOverflow
  | fuel
  deriving DecidableEq, Repr

/-- Read `n` cells. -/
def read (mem : List α) (off n : Nat) : Except Trap (List α) :=
  if off + n ≤ mem.length then .ok (load mem off n) else .error .outOfBounds

/-- Read one cell. -/
def readCell (mem : List α) (off : Nat) : Except Trap α :=
  mem[off]?.elim (.error .outOfBounds) .ok

/-- Write cells in place. -/
def write (mem : List α) (off : Nat) (cells : List α) : Except Trap (List α) :=
  if off + cells.length ≤ mem.length then .ok (store mem off cells) else .error .outOfBounds

/-- Copy `n` cells from one memory to another: the source is read whole, then written. -/
def copy (src : List α) (s : Nat) (mem : List α) (d n : Nat) : Except Trap (List α) := do
  write mem d (← read src s n)

/-- Copy `n` cells within one memory. -/
def move (mem : List α) (s d n : Nat) : Except Trap (List α) := copy mem s mem d n

/-- `do copy(s, d, k); s += k; d += k; while (d < e)`, within one memory: the memory and both
positions as they are left. -/
def moveUpTo (k : Nat) [NeZero k] (mem : List α) (s d e : Nat) :
    Except Trap (List α × Nat × Nat) := do
  let mem ← move mem s d k
  if d + k < e then moveUpTo k mem (s + k) (d + k) e else .ok (mem, s + k, d + k)
termination_by e - d
decreasing_by
  have := Nat.pos_of_ne_zero (NeZero.ne k)
  omega

/-- The same from another memory, which stays as it is. -/
def copyUpTo (k : Nat) [NeZero k] (src : List α) (mem : List α) (s d e : Nat) :
    Except Trap (List α × Nat × Nat) := do
  let mem ← copy src s mem d k
  if d + k < e then copyUpTo k src mem (s + k) (d + k) e else .ok (mem, s + k, d + k)
termination_by e - d
decreasing_by
  have := Nat.pos_of_ne_zero (NeZero.ne k)
  omega

/-- `while (d < e) { move(s, d, k); s += k; d += k; }` -/
def moveWhile (k : Nat) [NeZero k] (mem : List α) (s d e : Nat) :
    Except Trap (List α × Nat × Nat) :=
  if d < e then moveUpTo k mem s d e else .ok (mem, s, d)

/-! ### Single accesses -/

theorem read_eq {mem : List α} {off n : Nat} (h : off + n ≤ mem.length) :
    read mem off n = .ok (load mem off n) := if_pos h

theorem readCell_eq {mem : List α} {off : Nat} (h : off < mem.length) :
    readCell mem off = .ok mem[off] := by
  rw [readCell, List.getElem?_eq_getElem h]
  rfl

theorem write_eq {mem : List α} {off : Nat} {cells : List α}
    (h : off + cells.length ≤ mem.length) : write mem off cells = .ok (store mem off cells) :=
  if_pos h

/-- A copy inside both memories is a load and a store. -/
theorem copy_eq {src mem : List α} {s d n : Nat} (hs : s + n ≤ src.length)
    (hd : d + n ≤ mem.length) : copy src s mem d n = .ok (store mem d (load src s n)) := by
  have hlen : (load src s n).length = n := length_load hs
  rw [copy, read_eq hs]
  exact write_eq (by rw [hlen]; exact hd)

/-- A load below a known prefix is a load of the prefix. -/
theorem load_below {w mem : List α} {off n : Nat} (h : w <+: mem) (hn : off + n ≤ w.length) :
    load mem off n = load w off n := by
  obtain ⟨t, rfl⟩ := h
  rw [load, load, List.drop_append_of_le_length (by omega), List.take_append_of_le_length (by
    rw [List.length_drop]
    omega)]

/-- A store right behind a known prefix extends it. -/
theorem prefix_store {w mem : List α} {cells : List α} (h : w <+: mem)
    (hn : w.length + cells.length ≤ mem.length) : w ++ cells <+: store mem w.length cells := by
  obtain ⟨t, rfl⟩ := h
  rw [store, List.take_left, ← List.append_assoc]
  exact List.prefix_append _ _

/-- The memory keeps its size and its cells from `k` on. -/
structure Within (k : Nat) (mem mem' : List α) : Prop where
  length : mem'.length = mem.length
  kept : mem'.drop k = mem.drop k

namespace Within

variable {j k : Nat} {mem mem' mem'' : List α}

theorem refl (k : Nat) (mem : List α) : Within k mem mem := ⟨rfl, rfl⟩

theorem mono (h : Within j mem mem') (hjk : j ≤ k) : Within k mem mem' := by
  refine ⟨h.length, ?_⟩
  obtain ⟨l, rfl⟩ := Nat.exists_eq_add_of_le hjk
  rw [← List.drop_drop, ← List.drop_drop, h.kept]

theorem trans (h : Within k mem mem') (h' : Within k mem' mem'') : Within k mem mem'' :=
  ⟨h'.length.trans h.length, h'.kept.trans h.kept⟩

end Within

/-- A store keeps the cells behind it. -/
theorem within_store {mem : List α} {off : Nat} {cells : List α}
    (h : off + cells.length ≤ mem.length) :
    Within (off + cells.length) mem (store mem off cells) := by
  have hlen : (mem.take off ++ cells).length = off + cells.length := by
    rw [List.length_append, List.length_take_of_le (by omega)]
  refine ⟨length_store h, ?_⟩
  rw [store, ← List.append_assoc, ← hlen, List.drop_left]

/-- Writing behind a known prefix extends it. -/
theorem write_extends {w mem : List α} {cells : List α} (h : w <+: mem)
    (hn : w.length + cells.length ≤ mem.length) :
    ∃ mem', write mem w.length cells = .ok mem' ∧ w ++ cells <+: mem' ∧
      Within (w.length + cells.length) mem mem' :=
  ⟨_, write_eq hn, prefix_store h hn, within_store hn⟩

/-- Copying behind a known prefix extends it. -/
theorem copy_extends {src w mem : List α} {s n : Nat} (h : w <+: mem) (hs : s + n ≤ src.length)
    (hn : w.length + n ≤ mem.length) :
    ∃ mem', copy src s mem w.length n = .ok mem' ∧ w ++ load src s n <+: mem' ∧
      Within (w.length + n) mem mem' := by
  have hlen : (load src s n).length = n := length_load hs
  have hfits : w.length + (load src s n).length ≤ mem.length := by
    rw [hlen]
    exact hn
  have hwithin := within_store hfits
  rw [hlen] at hwithin
  exact ⟨_, copy_eq hs hn, prefix_store h hfits, hwithin⟩

/-- Moving cells of a known prefix behind it extends it. -/
theorem move_extends {w mem : List α} {s n : Nat} (h : w <+: mem) (hs : s + n ≤ w.length)
    (hn : w.length + n ≤ mem.length) :
    ∃ mem', move mem s w.length n = .ok mem' ∧ w ++ load w s n <+: mem' ∧
      Within (w.length + n) mem mem' := by
  have hle : w.length ≤ mem.length := h.length_le
  have hsrc : s + n ≤ mem.length := by omega
  obtain ⟨mem', hcopy, hpre, hwithin⟩ := copy_extends h hsrc hn
  rw [load_below h hs] at hpre
  exact ⟨mem', hcopy, hpre, hwithin⟩

/-! ### Copying from `d` cells back -/

/-- Append the cell `d` places before the end. -/
def pushBack (d : Nat) (w : List α) : List α := w ++ w[w.length - d]?.toList

/-- Append `n` cells, each the one `d` places before it. -/
def backCopy (d n : Nat) (w : List α) : List α := (pushBack d)^[n] w

@[simp] theorem backCopy_zero (d : Nat) (w : List α) : backCopy d 0 w = w := rfl

theorem backCopy_add (d m n : Nat) (w : List α) :
    backCopy d (m + n) w = backCopy d n (backCopy d m w) := by
  rw [backCopy, Nat.add_comm, Function.iterate_add_apply]
  rfl

theorem pushBack_eq {d : Nat} {w : List α} (hd : 0 < d) (hle : d ≤ w.length) :
    pushBack d w = w ++ [w.get ⟨w.length - d, by omega⟩] := by
  rw [pushBack, List.getElem?_eq_getElem (by omega)]
  rfl

@[simp] theorem length_backCopy {d : Nat} {w : List α} (hd : 0 < d) (hle : d ≤ w.length)
    (n : Nat) : (backCopy d n w).length = w.length + n := by
  induction n generalizing w with
  | zero => rfl
  | succ n ih =>
    have hpush := pushBack_eq hd hle
    have hlen : (pushBack d w).length = w.length + 1 := by
      rw [hpush, List.length_append, List.length_singleton]
    rw [backCopy, Function.iterate_succ_apply]
    change (backCopy d n (pushBack d w)).length = _
    rw [ih (by omega), hlen]
    omega

theorem backCopy_succ (d n : Nat) (w : List α) :
    backCopy d (n + 1) w = pushBack d (backCopy d n w) := Function.iterate_succ_apply' ..

/-- What a back-copy wrote is periodic, from `d` places before it began. -/
theorem backCopy_periodic {d : Nat} {w : List α} (hd : 0 < d) (hle : d ≤ w.length) {n i : Nat}
    (hi : w.length ≤ i + d) (hn : i + d < w.length + n) :
    (backCopy d n w)[i + d]? = (backCopy d n w)[i]? := by
  induction n with
  | zero => omega
  | succ n ih =>
    have hlen := length_backCopy hd hle n
    have hi' : i < (backCopy d n w).length := by omega
    rw [backCopy_succ, pushBack_eq hd (by omega), List.getElem?_append_left hi']
    by_cases hlast : i + d < w.length + n
    · rw [List.getElem?_append_left (by omega)]
      exact ih hlast
    · have hend : i + d = (backCopy d n w).length := by omega
      have hidx : i = (backCopy d n w).length - d := by omega
      rw [List.getElem?_append_right (by omega), hend, Nat.sub_self, List.getElem?_cons_zero,
        List.getElem?_eq_getElem hi']
      simp only [List.get_eq_getElem, hidx]

/-- Any whole number of periods further back stands the same cell. -/
theorem backCopy_periods {d : Nat} {w : List α} (hd : 0 < d) (hle : d ≤ w.length) {n q i : Nat}
    (hi : w.length ≤ i + d) (hn : i + q * d < w.length + n) :
    (backCopy d n w)[i + q * d]? = (backCopy d n w)[i]? := by
  induction q with
  | zero => simp
  | succ q ih =>
    rw [Nat.succ_mul] at hn ⊢
    have hstep := backCopy_periodic hd hle (n := n) (i := i + q * d) (by omega) (by omega)
    rw [← Nat.add_assoc, hstep]
    exact ih (by omega)

/-- A back-copy goes on alike from any whole number of periods further back. -/
theorem backCopy_mul {d : Nat} {w : List α} (hd : 0 < d) (hle : d ≤ w.length) {n q : Nat}
    (hq : 0 < q) (hreach : q * d ≤ d + n) (m : Nat) :
    backCopy (q * d) m (backCopy d n w) = backCopy d (n + m) w := by
  induction m with
  | zero => rfl
  | succ m ih =>
    have hlen := length_backCopy hd hle (n + m)
    obtain ⟨p, rfl⟩ : ∃ p, q = p + 1 := ⟨q - 1, by omega⟩
    rw [Nat.add_mul, Nat.one_mul] at hreach ih ⊢
    have hsame := backCopy_periods hd hle (n := n + m) (q := p)
      (i := w.length + (n + m) - (p * d + d)) (by omega) (by omega)
    have hidx : w.length + (n + m) - (p * d + d) + p * d = w.length + (n + m) - d := by omega
    rw [hidx] at hsame
    rw [← Nat.add_assoc, backCopy_succ, backCopy_succ, ih, pushBack, pushBack, hlen, hsame]

/-- A packet no longer than its distance is one load. -/
theorem backCopy_of_le {d n : Nat} {w : List α} (hd : 0 < d) (hle : d ≤ w.length) (hn : n ≤ d) :
    backCopy d n w = w ++ load w (w.length - d) n := by
  induction n with
  | zero => simp [load]
  | succ n ih =>
    have hlen : (w ++ load w (w.length - d) n).length = w.length + n := by
      rw [List.length_append, length_load (by omega)]
    rw [backCopy_succ, ih (by omega), pushBack, hlen, List.getElem?_append_left (by omega),
      List.append_assoc, load_add]
    have hcell : load w (w.length - d + n) 1 = w[w.length - d + n]?.toList := by
      rw [load, List.take_one, List.head?_drop]
    rw [hcell]
    congr 4
    omega

/-- A back-copy of cells that were compared with their source extends a known prefix. -/
theorem backCopy_take {d p : Nat} {xs : List α} (hd : 0 < d) (hle : d ≤ p) {n : Nat}
    (hn : p + n ≤ xs.length) (hsame : ∀ j < n, xs[p - d + j]? = xs[p + j]?) :
    backCopy d n (xs.take p) = xs.take (p + n) := by
  induction n with
  | zero => rfl
  | succ n ih =>
    have hlen : (xs.take (p + n)).length = p + n := List.length_take_of_le (by omega)
    rw [backCopy_succ, ih (by omega) fun j hj ↦ hsame j (by omega), pushBack, hlen,
      List.getElem?_take_of_lt (by omega), ← Nat.add_assoc, List.take_add_one]
    have hcell := hsame n (by omega)
    have hidx : p - d + n = p + n - d := by omega
    rw [hidx] at hcell
    rw [hcell]

theorem prefix_backCopy (d n : Nat) (w : List α) : w <+: backCopy d n w := by
  induction n with
  | zero => exact List.prefix_rfl
  | succ n ih =>
    rw [backCopy_succ, pushBack]
    exact ih.trans (List.prefix_append _ _)

theorem backCopy_mono (d : Nat) {m n : Nat} (h : m ≤ n) (w : List α) :
    backCopy d m w <+: backCopy d n w := by
  obtain ⟨l, rfl⟩ := Nat.exists_eq_add_of_le h
  rw [backCopy_add]
  exact prefix_backCopy d l _

/-- Moving a packet no longer than its distance is a back-copy. -/
theorem move_backCopy {w mem : List α} {d n : Nat} (h : w <+: mem) (hd : 0 < d)
    (hle : d ≤ w.length) (hnd : n ≤ d) (hn : w.length + n ≤ mem.length) :
    ∃ mem', move mem (w.length - d) w.length n = .ok mem' ∧ backCopy d n w <+: mem' ∧
      Within (w.length + n) mem mem' := by
  have hmove := move_extends (s := w.length - d) (n := n) h (by omega) hn
  rw [← backCopy_of_le hd hle hnd] at hmove
  exact hmove

/-- Moving from anywhere at or before its target keeps the cells before the target. -/
theorem move_safe {w mem : List α} {s n : Nat} (h : w <+: mem) (hs : s ≤ w.length)
    (hn : w.length + n ≤ mem.length) :
    ∃ mem' cells, move mem s w.length n = .ok mem' ∧ w ++ cells <+: mem' ∧ cells.length = n ∧
      Within (w.length + n) mem mem' := by
  obtain ⟨mem', hcopy, hpre, hwithin⟩ := copy_extends h (by omega : s + n ≤ mem.length) hn
  exact ⟨mem', load mem s n, hcopy, hpre, length_load (by omega), hwithin⟩

/-! ### Packets that overshoot -/

/-- Copying by packets behind a known prefix copies at least what was asked for, and less than
a packet more. -/
theorem copyUpTo_extends {k : Nat} [NeZero k] {src w mem : List α} {s e : Nat} (h : w <+: mem)
    (hs : s + (e - w.length - 1) + k ≤ src.length)
    (hn : w.length + (e - w.length - 1) + k ≤ mem.length) :
    ∃ mem' m, copyUpTo k src mem s w.length e = .ok (mem', s + m, w.length + m) ∧
      w ++ load src s m <+: mem' ∧ Within (w.length + m) mem mem' ∧ e ≤ w.length + m ∧
      m ≤ e - w.length - 1 + k := by
  have hk := Nat.pos_of_ne_zero (NeZero.ne k)
  induction hfuel : e - w.length using Nat.strong_induction_on generalizing w mem s with
  | _ fuel ih =>
    obtain ⟨mem₁, hcopy, hpre, hwithin⟩ := copy_extends h
      (by omega : s + k ≤ src.length) (by omega)
    have hlen := hwithin.length
    have hw : (w ++ load src s k).length = w.length + k := by
      rw [List.length_append, length_load (by omega)]
    rw [copyUpTo, hcopy]
    by_cases hmore : w.length + k < e
    · obtain ⟨mem₂, m, hrun, hpre₂, hwithin₂, hend, hm⟩ := ih (e - (w.length + k)) (by omega)
        (s := s + k) hpre (by omega) (by omega) (by omega)
      rw [hw] at hrun hend hwithin₂
      rw [Nat.add_assoc] at hwithin₂
      refine ⟨mem₂, k + m, ?_, ?_, (hwithin.mono (by omega)).trans hwithin₂, by omega, by omega⟩
      · simp only [bind, Except.bind, if_pos hmore, hrun, Nat.add_assoc]
      · rw [load_add, ← List.append_assoc]
        exact hpre₂
    · refine ⟨mem₁, k, ?_, hpre, hwithin, by omega, by omega⟩
      simp only [bind, Except.bind, if_neg hmore]

/-- Moving by packets from `d` cells back, a packet no longer than `d`, is a back-copy of at
least what was asked for, and less than a packet more. -/
theorem moveUpTo_extends {k : Nat} [NeZero k] {w mem : List α} {d e : Nat} (h : w <+: mem)
    (hd : k ≤ d) (hle : d ≤ w.length) (hn : w.length + (e - w.length - 1) + k ≤ mem.length) :
    ∃ mem' m, moveUpTo k mem (w.length - d) w.length e =
        .ok (mem', w.length - d + m, w.length + m) ∧
      backCopy d m w <+: mem' ∧ Within (w.length + m) mem mem' ∧ e ≤ w.length + m ∧
      m ≤ e - w.length - 1 + k := by
  have hk := Nat.pos_of_ne_zero (NeZero.ne k)
  induction hfuel : e - w.length using Nat.strong_induction_on generalizing w mem with
  | _ fuel ih =>
    obtain ⟨mem₁, hmove, hpre, hwithin⟩ := move_backCopy h (by omega) hle hd (by omega)
    have hlen := hwithin.length
    have hw := length_backCopy (n := k) (by omega : 0 < d) hle
    have hfrom : w.length - d + k = w.length + k - d := by omega
    rw [moveUpTo, hmove]
    by_cases hmore : w.length + k < e
    · obtain ⟨mem₂, m, hrun, hpre₂, hwithin₂, hend, hm⟩ := ih (e - (w.length + k)) (by omega)
        hpre (by omega) (by omega) (by omega)
      rw [hw] at hrun hend hwithin₂
      rw [Nat.add_assoc] at hwithin₂
      refine ⟨mem₂, k + m, ?_, ?_, (hwithin.mono (by omega)).trans hwithin₂, by omega, by omega⟩
      · simp only [bind, Except.bind, if_pos hmore, hfrom, hrun, Nat.add_assoc]
        congr 3
        omega
      · rw [backCopy_add]
        exact hpre₂
    · refine ⟨mem₁, k, ?_, hpre, hwithin, by omega, by omega⟩
      simp only [bind, Except.bind, if_neg hmore]

/-- Moving by packets from anywhere at or before its target stays inside the memory and keeps
the cells before the target. -/
theorem moveUpTo_safe {k : Nat} [NeZero k] {w mem : List α} {s e : Nat} (h : w <+: mem)
    (hs : s ≤ w.length) (hn : w.length + (e - w.length - 1) + k ≤ mem.length) :
    ∃ mem' m cells, moveUpTo k mem s w.length e = .ok (mem', s + m, w.length + m) ∧
      w ++ cells <+: mem' ∧ cells.length = m ∧ Within (w.length + m) mem mem' ∧
      e ≤ w.length + m ∧ m ≤ e - w.length - 1 + k := by
  have hk := Nat.pos_of_ne_zero (NeZero.ne k)
  induction hfuel : e - w.length using Nat.strong_induction_on generalizing w mem s with
  | _ fuel ih =>
    obtain ⟨mem₁, first, hmove, hpre, hcells, hwithin⟩ := move_safe (n := k) h hs (by omega)
    have hlen := hwithin.length
    have hw : (w ++ first).length = w.length + k := by
      rw [List.length_append, hcells]
    rw [moveUpTo, hmove]
    by_cases hmore : w.length + k < e
    · obtain ⟨mem₂, m, cells, hrun, hpre₂, hm, hwithin₂, hend, hle⟩ := ih (e - (w.length + k))
        (by omega) (s := s + k) hpre (by omega) (by omega) (by omega)
      rw [hw] at hrun hend hwithin₂
      rw [Nat.add_assoc] at hwithin₂
      refine ⟨mem₂, k + m, first ++ cells, ?_, ?_, ?_, (hwithin.mono (by omega)).trans hwithin₂,
        by omega, by omega⟩
      · simp only [bind, Except.bind, if_pos hmore, hrun, Nat.add_assoc]
      · rw [← List.append_assoc]
        exact hpre₂
      · rw [List.length_append, hcells, hm]
    · refine ⟨mem₁, k, first, ?_, hpre, hcells, hwithin, by omega, by omega⟩
      simp only [bind, Except.bind, if_neg hmore]

end Memory
