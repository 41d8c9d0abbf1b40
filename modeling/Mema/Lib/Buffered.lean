import Mathlib.Data.List.Basic

/-!
# Buffered readers over a seekable file

A buffered reader runs ahead of what it has handed out: its descriptor is already past the
bytes it still buffers. Reading hands out the bytes at the logical position `tell`, however
the descriptor was filled, and seeking back by the number of buffered bytes un-reads them.
-/

namespace Buffered

universe u
variable {α : Type u}

/-- A descriptor on a file with the bytes read from it but not handed out. -/
structure Reader (α : Type u) where
  file : List α
  pos : Nat
  buffered : List α

namespace Reader

/-- Nothing read yet. -/
def opened (file : List α) : Reader α := ⟨file, 0, []⟩

/-- Where the descriptor stands after seeking back over the buffered bytes. -/
def tell (r : Reader α) : Nat := r.pos - r.buffered.length

/-- The bytes still to be handed out. -/
def rest (r : Reader α) : List α := r.buffered ++ r.file.drop r.pos

/-- One read of the descriptor into the free part of a buffer of `size` bytes. -/
def fill (size : Nat) (r : Reader α) : Reader α :=
  let chunk := (r.file.drop r.pos).take (size - r.buffered.length)
  { r with pos := r.pos + chunk.length, buffered := r.buffered ++ chunk }

/-- Hand out `n` bytes of the buffer, filling it once when it is empty; fewer when it holds
fewer, none only at the end of the file. -/
def read (size n : Nat) (r : Reader α) : List α × Reader α :=
  let r := if r.buffered.isEmpty then r.fill size else r
  (r.buffered.take n, { r with buffered := r.buffered.drop n })

/-- The buffer is what the descriptor read last, and the descriptor is inside the file. -/
structure WF (r : Reader α) : Prop where
  inFile : r.pos ≤ r.file.length
  behind : r.buffered.length ≤ r.pos
  unread : r.rest = r.file.drop r.tell

theorem wf_opened (file : List α) : (opened file).WF :=
  ⟨Nat.zero_le _, Nat.le_refl _, rfl⟩

/-- The logical position is what is left to hand out, counted from the end. -/
theorem WF.tell_eq {r : Reader α} (h : r.WF) : r.tell + r.rest.length = r.file.length := by
  have hb := h.behind
  have hf := h.inFile
  rw [h.unread, List.length_drop, tell]
  omega

/-- Dropping buffered bytes moves the logical position past them. -/
theorem WF.skip {r : Reader α} (h : r.WF) {n : Nat} (hn : n ≤ r.buffered.length) :
    ({ r with buffered := r.buffered.drop n } : Reader α).WF := by
  have hb := h.behind
  refine ⟨h.inFile, ?_, ?_⟩
  · simp only [List.length_drop]
    omega
  · have hu := congrArg (List.drop n) h.unread
    rw [rest, List.drop_append_of_le_length hn, List.drop_drop] at hu
    rw [rest, hu]
    simp only [tell, List.length_drop]
    congr 1
    omega

/-- Filling hands nothing out. -/
theorem rest_fill (size : Nat) (r : Reader α) : (r.fill size).rest = r.rest := by
  simp only [rest, fill, List.append_assoc, List.append_cancel_left_eq, List.length_take,
    List.length_drop]
  rw [← List.drop_drop]
  conv_rhs => rw [← List.take_append_drop (size - r.buffered.length) (r.file.drop r.pos)]
  congr 1
  rcases Nat.le_total (size - r.buffered.length) (r.file.length - r.pos) with hle | hle
  · rw [Nat.min_eq_left hle]
  · rw [Nat.min_eq_right hle, List.drop_of_length_le (by simp),
      List.drop_of_length_le (by simpa using hle)]

theorem WF.fill {r : Reader α} (h : r.WF) (size : Nat) : (r.fill size).WF := by
  have hb := h.behind
  have hf := h.inFile
  have ht : (r.fill size).tell = r.tell := by
    simp only [tell, Reader.fill, List.length_append]
    omega
  refine ⟨?_, ?_, ?_⟩
  · simp only [Reader.fill, List.length_take, List.length_drop]
    omega
  · simp only [Reader.fill, List.length_append]
    omega
  · rw [rest_fill, h.unread, ht]
    rfl

/-- A reader whose rest begins with at least `n` bytes hands those out in one read, when the
buffer was empty or already holds them. -/
theorem read_spec (size : Nat) {n : Nat} {r : Reader α} (h : r.WF) (hempty : r.buffered = [])
    (hsize : n ≤ size) (hn : n ≤ r.rest.length) :
    (r.read size n).1 = r.rest.take n ∧ (r.read size n).2.WF ∧
      (r.read size n).2.file = r.file ∧ (r.read size n).2.rest = r.rest.drop n := by
  have hfill : (r.fill size).buffered = r.rest.take size := by
    simp [Reader.fill, rest, hempty]
  have hlen : n ≤ (r.fill size).buffered.length := by
    rw [hfill, List.length_take]
    omega
  have hrest : (r.fill size).rest = r.rest := rest_fill size r
  simp only [read, hempty, List.isEmpty_nil, ↓reduceIte]
  refine ⟨?_, (h.fill size).skip hlen, rfl, ?_⟩
  · rw [hfill, List.take_take, Nat.min_eq_left hsize]
  · rw [← hrest]
    simp only [rest]
    rw [List.drop_append_of_le_length hlen]

/-! ### Reading up to a delimiter -/

variable [DecidableEq α]

/-- Hand out everything up to and including the first delimiter: search the buffer, hand a
full buffer out, and otherwise fill it; none when the file ends first. -/
def readBytes (size : Nat) (delim : α) (r : Reader α) : Option (List α × Reader α) :=
  if delim ∈ r.buffered then
    let n := r.buffered.idxOf delim + 1
    some (r.buffered.take n, { r with buffered := r.buffered.drop n })
  else if size ≤ r.buffered.length ∧ r.buffered ≠ [] then
    (readBytes size delim { r with buffered := [] }).map fun p ↦ (r.buffered ++ p.1, p.2)
  else if r.file.length ≤ r.pos ∨ size ≤ r.buffered.length then none
  else readBytes size delim (r.fill size)
termination_by 2 * (r.file.length - r.pos) + r.buffered.length
decreasing_by
  · next h =>
    have := List.length_pos_of_ne_nil h.2
    simp only [List.length_nil]
    omega
  · simp only [fill, List.length_append, List.length_take, List.length_drop]
    omega

/-- Reading up to a delimiter hands out exactly the bytes before its first occurrence and the
delimiter, however the buffer was filled. -/
theorem readBytes_spec (size : Nat) {delim : α} {r : Reader α} (hsize : 0 < size) (h : r.WF)
    {xs ys : List α} (hx : delim ∉ xs) (hr : r.rest = xs ++ delim :: ys) :
    ∃ r', readBytes size delim r = some (xs ++ [delim], r') ∧ r'.WF ∧ r'.file = r.file ∧
      r'.rest = ys := by
  fun_induction readBytes size delim r generalizing xs with
  | case1 r hmem n =>
    -- The first delimiter is in the buffer: the handed out prefix ends there.
    have hidx : xs.length = r.buffered.idxOf delim := by
      have h₁ : r.rest.idxOf delim = r.buffered.idxOf delim := by
        rw [rest, List.idxOf_append_of_mem hmem]
      have h₂ : r.rest.idxOf delim = xs.length := by
        rw [hr, List.idxOf_append_of_notMem hx, List.idxOf_cons_self, Nat.add_zero]
      omega
    have hlt := List.idxOf_lt_length_of_mem hmem
    have hn : n ≤ r.buffered.length := hlt
    have hxn : n = (xs ++ [delim]).length := by
      simp only [List.length_append, List.length_singleton, hidx, n]
    have hsplit : r.rest = (xs ++ [delim]) ++ ys := by
      rw [hr, List.append_assoc]
      rfl
    refine ⟨_, ?_, h.skip hn, rfl, ?_⟩
    · have ht := congrArg (List.take n) hsplit
      rw [rest, List.take_append_of_le_length hn, hxn, List.take_left] at ht
      rw [hxn, ht]
    · have hd := congrArg (List.drop n) hsplit
      rw [rest, List.drop_append_of_le_length hn, hxn, List.drop_left] at hd
      rw [← hd, ← hxn]
      rfl
  | case2 r hmem hfull ih =>
    -- A full buffer without the delimiter is a prefix of what is handed out.
    have hpre : r.buffered <+: xs := by
      have h₁ : r.buffered <+: xs ++ delim :: ys := by
        rw [← hr]
        exact List.prefix_append _ _
      have h₂ : xs <+: xs ++ delim :: ys := List.prefix_append _ _
      rcases List.prefix_or_prefix_of_prefix h₁ h₂ with hp | ⟨zs, hz⟩
      · exact hp
      · cases zs with
        | nil => exact ⟨[], by simpa using hz.symm⟩
        | cons z zs =>
          obtain ⟨us, hu⟩ := h₁
          rw [← hz, List.append_assoc, List.append_cancel_left_eq] at hu
          cases hu
          rw [← hz] at hmem
          exact absurd (by simp) hmem
    obtain ⟨zs, rfl⟩ := hpre
    have hskip := h.skip (n := r.buffered.length) (Nat.le_refl _)
    rw [List.drop_length] at hskip
    have hzs : delim ∉ zs := fun hm ↦ hx (List.mem_append_right _ hm)
    have hrest : ({ r with buffered := [] } : Reader α).rest = zs ++ delim :: ys := by
      rw [rest, List.append_assoc, List.append_cancel_left_eq] at hr
      exact hr
    obtain ⟨r', hread, hwf, hfile, hys⟩ := ih hskip hzs hrest
    refine ⟨r', ?_, hwf, hfile, hys⟩
    rw [hread, Option.map_some, List.append_assoc]
  | case3 r hmem hfull hend =>
    -- Neither end of file nor a zero-sized buffer is possible before the delimiter.
    exfalso
    have hbuf : ¬ size ≤ r.buffered.length := by
      intro hle
      have hb : r.buffered = [] := by
        by_contra hne
        exact hfull ⟨hle, hne⟩
      rw [hb, List.length_nil] at hle
      omega
    have hlen := hend.resolve_right hbuf
    rw [rest, List.drop_of_length_le hlen, List.append_nil] at hr
    rw [hr] at hmem
    exact hmem (by simp)
  | case4 r hmem hfull hend ih =>
    obtain ⟨r', hread, hwf, hfile, hys⟩ := ih (h.fill size) hx (by rw [rest_fill]; exact hr)
    exact ⟨r', hread, hwf, hfile, hys⟩

/-- Without a delimiter ahead nothing is handed out. -/
theorem readBytes_eq_none (size : Nat) {delim : α} {r : Reader α} (h : delim ∉ r.rest) :
    readBytes size delim r = none := by
  fun_induction readBytes size delim r with
  | case1 r hmem n => exact absurd (List.mem_append_left _ hmem) h
  | case2 r hmem hfull ih =>
    rw [ih fun hrest ↦ h (List.mem_append_right _ hrest)]
    rfl
  | case3 r hmem hfull hend => rfl
  | case4 r hmem hfull hend ih => exact ih (by rwa [rest_fill])

end Reader

end Buffered
