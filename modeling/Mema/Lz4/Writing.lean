import Mema.Lz4.Matching

/-!
# Writing a sequence

The output loops of `lz4.c:401–452,470–479` against the bytes of the block format. The output
buffer is known up to `op`.
-/

namespace Mema.Lz4

open Bytes Memory

/-- A copied length is added to a token. -/
theorem token_add (literals copied : Nat) :
    token literals 0 + UInt8.ofNat (min copied runMask) = token literals copied := by
  rw [token, token, Nat.zero_min, Nat.add_zero, ← UInt8.ofNat_add]

theorem token_zero (literals : Nat) :
    token literals 0 = UInt8.ofNat (min literals runMask * 16) := by
  rw [token, Nat.zero_min, Nat.add_zero]

theorem runBytes_of_le {n : Nat} (h : n ≤ 254) : runBytes n = [UInt8.ofNat n] := by
  rw [runBytes, Nat.div_eq_of_lt (by omega), Nat.mod_eq_of_lt (by omega), List.replicate_zero,
    List.nil_append]

theorem runBytes_of_lt {n : Nat} (h : 254 < n) : runBytes n = 255 :: runBytes (n - 255) := by
  have hdiv : n / 255 = (n - 255) / 255 + 1 := by omega
  have hmod : n % 255 = (n - 255) % 255 := by omega
  rw [runBytes, runBytes, hdiv, hmod, List.replicate_succ, List.cons_append]

namespace Out

/-- The output so far, in a buffer of a given size. -/
structure Holds (out : Out) (w : List UInt8) (cap : Nat) : Prop where
  written : w <+: out.dest
  op : out.op = w.length
  size : out.dest.length = cap

variable {out : Out} {w : List UInt8} {cap : Nat}

theorem Holds.puts_spec (h : out.Holds w cap) {bytes : List UInt8}
    (hroom : w.length + bytes.length ≤ cap) :
    ∃ out', out.puts bytes = .ok out' ∧ out'.Holds (w ++ bytes) cap := by
  have hfits : w.length + bytes.length ≤ out.dest.length := by
    rw [h.size]
    exact hroom
  obtain ⟨dest, hwrite, hpre, hwithin⟩ := write_extends h.written hfits
  refine ⟨⟨dest, out.op + bytes.length⟩, ?_, hpre, ?_, hwithin.length.trans h.size⟩
  · rw [puts, h.op, hwrite]
    rfl
  · rw [List.length_append, ← h.op]

theorem Holds.put_spec (h : out.Holds w cap) (b : UInt8) (hroom : w.length + 1 ≤ cap) :
    ∃ out', out.put b = .ok out' ∧ out'.Holds (w ++ [b]) cap := h.puts_spec hroom

/-- A run is written as the format has it. -/
theorem Holds.putRun_spec (h : out.Holds w cap) {n : Nat} (hroom : w.length + (n / 255 + 1) ≤ cap) :
    ∃ out', out.putRun n = .ok out' ∧ out'.Holds (w ++ runBytes n) cap := by
  induction n using Nat.strong_induction_on generalizing out w with
  | _ n ih =>
    rw [putRun]
    by_cases hmore : 254 < n
    · obtain ⟨out₁, hput, hholds⟩ := h.put_spec 255 (by omega)
      obtain ⟨out₂, hrun, hholds₂⟩ := ih (n - 255) (by omega) hholds (by
        rw [List.length_append, List.length_singleton]
        omega)
      refine ⟨out₂, ?_, ?_⟩
      · rw [if_pos hmore, hput]
        exact hrun
      · rw [runBytes_of_lt hmore, List.append_cons]
        exact hholds₂
    · rw [if_neg hmore, runBytes_of_le (by omega)]
      exact h.put_spec _ (by omega)

/-- Two at a time, the same run is written. -/
theorem Holds.putRun2_spec (h : out.Holds w cap) {n : Nat}
    (hroom : w.length + (n / 255 + 1) ≤ cap) :
    ∃ out', out.putRun2 n = .ok out' ∧ out'.Holds (w ++ runBytes n) cap := by
  induction n using Nat.strong_induction_on generalizing out w with
  | _ n ih =>
    rw [putRun2]
    by_cases hmore : 509 < n
    · obtain ⟨out₁, hput₁, hholds₁⟩ := h.put_spec 255 (by omega)
      obtain ⟨out₂, hput₂, hholds₂⟩ := hholds₁.put_spec 255 (by
        rw [List.length_append, List.length_singleton]
        omega)
      obtain ⟨out₃, hrun, hholds₃⟩ := ih (n - 510) (by omega) hholds₂ (by
        simp only [List.length_append, List.length_singleton]
        omega)
      have htwo : n - 255 - 255 = n - 510 := by omega
      refine ⟨out₃, ?_, ?_⟩
      · rw [if_pos hmore, hput₁]
        simp only [bind, Except.bind, hput₂]
        exact hrun
      · rw [runBytes_of_lt (by omega), runBytes_of_lt (by omega), htwo, List.append_cons,
          List.append_cons]
        exact hholds₃
    · rw [if_neg hmore]
      by_cases hone : 254 < n
      · obtain ⟨out₁, hput₁, hholds₁⟩ := h.put_spec 255 (by omega)
        obtain ⟨out₂, hput₂, hholds₂⟩ := hholds₁.put_spec (UInt8.ofNat (n - 255)) (by
          rw [List.length_append, List.length_singleton]
          omega)
        refine ⟨out₂, ?_, ?_⟩
        · rw [if_pos hone, hput₁]
          exact hput₂
        · rw [runBytes_of_lt hone, runBytes_of_le (by omega), List.append_cons]
          exact hholds₂
      · rw [if_neg hone, runBytes_of_le (by omega)]
        exact h.put_spec _ (by omega)

/-- A token and the bytes of a literal length. -/
theorem Holds.putLength_spec (h : out.Holds w cap) {n : Nat}
    (hroom : w.length + 1 + (n + 240) / 255 ≤ cap) :
    ∃ out', out.putLength n = .ok out' ∧
      out'.Holds (w ++ token n 0 :: lengthBytes n) cap := by
  rw [putLength, token_zero, lengthBytes]
  by_cases hlong : runMask ≤ n
  · obtain ⟨out₁, hput, hholds⟩ := h.put_spec (UInt8.ofNat (runMask * 16)) (by omega)
    obtain ⟨out₂, hrun, hholds₂⟩ := hholds.putRun_spec (n := n - runMask) (by
      rw [List.length_append, List.length_singleton]
      rw [runMask] at hlong ⊢
      omega)
    refine ⟨out₂, ?_, ?_⟩
    · rw [if_pos hlong, hput]
      exact hrun
    · rw [if_neg (by omega), Nat.min_eq_right hlong, List.append_cons]
      exact hholds₂
  · rw [if_neg hlong, if_pos (by omega), Nat.min_eq_left (by omega)]
    exact h.put_spec _ (by omega)

/-- Adding to a token changes nothing else. -/
theorem Holds.addToken_spec {w' : List UInt8} {tok : UInt8} (h : out.Holds (w ++ tok :: w') cap)
    (n : Nat) :
    ∃ out', out.addToken w.length n = .ok out' ∧
      out'.Holds (w ++ (tok + UInt8.ofNat n) :: w') cap := by
  obtain ⟨⟨rest, hrest⟩, hop, hsize⟩ := h
  have hlt : w.length < out.dest.length := by
    rw [← hrest]
    simp only [List.length_append, List.length_cons]
    omega
  have hcell : out.dest[w.length] = tok := by
    have h? : out.dest[w.length]? = some tok := by
      rw [← hrest, List.append_assoc, List.getElem?_append_right (Nat.le_refl _), Nat.sub_self]
      rfl
    rw [List.getElem?_eq_getElem hlt] at h?
    exact Option.some.inj h?
  have hstore : store out.dest w.length [tok + UInt8.ofNat n] =
      w ++ (tok + UInt8.ofNat n) :: (w' ++ rest) := by
    rw [← hrest, store, List.append_assoc, List.take_left, List.drop_append]
    simp
  refine ⟨⟨w ++ (tok + UInt8.ofNat n) :: (w' ++ rest), out.op⟩, ?_, ⟨rest, ?_⟩, ?_, ?_⟩
  · rw [addToken, readCell_eq hlt, hcell]
    simp only [bind, Except.bind]
    rw [write_eq (by rw [List.length_singleton]; omega), hstore]
    rfl
  · rw [List.append_assoc, List.cons_append]
  · rw [hop]
    simp only [List.length_append, List.length_cons]
  · rw [← hsize, ← hrest]
    simp only [List.length_append, List.length_cons]
    omega

/-- The copied length goes into the token, and the rest of it behind. -/
theorem Holds.putMatchLength_spec {w' : List UInt8} {literals : Nat}
    (h : out.Holds (w ++ token literals 0 :: w') cap) {n : Nat}
    (hroom : w.length + 1 + w'.length + (n + 240) / 255 ≤ cap) :
    ∃ out', out.putMatchLength w.length n = .ok out' ∧
      out'.Holds (w ++ token literals n :: (w' ++ lengthBytes n)) cap := by
  rw [putMatchLength, lengthBytes, ← token_add literals n]
  by_cases hlong : runMask ≤ n
  · obtain ⟨out₁, hadd, hholds⟩ := h.addToken_spec runMask
    obtain ⟨out₂, hrun, hholds₂⟩ := hholds.putRun2_spec (n := n - runMask) (by
      simp only [List.length_append, List.length_cons]
      rw [runMask] at hlong ⊢
      omega)
    refine ⟨out₂, ?_, ?_⟩
    · rw [if_pos hlong, hadd]
      exact hrun
    · rw [if_neg (by omega), Nat.min_eq_right hlong, ← List.cons_append, ← List.append_assoc]
      exact hholds₂
  · rw [if_neg hlong, if_pos (by omega), Nat.min_eq_left (by omega), List.append_nil]
    exact h.addToken_spec n

/-- Literal length and literals are written as the format has them, when the limit allows. -/
theorem Holds.putLiterals_spec (h : out.Holds w cap) {src : List UInt8}
    {maxOutputSize anchor ip : Nat}
    (hle : anchor ≤ ip) (hip : ip + 8 ≤ src.length)
    (hlimit : w.length + 1 + (ip - anchor) + 8 + (ip - anchor) / 256 < maxOutputSize)
    (hroom : w.length + 1 + (ip - anchor + 240) / 255 + (ip - anchor - 1) + 8 ≤ cap) :
    ∃ out', out.putLiterals src maxOutputSize anchor ip = .ok (some out') ∧
      out'.Holds (w ++ token (ip - anchor) 0 ::
        (lengthBytes (ip - anchor) ++ load src anchor (ip - anchor))) cap := by
  obtain ⟨out₁, hput, hholds⟩ := h.putLength_spec (n := ip - anchor) (by omega)
  have hlen : (w ++ token (ip - anchor) 0 :: lengthBytes (ip - anchor)).length =
      w.length + 1 + (ip - anchor + 240) / 255 := by
    simp only [List.length_append, List.length_cons, length_lengthBytes]
    omega
  obtain ⟨dest, m, hcopy, hpre, hwithin, hend, -⟩ := @copyUpTo_extends _ 8 _ src _ out₁.dest
    anchor (out₁.op + (ip - anchor)) hholds.written (by rw [hholds.op]; omega) (by
      rw [hholds.size, hholds.op, hlen]
      omega)
  rw [hholds.op] at hend
  have hfive : lastLiterals = 5 := rfl
  refine ⟨⟨dest, out₁.op + (ip - anchor)⟩, ?_, ?_, ?_, hwithin.length.trans hholds.size⟩
  · rw [putLiterals, if_neg (by rw [h.op, hfive]; omega), hput]
    simp only [bind, Except.bind, pure, Except.pure]
    rw [← hholds.op] at hcopy
    rw [wildCopy, hcopy]
  · rw [← List.cons_append, ← List.append_assoc]
    apply (List.prefix_append_right_inj _ |>.mpr ?_).trans hpre
    rw [load, load]
    exact List.take_prefix_take_left (by omega)
  · rw [hholds.op, ← List.cons_append, ← List.append_assoc, @List.length_append _ _ (load _ _ _),
      length_load (by omega)]

end Out

end Mema.Lz4
