import Mathlib.Tactic.IntervalCases
import Mema.Lz4.Block

/-!
# Decompression

`memapass/lz4.c:773–860`, which `memagrind/memadump/lz4.c` repeats, on a 64-bit little-endian
machine: literals and copies are made eight bytes at a time, past their end, and a copy from
less than eight bytes back is first spread out by two tables of corrections. Whatever the
input, it decodes byte by byte as the block format says.
-/

namespace Mema.Lz4

open Bytes Memory

/-- `int` addition. -/
def addInt (a b : Nat) : Except Trap Nat :=
  if a + b < intLimit then .ok (a + b) else .error .intOverflow

/-- `LZ4_WILDCOPY(s,d,e)` between two buffers, `lz4.c:244`. -/
def wildCopy (src mem : List UInt8) (s d e : Nat) : Except Trap (List UInt8 × Nat × Nat) :=
  copyUpTo 8 src mem s d e

/-- `LZ4_SECURECOPY(s,d,e)` within the output, `lz4.c:207`. -/
def secureCopy (mem : List UInt8) (s d e : Nat) : Except Trap (List UInt8 × Nat × Nat) :=
  moveWhile 8 mem s d e

/-- `while(op<cpy) *op++=*ref++;` -/
def byteCopy (mem : List UInt8) (s d e : Nat) : Except Trap (List UInt8 × Nat × Nat) :=
  moveWhile 1 mem s d e

/-- `while ((ip<iend) && (s==255)) { s=*ip++; length += s; }` with `s` 255 at the start, which the
loop for match lengths repeats: the length and `ip`. -/
def runLength (src : List UInt8) (ip length : Nat) : Except Trap (Nat × Nat) :=
  if ip < src.length then do
    let s ← readCell src ip
    let length ← addInt length s.toNat
    if s = 255 then runLength src (ip + 1) length else .ok (length, ip + 1)
  else .ok (length, ip)
termination_by src.length - ip

/-- A length whose four token bits are given. -/
def lengthAt (src : List UInt8) (ip nibble : Nat) : Except Trap (Nat × Nat) :=
  if nibble = runMask then runLength src ip runMask else .ok (nibble, ip)

/-- `dec`, `lz4.c:788`. -/
def dec : List Nat := [0, 3, 2, 3, 0, 0, 0, 0]

/-- `dec2table`, `lz4.c:826`. -/
def dec2table : List Int := [0, 0, 0, -1, 0, 1, 2, 3]

/-- The first eight bytes of a repeated sequence, `lz4.c:823–838`: the output, `ref` and `op`. -/
def copyFirst (dest : List UInt8) (ref op : Nat) : Except Trap (List UInt8 × Nat × Nat) :=
  if op - ref < 8 then do
    let dest ← move dest ref op 1
    let dest ← move dest (ref + 1) (op + 1) 1
    let dest ← move dest (ref + 2) (op + 2) 1
    let dest ← move dest (ref + 3) (op + 3) 1
    let ref' := ref + 4 - dec.getD (op - ref) 0
    let dest ← move dest ref' (op + 4) 4
    return (dest, ((ref' : Int) - dec2table.getD (op - ref) 0).toNat, op + 8)
  else do
    let dest ← move dest ref op 8
    return (dest, ref + 8, op + 8)

/-- Where a decoder stands. -/
structure Decoder where
  ip : Nat
  op : Nat
  dest : List UInt8

/-- Either the decoder goes on or it returns its result and the output. -/
abbrev Decoder.Next : Type := Decoder ⊕ (Int × List UInt8)

/-- `_output_error` -/
def outputError (ip : Nat) (dest : List UInt8) : Decoder.Next := .inr (-(ip : Int), dest)

/-- A repeated sequence, `lz4.c:822–850`, with `length` as the token and its bytes give it. -/
def repeatSequence (ip : Nat) (dest : List UInt8) (ref op length : Nat) :
    Except Trap Decoder.Next := do
  let (dest, ref, op) ← copyFirst dest ref op
  let cpy := op + length - 4
  if dest.length < cpy + copyLength then
    if dest.length < cpy then return outputError ip dest
    let (dest, ref, op) ← secureCopy dest ref op (dest.length - copyLength)
    let (dest, _, _) ← byteCopy dest ref op cpy
    if cpy = dest.length then return .inr ((cpy : Int), dest)
    return .inl ⟨ip, cpy, dest⟩
  else
    let (dest, _, _) ← secureCopy dest ref op cpy
    return .inl ⟨ip, cpy, dest⟩

/-- The copy behind a sequence's literals, `lz4.c:815–850`. -/
def matchSequence (src : List UInt8) (tok : UInt8) (ip op : Nat) (dest : List UInt8) :
    Except Trap Decoder.Next := do
  let offset := leNat (← read src ip 2)
  if op < offset then return outputError (ip + 2) dest
  let (length, ip) ← lengthAt src (ip + 2) (tok.toNat % 16)
  repeatSequence ip dest (op - offset) op length

/-- One turn of the main loop, `lz4.c:794–850`. -/
def sequence (src : List UInt8) (s : Decoder) : Except Trap Decoder.Next := do
  let tok ← readCell src s.ip
  let (length, ip) ← lengthAt src (s.ip + 1) (tok.toNat / 16)
  let cpy := s.op + length
  if s.dest.length < cpy + copyLength ∨ src.length < ip + length + copyLength then
    if s.dest.length < cpy then return outputError ip s.dest
    if src.length < ip + length then return outputError ip s.dest
    let dest ← copy src ip s.dest s.op length
    if ip + length < src.length then return outputError (ip + length) dest
    return .inr ((cpy : Int), dest)
  else
    let (dest, ip, op) ← wildCopy src s.dest ip s.op cpy
    matchSequence src tok (ip - (op - cpy)) cpy dest

/-- The main loop, `lz4.c:791–854`. -/
def uncompressLoop (src : List UInt8) : Nat → Decoder → Except Trap (Int × List UInt8)
  | 0, _ => .error .fuel
  | fuel + 1, s =>
    if s.ip < src.length then do
      (← sequence src s).elim (uncompressLoop src fuel) .ok
    else .ok ((s.op : Int), s.dest)

/-- `LZ4_uncompress_unknownOutputSize(source, dest, isize, maxOutputSize)`, `lz4.c:773–860`, on
buffers of just these sizes: its result and the output buffer. -/
def lz4UncompressUnknownOutputSize (source dest : List UInt8) :
    Except Trap (Int × List UInt8) :=
  uncompressLoop source (source.length + 1) ⟨0, 0, dest⟩

/-! ### Lengths -/

theorem drop_cons {src : List UInt8} {ip : Nat} (h : ip < src.length) :
    src.drop ip = src[ip] :: src.drop (ip + 1) := List.drop_eq_getElem_cons h

/-- Reading a run stops where the format says, unless its length does not fit an `int`. -/
theorem runLength_spec {src : List UInt8} {ip length : Nat} (hip : ip ≤ src.length)
    (hint : length < intLimit) :
    ∃ ip', ip ≤ ip' ∧ ip' ≤ src.length ∧ (readRun (src.drop ip)).2 = src.drop ip' ∧
      runLength src ip length =
        if length + (readRun (src.drop ip)).1 < intLimit then
          .ok (length + (readRun (src.drop ip)).1, ip')
        else .error .intOverflow := by
  induction hfuel : src.length - ip generalizing ip length with
  | zero =>
    have hend : ip = src.length := by omega
    subst hend
    refine ⟨src.length, Nat.le_refl _, Nat.le_refl _, ?_, ?_⟩
    · rw [List.drop_length, readRun]
    · rw [List.drop_length, readRun, runLength, if_neg (by omega)]
      exact (if_pos hint).symm
  | succ fuel ih =>
    have hlt : ip < src.length := by omega
    rw [runLength, if_pos hlt, readCell_eq hlt, drop_cons hlt, readRun]
    by_cases hmore : src[ip] = 255
    · have h255 : (255 : UInt8).toNat = 255 := rfl
      rw [if_pos hmore]
      simp only [bind, Except.bind, hmore, h255]
      by_cases hadd : length + 255 < intLimit
      · obtain ⟨ip', hle, hle', hrest, hrun⟩ := ih (by omega : ip + 1 ≤ src.length) hadd
          (by omega)
        refine ⟨ip', by omega, hle', hrest, ?_⟩
        rw [addInt, if_pos hadd]
        simp only [↓reduceIte, hrun, Nat.add_assoc]
      · obtain ⟨ip', hle, hle', hrest, -⟩ := ih
          (by omega : ip + 1 ≤ src.length) (by decide : 0 < intLimit) (by omega)
        refine ⟨ip', by omega, hle', hrest, ?_⟩
        rw [addInt, if_neg hadd, if_neg (by omega)]
    · refine ⟨ip + 1, by omega, by omega, ?_, ?_⟩
      · rw [if_neg hmore]
      · rw [if_neg hmore]
        simp only [bind, Except.bind, addInt]
        by_cases hadd : length + src[ip].toNat < intLimit
        · simp only [if_pos hadd, if_neg hmore]
        · simp only [if_neg hadd]

/-- Reading a length stops where the format says, unless it does not fit an `int`. -/
theorem lengthAt_spec {src : List UInt8} {ip nibble : Nat} (hip : ip ≤ src.length)
    (hnibble : nibble < 16) :
    ∃ ip', ip ≤ ip' ∧ ip' ≤ src.length ∧ (readLength nibble (src.drop ip)).2 = src.drop ip' ∧
      lengthAt src ip nibble =
        if intLimit ≤ (readLength nibble (src.drop ip)).1 then .error .intOverflow
        else .ok ((readLength nibble (src.drop ip)).1, ip') := by
  have hlimit : 16 ≤ intLimit := by decide
  rw [lengthAt, readLength]
  by_cases h : nibble = runMask
  · have hmask : runMask < intLimit := by decide
    obtain ⟨ip', hle, hle', hrest, hrun⟩ := runLength_spec hip hmask
    rw [if_pos h, if_pos h]
    refine ⟨ip', hle, hle', hrest, ?_⟩
    rw [hrun]
    split
    · rw [if_neg (by omega)]
    · rw [if_pos (by omega)]
  · rw [if_neg h, if_neg h]
    refine ⟨ip, Nat.le_refl _, hip, rfl, ?_⟩
    rw [if_neg (by dsimp only; omega)]

/-! ### Copies -/

/-- How far back copying goes on after the first eight bytes. -/
def spread (d : Nat) : Nat := [4, 8, 8, 9, 8, 10, 12, 14].getD d d

/-- The corrections put `ref` the spread distance back. -/
private theorem ref_corrected {d op : Nat} (hd : d < 8) (hop : d ≤ op) :
    (((op - d + 4 - dec.getD d 0 : Nat) : Int) - dec2table.getD d 0).toNat =
      op + 8 - spread d := by
  interval_cases d <;> simp [dec, dec2table, spread] <;> omega

/-- `n` bytes of a copy from `offset` back are made behind `out`, and it goes on from `far`
back: a whole number of offsets, at least eight. -/
def Repeats (offset far : Nat) (out mem : List UInt8) (n : Nat) : Prop :=
  ∃ w, w <+: mem ∧ out <+: w ∧ w.length = out.length + n ∧ far ≤ w.length ∧
    (0 < offset → w = backCopy offset n out ∧ 8 ≤ far ∧ far ≤ offset + n ∧
      ∃ q, 0 < q ∧ far = q * offset)

/-- The first eight bytes from less than eight back. -/
private theorem copyFirst_near {offset : Nat} {out dest : List UInt8} (h : out <+: dest)
    (hpos : 0 < offset) (hlt : offset < 8) (hle : offset ≤ out.length)
    (hroom : out.length + 8 ≤ dest.length) :
    ∃ dest', copyFirst dest (out.length - offset) out.length =
        .ok (dest', out.length + 8 - spread offset, out.length + 8) ∧
      backCopy offset 8 out <+: dest' ∧ Within (out.length + 8) dest dest' := by
  have hlen (n : Nat) := length_backCopy hpos hle n
  have hback (n : Nat) : out.length - offset + n = (backCopy offset n out).length - offset := by
    have := hlen n
    omega
  have hone {mem : List UInt8} (n : Nat) (hpre : backCopy offset n out <+: mem) (hn : n < 4)
      (hmem : Within (out.length + 8) dest mem) :
      ∃ mem', move mem (out.length - offset + n) (out.length + n) 1 = .ok mem' ∧
        backCopy offset (n + 1) out <+: mem' ∧ Within (out.length + 8) dest mem' := by
    have hlen := hlen n
    have hsize := hmem.length
    obtain ⟨mem', hmove, hpre', hwithin⟩ := move_backCopy (n := 1) hpre hpos (by omega) hpos
      (by omega)
    rw [← hback, hlen] at hmove
    rw [← backCopy_add] at hpre'
    exact ⟨mem', hmove, hpre', hmem.trans (hwithin.mono (by omega))⟩
  obtain ⟨m₁, hm₁, hpre₁, hin₁⟩ := hone 0 h (by omega) (Within.refl _ _)
  obtain ⟨m₂, hm₂, hpre₂, hin₂⟩ := hone 1 hpre₁ (by omega) hin₁
  obtain ⟨m₃, hm₃, hpre₃, hin₃⟩ := hone 2 hpre₂ (by omega) hin₂
  obtain ⟨m₄, hm₄, hpre₄, hin₄⟩ := hone 3 hpre₃ (by omega) hin₃
  have hlen₄ := hin₄.length
  -- the four bytes behind them come from a whole number of offsets back
  have hdec : 4 ≤ offset + dec.getD offset 0 ∧ dec.getD offset 0 ≤ 4 ∧
      ∃ q, 0 < q ∧ offset + dec.getD offset 0 = q * offset := by
    interval_cases offset
    · exact ⟨by decide, by decide, 4, by decide, by decide⟩
    · exact ⟨by decide, by decide, 2, by decide, by decide⟩
    · exact ⟨by decide, by decide, 2, by decide, by decide⟩
    all_goals exact ⟨by decide, by decide, 1, by decide, by decide⟩
  obtain ⟨hfour, hdec4, q, hq, hmul⟩ := hdec
  have hlen4 := hlen 4
  have hfour' : backCopy offset 4 out <+: m₄ := hpre₄
  obtain ⟨m₅, hm₅, hpre₅, hin₅⟩ := move_backCopy (n := 4) hfour'
    (by omega : 0 < offset + dec.getD offset 0) (by omega) hfour (by omega)
  have hfrom : (backCopy offset 4 out).length - (offset + dec.getD offset 0) =
      out.length - offset + 4 - dec.getD offset 0 := by omega
  rw [hfrom, hlen4] at hm₅
  rw [hmul, backCopy_mul hpos hle hq (by omega)] at hpre₅
  have hd : out.length - (out.length - offset) = offset := by omega
  refine ⟨m₅, ?_, hpre₅, hin₄.trans (hin₅.mono (by omega))⟩
  rw [copyFirst, if_pos (by omega), hd]
  simp only [Nat.add_zero] at hm₁ hm₂ hm₃ hm₄
  simp only [bind, Except.bind, pure, Except.pure, hm₁, hm₂, hm₃, hm₄, hm₅,
    ref_corrected hlt hle]

/-- The first eight bytes from no distance: whatever the output holds there. -/
private theorem copyFirst_zero {out dest : List UInt8} (h : out <+: dest)
    (hroom : out.length + 8 ≤ dest.length) :
    ∃ dest' cells, copyFirst dest out.length out.length =
        .ok (dest', out.length + 4, out.length + 8) ∧
      out ++ cells <+: dest' ∧ cells.length = 8 ∧ Within (out.length + 8) dest dest' := by
  have hself {mem cells : List UInt8} (n : Nat) (hpre : out ++ cells <+: mem) (k : Nat)
      (hn : cells.length = n) (hk : n + k ≤ 8) (hmem : Within (out.length + 8) dest mem) :
      ∃ mem' cells', move mem (out.length + n) (out.length + n) k = .ok mem' ∧
        out ++ cells' <+: mem' ∧ cells'.length = n + k ∧
        Within (out.length + 8) dest mem' := by
    have hlen : (out ++ cells).length = out.length + n := by rw [List.length_append, hn]
    have hsize := hmem.length
    obtain ⟨mem', more, hmove, hpre', hmore, hwithin⟩ := move_safe (n := k) hpre
      (s := out.length + n) (by omega) (by omega)
    rw [hlen] at hmove
    rw [List.append_assoc] at hpre'
    exact ⟨mem', cells ++ more, hmove, hpre', by rw [List.length_append, hn, hmore],
      hmem.trans (hwithin.mono (by omega))⟩
  obtain ⟨m₁, c₁, hm₁, hpre₁, hc₁, hin₁⟩ :=
    @hself dest [] 0 (by rw [List.append_nil]; exact h) 1 rfl (by omega) (Within.refl _ _)
  obtain ⟨m₂, c₂, hm₂, hpre₂, hc₂, hin₂⟩ := hself 1 hpre₁ 1 hc₁ (by omega) hin₁
  obtain ⟨m₃, c₃, hm₃, hpre₃, hc₃, hin₃⟩ := hself 2 hpre₂ 1 hc₂ (by omega) hin₂
  obtain ⟨m₄, c₄, hm₄, hpre₄, hc₄, hin₄⟩ := hself 3 hpre₃ 1 hc₃ (by omega) hin₃
  obtain ⟨m₅, c₅, hm₅, hpre₅, hc₅, hin₅⟩ := hself 4 hpre₄ 4 hc₄ (by omega) hin₄
  have hdec : dec.getD 0 0 = 0 := rfl
  have hdec2 : dec2table.getD 0 0 = 0 := rfl
  refine ⟨m₅, c₅, ?_, hpre₅, hc₅, hin₅⟩
  rw [copyFirst, if_pos (by omega), Nat.sub_self, hdec, hdec2, Nat.sub_zero]
  simp only [Nat.add_zero] at hm₁
  simp only [bind, Except.bind, pure, Except.pure, hm₁, hm₂, hm₃, hm₄, hm₅, Int.sub_zero,
    Int.toNat_natCast]

/-- The spread distances are whole numbers of offsets, and eight or more. -/
private theorem spread_spec {d : Nat} (hpos : 0 < d) (hlt : d < 8) :
    8 ≤ spread d ∧ spread d ≤ d + 8 ∧ ∃ q, 0 < q ∧ spread d = q * d := by
  interval_cases d
  · exact ⟨by decide, by decide, 8, by decide, by decide⟩
  · exact ⟨by decide, by decide, 4, by decide, by decide⟩
  · exact ⟨by decide, by decide, 3, by decide, by decide⟩
  all_goals exact ⟨by decide, by decide, 2, by decide, by decide⟩

/-- The first eight bytes of a copy, however close it starts. -/
theorem copyFirst_spec {offset : Nat} {out dest : List UInt8} (h : out <+: dest)
    (hle : offset ≤ out.length) (hroom : out.length + 8 ≤ dest.length) :
    ∃ dest' far, copyFirst dest (out.length - offset) out.length =
        .ok (dest', out.length + 8 - far, out.length + 8) ∧
      Repeats offset far out dest' 8 ∧ Within (out.length + 8) dest dest' := by
  rcases Nat.eq_zero_or_pos offset with rfl | hpos
  · obtain ⟨dest', cells, hcopy, hpre, hcells, hlen⟩ := copyFirst_zero h hroom
    refine ⟨dest', 4, hcopy, ⟨out ++ cells, hpre, List.prefix_append _ _, ?_, ?_, ?_⟩, hlen⟩
    · rw [List.length_append, hcells]
    · rw [List.length_append, hcells]
      omega
    · intro h0
      exact absurd h0 (Nat.lt_irrefl 0)
  · have hback := length_backCopy hpos hle 8
    by_cases hlt : offset < 8
    · obtain ⟨hfar, hreach, hmul⟩ := spread_spec hpos hlt
      obtain ⟨dest', hcopy, hpre, hlen⟩ := copyFirst_near h hpos hlt hle hroom
      exact ⟨dest', spread offset, hcopy, ⟨_, hpre, prefix_backCopy _ _ _, hback, by omega,
        fun _ ↦ ⟨rfl, hfar, hreach, hmul⟩⟩, hlen⟩
    · obtain ⟨dest', hmove, hpre, hlen⟩ := move_backCopy h hpos hle (by omega : 8 ≤ offset) hroom
      refine ⟨dest', offset, ?_, ⟨_, hpre, prefix_backCopy _ _ _, hback, by omega,
        fun _ ↦ ⟨rfl, by omega, by omega, 1, by omega, by omega⟩⟩, hlen⟩
      have hfrom : out.length - offset + 8 = out.length + 8 - offset := by omega
      rw [copyFirst, if_neg (by omega), hmove]
      simp only [bind, Except.bind, pure, Except.pure, hfrom]

/-- A copy goes on by packets. -/
theorem Repeats.moveWhile {k : Nat} [NeZero k] {offset far n e : Nat} {out dest : List UInt8}
    (h : Repeats offset far out dest n) (hle : offset ≤ out.length) (hk : k ≤ 8)
    (hroom : out.length + n < e → e - 1 + k ≤ dest.length) :
    ∃ dest' m, moveWhile k dest (out.length + n - far) (out.length + n) e =
        .ok (dest', out.length + m - far, out.length + m) ∧
      Repeats offset far out dest' m ∧ Within (out.length + m) dest dest' ∧ n ≤ m ∧
      e ≤ out.length + m ∧ (m = n ∨ out.length + m ≤ e - 1 + k) := by
  obtain ⟨w, hpre, hout, hw, hfar, hrep⟩ := h
  by_cases hmore : out.length + n < e
  · have hroom := hroom hmore
    rcases Nat.eq_zero_or_pos offset with rfl | hpos
    · obtain ⟨dest', m, cells, hrun, hpre', hcells, hwithin, hend, hm⟩ := moveUpTo_safe (k := k)
        (s := w.length - far) (e := e) hpre (by omega) (by omega)
      refine ⟨dest', n + m, ?_, ⟨w ++ cells, hpre', hout.trans (List.prefix_append _ _), ?_, ?_,
        ?_⟩, hwithin.mono (by omega), by omega, by omega, .inr (by omega)⟩
      · have hfrom : w.length - far + m = out.length + (n + m) - far := by omega
        rw [Memory.moveWhile, if_pos hmore, ← hw, hrun, hfrom, hw, Nat.add_assoc]
      · rw [List.length_append, hcells]
        omega
      · rw [List.length_append]
        omega
      · intro h0
        exact absurd h0 (Nat.lt_irrefl 0)
    · obtain ⟨rfl, h8, hreach, q, hq, rfl⟩ := hrep hpos
      obtain ⟨dest', m, hrun, hpre', hwithin, hend, hm⟩ := moveUpTo_extends (k := k) (e := e) hpre
        (by omega) hfar (by omega)
      rw [backCopy_mul hpos hle hq hreach] at hpre'
      have hback := length_backCopy hpos hle (n + m)
      refine ⟨dest', n + m, ?_, ⟨_, hpre', prefix_backCopy _ _ _, hback, by omega,
        fun _ ↦ ⟨rfl, h8, by omega, q, hq, rfl⟩⟩, hwithin.mono (by omega), by omega, by omega,
        .inr (by omega)⟩
      have hfrom : out.length + n - q * offset + m = out.length + (n + m) - q * offset := by omega
      rw [hw] at hrun
      rw [Memory.moveWhile, if_pos hmore, hrun, hfrom, Nat.add_assoc]
  · refine ⟨dest, n, ?_, ⟨w, hpre, hout, hw, hfar, hrep⟩, Within.refl _ _, Nat.le_refl _,
      by omega, .inl rfl⟩
    rw [Memory.moveWhile, if_neg hmore]

/-- A copy that has gone far enough has been made. -/
theorem Repeats.copied {offset far n length : Nat} {out dest : List UInt8}
    (h : Repeats offset far out dest n) (hle : offset ≤ out.length) (hn : length ≤ n) :
    ∃ out', Copied offset length out out' ∧ out' <+: dest ∧
      out'.length = out.length + length := by
  obtain ⟨w, hpre, ⟨cells, rfl⟩, hw, -, hrep⟩ := h
  rw [List.length_append] at hw
  rcases Nat.eq_zero_or_pos offset with rfl | hpos
  · have hlen : (cells.take length).length = length := List.length_take_of_le (by omega)
    refine ⟨out ++ cells.take length, ?_, ?_, by rw [List.length_append, hlen]⟩
    · exact ⟨cells.take length, hlen, rfl⟩
    · exact (List.prefix_append_right_inj out |>.mpr (List.take_prefix _ _)).trans hpre
  · obtain ⟨hback, -⟩ := hrep hpos
    refine ⟨backCopy offset length out, ?_, ?_, length_backCopy hpos hle _⟩
    · rw [Copied, if_neg (by omega)]
    · exact (backCopy_mono offset hn out).trans (hback ▸ hpre)

/-! ### One turn of the loop -/

/-- A turn of the loop against what the format says of the sequence at `ip`. -/
inductive Follows (src : List UInt8) (ip : Nat) (dest out : List UInt8) :
    Parse → Except Trap Decoder.Next → Prop
  | overflow : Follows src ip dest out .overflow (.error .intOverflow)
  | refused {ip' : Nat} {dest' : List UInt8} : dest'.length = dest.length → ip < ip' →
      ip' ≤ src.length →
      Follows src ip dest out (.refused (src.drop ip')) (.ok (outputError ip' dest'))
  | last {literals dest' : List UInt8} : Within (out ++ literals).length dest dest' →
      out ++ literals <+: dest' →
      Follows src ip dest out (.last literals)
        (.ok (.inr (((out ++ literals).length : Int), dest')))
  | full {literals unread out' dest' : List UInt8} {offset length : Nat} :
      Copied offset length (out ++ literals) out' → out' <+: dest' →
        dest'.length = dest.length → out'.length = dest.length →
          Follows src ip dest out (.copy literals offset length unread)
            (.ok (.inr ((out'.length : Int), dest')))
  | next {literals out' dest' : List UInt8} {offset length ip' : Nat} :
      Copied offset length (out ++ literals) out' → out' <+: dest' →
        Within (out'.length + 7) dest dest' → out'.length ≠ dest.length → ip < ip' →
          ip' ≤ src.length →
            Follows src ip dest out (.copy literals offset length (src.drop ip'))
              (.ok (.inl ⟨ip', out'.length, dest'⟩))

/-- A repeated sequence is copied if the output has room for it. -/
theorem repeatSequence_spec {offset ip length : Nat} {out dest : List UInt8} (h : out <+: dest)
    (hle : offset ≤ out.length) (hroom : out.length + 8 ≤ dest.length) :
    (dest.length < out.length + (length + minMatch) ∧
      ∃ dest', dest'.length = dest.length ∧
        repeatSequence ip dest (out.length - offset) out.length length =
          .ok (outputError ip dest')) ∨
    (out.length + (length + minMatch) ≤ dest.length ∧
      ∃ out' dest', Copied offset (length + minMatch) out out' ∧ out' <+: dest' ∧
        Within (out'.length + 7) dest dest' ∧
        out'.length = out.length + (length + minMatch) ∧
        repeatSequence ip dest (out.length - offset) out.length length =
          .ok (if out'.length = dest.length then .inr ((out'.length : Int), dest')
            else .inl ⟨ip, out'.length, dest'⟩)) := by
  obtain ⟨d₁, far, hfirst, hrep₁, hin₁⟩ := copyFirst_spec h hle hroom
  have hlen₁ := hin₁.length
  have h4 : minMatch = 4 := rfl
  have hcpy : out.length + 8 + length - 4 = out.length + (length + minMatch) := by
    rw [minMatch]
    omega
  by_cases hfull : dest.length < out.length + (length + minMatch)
  · refine .inl ⟨hfull, d₁, hlen₁, ?_⟩
    rw [repeatSequence, hfirst]
    simp only [bind, Except.bind, pure, Except.pure, hcpy, hlen₁]
    rw [if_pos (by rw [copyLength]; omega), if_pos hfull]
  · refine .inr ⟨by omega, ?_⟩
    by_cases hnear : dest.length < out.length + (length + minMatch) + copyLength
    · -- near the end of the output the last bytes are copied one by one
      obtain ⟨d₂, m₂, hrun₂, hrep₂, hin₂, -, -, hm₂⟩ := hrep₁.moveWhile (k := 8)
        (e := dest.length - copyLength) hle (Nat.le_refl 8) (by rw [copyLength]; omega)
      have hlen₂ := hin₂.length
      obtain ⟨d₃, m₃, hrun₃, hrep₃, hin₃, -, hend₃, hm₃⟩ := hrep₂.moveWhile (k := 1)
        (e := out.length + (length + minMatch)) hle (by omega) (by omega)
      have hlen₃ := hin₃.length
      obtain ⟨out', hcopied, hpre, hlen'⟩ := hrep₃.copied hle
        (by omega : length + minMatch ≤ m₃)
      rw [copyLength] at hm₂
      refine ⟨out', d₃, hcopied, hpre, ((hin₁.mono ?_).trans (hin₂.mono ?_)).trans
        (hin₃.mono ?_), hlen', ?_⟩
      · omega
      · rw [copyLength] at hnear
        omega
      · rw [copyLength] at hnear
        omega
      rw [repeatSequence, hfirst]
      simp only [bind, Except.bind, pure, Except.pure, hcpy, hlen₁, secureCopy, byteCopy, hrun₂,
        hrun₃, hlen₃, hlen₂, hlen']
      rw [if_pos hnear, if_neg hfull]
      split <;> rfl
    · obtain ⟨d₂, m₂, hrun₂, hrep₂, hin₂, -, hend₂, hm₂⟩ := hrep₁.moveWhile (k := 8)
        (e := out.length + (length + minMatch)) hle (Nat.le_refl 8) (by
          rw [copyLength] at hnear
          omega)
      obtain ⟨out', hcopied, hpre, hlen'⟩ := hrep₂.copied hle
        (by omega : length + minMatch ≤ m₂)
      refine ⟨out', d₂, hcopied, hpre, (hin₁.mono (by omega)).trans (hin₂.mono (by omega)), hlen',
        ?_⟩
      rw [copyLength] at hnear
      rw [repeatSequence, hfirst]
      simp only [bind, Except.bind, pure, Except.pure, hcpy, hlen₁, secureCopy, hrun₂, hlen',
        copyLength, if_neg hnear]
      rw [if_neg (by omega)]

/-- The copy behind literals follows the format. -/
theorem matchSequence_follows {src out literals dest₀ dest : List UInt8} {tok : UInt8}
    {ip ip₀ : Nat} (hwithin : Within ((out ++ literals).length + 8) dest₀ dest)
    (h : out ++ literals <+: dest) (hroom : (out ++ literals).length + 8 ≤ dest.length)
    (hip₀ : ip₀ < ip) (hip : ip + 2 ≤ src.length) :
    Follows src ip₀ dest₀ out
      (parseCopy dest.length (out ++ literals).length tok literals (src.drop ip))
      (matchSequence src tok ip (out ++ literals).length dest) := by
  obtain ⟨ip', hle, hle', hrest, hlength⟩ := lengthAt_spec hip
    (Nat.mod_lt tok.toNat (by omega : 16 > 0))
  have hoffset : leNat (load src ip 2) = leNat ((src.drop ip).take 2) := rfl
  have h4 : minMatch = 4 := rfl
  rw [matchSequence, read_eq hip, parseCopy, List.drop_drop]
  simp only [bind, Except.bind, pure, Except.pure, hoffset, hlength, hrest]
  by_cases hfar : (out ++ literals).length < leNat ((src.drop ip).take 2)
  · rw [if_pos hfar, if_pos hfar]
    exact .refused hwithin.length (by omega) hip
  · rw [if_neg hfar, if_neg hfar]
    by_cases hint : intLimit ≤ (readLength (tok.toNat % 16) (src.drop (ip + 2))).1
    · simp only [if_pos hint]
      exact .overflow
    · simp only [if_neg hint]
      rcases @repeatSequence_spec _ ip' (readLength (tok.toNat % 16) (src.drop (ip + 2))).1
        _ _ h (Nat.le_of_not_lt hfar) hroom with
        ⟨hfull, dest', hlen, hrun⟩ | ⟨hfits, out', dest', hcopied, hpre, hin, hlen, hrun⟩
      · rw [if_pos hfull, hrun]
        exact .refused (hlen.trans hwithin.length) (by omega) hle'
      · rw [if_neg (by omega), hrun]
        have hall := (hwithin.mono (by omega)).trans hin
        by_cases hend : out'.length = dest.length
        · rw [if_pos hend]
          exact .full hcopied hpre hall.length (hend.trans hwithin.length)
        · rw [if_neg hend]
          exact .next hcopied hpre hall (hwithin.length ▸ hend) (by omega) hle'

/-- A turn of the loop follows the format. -/
theorem sequence_follows {src out : List UInt8} {s : Decoder} (hip : s.ip < src.length)
    (h : out <+: s.dest) (hop : out.length = s.op) :
    Follows src s.ip s.dest out
      (parseSequence s.dest.length out.length src[s.ip] (src.drop (s.ip + 1)))
      (sequence src s) := by
  obtain ⟨ip, op, dest⟩ := s
  dsimp only at hip h hop ⊢
  subst hop
  have hnibble : (src[ip]).toNat / 16 < 16 := by
    have := (src[ip]).toNat_lt
    omega
  obtain ⟨ip', hle, hle', hrest, hlength⟩ := lengthAt_spec (by omega : ip + 1 ≤ src.length) hnibble
  rw [sequence, readCell_eq hip, parseSequence]
  simp only [bind, Except.bind, pure, Except.pure, hlength, hrest, List.length_drop]
  generalize hn : (readLength ((src[ip]).toNat / 16) (src.drop (ip + 1))).1 = n
  by_cases hint : intLimit ≤ n
  · simp only [if_pos hint]
    exact .overflow
  · simp only [if_neg hint]
    by_cases hnear : dest.length < out.length + n + copyLength ∨ src.length < ip' + n + copyLength
    · have hnear' : dest.length < out.length + n + copyLength ∨
          src.length - ip' < n + copyLength := by omega
      rw [if_pos hnear, if_pos hnear']
      by_cases hbeyond : dest.length < out.length + n ∨ src.length - ip' < n
      · rw [if_pos hbeyond]
        by_cases hout : dest.length < out.length + n
        · rw [if_pos hout]
          exact .refused rfl (by omega) hle'
        · rw [if_neg hout, if_pos (by omega)]
          exact .refused rfl (by omega) hle'
      · have hout : ¬dest.length < out.length + n := by omega
        have hsrc : ¬src.length < ip' + n := by omega
        rw [if_neg hbeyond, if_neg hout, if_neg hsrc]
        obtain ⟨dest', hcopy, hpre, hwithin⟩ := copy_extends h
          (by omega : ip' + n ≤ src.length) (by omega)
        rw [hcopy]
        dsimp only
        by_cases hmore : ip' + n < src.length
        · have hmore' : n < src.length - ip' := by omega
          rw [if_pos hmore, if_pos hmore', List.drop_drop]
          exact .refused hwithin.length (by omega) (by omega)
        · have hall : load src ip' n = src.drop ip' := by
            rw [load]
            exact List.take_of_length_le (by rw [List.length_drop]; omega)
          have hcount : out.length + n = (out ++ src.drop ip').length := by
            rw [List.length_append, List.length_drop]
            omega
          have hmore' : ¬n < src.length - ip' := by omega
          rw [if_neg hmore, if_neg hmore', hcount]
          rw [hall] at hpre
          rw [hcount] at hwithin
          exact .last hwithin hpre
    · have hnear' : ¬(dest.length < out.length + n + copyLength ∨
          src.length - ip' < n + copyLength) := by omega
      rw [if_neg hnear, if_neg hnear']
      rw [copyLength] at hnear
      obtain ⟨dest', m, hcopy, hpre, hwithin, hend, hm⟩ := @copyUpTo_extends _ 8 _ src out dest
        ip' (out.length + n) h (by omega) (by omega)
      have hlen := hwithin.length
      have hback : ip' + m - (out.length + m - (out.length + n)) = ip' + n := by omega
      have hliterals : out ++ load src ip' n <+: dest' := by
        apply (List.prefix_append_right_inj out |>.mpr ?_).trans hpre
        rw [load, load]
        exact List.take_prefix_take_left (by omega)
      have hcount : (out ++ load src ip' n).length = out.length + n := by
        rw [List.length_append, length_load (by omega)]
      have hmatch := @matchSequence_follows src out _ dest dest' src[ip] (ip' + n) ip
        (hwithin.mono (by rw [hcount]; omega)) hliterals (by rw [hcount]; omega) (by omega)
        (by omega)
      rw [wildCopy, hcopy]
      dsimp only
      rw [hback, List.drop_drop]
      rw [hcount, hlen] at hmatch
      exact hmatch

/-! ### The whole run -/

/-- A result against a verdict: the length of the output, or minus the position at which the
input was refused. The output buffer keeps its size, and its cells past the ones written. -/
inductive Ends (isize : Nat) (dest : List UInt8) (high : Nat) :
    Verdict → Except Trap (Int × List UInt8) → Prop
  | decoded {out dest' : List UInt8} : Within high dest dest' → out <+: dest' →
      Ends isize dest high (.decoded out) (.ok ((out.length : Int), dest'))
  | refused {pos : Nat} {dest' : List UInt8} : dest'.length = dest.length → 0 < pos →
      pos ≤ isize → Ends isize dest high (.refused (isize - pos)) (.ok (-(pos : Int), dest'))
  | overflow : Ends isize dest high .overflow (.error .intOverflow)

/-- What came before a run counts with it. -/
theorem Ends.before {isize j high : Nat} {dest₀ dest : List UInt8} {v : Verdict}
    {result : Except Trap (Int × List UInt8)} (h : Ends isize dest high v result)
    (hwithin : Within j dest₀ dest) : Ends isize dest₀ (max j high) v result := by
  cases h with
  | decoded hin hpre =>
    exact .decoded ((hwithin.mono (Nat.le_max_left _ _)).trans (hin.mono (Nat.le_max_right _ _)))
      hpre
  | refused hlen hpos hle => exact .refused (hlen.trans hwithin.length) hpos hle
  | overflow => exact .overflow

/-- From any state the loop decodes the rest of the input. -/
theorem uncompressLoop_decodes {src out : List UInt8} {s : Decoder} {fuel : Nat}
    (hip : s.ip ≤ src.length) (h : out <+: s.dest) (hop : out.length = s.op)
    (hfuel : src.length - s.ip < fuel) :
    ∃ high v, Decodes s.dest.length (src.drop s.ip) out high v ∧
      Ends src.length s.dest high v (uncompressLoop src fuel s) := by
  induction fuel generalizing out s with
  | zero => omega
  | succ fuel ih =>
    rw [uncompressLoop]
    by_cases hmore : s.ip < src.length
    · have hstep := sequence_follows hmore h hop
      rw [if_pos hmore, drop_cons hmore]
      generalize hparse : parseSequence s.dest.length out.length src[s.ip]
        (src.drop (s.ip + 1)) = parse at hstep
      generalize sequence src s = result at hstep
      cases hstep with
      | overflow => exact ⟨0, .overflow, .overflow hparse, .overflow⟩
      | refused hlen hlt hle =>
        refine ⟨0, _, .refused hparse, ?_⟩
        rw [List.length_drop]
        exact .refused hlen (by omega) hle
      | last hwithin hpre => exact ⟨_, _, .last hparse, .decoded hwithin hpre⟩
      | full hcopied hpre hlen hfull =>
        refine ⟨_, _, .full hparse hcopied hfull, .decoded ⟨hlen, ?_⟩ hpre⟩
        rw [List.drop_of_length_le (by omega), List.drop_of_length_le (by omega)]
      | next hcopied hpre hwithin hfull hlt hle =>
        rename_i literals out' dest' offset length ip'
        obtain ⟨high, v, hdec, hends⟩ := ih (s := ⟨ip', out'.length, dest'⟩) hle hpre rfl
          (by dsimp only; omega)
        rw [hwithin.length] at hdec
        exact ⟨_, v, .next hparse hcopied hfull hdec, hends.before hwithin⟩
    · rw [if_neg hmore, List.drop_of_length_le (by omega), ← hop]
      exact ⟨0, _, .finished out, .decoded (Within.refl _ _) h⟩

/-- Whatever the input and the output buffer, the decoder returns what decoding byte by byte
comes to. It accesses nothing outside its buffers, and stops at nothing but a length that does
not fit an `int`. -/
theorem uncompress_decodes (source dest : List UInt8) :
    ∃ high v, Decodes dest.length source [] high v ∧
      Ends source.length dest high v (lz4UncompressUnknownOutputSize source dest) := by
  have hrun := @uncompressLoop_decodes source [] ⟨0, 0, dest⟩ (source.length + 1)
    (Nat.zero_le _) List.nil_prefix rfl (Nat.lt_succ_self _)
  rw [List.drop_zero] at hrun
  exact hrun

/-! ### Lengths that do not fit -/

/-- The longest input none of whose lengths can overflow. -/
def safeInput : Nat := 8421505

theorem readRun_le (bytes : List UInt8) :
    (readRun bytes).1 ≤ 255 * bytes.length ∧ (readRun bytes).2.length ≤ bytes.length := by
  induction bytes with
  | nil => simp [readRun]
  | cons b bytes ih =>
    rw [readRun]
    split
    · simp only [List.length_cons]
      omega
    · have := b.toNat_lt
      simp only [List.length_cons]
      omega

theorem readLength_le {nibble : Nat} (bytes : List UInt8) (h : nibble < 16) :
    (readLength nibble bytes).1 ≤ runMask + 255 * bytes.length ∧
      (readLength nibble bytes).2.length ≤ bytes.length := by
  have hrun := readRun_le bytes
  rw [readLength, runMask]
  split
  · dsimp only
    omega
  · dsimp only
    omega

/-- Only a long input overflows. -/
theorem parseSequence_overflow {cap n : Nat} {tok : UInt8} {bytes : List UInt8}
    (h : parseSequence cap n tok bytes = .overflow) : safeInput ≤ bytes.length := by
  have hnibble := tok.toNat_lt
  have hlimit : intLimit = 2147483648 := rfl
  have hfirst := readLength_le bytes (by omega : tok.toNat / 16 < 16)
  rw [parseSequence] at h
  dsimp only at h
  rw [safeInput]
  rw [runMask] at hfirst
  split at h
  · omega
  · split at h
    · split at h
      · cases h
      · split at h
        · cases h
        · cases h
    · rw [parseCopy] at h
      dsimp only at h
      generalize hrest : ((readLength (tok.toNat / 16) bytes).2.drop
        (readLength (tok.toNat / 16) bytes).1).drop 2 = rest at h
      have hlen := congrArg List.length hrest
      simp only [List.length_drop] at hlen
      have hsecond := readLength_le rest (by omega : tok.toNat % 16 < 16)
      rw [runMask] at hsecond
      split at h
      · cases h
      · split at h
        · omega
        · split at h
          · cases h
          · cases h

theorem parseSequence_unread {cap n : Nat} {tok : UInt8} {bytes literals unread : List UInt8}
    {offset length : Nat}
    (h : parseSequence cap n tok bytes = .copy literals offset length unread) :
    unread.length ≤ bytes.length := by
  have hnibble := tok.toNat_lt
  have hfirst := readLength_le bytes (by omega : tok.toNat / 16 < 16)
  rw [parseSequence] at h
  dsimp only at h
  split at h
  · cases h
  · split at h
    · split at h
      · cases h
      · split at h
        · cases h
        · cases h
    · rw [parseCopy] at h
      dsimp only at h
      generalize hrest : ((readLength (tok.toNat / 16) bytes).2.drop
        (readLength (tok.toNat / 16) bytes).1).drop 2 = rest at h
      have hlen := congrArg List.length hrest
      simp only [List.length_drop] at hlen
      have hsecond := readLength_le rest (by omega : tok.toNat % 16 < 16)
      split at h
      · cases h
      · split at h
        · cases h
        · split at h
          · cases h
          · cases h
            omega

theorem Decodes.safeInput_lt {cap high : Nat} {bytes out : List UInt8} {v : Verdict}
    (h : Decodes cap bytes out high v) (hv : v = .overflow) : safeInput < bytes.length := by
  induction h with
  | finished out => cases hv
  | overflow hparse =>
    have := parseSequence_overflow hparse
    rw [List.length_cons]
    omega
  | refused hparse => cases hv
  | last hparse => cases hv
  | full hparse hcopied hfull => cases hv
  | next hparse hcopied hfull hnext ih =>
    have hunread := parseSequence_unread hparse
    have hlt := ih hv
    rw [List.length_cons]
    omega

/-- A token and then bytes of 255 to the end. -/
def endlessRun (n : Nat) : List UInt8 := 240 :: List.replicate (n - 1) 255

theorem readRun_replicate (n : Nat) : readRun (List.replicate n 255) = (255 * n, []) := by
  induction n with
  | zero => rfl
  | succ n ih =>
    rw [List.replicate_succ, readRun, if_pos rfl, ih]
    congr 1
    ring

/-- The decoder is safe on every input up to `safeInput` bytes, whatever the output buffer: it
returns, with a result between minus the input's size and the output's. On every size beyond,
there is an input whose first length does not fit an `int`. -/
theorem uncompress_safe_iff (n : Nat) :
    (∀ source dest : List UInt8, source.length = n → ∃ r dest',
      lz4UncompressUnknownOutputSize source dest = .ok (r, dest') ∧
        dest'.length = dest.length ∧ -(n : Int) ≤ r ∧ r ≤ dest.length) ↔ n ≤ safeInput := by
  constructor
  · intro h
    by_contra hn
    obtain ⟨r, dest', hrun, -⟩ := h (endlessRun n) [] (by
      rw [endlessRun, List.length_cons, List.length_replicate]
      omega)
    obtain ⟨high, v, hdec, hends⟩ := uncompress_decodes (endlessRun n) []
    rw [hrun] at hends
    have hlimit : intLimit = 2147483648 := rfl
    have hparse : parseSequence 0 0 240 (List.replicate (n - 1) 255) = .overflow := by
      have hnibble : (240 : UInt8).toNat / 16 = runMask := by decide
      rw [parseSequence, hnibble, readLength, if_pos rfl, readRun_replicate]
      dsimp only
      rw [safeInput] at hn
      rw [if_pos (by rw [runMask]; omega)]
    have hv : v = .overflow := by
      cases hdec with
      | overflow h => rfl
      | _ h => rw [List.length_nil, hparse] at h; cases h
    subst hv
    cases hends
  · intro hn source dest hlen
    obtain ⟨high, v, hdec, hends⟩ := uncompress_decodes source dest
    generalize lz4UncompressUnknownOutputSize source dest = result at hends
    cases hends with
    | decoded hwithin hpre =>
      have hle := hpre.length_le
      have hdest := hwithin.length
      exact ⟨_, _, rfl, hdest, by omega, by omega⟩
    | refused hdest hpos hle => exact ⟨_, _, rfl, hdest, by omega, by omega⟩
    | overflow =>
      have := hdec.safeInput_lt rfl
      omega

end Mema.Lz4
