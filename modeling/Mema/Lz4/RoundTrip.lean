import Mema.Lz4.Writing

/-!
# Compression is undone by decompression

What the compressor's control keeps from label to label: sequences that expand to the source
up to the anchor, written as the format has them, and table entries before the position. So a
compression into a buffer of the bound's size ends with a well-formed block for the source.
-/

namespace Mema.Lz4

open Bytes Memory

/-! ### The sequences so far -/

theorem validFrom_append {ss : List Sequence} {s : Sequence} {out : List UInt8}
    (h : ValidFrom out.length ss) (hs : s.Valid (ss.foldl Sequence.apply out).length) :
    ValidFrom out.length (ss ++ [s]) := by
  induction ss generalizing out with
  | nil => exact ⟨hs, trivial⟩
  | cons t ss ih =>
    obtain ⟨ht, hss⟩ := h
    rw [← Sequence.length_apply ht rfl] at hss
    have hrec := ih hss hs
    rw [Sequence.length_apply ht rfl] at hrec
    exact ⟨ht, hrec⟩

/-- Sequences that stand for the source up to the anchor. -/
structure Sofar (src : List UInt8) (ss : List Sequence) (anchor : Nat) : Prop where
  valid : ValidFrom 0 ss
  expands : ss.foldl Sequence.apply [] = src.take anchor
  fits : anchor ≤ src.length

/-- The sequence for a match of `n` bytes behind the literals from the anchor on. -/
def matched (src : List UInt8) (anchor ip ref n : Nat) : Sequence :=
  ⟨load src anchor (ip - anchor), ip - ref, n⟩

namespace Sofar

variable {src : List UInt8} {ss : List Sequence} {anchor : Nat}

theorem empty (src : List UInt8) : Sofar src [] 0 := ⟨trivial, rfl, Nat.zero_le _⟩

/-- Sequences are at most one byte in 255 longer than what they stand for. -/
theorem length_le (h : Sofar src ss anchor) :
    (ss.flatMap Sequence.encode).length ≤ anchor + anchor / 255 := by
  have hlen := @length_sequences_le ss [] h.valid
  rw [h.expands, List.length_take_of_le h.fits] at hlen
  exact hlen

/-- A match extends the sequences past it. -/
theorem append (h : Sofar src ss anchor) {ip ref n : Nat} (hanchor : anchor ≤ ip)
    (href : ref < ip) (hnear : ip ≤ ref + maxDistance) (hsame : Same src ref ip n)
    (hlong : minMatch ≤ n) (hn : ip + n ≤ src.length) :
    Sofar src (ss ++ [matched src anchor ip ref n]) (ip + n) := by
  have hlits : (load src anchor (ip - anchor)).length = ip - anchor := length_load (by omega)
  have hlen : (src.take anchor).length = anchor := List.length_take_of_le h.fits
  have hdist : maxDistance = 65535 := rfl
  refine ⟨?_, ?_, hn⟩
  · apply @validFrom_append ss _ [] h.valid
    rw [h.expands, hlen]
    refine ⟨?_, ?_, ?_, hlong⟩
    · show 0 < ip - ref
      omega
    · show ip - ref ≤ anchor + (load src anchor (ip - anchor)).length
      rw [hlits]
      omega
    · show ip - ref < 256 ^ 2
      omega
  · have htake : src.take anchor ++ load src anchor (ip - anchor) = src.take ip := by
      rw [load, ← List.take_add]
      congr 1
      omega
    rw [List.foldl_append, h.expands]
    show backCopy (ip - ref) n (src.take anchor ++ load src anchor (ip - anchor)) = _
    have hback : ip - (ip - ref) = ref := by omega
    rw [htake]
    apply backCopy_take (by omega) (by omega) hn
    rw [hback]
    exact hsame

end Sofar

/-- The bytes of one more sequence. -/
theorem flatMap_encode_append (ss : List Sequence) (s : Sequence) :
    (ss ++ [s]).flatMap Sequence.encode = ss.flatMap Sequence.encode ++
      token s.literals.length (s.length - minMatch) :: (lengthBytes s.literals.length ++
        s.literals ++ leBytes 2 s.offset ++ lengthBytes (s.length - minMatch)) := by
  rw [List.flatMap_append, List.flatMap_singleton, Sequence.encode]

/-! ### The control -/

/-- What holds at each label: what is written, and where the table's positions are. -/
inductive Inv (src : List UInt8) (cap : Nat) : Compressor → Prop
  | mainLoop {ss : List Sequence} {table : Table} {out : Out} {anchor h : Nat} :
      Sofar src ss anchor → out.Holds (ss.flatMap Sequence.encode) cap →
      anchor + mfLimit ≤ src.length → Below table (anchor + 1) →
      Inv src cap ⟨table, out, .mainLoop (anchor + 1) anchor h⟩
  | nextMatch {ss : List Sequence} {table : Table} {out : Out} {anchor ip ref k : Nat} :
      Sofar src ss anchor → anchor ≤ ip →
      out.Holds (ss.flatMap Sequence.encode ++ token (ip - anchor) 0 ::
        (lengthBytes (ip - anchor) ++ load src anchor (ip - anchor))) cap →
      ref < ip → ip ≤ ref + maxDistance → Same src ref ip (minMatch + k) →
      ip + (minMatch + k) + lastLiterals ≤ src.length → Below table (ip + k + 1) →
      Inv src cap ⟨table, out, .nextMatch ip ref (ss.flatMap Sequence.encode).length⟩
  | lastLiterals {ss : List Sequence} {table : Table} {out : Out} {anchor : Nat} :
      Sofar src ss anchor → out.Holds (ss.flatMap Sequence.encode) cap →
      (ss ≠ [] → anchor + lastLiterals ≤ src.length) →
      Inv src cap ⟨table, out, .lastLiterals anchor⟩

/-- How many turns the control may still take. -/
def Label.turns (isize : Nat) : Label → Nat
  | .mainLoop _ anchor _ => 2 * (isize - anchor) + 2
  | .nextMatch ip _ _ => 2 * (isize - ip) + 1
  | .lastLiterals _ => 1

/-- A finished compression: the bytes of a well-formed block for the source. -/
structure Compressed (src : List UInt8) (cap : Nat) (result : Nat × List UInt8) (b : Block) :
    Prop where
  wellFormed : b.WellFormed
  expands : b.expand = src
  written : b.encode <+: result.2
  length : result.1 = b.encode.length
  size : result.2.length = cap

/-- What a turn may come to. -/
inductive Turned (src : List UInt8) (cap turns : Nat) : Except Trap Compressor.Next → Prop
  | next {c : Compressor} : Inv src cap c → c.label.turns src.length < turns →
      Turned src cap turns (.ok (.inl c))
  | done {result : Nat × List UInt8} {b : Block} : Compressed src cap result b →
      Turned src cap turns (.ok (.inr result))

namespace Variant

variable {v : Variant} {src : List UInt8} {cap : Nat}

/-- From the main loop the control goes to a match or to the last literals. -/
theorem mainLoop_turned (hv : v.Serves src.length) (hcap : lz4CompressBound src.length ≤ cap)
    {ss : List Sequence} {table : Table} {out : Out} {anchor h : Nat}
    (hsofar : Sofar src ss anchor) (hout : out.Holds (ss.flatMap Sequence.encode) cap)
    (hend : anchor + mfLimit ≤ src.length) (hbelow : Below table (anchor + 1)) :
    Turned src cap (2 * (src.length - anchor) + 2)
      (v.mainLoop src (lz4CompressBound src.length) table out (anchor + 1) anchor h) := by
  have h12 : mfLimit = 12 := rfl
  have h5 : lastLiterals = 5 := rfl
  have h4 : minMatch = 4 := rfl
  have hw := hsofar.length_le
  rw [lz4CompressBound] at hcap ⊢
  rcases @Variant.findMatch_spec src v 0 (anchor + 1) h table hbelow with hnone |
    ⟨ip, ref, table', hfind, hle, hroom, href, hbelow', hnear, hsame⟩
  · rw [mainLoop, hnone]
    exact .next (.lastLiterals hsofar hout fun _ ↦ by omega) (by
      show 1 < _
      omega)
  · obtain ⟨k, hcatch, hk, hkref, hback⟩ := catchUp_spec (by omega) (Nat.le_of_lt href)
      (by omega : anchor ≤ ip) hsame
    obtain ⟨out', hput, hholds⟩ := hout.putLiterals_spec (by omega : anchor ≤ ip - k)
      (by omega : ip - k + 8 ≤ src.length) (by omega : _ < src.length + src.length / 255 + 16)
      (by omega)
    rw [mainLoop, hfind]
    simp only [bind, Except.bind, pure, Except.pure, hcatch, hput]
    rw [hout.op]
    have hnear' := hv.near ip ref (by omega) hnear
    rw [Nat.add_comm k 4, ← h4] at hback
    exact .next (.nextMatch (k := k) hsofar (by omega) hholds (by omega) (by omega) hback
      (by omega) (hbelow'.le (by omega))) (by
        show 2 * (src.length - (ip - k)) + 1 < _
        omega)

/-- Behind a match the control goes to the next match, the main loop or the last literals. -/
theorem afterMatch_turned (hv : v.Serves src.length)
    (hcap : lz4CompressBound src.length ≤ cap) {ss : List Sequence} {table : Table} {out : Out}
    {ip : Nat} (hsofar : Sofar src ss ip) (hout : out.Holds (ss.flatMap Sequence.encode) cap)
    (hfive : ip + lastLiterals ≤ src.length) (hfour : minMatch ≤ ip) (hbelow : Below table ip) :
    Turned src cap (2 * (src.length - ip) + 3) (v.afterMatch src table out ip) := by
  have h12 : mfLimit = 12 := rfl
  have h5 : lastLiterals = 5 := rfl
  have h4 : minMatch = 4 := rfl
  have hw := hsofar.length_le
  rw [lz4CompressBound] at hcap
  rw [afterMatch]
  by_cases hend : src.length < ip + mfLimit
  · rw [if_pos hend]
    exact .next (.lastLiterals hsofar hout fun _ ↦ hfive) (by
      show 1 < _
      omega)
  · obtain ⟨h₁, hh₁⟩ := v.hashValue_spec (by omega : ip - 2 + 4 ≤ src.length)
    obtain ⟨h₂, hh₂⟩ := v.hashValue_spec (by omega : ip + 4 ≤ src.length)
    obtain ⟨h₃, hh₃⟩ := v.hashValue_spec (by omega : ip + 1 + 4 ≤ src.length)
    have hput := hbelow.put v h₁ (by omega : ip - 2 < ip)
    have hput' := (hput.le (Nat.le_succ ip)).put v h₂ (Nat.lt_succ_self ip)
    have href := hput h₂
    obtain ⟨b, haccepts, hb⟩ := v.accepts_spec (by omega : ip + 4 ≤ src.length) (Nat.le_of_lt href)
    rw [if_neg hend, hh₁]
    simp only [bind, Except.bind, pure, Except.pure, hh₂, haccepts]
    cases b with
    | true =>
      obtain ⟨hnear, hsame⟩ := hb rfl
      obtain ⟨out', hzero, hholds⟩ := hout.put_spec 0 (by omega)
      have hempty : [(0 : UInt8)] = token (ip - ip) 0 ::
          (lengthBytes (ip - ip) ++ load src ip (ip - ip)) := by
        rw [Nat.sub_self, load, List.take_zero]
        rfl
      rw [hempty] at hholds
      simp only [↓reduceIte, hzero, hout.op]
      exact .next (.nextMatch (k := 0) hsofar (Nat.le_refl ip) hholds href
        (hv.near ip _ (by omega) hnear) hsame (by omega) hput') (by
          show 2 * (src.length - ip) + 1 < _
          omega)
    | false =>
      simp only [Bool.false_eq_true, ↓reduceIte, hh₃]
      exact .next (.mainLoop hsofar hout (by omega) hput') (by
        show 2 * (src.length - ip) + 2 < _
        omega)

/-- A match is counted and written, and the control goes on behind it. -/
theorem nextMatch_turned (hv : v.Serves src.length) (hcap : lz4CompressBound src.length ≤ cap)
    {ss : List Sequence} {table : Table} {out : Out} {anchor ip ref k : Nat}
    (hsofar : Sofar src ss anchor) (hanchor : anchor ≤ ip)
    (hout : out.Holds (ss.flatMap Sequence.encode ++ token (ip - anchor) 0 ::
      (lengthBytes (ip - anchor) ++ load src anchor (ip - anchor))) cap)
    (href : ref < ip) (hnear : ip ≤ ref + maxDistance) (hsame : Same src ref ip (minMatch + k))
    (hend : ip + (minMatch + k) + lastLiterals ≤ src.length) (hbelow : Below table (ip + k + 1)) :
    Turned src cap (2 * (src.length - ip) + 1)
      (v.nextMatch src table out ip ref (ss.flatMap Sequence.encode).length) := by
  have h5 : lastLiterals = 5 := rfl
  have h4 : minMatch = 4 := rfl
  have hw := hsofar.length_le
  have hcap' := hcap
  rw [lz4CompressBound] at hcap'
  have hlits : (load src anchor (ip - anchor)).length = ip - anchor := length_load (by omega)
  have hle : (leBytes 2 (ip - ref)).length = 2 := length_leBytes 2 _
  obtain ⟨m, hcount, hcounted⟩ := countMatch_spec
    (by omega : ref + minMatch ≤ ip + minMatch) (by omega : _ ≤ src.length)
  have hm := hcounted.fits
  have hkm := hcounted.longest hsame.drop (by omega)
  have hall : Same src ref ip (minMatch + m) :=
    (hsame.le (Nat.le_add_right _ k)).append hcounted.same
  have hsofar' := hsofar.append hanchor href hnear hall (Nat.le_add_right _ _) (by omega)
  have hencode := Sequence.length_encode_le (n := anchor) (s := matched src anchor ip ref
    (minMatch + m)) ⟨by show 0 < ip - ref; omega, by
      show ip - ref ≤ anchor + (load src anchor (ip - anchor)).length
      rw [hlits]
      omega, by
      show ip - ref < 256 ^ 2
      rw [maxDistance] at hnear
      omega, Nat.le_add_right _ _⟩
  simp only [matched, Sequence.encode, List.length_cons, List.length_append, hlits, hle,
    length_lengthBytes, Nat.add_sub_cancel_left] at hencode
  obtain ⟨out₁, hoffset, hholds₁⟩ := @Out.Holds.puts_spec out _ cap hout
    (leBytes 2 (ip - ref)) (by
      simp only [List.length_append, List.length_cons, hlits, hle, length_lengthBytes]
      omega)
  rw [List.append_assoc, List.cons_append] at hholds₁
  obtain ⟨out₂, hlength, hholds₂⟩ := hholds₁.putMatchLength_spec (n := m) (by
    simp only [List.length_append, hlits, hle, length_lengthBytes]
    omega)
  have hwritten : (ss ++ [matched src anchor ip ref (minMatch + m)]).flatMap Sequence.encode =
      ss.flatMap Sequence.encode ++ token (ip - anchor) m :: (lengthBytes (ip - anchor) ++
        load src anchor (ip - anchor) ++ leBytes 2 (ip - ref) ++ lengthBytes m) := by
    rw [flatMap_encode_append]
    simp only [matched, hlits, Nat.add_sub_cancel_left]
  rw [← hwritten] at hholds₂
  rw [← Nat.add_assoc] at hsofar'
  have hafter := v.afterMatch_turned hv hcap hsofar' hholds₂ hm (by omega)
    (hbelow.le (by omega))
  have hcancel : ip + minMatch + m - (ip + minMatch) = m := by omega
  rw [nextMatch, hoffset]
  simp only [bind, Except.bind, hcount, hcancel, hlength]
  generalize v.afterMatch src table out₂ (ip + minMatch + m) = result at hafter
  cases hafter with
  | next hinv hturns => exact .next hinv (by omega)
  | done hdone => exact .done hdone

/-- The last literals end a well-formed block. -/
theorem encodeLastLiterals_turned (hv : v.Serves src.length)
    (hcap : lz4CompressBound src.length ≤ cap) {ss : List Sequence} {out : Out} {anchor : Nat}
    (hsofar : Sofar src ss anchor) (hout : out.Holds (ss.flatMap Sequence.encode) cap)
    (hfive : ss ≠ [] → anchor + lastLiterals ≤ src.length) :
    Turned src cap 1 (v.encodeLastLiterals src (lz4CompressBound src.length) out anchor) := by
  have hw := hsofar.length_le
  have hfits := hsofar.fits
  have htail := hv.tail (src.length - anchor)
  rw [lz4CompressBound] at hcap ⊢
  obtain ⟨out', hput, hholds⟩ := hout.putLength_spec (n := src.length - anchor) (by omega)
  have hlen : (ss.flatMap Sequence.encode ++ token (src.length - anchor) 0 ::
      lengthBytes (src.length - anchor)).length =
        (ss.flatMap Sequence.encode).length + 1 + (src.length - anchor + 240) / 255 := by
    simp only [List.length_append, List.length_cons, length_lengthBytes]
    omega
  obtain ⟨dest, hcopy, hpre, hwithin⟩ := copy_extends hholds.written
    (by omega : anchor + (src.length - anchor) ≤ src.length) (by
      rw [hholds.size, hlen]
      omega)
  have hall : load src anchor (src.length - anchor) = src.drop anchor := by
    rw [load]
    exact List.take_of_length_le (by rw [List.length_drop])
  have hencode : (⟨ss, src.drop anchor⟩ : Block).encode = ss.flatMap Sequence.encode ++
      token (src.length - anchor) 0 :: lengthBytes (src.length - anchor) ++
        load src anchor (src.length - anchor) := by
    rw [Block.encode, hall]
    simp only [List.length_drop, List.append_assoc, List.cons_append]
  rw [← hencode] at hpre
  rw [encodeLastLiterals, if_neg (by rw [hout.op]; omega), hput]
  rw [← hholds.op] at hcopy
  simp only [bind, Except.bind, pure, Except.pure, hcopy]
  refine .done (b := ⟨ss, src.drop anchor⟩) ⟨⟨hsofar.valid, ?_⟩, ?_, hpre, ?_,
    hwithin.length.trans hholds.size⟩
  · intro hne
    have := hfive hne
    rw [List.length_drop]
    omega
  · rw [Block.expand, hsofar.expands, List.take_append_drop]
  · rw [hencode, List.length_append, hholds.op, length_load (by omega)]

/-- Every turn keeps the invariant and brings the end nearer. -/
theorem step_turned (hv : v.Serves src.length) (hcap : lz4CompressBound src.length ≤ cap)
    {c : Compressor} (h : Inv src cap c) :
    Turned src cap (c.label.turns src.length) (v.step src (lz4CompressBound src.length) c) := by
  cases h with
  | mainLoop hsofar hout hend hbelow => exact v.mainLoop_turned hv hcap hsofar hout hend hbelow
  | nextMatch hsofar hanchor hout href hnear hsame hend hbelow =>
    exact v.nextMatch_turned hv hcap hsofar hanchor hout href hnear hsame hend hbelow
  | lastLiterals hsofar hout hfive =>
    exact v.encodeLastLiterals_turned hv hcap hsofar hout hfive

/-- From any label the run ends, with a well-formed block for the source. -/
theorem run_spec (hv : v.Serves src.length) (hcap : lz4CompressBound src.length ≤ cap)
    {c : Compressor} (h : Inv src cap c) {fuel : Nat} (hfuel : c.label.turns src.length < fuel) :
    ∃ result b, v.run src (lz4CompressBound src.length) fuel c = .ok result ∧
      Compressed src cap result b := by
  induction fuel generalizing c with
  | zero => omega
  | succ fuel ih =>
    have hturned := v.step_turned hv hcap h
    rw [run]
    generalize v.step src (lz4CompressBound src.length) c = result at hturned
    cases hturned with
    | next hinv hturns => exact ih hinv (by omega)
    | done hdone => exact ⟨_, _, rfl, hdone⟩

theorem start_inv (v : Variant) (src dest : List UInt8) :
    ∃ c, v.start src dest = .ok c ∧ Inv src dest.length c ∧
      c.label.turns src.length < 2 * src.length + 3 := by
  have hout : (⟨dest, 0⟩ : Out).Holds [] dest.length := ⟨List.nil_prefix, rfl, rfl⟩
  have hmin : minLength = 13 := rfl
  have h12 : mfLimit = 12 := rfl
  rw [start]
  by_cases hshort : src.length < minLength
  · rw [if_pos hshort]
    refine ⟨_, rfl, .lastLiterals (Sofar.empty src) hout fun h ↦ absurd rfl h, ?_⟩
    show 1 < _
    omega
  · obtain ⟨h₀, hh₀⟩ := v.hashValue_spec (by omega : 0 + 4 ≤ src.length)
    obtain ⟨h₁, hh₁⟩ := v.hashValue_spec (by omega : 1 + 4 ≤ src.length)
    have hzero : Below (fun _ ↦ 0) (0 + 1) := fun _ ↦ Nat.zero_lt_one
    have hbelow : Below (if v.firstByte then v.put (fun _ ↦ 0) h₀ 0 else fun _ ↦ 0) (0 + 1) := by
      split
      · exact hzero.put v h₀ Nat.zero_lt_one
      · exact hzero
    rw [if_neg hshort, hh₀]
    simp only [bind, Except.bind, pure, Except.pure, hh₁]
    refine ⟨_, rfl, .mainLoop (Sofar.empty src) hout (by omega) hbelow, ?_⟩
    show 2 * (src.length - 0) + 2 < _
    omega

/-- Compression into a buffer of the bound's size. -/
theorem compress_spec (hv : v.Serves src.length) {dest : List UInt8}
    (hcap : lz4CompressBound src.length ≤ dest.length) :
    ∃ result b, v.compress src dest (lz4CompressBound src.length) = .ok result ∧
      Compressed src dest.length result b := by
  obtain ⟨c, hstart, hinv, hturns⟩ := v.start_inv src dest
  rw [compress, hstart]
  exact v.run_spec hv hcap hinv hturns

end Variant

/-! ### The public functions -/

/-- `LZ4_compress` of a source whose bound is an `int`, into a buffer of that size or more,
comes to the bytes of a well-formed block for the source. -/
theorem lz4Compress_spec {source dest : List UInt8}
    (hint : lz4CompressBound source.length < intLimit)
    (hdest : lz4CompressBound source.length ≤ dest.length) :
    ∃ result b, lz4Compress source dest = .ok result ∧
      Compressed source dest.length result b := by
  rw [lz4Compress, if_pos hint, lz4CompressLimitedOutput]
  split
  · next hshort => exact variant64k.compress_spec (variant64k_serves hshort) hdest
  · exact variantCtx.compress_spec (variantCtx_serves source.length) hdest

theorem Compressed.length_le {source : List UInt8} {cap : Nat} {result : Nat × List UInt8}
    {b : Block} (h : Compressed source cap result b) :
    0 < result.1 ∧ result.1 ≤ lz4CompressBound source.length := by
  have hsequences := @length_sequences_le b.sequences [] h.wellFormed.valid
  have hexpand := congrArg List.length h.expands
  rw [Block.expand, List.length_append] at hexpand
  rw [h.length, Block.encode, lz4CompressBound]
  simp only [List.length_append, List.length_cons, length_lengthBytes, List.length_nil] at *
  omega

/-- What decompression makes of a compressed source: all of it in an output that is large
enough, which it leaves as it is from two bytes behind; else a refusal or as much as fits. -/
theorem Compressed.uncompress {source : List UInt8} {cap : Nat} {result : Nat × List UInt8}
    {b : Block} (h : Compressed source cap result b) (hint : source.length < intLimit)
    (out : List UInt8) :
    ∃ r out', lz4UncompressUnknownOutputSize (result.2.take result.1) out = .ok (r, out') ∧
      out'.length = out.length ∧
      if source.length ≤ out.length then
        r = source.length ∧ source <+: out' ∧
          out'.drop (source.length + 2) = out.drop (source.length + 2)
      else r < 0 ∨ r = out.length ∧ out' = source.take out.length := by
  have hencode : result.2.take result.1 = b.encode := by
    rw [h.length]
    exact (List.prefix_iff_eq_take.mp h.written).symm
  obtain ⟨high, v, hdec, hends⟩ := uncompress_decodes b.encode out
  have hclipped := Block.decodes_encode h.wellFormed (by rw [h.expands]; exact hint) hdec
  rw [Verdict.Clipped, h.expands] at hclipped
  rw [hencode]
  generalize lz4UncompressUnknownOutputSize b.encode out = end' at hends
  by_cases hfits : source.length ≤ out.length
  · rw [if_pos hfits] at hclipped
    obtain ⟨rfl, hhigh⟩ := hclipped
    cases hends with
    | decoded hwithin hpre =>
      have hkept := (hwithin.mono hhigh).kept
      exact ⟨_, _, rfl, hwithin.length, by rw [if_pos hfits]; exact ⟨rfl, hpre, hkept⟩⟩
  · rw [if_neg hfits] at hclipped
    cases hends with
    | decoded hwithin hpre =>
      have hlen := hwithin.length
      rcases hclipped with ⟨unread, hv⟩ | hv
      · cases hv
      · cases hv
        have htake : (source.take out.length).length = out.length :=
          List.length_take_of_le (by omega)
        refine ⟨_, _, rfl, hlen, ?_⟩
        rw [if_neg hfits, htake]
        exact .inr ⟨rfl, (hpre.eq_of_length (by omega)).symm⟩
    | refused hlen hpos hle =>
      refine ⟨_, _, rfl, hlen, ?_⟩
      rw [if_neg hfits]
      exact .inl (by omega)
    | overflow =>
      rcases hclipped with ⟨unread, hv⟩ | hv
      · cases hv
      · cases hv

/-- `LZ4_compress` never fails and never accesses memory outside the source and a buffer of the
bound's size, and what it wrote decompresses to the source: all of it into an output that is
large enough, and into a smaller one a refusal or as much as fits. -/
theorem lz4_roundTrip {source dest : List UInt8}
    (hint : lz4CompressBound source.length < intLimit)
    (hdest : lz4CompressBound source.length ≤ dest.length) :
    ∃ compressedSize dest', lz4Compress source dest = .ok (compressedSize, dest') ∧
      0 < compressedSize ∧ compressedSize ≤ lz4CompressBound source.length ∧
      dest'.length = dest.length ∧
      ∀ out, ∃ r out',
        lz4UncompressUnknownOutputSize (dest'.take compressedSize) out = .ok (r, out') ∧
        out'.length = out.length ∧
        if source.length ≤ out.length then
          r = source.length ∧ source <+: out' ∧
            out'.drop (source.length + 2) = out.drop (source.length + 2)
        else r < 0 ∨ r = out.length ∧ out' = source.take out.length := by
  obtain ⟨⟨r, dest'⟩, b, hrun, hb⟩ := lz4Compress_spec hint hdest
  obtain ⟨hpos, hle⟩ := hb.length_le
  have hsource : source.length < intLimit := by
    rw [lz4CompressBound] at hint
    omega
  exact ⟨r, dest', hrun, hpos, hle, hb.size, hb.uncompress hsource⟩

/-- Forty equal bytes survive the round trip. -/
theorem lz4_roundTrip_forty :
    ∃ compressedSize dest', lz4Compress (List.replicate 40 5) (List.replicate 56 0) =
        .ok (compressedSize, dest') ∧
      0 < compressedSize ∧
      compressedSize ≤ lz4CompressBound (List.replicate 40 (5 : UInt8)).length ∧
      dest'.length = (List.replicate 56 (0 : UInt8)).length ∧
      ∀ out, ∃ r out',
        lz4UncompressUnknownOutputSize (dest'.take compressedSize) out = .ok (r, out') ∧
        out'.length = out.length ∧
        if (List.replicate 40 (5 : UInt8)).length ≤ out.length then
          r = (List.replicate 40 (5 : UInt8)).length ∧ List.replicate 40 5 <+: out' ∧
            out'.drop ((List.replicate 40 (5 : UInt8)).length + 2) =
              out.drop ((List.replicate 40 (5 : UInt8)).length + 2)
        else r < 0 ∨ r = out.length ∧ out' = (List.replicate 40 5).take out.length :=
  lz4_roundTrip (by decide) (by decide)

end Mema.Lz4
