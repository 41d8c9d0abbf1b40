import Mema.Lib.Memory

/-!
# The compressed block format

What `lz4.c` reads and writes, apart from how it copies: a block is sequences, each some
literals and a copy from earlier output, and then last literals. Four bits of a token hold a
length below 15; a longer one goes on in bytes of 255 and a smaller one.
-/

namespace Mema.Lz4

open Bytes Memory

/-- `MINMATCH`. -/
def minMatch : Nat := 4

/-- `COPYLENGTH`, also `STEPSIZE` on a 64-bit machine. -/
def copyLength : Nat := 8

/-- `LASTLITERALS`. -/
def lastLiterals : Nat := 5

/-- `RUN_MASK`, also `ML_MASK`. -/
def runMask : Nat := 15

/-- The first value an `int` cannot hold. -/
def intLimit : Nat := 2 ^ 31

/-- The bytes of a length past the token's four bits. -/
def runBytes (n : Nat) : List UInt8 := List.replicate (n / 255) 255 ++ [UInt8.ofNat (n % 255)]

/-- The bytes a length takes besides the token. -/
def lengthBytes (n : Nat) : List UInt8 := if n < runMask then [] else runBytes (n - runMask)

/-- A token for two lengths. -/
def token (literals copied : Nat) : UInt8 :=
  UInt8.ofNat (min literals runMask * 16 + min copied runMask)

/-- Literals, and then `length` bytes copied from `offset` bytes back. -/
structure Sequence where
  literals : List UInt8
  offset : Nat
  length : Nat

namespace Sequence

/-- The bytes of a sequence. -/
def encode (s : Sequence) : List UInt8 :=
  token s.literals.length (s.length - minMatch) :: (lengthBytes s.literals.length ++ s.literals ++
    leBytes 2 s.offset ++ lengthBytes (s.length - minMatch))

/-- Output with the sequence carried out. -/
def apply (out : List UInt8) (s : Sequence) : List UInt8 :=
  backCopy s.offset s.length (out ++ s.literals)

/-- A sequence that can stand behind `n` bytes of output. -/
structure Valid (n : Nat) (s : Sequence) : Prop where
  positive : 0 < s.offset
  reaches : s.offset ≤ n + s.literals.length
  near : s.offset < 256 ^ 2
  long : minMatch ≤ s.length

end Sequence

/-- Sequences that can stand behind `n` bytes of output, one after the other. -/
def ValidFrom : Nat → List Sequence → Prop
  | _, [] => True
  | n, s :: ss => s.Valid n ∧ ValidFrom (n + s.literals.length + s.length) ss

/-- A compressed block. -/
structure Block where
  sequences : List Sequence
  last : List UInt8

namespace Block

/-- The bytes of a block. -/
def encode (b : Block) : List UInt8 :=
  b.sequences.flatMap Sequence.encode ++
    token b.last.length 0 :: (lengthBytes b.last.length ++ b.last)

/-- What a block stands for. -/
def expand (b : Block) : List UInt8 := b.sequences.foldl Sequence.apply [] ++ b.last

/-- A block whose copies can be carried out, with the literals at the end that let a decoder
copy by eight bytes before them. -/
structure WellFormed (b : Block) : Prop where
  valid : ValidFrom 0 b.sequences
  ends : b.sequences ≠ [] → lastLiterals ≤ b.last.length

end Block

/-! ### Reading a sequence -/

/-- Add bytes up to the first that is not 255. -/
def readRun : List UInt8 → Nat × List UInt8
  | [] => (0, [])
  | b :: bs => if b = 255 then (255 + (readRun bs).1, (readRun bs).2) else (b.toNat, bs)

/-- Read a length whose four token bits are given. -/
def readLength (nibble : Nat) (bytes : List UInt8) : Nat × List UInt8 :=
  if nibble = runMask then (runMask + (readRun bytes).1, (readRun bytes).2) else (nibble, bytes)

/-- What a decoder makes of the bytes behind a token. -/
inductive Parse
  | overflow
  | refused (unread : List UInt8)
  | last (literals : List UInt8)
  | copy (literals : List UInt8) (offset length : Nat) (unread : List UInt8)

/-- Read the copy behind a sequence's literals, with `n` bytes of output and room for `cap`. -/
def parseCopy (cap n : Nat) (tok : UInt8) (literals bytes : List UInt8) : Parse :=
  let offset := leNat (bytes.take 2)
  if n < offset then .refused (bytes.drop 2)
  else
    let (length, bytes) := readLength (tok.toNat % 16) (bytes.drop 2)
    if intLimit ≤ length then .overflow
    else if cap < n + (length + minMatch) then .refused bytes
    else .copy literals offset (length + minMatch) bytes

/-- Read a sequence, with `n` bytes of output and room for `cap`. Literals that come near the
end of either buffer must be the last ones. -/
def parseSequence (cap n : Nat) (tok : UInt8) (bytes : List UInt8) : Parse :=
  let (length, bytes) := readLength (tok.toNat / 16) bytes
  if intLimit ≤ length then .overflow
  else if cap < n + length + copyLength ∨ bytes.length < length + copyLength then
    if cap < n + length ∨ bytes.length < length then .refused bytes
    else if length < bytes.length then .refused (bytes.drop length)
    else .last bytes
  else parseCopy cap (n + length) tok (bytes.take length) (bytes.drop length)

/-! ### Decoding a block -/

/-- How decoding ends. -/
inductive Verdict
  | decoded (out : List UInt8)
  | refused (unread : Nat)
  | overflow

/-- A copy carried out. From no distance at all the copied bytes are unspecified. -/
def Copied (offset length : Nat) (out out' : List UInt8) : Prop :=
  if offset = 0 then ∃ cells, cells.length = length ∧ out' = out ++ cells
  else out' = backCopy offset length out

/-- Decoding byte by byte into room for `cap` bytes. It ends early when that room is full.
The number bounds the cells that copying by eight bytes may write to. -/
inductive Decodes (cap : Nat) : List UInt8 → List UInt8 → Nat → Verdict → Prop
  | finished (out : List UInt8) : Decodes cap [] out 0 (.decoded out)
  | overflow {tok : UInt8} {bytes out : List UInt8} :
      parseSequence cap out.length tok bytes = .overflow →
        Decodes cap (tok :: bytes) out 0 .overflow
  | refused {tok : UInt8} {bytes out unread : List UInt8} :
      parseSequence cap out.length tok bytes = .refused unread →
        Decodes cap (tok :: bytes) out 0 (.refused unread.length)
  | last {tok : UInt8} {bytes out literals : List UInt8} :
      parseSequence cap out.length tok bytes = .last literals →
        Decodes cap (tok :: bytes) out (out ++ literals).length (.decoded (out ++ literals))
  | full {tok : UInt8} {bytes out literals unread out' : List UInt8} {offset length : Nat} :
      parseSequence cap out.length tok bytes = .copy literals offset length unread →
        Copied offset length (out ++ literals) out' → out'.length = cap →
          Decodes cap (tok :: bytes) out cap (.decoded out')
  | next {tok : UInt8} {bytes out literals unread out' : List UInt8} {offset length high : Nat}
      {v : Verdict} :
      parseSequence cap out.length tok bytes = .copy literals offset length unread →
        Copied offset length (out ++ literals) out' → out'.length ≠ cap →
          Decodes cap unread out' high v →
            Decodes cap (tok :: bytes) out (max (out'.length + 7) high) v

/-! ### Lengths -/

@[simp] theorem length_runBytes (n : Nat) : (runBytes n).length = n / 255 + 1 := by
  simp [runBytes]

/-- A run is read back. -/
theorem readRun_runBytes (n : Nat) (rest : List UInt8) :
    readRun (runBytes n ++ rest) = (n, rest) := by
  have hlow : UInt8.ofNat (n % 255) ≠ 255 := by
    intro h
    have hnat := congrArg UInt8.toNat h
    simp at hnat
    omega
  have hval : (UInt8.ofNat (n % 255)).toNat = n % 255 := by
    simp
    omega
  have hruns (k : Nat) : readRun (List.replicate k 255 ++ UInt8.ofNat (n % 255) :: rest) =
      (255 * k + n % 255, rest) := by
    induction k with
    | zero => simp [readRun, hlow, hval]
    | succ k ih =>
      rw [List.replicate_succ, List.cons_append, readRun, if_pos rfl, ih]
      congr 1
      ring
  rw [runBytes, List.append_assoc, List.singleton_append, hruns]
  congr 1
  omega

/-- A length is read back from its token bits and its bytes. -/
theorem readLength_lengthBytes (n : Nat) (rest : List UInt8) :
    readLength (min n runMask) (lengthBytes n ++ rest) = (n, rest) := by
  rw [lengthBytes]
  by_cases h : n < runMask
  · have hmin : min n runMask = n := Nat.min_eq_left (by omega)
    rw [if_pos h, hmin, readLength, if_neg (by omega), List.nil_append]
  · have hmin : min n runMask = runMask := Nat.min_eq_right (by omega)
    rw [if_neg h, hmin, readLength, if_pos rfl, readRun_runBytes]
    congr 1
    omega

theorem token_literals (literals copied : Nat) :
    (token literals copied).toNat / 16 = min literals runMask := by
  simp only [token, runMask, UInt8.toNat_ofNat']
  omega

theorem token_copied (literals copied : Nat) :
    (token literals copied).toNat % 16 = min copied runMask := by
  simp only [token, runMask, UInt8.toNat_ofNat']
  omega

/-! ### Encoding and decoding -/

/-- The last literals are read back if there is room for them. -/
theorem parseSequence_last {cap n : Nat} {last : List UInt8} (hint : last.length < intLimit) :
    parseSequence cap n (token last.length 0) (lengthBytes last.length ++ last) =
      if cap < n + last.length then .refused last else .last last := by
  rw [parseSequence, token_literals, readLength_lengthBytes]
  dsimp only
  rw [if_neg (by omega), if_pos (by rw [copyLength]; omega)]
  by_cases hcap : cap < n + last.length
  · rw [if_pos (.inl hcap), if_pos hcap]
  · rw [if_neg (by omega), if_neg (by omega), if_neg hcap]

/-- A sequence with enough input behind its literals is read back if there is room for eight
bytes more than the literals and for the copy. -/
theorem parseSequence_encode {cap n : Nat} {s : Sequence} {rest : List UInt8} (h : s.Valid n)
    (hrest : 6 ≤ rest.length) (hlits : s.literals.length < intLimit)
    (hcopy : s.length < intLimit) :
    if n + s.literals.length + copyLength ≤ cap ∧ n + s.literals.length + s.length ≤ cap then
      parseSequence cap n (token s.literals.length (s.length - minMatch))
          (lengthBytes s.literals.length ++ (s.literals ++ (leBytes 2 s.offset ++
            (lengthBytes (s.length - minMatch) ++ rest)))) =
        .copy s.literals s.offset s.length rest
    else ∃ unread,
      parseSequence cap n (token s.literals.length (s.length - minMatch))
          (lengthBytes s.literals.length ++ (s.literals ++ (leBytes 2 s.offset ++
            (lengthBytes (s.length - minMatch) ++ rest)))) = .refused unread := by
  have hlong := h.long
  have hreaches := h.reaches
  have hle : (leBytes 2 s.offset).length = 2 := length_leBytes 2 _
  have hoff : leNat (leBytes 2 s.offset) = s.offset := leNat_leBytes_of_lt h.near
  rw [parseSequence, token_literals, readLength_lengthBytes]
  dsimp only
  rw [if_neg (by omega : ¬intLimit ≤ s.literals.length)]
  by_cases hnear : n + s.literals.length + copyLength ≤ cap
  · have hroom : ¬(cap < n + s.literals.length + copyLength ∨ (s.literals ++ (leBytes 2 s.offset ++
        (lengthBytes (s.length - minMatch) ++ rest))).length <
          s.literals.length + copyLength) := by
      simp only [List.length_append, hle, copyLength] at hnear ⊢
      omega
    rw [if_neg hroom, List.take_left, List.drop_left, parseCopy, List.take_left' hle,
      List.drop_left' hle, hoff, token_copied, readLength_lengthBytes]
    dsimp only
    rw [if_neg (by omega : ¬n + s.literals.length < s.offset),
      if_neg (by omega : ¬intLimit ≤ s.length - minMatch), Nat.sub_add_cancel hlong]
    by_cases hcap : n + s.literals.length + s.length ≤ cap
    · rw [if_pos ⟨hnear, hcap⟩, if_neg (by omega)]
    · rw [if_neg fun hboth ↦ hcap hboth.2, if_pos (by omega)]
      exact ⟨_, rfl⟩
  · rw [if_neg fun hboth ↦ hnear hboth.1, if_pos (.inl (by omega))]
    by_cases hbeyond : cap < n + s.literals.length
    · rw [if_pos (.inl hbeyond)]
      exact ⟨_, rfl⟩
    · rw [if_neg (by rw [List.length_append]; omega), if_pos (by
        simp only [List.length_append]
        omega)]
      exact ⟨_, rfl⟩

theorem Sequence.length_apply {n : Nat} {s : Sequence} {out : List UInt8} (h : s.Valid n)
    (hn : out.length = n) :
    (s.apply out).length = out.length + s.literals.length + s.length := by
  have hreaches := h.reaches
  rw [apply, length_backCopy h.positive (by rw [List.length_append]; omega), List.length_append]

theorem le_length_foldl_apply {ss : List Sequence} {out : List UInt8}
    (h : ValidFrom out.length ss) :
    out.length ≤ (ss.foldl Sequence.apply out).length := by
  induction ss generalizing out with
  | nil => exact Nat.le_refl _
  | cons s ss ih =>
    obtain ⟨hs, hss⟩ := h
    have hlen := Sequence.length_apply hs rfl
    rw [← hlen] at hss
    have hrec := ih hss
    rw [List.foldl_cons]
    omega

/-- What decoding makes of last literals. -/
theorem Decodes.of_last {cap high : Nat} {tok : UInt8} {bytes out literals : List UInt8}
    {v : Verdict} (h : Decodes cap (tok :: bytes) out high v)
    (hparse : parseSequence cap out.length tok bytes = .last literals) :
    v = .decoded (out ++ literals) ∧ high = (out ++ literals).length := by
  cases h with
  | last h =>
    rw [hparse] at h
    cases h
    exact ⟨rfl, rfl⟩
  | _ h => rw [hparse] at h; cases h

/-- What decoding makes of a sequence. -/
theorem Decodes.of_copy {cap high : Nat} {tok : UInt8} {bytes out literals unread : List UInt8}
    {offset length : Nat} {v : Verdict} (h : Decodes cap (tok :: bytes) out high v)
    (hparse : parseSequence cap out.length tok bytes = .copy literals offset length unread) :
    ∃ out', Copied offset length (out ++ literals) out' ∧
      (out'.length = cap ∧ v = .decoded out' ∨
        ∃ high', out'.length ≠ cap ∧ Decodes cap unread out' high' v ∧
          high = max (out'.length + 7) high') := by
  cases h with
  | full h hcopied hfull =>
    rw [hparse] at h
    cases h
    exact ⟨_, hcopied, .inl ⟨hfull, rfl⟩⟩
  | next h hcopied hfull hnext =>
    rw [hparse] at h
    cases h
    exact ⟨_, hcopied, .inr ⟨_, hfull, hnext, rfl⟩⟩
  | _ h => rw [hparse] at h; cases h

/-- What decoding makes of a refused sequence. -/
theorem Decodes.of_refused {cap high : Nat} {tok : UInt8} {bytes out unread : List UInt8}
    {v : Verdict} (h : Decodes cap (tok :: bytes) out high v)
    (hparse : parseSequence cap out.length tok bytes = .refused unread) :
    v = .refused unread.length := by
  cases h with
  | refused h =>
    rw [hparse] at h
    cases h
    rfl
  | _ h => rw [hparse] at h; cases h

/-- A copy that is read reaches no further back than the output. -/
theorem parseSequence_reaches {cap n : Nat} {tok : UInt8} {bytes literals unread : List UInt8}
    {offset length : Nat}
    (h : parseSequence cap n tok bytes = .copy literals offset length unread) :
    offset ≤ n + literals.length := by
  rw [parseSequence] at h
  dsimp only at h
  split at h
  · cases h
  · split at h
    · split at h
      · cases h
      · split at h
        · cases h
        · cases h
    · next hroom =>
      rw [parseCopy] at h
      dsimp only at h
      split at h
      · cases h
      · split at h
        · cases h
        · split at h
          · cases h
          · cases h
            rw [List.length_take, Nat.min_eq_left (by omega)]
            omega

theorem Copied.length_eq {offset length : Nat} {out out' : List UInt8}
    (h : Copied offset length out out') (hle : offset ≤ out.length) :
    out'.length = out.length + length := by
  rw [Copied] at h
  split at h
  · obtain ⟨cells, hcells, rfl⟩ := h
    rw [List.length_append, hcells]
  · next hpos =>
    rw [h, length_backCopy (Nat.pos_of_ne_zero hpos) hle]

/-- Whether the decoder refuses the bytes behind `n` bytes of output; the lengths decide. -/
def refuses (cap : Nat) : Nat → Nat → List UInt8 → Bool
  | fuel + 1, n, tok :: bytes =>
    match parseSequence cap n tok bytes with
    | .refused _ => true
    | .copy literals _ length unread =>
      n + literals.length + length != cap &&
        refuses cap fuel (n + literals.length + length) unread
    | .overflow => false
    | .last _ => false
  | _ + 1, _, [] => false
  | 0, _, _ => false

/-- What it refuses is refused whatever the copies from no distance are. -/
theorem Decodes.of_refuses {cap fuel high : Nat} {bytes out : List UInt8} {v : Verdict}
    (h : Decodes cap bytes out high v) (hrefuses : refuses cap fuel out.length bytes = true) :
    ∃ unread, v = .refused unread := by
  induction fuel generalizing bytes out high with
  | zero => cases hrefuses
  | succ fuel ih =>
    cases bytes with
    | nil => cases hrefuses
    | cons tok bytes =>
      rw [refuses] at hrefuses
      cases hparse : parseSequence cap out.length tok bytes with
      | overflow =>
        rw [hparse] at hrefuses
        cases hrefuses
      | last literals =>
        rw [hparse] at hrefuses
        cases hrefuses
      | refused unread => exact ⟨_, h.of_refused hparse⟩
      | copy literals offset length unread =>
        rw [hparse] at hrefuses
        obtain ⟨hroom, hrest⟩ := Bool.and_eq_true_iff.mp hrefuses
        obtain ⟨out', hcopied, hnext⟩ := h.of_copy hparse
        have hlen := hcopied.length_eq (by
          rw [List.length_append]
          exact parseSequence_reaches hparse)
        rw [List.length_append] at hlen
        rw [← hlen] at hroom hrest
        rcases hnext with ⟨hfull, -⟩ | ⟨high', -, hnext, -⟩
        · exact absurd hfull (bne_iff_ne.mp hroom)
        · exact ih hnext hrest

theorem Sequence.encode_append (s : Sequence) (bytes : List UInt8) :
    s.encode ++ bytes = token s.literals.length (s.length - minMatch) ::
      (lengthBytes s.literals.length ++ (s.literals ++ (leBytes 2 s.offset ++
        (lengthBytes (s.length - minMatch) ++ bytes)))) := by
  simp only [encode, List.cons_append, List.append_assoc]

/-- Decoding into room for `cap` bytes what stands for `whole`: all of it if it fits, with no
more than two cells behind it written to, and otherwise a refusal or as much as fits. -/
def Verdict.Clipped (cap : Nat) (whole : List UInt8) (high : Nat) (v : Verdict) : Prop :=
  if whole.length ≤ cap then v = .decoded whole ∧ high ≤ whole.length + 2
  else (∃ unread, v = .refused unread) ∨ v = .decoded (whole.take cap)

theorem prefix_foldl_apply (ss : List Sequence) (out : List UInt8) :
    out <+: ss.foldl Sequence.apply out := by
  induction ss generalizing out with
  | nil => exact List.prefix_rfl
  | cons s ss ih =>
    exact ((List.prefix_append out s.literals).trans (prefix_backCopy _ _ _)).trans
      (ih (s.apply out))

private theorem decodes_sequences {cap high : Nat} {ss : List Sequence} {last out : List UInt8}
    {v : Verdict} (h : ValidFrom out.length ss) (hends : ss ≠ [] → lastLiterals ≤ last.length)
    (hint : (ss.foldl Sequence.apply out).length + last.length < intLimit)
    (hd : Decodes cap (ss.flatMap Sequence.encode ++
      token last.length 0 :: (lengthBytes last.length ++ last)) out high v) :
    v.Clipped cap (ss.foldl Sequence.apply out ++ last) high := by
  induction ss generalizing out high with
  | nil =>
    rw [List.foldl_nil] at hint ⊢
    have hparse := @parseSequence_last cap out.length last (by omega)
    rw [Verdict.Clipped, List.length_append]
    by_cases hcap : cap < out.length + last.length
    · rw [if_pos hcap] at hparse
      rw [if_neg (by omega)]
      exact .inl ⟨_, hd.of_refused hparse⟩
    · rw [if_neg hcap] at hparse
      obtain ⟨hv, hhigh⟩ := hd.of_last hparse
      rw [List.length_append] at hhigh
      rw [if_pos (by omega)]
      exact ⟨hv, by omega⟩
  | cons s ss ih =>
    obtain ⟨hs, hss⟩ := h
    have hlong := hs.long
    have hfive := hends (List.cons_ne_nil s ss)
    have hlen := Sequence.length_apply hs rfl
    rw [← hlen] at hss
    have hle := le_length_foldl_apply hss
    rw [List.foldl_cons] at hint ⊢
    rw [List.flatMap_cons, List.append_assoc, Sequence.encode_append] at hd
    simp only [minMatch, lastLiterals] at hlong hfive
    have hparse := @parseSequence_encode cap out.length s (ss.flatMap Sequence.encode ++
      token last.length 0 :: (lengthBytes last.length ++ last)) hs (by
        simp only [List.length_append, List.length_cons]
        omega) (by omega) (by omega)
    split at hparse
    · obtain ⟨out', hcopied, hout⟩ := hd.of_copy hparse
      rw [Copied, if_neg (by have := hs.positive; omega)] at hcopied
      change out' = s.apply out at hcopied
      rw [hcopied] at hout
      rcases hout with ⟨hfull, hv⟩ | ⟨high', -, hnext, rfl⟩
      · -- the output is full behind this copy
        have hpre : s.apply out <+: ss.foldl Sequence.apply (s.apply out) ++ last :=
          (prefix_foldl_apply ss _).trans (List.prefix_append _ _)
        rw [Verdict.Clipped, List.length_append, if_neg (by omega), hv, ← hfull]
        exact .inr (congrArg Verdict.decoded (List.prefix_iff_eq_take.mp hpre))
      · have hrest := ih hss (fun _ ↦ hfive) hint hnext
        rw [Verdict.Clipped, List.length_append] at hrest ⊢
        split at hrest
        · next hfits =>
          rw [if_pos hfits]
          exact ⟨hrest.1, by have := hrest.2; omega⟩
        · next hfits =>
          rw [if_neg hfits]
          exact hrest
    · next hroom =>
      obtain ⟨unread, hparse⟩ := hparse
      rw [Verdict.Clipped, List.length_append, if_neg (by
        rw [copyLength] at hroom
        omega)]
      exact .inl ⟨_, hd.of_refused hparse⟩

/-- A well-formed block that fits the output decodes to what it stands for, and to nothing
else; into less room it is refused or cut off. -/
theorem Block.decodes_encode {cap high : Nat} {b : Block} {v : Verdict} (h : b.WellFormed)
    (hint : b.expand.length < intLimit) (hd : Decodes cap b.encode [] high v) :
    v.Clipped cap b.expand high := by
  rw [expand, List.length_append] at hint
  exact decodes_sequences h.valid h.ends hint hd

/-! ### The size of a block -/

/-- A length takes one byte from 15 on, and one more for each further 255. -/
theorem length_lengthBytes (n : Nat) : (lengthBytes n).length = (n + 240) / 255 := by
  rw [lengthBytes, runMask]
  split
  · rw [List.length_nil]
    omega
  · rw [length_runBytes]
    omega

/-- A sequence grows by at most one byte in 255. -/
theorem Sequence.length_encode_le {n : Nat} {s : Sequence} (h : s.Valid n) :
    s.encode.length ≤ s.literals.length + s.length + (s.literals.length + s.length) / 255 := by
  have hlong := h.long
  rw [minMatch] at hlong
  simp only [encode, List.length_cons, List.length_append, length_leBytes, length_lengthBytes,
    minMatch]
  omega

/-- Sequences grow by at most one byte in 255 of what they stand for. -/
theorem length_sequences_le {ss : List Sequence} {out : List UInt8}
    (h : ValidFrom out.length ss) :
    (ss.flatMap Sequence.encode).length ≤
      ((ss.foldl Sequence.apply out).length - out.length) +
        ((ss.foldl Sequence.apply out).length - out.length) / 255 := by
  induction ss generalizing out with
  | nil => simp
  | cons s ss ih =>
    obtain ⟨hs, hss⟩ := h
    have hlen := Sequence.length_apply hs rfl
    rw [← hlen] at hss
    have hle := le_length_foldl_apply hss
    have hfirst := Sequence.length_encode_le hs
    have hrec := ih hss
    rw [List.flatMap_cons, List.length_append, List.foldl_cons]
    omega

end Mema.Lz4
