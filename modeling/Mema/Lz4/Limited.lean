import Mema.Lz4.RoundTrip

/-!
# The output limit

`memapass/lz4.c:401–452,470–479` and `lz4.h:86–97`: compression into a buffer of a given size is
to write nothing outside it. The room is checked for literals and before the last of them; a match
is written as long as it is, and so is a match right behind another.
-/

namespace Mema.Lz4

open Bytes Memory

/-! ### Runs that do not fit -/

namespace Out

variable {out : Out} {w : List UInt8} {cap : Nat}

theorem Holds.put_trap (h : out.Holds w cap) (b : UInt8) (hfull : cap < w.length + 1) :
    out.put b = .error .outOfBounds := by
  have hoff : ¬ out.op + [b].length ≤ out.dest.length := by
    rw [h.op, h.size, List.length_singleton]
    omega
  rw [put, puts, write, if_neg hoff]
  rfl

/-- A run longer than the rest of the buffer is written beyond its end. -/
theorem Holds.putRun2_trap (h : out.Holds w cap) {n : Nat}
    (hfull : cap < w.length + (n / 255 + 1)) : out.putRun2 n = .error .outOfBounds := by
  induction n using Nat.strong_induction_on generalizing out w with
  | _ n ih =>
    rw [putRun2]
    by_cases hmore : 254 < n
    · by_cases hone : cap < w.length + 1
      · rw [h.put_trap 255 hone]
        split <;> rfl
      · obtain ⟨out₁, hput₁, hholds₁⟩ := h.put_spec 255 (by omega)
        have hlen₁ : (w ++ [255]).length = w.length + 1 := List.length_append
        rw [hput₁]
        simp only [bind, Except.bind]
        by_cases htwo : cap < w.length + 1 + 1
        · rw [hholds₁.put_trap _ (by omega), hholds₁.put_trap _ (by omega), if_pos hmore, ite_self]
        · obtain ⟨out₂, hput₂, hholds₂⟩ := hholds₁.put_spec 255 (by omega)
          have hlen₂ : (w ++ [255] ++ [255]).length = w.length + 1 + 1 := by
            rw [List.length_append, hlen₁, List.length_singleton]
          rw [hput₂, if_pos (by omega : 509 < n)]
          exact ih (n - 510) (by omega) hholds₂ (by omega)
    · rw [if_neg (by omega), if_neg hmore]
      exact h.put_trap _ (by omega)

end Out

namespace Variant

variable {v : Variant} {src : List UInt8}

theorem run_next {maxOutputSize fuel : Nat} {c c' : Compressor}
    (h : v.step src maxOutputSize c = .ok (.inl c')) :
    v.run src maxOutputSize (fuel + 1) c = v.run src maxOutputSize fuel c' := by
  rw [run, h]
  rfl

theorem run_done {maxOutputSize fuel : Nat} {c : Compressor} {r : Nat × List UInt8}
    (h : v.step src maxOutputSize c = .ok (.inr r)) :
    v.run src maxOutputSize (fuel + 1) c = .ok r := by
  rw [run, h]
  rfl

theorem run_trap {maxOutputSize fuel : Nat} {c : Compressor} {t : Trap}
    (h : v.step src maxOutputSize c = .error t) :
    v.run src maxOutputSize (fuel + 1) c = .error t := by
  rw [run, h]
  rfl

/-- A source that is long enough to hold a match is searched from its second byte on, with an
empty table. -/
theorem start_long (v : Variant) (dest : List UInt8) (hlong : minLength ≤ src.length) :
    ∃ h, v.start src dest = .ok ⟨fun _ ↦ 0, ⟨dest, 0⟩, .mainLoop 1 0 h⟩ := by
  have hmin : minLength = 13 := rfl
  obtain ⟨h₀, hh₀⟩ := v.hashValue_spec (by omega : 0 + 4 ≤ src.length)
  obtain ⟨h₁, hh₁⟩ := v.hashValue_spec (by omega : 1 + 4 ≤ src.length)
  have hempty : (if v.firstByte then v.put (fun _ ↦ 0) h₀ 0 else fun _ ↦ 0) = fun _ ↦ 0 := by
    rw [put, Nat.zero_mod, Function.update_eq_self_iff.mpr rfl, ite_self]
  rw [start, if_neg (by omega), hh₀]
  simp only [bind, Except.bind, pure, Except.pure, hh₁, hempty]
  exact ⟨h₁, rfl⟩

/-! ### Small limits -/

/-- Before any sequence, the last literals are written into a small buffer or refused. -/
theorem encodeLastLiterals_small (v : Variant) (src : List UInt8) {dest : List UInt8}
    (hsmall : dest.length ≤ 10) :
    ∃ r, v.encodeLastLiterals src dest.length ⟨dest, 0⟩ 0 = .ok (.inr r) := by
  have hout : (⟨dest, 0⟩ : Out).Holds [] dest.length := ⟨List.nil_prefix, rfl, rfl⟩
  rw [encodeLastLiterals]
  split
  · exact ⟨_, rfl⟩
  · next hroom =>
    have hfits : src.length + 1 < dest.length := by
      simp only [Nat.zero_add, Nat.sub_zero] at hroom
      omega
    obtain ⟨out', hput, hholds⟩ := hout.putLength_spec (n := src.length) (by
      rw [List.length_nil]
      omega)
    have hlen : ([] ++ token src.length 0 :: lengthBytes src.length).length = 1 := by
      rw [List.nil_append, List.length_cons, length_lengthBytes]
      omega
    obtain ⟨dest', hcopy, -⟩ := copy_extends hholds.written (by omega : 0 + src.length ≤ src.length)
      (by rw [hholds.size, hlen]; omega)
    rw [← hholds.op] at hcopy
    rw [Nat.sub_zero, hput]
    simp only [bind, Except.bind, hcopy]
    exact ⟨_, rfl⟩

/-- The first match is refused: at least one literal is before it. -/
theorem step_small {dest : List UInt8} (hsmall : dest.length ≤ 10) {table : Table}
    (hbelow : Below table 1) (h : Nat) :
    (∃ r, v.step src dest.length ⟨table, ⟨dest, 0⟩, .mainLoop 1 0 h⟩ = .ok (.inr r)) ∨
      ∃ table', v.step src dest.length ⟨table, ⟨dest, 0⟩, .mainLoop 1 0 h⟩ =
        .ok (.inl ⟨table', ⟨dest, 0⟩, .lastLiterals 0⟩) := by
  show (∃ r, v.mainLoop src dest.length table ⟨dest, 0⟩ 1 0 h = _) ∨
    ∃ table', v.mainLoop src dest.length table ⟨dest, 0⟩ 1 0 h = _
  have h12 : mfLimit = 12 := rfl
  rcases @Variant.findMatch_spec src v 0 1 h table hbelow with hnone |
    ⟨ip, ref, table', hfind, -, hroom, href, -, -, hsame⟩
  · rw [mainLoop, hnone]
    exact .inr ⟨table, rfl⟩
  · obtain ⟨k, hcatch, -, hkref, -⟩ := catchUp_spec (by omega) (Nat.le_of_lt href)
      (Nat.zero_le ip) hsame
    have hrefused : (⟨dest, 0⟩ : Out).putLiterals src dest.length 0 (ip - k) = .ok none := by
      rw [Out.putLiterals, if_pos (by rw [lastLiterals]; omega)]
      rfl
    rw [mainLoop, hfind]
    simp only [bind, Except.bind, hcatch, hrefused]
    exact .inl ⟨_, rfl⟩

/-- A compression into a small buffer comes to an end. -/
theorem compress_small (v : Variant) (src : List UInt8) {dest : List UInt8}
    (hsmall : dest.length ≤ 10) : ∃ r, v.compress src dest dest.length = .ok r := by
  obtain ⟨r, hlast⟩ := v.encodeLastLiterals_small src hsmall
  have hdone (table : Table) :
      v.step src dest.length ⟨table, ⟨dest, 0⟩, .lastLiterals 0⟩ = .ok (.inr r) := hlast
  rw [compress]
  by_cases hlong : minLength ≤ src.length
  · obtain ⟨h, hstart⟩ := v.start_long dest hlong
    rw [hstart]
    rcases @step_small v src dest hsmall _ (fun _ ↦ Nat.zero_lt_one) h with
      ⟨r', hrefused⟩ | ⟨table, hnone⟩
    · exact ⟨r', run_done hrefused⟩
    · exact ⟨r, (run_next hnone).trans (run_done (hdone table))⟩
  · rw [start, if_pos (by omega)]
    exact ⟨r, run_done (hdone _)⟩

/-! ### Larger limits -/

/-- Equal bytes are a literal and one match with it. -/
theorem findMatch_replicate {n : Nat} (hv : v.distance.all (1 ≤ 0 + ·) = true)
    (hn : 2 + mfLimit ≤ n) (b : UInt8) (h : Nat) :
    ∃ table, v.findMatch (List.replicate n b) 0 1 h (fun _ ↦ 0) = .ok (some (1, 0, table)) := by
  have h12 : mfLimit = 12 := rfl
  have hstep : (2 ^ skipStrength + 3 + 0) / 2 ^ skipStrength = 1 := rfl
  have hlen : (List.replicate n b).length = n := List.length_replicate
  obtain ⟨hash, hhash⟩ := v.hashValue_spec (by omega : 1 + 1 + 4 ≤ (List.replicate n b).length)
  have haccepts : v.accepts (List.replicate n b) 1 0 = .ok true := by
    have hsame : load (List.replicate n b) 0 4 = load (List.replicate n b) 1 4 := by
      apply (Same.iff_load (by omega) (by omega)).mpr
      intro j hj
      rw [List.getElem?_replicate, List.getElem?_replicate, if_pos (by omega), if_pos (by omega)]
    rw [accepts, if_pos hv, read_eq (by omega), read_eq (by omega), hsame]
    simp only [bind, Except.bind, pure, Except.pure, decide_true]
  rw [findMatch, hstep]
  dsimp only
  rw [if_neg (by omega), hhash]
  simp only [bind, Except.bind, haccepts]
  exact ⟨_, rfl⟩

/-- The match is written beyond the end of the buffer when it is long enough. -/
theorem compress_replicate (hv : v.distance.all (1 ≤ 0 + ·) = true) {dest : List UInt8}
    (hlimit : 10 < dest.length) (b : UInt8) :
    v.compress (List.replicate (255 * dest.length + 25) b) dest dest.length =
      .error .outOfBounds := by
  have h12 : mfLimit = 12 := rfl
  have h13 : minLength = 13 := rfl
  have h4 : minMatch = 4 := rfl
  have h5 : lastLiterals = 5 := rfl
  have hlen : (List.replicate (255 * dest.length + 25) b).length = 255 * dest.length + 25 :=
    List.length_replicate
  have hsame : Same (List.replicate (255 * dest.length + 25) b) (0 + minMatch) (1 + minMatch)
      (255 * dest.length + 15) := by
    intro j hj
    rw [List.getElem?_replicate, List.getElem?_replicate, if_pos (by omega), if_pos (by omega)]
  have hfind := v.findMatch_replicate hv (n := 255 * dest.length + 25) (by omega) b
  generalize List.replicate (255 * dest.length + 25) b = src at hlen hsame hfind
  obtain ⟨h, hstart⟩ := v.start_long dest (by omega : minLength ≤ src.length)
  obtain ⟨table, hfind⟩ := hfind h
  have hout : (⟨dest, 0⟩ : Out).Holds [] dest.length := ⟨List.nil_prefix, rfl, rfl⟩
  -- The literal passes the check.
  obtain ⟨out₁, hliterals, hholds₁⟩ := hout.putLiterals_spec (Nat.zero_le 1)
    (by omega : 1 + 8 ≤ src.length)
    (by rw [List.length_nil]; omega : [].length + 1 + (1 - 0) + 8 + (1 - 0) / 256 < dest.length)
    (by rw [List.length_nil]; omega)
  have hmain : v.step src dest.length ⟨fun _ ↦ 0, ⟨dest, 0⟩, .mainLoop 1 0 h⟩ =
      .ok (.inl ⟨table, out₁, .nextMatch 1 0 0⟩) := by
    show v.mainLoop src dest.length _ _ 1 0 h = _
    rw [mainLoop, hfind]
    have hcatch : catchUp src 0 1 0 = .ok (1, 0) := rfl
    simp only [bind, Except.bind, hcatch, hliterals]
    rfl
  -- The offset fits behind it, and the length of the match is not checked.
  have hlits : (lengthBytes (1 - 0) ++ load src 0 (1 - 0)).length = 1 := by
    rw [List.length_append, length_lengthBytes, length_load (by omega)]
  have hle : (leBytes 2 (1 - 0)).length = 2 := length_leBytes 2 _
  obtain ⟨out₂, hoffset, hholds₂⟩ := @Out.Holds.puts_spec out₁ _ _ hholds₁ (leBytes 2 (1 - 0)) (by
    rw [List.nil_append, List.length_cons, hlits, hle]
    omega)
  rw [List.append_assoc, List.cons_append] at hholds₂
  obtain ⟨m, hcount, hcounted⟩ := countMatch_spec
    (by omega : 0 + minMatch ≤ 1 + minMatch) (by omega : _ ≤ src.length)
  have hm : 255 * dest.length + 15 ≤ m := hcounted.longest hsame (by omega)
  obtain ⟨out₃, hadd, hholds₃⟩ := hholds₂.addToken_spec runMask
  have hrun : out₃.putRun2 (m - runMask) = .error .outOfBounds := by
    apply hholds₃.putRun2_trap
    rw [runMask]
    omega
  have hmatch : v.step src dest.length ⟨table, out₁, .nextMatch 1 0 0⟩ = .error .outOfBounds := by
    show v.nextMatch src table out₁ 1 0 0 = _
    have hcancel : 1 + minMatch + m - (1 + minMatch) = m := by omega
    have hadd' : out₂.addToken 0 runMask = .ok out₃ := hadd
    have hlength : out₂.putMatchLength 0 m = .error .outOfBounds := by
      rw [Out.putMatchLength, if_pos (by rw [runMask]; omega), hadd']
      exact hrun
    rw [nextMatch, hoffset]
    simp only [bind, Except.bind, hcount, hcancel, hlength]
  rw [compress, hstart]
  exact (run_next hmain).trans (run_trap hmatch)

end Variant

/-- `LZ4_compress_limitedOutput` writes nothing outside a buffer of up to 8421504 bytes, whatever
the source, exactly when the buffer is of at most ten. -/
theorem limitedOutput_safe_iff {maxOutputSize : Nat} (hmax : maxOutputSize ≤ 8421504) :
    (∀ source dest : List UInt8, source.length < intLimit → dest.length = maxOutputSize →
      lz4CompressLimitedOutput source dest maxOutputSize ≠ .error .outOfBounds) ↔
      maxOutputSize ≤ 10 := by
  constructor
  · intro hsafe
    by_contra hlimit
    have hlen : (List.replicate maxOutputSize (0 : UInt8)).length = maxOutputSize :=
      List.length_replicate
    have hsource := hsafe (List.replicate (255 * maxOutputSize + 25) 5)
      (List.replicate maxOutputSize 0) (by rw [List.length_replicate, intLimit]; omega) hlen
    apply hsource
    generalize List.replicate maxOutputSize (0 : UInt8) = dest at hlen
    rw [lz4CompressLimitedOutput, ← hlen]
    split
    · exact variant64k.compress_replicate rfl (by omega) 5
    · exact variantCtx.compress_replicate rfl (by omega) 5
  · intro hlimit source dest hint hlen
    subst hlen
    rw [lz4CompressLimitedOutput]
    split
    · obtain ⟨r, hr⟩ := variant64k.compress_small source hlimit
      rw [lz4Compress64kCtx, hr]
      intro htrap
      cases htrap
    · obtain ⟨r, hr⟩ := variantCtx.compress_small source hlimit
      rw [lz4CompressCtx, hr]
      intro htrap
      cases htrap

/-- A buffer of 64 bytes is written beyond its end. -/
theorem limitedOutput_safe_iff_sixtyFour :
    (∀ source dest : List UInt8, source.length < intLimit → dest.length = 64 →
      lz4CompressLimitedOutput source dest 64 ≠ .error .outOfBounds) ↔ 64 ≤ 10 :=
  @limitedOutput_safe_iff 64 (by decide)

end Mema.Lz4
