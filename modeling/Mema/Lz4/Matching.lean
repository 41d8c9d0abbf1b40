import Mathlib.Data.Nat.Bitwise
import Mema.Lz4.Compress

/-!
# Finding and measuring a match

What the search, the catching up and the counting of `lz4.c:383–447` come to: a reference
before the position, near enough, with equal bytes up to a longest length.
-/

namespace Mema.Lz4

open Bytes Memory

/-- `n` bytes at two positions agree. -/
def Same (src : List UInt8) (a b n : Nat) : Prop := ∀ j < n, src[a + j]? = src[b + j]?

namespace Same

variable {src : List UInt8} {a b m n : Nat}

theorem zero (src : List UInt8) (a b : Nat) : Same src a b 0 := fun j hj ↦ absurd hj (by omega)

theorem le (h : Same src a b n) (hm : m ≤ n) : Same src a b m := fun j hj ↦ h j (by omega)

theorem append (h : Same src a b m) (h' : Same src (a + m) (b + m) n) :
    Same src a b (m + n) := by
  intro j hj
  by_cases hm : j < m
  · exact h j hm
  · have hrest := h' (j - m) (by omega)
    have ha : a + m + (j - m) = a + j := by omega
    have hb : b + m + (j - m) = b + j := by omega
    rw [ha, hb] at hrest
    exact hrest

theorem drop (h : Same src a b (m + n)) : Same src (a + m) (b + m) n := by
  intro j hj
  rw [Nat.add_assoc, Nat.add_assoc]
  exact h (m + j) (by omega)

/-- Agreeing bytes are equal loads. -/
theorem iff_load (ha : a + n ≤ src.length) (hb : b + n ≤ src.length) :
    load src a n = load src b n ↔ Same src a b n := by
  have hcell (p j : Nat) (hj : j < n) : (load src p n)[j]? = src[p + j]? := by
    rw [load, List.getElem?_take_of_lt hj, List.getElem?_drop]
  constructor
  · intro h j hj
    rw [← hcell a j hj, ← hcell b j hj, h]
  · intro h
    apply List.ext_getElem?
    intro j
    by_cases hj : j < n
    · rw [hcell a j hj, hcell b j hj, h j hj]
    · rw [List.getElem?_eq_none (by rw [length_load ha]; omega),
        List.getElem?_eq_none (by rw [length_load hb]; omega)]

end Same

/-! ### The first differing byte -/

/-- A number that begins with so many zero bits. -/
theorem ctz_add (k w val : Nat) :
    ctz (k + w) val = if val % 2 ^ k = 0 then k + ctz w (val / 2 ^ k) else ctz k val := by
  induction k generalizing val with
  | zero => simp [Nat.mod_one]
  | succ k ih =>
    have hw : k + 1 + w = k + w + 1 := by omega
    have hmod : val % 2 ^ (k + 1) = val % 2 + 2 * (val / 2 % 2 ^ k) := by
      rw [Nat.pow_succ', Nat.mod_mul]
    have hdiv : val / 2 ^ (k + 1) = val / 2 / 2 ^ k := by
      rw [Nat.pow_succ', Nat.div_div_eq_div_mul]
    rw [hw, ctz, ctz, ih, hmod, hdiv]
    by_cases hodd : val % 2 = 1
    · rw [if_pos hodd, if_pos hodd, if_neg (by omega)]
    · rw [if_neg hodd, if_neg hodd]
      by_cases hzero : val / 2 % 2 ^ k = 0
      · rw [if_pos hzero, if_pos (by omega)]
        omega
      · rw [if_neg hzero, if_neg (by omega)]

theorem ctz_lt {w val : Nat} (h : val % 2 ^ w ≠ 0) : ctz w val < w := by
  induction w generalizing val with
  | zero => exact absurd (Nat.mod_one val) h
  | succ w ih =>
    rw [ctz]
    split
    · omega
    · next heven =>
      have hmod : val % 2 ^ (w + 1) = val % 2 + 2 * (val / 2 % 2 ^ w) := by
        rw [Nat.pow_succ', Nat.mod_mul]
      have := ih (by omega : val / 2 % 2 ^ w ≠ 0)
      omega

/-- The low byte and the rest of an exclusive or of two words. -/
theorem xor_cons (x y : UInt8) (xs ys : List UInt8) :
    (leNat (x :: xs) ^^^ leNat (y :: ys)) % 2 ^ 8 = x.toNat ^^^ y.toNat ∧
      (leNat (x :: xs) ^^^ leNat (y :: ys)) / 2 ^ 8 = leNat xs ^^^ leNat ys := by
  have hx := x.toNat_lt
  have hy := y.toNat_lt
  have hmod (z : UInt8) (zs : List UInt8) : leNat (z :: zs) % 2 ^ 8 = z.toNat := by
    have := z.toNat_lt
    rw [leNat]
    omega
  have hdiv (z : UInt8) (zs : List UInt8) : leNat (z :: zs) >>> 8 = leNat zs := by
    have := z.toNat_lt
    rw [leNat, Nat.shiftRight_eq_div_pow]
    omega
  constructor
  · rw [Nat.xor_mod_two_pow, hmod, hmod]
  · rw [← Nat.shiftRight_eq_div_pow, Nat.shiftRight_xor_distrib, hdiv, hdiv]

/-- Counting the zero bits of the exclusive or of two different words finds the first byte in
which they differ. -/
theorem ctz_xor {xs ys : List UInt8} (hlen : xs.length = ys.length) (hne : xs ≠ ys) (w : Nat) :
    ∃ m, ctz (8 * xs.length + w) (leNat xs ^^^ leNat ys) / 2 ^ 3 = m ∧ m < xs.length ∧
      (∀ j < m, xs[j]? = ys[j]?) ∧ xs[m]? ≠ ys[m]? := by
  induction xs generalizing ys with
  | nil =>
    cases ys with
    | nil => exact absurd rfl hne
    | cons y ys => cases hlen
  | cons x xs ih =>
    cases ys with
    | nil => cases hlen
    | cons y ys =>
      obtain ⟨hlow, hhigh⟩ := xor_cons x y xs ys
      have hwidth : 8 * (x :: xs).length + w = 8 + (8 * xs.length + w) := by
        rw [List.length_cons]
        ring
      rw [hwidth, ctz_add, hlow, hhigh]
      by_cases hxy : x = y
      · subst hxy
        obtain ⟨m, hm, hlt, hsame, hdiff⟩ := ih (Nat.succ.inj hlen) fun h ↦ hne (by rw [h])
        refine ⟨m + 1, ?_, by rw [List.length_cons]; omega, ?_, hdiff⟩
        · rw [if_pos (Nat.xor_self _), ← hm]
          omega
        · intro j hj
          cases j with
          | zero => rfl
          | succ j => exact hsame j (by omega)
      · have hnz : x.toNat ^^^ y.toNat ≠ 0 := by
          intro h
          have hcancel := Nat.xor_xor_cancel_left x.toNat y.toNat
          rw [h, Nat.xor_zero] at hcancel
          exact hxy (UInt8.toNat_inj.mp hcancel)
        rw [if_neg hnz]
        rw [← hlow] at hnz
        have hlt := ctz_lt hnz
        refine ⟨0, by omega, by rw [List.length_cons]; omega, fun j hj ↦ absurd hj (by omega), ?_⟩
        intro h
        exact hxy (Option.some.inj h)

/-- Words with the same bytes, and only those, have no differing bit. -/
theorem xor_eq_zero_iff {xs ys : List UInt8} (hlen : xs.length = ys.length) :
    leNat xs ^^^ leNat ys = 0 ↔ xs = ys := by
  constructor
  · intro h
    by_contra hne
    obtain ⟨m, hm, hlt, -⟩ := ctz_xor hlen hne 1
    have hzero (w : Nat) : ctz w 0 = w := by
      induction w with
      | zero => rfl
      | succ w ih => rw [ctz, if_neg (by decide), Nat.zero_div, ih]
    rw [h, hzero] at hm
    omega
  · rintro rfl
    exact Nat.xor_self _

/-! ### Counting -/

/-- `n` bytes read at two positions are compared. -/
theorem compare_eq {src : List UInt8} {a b n : Nat} (ha : a + n ≤ src.length)
    (hb : b + n ≤ src.length) {α : Type} (yes no : Except Trap α) :
    (do if (← read src a n) = (← read src b n) then yes else no) =
      (if load src a n = load src b n then yes else no) := by
  rw [read_eq ha, read_eq hb]
  rfl

/-- `m` bytes have been counted, and less than `n` more agree before the last literals. -/
structure Counted (src : List UInt8) (ip ref n m : Nat) : Prop where
  fits : ip + m + lastLiterals ≤ src.length
  same : Same src ref ip m
  ends : src.length < ip + m + n + lastLiterals ∨ ¬Same src (ref + m) (ip + m) n

/-- A comparison of `n` bytes halves what may still agree. -/
theorem Counted.tail {src : List UInt8} {ip ref n m : Nat} (h : Counted src ip ref (n + n) m)
    (hle : ref ≤ ip) :
    ∃ m', countTail src n (ip + m, ref + m) = .ok (ip + m', ref + m') ∧
      Counted src ip ref n m' := by
  rw [countTail]
  by_cases hroom : ip + m + n + lastLiterals ≤ src.length
  · rw [if_pos hroom, compare_eq (by omega) (by omega)]
    by_cases hsame : Same src (ref + m) (ip + m) n
    · rw [if_pos ((Same.iff_load (by omega) (by omega)).mpr hsame)]
      refine ⟨m + n, ?_, by omega, h.same.append hsame, ?_⟩
      · rw [Nat.add_assoc, Nat.add_assoc]
        rfl
      · rcases h.ends with hend | hdiff
        · exact .inl (by omega)
        · refine .inr fun hmore ↦ hdiff (hsame.append ?_)
          rw [Nat.add_assoc, Nat.add_assoc]
          exact hmore
    · rw [if_neg fun hload ↦ hsame ((Same.iff_load (by omega) (by omega)).mp hload)]
      exact ⟨m, rfl, h.fits, h.same, .inr hsame⟩
  · rw [if_neg hroom]
    exact ⟨m, rfl, h.fits, h.same, .inl (by omega)⟩

/-- Everything that agrees has been counted. -/
theorem Counted.longest {src : List UInt8} {ip ref m j : Nat} (h : Counted src ip ref 1 m)
    (hsame : Same src ref ip j) (hj : ip + j + lastLiterals ≤ src.length) : j ≤ m := by
  by_contra hlt
  rcases h.ends with hend | hdiff
  · omega
  · exact hdiff (hsame.le (by omega : m + 1 ≤ j)).drop

/-- The counting loop ends where the bytes differ or the last literals begin. -/
theorem countMatch_spec {src : List UInt8} {ip ref : Nat} (hle : ref ≤ ip)
    (hip : ip + lastLiterals ≤ src.length) :
    ∃ m, countMatch src ip ref = .ok (ip + m) ∧ Counted src ip ref 1 m := by
  induction hfuel : src.length - ip using Nat.strong_induction_on generalizing ip ref with
  | _ fuel ih =>
    rw [countMatch]
    by_cases hroom : ip + 8 + lastLiterals ≤ src.length
    · have href : ref + 8 ≤ src.length := by omega
      have hip8 : ip + 8 ≤ src.length := by omega
      have hlen : (load src ref 8).length = (load src ip 8).length := by
        rw [length_load href, length_load hip8]
      rw [if_pos hroom, read_eq href, read_eq hip8]
      simp only [bind, Except.bind, pure, Except.pure]
      by_cases heq : load src ref 8 = load src ip 8
      · have hsame := (Same.iff_load href hip8).mp heq
        obtain ⟨m, hrun, hcounted⟩ := ih (src.length - (ip + 8)) (by omega)
          (by omega : ref + 8 ≤ ip + 8) (by omega) rfl
        rw [if_pos ((xor_eq_zero_iff hlen).mpr heq), hrun, Nat.add_assoc]
        refine ⟨8 + m, rfl, ?_, hsame.append hcounted.same, ?_⟩
        · have := hcounted.fits
          omega
        · rw [← Nat.add_assoc, ← Nat.add_assoc]
          exact hcounted.ends
      · obtain ⟨m, hm, hlt, hbytes, hdiff⟩ := ctz_xor hlen heq 0
        have h8 : 8 * (load src ref 8).length + 0 = 64 := by rw [length_load href]
        have hcell (p j : Nat) (hj : j < 8) : (load src p 8)[j]? = src[p + j]? := by
          rw [load, List.getElem?_take_of_lt hj, List.getElem?_drop]
        rw [h8] at hm
        rw [length_load href] at hlt
        rw [if_neg ((xor_eq_zero_iff hlen).not.mpr heq), nbCommonBytes, hm]
        refine ⟨m, rfl, by omega, ?_, .inr ?_⟩
        · intro j hj
          rw [← hcell ref j (by omega), ← hcell ip j (by omega)]
          exact hbytes j hj
        · intro hsame
          have hzero := hsame 0 (by omega)
          rw [Nat.add_zero, Nat.add_zero, ← hcell ref m hlt, ← hcell ip m hlt] at hzero
          exact hdiff hzero
    · have hstart : Counted src ip ref (4 + 4) 0 :=
        ⟨by omega, Same.zero src ref ip, .inl (by omega)⟩
      obtain ⟨m₄, hrun₄, hcounted₄⟩ := hstart.tail hle
      obtain ⟨m₂, hrun₂, hcounted₂⟩ := Counted.tail (n := 2) hcounted₄ hle
      obtain ⟨m₁, hrun₁, hcounted₁⟩ := Counted.tail (n := 1) hcounted₂ hle
      rw [Nat.add_zero, Nat.add_zero] at hrun₄
      refine ⟨m₁, ?_, hcounted₁⟩
      rw [if_neg hroom]
      simp only [bind, Except.bind, pure, Except.pure, hrun₄, hrun₂, hrun₁]

/-! ### The search -/

/-- What is asked of the differing parts: references that are near, also without a check, and
an allowance for the last literals that does not exceed the bound. -/
structure Variant.Serves (v : Variant) (isize : Nat) : Prop where
  near : ∀ ip ref, ip + mfLimit ≤ isize → v.distance.all (ip ≤ ref + ·) = true →
    ip ≤ ref + maxDistance
  tail : ∀ lastRun, v.tailRoom lastRun ≤ lastRun / 255

theorem variantCtx_serves (isize : Nat) : variantCtx.Serves isize where
  near ip ref _ h := by simpa [variantCtx] using h
  tail lastRun := by
    change (lastRun - 15) / 255 ≤ lastRun / 255
    omega

/-- Without a distance check the source is so short that every reference is near. -/
theorem variant64k_serves {isize : Nat} (h : isize < lz464kLimit) : variant64k.Serves isize where
  near ip ref hip _ := by
    rw [lz464kLimit] at h
    rw [maxDistance]
    simp only [mfLimit, copyLength, minMatch] at h hip
    omega
  tail lastRun := by
    change lastRun / 2 ^ 8 ≤ lastRun / 255
    omega

/-- Every position in the table is below `n`. -/
def Below (table : Table) (n : Nat) : Prop := ∀ h, table h < n

theorem Below.le {table : Table} {m n : Nat} (h : Below table m) (hmn : m ≤ n) :
    Below table n := fun i ↦ Nat.lt_of_lt_of_le (h i) hmn

/-- Entering a position keeps the table below what is above it. -/
theorem Below.put {table : Table} {n : Nat} (h : Below table n) (v : Variant) (i : Nat) {p : Nat}
    (hp : p < n) : Below (v.put table i p) n := by
  intro j
  rw [Variant.put, Function.update_apply]
  split
  · exact Nat.lt_of_le_of_lt (Nat.mod_le _ _) hp
  · exact h j

namespace Variant

variable {v : Variant} {src : List UInt8}

theorem hashValue_spec (v : Variant) {p : Nat} (hp : p + 4 ≤ src.length) :
    ∃ h, v.hashValue src p = .ok h := by
  refine ⟨v.hashFunction (leNat (load src p 4)), ?_⟩
  rw [hashValue, read_eq hp]
  rfl

theorem accepts_spec (v : Variant) {ip ref : Nat} (hip : ip + 4 ≤ src.length)
    (href : ref ≤ ip) :
    ∃ b, v.accepts src ip ref = .ok b ∧
      (b = true → v.distance.all (ip ≤ ref + ·) = true ∧ Same src ref ip 4) := by
  rw [accepts]
  by_cases hnear : v.distance.all (ip ≤ ref + ·) = true
  · rw [if_pos hnear, read_eq (by omega), read_eq hip]
    refine ⟨decide (load src ref 4 = load src ip 4), rfl, fun h ↦ ⟨hnear, ?_⟩⟩
    exact (Same.iff_load (by omega) hip).mp (of_decide_eq_true h)
  · rw [if_neg hnear]
    exact ⟨false, rfl, fun h ↦ nomatch h⟩

/-- The search ends at the end of the source, or at a position and a reference before it that
agree in four bytes. -/
theorem findMatch_spec (v : Variant) {k ip h : Nat} {table : Table} (hbelow : Below table ip) :
    v.findMatch src k ip h table = .ok none ∨
    ∃ ip' ref table', v.findMatch src k ip h table = .ok (some (ip', ref, table')) ∧
      ip ≤ ip' ∧ ip' + 1 + mfLimit ≤ src.length ∧ ref < ip' ∧ Below table' (ip' + 1) ∧
      v.distance.all (ip' ≤ ref + ·) = true ∧ Same src ref ip' 4 := by
  induction hfuel : src.length - ip using Nat.strong_induction_on
    generalizing k ip h table with
  | _ fuel ih =>
    have hstep : 0 < (2 ^ skipStrength + 3 + k) / 2 ^ skipStrength :=
      Nat.div_pos (by omega) (by decide)
    generalize hs : (2 ^ skipStrength + 3 + k) / 2 ^ skipStrength = s at hstep
    rw [findMatch, hs]
    dsimp only
    by_cases hend : src.length < ip + s + mfLimit
    · rw [if_pos hend]
      exact .inl rfl
    · have h12 : mfLimit = 12 := rfl
      obtain ⟨hash, hhash⟩ := v.hashValue_spec (p := ip + s) (by omega : _ ≤ src.length)
      obtain ⟨b, haccepts, hb⟩ := v.accepts_spec
        (by omega : ip + 4 ≤ src.length) (Nat.le_of_lt (hbelow h))
      have hput := (hbelow.le (Nat.le_succ ip)).put v h (Nat.lt_succ_self ip)
      rw [if_neg hend, hhash]
      simp only [bind, Except.bind, pure, Except.pure, haccepts]
      cases b with
      | true =>
        obtain ⟨hnear, hsame⟩ := hb rfl
        exact .inr ⟨ip, table h, _, rfl, Nat.le_refl _, by omega, hbelow h, hput, hnear, hsame⟩
      | false =>
        rcases ih (src.length - (ip + s)) (by omega) (k := k + 1) (h := hash)
          (hput.le (by omega : ip + 1 ≤ ip + s)) rfl
          with hnone | ⟨ip', ref, table', hrun, hle, hrest⟩
        · exact .inl hnone
        · exact .inr ⟨ip', ref, table', hrun, by omega, hrest⟩

end Variant

/-- Catching up goes back some steps over bytes that agree, not past the anchor. -/
theorem catchUp_spec {src : List UInt8} {anchor ip ref m : Nat} (hip : ip ≤ src.length)
    (hle : ref ≤ ip) (hanchor : anchor ≤ ip) (hsame : Same src ref ip m) :
    ∃ k, catchUp src anchor ip ref = .ok (ip - k, ref - k) ∧ anchor + k ≤ ip ∧ k ≤ ref ∧
      Same src (ref - k) (ip - k) (k + m) := by
  have hstay : ∃ k, .ok (ip, ref) = Except.ok (ε := Trap) (ip - k, ref - k) ∧ anchor + k ≤ ip ∧
      k ≤ ref ∧ Same src (ref - k) (ip - k) (k + m) :=
    ⟨0, rfl, hanchor, Nat.zero_le _, by rw [Nat.zero_add]; exact hsame⟩
  induction ip generalizing ref m with
  | zero =>
    rw [catchUp]
    · exact hstay
    · intro _ _ h
      cases h
  | succ ip ih =>
    cases ref with
    | zero =>
      rw [catchUp]
      · exact hstay
      · intro _ _ _ h
        cases h
    | succ ref =>
      rw [catchUp]
      by_cases hmore : anchor < ip + 1
      · rw [if_pos hmore, readCell_eq (by omega : ip < src.length),
          readCell_eq (by omega : ref < src.length)]
        simp only [bind, Except.bind, pure, Except.pure]
        by_cases hcell : src[ip] = src[ref]
        · have hone : Same src ref ip (1 + m) := by
            apply Same.append _ hsame
            intro j hj
            have hj0 : j = 0 := by omega
            subst hj0
            rw [Nat.add_zero, Nat.add_zero, List.getElem?_eq_getElem (by omega),
              List.getElem?_eq_getElem (by omega), hcell]
          obtain ⟨k, hrun, hk, hkref, hback⟩ := ih (by omega) (by omega) (by omega) hone
            ⟨0, rfl, by omega, Nat.zero_le _, by rw [Nat.zero_add]; exact hone⟩
          rw [if_pos hcell, hrun]
          refine ⟨k + 1, ?_, by omega, by omega, ?_⟩
          · rw [Nat.add_sub_add_right, Nat.add_sub_add_right]
          · rw [Nat.add_sub_add_right, Nat.add_sub_add_right, Nat.add_assoc]
            exact hback
        · rw [if_neg hcell]
          exact hstay
      · rw [if_neg hmore]
        exact hstay

end Mema.Lz4
