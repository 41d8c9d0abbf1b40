import Mathlib.Tactic.NormNum
import Mema.Lib.Machine

/-!
# Dragging and zooming

`memaviz/main.go:121–166,236–257`: the width of the window, its first record and the record under
the mouse, as the callbacks for the mouse position and the mouse wheel move them. A drag moves the
window after the record under the mouse has been computed, and the wheel can shift the width
down to nothing.
-/

namespace Mema

/-! ### Go arithmetic -/

/-- `x << n` for a 64-bit `x`. -/
def goShl (x : Int64) (n : UInt64) : Int64 := if n < 64 then x <<< n.toInt64 else 0

/-- `x >> n`. -/
def goShr (x : Int64) (n : UInt64) : Int64 :=
  if n < 64 then x >>> n.toInt64 else if x < 0 then -1 else 0

/-- The integer part. -/
def trunc (q : Rat) : Int := q.num.tdiv q.den

/-- `int64(q)`: truncation of what fits; what becomes of other values, infinities and NaN
included, is up to the implementation. -/
def toInt64 (beyond : Option Rat → Int64) : Option Rat → Int64
  | some q =>
    if -2 ^ 63 ≤ trunc q ∧ trunc q < 2 ^ 63 then .ofInt (trunc q) else beyond (some q)
  | none => beyond none

/-! ### The callbacks -/

/-- The variables the callbacks share, `main.go:22,121–131`; `recIndex` is `rec`. -/
structure Nav where
  nback : Int64
  i : Int64
  recIndex : Int64
  recActual : Int64
  mousepy : Rat
  deriving DecidableEq

/-- A mouse-position callback with the projected coordinate and the state of the left button, or
a mouse-wheel callback with the wheel's position. -/
inductive Callback
  | mousePos (py : Rat) (lbutton : Bool)
  | mouseWheel (pos : Int64)

namespace Nav

variable (beyond : Option Rat → Int64)

/-- The variables when the callbacks are set. -/
def start (nback : Int64) : Nav := ⟨nback, -nback, 0, 0, 0⟩

/-- `di`, by how much a drag to `py` moves the window. -/
def di (s : Nav) (py : Rat) : Int64 :=
  toInt64 beyond (some (-(py - s.mousepy) * s.nback.toInt / 4))

/-- `SetMousePosCallback`, `main.go:236–257`. -/
def mousePos (py : Rat) (lbutton : Bool) (s : Nav) : Nav :=
  let recIndex := toInt64 beyond (some ((py + 2) * s.nback.toInt / 4 + 1 / 2))
  { s with
    recIndex := recIndex
    recActual := recIndex + s.i
    i := if lbutton then s.i + s.di beyond py else s.i
    mousepy := py }

/-- The new width, `main.go:139–143`. -/
def wheelNback (pos : Int64) : Int64 :=
  if pos < 0 then goShl (40 * 1024) (-pos).toUInt64 else goShr (40 * 1024) pos.toUInt64

/-- `constpart`, `main.go:158`; nothing is left of a division by zero. -/
def constpart (s : Nav) : Option Rat :=
  if s.nback = 0 then none else some ((s.recActual - s.i).toInt / s.nback.toInt)

/-- `SetMouseWheelCallback`, `main.go:137–166`. -/
def mouseWheel (pos : Int64) (s : Nav) : Nav :=
  let nback := wheelNback pos
  if s.recIndex = 0 then { s with nback := nback }
  else
    let recActualAfter := s.i + toInt64 beyond (s.constpart.map (· * (nback.toInt : Rat)))
    let i := s.i - (recActualAfter - s.recActual)
    { s with nback := nback, i := i, recIndex := s.recActual - i }

/-- One callback. -/
def step (s : Nav) : Callback → Nav
  | .mousePos py lbutton => s.mousePos beyond py lbutton
  | .mouseWheel pos => s.mouseWheel beyond pos

/-! ### Coherence -/

/-- The window is not empty, and `recActual` is the record under the mouse. -/
structure Coherent (s : Nav) : Prop where
  nback : 1 ≤ s.nback
  recActual : s.recActual = s.i + s.recIndex

instance (s : Nav) : Decidable s.Coherent :=
  decidable_of_iff (1 ≤ s.nback ∧ s.recActual = s.i + s.recIndex)
    ⟨fun h ↦ ⟨h.1, h.2⟩, fun h ↦ ⟨h.nback, h.recActual⟩⟩

/-- A zoom does not divide by zero, and is about the record under the mouse. -/
def ZoomSound (s : Nav) : Callback → Prop
  | .mousePos _ _ => True
  | .mouseWheel _ => s.constpart.isSome = true ∧ s.recActual = s.i + s.recIndex

/-- What every callback should do: zoom soundly, and leave the variables coherent. -/
def Sound (s : Nav) (cb : Callback) : Prop := s.ZoomSound cb ∧ (s.step beyond cb).Coherent

/-- A callback that keeps the variables coherent: no drag by a record or more, and no wheel
position that shifts every bit of the width out, or one into its sign. -/
def Harmless (s : Nav) : Callback → Prop
  | .mousePos py lbutton => lbutton = false ∨ s.di beyond py = 0
  | .mouseWheel pos => -47 ≤ pos ∧ pos ≤ 15 ∨ pos = -49

/-- Which shifts leave a positive number, from those by less than 64; longer ones leave nothing. -/
private theorem one_le_shift_iff {shift : UInt64 → Int64} {p : Nat → Prop}
    (hbits : ∀ k < 64, 1 ≤ shift (.ofNat k) ↔ p k) (hover : ∀ n, ¬ n < 64 → shift n = 0)
    (hp : ∀ k, p k → k < 64) (n : UInt64) : 1 ≤ shift n ↔ p n.toNat := by
  by_cases hn : n < 64
  · have hshift := hbits n.toNat (UInt64.lt_iff_toNat_lt.mp hn)
    rw [UInt64.ofNat_toNat] at hshift
    exact hshift
  · rw [hover n hn]
    apply iff_of_false (by decide)
    exact fun h ↦ hn (UInt64.lt_iff_toNat_lt.mpr (hp _ h))

/-- A width of 40960 stays positive over these shifts to the left. -/
theorem one_le_goShl_iff (n : UInt64) :
    1 ≤ goShl (40 * 1024) n ↔ n.toNat ≤ 47 ∨ n.toNat = 49 := by
  apply one_le_shift_iff (p := fun k ↦ k ≤ 47 ∨ k = 49)
  · decide
  · exact fun n hn ↦ if_neg hn
  · omega

/-- And over these shifts to the right. -/
theorem one_le_goShr_iff (n : UInt64) : 1 ≤ goShr (40 * 1024) n ↔ n.toNat ≤ 15 := by
  apply one_le_shift_iff (p := fun k ↦ k ≤ 15)
  · decide
  · exact fun n hn ↦ if_neg hn
  · omega

/-- The window is not empty after these wheel positions and no others. -/
theorem one_le_wheelNback_iff (pos : Int64) :
    1 ≤ wheelNback pos ↔ -47 ≤ pos ∧ pos ≤ 15 ∨ pos = -49 := by
  have hpos : pos.toInt = if 2 * pos.toUInt64.toNat < 2 ^ 64 then (pos.toUInt64.toNat : Int)
      else pos.toUInt64.toNat - 2 ^ 64 := pos.toBitVec.toInt_eq_toNat_cond
  have hneg : (-pos).toUInt64.toNat = (2 ^ 64 - pos.toUInt64.toNat) % 2 ^ 64 :=
    BitVec.toNat_neg pos.toBitVec
  have hlt := pos.toUInt64.toNat_lt
  have hbounds : (-47 ≤ pos ∧ pos ≤ 15 ∨ pos = -49) ↔
      -47 ≤ pos.toInt ∧ pos.toInt ≤ 15 ∨ pos.toInt = -49 := by
    rw [Int64.le_iff_toInt_le, Int64.le_iff_toInt_le, ← Int64.toInt_inj]
    rfl
  rw [hbounds, wheelNback]
  by_cases hsign : pos < 0
  · have hsign' : pos.toInt < 0 := Int64.lt_iff_toInt_lt.mp hsign
    rw [if_pos hsign, one_le_goShl_iff, hneg]
    split_ifs at hpos <;> omega
  · have hsign' : ¬ pos.toInt < 0 := fun hlt ↦ hsign (Int64.lt_iff_toInt_lt.mpr hlt)
    rw [if_neg hsign, one_le_goShr_iff]
    split_ifs at hpos <;> omega

/-- A distance in records becomes 0 exactly when it is less than one record. -/
theorem toInt64_eq_zero_iff {q : Rat} (hrange : -2 ^ 63 ≤ trunc q ∧ trunc q < 2 ^ 63) :
    toInt64 beyond (some q) = 0 ↔ q.num.natAbs < q.den := by
  have hzero : toInt64 beyond (some q) = 0 ↔ trunc q = 0 := by
    rw [toInt64, if_pos hrange, ← Int64.toInt_inj,
      Int64.toInt_ofInt_of_le hrange.1 hrange.2]
    rfl
  rw [hzero, ← Int.natAbs_eq_zero, trunc, Int.natAbs_tdiv]
  show q.num.natAbs / q.den = 0 ↔ _
  rw [Nat.div_eq_zero_iff]
  exact or_iff_right q.den_nz

variable {beyond : Option Rat → Int64} {s : Nav}

/-- A mouse movement computes the record under the mouse before it drags the window. -/
theorem coherent_mousePos_iff (py : Rat) (lbutton : Bool) :
    (s.mousePos beyond py lbutton).Coherent ↔
      1 ≤ s.nback ∧ s.Harmless beyond (.mousePos py lbutton) := by
  have hactual : (s.mousePos beyond py lbutton).recActual =
      (s.mousePos beyond py lbutton).i + (s.mousePos beyond py lbutton).recIndex ↔
      lbutton = false ∨ s.di beyond py = 0 := by
    simp only [mousePos]
    cases lbutton with
    | false => exact iff_of_true (Int64.add_comm ..) (.inl rfl)
    | true =>
      rw [if_pos rfl, Int64.add_comm, Int64.add_left_inj, eq_comm, Int64.add_eq_left]
      exact (or_iff_right (by decide)).symm
  constructor
  · rintro ⟨hnback, hrec⟩
    exact ⟨hnback, hactual.mp hrec⟩
  · rintro ⟨hnback, hharmless⟩
    exact ⟨hnback, hactual.mpr hharmless⟩

theorem nback_mouseWheel (pos : Int64) : (s.mouseWheel beyond pos).nback = wheelNback pos := by
  simp only [mouseWheel]
  split <;> rfl

/-- A zoom keeps the record under the mouse. -/
theorem coherent_mouseWheel_iff (h : s.Coherent) (pos : Int64) :
    (s.mouseWheel beyond pos).Coherent ↔ s.Harmless beyond (.mouseWheel pos) := by
  have hactual : (s.mouseWheel beyond pos).recActual =
      (s.mouseWheel beyond pos).i + (s.mouseWheel beyond pos).recIndex := by
    simp only [mouseWheel]
    split
    · exact h.recActual
    · exact ((Int64.add_comm ..).trans (Int64.sub_add_cancel ..)).symm
  rw [Harmless, ← one_le_wheelNback_iff, ← nback_mouseWheel]
  exact ⟨Coherent.nback, fun hone ↦ ⟨hone, hactual⟩⟩

/-- In a coherent state every zoom is sound. -/
theorem Coherent.zoomSound (h : s.Coherent) (cb : Callback) : s.ZoomSound cb := by
  cases cb with
  | mousePos py lbutton => trivial
  | mouseWheel pos =>
    have hne : ¬ s.nback = 0 := by
      intro hzero
      have hone := h.nback
      rw [hzero] at hone
      exact absurd hone (by decide)
    refine ⟨?_, h.recActual⟩
    rw [constpart, if_neg hne]
    rfl

/-- A callback in a coherent state leads to a coherent one exactly when it is harmless. -/
theorem coherent_step_iff (h : s.Coherent) (cb : Callback) :
    s.Sound beyond cb ↔ s.Harmless beyond cb := by
  rw [Sound, and_iff_right (h.zoomSound cb)]
  cases cb with
  | mousePos py lbutton => exact (coherent_mousePos_iff py lbutton).trans (and_iff_right h.nback)
  | mouseWheel pos => exact coherent_mouseWheel_iff h pos

/-- Whatever the variables are at the first mouse movement, every callback from it on zooms
soundly and leaves the variables coherent exactly when the window is not empty then and every
callback is harmless in the state it runs in. -/
theorem stays_sound_iff (beyond : Option Rat → Int64) (s : Nav) (py : Rat) (lbutton : Bool)
    (cbs : List Callback) :
    Steps.Each (step beyond) (Sound beyond) s (.mousePos py lbutton :: cbs) ↔
      1 ≤ s.nback ∧ Steps.Each (step beyond) (Harmless beyond) s (.mousePos py lbutton :: cbs) := by
  have hfirst : s.Sound beyond (.mousePos py lbutton) ↔
      1 ≤ s.nback ∧ s.Harmless beyond (.mousePos py lbutton) :=
    (and_iff_right trivial).trans (coherent_mousePos_iff py lbutton)
  have hrest (h : s.Sound beyond (.mousePos py lbutton)) :
      Steps.Each (step beyond) (Sound beyond) (s.step beyond (.mousePos py lbutton)) cbs ↔
        Steps.Each (step beyond) (Harmless beyond) (s.step beyond (.mousePos py lbutton)) cbs := by
    apply Steps.each_congr _ _ h.2
    · exact fun s cb h ↦ coherent_step_iff h cb
    · exact fun s cb _ hsound ↦ hsound.2
  rw [Steps.Each, Steps.Each, ← and_assoc, ← hfirst]
  exact and_congr_right hrest

/-- Dragging over an eighth of the window moves it by 1000 of its 8000 records, and the wheel at
16 leaves a window of none. -/
theorem not_stays_sound :
    ¬ Steps.Each (step fun _ ↦ 0) (Sound fun _ ↦ 0) (start 8000)
        [.mousePos 0 false, .mousePos (1 / 2) true] ∧
      ¬ Steps.Each (step fun _ ↦ 0) (Sound fun _ ↦ 0) (start 8000)
        [.mousePos 0 false, .mouseWheel 16] := by
  constructor
  · rintro ⟨-, hdrag, -⟩
    have hdi := ((coherent_mousePos_iff _ _).mp hdrag.2).2.resolve_left (by decide)
    have hq : -((1 / 2 : Rat) - 0) * ((8000 : Int64).toInt : Rat) / 4 = -1000 := by
      have hwidth : (8000 : Int64).toInt = 8000 := rfl
      norm_num [hwidth]
    have hmoved : toInt64 (fun _ ↦ 0) (some (-((1 / 2 : Rat) - 0) *
        ((8000 : Int64).toInt : Rat) / 4)) = 0 := hdi
    rw [hq] at hmoved
    exact absurd ((toInt64_eq_zero_iff _ (by decide)).mp hmoved) (by decide)
  · rintro ⟨-, hwheel, -⟩
    have hone : 1 ≤ (mouseWheel (fun _ ↦ 0) 16 (mousePos (fun _ ↦ 0) 0 false
        (start 8000))).nback := hwheel.2.nback
    rw [nback_mouseWheel] at hone
    exact absurd hone (by decide)

end Nav

end Mema
