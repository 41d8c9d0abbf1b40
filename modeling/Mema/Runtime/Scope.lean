import Mema.Runtime.Monitoring

/-!
# The scope of function monitoring

`mema_rtl.cpp:288–379`: the entry hook saves the switch, forces it and restores it around a
recursion counter, and the exit hook mirrors it. The counter is the number of monitored
activations that are open, and tracing is on exactly while there is one, as long as an `int` can
count them.
-/

namespace Mema

open Nesting

/-! ### Open activations -/

/-- The activations still open after the calls, innermost first. -/
def openActivations (cs : List Call) : List UInt64 :=
  (replay [] (cs.map Call.token)).getD []

/-- Those of them that are monitored. -/
def openMonitored (addrs : Finset UInt64) (cs : List Call) : List UInt64 :=
  (openActivations cs).filter (· ∈ addrs)

/-- How many monitored activations are open when `frames` were open before the calls. -/
def monitoredDepth (addrs : Finset UInt64) (frames : List UInt64) (cs : List Call) : Nat :=
  (((replay frames (cs.map Call.token)).getD []).filter (· ∈ addrs)).length

namespace Switch

/-- The switch and the counter of a monitoring thread on which these activations are open. -/
structure InStep (s : Switch) (frames : List UInt64) : Prop where
  monitorFunc : s.monitorFunc = true
  named : s.flags.filename.isSome = true
  count : s.monitorFuncEntryCount.toInt = (frames.filter (· ∈ s.monitorFuncAddresses)).length
  off : s.flags.disable = (frames.filter (· ∈ s.monitorFuncAddresses)).isEmpty

theorem InStep.monitors_iff {s : Switch} {frames : List UInt64} (h : s.InStep frames)
    (addr : UInt64) : s.monitors addr = true ↔ addr ∈ s.monitorFuncAddresses := by
  rw [monitors, h.monitorFunc, Bool.true_and, decide_eq_true_iff]

/-- The counter never shows more than an `int` can. -/
theorem InStep.lt {s : Switch} {frames : List UInt64} (h : s.InStep frames) :
    (frames.filter (· ∈ s.monitorFuncAddresses)).length < 2 ^ 31 := by
  have hhigh := s.monitorFuncEntryCount.toInt_lt
  rw [h.count] at hhigh
  omega

/-- A call overflows when it opens one activation too many. -/
theorem InStep.overflows_iff {s : Switch} {frames : List UInt64} (h : s.InStep frames)
    (addr : UInt64) : s.overflows (.functionEntry addr) = false ↔
      ((addr :: frames).filter (· ∈ s.monitorFuncAddresses)).length < 2 ^ 31 := by
  have hlt := h.lt
  rw [overflows]
  by_cases hmem : addr ∈ s.monitorFuncAddresses
  · rw [(h.monitors_iff addr).mpr hmem, Bool.true_and, beq_eq_false_iff_ne, ne_eq,
      ← Int32.toInt_inj, h.count, List.filter_cons_of_pos (by simpa using hmem),
      List.length_cons, show Int32.maxValue.toInt = 2 ^ 31 - 1 from rfl]
    omega
  · have hm : s.monitors addr = false := by
      rw [← Bool.not_eq_true]
      exact fun hm ↦ hmem ((h.monitors_iff addr).mp hm)
    rw [hm, List.filter_cons_of_neg (by simpa using hmem)]
    exact iff_of_true rfl hlt

/-- Entering a function opens its activation. -/
theorem InStep.entry {s : Switch} {frames : List UInt64} (h : s.InStep frames) {addr : UInt64}
    (hfits : s.overflows (.functionEntry addr) = false) :
    (s.entry addr).InStep (addr :: frames) := by
  have hmon := h.monitors_iff addr
  have hcount := h.count
  have hoff := h.off
  unfold Switch.entry
  split
  · next hm =>
    have hmem : addr ∈ s.monitorFuncAddresses := hmon.mp hm
    refine ⟨h.monitorFunc, h.named, ?_, ?_⟩
    · show (s.monitorFuncEntryCount + 1).toInt = _
      rw [List.filter_cons_of_pos (by simpa using hmem), List.length_cons,
        toInt_count_succ hm hfits, hcount]
      rfl
    · show (if s.monitorFuncEntryCount = 0 then false else s.flags.disable) = _
      rw [List.filter_cons_of_pos (by simpa using hmem), hoff, List.isEmpty_cons]
      split
      · rfl
      -- Another activation is open, so tracing is already on.
      · next hne =>
        rw [List.isEmpty_eq_false_iff]
        intro hnil
        rw [hnil] at hcount
        exact hne (Int32.toInt_inj.mp hcount)
  · next hm =>
    have hmem : ¬ addr ∈ s.monitorFuncAddresses := fun hin ↦ hm (hmon.mpr hin)
    refine ⟨h.monitorFunc, h.named, ?_, ?_⟩
    · rw [List.filter_cons_of_neg (by simpa using hmem), hcount]
    · rw [List.filter_cons_of_neg (by simpa using hmem), hoff]

/-- Leaving the innermost activation closes it. -/
theorem InStep.exit {s : Switch} {frames : List UInt64} {addr : UInt64}
    (h : s.InStep (addr :: frames)) : (s.exit addr).InStep frames := by
  have hmon := h.monitors_iff addr
  have hcount := h.count
  have hoff := h.off
  unfold Switch.exit
  split
  · next hm =>
    have hmem : addr ∈ s.monitorFuncAddresses := hmon.mp hm
    rw [List.filter_cons_of_pos (by simpa using hmem)] at hcount hoff
    rw [List.length_cons] at hcount
    have hzero : (0 : Int32).toInt = 0 := rfl
    have hpos : s.monitorFuncEntryCount > 0 := by
      rw [gt_iff_lt, Int32.lt_iff_toInt_lt, hcount, hzero]
      omega
    have hleft : (s.monitorFuncEntryCount - 1).toInt =
        (frames.filter (· ∈ s.monitorFuncAddresses)).length := by
      have hhigh := s.monitorFuncEntryCount.toInt_lt
      rw [Int32.toInt_sub, hcount, show (1 : Int32).toInt = 1 from rfl]
      exact (Int.bmod_eq_of_le (by omega) (by omega)).trans (by omega)
    simp only [if_pos hpos]
    refine ⟨h.monitorFunc, h.named, hleft, ?_⟩
    show (if s.monitorFuncEntryCount - 1 = 0 then true else s.flags.disable) =
      (frames.filter (· ∈ s.monitorFuncAddresses)).isEmpty
    have hlast : s.monitorFuncEntryCount - 1 = 0 ↔
        frames.filter (· ∈ s.monitorFuncAddresses) = [] := by
      rw [← Int32.toInt_inj, hleft, hzero, ← List.length_eq_zero_iff]
      omega
    by_cases hnil : frames.filter (· ∈ s.monitorFuncAddresses) = []
    · rw [if_pos (hlast.mpr hnil), hnil]
      rfl
    · rw [if_neg fun h0 ↦ hnil (hlast.mp h0), hoff, List.isEmpty_cons, eq_comm,
        List.isEmpty_eq_false_iff]
      exact hnil
  · next hm =>
    have hmem : ¬ addr ∈ s.monitorFuncAddresses := fun hin ↦ hm (hmon.mpr hin)
    rw [List.filter_cons_of_neg (by simpa using hmem)] at hcount hoff
    exact ⟨h.monitorFunc, h.named, hcount, hoff⟩

theorem monitorFuncAddresses_next (s : Switch) (c : Call) :
    (s.next c).monitorFuncAddresses = s.monitorFuncAddresses := by
  cases c with
  | functionEntry addr =>
    show (s.entry addr).monitorFuncAddresses = _
    unfold Switch.entry
    split <;> rfl
  | functionExit addr =>
    show (s.exit addr).monitorFuncAddresses = _
    unfold Switch.exit
    split <;> rfl
  | access addr size isWrite site => rfl
  | enable => rfl
  | disable => rfl

theorem monitorFuncAddresses_after (s : Switch) (cs : List Call) :
    (s.after cs).monitorFuncAddresses = s.monitorFuncAddresses := by
  induction cs generalizing s with
  | nil => rfl
  | cons c cs ih => rw [after_cons, ih, monitorFuncAddresses_next]

/-- Hook calls that close the innermost activation each time keep switch and counter in step
with the open activations. -/
theorem InStep.after {s : Switch} {frames frames' : List UInt64} (h : s.InStep frames)
    {cs : List Call} (hooks : ∀ c ∈ cs, c.IsHook) (hcs : Matched frames (cs.map Call.token))
    (hr : replay frames (cs.map Call.token) = some frames') (hfits : s.Fits cs) :
    (s.after cs).InStep frames' := by
  induction cs generalizing s frames with
  | nil =>
    cases hr
    exact h
  | cons c cs ih =>
    have hrest : ∀ d ∈ cs, d.IsHook := fun d hd ↦ hooks d (List.mem_cons_of_mem c hd)
    have hhook := hooks c List.mem_cons_self
    obtain ⟨hc, hfits⟩ := hfits
    rw [after_cons]
    cases c with
    | functionEntry addr => exact ih (h.entry hc) hrest hcs hr hfits
    | functionExit addr =>
      cases frames with
      | nil => exact hcs.elim
      | cons f frames =>
        obtain ⟨rfl, hcs⟩ := hcs
        exact ih h.exit hrest hcs hr hfits
    | access addr size isWrite site => exact ih h hrest hcs hr hfits
    | enable => exact hhook.elim
    | disable => exact hhook.elim

/-- The counter fits the calls while the depth of the monitored activations fits an `int`. -/
theorem InStep.fits_iff {s : Switch} {frames : List UInt64} (h : s.InStep frames)
    {cs : List Call} (hooks : ∀ c ∈ cs, c.IsHook) (hcs : Matched frames (cs.map Call.token)) :
    s.Fits cs ↔ ∀ q, q <+: cs → monitoredDepth s.monitorFuncAddresses frames q < 2 ^ 31 := by
  induction cs generalizing s frames with
  | nil =>
    refine iff_of_true trivial fun q hq ↦ ?_
    rw [List.prefix_nil.mp hq]
    exact h.lt
  | cons c cs ih =>
    have hrest : ∀ d ∈ cs, d.IsHook := fun d hd ↦ hooks d (List.mem_cons_of_mem c hd)
    have hhook := hooks c List.mem_cons_self
    have hsplit : (∀ q, q <+: c :: cs → monitoredDepth s.monitorFuncAddresses frames q < 2 ^ 31) ↔
        ∀ q, q <+: cs → monitoredDepth s.monitorFuncAddresses frames (c :: q) < 2 ^ 31 := by
      constructor
      · exact fun hall q hq ↦ hall _ ((List.prefix_cons_inj c).mpr hq)
      · intro hall q hq
        rcases List.prefix_cons_iff.mp hq with rfl | ⟨q', rfl, hq'⟩
        · exact h.lt
        · exact hall q' hq'
    rw [hsplit]
    show s.overflows c = false ∧ (s.next c).Fits cs ↔ _
    have hsame := monitorFuncAddresses_next s c
    cases c with
    | functionEntry addr =>
      by_cases hc : s.overflows (.functionEntry addr) = false
      · rw [and_iff_right hc, ← hsame]
        exact ih (h.entry hc) hrest hcs
      · refine iff_of_false (fun hfits ↦ hc hfits.1) fun hall ↦ hc ?_
        exact (h.overflows_iff addr).mpr (hall [] (List.nil_prefix ..))
    | functionExit addr =>
      cases frames with
      | nil => exact hcs.elim
      | cons f frames =>
        obtain ⟨rfl, hcs⟩ := hcs
        have hno : s.overflows (.functionExit f) = false := rfl
        rw [and_iff_right hno, ← hsame]
        exact ih h.exit hrest hcs
    | access addr size isWrite site =>
      have hno : s.overflows (.access addr size isWrite site) = false := rfl
      rw [and_iff_right hno]
      exact ih h hrest hcs
    | enable => exact hhook.elim
    | disable => exact hhook.elim

/-- In step, an access is recorded exactly inside a monitored activation. -/
theorem InStep.record_access {s : Switch} {frames : List UInt64} (h : s.InStep frames)
    (addr : UInt64) (size : UInt8) (isWrite : Bool) (site : CallSite) :
    (s.record (.access addr size isWrite site)).isSome = true ↔
      frames.filter (· ∈ s.monitorFuncAddresses) ≠ [] := by
  have hname : s.flags.filename.isNone = false := by
    rw [← Option.not_isSome, h.named]
    rfl
  rw [record, h.off, hname, Bool.or_false, ← List.isEmpty_eq_false_iff]
  cases (frames.filter (· ∈ s.monitorFuncAddresses)).isEmpty with
  | true => simp
  | false => simp

end Switch

/-! ### The runtime -/

/-- Monitoring is set up: tracing is off, no monitored activation is open, and there is an
output file name. -/
structure Runtime.Monitors (r : Runtime) : Prop where
  live : r.Live
  monitorFunc : r.thread.monitorFunc = true
  off : r.shared.flags.disable = true
  count : r.thread.monitorFuncEntryCount = 0
  named : r.shared.flags.filename.isSome = true

theorem Runtime.Monitors.inStep {r : Runtime} (h : r.Monitors) : r.switch.InStep [] :=
  ⟨h.monitorFunc, h.named, congrArg Int32.toInt h.count, h.off⟩

/-- Set-up that has selected addresses leaves a monitoring thread. -/
theorem memaInitialize_startsMonitoring {start : Startup} {addrs : Finset UInt64}
    (h : start.Monitors addrs) : (memaInitialize start).Monitors := by
  have hlive := memaInitialize_live start
  obtain ⟨s, t, hrun, hflags, -, hmf, hcount⟩ := memaInitialize_selected h
  rw [hrun] at hlive ⊢
  have hkept : (memaWriteHeader start s).flags = { start.flags with disable := true } := by
    rw [(memaWriteHeader_frame start s).2.2.1, hflags]
  refine ⟨hlive, hmf, ?_, hcount, ?_⟩
  · exact congrArg Flags.disable hkept
  · exact (congrArg (fun f ↦ f.filename.isSome) hkept).trans h.named

/-- After the calls tracing is on exactly inside a monitored activation, the counter is the
number of those open, and an access is recorded exactly inside one. -/
structure InScope (lz : Lz4) (r : Runtime) (frames : List UInt64) : Prop where
  on : r.shared.flags.disable = false ↔ frames ≠ []
  count : r.thread.monitorFuncEntryCount.toInt = frames.length
  access : ∀ addr size isWrite site, ∃ r' e, memaAccess lz r addr size isWrite site = .ok (r', e) ∧
    (e.isSome = true ↔ frames ≠ [])

/-- The calls are defined, and the switch, the counter and what an access does then follow the
monitored activations that are open. -/
def RunsInScope (lz : Lz4) (r : Runtime) (cs : List Call) : Prop :=
  ∃ r' es, runDefined lz r cs = .ok (r', es) ∧
    InScope lz r' (openMonitored r.shared.monitorFuncAddresses cs)

/-- Up to any call, a properly nested run is defined and in scope while the counter fits. -/
theorem Runtime.Monitors.runsInScope_iff {r : Runtime} (h : r.Monitors) (lz : Lz4)
    {cs : List Call} (hcs : Matched [] (cs.map Call.token)) (hooks : ∀ c ∈ cs, c.IsHook) :
    RunsInScope lz r cs ↔ r.switch.Fits cs := by
  constructor
  · rintro ⟨r', es, hrun, -⟩
    exact ((h.live.runDefined_iff lz cs _).mp hrun).1
  · intro hfits
    obtain ⟨frames, hframes⟩ := hcs.replay
    obtain ⟨r', hrun, hlive, hswitch⟩ := h.live.run lz cs
    have hstep : r'.switch.InStep frames := by
      rw [hswitch]
      exact h.inStep.after hooks hcs hframes hfits
    have haddrs : r'.switch.monitorFuncAddresses = r.shared.monitorFuncAddresses := by
      rw [hswitch, Switch.monitorFuncAddresses_after]
      rfl
    have hopen : openMonitored r.shared.monitorFuncAddresses cs =
        frames.filter (· ∈ r'.switch.monitorFuncAddresses) := by
      rw [openMonitored, openActivations, hframes, haddrs]
      rfl
    refine ⟨r', _, (h.live.runDefined_iff lz cs _).mpr ⟨hfits, hrun⟩, ?_, ?_, ?_⟩
    · rw [hopen, ← List.isEmpty_eq_false_iff, ← hstep.off]
      rfl
    · rw [hopen, ← hstep.count]
      rfl
    · intro addr size isWrite site
      obtain ⟨r'', hperform, -, -⟩ := @Maintained.perform lz _ (maintained_live lz) r' [] hlive
        (.access addr size isWrite site)
      refine ⟨r'', _, hperform, ?_⟩
      rw [hopen]
      exact hstep.record_access addr size isWrite site

/-- From a monitoring thread, after every call of a properly nested run, the switch, the counter
and what an access does follow the monitored activations that are open, exactly as long as there
have never been more of them than an `int` can count. -/
theorem monitoring_scope (lz : Lz4) {r : Runtime} (h : r.Monitors) {cs : List Call}
    (hcs : Matched [] (cs.map Call.token)) (hooks : ∀ c ∈ cs, c.IsHook) :
    ∀ p, p <+: cs → (RunsInScope lz r p ↔
      ∀ q, q <+: p → (openMonitored r.shared.monitorFuncAddresses q).length < 2 ^ 31) := by
  rintro p ⟨q, rfl⟩
  have hp : Matched [] (p.map Call.token) := by
    rw [List.map_append] at hcs
    exact hcs.left
  have hookp : ∀ c ∈ p, c.IsHook := fun c hc ↦ hooks c (List.mem_append_left q hc)
  rw [h.runsInScope_iff lz hp hookp]
  exact h.inStep.fits_iff hookp hp

/-- The scope inside a recursive monitored function that an unmonitored one called. -/
theorem monitoring_scope_recursive :
    RunsInScope id (memaInitialize Startup.toMonitor)
        [.functionEntry 32, .functionEntry 16, .functionEntry 16] ↔
      ∀ q, q <+: [.functionEntry 32, .functionEntry 16, .functionEntry 16] →
        (openMonitored (memaInitialize Startup.toMonitor).shared.monitorFuncAddresses q).length <
          2 ^ 31 :=
  @monitoring_scope id _ (memaInitialize_startsMonitoring ⟨rfl, rfl, rfl⟩)
    [.functionEntry 32, .functionEntry 16, .functionEntry 16, .functionExit 16,
      .functionExit 16, .functionExit 32] ⟨rfl, rfl, rfl, trivial⟩ (by simp [Call.IsHook])
    _ ⟨[.functionExit 16, .functionExit 16, .functionExit 32], rfl⟩

/-! ### Deep recursion -/

/-- A function that calls itself until `n` activations are open, and returns from all of them. -/
def recursion (addr : UInt64) (n : Nat) : List Call :=
  List.replicate n (.functionEntry addr) ++ List.replicate n (.functionExit addr)

/-- The calls that open the activations. -/
theorem matched_entries (addr : UInt64) (n : Nat) (frames : List UInt64) :
    Matched frames ((List.replicate n (Call.functionEntry addr)).map Call.token) := by
  induction n generalizing frames with
  | zero => trivial
  | succ n ih => exact ih (addr :: frames)

theorem replay_entries (addr : UInt64) (n : Nat) (frames : List UInt64) :
    replay frames ((List.replicate n (Call.functionEntry addr)).map Call.token) =
      some (List.replicate n addr ++ frames) := by
  induction n generalizing frames with
  | zero => rfl
  | succ n ih =>
    rw [List.replicate_succ, List.map_cons, Call.token, replay_enter, ih, List.replicate_succ',
      List.append_assoc, List.singleton_append]

theorem nested_recursion (addr : UInt64) (n : Nat) :
    Nested ((recursion addr n).map Call.token) := by
  induction n with
  | zero => exact .nil
  | succ n ih =>
    have hsplit : recursion addr (n + 1) =
        .functionEntry addr :: (recursion addr n ++ [.functionExit addr]) := by
      rw [recursion, recursion, List.replicate_succ, List.replicate_succ', List.cons_append,
        List.append_assoc]
    rw [hsplit, List.map_cons, List.map_append]
    exact Nested.frame addr ih .nil

/-- The open monitored activations when the recursion is at its deepest. -/
theorem openMonitored_entries {addrs : Finset UInt64} {addr : UInt64} (h : addr ∈ addrs) (n : Nat) :
    (openMonitored addrs (List.replicate n (.functionEntry addr))).length = n := by
  rw [openMonitored, openActivations, replay_entries, Option.getD_some, List.append_nil,
    List.filter_replicate, if_pos (by simpa using h), List.length_replicate]

/-- More than an `int` can count are not in scope. -/
theorem Runtime.Monitors.not_runsInScope {r : Runtime} (h : r.Monitors) (lz : Lz4) {addr : UInt64}
    (hmem : addr ∈ r.shared.monitorFuncAddresses) {n : Nat} (hn : 2 ^ 31 ≤ n) :
    ¬ RunsInScope lz r (List.replicate n (.functionEntry addr)) := by
  have hmatched := matched_entries addr n []
  have hooks : ∀ c ∈ List.replicate n (Call.functionEntry addr), c.IsHook := by
    intro c hc
    rw [(List.mem_replicate.mp hc).2]
    trivial
  rw [h.runsInScope_iff lz hmatched hooks, h.inStep.fits_iff hooks hmatched]
  intro hall
  have hdepth := hall _ List.prefix_rfl
  have hopen := openMonitored_entries hmem n
  change (openMonitored r.shared.monitorFuncAddresses _).length < _ at hdepth
  omega

/-- The counter is an `int`: the scope is lost when 2^31 activations are open. -/
theorem deep_recursion_overflows :
    Nested ((recursion 16 (2 ^ 31)).map Call.token) ∧
      ¬ ∀ p, p <+: recursion 16 (2 ^ 31) →
        RunsInScope id (memaInitialize Startup.toMonitor) p := by
  refine ⟨nested_recursion 16 _, fun hall ↦ ?_⟩
  have hmonitors := memaInitialize_startsMonitoring
    (⟨rfl, rfl, rfl⟩ : Startup.toMonitor.Monitors {16})
  have hmem : (16 : UInt64) ∈ (memaInitialize Startup.toMonitor).shared.monitorFuncAddresses := by
    decide
  exact hmonitors.not_runsInScope id hmem (Nat.le_refl _) (hall _ (List.prefix_append _ _))

end Mema
