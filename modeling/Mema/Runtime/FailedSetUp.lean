import Mema.Runtime.Monitoring
import Mema.Runtime.SymbolScan

/-!
# Function monitoring that cannot be set up

`mema_rtl.cpp:392–438,515–533`: each early exit of the set-up, one of which announces "Mema
disabled", returns without touching the switch or the monitoring flag. Tracing then goes on
as if no function pattern had been given.
-/

namespace Mema

/-- Why the set-up gives up: the executable path cannot be read or is too long, the symbol
command cannot be started, or no symbol matches. -/
inductive SetUpFailure (host : Host) (pattern : String) : Prop
  | unreadable (hpath : host.readlink = none)
  | tooLong (exe : List UInt8) (hpath : host.readlink = some exe) (hlong : 1024 ≤ exe.length)
  | notStarted (exe : List UInt8) (hpath : host.readlink = some exe) (hshort : exe.length < 1024)
      (hpipe : host.popen (nmText ++ exe) = none)
  | noMatch (exe pipe : List UInt8) (hpath : host.readlink = some exe)
      (hshort : exe.length < 1024) (hpipe : host.popen (nmText ++ exe) = some pipe)
      (hnone : selectLines host pattern pipe ∅ = .ok ∅)

/-- Each of them ends the set-up early. -/
theorem SetUpFailure.failed {host : Host} {pattern : String} (h : SetUpFailure host pattern) :
    selectFunctions host pattern = .ok .failed := by
  have hshow {exe : List UInt8} (hshort : exe.length < 1024) : exe.take 1024 = exe :=
    List.take_of_length_le (by omega)
  cases h with
  | unreadable hpath => simp only [selectFunctions, hpath]
  | tooLong exe hpath hlong =>
    have hlen : (exe.take 1024).length ≥ 1024 := by
      rw [List.length_take]
      omega
    simp only [selectFunctions, hpath, if_pos hlen]
  | notStarted exe hpath hshort hpipe =>
    have hlen : ¬ exe.length ≥ 1024 := by omega
    simp only [selectFunctions, hpath, hshow hshort, if_neg hlen, hpipe]
  | noMatch exe pipe hpath hshort hpipe hnone =>
    have hlen : ¬ exe.length ≥ 1024 := by omega
    simp only [selectFunctions, hpath, hshow hshort, if_neg hlen, hpipe, hnone, Finset.card_empty,
      ↓reduceIte]

/-- A start-up with a file name and a function pattern whose set-up fails on this host. -/
structure Startup.SetUpFails (start : Startup) (host : Host) (pattern : String) : Prop where
  named : start.flags.filename.isSome = true
  given : start.flags.funcname = some pattern
  ran : selectFunctions host pattern = .ok start.monitoring
  fails : SetUpFailure host pattern

/-- A failed set-up leaves the flags as parsed and monitoring off. -/
theorem memaInitialize_failed {start : Startup} {host : Host} {pattern : String}
    (h : start.SetUpFails host pattern) :
    ∃ s t, memaInitialize start = ⟨memaWriteHeader start s, t⟩ ∧ s.flags = start.flags ∧
      s.memaInitialized = true ∧ t.monitorFunc = false ∧ t.insideMema = false ∧
      t.buffer = TraceBuffer.fresh.setUp := by
  have hnone : ¬ start.flags.filename.isNone = true := by
    simpa [Option.isSome_iff_ne_none] using h.named
  have hpattern : start.flags.funcname.isSome = true := by
    rw [h.given]
    rfl
  have hfailed : start.monitoring = .failed := by
    have hran := h.ran.symm.trans h.fails.failed
    rwa [Except.ok.injEq] at hran
  refine ⟨_, _, by rw [memaInitialize, if_neg hnone], ?_, ?_, ?_, ?_, ?_⟩
  all_goals
    rw [if_pos hpattern, hfailed]
    rfl

/-- After the calls the record buffer is empty and the file is as it was. -/
def LeavesNoRecord (lz : Lz4) (r : Runtime) (cs : List Call) : Prop :=
  ∃ r' es, runCalls lz r cs = .ok (r', es) ∧ r'.thread.buffer.held = some [] ∧
    r'.shared.out.bytes = r.shared.out.bytes

/-- While tracing is off and nothing is monitored, a hook does nothing. -/
theorem perform_of_disabled (lz : Lz4) {r : Runtime} (hoff : r.shared.flags.disable = true)
    (hmf : r.thread.monitorFunc = false) {c : Call} (hc : c.IsHook) :
    c.perform lz r = .ok (r, none) := by
  cases c with
  | functionEntry addr =>
    have hblock : monitorEntry r addr = r := by rw [monitorEntry, hmf]; rfl
    simp only [Call.perform, memaFunctionEntry, hblock, hoff, ↓reduceIte, ite_self]
  | functionExit addr =>
    have hblock : monitorExit r addr = r := by rw [monitorExit, hmf]; rfl
    simp only [Call.perform, memaFunctionExit, hblock, hoff, ↓reduceIte, ite_self]
  | access addr size isWrite site =>
    simp only [Call.perform, memaAccess, hoff, Bool.or_true, ↓reduceIte]
  | enable => exact hc.elim
  | disable => exact hc.elim

theorem runCalls_of_disabled (lz : Lz4) {r : Runtime} (hoff : r.shared.flags.disable = true)
    (hmf : r.thread.monitorFunc = false) {cs : List Call} (hooks : ∀ c ∈ cs, c.IsHook) :
    runCalls lz r cs = .ok (r, []) := by
  induction cs with
  | nil => rfl
  | cons c cs ih =>
    have hc := perform_of_disabled lz hoff hmf (hooks c List.mem_cons_self)
    have hrest := ih fun d hd ↦ hooks d (List.mem_cons_of_mem c hd)
    simp only [runCalls, hc, hrest]
    rfl

/-- With tracing on, the first function entry leaves its record in an empty buffer. -/
theorem held_first_entry (lz : Lz4) {r : Runtime} (hinit : r.shared.memaInitialized = true)
    (hout : r.thread.insideMema = false) (hon : r.shared.flags.disable = false)
    (hmf : r.thread.monitorFunc = false) (hempty : r.thread.buffer.Laid []) (addr : UInt64) :
    ∃ r' s, runCalls lz r [.functionEntry addr] = .ok (r', [.funcEnter addr]) ∧
      r'.thread.buffer.held = some [s] := by
  have hblock : monitorEntry r addr = r := by rw [monitorEntry, hmf]; rfl
  obtain ⟨b, hb, hlaid⟩ := hempty.append (by decide) (Logged.funcEnter addr).write
  have hlast : ¬ b.atLast = true := by
    rw [hlaid.atLast_iff]
    show ¬ 1 = flushSize
    decide
  refine ⟨{ r with thread.buffer := b }, _, ?_, hlaid.held_eq⟩
  simp only [runCalls, Call.perform, memaFunctionEntry, hinit, hout, hblock, hon, logRecord, hb,
    if_neg hlast, Bool.not_true, Bool.or_self, Bool.false_eq_true, ↓reduceIte]
  rfl

/-- After a failed set-up nothing is ever recorded exactly when the options themselves
disable tracing. -/
theorem records_nothing_iff (lz : Lz4) {start : Startup} {host : Host} {pattern : String}
    (h : start.SetUpFails host pattern) :
    (∀ cs : List Call, (∀ c ∈ cs, c.IsHook) → LeavesNoRecord lz (memaInitialize start) cs) ↔
      start.flags.disable = true := by
  obtain ⟨s, t, hrun, hflags, hinit, hmf, hout, hbuffer⟩ := memaInitialize_failed h
  obtain ⟨hinit', -, hflags', -⟩ := memaWriteHeader_frame start s
  have hdisable : (memaWriteHeader start s).flags.disable = start.flags.disable := by
    rw [hflags', hflags]
  have hempty : t.buffer.Laid [] := by
    rw [hbuffer]
    exact TraceBuffer.laid_setUp _
  rw [hrun]
  constructor
  · intro hall
    obtain ⟨r, es, hr, hheld, -⟩ := hall [.functionEntry 16] (by simp [Call.IsHook])
    by_contra hon
    rw [Bool.not_eq_true, ← hdisable] at hon
    obtain ⟨r', slot, hr', hheld'⟩ :=
      held_first_entry lz (r := ⟨memaWriteHeader start s, t⟩) (hinit'.trans hinit) hout hon hmf
        hempty 16
    cases hr.symm.trans hr'
    rw [hheld] at hheld'
    cases hheld'
  · intro hoff cs hooks
    have hoff' := hdisable.trans hoff
    exact ⟨_, _, runCalls_of_disabled lz (r := ⟨memaWriteHeader start s, t⟩) hoff' hmf hooks,
      hempty.held_eq, rfl⟩

/-- A host on which the executable cannot be read. -/
def Host.unreadable : Host := ⟨none, fun _ ↦ none, fun _ ↦ none, fun _ _ ↦ false⟩

/-- A start-up there, tracing as by default. -/
def Startup.notMonitoring : Startup :=
  ⟨{ Flags.toFile with funcname := some "f" }, .failed, 3, [], false⟩

theorem setUpFails_notMonitoring : Startup.notMonitoring.SetUpFails Host.unreadable "f" :=
  ⟨rfl, rfl, rfl, .unreadable rfl⟩

/-- The equivalence on that host. -/
theorem records_nothing_iff_unreadable :
    (∀ cs : List Call, (∀ c ∈ cs, c.IsHook) →
        LeavesNoRecord id (memaInitialize Startup.notMonitoring) cs) ↔
      Startup.notMonitoring.flags.disable = true :=
  records_nothing_iff id setUpFails_notMonitoring

/-- There the first function entry is recorded. -/
theorem failed_setUp_records :
    Startup.notMonitoring.SetUpFails Host.unreadable "f" ∧
      ¬ LeavesNoRecord id (memaInitialize Startup.notMonitoring) [.functionEntry 16] := by
  refine ⟨setUpFails_notMonitoring, ?_⟩
  rintro ⟨r, es, hr, hheld, -⟩
  obtain ⟨r', slot, hr', hheld'⟩ := held_first_entry id (memaInitialize_live _).initialized
    (memaInitialize_live _).outside (r := memaInitialize Startup.notMonitoring) rfl rfl
    (TraceBuffer.laid_setUp _) 16
  cases hr.symm.trans hr'
  rw [hheld] at hheld'
  cases hheld'

end Mema
