import Mema.Runtime.Threads

/-!
# Which calls record, and the run lemma of the hooks

Whether a hook records depends on the enable switch and the monitoring variables only
(`Switch`). On a tracing thread every call succeeds, follows the switch, and pushes its
record onto the abstract log behind buffer and file.
-/

namespace Mema

open Bytes Framing Chunks

/-- The variables the hooks decide by. -/
structure Switch where
  flags : Flags
  monitorFunc : Bool
  monitorFuncAddresses : Finset UInt64
  monitorFuncEntryCount : Int32

/-- The decision variables of a thread. -/
def Runtime.switch (r : Runtime) : Switch :=
  ⟨r.shared.flags, r.thread.monitorFunc, r.shared.monitorFuncAddresses,
    r.thread.monitorFuncEntryCount⟩

namespace Switch

/-- The address is one whose activations switch tracing on. -/
def monitors (s : Switch) (addr : UInt64) : Bool :=
  s.monitorFunc && decide (addr ∈ s.monitorFuncAddresses)

/-- Set the disable flag. -/
def setDisable (s : Switch) (d : Bool) : Switch := { s with flags.disable := d }

/-- Entering a monitored function counts it, and the outermost one switches tracing on. -/
def entry (s : Switch) (addr : UInt64) : Switch :=
  if s.monitors addr then
    { s with
      flags.disable := if s.monitorFuncEntryCount = 0 then false else s.flags.disable
      monitorFuncEntryCount := s.monitorFuncEntryCount + 1 }
  else s

/-- Leaving a monitored function uncounts it, and the outermost one switches tracing off. -/
def exit (s : Switch) (addr : UInt64) : Switch :=
  if s.monitors addr then
    let count := if s.monitorFuncEntryCount > 0 then
      s.monitorFuncEntryCount - 1 else s.monitorFuncEntryCount
    { s with
      flags.disable := if count = 0 then true else s.flags.disable
      monitorFuncEntryCount := count }
  else s

/-- The switch after a call. -/
def next (s : Switch) : Call → Switch
  | .functionEntry addr => s.entry addr
  | .functionExit addr => s.exit addr
  | .access .. => s
  | .enable => s.setDisable false
  | .disable => s.setDisable true

/-- The record a call appends: a function hook looks at the switch it has just updated. -/
def record (s : Switch) : Call → Option Logged
  | .functionEntry addr => if (s.entry addr).flags.disable then none else some (.funcEnter addr)
  | .functionExit addr => if (s.exit addr).flags.disable then none else some (.funcExit addr)
  | .access addr _ isWrite site =>
    if s.flags.disable || s.flags.filename.isNone then none
    else some (.access site.time site.pc site.bp site.sp addr isWrite)
  | .enable => none
  | .disable => none

/-- The switch after a sequence of calls. -/
def after (s : Switch) (cs : List Call) : Switch := cs.foldl next s

/-- The records of a sequence of calls. -/
def records : Switch → List Call → List Logged
  | _, [] => []
  | s, c :: cs => (s.record c).toList ++ records (s.next c) cs

/-- The call counts an activation more than an `int` can. -/
def overflows (s : Switch) : Call → Bool
  | .functionEntry addr => s.monitors addr && s.monitorFuncEntryCount == Int32.maxValue
  | _ => false

/-- No call of the sequence does. -/
def Fits : Switch → List Call → Prop
  | _, [] => True
  | s, c :: cs => s.overflows c = false ∧ Fits (s.next c) cs

@[simp] theorem records_nil (s : Switch) : s.records [] = [] := rfl

theorem records_cons (s : Switch) (c : Call) (cs : List Call) :
    s.records (c :: cs) = (s.record c).toList ++ (s.next c).records cs := rfl

theorem after_cons (s : Switch) (c : Call) (cs : List Call) :
    s.after (c :: cs) = (s.next c).after cs := rfl

/-- The switch threads through a cut of the run. -/
theorem after_append (s : Switch) (cs ds : List Call) :
    s.after (cs ++ ds) = (s.after cs).after ds := by
  rw [after, after, after, List.foldl_append]

/-- Records of a cut run concatenate. -/
theorem records_append (s : Switch) (cs ds : List Call) :
    s.records (cs ++ ds) = s.records cs ++ (s.after cs).records ds := by
  induction cs generalizing s with
  | nil => rfl
  | cons c cs ih =>
    rw [List.cons_append, records_cons, ih, records_cons, after_cons, List.append_assoc]

theorem fits_append (s : Switch) (cs ds : List Call) :
    s.Fits (cs ++ ds) ↔ s.Fits cs ∧ (s.after cs).Fits ds := by
  induction cs generalizing s with
  | nil => exact (and_iff_right trivial).symm
  | cons c cs ih =>
    rw [List.cons_append, after_cons]
    show s.overflows c = false ∧ (s.next c).Fits (cs ++ ds) ↔
      (s.overflows c = false ∧ (s.next c).Fits cs) ∧ _
    rw [ih, and_assoc]

/-- Calls of monitored functions count exactly while the counter does not overflow. -/
theorem toInt_count_succ {s : Switch} {addr : UInt64} (hm : s.monitors addr = true)
    (h : s.overflows (.functionEntry addr) = false) :
    (s.monitorFuncEntryCount + 1).toInt = s.monitorFuncEntryCount.toInt + 1 := by
  have hmax : s.monitorFuncEntryCount.toInt ≠ Int32.maxValue.toInt := by
    intro heq
    rw [overflows, hm, Bool.true_and, Int32.toInt_inj.mp heq, beq_self_eq_true] at h
    cases h
  have hlow := s.monitorFuncEntryCount.le_toInt
  have hhigh := s.monitorFuncEntryCount.toInt_lt
  rw [show Int32.maxValue.toInt = 2 ^ 31 - 1 from rfl] at hmax
  rw [Int32.toInt_add, show (1 : Int32).toInt = 1 from rfl]
  exact Int.bmod_eq_of_le (by omega) (by omega)

end Switch

/-! ### The monitoring blocks follow the switch -/

/-- Everything of the thread except the switch. -/
structure Runtime.SameTrace (r r' : Runtime) : Prop where
  initialized : r'.shared.memaInitialized = r.shared.memaInitialized
  outside : r'.thread.insideMema = r.thread.insideMema
  fd : r'.shared.memaccessFd = r.shared.memaccessFd
  out : r'.shared.out = r.shared.out
  buffer : r'.thread.buffer = r.thread.buffer
  compression : r'.shared.flags.compression = r.shared.flags.compression

theorem monitorEntry_switch (r : Runtime) (addr : UInt64) :
    (monitorEntry r addr).switch = r.switch.entry addr := by
  cases hm : r.thread.monitorFunc with
  | false => simp [monitorEntry, hm, Switch.entry, Switch.monitors, Runtime.switch]
  | true =>
    by_cases ha : addr ∈ r.shared.monitorFuncAddresses
    · simp only [monitorEntry, hm, ha, memaDisable, Switch.entry, Switch.monitors,
        Runtime.switch, ↓reduceIte, decide_true, Bool.and_self]
      rfl
    · simp [monitorEntry, hm, ha, memaDisable, Switch.entry, Switch.monitors, Runtime.switch]

theorem monitorExit_switch (r : Runtime) (addr : UInt64) :
    (monitorExit r addr).switch = r.switch.exit addr := by
  cases hm : r.thread.monitorFunc with
  | false => simp [monitorExit, hm, Switch.exit, Switch.monitors, Runtime.switch]
  | true =>
    by_cases ha : addr ∈ r.shared.monitorFuncAddresses
    · simp only [monitorExit, hm, ha, memaDisable, Switch.exit, Switch.monitors,
        Runtime.switch, ↓reduceIte, decide_true, Bool.and_self]
      rfl
    · simp [monitorExit, hm, ha, memaDisable, Switch.exit, Switch.monitors, Runtime.switch]

/-! ### A call and the switch -/

/-- Nothing but the enable switch and the entry count differs. -/
def Runtime.Switched (r r' : Runtime) : Prop :=
  ∃ disable count, r' = { r with
    shared.flags.disable := disable
    thread.monitorFuncEntryCount := count }

theorem Runtime.Switched.sameTrace {r r' : Runtime} : r.Switched r' → r.SameTrace r' := by
  rintro ⟨disable, count, rfl⟩
  exact ⟨rfl, rfl, rfl, rfl, rfl, rfl⟩

theorem monitorEntry_switched (r : Runtime) (addr : UInt64) :
    r.Switched (monitorEntry r addr) := by
  unfold monitorEntry
  split
  · dsimp only
    split
    · exact ⟨_, _, rfl⟩
    · exact ⟨_, _, rfl⟩
  · exact ⟨_, _, rfl⟩

theorem monitorExit_switched (r : Runtime) (addr : UInt64) :
    r.Switched (monitorExit r addr) := by
  unfold monitorExit
  split
  · dsimp only
    split
    · exact ⟨_, _, rfl⟩
    · exact ⟨_, _, rfl⟩
  · exact ⟨_, _, rfl⟩

/-- Up to its flush, a call of an initialised thread moves the switch and appends what the
switch then decides. -/
theorem Call.begin_spec {r : Runtime} (hinit : r.shared.memaInitialized = true)
    (hout : r.thread.insideMema = false) (c : Call) :
    ∃ r', r.Switched r' ∧ r'.switch = r.switch.next c ∧
      c.begin r = (r.switch.record c).elim (.ok (r', none)) (appendRecord r') := by
  have hskip : ¬ (!r.shared.memaInitialized || r.thread.insideMema) = true := by
    rw [hinit, hout]
    decide
  cases c with
  | functionEntry addr =>
    refine ⟨_, monitorEntry_switched r addr, monitorEntry_switch r addr, ?_⟩
    rw [Call.begin, if_neg hskip, Switch.record, ← monitorEntry_switch]
    show (if (monitorEntry r addr).switch.flags.disable = true then _ else _) = _
    split <;> rfl
  | functionExit addr =>
    refine ⟨_, monitorExit_switched r addr, monitorExit_switch r addr, ?_⟩
    rw [Call.begin, if_neg hskip, Switch.record, ← monitorExit_switch]
    show (if (monitorExit r addr).switch.flags.disable = true then _ else _) = _
    split <;> rfl
  | access addr size isWrite site =>
    refine ⟨r, ⟨_, _, rfl⟩, rfl, ?_⟩
    simp only [Call.begin, hinit, hout, Bool.not_true, Bool.or_false, Bool.false_or]
    show _ = (if (r.shared.flags.disable || r.shared.flags.filename.isNone) = true then none
      else some _).elim _ _
    by_cases hdis : r.shared.flags.disable = true
    · simp only [hdis, Bool.true_or, ↓reduceIte]
      rfl
    · rw [if_neg hdis]
      split <;> rfl
  | enable => exact ⟨memaEnable r, ⟨_, _, rfl⟩, rfl, rfl⟩
  | disable => exact ⟨memaDisable r, ⟨_, _, rfl⟩, rfl, rfl⟩

/-- The same of a whole call. -/
theorem Call.perform_spec (lz : Lz4) {r : Runtime} (hinit : r.shared.memaInitialized = true)
    (hout : r.thread.insideMema = false) (c : Call) :
    ∃ r', r.Switched r' ∧ r'.switch = r.switch.next c ∧
      c.perform lz r = (r.switch.record c).elim (.ok (r', none)) (logRecord lz r') := by
  obtain ⟨r', hsame, hnext, hbegin⟩ := c.begin_spec hinit hout
  refine ⟨r', hsame, hnext, ?_⟩
  rw [Call.perform_eq, hbegin]
  cases r.switch.record c with
  | none => rfl
  | some e => exact (logRecord_eq lz r' e).symm

/-- What every call does to the thread and to what it has logged, every run does. -/
theorem runCalls_spec {lz : Lz4} {inv : Runtime → List Logged → Prop}
    (hperform : ∀ {r es}, inv r es → ∀ c : Call, ∃ r',
      c.perform lz r = .ok (r', r.switch.record c) ∧
        inv r' (es ++ (r.switch.record c).toList) ∧ r'.switch = r.switch.next c)
    {r : Runtime} {es : List Logged} (h : inv r es) (cs : List Call) :
    ∃ r', runCalls lz r cs = .ok (r', r.switch.records cs) ∧
      inv r' (es ++ r.switch.records cs) ∧ r'.switch = r.switch.after cs := by
  induction cs generalizing r es with
  | nil => exact ⟨r, rfl, by simpa using h, rfl⟩
  | cons c cs ih =>
    obtain ⟨r₁, hr₁, h₁, hs₁⟩ := hperform h c
    obtain ⟨r₂, hr₂, h₂, hs₂⟩ := ih h₁
    rw [hs₁] at hr₂ h₂ hs₂
    refine ⟨r₂, ?_, ?_, hs₂⟩
    · rw [runCalls, hr₁]
      simp only [hr₂]
      rfl
    · rw [Switch.records_cons, ← List.append_assoc]
      exact h₂

/-- On an initialised thread the switch tells which calls overflow. -/
theorem Call.overflows_eq {r : Runtime} (hinit : r.shared.memaInitialized = true)
    (hout : r.thread.insideMema = false) (c : Call) : c.overflows r = r.switch.overflows c := by
  cases c with
  | functionEntry addr =>
    rw [Call.overflows, hinit, hout, Switch.overflows, Switch.monitors]
    rfl
  | functionExit addr => rfl
  | access addr size isWrite site => rfl
  | enable => rfl
  | disable => rfl

/-! ### What a hook preserves -/

/-- A property of the thread and of what it has logged that the hooks maintain: the hooks are
live in it, the switch does not matter to it, and logging succeeds and extends it. -/
structure Maintained (lz : Lz4) (inv : Runtime → List Logged → Prop) : Prop where
  live : ∀ {r es}, inv r es → r.shared.memaInitialized = true ∧ r.thread.insideMema = false
  congr : ∀ {r r' es}, inv r es → r.SameTrace r' → inv r' es
  log : ∀ {r es}, inv r es → ∀ e, ∃ r', logRecord lz r e = .ok (r', some e) ∧
    inv r' (es ++ [e]) ∧ r'.switch = r.switch

variable {lz : Lz4} {inv : Runtime → List Logged → Prop}

/-- Every call succeeds, follows the switch, and maintains the invariant. -/
theorem Maintained.perform (hm : Maintained lz inv) {r : Runtime} {es : List Logged}
    (h : inv r es) (c : Call) :
    ∃ r', c.perform lz r = .ok (r', r.switch.record c) ∧
      inv r' (es ++ (r.switch.record c).toList) ∧ r'.switch = r.switch.next c := by
  obtain ⟨hinit, hout⟩ := hm.live h
  obtain ⟨r₁, hsame, hnext, hperform⟩ := c.perform_spec lz hinit hout
  have h₁ := hm.congr h hsame.sameTrace
  rw [hperform]
  cases r.switch.record c with
  | none => exact ⟨r₁, rfl, by simpa using h₁, hnext⟩
  | some e =>
    obtain ⟨r₂, hlog, h₂, hs⟩ := hm.log h₁ e
    exact ⟨r₂, hlog, h₂, hs.trans hnext⟩

/-- Every run succeeds, follows the switch, and maintains the invariant. -/
theorem Maintained.run (hm : Maintained lz inv) {r : Runtime} {es : List Logged}
    (h : inv r es) (cs : List Call) :
    ∃ r', runCalls lz r cs = .ok (r', r.switch.records cs) ∧
      inv r' (es ++ r.switch.records cs) ∧ r'.switch = r.switch.after cs :=
  @runCalls_spec lz inv (fun h c ↦ hm.perform h c) r es h cs

/-! ### A flush to an open file -/

/-- The thread after it has flushed the records `ss` to an open file. -/
def Runtime.afterFlush (lz : Lz4) (r : Runtime) (ss : List Slot) : Runtime :=
  let payload := payloadOf lz r.shared.flags.compression ss
  { r with
    shared.out.bytes := r.shared.out.bytes ++ frame 8 payload
    shared.totalUncompressedSize :=
      if r.shared.flags.compression then
        r.shared.totalUncompressedSize + 8 + .ofNat (Slot.bytesOf ss).length
      else r.shared.totalUncompressedSize
    shared.totalCompressedSize :=
      if r.shared.flags.compression then r.shared.totalCompressedSize + 8 + .ofNat payload.length
      else r.shared.totalCompressedSize
    thread.buffer := r.thread.buffer.reset
    thread.insideMema := false }

/-- A flush to an open file writes one frame with everything held. -/
theorem memaEmptyBuffer_of_open (lz : Lz4) {r : Runtime} {ss : List Slot}
    (hfd : r.shared.memaccessFd ≠ -1) (hopen : r.shared.out.isOpen = true)
    (hlaid : r.thread.buffer.Laid ss) : memaEmptyBuffer lz r = .ok (r.afterFlush lz ss) := by
  unfold memaEmptyBuffer Runtime.afterFlush
  rw [if_neg hfd, hlaid.held_eq]
  cases hcomp : r.shared.flags.compression with
  | true => simp only [OutFile.write_frame hopen, payloadOf, ↓reduceIte]
  | false => simp only [OutFile.write_frame hopen, payloadOf, Bool.false_eq_true, ↓reduceIte]

/-! ### An initialised thread never faults -/

/-- Initialised, outside the runtime, with room in the buffer and a file to flush to or none
at all. -/
structure Runtime.Live (r : Runtime) : Prop where
  initialized : r.shared.memaInitialized = true
  outside : r.thread.insideMema = false
  room : ∃ ss, r.thread.buffer.Laid ss ∧ ss.length < flushSize
  sink : r.shared.memaccessFd = -1 ∨ r.shared.out.isOpen = true

/-- A flush without a file or to an open one succeeds, empties the buffer, and leaves the
switch alone. -/
theorem memaEmptyBuffer_live (lz : Lz4) {r : Runtime} {ss : List Slot}
    (hi : r.shared.memaInitialized = true) (ho : r.thread.insideMema = false)
    (hl : r.thread.buffer.Laid ss)
    (hs : r.shared.memaccessFd = -1 ∨ r.shared.out.isOpen = true) :
    ∃ r', memaEmptyBuffer lz r = .ok r' ∧ r'.Live ∧ r'.switch = r.switch ∧
      r'.thread.buffer.Laid [] ∧ r'.shared.memaccessFd = r.shared.memaccessFd := by
  have hroom : ∃ ss, r.thread.buffer.reset.Laid ss ∧ ss.length < flushSize :=
    ⟨[], hl.reset, by decide⟩
  by_cases hfd : r.shared.memaccessFd = -1
  · rw [memaEmptyBuffer, if_pos hfd]
    exact ⟨_, rfl, ⟨hi, ho, hroom, .inl hfd⟩, rfl, hl.reset, rfl⟩
  · have hopen : r.shared.out.isOpen = true := hs.resolve_left hfd
    exact ⟨_, memaEmptyBuffer_of_open lz hfd hopen hl, ⟨hi, rfl, hroom, .inr hopen⟩, rfl, hl.reset,
      rfl⟩

/-- Liveness is maintained by the hooks, whatever is logged. -/
theorem maintained_live (lz : Lz4) : Maintained lz fun r _ ↦ r.Live where
  live h := ⟨h.initialized, h.outside⟩
  congr h hs := by
    obtain ⟨ss, hl, hroom⟩ := h.room
    exact ⟨by rw [hs.initialized, h.initialized], by rw [hs.outside, h.outside],
      ⟨ss, by rw [hs.buffer]; exact hl, hroom⟩, by rw [hs.fd, hs.out]; exact h.sink⟩
  log {r es} h e := by
    obtain ⟨ss, hl, hroom⟩ := h.room
    obtain ⟨b, hb, hl'⟩ := hl.append hroom e.write
    simp only [logRecord, hb]
    by_cases hfull : b.atLast = true
    · obtain ⟨r', hr, ht, hs, -, -⟩ := memaEmptyBuffer_live lz
        (r := { r with thread.buffer := b }) h.initialized h.outside hl' h.sink
      exact ⟨r', by rw [if_pos hfull, hr], ht, hs⟩
    · have hlen := mt hl'.atLast_iff.mpr hfull
      rw [List.length_append, List.length_singleton] at hlen
      refine ⟨{ r with thread.buffer := b }, by rw [if_neg hfull],
        ⟨h.initialized, h.outside, ⟨_, hl', ?_⟩, h.sink⟩, rfl⟩
      rw [List.length_append, List.length_singleton]
      omega

/-- A live thread takes every sequence of calls and logs what its switch decides. -/
theorem Runtime.Live.run {r : Runtime} (h : r.Live) (lz : Lz4) (cs : List Call) :
    ∃ r', runCalls lz r cs = .ok (r', r.switch.records cs) ∧ r'.Live ∧
      r'.switch = r.switch.after cs :=
  @Maintained.run lz _ (maintained_live lz) r [] h cs

/-- On a live thread the calls that are defined are those of a switch whose counter fits. -/
theorem Runtime.Live.runDefined_iff {r : Runtime} (h : r.Live) (lz : Lz4) (cs : List Call)
    (result : Runtime × List Logged) :
    runDefined lz r cs = .ok result ↔ r.switch.Fits cs ∧ runCalls lz r cs = .ok result := by
  induction cs generalizing r result with
  | nil => exact (and_iff_right trivial).symm
  | cons c cs ih =>
    obtain ⟨r', hperform, hlive, hswitch⟩ := @Maintained.perform lz _ (maintained_live lz) r [] h c
    show _ ↔ (r.switch.overflows c = false ∧ (r.switch.next c).Fits cs) ∧ _
    rw [runDefined, runCalls, c.overflows_eq h.initialized h.outside, hperform, ← hswitch]
    cases r.switch.overflows c with
    | true => simp
    | false =>
      simp only [Bool.false_eq_true, ↓reduceIte, true_and]
      constructor
      · intro hrun
        split at hrun
        · cases hrun
        · next r₂ es heq =>
          obtain ⟨hfits, hcalls⟩ := (ih hlive _).mp heq
          rw [hcalls]
          exact ⟨hfits, hrun⟩
      · rintro ⟨hfits, hrun⟩
        split at hrun
        · cases hrun
        · next r₂ es heq =>
          rw [(ih hlive _).mpr ⟨hfits, heq⟩]
          exact hrun

/-! ### A thread with an open file keeps every record -/

/-- The thread is tracing, and buffer and file keep exactly the records `es`. -/
structure Runtime.Traced (lz : Lz4) (header : List UInt8) (r : Runtime) (log : Log Slot)
    (es : List Logged) : Prop where
  tracing : r.Tracing
  kept : Kept lz r.shared.flags.compression header Slot.readback r.thread.buffer r.shared.out
    log es

/-- A flush of a tracing thread succeeds, writes one frame with everything held, and leaves
the switch alone. -/
theorem memaEmptyBuffer_spec {header : List UInt8} {r : Runtime} {log : Log Slot}
    {es : List Logged} (h : r.Traced lz header log es) :
    ∃ r', memaEmptyBuffer lz r = .ok r' ∧ r'.Traced lz header log.cut es ∧
      r'.switch = r.switch := by
  have hflush := memaEmptyBuffer_of_open lz h.tracing.fd h.kept.isOpen h.kept.laid
  exact ⟨_, hflush, ⟨⟨h.tracing.initialized, rfl, h.tracing.fd⟩, h.kept.flush⟩, rfl⟩

/-- The shared tail of the hooks pushes one record onto the abstract log. -/
theorem logRecord_spec {header : List UInt8} {r : Runtime} {log : Log Slot}
    {es : List Logged} (h : r.Traced lz header log es) (hf : log.Filled flushSize) (e : Logged) :
    ∃ r' x, logRecord lz r e = .ok (r', some e) ∧
      r'.Traced lz header (log.push flushSize x) (es ++ [e]) ∧ r'.switch = r.switch := by
  obtain ⟨b, x, hb, hkept, hlast⟩ :=
    h.kept.append hf.room e.readback_write e.typePadding_write
  -- Before the flush the new record is pending.
  have htraced : ({ r with thread.buffer := b } : Runtime).Traced lz header
      ⟨log.done, log.pending ++ [x]⟩ (es ++ [e]) :=
    ⟨⟨h.tracing.initialized, h.tracing.outside, h.tracing.fd⟩, hkept⟩
  simp only [logRecord, hb]
  by_cases hfull : log.pending.length + 1 = flushSize
  · obtain ⟨r', hr', ht', hs'⟩ := memaEmptyBuffer_spec htraced
    refine ⟨r', x, by rw [if_pos (hlast.mpr hfull), hr'], ?_, hs'⟩
    rw [Log.push, if_pos hfull]
    exact ht'
  · refine ⟨{ r with thread.buffer := b }, x, by rw [if_neg (fun hl ↦ hfull (hlast.mp hl))],
      ?_, rfl⟩
    rw [Log.push, if_neg hfull]
    exact htraced

/-- Keeping every record, through a log of full chunks, is maintained by the hooks. -/
theorem maintained_traced (lz : Lz4) (header : List UInt8) :
    Maintained lz fun r es ↦ ∃ log, r.Traced lz header log es ∧ log.Filled flushSize where
  live := fun ⟨_, h, _⟩ ↦ ⟨h.tracing.initialized, h.tracing.outside⟩
  congr := fun ⟨log, h, hf⟩ hs ↦ by
    refine ⟨log, ⟨⟨?_, ?_, ?_⟩, ?_⟩, hf⟩
    · rw [hs.initialized, h.tracing.initialized]
    · rw [hs.outside, h.tracing.outside]
    · rw [hs.fd]
      exact h.tracing.fd
    · rw [hs.compression, hs.buffer, hs.out]
      exact h.kept
  log := fun ⟨log, h, hf⟩ e ↦ by
    obtain ⟨r', x, hr, ht, hs⟩ := logRecord_spec h hf e
    exact ⟨r', hr, ⟨_, ht, hf.push x⟩, hs⟩

end Mema
