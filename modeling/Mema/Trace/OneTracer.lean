import Mema.Runtime.Threads
import Mema.Trace.NoLoss

/-!
# The thread that traces

Only the thread that ran `__mema_initialize` has its pointers set up: the first record of any
other thread is stored through NULL. As long as there is none, the steps of all threads keep that
one thread's log behind its buffer and the file.
-/

namespace Mema

open Bytes Framing Chunks

/-- Tracing is enabled by set-up, with a file to write to and no function monitored. -/
structure Startup.Enabled (start : Startup) : Prop where
  disable : start.flags.disable = false
  filename : start.flags.filename.isSome = true
  fd : start.fd ≠ -1
  monitoring : start.flags.funcname = none ∨ start.monitoring = .failed

/-- Without a monitored function set-up leaves the flags as they were parsed. -/
theorem memaInitialize_settings {start : Startup} (hstart : start.Enabled) :
    (memaInitialize start).shared.flags = start.flags ∧
      (memaInitialize start).thread.monitorFunc = false := by
  have hnone : ¬ start.flags.filename.isNone = true := by
    simpa [Option.isSome_iff_ne_none] using hstart.filename
  simp only [memaInitialize, if_neg hnone]
  rcases hstart.monitoring with hname | hfailed
  · rw [hname]
    exact ⟨(memaWriteHeader_frame start _).2.2.1, rfl⟩
  · rw [hfailed]
    split
    · exact ⟨(memaWriteHeader_frame start _).2.2.1, rfl⟩
    · exact ⟨(memaWriteHeader_frame start _).2.2.1, rfl⟩

/-- The record a call logs while tracing is enabled. -/
def Call.logs : Call → Option Logged
  | .functionEntry addr => some (.funcEnter addr)
  | .functionExit addr => some (.funcExit addr)
  | .access addr _ isWrite site => some (.access site.time site.pc site.bp site.sp addr isWrite)
  | _ => none

/-- The variables under which every hook call logs. -/
structure Runtime.Logging (start : Startup) (r : Runtime) : Prop where
  initialized : r.shared.memaInitialized = true
  flags : r.shared.flags = start.flags
  outside : r.thread.insideMema = false
  monitor : r.thread.monitorFunc = false

/-- A hook call is the append of its record. -/
theorem Call.begin_logging {start : Startup} (hstart : start.Enabled) {r : Runtime}
    (h : r.Logging start) {c : Call} (hc : c.IsHook) :
    ∃ e, c.logs = some e ∧ c.begin r = appendRecord r e := by
  have hskip : ¬ (!r.shared.memaInitialized || r.thread.insideMema) = true := by
    rw [h.initialized, h.outside]
    decide
  have hdisable : r.shared.flags.disable = false := by rw [h.flags, hstart.disable]
  have hname : r.shared.flags.filename.isNone = false := by
    rw [h.flags]
    simpa [Option.isSome_iff_ne_none] using hstart.filename
  have hentry (addr : UInt64) : monitorEntry r addr = r := by
    simp [monitorEntry, h.monitor]
  have hexit (addr : UInt64) : monitorExit r addr = r := by
    simp [monitorExit, h.monitor]
  cases c with
  | functionEntry addr =>
    refine ⟨_, rfl, ?_⟩
    simp only [Call.begin, if_neg hskip, hentry, hdisable, Bool.false_eq_true, if_false]
  | functionExit addr =>
    refine ⟨_, rfl, ?_⟩
    simp only [Call.begin, if_neg hskip, hexit, hdisable, Bool.false_eq_true, if_false]
  | access addr size isWrite site =>
    refine ⟨_, rfl, ?_⟩
    simp [Call.begin, h.initialized, h.outside, hdisable, hname]
  | enable => exact hc.elim
  | disable => exact hc.elim

/-! ### The first thread is the only tracer -/

/-- What a flush has written of its frame before a stage. -/
def FlushStage.written (payload : List UInt8) : FlushStage → List UInt8
  | .lock => []
  | .writeLength => []
  | .writePayload => leBytes 8 payload.length
  | .unlock => frame 8 payload

/-- Who holds the mutex before a stage. -/
def FlushStage.owner (t : Nat) : FlushStage → Option Nat
  | .lock => none
  | _ => some t

/-- The frames finished before a stage. -/
def FlushStage.frames (t : Nat) (records : List Slot) : FlushStage → List (Nat × List Slot)
  | .unlock => [(t, records)]
  | _ => []

/-- Where the first thread stands, against the log behind its buffer and the file `out` as it was
when its current flush began. -/
def ThreadAt.Ok (lz : Lz4) (start : Startup) (log : Log Slot) (out : OutFile) (p : Process) :
    ThreadAt → Prop
  | .flushing stage job =>
    job.records = log.pending ∧ job.payload = payloadOf lz start.flags.compression log.pending ∧
      log.pending.length = flushSize ∧
      p.shared.out = { out with bytes := out.bytes ++ stage.written job.payload } ∧
      p.writeMutex = stage.owner 0 ∧
      p.flushed = log.done.map (Prod.mk 0) ++ stage.frames 0 job.records
  | _ =>
    log.pending.length < flushSize ∧ (p.thread 0).insideMema = false ∧ p.shared.out = out ∧
      p.writeMutex = none ∧ p.flushed = log.done.map (Prod.mk 0)

/-- The other threads' variables do not matter. -/
theorem ThreadAt.Ok.congr {lz : Lz4} {start : Startup} {log : Log Slot} {out : OutFile}
    {p p' : Process} {s : ThreadAt} (h : s.Ok lz start log out p)
    (hthread : p'.thread 0 = p.thread 0) (hshared : p'.shared = p.shared)
    (hmutex : p'.writeMutex = p.writeMutex) (hflushed : p'.flushed = p.flushed) :
    s.Ok lz start log out p' := by
  cases s with
  | running =>
    simp only [ThreadAt.Ok, hthread, hshared, hmutex, hflushed] at h ⊢
    exact h
  | ended =>
    simp only [ThreadAt.Ok, hthread, hshared, hmutex, hflushed] at h ⊢
    exact h
  | flushing stage job =>
    simp only [ThreadAt.Ok, hshared, hmutex, hflushed] at h ⊢
    exact h

/-- A process in which only the first thread has logged anything. -/
structure Process.OneTracer (lz : Lz4) (start : Startup) (header : List UInt8) (p : Process)
    (log : Log Slot) (out : OutFile) : Prop where
  created : 0 < p.created
  going : p.finalized = false
  initialized : p.shared.memaInitialized = true
  flags : p.shared.flags = start.flags
  fd : p.shared.memaccessFd ≠ -1
  monitor : (p.thread 0).monitorFunc = false
  others : ∀ t, t ≠ 0 → p.thread t = Thread.fresh ∧ p.logged t = [] ∧
    ∀ stage job, p.standing t ≠ .flushing stage job
  full : ∀ c ∈ log.done, c.length = flushSize
  kept : Kept lz start.flags.compression header Slot.readback (p.thread 0).buffer out log
    (p.logged 0)
  standing : (p.standing 0).Ok lz start log out p

section Steps

variable {lz : Lz4} {start : Startup} {header : List UInt8} {p : Process} {log : Log Slot}
  {out : OutFile}

namespace Process

/-- Steps of the first thread leave the others as they are. -/
theorem OneTracer.others_of (h : p.OneTracer lz start header log out) {p' : Process}
    (hthread : ∀ t, t ≠ 0 → p'.thread t = p.thread t)
    (hlogged : ∀ t, t ≠ 0 → p'.logged t = p.logged t)
    (hstanding : ∀ t, t ≠ 0 → p'.standing t = p.standing t) :
    ∀ t, t ≠ 0 → p'.thread t = Thread.fresh ∧ p'.logged t = [] ∧
      ∀ stage job, p'.standing t ≠ .flushing stage job := by
  intro t ht
  rw [hthread t ht, hlogged t ht, hstanding t ht]
  exact h.others t ht

/-- Between calls the first thread logs. -/
theorem OneTracer.logging (h : p.OneTracer lz start header log out)
    (hrun : p.standing 0 = .running) : (p.runtime 0).Logging start := by
  have hs := h.standing
  rw [hrun] at hs
  exact ⟨h.initialized, h.flags, hs.2.1, h.monitor⟩

/-- Another thread's first record goes through a NULL pointer. -/
theorem OneTracer.call_other (hstart : start.Enabled) (h : p.OneTracer lz start header log out)
    {t : Nat} (ht : t ≠ 0) {c : Call} (hc : c.IsHook) :
    p.call lz t c = .error .nullPointer := by
  have hfresh := (h.others t ht).1
  have hlogging : (p.runtime t).Logging start := by
    refine ⟨h.initialized, h.flags, ?_, ?_⟩ <;> rw [runtime, hfresh] <;> rfl
  obtain ⟨e, -, hbegin⟩ := Call.begin_logging hstart hlogging hc
  have happend : appendRecord (p.runtime t) e = .error .nullPointer := by
    rw [appendRecord, runtime, hfresh]
    rfl
  rw [Process.call, hbegin, happend]
  rfl

/-- The first thread has appended a record with room left. -/
theorem OneTracer.record_room (h : p.OneTracer lz start header log out)
    (hrun : p.standing 0 = .running) {b : TraceBuffer} {x : Slot} {e : Logged}
    (hkept : Kept lz start.flags.compression header Slot.readback b out
      ⟨log.done, log.pending ++ [x]⟩ (p.logged 0 ++ [e]))
    (hroom : log.pending.length + 1 < flushSize) :
    (p.record 0 ⟨p.shared, { p.thread 0 with buffer := b }⟩ (some e)).OneTracer lz start header
      ⟨log.done, log.pending ++ [x]⟩ out := by
  have hs := h.standing
  rw [hrun] at hs
  obtain ⟨-, hinside, hout, hmutex, hflushed⟩ := hs
  refine ⟨h.created, h.going, h.initialized, h.flags, h.fd, ?_, ?_, h.full, ?_, ?_⟩
  · rw [thread_record_self]
    exact h.monitor
  · exact h.others_of (fun t ht ↦ p.thread_record_of_ne 0 _ _ ht)
      (fun t ht ↦ p.logged_record_of_ne 0 _ _ ht) fun _ _ ↦ rfl
  · rw [thread_record_self, logged_record_self]
    exact hkept
  · change (p.standing 0).Ok _ _ _ _ _
    rw [hrun]
    refine ⟨?_, ?_, hout, hmutex, hflushed⟩
    · rw [List.length_append, List.length_singleton]
      exact hroom
    · rw [thread_record_self]
      exact hinside

/-- The first thread has filled its buffer and is about to flush it. -/
theorem OneTracer.record_full (h : p.OneTracer lz start header log out)
    (hrun : p.standing 0 = .running) {b : TraceBuffer} {x : Slot} {e : Logged}
    (hkept : Kept lz start.flags.compression header Slot.readback b out
      ⟨log.done, log.pending ++ [x]⟩ (p.logged 0 ++ [e]))
    (hfull : log.pending.length + 1 = flushSize) (r : Runtime) (th : Thread)
    (hth : th.buffer = b) (hmonitor : th.monitorFunc = false) :
    (((p.record 0 r (some e)).store 0 ⟨p.shared, th⟩).move 0 (.flushing .lock
      ⟨log.pending ++ [x], payloadOf lz start.flags.compression (log.pending ++ [x])⟩)).OneTracer
        lz start header ⟨log.done, log.pending ++ [x]⟩ out := by
  have hs := h.standing
  rw [hrun] at hs
  obtain ⟨-, -, hout, hmutex, hflushed⟩ := hs
  refine ⟨h.created, h.going, h.initialized, h.flags, h.fd, ?_, ?_, h.full, ?_, ?_⟩
  · rw [thread_move, thread_store_self]
    exact hmonitor
  · apply h.others_of
    · intro t ht
      rw [thread_move, thread_store_of_ne _ _ _ ht, thread_record_of_ne _ _ _ _ ht]
    · exact fun t ht ↦ p.logged_record_of_ne 0 r _ ht
    · exact fun t ht ↦ standing_move_of_ne _ 0 _ ht
  · change Kept _ _ _ _ _ _ _ ((p.record 0 r (some e)).logged 0)
    rw [thread_move, thread_store_self, logged_record_self, hth]
    exact hkept
  · rw [standing_move_self]
    refine ⟨rfl, rfl, ?_, ?_, hmutex, ?_⟩
    · rw [List.length_append, List.length_singleton]
      exact hfull
    · simp only [FlushStage.written, List.append_nil]
      exact hout
    · simp only [FlushStage.frames, List.append_nil]
      exact hflushed

/-- The first thread's call logs its record, and starts a flush at a full buffer. -/
theorem OneTracer.call_first (hstart : start.Enabled) (h : p.OneTracer lz start header log out)
    (hrun : p.standing 0 = .running) {c : Call} (hc : c.IsHook) :
    ∃ p' log' e, p.call lz 0 c = .ok p' ∧ p'.OneTracer lz start header log' out ∧
      p'.logged 0 = p.logged 0 ++ [e] := by
  have hs := h.standing
  rw [hrun] at hs
  have hroom := hs.1
  obtain ⟨e, -, hbegin⟩ := Call.begin_logging hstart (h.logging hrun) hc
  obtain ⟨b, x, hb, hkept, hlast⟩ := h.kept.append hroom e.readback_write e.typePadding_write
  let th : Thread := { p.thread 0 with buffer := b }
  have happend : appendRecord (p.runtime 0) e = .ok (⟨p.shared, th⟩, some e) := by
    rw [appendRecord, runtime, hb]
  rw [happend] at hbegin
  by_cases hfull : log.pending.length + 1 = flushSize
  · have hat : th.buffer.atLast = true := hlast.mpr hfull
    have hjob : beginFlush lz ⟨p.shared, th⟩ = .ok (⟨p.shared, { th with insideMema := true }⟩,
        some ⟨log.pending ++ [x], payloadOf lz start.flags.compression (log.pending ++ [x])⟩) := by
      rw [beginFlush, if_neg h.fd, hkept.laid.held_eq, h.flags]
      rfl
    have hflushing := h.record_full hrun hkept hfull ⟨p.shared, th⟩
      { th with insideMema := true } rfl h.monitor
    refine ⟨_, _, e, ?_, hflushing, p.logged_record_self 0 ⟨p.shared, th⟩ _⟩
    simp only [Process.call, hbegin, bind, Except.bind, hat, Option.isSome_some, Bool.and_self,
      if_true]
    rw [hjob]
    rfl
  · have hat : th.buffer.atLast = false := by
      rw [Bool.eq_false_iff]
      exact mt hlast.mp hfull
    refine ⟨_, _, e, ?_, h.record_room hrun hkept (by omega),
      p.logged_record_self 0 ⟨p.shared, th⟩ _⟩
    simp only [Process.call, hbegin, bind, Except.bind, hat, Bool.and_false, Bool.false_eq_true,
      if_false]
    rfl

/-- A flush goes on to its next stage. -/
theorem OneTracer.advance (h : p.OneTracer lz start header log out) {shared : Shared}
    {mutex : Option Nat} {flushed : List (Nat × List Slot)} {stage : FlushStage} {job : FlushJob}
    (hinit : shared.memaInitialized = p.shared.memaInitialized)
    (hflags : shared.flags = p.shared.flags) (hfd : shared.memaccessFd = p.shared.memaccessFd)
    (hok : ThreadAt.Ok lz start log out
      { p with shared := shared, writeMutex := mutex, flushed := flushed }
      (.flushing stage job)) :
    ({ p with shared := shared, writeMutex := mutex, flushed := flushed }.move 0
      (.flushing stage job)).OneTracer lz start header log out := by
  refine ⟨h.created, h.going, hinit.trans h.initialized, hflags.trans h.flags,
    fun hf ↦ h.fd (hfd.symm.trans hf), h.monitor, ?_, h.full, h.kept, ?_⟩
  · exact h.others_of (fun _ _ ↦ rfl) (fun _ _ ↦ rfl)
      fun t ht ↦ standing_move_of_ne _ 0 _ ht
  · rw [standing_move_self]
    exact hok

/-- The end of a flush cuts the log. -/
theorem OneTracer.unlock (h : p.OneTracer lz start header log out) {job : FlushJob}
    (hstanding : p.standing 0 = .flushing .unlock job) :
    (({ p with writeMutex := none }.store 0 ⟨p.shared, endFlush (p.thread 0)⟩).move 0
      .running).OneTracer lz start header log.cut p.shared.out := by
  have hs := h.standing
  rw [hstanding] at hs
  obtain ⟨hrecords, hpayload, hfull, hout, -, hflushed⟩ := hs
  have hkept := h.kept.flush
  rw [← hpayload] at hkept
  refine ⟨h.created, h.going, h.initialized, h.flags, h.fd, ?_, ?_, ?_, ?_, ?_⟩
  · rw [thread_move, thread_store_self]
    exact h.monitor
  · exact h.others_of (fun t ht ↦ thread_store_of_ne _ 0 _ ht) (fun _ _ ↦ rfl)
      fun t ht ↦ standing_move_of_ne _ 0 _ ht
  · intro c hc
    rcases List.mem_append.mp hc with hc | hc
    · exact h.full c hc
    · rw [List.mem_singleton.mp hc]
      exact hfull
  · rw [thread_move, thread_store_self, hout]
    exact hkept
  · have hpos : ([] : List Slot).length < flushSize := by decide
    rw [standing_move_self]
    refine ⟨hpos, ?_, rfl, rfl, ?_⟩
    · rw [thread_move, thread_store_self]
      rfl
    · change p.flushed = _
      rw [hflushed, hrecords]
      simp only [FlushStage.frames, Log.cut, List.map_append, List.map_singleton]

/-- Each step of the first thread's flush succeeds; the last one cuts the log. -/
theorem OneTracer.flush_first (h : p.OneTracer lz start header log out)
    {r : Except Fault Process} (hr : p.flush 0 = some r) :
    ∃ p' log' out', r = .ok p' ∧ p'.OneTracer lz start header log' out' ∧
      p'.logged = p.logged := by
  have hs := h.standing
  cases hstanding : p.standing 0 with
  | running =>
    simp only [Process.flush, hstanding] at hr
    cases hr
  | ended =>
    simp only [Process.flush, hstanding] at hr
    cases hr
  | flushing stage job =>
    rw [hstanding] at hs
    obtain ⟨hrecords, hpayload, hfull, hout, hmutex, hflushed⟩ := hs
    have hopen : p.shared.out.isOpen = true := by
      rw [hout]
      exact h.kept.isOpen
    cases stage with
    | lock =>
      have hfree : p.writeMutex = none := hmutex
      simp only [Process.flush, hstanding, hfree] at hr
      cases hr
      have hok : ThreadAt.Ok lz start log out { p with writeMutex := some 0 }
          (.flushing .writeLength job) :=
        ⟨hrecords, hpayload, hfull, hout, rfl, hflushed⟩
      exact ⟨_, log, out, rfl, h.advance rfl rfl rfl hok, rfl⟩
    | writeLength =>
      simp only [Process.flush, hstanding] at hr
      cases hr
      have hlength : (writeLength job p.shared).out =
          { out with bytes := out.bytes ++ leBytes 8 job.payload.length } := by
        rw [writeLength, OutFile.write_open hopen, hout]
        simp only [FlushStage.written, List.append_nil]
      have hok : ThreadAt.Ok lz start log out { p with shared := writeLength job p.shared }
          (.flushing .writePayload job) :=
        ⟨hrecords, hpayload, hfull, hlength, hmutex, hflushed⟩
      exact ⟨_, log, out, rfl, h.advance rfl rfl rfl hok, rfl⟩
    | writePayload =>
      obtain ⟨shared, hwrite, hshared, hflags, hinit, hfd⟩ := writePayload_spec job hopen
      simp only [Process.flush, hstanding, hwrite] at hr
      cases hr
      have hframe : shared.out = { out with bytes := out.bytes ++ frame 8 job.payload } := by
        rw [hshared, hout]
        simp only [FlushStage.written, frame, List.append_assoc]
      have hok : ThreadAt.Ok lz start log out
          { p with shared := shared, flushed := p.flushed ++ [(0, job.records)] }
          (.flushing .unlock job) := by
        refine ⟨hrecords, hpayload, hfull, hframe, hmutex, ?_⟩
        rw [hflushed]
        simp only [FlushStage.frames, List.append_nil]
      exact ⟨_, log, out, rfl, h.advance hinit hflags hfd hok, rfl⟩
    | unlock =>
      simp only [Process.flush, hstanding] at hr
      cases hr
      exact ⟨_, log.cut, p.shared.out, rfl, h.unlock hstanding, rfl⟩

/-- No other thread is flushing. -/
theorem OneTracer.flush_other (h : p.OneTracer lz start header log out) {t : Nat} (ht : t ≠ 0) :
    p.flush t = none := by
  have hidle := (h.others t ht).2.2
  cases hstanding : p.standing t with
  | running => simp only [Process.flush, hstanding]
  | ended => simp only [Process.flush, hstanding]
  | flushing stage job => exact absurd hstanding (hidle stage job)

/-- A thread created later is not the first. -/
theorem OneTracer.create (h : p.OneTracer lz start header log out) :
    p.create.OneTracer lz start header log out := by
  have hne : 0 ≠ p.created := Nat.ne_of_lt h.created
  have hthread : p.create.thread 0 = p.thread 0 := p.thread_create_of_ne hne
  refine ⟨Nat.succ_pos _, h.going, h.initialized, h.flags, h.fd, ?_, ?_, h.full, ?_, ?_⟩
  · rw [hthread]
    exact h.monitor
  · intro t ht
    obtain ⟨hfresh, hlogged, hidle⟩ := h.others t ht
    by_cases htc : t = p.created
    · subst htc
      refine ⟨p.thread_create_self, hlogged, fun stage job hs ↦ ?_⟩
      rw [standing_create_self] at hs
      cases hs
    · refine ⟨(p.thread_create_of_ne htc).trans hfresh, hlogged, fun stage job hs ↦ ?_⟩
      rw [standing_create_of_ne _ htc] at hs
      exact hidle stage job hs
  · rw [hthread]
    exact h.kept
  · rw [standing_create_of_ne _ hne]
    exact h.standing.congr hthread rfl rfl rfl

/-- When the first thread is not flushing, the file ends with a whole frame. -/
theorem OneTracer.idle (h : p.OneTracer lz start header log out)
    (hidle : ∀ stage job, p.standing 0 ≠ .flushing stage job) :
    log.pending.length < flushSize ∧ (p.thread 0).insideMema = false ∧ p.shared.out = out ∧
      p.writeMutex = none ∧ p.flushed = log.done.map (Prod.mk 0) := by
  have hs := h.standing
  cases hzero : p.standing 0 with
  | flushing stage job => exact absurd hzero (hidle stage job)
  | running =>
    rw [hzero] at hs
    exact hs
  | ended =>
    rw [hzero] at hs
    exact hs

/-- The first thread never holds more than a full buffer. -/
theorem OneTracer.room (h : p.OneTracer lz start header log out) :
    log.pending.length ≤ flushSize := by
  by_cases hidle : ∀ stage job, p.standing 0 ≠ .flushing stage job
  · exact Nat.le_of_lt (h.idle hidle).1
  · simp only [ne_eq, not_forall, not_not] at hidle
    obtain ⟨stage, job, hstanding⟩ := hidle
    have hs := h.standing
    rw [hstanding] at hs
    exact Nat.le_of_eq hs.2.2.1

/-- A thread that ends keeps what it holds. -/
theorem OneTracer.finish (h : p.OneTracer lz start header log out) {t : Nat}
    (hrun : p.standing t = .running) : (p.move t .ended).OneTracer lz start header log out := by
  have hidle (u : Nat) (hu : ∀ stage job, p.standing u ≠ .flushing stage job) :
      ∀ stage job, (p.move t .ended).standing u ≠ .flushing stage job := by
    intro stage job hs
    by_cases hut : u = t
    · subst hut
      rw [standing_move_self] at hs
      cases hs
    · rw [standing_move_of_ne _ _ _ hut] at hs
      exact hu stage job hs
  refine ⟨h.created, h.going, h.initialized, h.flags, h.fd, h.monitor, ?_, h.full, h.kept, ?_⟩
  · intro u hu
    obtain ⟨hfresh, hlogged, hflush⟩ := h.others u hu
    exact ⟨hfresh, hlogged, hidle u hflush⟩
  · by_cases ht : 0 = t
    · subst ht
      rw [standing_move_self]
      apply h.idle
      intro stage job hs
      rw [hrun] at hs
      cases hs
    · rw [standing_move_of_ne _ _ _ ht]
      exact h.standing

/-! ### The finalizer -/

/-- The last flush writes one frame of the records held by the thread that finalises. -/
private theorem memaFinalize_held (lz : Lz4) {r : Runtime} {records : List Slot}
    (hfd : r.shared.memaccessFd ≠ -1) (hopen : r.shared.out.isOpen = true)
    (hheld : r.thread.buffer.held = some records) :
    ∃ r', memaFinalize lz r = .ok r' ∧ r'.thread = endFlush r.thread ∧
      r'.shared.out.bytes = r.shared.out.bytes ++
        frame 8 (payloadOf lz r.shared.flags.compression records) := by
  let job : FlushJob := ⟨records, payloadOf lz r.shared.flags.compression records⟩
  have hbegin : beginFlush lz r = .ok ({ r with thread.insideMema := true }, some job) := by
    rw [beginFlush, if_neg hfd, hheld]
    rfl
  have hlength : (writeLength job r.shared).out =
      { r.shared.out with bytes := r.shared.out.bytes ++ leBytes 8 job.payload.length } := by
    rw [writeLength, OutFile.write_open hopen]
  obtain ⟨s, hwrite, hout, -, -, hfds⟩ := writePayload_spec (s := writeLength job r.shared) job
    (by rw [hlength]; exact hopen)
  have hempty : memaEmptyBuffer lz r = .ok ⟨s, endFlush r.thread⟩ := by
    rw [memaEmptyBuffer_eq, hbegin]
    dsimp only
    rw [hwrite]
    rfl
  refine ⟨⟨{ s with out.isOpen := false }, endFlush r.thread⟩, ?_, rfl, ?_⟩
  · rw [memaFinalize, hempty]
    exact if_pos (fun hf ↦ hfd (hfds.symm.trans hf))
  · change s.out.bytes = _
    rw [hout, hlength]
    simp only [frame, List.append_assoc]
    rfl

/-- A process that has finalised on thread `t`. -/
structure Finished (lz : Lz4) (start : Startup) (header : List UInt8) (p : Process)
    (log : Log Slot) (t : Nat) : Prop where
  finalized : p.finalized = true
  idle : ∀ u stage job, p.standing u ≠ .flushing stage job
  filled : log.Filled flushSize
  bytes : p.shared.out.bytes =
    header ++ framesOf lz start.flags.compression (p.flushed.map Prod.snd)
  flushed : p.flushed = log.done.map (Prod.mk 0) ++ [(t, if t = 0 then log.pending else [])]
  holds : List.Forall₂ (Slot.Holds Slot.readback) log.contents (p.logged 0)
  others : ∀ u, u ≠ 0 → p.logged u = []
  laid : ∃ ss, (p.thread 0).buffer.Laid ss ∧ ss.length < flushSize

/-- Finalising writes what its own thread holds, and nothing on a thread without a buffer. -/
theorem OneTracer.finalize (h : p.OneTracer lz start header log out) {t : Nat}
    (hidle : ∀ u stage job, p.standing u ≠ .flushing stage job) :
    ∃ p', p.finalize lz t = .ok p' ∧ p'.Finished lz start header log t ∧
      p'.logged = p.logged := by
  obtain ⟨hroom, -, hout, -, hflushed⟩ := h.idle (hidle 0)
  let records : List Slot := if t = 0 then log.pending else []
  have hheld : (p.thread t).buffer.held = some records := by
    by_cases ht : t = 0
    · subst ht
      exact h.kept.laid.held_eq
    · rw [(h.others t ht).1]
      simp only [records, if_neg ht]
      rfl
  have hopen : (p.runtime t).shared.out.isOpen = true := by
    change p.shared.out.isOpen = true
    rw [hout]
    exact h.kept.isOpen
  obtain ⟨r, hr, hthread, hbytes⟩ := memaFinalize_held lz (r := p.runtime t) h.fd hopen hheld
  let final : Process := { p.store t r with
    finalized := true
    flushed := p.flushed ++ [(t, records)] }
  have hfinal : p.finalize lz t = .ok final := by
    rw [Process.finalize, hr, hheld]
    rfl
  refine ⟨final, hfinal, ⟨rfl, hidle, ⟨hroom, h.full⟩, ?_, ?_, h.kept.holds, ?_, ?_⟩, rfl⟩
  · change r.shared.out.bytes = _ ++ framesOf _ _ ((p.flushed ++ [(t, records)]).map Prod.snd)
    have hdone : (log.done.map (Prod.mk 0)).map Prod.snd = log.done := by
      rw [List.map_map]
      exact List.map_id log.done
    rw [hbytes, hflushed, List.map_append, hdone, List.map_singleton, framesOf_append,
      framesOf_singleton, ← List.append_assoc, ← h.kept.bytes, ← hout, ← h.flags]
    rfl
  · change p.flushed ++ [(t, records)] = _
    rw [hflushed]
  · intro u hu
    exact (h.others u hu).2.1
  · by_cases ht : t = 0
    · subst ht
      refine ⟨[], ?_, by decide⟩
      change ((p.store 0 r).thread 0).buffer.Laid []
      rw [thread_store_self, hthread]
      exact h.kept.laid.reset
    · refine ⟨log.pending, ?_, hroom⟩
      change ((p.store t r).thread 0).buffer.Laid log.pending
      rw [thread_store_of_ne _ _ _ (Ne.symm ht)]
      exact h.kept.laid

end Process

end Steps

end Mema
