import Mema.Lib.Machine
import Mema.Runtime.Hooks

/-!
# The runtime under several threads

`memapass/mema_rtl.cpp:163–187,199–280,472–533`: thread-local storage, a flush in the steps that
other threads can interleave with, and the write mutex. `__mema_thread_starting` is registered
with `pthread_atfork`, so creating a thread runs no runtime code.
-/

namespace Mema

open Bytes Framing

/-! ### A flush and a hook in steps -/

/-- What a flush writes: the records held when it began, and their payload. -/
structure FlushJob where
  records : List Slot
  payload : List UInt8

/-- `__mema_empty_buffer` up to the lock, `mema_rtl.cpp:203–240`. Nothing is left to do without
an output file. -/
def beginFlush (lz : Lz4) (r : Runtime) : Except Fault (Runtime × Option FlushJob) :=
  if r.shared.memaccessFd = -1 then
    .ok ({ r with thread.buffer := r.thread.buffer.reset }, none)
  else
    match r.thread.buffer.held with
    | none => .error .nullPointer
    | some records =>
      let uncompressed := Slot.bytesOf records
      let payload :=
        if r.shared.flags.compression then lz (lz uncompressed) else uncompressed
      .ok ({ r with thread.insideMema := true }, some ⟨records, payload⟩)

/-- The first `write` under the lock. -/
def writeLength (job : FlushJob) (s : Shared) : Shared :=
  { s with out := (s.out.write (leBytes 8 job.payload.length)).1 }

/-- The second one, with what the compressed branch checks and adds to the totals. -/
def writePayload (job : FlushJob) (s : Shared) : Except Fault Shared :=
  let (out, r1) := s.out.write job.payload
  if s.flags.compression then
    if r1 = job.payload.length then
      .ok { s with
        out := out
        totalUncompressedSize :=
          s.totalUncompressedSize + 8 + .ofNat (Slot.bytesOf job.records).length
        totalCompressedSize := s.totalCompressedSize + 8 + .ofNat job.payload.length }
    else .error .assertion
  else .ok { s with out := out }

/-- The payload reaches the open file. -/
theorem writePayload_spec {s : Shared} (job : FlushJob) (hopen : s.out.isOpen = true) :
    ∃ s', writePayload job s = .ok s' ∧
      s'.out = { s.out with bytes := s.out.bytes ++ job.payload } ∧ s'.flags = s.flags ∧
      s'.memaInitialized = s.memaInitialized ∧ s'.memaccessFd = s.memaccessFd := by
  unfold writePayload
  rw [OutFile.write_open hopen]
  cases hc : s.flags.compression with
  | true =>
    simp only [if_true]
    exact ⟨_, rfl, rfl, rfl, rfl, rfl⟩
  | false =>
    simp only [Bool.false_eq_true, if_false]
    exact ⟨_, rfl, rfl, rfl, rfl, rfl⟩

/-- The end of `__mema_empty_buffer`, `mema_rtl.cpp:278–279`. -/
def endFlush (th : Thread) : Thread :=
  { th with buffer := th.buffer.reset, insideMema := false }

/-- Append a record, without the flush that may follow. -/
def appendRecord (r : Runtime) (e : Logged) : Except Fault (Runtime × Option Logged) :=
  match r.thread.buffer.append e.write with
  | .error f => .error f
  | .ok b => .ok ({ r with thread.buffer := b }, some e)

/-- A call up to the flush that may follow. -/
def Call.begin (r : Runtime) : Call → Except Fault (Runtime × Option Logged)
  | .functionEntry addr =>
    if !r.shared.memaInitialized || r.thread.insideMema then .ok (r, none)
    else
      let r := monitorEntry r addr
      if r.shared.flags.disable then .ok (r, none) else appendRecord r (.funcEnter addr)
  | .functionExit addr =>
    if !r.shared.memaInitialized || r.thread.insideMema then .ok (r, none)
    else
      let r := monitorExit r addr
      if r.shared.flags.disable then .ok (r, none) else appendRecord r (.funcExit addr)
  | .access addr _ isWrite site =>
    if r.thread.insideMema || !r.shared.memaInitialized || r.shared.flags.disable then
      .ok (r, none)
    else if r.shared.flags.disable || r.shared.flags.filename.isNone then .ok (r, none)
    else appendRecord r (.access site.time site.pc site.bp site.sp addr isWrite)
  | .enable => .ok (memaEnable r, none)
  | .disable => .ok (memaDisable r, none)

/-! ### Threads -/

/-- How far a flush has got. -/
inductive FlushStage
  | lock | writeLength | writePayload | unlock
  deriving DecidableEq, Repr

/-- Where a thread stands: between calls, flushing, or ended. -/
inductive ThreadAt
  | running
  | flushing (stage : FlushStage) (job : FlushJob)
  | ended

/-- Whether the thread is between calls. -/
def ThreadAt.isRunning : ThreadAt → Bool
  | .running => true
  | _ => false

/-- Whether the thread has ended. -/
def ThreadAt.isEnded : ThreadAt → Bool
  | .ended => true
  | _ => false

/-- The traced process. Threads are numbered as they are created, 0 being the one that ran
`__mema_initialize`. What each thread logged and the records behind each frame are kept beside
the variables. -/
structure Process where
  shared : Shared
  writeMutex : Option Nat
  created : Nat
  thread : Nat → Thread
  standing : Nat → ThreadAt
  finalized : Bool
  logged : Nat → List Logged
  flushed : List (Nat × List Slot)

/-- One step of one of the threads. -/
inductive ThreadAction
  | create
  | call (t : Nat) (c : Call)
  | flush (t : Nat)
  | finish (t : Nat)
  | finalize (t : Nat)

namespace Process

/-- What thread `t` reads and writes. -/
def runtime (p : Process) (t : Nat) : Runtime := ⟨p.shared, p.thread t⟩

/-- Store what thread `t` has written. -/
def store (p : Process) (t : Nat) (r : Runtime) : Process :=
  { p with shared := r.shared, thread := Function.update p.thread t r.thread }

/-- Store what thread `t` has written, with the record it logged. -/
def record (p : Process) (t : Nat) (r : Runtime) (e : Option Logged) : Process :=
  { p.store t r with logged := Function.update p.logged t (p.logged t ++ e.toList) }

/-- Move thread `t`. -/
def move (p : Process) (t : Nat) (s : ThreadAt) : Process :=
  { p with standing := Function.update p.standing t s }

/-- Create the next thread, with fresh thread-local storage. -/
def create (p : Process) : Process :=
  { p with
    created := p.created + 1
    thread := Function.update p.thread p.created Thread.fresh
    standing := Function.update p.standing p.created .running }

section Fields

variable (p : Process) (t : Nat) (r : Runtime) (e : Option Logged) (s : ThreadAt)

@[simp] theorem thread_store_self : (p.store t r).thread t = r.thread := Function.update_self ..
@[simp] theorem thread_record_self : (p.record t r e).thread t = r.thread :=
  Function.update_self ..
@[simp] theorem logged_record_self : (p.record t r e).logged t = p.logged t ++ e.toList :=
  Function.update_self ..
@[simp] theorem thread_move : (p.move t s).thread = p.thread := rfl
@[simp] theorem standing_move_self : (p.move t s).standing t = s := Function.update_self ..
@[simp] theorem thread_create_self : p.create.thread p.created = Thread.fresh :=
  Function.update_self ..
@[simp] theorem standing_create_self : p.create.standing p.created = .running :=
  Function.update_self ..

theorem thread_store_of_ne {u : Nat} (h : u ≠ t) : (p.store t r).thread u = p.thread u :=
  Function.update_of_ne h ..

theorem thread_record_of_ne {u : Nat} (h : u ≠ t) : (p.record t r e).thread u = p.thread u :=
  Function.update_of_ne h ..

theorem logged_record_of_ne {u : Nat} (h : u ≠ t) : (p.record t r e).logged u = p.logged u :=
  Function.update_of_ne h ..

theorem standing_move_of_ne {u : Nat} (h : u ≠ t) : (p.move t s).standing u = p.standing u :=
  Function.update_of_ne h ..

theorem thread_create_of_ne {u : Nat} (h : u ≠ p.created) : p.create.thread u = p.thread u :=
  Function.update_of_ne h ..

theorem standing_create_of_ne {u : Nat} (h : u ≠ p.created) :
    p.create.standing u = p.standing u :=
  Function.update_of_ne h ..

end Fields

/-- Thread `t` exists, is between calls, and the runtime has not been finalised. -/
def canRun (p : Process) (t : Nat) : Bool :=
  decide (t < p.created) && (p.standing t).isRunning && !p.finalized

/-- A call of a running thread, up to the lock when the buffer is full. -/
def call (lz : Lz4) (p : Process) (t : Nat) (c : Call) : Except Fault Process := do
  let (r, e) ← c.begin (p.runtime t)
  let p := p.record t r e
  if e.isSome && r.thread.buffer.atLast then
    let (r, job) ← beginFlush lz r
    match job with
    | none => return p.store t r
    | some job => return (p.store t r).move t (.flushing .lock job)
  else return p

/-- The next step of a flush; waiting for the mutex is no step. -/
def flush (p : Process) (t : Nat) : Option (Except Fault Process) :=
  match p.standing t with
  | .flushing .lock job =>
    match p.writeMutex with
    | none => some (.ok ({ p with writeMutex := some t }.move t (.flushing .writeLength job)))
    | some _ => none
  | .flushing .writeLength job =>
    some (.ok ({ p with shared := writeLength job p.shared }.move t (.flushing .writePayload job)))
  | .flushing .writePayload job =>
    some ((writePayload job p.shared).map fun shared ↦
      { p with shared := shared, flushed := p.flushed ++ [(t, job.records)] }.move t
        (.flushing .unlock job))
  | .flushing .unlock _ =>
    some (.ok (({ p with writeMutex := none }.store t ⟨p.shared, endFlush (p.thread t)⟩).move t
      .running))
  | _ => none

/-- `__mema_finalize` on thread `t`, the last one running. -/
def finalize (lz : Lz4) (p : Process) (t : Nat) : Except Fault Process :=
  (memaFinalize lz (p.runtime t)).map fun r ↦
    { p.store t r with
      finalized := true
      flushed := p.flushed ++ [(t, ((p.thread t).buffer.held).getD [])] }

/-- The steps of the process. A thread ends without running anything of the runtime: the key
whose destructor would flush its buffer is created in `__mema_thread_starting`. -/
def step (lz : Lz4) (a : ThreadAction) (p : Process) : Option (Except Fault Process) :=
  match a with
  | .create =>
    if p.finalized then none else some (.ok p.create)
  | .call t c => if p.canRun t && decide c.IsHook then some (p.call lz t c) else none
  | .flush t => p.flush t
  | .finish t => if p.canRun t then some (.ok (p.move t .ended)) else none
  | .finalize t =>
    if p.canRun t && (List.range p.created).all fun u ↦ u == t || (p.standing u).isEnded then
      some (p.finalize lz t)
    else none

/-- The process when `__mema_initialize` has run on its first thread. -/
def started (start : Startup) : Process where
  shared := (memaInitialize start).shared
  writeMutex := none
  created := 1
  thread := Function.update (fun _ ↦ Thread.fresh) 0 (memaInitialize start).thread
  standing _ := .running
  finalized := false
  logged _ := []
  flushed := []

theorem thread_started (start : Startup) : (started start).thread =
    Function.update (fun _ ↦ Thread.fresh) 0 (memaInitialize start).thread := rfl

/-- The traced process as a machine. -/
def machine (lz : Lz4) (start : Startup) : Machine Process ThreadAction Fault where
  start p := p = started start
  step := step lz

end Process

/-! ### Without interleaving the steps are the whole calls -/

/-- The steps of a flush one after the other. -/
theorem memaEmptyBuffer_eq (lz : Lz4) (r : Runtime) :
    memaEmptyBuffer lz r =
      match beginFlush lz r with
      | .error f => .error f
      | .ok (r, none) => .ok r
      | .ok (r, some job) =>
        match writePayload job (writeLength job r.shared) with
        | .error f => .error f
        | .ok shared => .ok ⟨shared, endFlush r.thread⟩ := by
  unfold memaEmptyBuffer beginFlush
  by_cases hfd : r.shared.memaccessFd = -1
  · rw [if_pos hfd, if_pos hfd]
  · rw [if_neg hfd, if_neg hfd]
    cases r.thread.buffer.held with
    | none => rfl
    | some records =>
      cases hc : r.shared.flags.compression with
      | true =>
        simp only [writePayload, writeLength, hc, if_true]
        split <;> rfl
      | false =>
        simp only [writePayload, writeLength, hc, Bool.false_eq_true, if_false]
        rfl

/-- Logging a record appends it and then flushes a full buffer. -/
theorem logRecord_eq (lz : Lz4) (r : Runtime) (e : Logged) :
    logRecord lz r e =
      match appendRecord r e with
      | .error f => .error f
      | .ok (r, none) => .ok (r, none)
      | .ok (r, some e) =>
        if r.thread.buffer.atLast then (memaEmptyBuffer lz r).map fun r ↦ (r, some e)
        else .ok (r, some e) := by
  unfold logRecord appendRecord
  cases r.thread.buffer.append e.write with
  | error f => rfl
  | ok b =>
    dsimp only
    split
    · cases memaEmptyBuffer lz { r with thread.buffer := b } <;> rfl
    · rfl

/-- A call is its beginning and then the flush at a full buffer. -/
theorem Call.perform_eq (lz : Lz4) (r : Runtime) (c : Call) :
    c.perform lz r =
      match c.begin r with
      | .error f => .error f
      | .ok (r, none) => .ok (r, none)
      | .ok (r, some e) =>
        if r.thread.buffer.atLast then (memaEmptyBuffer lz r).map fun r ↦ (r, some e)
        else .ok (r, some e) := by
  cases c with
  | functionEntry addr =>
    simp only [Call.perform, memaFunctionEntry, Call.begin]
    split
    · rfl
    · split
      · rfl
      · exact logRecord_eq lz _ _
  | functionExit addr =>
    simp only [Call.perform, memaFunctionExit, Call.begin]
    split
    · rfl
    · split
      · rfl
      · exact logRecord_eq lz _ _
  | access addr size isWrite site =>
    simp only [Call.perform, memaAccess, Call.begin]
    split
    · rfl
    · split
      · rfl
      · exact logRecord_eq lz _ _
  | enable => rfl
  | disable => rfl

end Mema
