import Mema.Runtime.Threads

/-!
# The runtime across `fork`

`memapass/mema_rtl.cpp:199–280,382–390,484–498`: a child inherits copies of the variables, of
the write mutex and of the forking thread's buffer, whose pointers `__mema_thread_starting` sets
back, and shares the open file and its offset. The other threads of a process call no hooks.
-/

namespace Mema

open Bytes Framing

/-- `__mema_thread_starting`, `mema_rtl.cpp:484–491`, as run by the handler in the child. -/
def memaThreadStarting (th : Thread) : Thread := { th with buffer := th.buffer.setUp }

/-- Where the tracing thread of a process stands. A flush is a hook's or the finalizer's. -/
inductive TracerAt
  | running
  | flushing (stage : FlushStage) (job : FlushJob) (closing : Bool)
  | ended

namespace TracerAt

/-- Between calls. -/
def isRunning : TracerAt → Bool
  | .running => true
  | _ => false

/-- The process has not ended. -/
def isAlive : TracerAt → Bool
  | .ended => false
  | _ => true

/-- The payload still to be written behind a length that is in the file. -/
def owed : TracerAt → Option (List UInt8)
  | .flushing .writePayload job _ => some job.payload
  | _ => none

/-- The next write begins a frame. -/
def writesLength : TracerAt → Bool
  | .flushing .writeLength _ _ => true
  | _ => false

/-- Where a thread stands when a flush is over. -/
def after (closing : Bool) : TracerAt := if closing then .ended else .running

end TracerAt

/-- One process: its variables, whether its mutex is locked, and its tracing thread. -/
structure Tracer where
  shared : Shared
  writeMutex : Bool
  thread : Thread
  standing : TracerAt

/-- The traced process and its descendants, numbered as they are created, over one open file.
What each process logged and the records behind each frame are kept beside the variables. -/
structure Family where
  file : List UInt8
  created : Nat
  process : Nat → Tracer
  logged : Nat → List Logged
  flushed : List (Nat × List Slot)

/-- One step of one of the processes. -/
inductive FamilyAction
  | fork (q : Nat) (tracing : Bool)
  | call (q : Nat) (c : Call)
  | flush (q : Nat)
  | finalize (q : Nat)
  | exit (q : Nat)

namespace Family

/-- What process `q` reads and writes: its own variables and the shared file. -/
def runtime (f : Family) (q : Nat) : Runtime :=
  ⟨{ (f.process q).shared with out.bytes := f.file }, (f.process q).thread⟩

/-- Store what process `q` has written. -/
def store (f : Family) (q : Nat) (r : Runtime) (locked : Bool) (s : TracerAt) : Family :=
  { f with
    file := r.shared.out.bytes
    process := Function.update f.process q ⟨r.shared, locked, r.thread, s⟩ }

/-- `fork` by the tracing thread or by another one, and the handler in the child. -/
def fork (f : Family) (q : Nat) (tracing : Bool) : Family :=
  let thread := if tracing then (f.process q).thread else Thread.fresh
  { f with
    created := f.created + 1
    process := Function.update f.process f.created
      ⟨(f.process q).shared, (f.process q).writeMutex, memaThreadStarting thread, .running⟩ }

/-- Enter `__mema_empty_buffer`, as a hook or as the finalizer. -/
def enterFlush (lz : Lz4) (f : Family) (q : Nat) (r : Runtime) (closing : Bool) :
    Except Fault Family := do
  let (r, job) ← beginFlush lz r
  match job with
  | none => return f.store q r (f.process q).writeMutex (.after closing)
  | some job => return f.store q r (f.process q).writeMutex (.flushing .lock job closing)

/-- A call of the tracing thread, up to the lock when the buffer is full. -/
def call (lz : Lz4) (f : Family) (q : Nat) (c : Call) : Except Fault Family := do
  let (r, e) ← c.begin (f.runtime q)
  let f := { f with logged := Function.update f.logged q (f.logged q ++ e.toList) }
  if e.isSome && r.thread.buffer.atLast then f.enterFlush lz q r false
  else return f.store q r (f.process q).writeMutex .running

/-- `close` in the finalizer, once its flush is over. -/
def close (closing : Bool) (s : Shared) : Shared :=
  if closing then { s with out.isOpen := false } else s

/-- The next step of a flush; waiting for the mutex is no step. Each `write` appends at the
shared offset. -/
def flush (f : Family) (q : Nat) : Option (Except Fault Family) :=
  let r := f.runtime q
  match (f.process q).standing with
  | .flushing .lock job closing =>
    if (f.process q).writeMutex then none
    else some (.ok (f.store q r true (.flushing .writeLength job closing)))
  | .flushing .writeLength job closing =>
    some (.ok (f.store q ⟨writeLength job r.shared, r.thread⟩ true
      (.flushing .writePayload job closing)))
  | .flushing .writePayload job closing =>
    some ((writePayload job r.shared).map fun shared ↦
      { f.store q ⟨shared, r.thread⟩ true (.flushing .unlock job closing) with
        flushed := f.flushed ++ [(q, job.records)] })
  | .flushing .unlock _ closing =>
    some (.ok (f.store q ⟨close closing r.shared, endFlush r.thread⟩ false (.after closing)))
  | _ => none

/-- Process `q` exists and its tracing thread is between calls. -/
def canRun (f : Family) (q : Nat) : Bool :=
  decide (q < f.created) && (f.process q).standing.isRunning

/-- The steps of the processes. Between calls a process ends through the finalizer, as `exit`
runs it, or without it. -/
def step (lz : Lz4) (a : FamilyAction) (f : Family) : Option (Except Fault Family) :=
  match a with
  | .fork q tracing =>
    if decide (q < f.created) && (if tracing then (f.process q).standing.isRunning
      else (f.process q).standing.isAlive) then some (.ok (f.fork q tracing)) else none
  | .call q c => if f.canRun q then some (f.call lz q c) else none
  | .flush q => if q < f.created then f.flush q else none
  | .finalize q =>
    if f.canRun q then some (f.enterFlush lz q (f.runtime q) true) else none
  | .exit q =>
    if f.canRun q then
      some (.ok (f.store q (f.runtime q) (f.process q).writeMutex .ended)) else none

/-- The process when `__mema_initialize` has run, before any fork. -/
def started (start : Startup) : Family where
  file := (memaInitialize start).shared.out.bytes
  created := 1
  process _ := ⟨(memaInitialize start).shared, false, (memaInitialize start).thread, .running⟩
  logged _ := []
  flushed := []

/-- The traced process and its descendants as a machine. -/
def machine (lz : Lz4) (start : Startup) : Machine Family FamilyAction Fault where
  start f := f = started start
  step := step lz

end Family

end Mema
