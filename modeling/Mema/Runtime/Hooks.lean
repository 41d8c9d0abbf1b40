import Mathlib.Data.Finset.Basic
import Mema.Record.Views
import Mema.Trace.Buffer

/-!
# The memapass runtime on one thread

`memapass/mema_rtl.cpp`: set-up, the enable switch, the three hooks that instrumented code
calls, the flush and the finalizer. A hook returns the new state and the record it appended,
if any. Thread-local and shared variables are kept apart.
-/

namespace Mema

open Bytes Framing Chunks

/-- `struct Flags`, `mema_rtl.cpp:27–40`. -/
structure Flags where
  disable : Bool
  verbosity : Int
  debug : Bool
  compression : Bool
  filename : Option String
  funcname : Option String
  deriving DecidableEq, Repr

/-- Variables shared by all threads, and the output file behind `memaccess_fd`. -/
structure Shared where
  memaInitialized : Bool
  flags : Flags
  memaccessFd : Int
  out : OutFile
  totalUncompressedSize : UInt64
  totalCompressedSize : UInt64
  monitorFuncAddresses : Finset UInt64

/-- Thread-local variables. -/
structure Thread where
  insideMema : Bool
  buffer : TraceBuffer
  monitorFunc : Bool
  monitorFuncEntryCount : Int32

/-- Thread-local storage of a thread that has not run any runtime code. -/
def Thread.fresh : Thread := ⟨false, TraceBuffer.fresh, false, 0⟩

/-- What a call on one thread can read and write. -/
structure Runtime where
  shared : Shared
  thread : Thread

/-- `gettimeofday`, as a double's bit pattern, and the caller's frame. -/
structure CallSite where
  time : UInt64
  pc : UInt64
  bp : UInt64
  sp : UInt64
  deriving DecidableEq, Repr

/-! ### Flushing -/

/-- `__mema_empty_buffer`, `mema_rtl.cpp:199–280`. The set of touched pages it collects is
never read. Only the compressed branch accounts sizes and asserts the write. -/
def memaEmptyBuffer (lz : Lz4) (r : Runtime) : Except Fault Runtime :=
  if r.shared.memaccessFd = -1 then
    .ok { r with thread.buffer := r.thread.buffer.reset }
  else
    match r.thread.buffer.held with
    | none => .error .nullPointer
    | some records =>
      let uncompressed := Slot.bytesOf records
      if r.shared.flags.compression then
        let compressed1 := lz (lz uncompressed)
        let (out, _) := r.shared.out.write (leBytes 8 compressed1.length)
        let (out, r1) := out.write compressed1
        if r1 = compressed1.length then
          .ok { r with
            shared.out := out
            shared.totalUncompressedSize :=
              r.shared.totalUncompressedSize + 8 + .ofNat uncompressed.length
            shared.totalCompressedSize :=
              r.shared.totalCompressedSize + 8 + .ofNat compressed1.length
            thread.buffer := r.thread.buffer.reset
            thread.insideMema := false }
        else .error .assertion
      else
        let (out, _) := r.shared.out.write (leBytes 8 uncompressed.length)
        let (out, _) := out.write uncompressed
        .ok { r with
          shared.out := out
          thread.buffer := r.thread.buffer.reset
          thread.insideMema := false }

/-! ### The enable switch -/

/-- `__mema_enable`. -/
def memaEnable (r : Runtime) : Runtime := { r with shared.flags.disable := false }

/-- `__mema_disable`. -/
def memaDisable (r : Runtime) : Runtime := { r with shared.flags.disable := true }

/-- The monitoring block of `__mema_function_entry`, `mema_rtl.cpp:291–304`. The counter is an
`int`; `Call.overflows` tells when its increment is undefined. -/
def monitorEntry (r : Runtime) (addr : UInt64) : Runtime :=
  if r.thread.monitorFunc then
    let stash := r.shared.flags.disable
    let r := memaDisable r
    if addr ∈ r.shared.monitorFuncAddresses then
      let stash := if r.thread.monitorFuncEntryCount = 0 then false else stash
      { r with
        thread.monitorFuncEntryCount := r.thread.monitorFuncEntryCount + 1
        shared.flags.disable := stash }
    else { r with shared.flags.disable := stash }
  else r

/-- The monitoring block of `__mema_function_exit`, `mema_rtl.cpp:326–339`. -/
def monitorExit (r : Runtime) (addr : UInt64) : Runtime :=
  if r.thread.monitorFunc then
    let stash := r.shared.flags.disable
    let r := memaDisable r
    if addr ∈ r.shared.monitorFuncAddresses then
      let count := if r.thread.monitorFuncEntryCount > 0 then
        r.thread.monitorFuncEntryCount - 1 else r.thread.monitorFuncEntryCount
      let stash := if count = 0 then true else stash
      { r with
        thread.monitorFuncEntryCount := count
        shared.flags.disable := stash }
    else { r with shared.flags.disable := stash }
  else r

/-! ### The hooks -/

/-- Append a record and flush at the last slot, the shared tail of the three hooks. -/
def logRecord (lz : Lz4) (r : Runtime) (e : Logged) :
    Except Fault (Runtime × Option Logged) :=
  match r.thread.buffer.append e.write with
  | .error f => .error f
  | .ok b =>
    let r := { r with thread.buffer := b }
    if b.atLast then
      match memaEmptyBuffer lz r with
      | .error f => .error f
      | .ok r => .ok (r, some e)
    else .ok (r, some e)

/-- `__mema_function_entry`, `mema_rtl.cpp:288–321`. -/
def memaFunctionEntry (lz : Lz4) (r : Runtime) (addr : UInt64) :
    Except Fault (Runtime × Option Logged) :=
  if !r.shared.memaInitialized || r.thread.insideMema then .ok (r, none)
  else
    let r := monitorEntry r addr
    if r.shared.flags.disable then .ok (r, none)
    else logRecord lz r (.funcEnter addr)

/-- `__mema_function_exit`, `mema_rtl.cpp:323–355`. -/
def memaFunctionExit (lz : Lz4) (r : Runtime) (addr : UInt64) :
    Except Fault (Runtime × Option Logged) :=
  if !r.shared.memaInitialized || r.thread.insideMema then .ok (r, none)
  else
    let r := monitorExit r addr
    if r.shared.flags.disable then .ok (r, none)
    else logRecord lz r (.funcExit addr)

/-- `__mema_access`, `mema_rtl.cpp:357–379`; `size` is unused. -/
def memaAccess (lz : Lz4) (r : Runtime) (addr : UInt64) (_size : UInt8) (isWrite : Bool)
    (site : CallSite) : Except Fault (Runtime × Option Logged) :=
  if r.thread.insideMema || !r.shared.memaInitialized || r.shared.flags.disable then
    .ok (r, none)
  else if r.shared.flags.disable || r.shared.flags.filename.isNone then .ok (r, none)
  else logRecord lz r (.access site.time site.pc site.bp site.sp addr isWrite)

/-- `__mema_finalize`, `mema_rtl.cpp:382–390`. The descriptor variable keeps its value. -/
def memaFinalize (lz : Lz4) (r : Runtime) : Except Fault Runtime :=
  match memaEmptyBuffer lz r with
  | .error f => .error f
  | .ok r =>
    if r.shared.memaccessFd ≠ -1 then .ok { r with shared.out.isOpen := false } else .ok r

/-! ### Set-up -/

/-- Outcome of `__mema_intialize_function_monitoring`: it returns early, or it has selected
the addresses to monitor. -/
inductive Monitoring
  | failed
  | selected (addrs : Finset UInt64)
  deriving DecidableEq

/-- What the environment answers during `__mema_initialize`: the flags parsed from
`MEMA_OPTIONS`, the symbol scan, `open`, and the successive reads of `/proc/self/maps`. -/
structure Startup where
  flags : Flags
  monitoring : Monitoring
  fd : Int
  maps : List (List UInt8)
  mapsFailed : Bool

/-- The magic bytes `MEMACCES`. -/
def magicBytes : List UInt8 := [77, 69, 77, 65, 67, 67, 69, 83]

/-- The last two statements of `__mema_intialize_function_monitoring`,
`mema_rtl.cpp:432–437`, which an early exit never reaches. -/
def memaInitializeFunctionMonitoring (m : Monitoring) (r : Runtime) : Runtime :=
  match m with
  | .failed => r
  | .selected addrs =>
    memaDisable { r with
      shared.monitorFuncAddresses := addrs
      thread.monitorFunc := true }

/-- One `write` whose size is added to both totals, as in `mema_rtl.cpp:450–459,465–467`. -/
def Shared.writeCounted (s : Shared) (bs : List UInt8) : Shared :=
  { s with
    out := (s.out.write bs).1
    totalUncompressedSize := s.totalUncompressedSize + .ofNat bs.length
    totalCompressedSize := s.totalCompressedSize + .ofNat bs.length }

/-- `__mema_write_initial_maps`, `mema_rtl.cpp:440–460`: the last read, which ends the loop,
is added to the totals too, as -1 when it failed. -/
def memaWriteInitialMaps (start : Startup) (s : Shared) : Shared :=
  let s := start.maps.foldl Shared.writeCounted s
  let last : UInt64 := if start.mapsFailed then -1 else 0
  let s := { s with
    totalUncompressedSize := s.totalUncompressedSize + last
    totalCompressedSize := s.totalCompressedSize + last }
  s.writeCounted [0]

/-- `__mema_write_header`, `mema_rtl.cpp:462–470`. -/
def memaWriteHeader (start : Startup) (s : Shared) : Shared :=
  memaWriteInitialMaps start (s.writeCounted magicBytes)

/-- `__mema_initialize`, `mema_rtl.cpp:500–533`, on the thread that runs it first. -/
def memaInitialize (start : Startup) : Runtime :=
  let shared : Shared :=
    { memaInitialized := true
      flags := start.flags
      memaccessFd := -1
      out := ⟨false, []⟩
      totalUncompressedSize := 0
      totalCompressedSize := 0
      monitorFuncAddresses := ∅ }
  let r : Runtime := ⟨shared, { Thread.fresh with buffer := TraceBuffer.fresh.setUp }⟩
  if start.flags.filename.isNone then r
  else
    let r := if start.flags.funcname.isSome then
      memaInitializeFunctionMonitoring start.monitoring r else r
    let shared := { r.shared with
      memaccessFd := start.fd
      out := ⟨start.fd != -1, []⟩ }
    { r with shared := memaWriteHeader start shared }

/-! ### Runs -/

/-- One call into the runtime. -/
inductive Call
  | functionEntry (addr : UInt64)
  | functionExit (addr : UInt64)
  | access (addr : UInt64) (size : UInt8) (isWrite : Bool) (site : CallSite)
  | enable
  | disable
  deriving DecidableEq, Repr

/-- Calls of the three hooks, without explicit switching. -/
def Call.IsHook : Call → Prop
  | .enable => False
  | .disable => False
  | _ => True

instance : DecidablePred Call.IsHook
  | .functionEntry _ => isTrue trivial
  | .functionExit _ => isTrue trivial
  | .access _ _ _ _ => isTrue trivial
  | .enable => isFalse id
  | .disable => isFalse id

/-- Perform one call. -/
def Call.perform (lz : Lz4) (r : Runtime) : Call → Except Fault (Runtime × Option Logged)
  | .functionEntry addr => memaFunctionEntry lz r addr
  | .functionExit addr => memaFunctionExit lz r addr
  | .access addr size isWrite site => memaAccess lz r addr size isWrite site
  | .enable => .ok (memaEnable r, none)
  | .disable => .ok (memaDisable r, none)

/-- Perform calls in order, collecting the records they log. -/
def runCalls (lz : Lz4) : Runtime → List Call → Except Fault (Runtime × List Logged)
  | r, [] => .ok (r, [])
  | r, c :: cs =>
    match c.perform lz r with
    | .error f => .error f
    | .ok (r, e) =>
      match runCalls lz r cs with
      | .error f => .error f
      | .ok (r, es) => .ok (r, e.toList ++ es)

/-- The call increments `monitor_func_entry_count` past the largest `int`. -/
def Call.overflows (r : Runtime) : Call → Bool
  | .functionEntry addr =>
    r.shared.memaInitialized && !r.thread.insideMema && r.thread.monitorFunc &&
      decide (addr ∈ r.shared.monitorFuncAddresses) &&
      r.thread.monitorFuncEntryCount == Int32.maxValue
  | _ => false

/-- Perform calls in order up to an overflow of the entry counter, which is undefined. -/
def runDefined (lz : Lz4) : Runtime → List Call → Except Fault (Runtime × List Logged)
  | r, [] => .ok (r, [])
  | r, c :: cs =>
    if c.overflows r then .error .intOverflow
    else
      match c.perform lz r with
      | .error f => .error f
      | .ok (r, e) =>
        match runDefined lz r cs with
        | .error f => .error f
        | .ok (r, es) => .ok (r, e.toList ++ es)

/-- Bracket structure of a call. -/
def Call.token : Call → Nesting.Token UInt64
  | .functionEntry addr => .enter addr
  | .functionExit addr => .leave addr
  | _ => .other

/-- Everything a flush needs to write frames: initialised, not inside the runtime, an open
output file. -/
structure Runtime.Tracing (r : Runtime) : Prop where
  initialized : r.shared.memaInitialized = true
  outside : r.thread.insideMema = false
  fd : r.shared.memaccessFd ≠ -1

end Mema
