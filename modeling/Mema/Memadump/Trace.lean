import Mema.Record.Views
import Mema.Trace.Buffer

/-!
# memadump's record buffer

`memagrind/memadump/md_main.c:262–390,610–664,792–810`. The four trace helpers run whenever
instrumented code calls them; compression is always on, and every flush is accounted.
-/

namespace Mema.Memadump

open Bytes Framing Chunks

/-- The static variables behind the trace helpers. -/
structure Dump where
  outputfileFd : Int
  out : OutFile
  totalUncompressedSize : UInt64
  totalCompressedSize : UInt64
  buffer : TraceBuffer

/-- `__mema_empty_buffer`, `md_main.c:306–380`; the branch without compression is dead. -/
def memaEmptyBuffer (lz : Lz4) (d : Dump) : Except Fault Dump :=
  if d.outputfileFd = -1 then .ok { d with buffer := d.buffer.reset }
  else
    match d.buffer.held with
    | none => .error .nullPointer
    | some records =>
      let uncompressed := Slot.bytesOf records
      let compressed1 := lz (lz uncompressed)
      let (out, _) := d.out.write (leBytes 8 compressed1.length)
      let (out, r1) := out.write compressed1
      if r1 = compressed1.length then
        .ok { d with
          out := out
          totalUncompressedSize := d.totalUncompressedSize + 8 + .ofNat uncompressed.length
          totalCompressedSize := d.totalCompressedSize + 8 + .ofNat compressed1.length
          buffer := d.buffer.reset }
      else .error .assertion

/-- The body the four helpers share: append, then flush at the last slot. -/
def traceRecord (lz : Lz4) (d : Dump) (e : TraceEvent) : Except Fault Dump :=
  match d.buffer.append e.write with
  | .error f => .error f
  | .ok b =>
    let d := { d with buffer := b }
    if b.atLast then memaEmptyBuffer lz d else .ok d

/-- `trace_instr`, `md_main.c:610–622`. -/
def traceInstr (lz : Lz4) (d : Dump) (addr size : UInt64) : Except Fault Dump :=
  traceRecord lz d ⟨.Ir, addr, size⟩

/-- `trace_load`, `md_main.c:624–636`. -/
def traceLoad (lz : Lz4) (d : Dump) (addr size : UInt64) : Except Fault Dump :=
  traceRecord lz d ⟨.Dr, addr, size⟩

/-- `trace_store`, `md_main.c:638–650`. -/
def traceStore (lz : Lz4) (d : Dump) (addr size : UInt64) : Except Fault Dump :=
  traceRecord lz d ⟨.Dw, addr, size⟩

/-- `trace_modify`, `md_main.c:652–664`. -/
def traceModify (lz : Lz4) (d : Dump) (addr size : UInt64) : Except Fault Dump :=
  traceRecord lz d ⟨.Dm, addr, size⟩

/-- The helper that `flushEvents` selects for an event, `md_main.c:681–695`. -/
def TraceEvent.perform (lz : Lz4) (d : Dump) (e : TraceEvent) : Except Fault Dump :=
  match e.kind with
  | .Ir => traceInstr lz d e.addr e.size
  | .Dr => traceLoad lz d e.addr e.size
  | .Dw => traceStore lz d e.addr e.size
  | .Dm => traceModify lz d e.addr e.size

/-- Helper calls in order. -/
def runTrace (lz : Lz4) : Dump → List TraceEvent → Except Fault Dump
  | d, [] => .ok d
  | d, e :: es =>
    match e.perform lz d with
    | .error f => .error f
    | .ok d => runTrace lz d es

/-- `__mema_finalize`, `md_main.c:382–390`. -/
def memaFinalize (lz : Lz4) (d : Dump) : Except Fault Dump :=
  match memaEmptyBuffer lz d with
  | .error f => .error f
  | .ok d => if d.outputfileFd ≠ -1 then .ok { d with out.isOpen := false } else .ok d

/-- `md_post_clo_init`, `md_main.c:802–809`: the opened file receives the magic bytes, the
successive reads of the maps and a NUL; then the pointers are set up. A failed `open` is
asserted away, a failed last read is added to the totals as -1. -/
def postCloInit (fd : Nat) (maps : List (List UInt8)) (mapsFailed : Bool) : Dump :=
  let header := ([77, 69, 77, 65, 67, 67, 69, 83] : List UInt8) ++ maps.flatten ++ [0]
  let total : UInt64 := .ofNat header.length + if mapsFailed then -1 else 0
  { outputfileFd := fd
    out := ⟨true, header⟩
    totalUncompressedSize := total
    totalCompressedSize := total
    buffer := TraceBuffer.fresh.setUp }

/-! ### Runs keep what they trace -/

/-- The file is open, and buffer and file keep exactly the events `es`. -/
structure Dump.Traced (lz : Lz4) (header : List UInt8) (d : Dump) (log : Log Slot)
    (es : List TraceEvent) : Prop where
  fd : d.outputfileFd ≠ -1
  kept : Kept lz true header readback d.buffer d.out log es

/-- A flush succeeds and writes one frame with everything held. -/
theorem memaEmptyBuffer_spec {lz : Lz4} {header : List UInt8} {d : Dump} {log : Log Slot}
    {es : List TraceEvent} (h : d.Traced lz header log es) :
    ∃ d', memaEmptyBuffer lz d = .ok d' ∧ d'.Traced lz header log.cut es := by
  have hflush := h.kept.flush
  rw [payloadOf, if_pos rfl] at hflush
  unfold memaEmptyBuffer
  rw [if_neg h.fd, h.kept.laid.held_eq]
  simp only [OutFile.write_frame h.kept.isOpen, ↓reduceIte]
  exact ⟨_, rfl, h.fd, hflush⟩

/-- One helper call pushes one record onto the abstract log. -/
theorem traceRecord_spec {lz : Lz4} {header : List UInt8} {d : Dump} {log : Log Slot}
    {es : List TraceEvent} (h : d.Traced lz header log es) (hf : log.Filled flushSize)
    (e : TraceEvent) :
    ∃ d' x, traceRecord lz d e = .ok d' ∧
      d'.Traced lz header (log.push flushSize x) (es ++ [e]) := by
  obtain ⟨b, x, hb, hkept, hlast⟩ :=
    h.kept.append hf.room e.readback_write e.typePadding_write
  have htraced : ({ d with buffer := b } : Dump).Traced lz header
      ⟨log.done, log.pending ++ [x]⟩ (es ++ [e]) := ⟨h.fd, hkept⟩
  simp only [traceRecord, hb]
  by_cases hfull : log.pending.length + 1 = flushSize
  · obtain ⟨d', hd', ht'⟩ := memaEmptyBuffer_spec htraced
    refine ⟨d', x, by rw [if_pos (hlast.mpr hfull), hd'], ?_⟩
    rw [Log.push, if_pos hfull]
    exact ht'
  · refine ⟨{ d with buffer := b }, x, by rw [if_neg (fun hl ↦ hfull (hlast.mp hl))], ?_⟩
    rw [Log.push, if_neg hfull]
    exact htraced

theorem TraceEvent.perform_eq (lz : Lz4) (d : Dump) (e : TraceEvent) :
    e.perform lz d = traceRecord lz d e := by
  obtain ⟨kind, addr, size⟩ := e
  cases kind <;> rfl

/-- Every run of the helpers succeeds and keeps what it traces. -/
theorem runTrace_spec {lz : Lz4} {header : List UInt8} {d : Dump} {log : Log Slot}
    {es : List TraceEvent} (h : d.Traced lz header log es) (hf : log.Filled flushSize)
    (evs : List TraceEvent) :
    ∃ d' log', runTrace lz d evs = .ok d' ∧ d'.Traced lz header log' (es ++ evs) ∧
      log'.Filled flushSize := by
  induction evs generalizing d log es with
  | nil => exact ⟨d, log, rfl, by simpa using h, hf⟩
  | cons e evs ih =>
    obtain ⟨d₁, x, hd₁, ht₁⟩ := traceRecord_spec h hf e
    obtain ⟨d₂, log₂, hd₂, ht₂, hf₂⟩ := ih ht₁ (hf.push x)
    refine ⟨d₂, log₂, ?_, ?_, hf₂⟩
    · rw [runTrace, e.perform_eq, hd₁]
      exact hd₂
    · rw [List.append_assoc] at ht₂
      exact ht₂

/-- Set-up starts an empty trace behind the header. -/
theorem postCloInit_traced (lz : Lz4) (fd : Nat) (maps : List (List UInt8)) (failed : Bool) :
    (postCloInit fd maps failed).Traced lz (postCloInit fd maps failed).out.bytes Log.empty [] :=
  ⟨by change (fd : Int) ≠ -1; omega, Kept.setUp rfl⟩

end Mema.Memadump
