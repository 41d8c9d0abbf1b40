import Mema.Memadump.Trace
import Mema.Runtime.Switch

/-!
# No record is lost between a hook and the file

The pointers stay ordered between calls, flushed blocks followed by the held slots are the
records logged so far, and the finalizer leaves everything in flushed blocks. Both producers
are runs of the same abstract log.
-/

namespace Mema

open Bytes Framing Chunks

/-- `first_mem_access <= next_free_mem_access < last_mem_access`, with the last slot inside
the array. -/
def TraceBuffer.InRange (b : TraceBuffer) : Prop :=
  ∃ f n l, b.firstMemAccess = some f ∧ b.nextFreeMemAccess = some n ∧
    b.lastMemAccess = some l ∧ f ≤ n ∧ n < l ∧ l < memAccessesBufsize

/-- The record arrays flushed to the file, in flush order, followed by the slots between
`first` and `next`, read back as the records `es`. -/
def Accounted {ε : Type} (lz : Lz4) (compression : Bool) (header : List UInt8)
    (readback : Slot → Option ε) (b : TraceBuffer) (f : OutFile) (es : List ε) : Prop :=
  ∃ blocks pending, f.bytes = header ++ framesOf lz compression blocks ∧
    b.held = some pending ∧ (blocks.flatten ++ pending).map readback = es.map some

/-- The record arrays flushed to the file read back as the records `es`. -/
def AllFlushed {ε : Type} (lz : Lz4) (compression : Bool) (header : List UInt8)
    (readback : Slot → Option ε) (f : OutFile) (es : List ε) : Prop :=
  ∃ blocks, f.bytes = header ++ framesOf lz compression blocks ∧
    blocks.flatten.map readback = es.map some

section Kept

variable {ε : Type} {lz : Lz4} {compression : Bool} {header : List UInt8}
  {readback : Slot → Option ε} {b : TraceBuffer} {f : OutFile} {log : Log Slot} {es : List ε}

/-- Slots that hold records read back as those records. -/
theorem map_readback_of_holds {ss : List Slot}
    (h : List.Forall₂ (Slot.Holds readback) ss es) : ss.map readback = es.map some := by
  induction h with
  | nil => rfl
  | cons hx _ ih => rw [List.map_cons, List.map_cons, hx.read, ih]

theorem Kept.inRange (h : Kept lz compression header readback b f log es)
    (hf : log.Filled flushSize) : b.InRange :=
  ⟨0, log.pending.length, flushSize, h.laid.first, h.laid.next, h.laid.last, Nat.zero_le _,
    hf.room, by decide⟩

theorem Kept.accounted (h : Kept lz compression header readback b f log es) :
    Accounted lz compression header readback b f es :=
  ⟨log.done, log.pending, h.bytes, h.laid.held_eq, map_readback_of_holds h.holds⟩

end Kept

/-! ### Set-up -/

theorem Shared.isOpen_writeCounted (s : Shared) (bs : List UInt8) :
    (s.writeCounted bs).out.isOpen = s.out.isOpen := by
  simp only [writeCounted, OutFile.write]
  split <;> rfl

/-- Writing the header touches nothing but the file and the totals. -/
private theorem writeMaps_frame (maps : List (List UInt8)) (s : Shared) :
    (maps.foldl Shared.writeCounted s).memaInitialized = s.memaInitialized ∧
      (maps.foldl Shared.writeCounted s).memaccessFd = s.memaccessFd ∧
      (maps.foldl Shared.writeCounted s).flags = s.flags ∧
      (maps.foldl Shared.writeCounted s).out.isOpen = s.out.isOpen := by
  induction maps generalizing s with
  | nil => exact ⟨rfl, rfl, rfl, rfl⟩
  | cons m maps ih =>
    obtain ⟨hi, hfd, hfl, ho⟩ := ih (s.writeCounted m)
    exact ⟨hi, hfd, hfl, ho.trans (s.isOpen_writeCounted m)⟩

theorem memaWriteHeader_frame (start : Startup) (s : Shared) :
    (memaWriteHeader start s).memaInitialized = s.memaInitialized ∧
      (memaWriteHeader start s).memaccessFd = s.memaccessFd ∧
      (memaWriteHeader start s).flags = s.flags ∧
      (memaWriteHeader start s).out.isOpen = s.out.isOpen := by
  obtain ⟨hi, hfd, hfl, ho⟩ := writeMaps_frame start.maps (s.writeCounted magicBytes)
  refine ⟨hi, hfd, hfl, ?_⟩
  rw [memaWriteHeader, memaWriteInitialMaps, Shared.isOpen_writeCounted]
  exact ho.trans (s.isOpen_writeCounted magicBytes)

/-- Where set-up stands when it has opened the file, before it writes the header. -/
structure Startup.Opened (start : Startup) (r : Runtime) : Prop where
  initialized : r.shared.memaInitialized = true
  outside : r.thread.insideMema = false
  fd : r.shared.memaccessFd = start.fd
  out : r.shared.out = ⟨start.fd != -1, []⟩
  buffer : r.thread.buffer = TraceBuffer.fresh.setUp
  compression : r.shared.flags.compression = start.flags.compression
  totalUncompressedSize : r.shared.totalUncompressedSize = 0
  totalCompressedSize : r.shared.totalCompressedSize = 0

/-- With a file name, whatever the symbol scan does, the file is opened and the header written. -/
theorem memaInitialize_opened {start : Startup} (hname : start.flags.filename.isSome = true) :
    ∃ r, start.Opened r ∧
      memaInitialize start = { r with shared := memaWriteHeader start r.shared } := by
  have hnone : ¬ start.flags.filename.isNone = true := by
    simpa [Option.isSome_iff_ne_none] using hname
  simp only [memaInitialize, if_neg hnone]
  split
  · cases start.monitoring with
    | failed => exact ⟨⟨_, _⟩, ⟨rfl, rfl, rfl, rfl, rfl, rfl, rfl, rfl⟩, rfl⟩
    | selected addrs => exact ⟨⟨_, _⟩, ⟨rfl, rfl, rfl, rfl, rfl, rfl, rfl, rfl⟩, rfl⟩
  · exact ⟨⟨_, _⟩, ⟨rfl, rfl, rfl, rfl, rfl, rfl, rfl, rfl⟩, rfl⟩

theorem compression_memaInitialize (start : Startup) :
    (memaInitialize start).switch.flags.compression = start.flags.compression := by
  by_cases hname : start.flags.filename.isSome = true
  · obtain ⟨r, hr, hrun⟩ := memaInitialize_opened hname
    rw [hrun]
    show (memaWriteHeader start r.shared).flags.compression = _
    rw [(memaWriteHeader_frame start _).2.2.1]
    exact hr.compression
  · rw [memaInitialize, if_pos (by simpa using hname)]
    rfl

/-- With a file name and an opened file, initialisation starts an empty trace behind the
header. -/
theorem memaInitialize_traced (lz : Lz4) {start : Startup}
    (hname : start.flags.filename.isSome = true) (hfd : start.fd ≠ -1) :
    (memaInitialize start).Traced lz (memaInitialize start).shared.out.bytes Log.empty [] := by
  obtain ⟨r, hr, hrun⟩ := memaInitialize_opened hname
  obtain ⟨hinit, hf, -, hopen⟩ := memaWriteHeader_frame start r.shared
  rw [hrun]
  refine ⟨⟨hinit.trans hr.initialized, hr.outside, ?_⟩, ?_⟩
  · rw [hf, hr.fd]
    exact hfd
  · show Kept lz _ _ Slot.readback r.thread.buffer _ Log.empty []
    rw [hr.buffer]
    apply Kept.setUp
    rw [hopen, hr.out]
    simpa using hfd

/-! ### The finalizers -/

theorem memaFinalize_spec {lz : Lz4} {header : List UInt8} {r : Runtime} {log : Log Slot}
    {es : List Logged} (h : r.Traced lz header log es) :
    ∃ r', memaFinalize lz r = .ok r' ∧ r'.switch = r.switch ∧
      r'.shared.out.bytes = header ++ framesOf lz r.shared.flags.compression log.cut.done ∧
      List.Forall₂ (Slot.Holds Slot.readback) log.cut.done.flatten es := by
  obtain ⟨r', hr, ht, hs⟩ := memaEmptyBuffer_spec h
  have hflags : r'.shared.flags = r.shared.flags := congrArg Switch.flags hs
  refine ⟨{ r' with shared.out.isOpen := false }, ?_, hs, ?_, ?_⟩
  · rw [memaFinalize, hr]
    exact if_pos ht.tracing.fd
  · rw [← hflags]
    exact ht.kept.bytes
  · simpa [Log.cut, Log.contents] using ht.kept.holds

theorem Memadump.memaFinalize_spec {lz : Lz4} {header : List UInt8} {d : Memadump.Dump}
    {log : Log Slot} {es : List Memadump.TraceEvent} (h : d.Traced lz header log es) :
    ∃ d', Memadump.memaFinalize lz d = .ok d' ∧
      d'.out.bytes = header ++ framesOf lz true log.cut.done ∧
      List.Forall₂ (Slot.Holds Memadump.readback) log.cut.done.flatten es := by
  obtain ⟨d', hd, ht⟩ := Memadump.memaEmptyBuffer_spec h
  refine ⟨{ d' with out.isOpen := false }, ?_, ht.kept.bytes, ?_⟩
  · rw [Memadump.memaFinalize, hd]
    exact if_pos ht.fd
  · simpa [Log.cut, Log.contents] using ht.kept.holds

/-! ### The main result -/

/-- From set-up with an open file, both producers survive every sequence of calls with the
pointers in range and every logged record in a flushed block or between the pointers; the
finalizer flushes the rest. What memapass logs is what its switch decides. -/
theorem producers_lose_nothing (lz : Lz4) :
    (∀ start : Startup, start.flags.filename.isSome = true → start.fd ≠ -1 →
      ∀ cs : List Call, ∃ r es, runCalls lz (memaInitialize start) cs = .ok (r, es) ∧
        es = (memaInitialize start).switch.records cs ∧
        r.thread.buffer.InRange ∧
        Accounted lz r.shared.flags.compression (memaInitialize start).shared.out.bytes
          Slot.readback r.thread.buffer r.shared.out es ∧
        ∃ r', memaFinalize lz r = .ok r' ∧
          AllFlushed lz r.shared.flags.compression (memaInitialize start).shared.out.bytes
            Slot.readback r'.shared.out es) ∧
    (∀ (fd : Nat) (maps : List (List UInt8)) (failed : Bool) (evs : List Memadump.TraceEvent),
      ∃ d, Memadump.runTrace lz (Memadump.postCloInit fd maps failed) evs = .ok d ∧
        d.buffer.InRange ∧
        Accounted lz true (Memadump.postCloInit fd maps failed).out.bytes Memadump.readback
          d.buffer d.out evs ∧
        ∃ d', Memadump.memaFinalize lz d = .ok d' ∧
          AllFlushed lz true (Memadump.postCloInit fd maps failed).out.bytes Memadump.readback
            d'.out evs) := by
  have hk : 0 < flushSize := by decide
  constructor
  · intro start hname hfd cs
    obtain ⟨r, hr, ⟨log, ht, hf⟩, -⟩ := (maintained_traced lz _).run
      ⟨Log.empty, memaInitialize_traced lz hname hfd, Log.filled_empty hk⟩ cs
    rw [List.nil_append] at ht
    obtain ⟨r', hr', -, hb, hh⟩ := memaFinalize_spec ht
    exact ⟨r, _, hr, rfl, ht.kept.inRange hf, ht.kept.accounted, r', hr',
      log.cut.done, hb, map_readback_of_holds hh⟩
  · intro fd maps failed evs
    obtain ⟨d, log, hd, ht, hf⟩ := Memadump.runTrace_spec
      (Memadump.postCloInit_traced lz fd maps failed) (Log.filled_empty hk) evs
    rw [List.nil_append] at ht
    obtain ⟨d', hd', hb, hh⟩ := Memadump.memaFinalize_spec ht
    exact ⟨d, hd, ht.kept.inRange hf, ht.kept.accounted, d', hd',
      log.cut.done, hb, map_readback_of_holds hh⟩

/-- Default flags with a file name, as `MEMA_OPTIONS="filename=a"` gives them. -/
def Flags.toFile : Flags := ⟨false, 0, false, true, some "a", none⟩

/-- A start-up that opens descriptor 3 and reads empty maps. -/
def Startup.toFile : Startup := ⟨Flags.toFile, .failed, 3, [], false⟩

/-- One access and one function entry are kept from start-up to the final flush. -/
theorem producers_lose_nothing_toFile :
    ∃ r es, runCalls id (memaInitialize Startup.toFile)
        [.functionEntry 16, .access 4096 32 true ⟨0, 1, 2, 3⟩] = .ok (r, es) ∧
      es = (memaInitialize Startup.toFile).switch.records
        [.functionEntry 16, .access 4096 32 true ⟨0, 1, 2, 3⟩] ∧
      r.thread.buffer.InRange ∧
      Accounted id r.shared.flags.compression (memaInitialize Startup.toFile).shared.out.bytes
        Slot.readback r.thread.buffer r.shared.out es ∧
      ∃ r', memaFinalize id r = .ok r' ∧
        AllFlushed id r.shared.flags.compression
          (memaInitialize Startup.toFile).shared.out.bytes Slot.readback r'.shared.out es :=
  (producers_lose_nothing id).1 Startup.toFile rfl (by decide) _

end Mema
