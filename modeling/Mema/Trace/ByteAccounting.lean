import Mathlib.Algebra.BigOperators.Group.List.Basic
import Mathlib.Algebra.Group.Nat.Defs
import Mema.Runtime.AfterClose
import Mema.Trace.RoundTrip

/-!
# The byte totals the finalizer reports

`mema_rtl.cpp:192–193,221–280,382–390,440–470`: two 64-bit totals are kept beside the file, one
for the bytes written and one for the bytes before compression. Set-up and the compressed flush
add to both; the uncompressed flush adds to neither, and a failed read of the maps adds -1.
-/

namespace Mema

open Bytes Framing Chunks

/-! ### What the totals should be -/

/-- The bytes written before the first flush. -/
def Startup.header (start : Startup) : List UInt8 := magicBytes ++ (start.maps.flatten ++ [0])

/-- The bytes a frame of `n` records stands for: its length field and its records. -/
def frameBytes (n : Nat) : Nat := 8 + recordSize * n

/-- How many records each frame holds when `n` are logged: full arrays, and the rest for the
finalizer. -/
def frameCounts (n : Nat) : List Nat :=
  List.replicate (n / flushSize) flushSize ++ [n % flushSize]

/-- Header and frames of a run before compression. -/
def Startup.traceBytes (start : Startup) (cs : List Call) : Nat :=
  start.header.length +
    ((frameCounts ((memaInitialize start).switch.records cs).length).map frameBytes).sum

/-- The finalizer reports the bytes of the file, and the bytes of its header and of its frames
before compression. -/
def AccountsBytes (lz : Lz4) (start : Startup) (cs : List Call) : Prop :=
  ∃ r blocks, runToFinalize lz start cs = .ok r ∧
    r.shared.out.bytes = start.header ++ framesOf lz start.flags.compression blocks ∧
    blocks.map List.length = frameCounts ((memaInitialize start).switch.records cs).length ∧
    r.shared.totalCompressedSize.toNat = r.shared.out.bytes.length ∧
    r.shared.totalUncompressedSize.toNat =
      start.header.length + (blocks.map fun ss ↦ frameBytes ss.length).sum

/-- Both byte counts are in the range of the totals. -/
structure CountsFit (lz : Lz4) (start : Startup) (cs : List Call) : Prop where
  file : ∀ r, runToFinalize lz start cs = .ok r → r.shared.out.bytes.length < 2 ^ 64
  trace : start.traceBytes cs < 2 ^ 64

/-- The chunks of a log that has been cut are counted by `frameCounts`. -/
theorem map_length_cut {log : Log Slot} (h : log.Filled flushSize) {n : Nat}
    (hn : log.contents.length = n) : log.cut.done.map List.length = frameCounts n := by
  have hfull : log.done.map List.length = List.replicate log.done.length flushSize := by
    apply List.eq_replicate_iff.mpr
    refine ⟨List.length_map .., fun k hk ↦ ?_⟩
    obtain ⟨chunk, hchunk, rfl⟩ := List.mem_map.mp hk
    exact h.full chunk hchunk
  rw [Log.cut, List.map_append, hfull, List.map_singleton, h.length_done, h.length_pending, hn,
    frameCounts]

theorem sum_map_frameBytes {blocks : List (List Slot)} {counts : List Nat}
    (h : blocks.map List.length = counts) :
    (blocks.map fun ss ↦ frameBytes ss.length).sum = (counts.map frameBytes).sum := by
  rw [← h, List.map_map]
  rfl

/-- The finalizer flushes even when nothing is left. -/
theorem sum_frameCounts_pos (n : Nat) : 0 < ((frameCounts n).map frameBytes).sum := by
  have hlast : 8 ≤ frameBytes (n % flushSize) := Nat.le_add_right _ _
  rw [frameCounts, List.map_append, List.sum_append, List.map_singleton, List.sum_singleton]
  omega

theorem Startup.header_pos (start : Startup) : 0 < start.header.length := by
  rw [header, List.length_append]
  exact Nat.add_pos_left (by decide) _

/-! ### What set-up adds -/

/-- What the read that ends the loop over the maps adds to the totals. -/
def Startup.lastRead (start : Startup) : UInt64 := if start.mapsFailed then -1 else 0

/-- Writing pieces adds their bytes to both totals. -/
theorem Shared.totals_foldl_writeCounted (s : Shared) (maps : List (List UInt8)) :
    (maps.foldl Shared.writeCounted s).totalUncompressedSize =
        s.totalUncompressedSize + .ofNat maps.flatten.length ∧
      (maps.foldl Shared.writeCounted s).totalCompressedSize =
        s.totalCompressedSize + .ofNat maps.flatten.length := by
  induction maps generalizing s with
  | nil => exact ⟨(UInt64.add_zero _).symm, (UInt64.add_zero _).symm⟩
  | cons m maps ih =>
    obtain ⟨hu, hc⟩ := ih (s.writeCounted m)
    rw [List.foldl_cons, hu, hc, List.flatten_cons, List.length_append, UInt64.ofNat_add]
    exact ⟨UInt64.add_assoc .., UInt64.add_assoc ..⟩

/-- The header leaves both totals at its length, corrected by the last read. -/
theorem totals_memaWriteHeader (start : Startup) {s : Shared}
    (hu : s.totalUncompressedSize = 0) (hc : s.totalCompressedSize = 0) :
    (memaWriteHeader start s).totalUncompressedSize =
        start.lastRead + .ofNat start.header.length ∧
      (memaWriteHeader start s).totalCompressedSize =
        start.lastRead + .ofNat start.header.length := by
  obtain ⟨hmu, hmc⟩ := (s.writeCounted magicBytes).totals_foldl_writeCounted start.maps
  have hsum : UInt64.ofNat magicBytes.length + .ofNat start.maps.flatten.length +
      start.lastRead + 1 = start.lastRead + .ofNat start.header.length := by
    rw [Startup.header, List.length_append, List.length_append, UInt64.ofNat_add,
      UInt64.ofNat_add, ← UInt64.add_assoc, ← UInt64.add_assoc, UInt64.add_comm _ start.lastRead,
      ← UInt64.add_assoc]
    rfl
  constructor
  · show (start.maps.foldl Shared.writeCounted (s.writeCounted magicBytes)).totalUncompressedSize
      + start.lastRead + 1 = _
    rw [hmu, ← hsum]
    show s.totalUncompressedSize + _ + _ + _ + _ = _
    rw [hu, UInt64.zero_add]
  · show (start.maps.foldl Shared.writeCounted (s.writeCounted magicBytes)).totalCompressedSize
      + start.lastRead + 1 = _
    rw [hmc, ← hsum]
    show s.totalCompressedSize + _ + _ + _ + _ = _
    rw [hc, UInt64.zero_add]

theorem totals_memaInitialize {start : Startup} (hname : start.flags.filename.isSome = true) :
    (memaInitialize start).shared.totalUncompressedSize =
        start.lastRead + .ofNat start.header.length ∧
      (memaInitialize start).shared.totalCompressedSize =
        start.lastRead + .ofNat start.header.length := by
  obtain ⟨r, hr, hrun⟩ := memaInitialize_opened hname
  rw [hrun]
  exact totals_memaWriteHeader start hr.totalUncompressedSize hr.totalCompressedSize

/-! ### What a flush adds -/

/-- Frames of these many records have been counted: without compression nothing is added to
what set-up leaves. -/
structure Runtime.Counted (start : Startup) (r : Runtime) (counts : List Nat) : Prop where
  compressed : r.shared.totalCompressedSize = start.lastRead + .ofNat
    (if r.shared.flags.compression then r.shared.out.bytes.length else start.header.length)
  uncompressed : r.shared.totalUncompressedSize = start.lastRead + .ofNat
    (start.header.length +
      if r.shared.flags.compression then (counts.map frameBytes).sum else 0)

section Flush

variable {start : Startup} {lz : Lz4} {r r' : Runtime} {counts : List Nat} {ss : List Slot}

/-- A flush to an open file counts the records it flushes. -/
theorem Runtime.Counted.flush (h : r.Counted start counts) (hfd : r.shared.memaccessFd ≠ -1)
    (hopen : r.shared.out.isOpen = true) (hlaid : r.thread.buffer.Laid ss)
    (hflush : memaEmptyBuffer lz r = .ok r') : r'.Counted start (counts ++ [ss.length]) := by
  obtain ⟨hc, hu⟩ := h
  rw [memaEmptyBuffer_of_open lz hfd hopen hlaid] at hflush
  cases hflush
  have hcomp : (r.afterFlush lz ss).shared.flags.compression = r.shared.flags.compression := rfl
  cases hon : r.shared.flags.compression with
  | true =>
    rw [hon, if_pos rfl] at hc hu
    constructor
    · rw [hcomp, Runtime.afterFlush, hon]
      simp only [↓reduceIte]
      rw [hc, List.length_append, length_frame, UInt64.ofNat_add, UInt64.ofNat_add,
        ← UInt64.add_assoc, ← UInt64.add_assoc]
      rfl
    · rw [hcomp, Runtime.afterFlush, hon]
      simp only [↓reduceIte]
      rw [hu, List.map_append, List.sum_append, List.map_singleton, List.sum_singleton,
        frameBytes, Slot.length_bytesOf, ← Nat.add_assoc, ← Nat.add_assoc,
        UInt64.ofNat_add _ (recordSize * ss.length), UInt64.ofNat_add _ 8, ← UInt64.add_assoc,
        ← UInt64.add_assoc]
      rfl
  | false =>
    rw [hon, if_neg Bool.false_ne_true] at hc hu
    constructor
    · rw [hcomp, Runtime.afterFlush, hon]
      exact hc
    · rw [hcomp, Runtime.afterFlush, hon]
      exact hu

end Flush

/-! ### Runs -/

/-- Every record is kept in a log of full chunks, and the finished chunks are counted. -/
def Runtime.Accounted (start : Startup) (lz : Lz4) (r : Runtime) (es : List Logged) : Prop :=
  ∃ log, r.Traced lz start.header log es ∧ log.Filled flushSize ∧
    r.Counted start (log.done.map List.length)

namespace Runtime.Accounted

variable {start : Startup} {lz : Lz4} {r r' : Runtime} {es : List Logged}

theorem switched (h : r.Accounted start lz es) (hs : r.Switched r') :
    r'.Accounted start lz es := by
  obtain ⟨log, ht, hf, hc⟩ := h
  obtain ⟨disable, count, rfl⟩ := hs
  exact ⟨log, ⟨⟨ht.tracing.initialized, ht.tracing.outside, ht.tracing.fd⟩, ht.kept⟩, hf,
    hc.compressed, hc.uncompressed⟩

/-- Logging a record keeps the accounts. -/
theorem logRecord (h : r.Accounted start lz es) (e : Logged) :
    ∃ r', Mema.logRecord lz r e = .ok (r', some e) ∧ r'.Accounted start lz (es ++ [e]) ∧
      r'.switch = r.switch := by
  obtain ⟨log, ht, hf, hc⟩ := h
  obtain ⟨r', x, hr, ht', hs⟩ := logRecord_spec ht hf e
  refine ⟨r', hr, ⟨log.push flushSize x, ht', hf.push x, ?_⟩, hs⟩
  obtain ⟨b, hb, hlaid⟩ := ht.kept.laid.append hf.room e.write
  simp only [Mema.logRecord, hb] at hr
  have hlast : b.atLast = true ↔ log.pending.length + 1 = flushSize := by
    rw [hlaid.atLast_iff, List.length_append, List.length_singleton]
  rw [Log.push]
  by_cases hfull : log.pending.length + 1 = flushSize
  · rw [if_pos (hlast.mpr hfull)] at hr
    rw [if_pos hfull, List.map_append, List.map_singleton, List.length_append]
    split at hr
    · cases hr
    · next r₁ hflush =>
      cases hr
      have hc' : ({ r with thread.buffer := b } : Runtime).Counted start _ :=
        ⟨hc.compressed, hc.uncompressed⟩
      have hcounted := hc'.flush ht.tracing.fd ht.kept.isOpen hlaid hflush
      rwa [List.length_append] at hcounted
  · rw [if_neg (mt hlast.mp hfull)] at hr
    cases hr
    rw [if_neg hfull]
    exact ⟨hc.compressed, hc.uncompressed⟩

theorem tracing (h : r.Accounted start lz es) : r.Tracing := by
  obtain ⟨log, ht, -⟩ := h
  exact ht.tracing

/-- Every call keeps the accounts. -/
theorem perform (h : r.Accounted start lz es) (c : Call) :
    ∃ r', c.perform lz r = .ok (r', r.switch.record c) ∧
      r'.Accounted start lz (es ++ (r.switch.record c).toList) ∧
      r'.switch = r.switch.next c := by
  obtain ⟨r₁, hsame, hnext, hperform⟩ := c.perform_spec lz h.tracing.initialized h.tracing.outside
  have h₁ := h.switched hsame
  rw [hperform]
  cases r.switch.record c with
  | none => exact ⟨r₁, rfl, by simpa using h₁, hnext⟩
  | some e =>
    obtain ⟨r₂, hlog, h₂, hs⟩ := h₁.logRecord e
    exact ⟨r₂, hlog, h₂, hs.trans hnext⟩

/-- The finalizer counts the last, shorter frame. -/
theorem finalize (h : r.Accounted start lz es) :
    ∃ r' blocks, memaFinalize lz r = .ok r' ∧
      r'.shared.out.bytes = start.header ++ framesOf lz r.shared.flags.compression blocks ∧
      blocks.map List.length = frameCounts es.length ∧
      r'.shared.flags.compression = r.shared.flags.compression ∧
      r'.Counted start (frameCounts es.length) := by
  obtain ⟨log, ht, hf, hc⟩ := h
  obtain ⟨r₁, hflush, ht₁, hs₁⟩ := memaEmptyBuffer_spec ht
  have hflags : r₁.shared.flags = r.shared.flags := congrArg Switch.flags hs₁
  have hcounts := map_length_cut hf ht.kept.holds.length_eq
  have hc₁ := hc.flush ht.tracing.fd ht.kept.isOpen ht.kept.laid hflush
  rw [← List.map_singleton, ← List.map_append] at hc₁
  refine ⟨{ r₁ with shared.out.isOpen := false }, log.cut.done, ?_, ?_, hcounts,
    congrArg Flags.compression hflags, ?_⟩
  · rw [memaFinalize, hflush]
    exact if_pos ht₁.tracing.fd
  · rw [← hflags]
    exact ht₁.kept.bytes
  · rw [← hcounts]
    exact ⟨hc₁.compressed, hc₁.uncompressed⟩

end Runtime.Accounted

theorem memaInitialize_accounted (lz : Lz4) {start : Startup}
    (hname : start.flags.filename.isSome = true) (hfd : start.fd ≠ -1) :
    (memaInitialize start).Accounted start lz [] := by
  have hheader : (memaInitialize start).shared.out.bytes = start.header :=
    bytes_memaInitialize hname hfd
  have ht := memaInitialize_traced lz hname hfd
  obtain ⟨hu, hc⟩ := totals_memaInitialize hname
  rw [hheader] at ht
  refine ⟨Log.empty, ht, Log.filled_empty (by decide), ?_, ?_⟩
  · rw [hc, hheader, ite_self]
  · rw [hu]
    show _ = _ + UInt64.ofNat (_ + if _ then 0 else 0)
    rw [ite_self, Nat.add_zero]

/-- A run with an open file ends with the file and the totals in these terms. -/
theorem runToFinalize_counted (lz : Lz4) {start : Startup}
    (hname : start.flags.filename.isSome = true) (hfd : start.fd ≠ -1) (cs : List Call) :
    ∃ r blocks, runToFinalize lz start cs = .ok r ∧
      r.shared.out.bytes = start.header ++ framesOf lz start.flags.compression blocks ∧
      blocks.map List.length = frameCounts ((memaInitialize start).switch.records cs).length ∧
      r.shared.flags.compression = start.flags.compression ∧
      r.Counted start (frameCounts ((memaInitialize start).switch.records cs).length) := by
  obtain ⟨r, hrun, h, hs⟩ := @runCalls_spec lz (Runtime.Accounted start lz)
    (fun h c ↦ h.perform c) _ [] (memaInitialize_accounted lz hname hfd) cs
  obtain ⟨r', blocks, hfin, hbytes, hcounts, hflags, hcounted⟩ := h.finalize
  have hcomp : r.shared.flags.compression = start.flags.compression := by
    have hafter := (memaInitialize start).switch.compression_after cs
    rw [← hs, compression_memaInitialize] at hafter
    exact hafter
  rw [hcomp] at hbytes hflags
  rw [List.nil_append] at hcounts hcounted
  refine ⟨r', blocks, ?_, hbytes, hcounts, hflags, hcounted⟩
  rw [runToFinalize, hrun]
  exact hfin

/-! ### The main result -/

/-- Where no more is added than there is to count, a total is the count exactly when no failed
read has lowered it, everything has been added, and it has not wrapped. -/
theorem Startup.toNat_total_eq_iff (start : Startup) {added count : Nat} (hpos : 0 < added)
    (hle : added ≤ count) : (start.lastRead + .ofNat added).toNat = count ↔
      start.mapsFailed = false ∧ added = count ∧ count < 2 ^ 64 := by
  rw [UInt64.toNat_add, UInt64.toNat_ofNat', Startup.lastRead]
  cases start.mapsFailed with
  | true =>
    have hone : (-1 : UInt64).toNat = 2 ^ 64 - 1 := rfl
    simp only [↓reduceIte, hone, reduceCtorEq, false_and, iff_false]
    omega
  | false =>
    have hzero : (0 : UInt64).toNat = 0 := rfl
    simp only [Bool.false_eq_true, ↓reduceIte, hzero, true_and]
    omega

theorem accountsBytes_of_run {lz : Lz4} {start : Startup} {cs : List Call} {r : Runtime}
    {blocks : List (List Slot)} (hrun : runToFinalize lz start cs = .ok r)
    (hbytes : r.shared.out.bytes = start.header ++ framesOf lz start.flags.compression blocks)
    (hcounts : blocks.map List.length =
      frameCounts ((memaInitialize start).switch.records cs).length) :
    AccountsBytes lz start cs ↔
      r.shared.totalCompressedSize.toNat = r.shared.out.bytes.length ∧
        r.shared.totalUncompressedSize.toNat = start.traceBytes cs := by
  constructor
  · rintro ⟨r', blocks', hrun', -, hcounts', hc, hu⟩
    cases hrun.symm.trans hrun'
    rw [sum_map_frameBytes hcounts'] at hu
    exact ⟨hc, hu⟩
  · rintro ⟨hc, hu⟩
    refine ⟨r, blocks, hrun, hbytes, hcounts, hc, ?_⟩
    rw [sum_map_frameBytes hcounts]
    exact hu

theorem countsFit_of_run {lz : Lz4} {start : Startup} {cs : List Call} {r : Runtime}
    (hrun : runToFinalize lz start cs = .ok r) :
    CountsFit lz start cs ↔
      r.shared.out.bytes.length < 2 ^ 64 ∧ start.traceBytes cs < 2 ^ 64 := by
  constructor
  · rintro ⟨hfile, htrace⟩
    exact ⟨hfile r hrun, htrace⟩
  · rintro ⟨hfile, htrace⟩
    refine ⟨fun r' hrun' ↦ ?_, htrace⟩
    cases hrun.symm.trans hrun'
    exact hfile

/-- Without compression the uncompressed total misses the frames, and there is at least one. -/
theorem not_accountsBytes_of_uncompressed (lz : Lz4) {start : Startup}
    (hname : start.flags.filename.isSome = true) (hfd : start.fd ≠ -1)
    (hoff : start.flags.compression = false) (cs : List Call) : ¬ AccountsBytes lz start cs := by
  intro h
  obtain ⟨r, blocks, hrun, hbytes, hcounts, hflags, hcounted⟩ :=
    runToFinalize_counted lz hname hfd cs
  have htrace : start.header.length < start.traceBytes cs :=
    Nat.lt_add_of_pos_right (sum_frameCounts_pos _)
  have hu := ((accountsBytes_of_run hrun hbytes hcounts).mp h).2
  rw [hcounted.uncompressed, hflags, hoff, if_neg Bool.false_ne_true, Nat.add_zero,
    start.toNat_total_eq_iff start.header_pos htrace.le] at hu
  omega

/-- For every run with an open file, the reported totals are the bytes written and the bytes
before compression exactly when compression is on, no read of the maps fails, and the counts
are in the totals' range. -/
theorem accountsBytes_iff (lz : Lz4) {start : Startup}
    (hname : start.flags.filename.isSome = true) (hfd : start.fd ≠ -1) (cs : List Call) :
    AccountsBytes lz start cs ↔
      start.flags.compression = true ∧ start.mapsFailed = false ∧ CountsFit lz start cs := by
  cases hon : start.flags.compression with
  | false =>
    apply iff_of_false (not_accountsBytes_of_uncompressed lz hname hfd hon cs)
    rintro ⟨h, -⟩
    cases h
  | true =>
    obtain ⟨r, blocks, hrun, hbytes, hcounts, hflags, hcounted⟩ :=
      runToFinalize_counted lz hname hfd cs
    have hheader := start.header_pos
    have hfile : start.header.length ≤ r.shared.out.bytes.length := by
      rw [hbytes, List.length_append]
      exact Nat.le_add_right _ _
    have htrace : start.header.length ≤ start.traceBytes cs := Nat.le_add_right _ _
    rw [accountsBytes_of_run hrun hbytes hcounts, countsFit_of_run hrun, hcounted.compressed,
      hcounted.uncompressed, hflags, hon, if_pos rfl, if_pos rfl,
      start.toNat_total_eq_iff (by omega) (Nat.le_refl _)]
    show _ ∧ (start.lastRead + .ofNat (start.traceBytes cs)).toNat = _ ↔ _
    rw [start.toNat_total_eq_iff (by omega) (Nat.le_refl _)]
    constructor
    · rintro ⟨⟨hread, -, hlt⟩, -, -, hlt'⟩
      exact ⟨rfl, hread, hlt, hlt'⟩
    · rintro ⟨-, hread, hlt, hlt'⟩
      exact ⟨⟨hread, rfl, hlt⟩, hread, rfl, hlt'⟩

/-- A compressed trace of a mapping read in one chunk, a function entry and a write. -/
theorem accountsBytes_call : AccountsBytes id { Startup.toFile with maps := [[48, 45, 49, 10]] }
    [.functionEntry 16, .access 4096 32 true ⟨0, 1, 2, 3⟩] := by
  apply (accountsBytes_iff id rfl (by decide) _).mpr
  refine ⟨rfl, rfl, fun r hr ↦ ?_, by decide⟩
  obtain ⟨r', blocks, hrun, hbytes, hcounts, -, -⟩ :=
    @runToFinalize_counted id { Startup.toFile with maps := [[48, 45, 49, 10]] } rfl (by decide)
      [.functionEntry 16, .access 4096 32 true ⟨0, 1, 2, 3⟩]
  cases hr.symm.trans hrun
  obtain ⟨ss, rfl, hss⟩ : ∃ ss, blocks = [ss] ∧ ss.length = 2 := by
    obtain ⟨ss, rest, rfl, hss, hrest⟩ := List.map_eq_cons_iff.mp hcounts
    rw [List.map_eq_nil_iff.mp hrest]
    exact ⟨ss, rfl, hss⟩
  have hpayload : (payloadOf id true ss).length = 112 := by
    have hlen := Slot.length_bytesOf ss
    rw [hss] at hlen
    exact hlen
  have hframe : (framesOf id true [ss]).length = 120 := by
    rw [framesOf, List.map_singleton, frames_singleton, length_frame, hpayload]
  rw [hbytes, List.length_append]
  show _ + (framesOf id true [ss]).length < _
  rw [hframe]
  decide

/-- The same start-up with compression switched off. -/
def Startup.toRawFile : Startup := { Startup.toFile with flags.compression := false }

/-- An empty trace without compression: 17 bytes are written and 9 are reported. -/
theorem not_accountsBytes_toRawFile : ¬ AccountsBytes id Startup.toRawFile [] :=
  not_accountsBytes_of_uncompressed id rfl (by decide) rfl []

end Mema
