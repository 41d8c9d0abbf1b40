import Mema.Runtime.Forking
import Mema.Trace.NoLoss

/-!
# The trace file across `fork`

Each process keeps its own log behind its own buffer, so no record is written twice. A frame is
two writes under a mutex that the child only has a copy of: the file is whole frames as long as
no process begins a frame while another one is in the middle of its own.
-/

namespace Mema

open Bytes Framing Chunks

/-! ### The steps of one process -/

/-- The blocks in the file that the log does not have yet. -/
def FlushStage.blocks (records : List Slot) : FlushStage → List (List Slot)
  | .unlock => [records]
  | _ => []

/-- Where a process stands, against the log behind its buffer and its blocks in the file. -/
def TracerAt.Ok (lz : Lz4) (on : Bool) (p : Tracer) (log : Log Slot) (blocks : List (List Slot)) :
    TracerAt → Prop
  | .running => p.shared.out.isOpen = true ∧ p.thread.insideMema = false ∧
      log.pending.length < flushSize ∧ blocks = log.done
  | .flushing stage job _ => p.shared.out.isOpen = true ∧
      job = ⟨log.pending, payloadOf lz on log.pending⟩ ∧
      blocks = log.done ++ stage.blocks log.pending
  | .ended => (p.shared.out.isOpen = false → log.pending = []) ∧ blocks = log.done

/-- A process keeps the records `es`: those of its blocks in the file, and those it holds. -/
structure Tracer.Keeps (lz : Lz4) (on : Bool) (p : Tracer) (log : Log Slot) (es : List Logged)
    (blocks : List (List Slot)) : Prop where
  initialized : p.shared.memaInitialized = true
  fd : p.shared.memaccessFd ≠ -1
  compression : p.shared.flags.compression = on
  kept : Kept lz on [] Slot.readback p.thread.buffer ⟨true, framesOf lz on log.done⟩ log es
  standing : p.standing.Ok lz on p log blocks

section Keeps

variable {lz : Lz4} {on : Bool} {p : Tracer} {log : Log Slot} {es : List Logged}
  {blocks : List (List Slot)}

/-- A process that has not ended has the file open. -/
theorem Tracer.Keeps.isOpen (h : p.Keeps lz on log es blocks)
    (halive : p.standing.isAlive = true) : p.shared.out.isOpen = true := by
  have hs := h.standing
  cases hstanding : p.standing with
  | running =>
    rw [hstanding] at hs
    exact hs.1
  | flushing stage job closing =>
    rw [hstanding] at hs
    exact hs.1
  | ended =>
    rw [hstanding] at halive
    cases halive

/-- Nothing is kept in the buffer of a child. -/
theorem Tracer.Keeps.child (h : p.Keeps lz on log es blocks) (hopen : p.shared.out.isOpen = true)
    {th : Thread} (hclean : th.buffer.Clean) (hinside : th.insideMema = false) (locked : Bool) :
    (⟨p.shared, locked, memaThreadStarting th, .running⟩ : Tracer).Keeps lz on Log.empty [] [] := by
  have hroom : (Log.empty : Log Slot).pending.length < flushSize := by decide
  refine ⟨h.initialized, h.fd, h.compression, ?_, hopen, hinside, hroom, rfl⟩
  exact ⟨rfl, rfl, TraceBuffer.laid_setUp _, hclean.setUp, .nil⟩

end Keeps

/-- A flush begins with the held records and their payload. -/
theorem beginFlush_laid (lz : Lz4) {r : Runtime} {ss : List Slot} (hfd : r.shared.memaccessFd ≠ -1)
    (hlaid : r.thread.buffer.Laid ss) :
    beginFlush lz r = .ok ({ r with thread.insideMema := true },
      some ⟨ss, payloadOf lz r.shared.flags.compression ss⟩) := by
  rw [beginFlush, if_neg hfd, hlaid.held_eq]
  rfl

/-! ### The file of a family -/

namespace Family

/-- The blocks of process `q` in the file. -/
def blocks (f : Family) (q : Nat) : List (List Slot) :=
  (f.flushed.filter fun frame ↦ frame.1 == q).map Prod.snd

/-- What process `q` owes: a payload whose length is in the file. -/
def owed (f : Family) (q : Nat) : Option (List UInt8) := (f.process q).standing.owed

/-- The frames in the file, in the order of their payloads. -/
def frames (lz : Lz4) (on : Bool) (f : Family) : List UInt8 :=
  framesOf lz on (f.flushed.map Prod.snd)

/-- The file is the header and whole frames, and a length behind them when one process owes its
payload. -/
inductive Framed (lz : Lz4) (on : Bool) (header : List UInt8) (f : Family) : Prop
  | whole (hnone : ∀ q, f.owed q = none) (hfile : f.file = header ++ f.frames lz on)
  | half (q : Nat) (payload : List UInt8) (hq : f.owed q = some payload)
    (hother : ∀ u, u ≠ q → f.owed u = none)
    (hfile : f.file = header ++ f.frames lz on ++ leBytes 8 payload.length)

/-- Every process keeps its records, and the file is framed. -/
structure Inv (lz : Lz4) (on : Bool) (header : List UInt8) (f : Family) : Prop where
  tracers : ∀ q, q < f.created → ∃ log, (f.process q).Keeps lz on log (f.logged q) (f.blocks q)
  unborn : ∀ q, f.created ≤ q → f.logged q = [] ∧ f.blocks q = [] ∧ f.owed q = none
  framed : f.Framed lz on header

section Inv

variable {lz : Lz4} {on : Bool} {header : List UInt8} {f g : Family}

/-- Steps that write nothing leave the file framed. -/
theorem Framed.congr (h : f.Framed lz on header) (hfile : g.file = f.file)
    (hflushed : g.flushed = f.flushed) (howed : ∀ q, g.owed q = f.owed q) :
    g.Framed lz on header := by
  have hframes : g.frames lz on = f.frames lz on := by rw [frames, frames, hflushed]
  cases h with
  | whole hnone hbytes =>
    apply Framed.whole
    · exact fun q ↦ (howed q).trans (hnone q)
    · rw [hfile, hframes, hbytes]
  | half q payload hq hother hbytes =>
    apply Framed.half q payload ((howed q).trans hq)
    · exact fun u hu ↦ (howed u).trans (hother u hu)
    · rw [hfile, hframes, hbytes]

/-- When nobody owes anything, a length may be written. -/
theorem Framed.length (h : f.Framed lz on header) (hnone : ∀ q, f.owed q = none) {q : Nat}
    {payload : List UInt8} (hfile : g.file = f.file ++ leBytes 8 payload.length)
    (hflushed : g.flushed = f.flushed) (hq : g.owed q = some payload)
    (hother : ∀ u, u ≠ q → g.owed u = f.owed u) : g.Framed lz on header := by
  have hframes : g.frames lz on = f.frames lz on := by rw [frames, frames, hflushed]
  cases h with
  | whole _ hbytes =>
    apply Framed.half q payload hq
    · exact fun u hu ↦ (hother u hu).trans (hnone u)
    · rw [hfile, hframes, hbytes]
  | half u p hu _ _ =>
    rw [hnone u] at hu
    cases hu

/-- The payload of the process that owes one completes its frame. -/
theorem Framed.payload (h : f.Framed lz on header) {q : Nat} {records : List Slot}
    (howed : f.owed q = some (payloadOf lz on records))
    (hfile : g.file = f.file ++ payloadOf lz on records)
    (hflushed : g.flushed = f.flushed ++ [(q, records)]) (hq : g.owed q = none)
    (hother : ∀ u, u ≠ q → g.owed u = f.owed u) : g.Framed lz on header := by
  cases h with
  | whole hnone _ =>
    rw [hnone q] at howed
    cases howed
  | half u p hu hrest hbytes =>
    have hqu : q = u := by
      by_contra hne
      rw [hrest q hne] at howed
      cases howed
    subst hqu
    rw [howed] at hu
    cases hu
    apply Framed.whole
    · intro u
      by_cases hu : u = q
      · rw [hu, hq]
      · rw [hother u hu, hrest u hu]
    · rw [hfile, hbytes, frames, frames, hflushed, List.map_append, List.map_singleton,
        framesOf_append, framesOf_singleton, frame]
      simp only [List.append_assoc]

/-- A step of process `q` that leaves the other processes alone. -/
theorem Inv.update (h : f.Inv lz on header) {q : Nat} (hq : q < f.created)
    (hcreated : g.created = f.created)
    (hprocess : ∀ u, u ≠ q → g.process u = f.process u)
    (hlogged : ∀ u, u ≠ q → g.logged u = f.logged u)
    (hblocks : ∀ u, u ≠ q → g.blocks u = f.blocks u) (log : Log Slot)
    (hkeeps : (g.process q).Keeps lz on log (g.logged q) (g.blocks q))
    (hframed : g.Framed lz on header) : g.Inv lz on header := by
  constructor
  · intro u hu
    by_cases huq : u = q
    · subst huq
      exact ⟨log, hkeeps⟩
    · rw [hprocess u huq, hlogged u huq, hblocks u huq]
      exact h.tracers u (by omega)
  · intro u hu
    have huq : u ≠ q := by omega
    rw [hlogged u huq, hblocks u huq, owed, hprocess u huq]
    exact h.unborn u (by omega)
  · exact hframed

end Inv

section Fields

variable (f : Family) (q : Nat) (r : Runtime) (locked : Bool) (s : TracerAt)

@[simp] theorem process_store_self :
    (f.store q r locked s).process q = ⟨r.shared, locked, r.thread, s⟩ :=
  Function.update_self ..

theorem process_store_of_ne {u : Nat} (h : u ≠ q) :
    (f.store q r locked s).process u = f.process u :=
  Function.update_of_ne h ..

theorem owed_store_self : (f.store q r locked s).owed q = s.owed := by
  rw [owed, process_store_self]

theorem owed_store_of_ne {u : Nat} (h : u ≠ q) : (f.store q r locked s).owed u = f.owed u := by
  rw [owed, process_store_of_ne f q r locked s h, owed]

end Fields

/-! ### The steps -/

section Steps

variable {lz : Lz4} {on : Bool} {header : List UInt8} {f : Family} {q : Nat}

/-- Process `q` has logged `es`. -/
def logging (f : Family) (q : Nat) (es : List Logged) : Family :=
  { f with logged := Function.update f.logged q es }

theorem logging_self (f : Family) (q : Nat) : f.logging q (f.logged q) = f := by
  rw [logging, Function.update_eq_self]

/-- A step of process `q` that writes nothing. -/
theorem Inv.store (h : f.Inv lz on header) (hq : q < f.created) {es : List Logged} {r : Runtime}
    {locked : Bool} {s : TracerAt} (log : Log Slot) (hfile : r.shared.out.bytes = f.file)
    (howed : s.owed = f.owed q)
    (hkeeps : (⟨r.shared, locked, r.thread, s⟩ : Tracer).Keeps lz on log es (f.blocks q)) :
    ((f.logging q es).store q r locked s).Inv lz on header := by
  have hself := process_store_self (f.logging q es) q r locked s
  refine h.update (g := (f.logging q es).store q r locked s) hq rfl ?_ ?_ ?_ log ?_ ?_
  · exact fun u hu ↦ process_store_of_ne (f.logging q es) q r locked s hu
  · exact fun u hu ↦ Function.update_of_ne hu ..
  · exact fun _ _ ↦ rfl
  · rw [hself]
    change Tracer.Keeps _ _ _ _ (Function.update f.logged q es q) _
    rw [Function.update_self]
    exact hkeeps
  · apply h.framed.congr (g := (f.logging q es).store q r locked s) hfile rfl
    intro u
    by_cases hu : u = q
    · rw [hu, owed_store_self, howed]
    · exact owed_store_of_ne _ q r locked s hu

/-- The same when nothing is logged either. -/
theorem Inv.store_silent (h : f.Inv lz on header) (hq : q < f.created) {r : Runtime}
    {locked : Bool} {s : TracerAt} (log : Log Slot) (hfile : r.shared.out.bytes = f.file)
    (howed : s.owed = f.owed q)
    (hkeeps : (⟨r.shared, locked, r.thread, s⟩ : Tracer).Keeps lz on log (f.logged q)
      (f.blocks q)) : (f.store q r locked s).Inv lz on header := by
  have hstore := h.store hq log hfile howed hkeeps
  rw [logging_self] at hstore
  exact hstore

/-- Entering a flush writes nothing. -/
theorem Inv.enterFlush (h : f.Inv lz on header) (hq : q < f.created) {es : List Logged}
    (r : Runtime) (log : Log Slot) (hinit : r.shared.memaInitialized = true)
    (hfd : r.shared.memaccessFd ≠ -1) (hcomp : r.shared.flags.compression = on)
    (hopen : r.shared.out.isOpen = true) (hfile : r.shared.out.bytes = f.file)
    (howed : f.owed q = none)
    (hkept : Kept lz on [] Slot.readback r.thread.buffer ⟨true, framesOf lz on log.done⟩ log es)
    (hblocks : f.blocks q = log.done) (closing : Bool) :
    ∃ f', (f.logging q es).enterFlush lz q r closing = .ok f' ∧ f'.Inv lz on header := by
  have hbegin := beginFlush_laid lz hfd hkept.laid
  let job : FlushJob := ⟨log.pending, payloadOf lz on log.pending⟩
  have hstanding : f.blocks q = log.done ++ FlushStage.lock.blocks log.pending := by
    rw [hblocks]
    exact (List.append_nil _).symm
  refine ⟨(f.logging q es).store q ⟨r.shared, { r.thread with insideMema := true }⟩
    (f.process q).writeMutex (.flushing .lock job closing), ?_, h.store hq log hfile howed.symm
    ⟨hinit, hfd, hcomp, hkept, hopen, rfl, hstanding⟩⟩
  · rw [Family.enterFlush, hbegin, hcomp]
    rfl

/-- A running process and its log. -/
theorem Inv.running (h : f.Inv lz on header) (hrun : f.canRun q = true) :
    q < f.created ∧ (f.process q).standing = .running ∧ f.owed q = none ∧
      ∃ log, (f.process q).Keeps lz on log (f.logged q) (f.blocks q) := by
  rw [canRun, Bool.and_eq_true, decide_eq_true_eq] at hrun
  have hstanding : (f.process q).standing = .running := by
    cases hs : (f.process q).standing with
    | running => rfl
    | flushing stage job closing => rw [hs] at hrun; cases hrun.2
    | ended => rw [hs] at hrun; cases hrun.2
  refine ⟨hrun.1, hstanding, ?_, h.tracers q hrun.1⟩
  rw [owed, hstanding]
  rfl

/-- A call keeps every record. -/
theorem Inv.call (h : f.Inv lz on header) (hrun : f.canRun q = true) (c : Call) :
    ∃ f', f.call lz q c = .ok f' ∧ f'.Inv lz on header := by
  obtain ⟨hq, hstanding, howed, log, hkeeps⟩ := h.running hrun
  have hs := hkeeps.standing
  rw [hstanding] at hs
  obtain ⟨hopen, hinside, hroom, hblocks⟩ := hs
  obtain ⟨r, hswitched, -, hbegin⟩ := @Call.begin_spec (f.runtime q) hkeeps.initialized hinside c
  have hsame := hswitched.sameTrace
  have hinit : r.shared.memaInitialized = true := hsame.initialized.trans hkeeps.initialized
  have hout : r.thread.insideMema = false := hsame.outside.trans hinside
  have hfd : r.shared.memaccessFd ≠ -1 := fun hf ↦ hkeeps.fd (hsame.fd.symm.trans hf)
  have hcomp : r.shared.flags.compression = on := hsame.compression.trans hkeeps.compression
  have hisOpen : r.shared.out.isOpen = true := by
    rw [hsame.out]
    exact hopen
  have hfile : r.shared.out.bytes = f.file := by
    rw [hsame.out]
    rfl
  have hkept := hkeeps.kept
  have hbuffer : r.thread.buffer = (f.process q).thread.buffer := hsame.buffer
  rw [← hbuffer] at hkept
  cases hrecord : (f.runtime q).switch.record c with
  | none =>
    rw [hrecord, Option.elim_none] at hbegin
    refine ⟨f.store q r (f.process q).writeMutex .running, ?_,
      h.store_silent hq log hfile howed.symm
        ⟨hinit, hfd, hcomp, hkept, hisOpen, hout, hroom, hblocks⟩⟩
    have hnone : ({ f with
        logged := Function.update f.logged q (f.logged q ++ []) } : Family) = f := by
      rw [List.append_nil]
      exact f.logging_self q
    simp only [Family.call, hbegin, bind, Except.bind, Option.isSome_none, Bool.false_and,
      Bool.false_eq_true, if_false, Option.toList_none, hnone]
    rfl
  | some e =>
    rw [hrecord, Option.elim_some] at hbegin
    obtain ⟨b, x, hb, hkept', hlast⟩ := hkept.append hroom e.readback_write e.typePadding_write
    rw [appendRecord, hb] at hbegin
    by_cases hfull : b.atLast = true
    · obtain ⟨f', hf', hinv⟩ := h.enterFlush hq ⟨r.shared, { r.thread with buffer := b }⟩
        ⟨log.done, log.pending ++ [x]⟩ hinit hfd hcomp hisOpen hfile howed hkept' hblocks false
      refine ⟨f', ?_, hinv⟩
      rw [← hf']
      simp only [Family.call, hbegin, bind, Except.bind, hfull, Option.isSome_some, Bool.and_self,
        if_true]
      rfl
    · have hne := mt hlast.mpr hfull
      have hroom' : (log.pending ++ [x]).length < flushSize := by
        rw [List.length_append, List.length_singleton]
        omega
      refine ⟨(f.logging q (f.logged q ++ [e])).store q ⟨r.shared, { r.thread with buffer := b }⟩
        (f.process q).writeMutex .running, ?_, h.store hq ⟨log.done, log.pending ++ [x]⟩ hfile
        howed.symm ⟨hinit, hfd, hcomp, hkept', hisOpen, hout, hroom', hblocks⟩⟩
      · rw [Bool.not_eq_true] at hfull
        simp only [Family.call, hbegin, bind, Except.bind, hfull, Bool.and_false,
          Bool.false_eq_true, if_false]
        rfl

/-- No other process is between its two writes when a process writes a length. -/
def Apart : FamilyAction → Family → Prop
  | .flush q, f => (f.process q).standing.writesLength = true → ∀ u, f.owed u = none
  | _, _ => True

/-- The first write of a frame, when no other frame is unfinished. -/
theorem Inv.flush_length (h : f.Inv lz on header) (hq : q < f.created) {job : FlushJob}
    {closing : Bool} (hstanding : (f.process q).standing = .flushing .writeLength job closing)
    (hnone : ∀ u, f.owed u = none) :
    (f.store q ⟨writeLength job (f.runtime q).shared, (f.runtime q).thread⟩ true
      (.flushing .writePayload job closing)).Inv lz on header := by
  obtain ⟨log, hkeeps⟩ := h.tracers q hq
  have hs := hkeeps.standing
  rw [hstanding] at hs
  obtain ⟨hopen, hjob, hblocks⟩ := hs
  let s : Shared := writeLength job (f.runtime q).shared
  have hopen' : (f.runtime q).shared.out.isOpen = true := hopen
  have hwrite : s.out = ⟨true, f.file ++ leBytes 8 job.payload.length⟩ := by
    change ((f.runtime q).shared.out.write (leBytes 8 job.payload.length)).1 = _
    rw [OutFile.write_open hopen', hopen']
    rfl
  let g : Family := f.store q ⟨s, (f.runtime q).thread⟩ true (.flushing .writePayload job closing)
  have hg : g.process q = ⟨s, true, (f.runtime q).thread, .flushing .writePayload job closing⟩ :=
    process_store_self ..
  refine h.update (g := g) hq rfl ?_ ?_ ?_ log ?_ ?_
  · exact fun u hu ↦ process_store_of_ne f q _ true _ hu
  · exact fun _ _ ↦ rfl
  · exact fun _ _ ↦ rfl
  · rw [hg]
    refine ⟨hkeeps.initialized, hkeeps.fd, hkeeps.compression, hkeeps.kept, ?_, hjob, hblocks⟩
    rw [hwrite]
  · apply h.framed.length (g := g) hnone (congrArg OutFile.bytes hwrite) rfl
    · exact owed_store_self ..
    · exact fun u hu ↦ owed_store_of_ne _ q _ true _ hu

/-- The second write, which nothing has come before. -/
theorem Inv.flush_payload (h : f.Inv lz on header) (hq : q < f.created) {job : FlushJob}
    {closing : Bool} (hstanding : (f.process q).standing = .flushing .writePayload job closing) :
    ∃ shared, writePayload job (f.runtime q).shared = .ok shared ∧
      ({ f.store q ⟨shared, (f.runtime q).thread⟩ true (.flushing .unlock job closing) with
        flushed := f.flushed ++ [(q, job.records)] } : Family).Inv lz on header := by
  obtain ⟨log, hkeeps⟩ := h.tracers q hq
  have hs := hkeeps.standing
  rw [hstanding] at hs
  obtain ⟨hopen, hjob, hblocks⟩ := hs
  have howed : f.owed q = some job.payload := by
    rw [owed, hstanding]
    rfl
  obtain ⟨s, hwrite, hout, hflags, hinit, hfd⟩ :=
    writePayload_spec (s := (f.runtime q).shared) job hopen
  let g : Family :=
    { f.store q ⟨s, (f.runtime q).thread⟩ true (.flushing .unlock job closing) with
      flushed := f.flushed ++ [(q, job.records)] }
  have hg : g.process q = ⟨s, true, (f.runtime q).thread, .flushing .unlock job closing⟩ :=
    Function.update_self ..
  have hother (u : Nat) (hu : u ≠ q) : g.process u = f.process u := Function.update_of_ne hu ..
  have hbytes : g.file = f.file ++ job.payload := congrArg OutFile.bytes hout
  have hmine : g.blocks q = f.blocks q ++ [job.records] := by
    simp [g, blocks]
  refine ⟨s, hwrite, ?_⟩
  subst hjob
  refine h.update (g := g) hq rfl hother ?_ ?_ log ?_ ?_
  · exact fun _ _ ↦ rfl
  · intro u hu
    have hne : (q == u) = false := beq_eq_false_iff_ne.mpr (Ne.symm hu)
    simp [g, blocks, hne]
  · rw [hg, hmine, hblocks]
    refine ⟨hinit.trans hkeeps.initialized, fun hf ↦ hkeeps.fd (hfd.symm.trans hf), ?_,
      hkeeps.kept, ?_, rfl, ?_⟩
    · rw [hflags]
      exact hkeeps.compression
    · rw [hout]
      exact hopen
    · simp [FlushStage.blocks]
  · apply h.framed.payload (g := g) howed hbytes rfl
    · rw [owed, hg]
      rfl
    · intro u hu
      rw [owed, hother u hu, owed]

/-- The end of a flush cuts the log of its process. -/
theorem Inv.flush_unlock (h : f.Inv lz on header) (hq : q < f.created) {job : FlushJob}
    {closing : Bool} (hstanding : (f.process q).standing = .flushing .unlock job closing) :
    (f.store q ⟨close closing (f.runtime q).shared, endFlush (f.runtime q).thread⟩ false
      (.after closing)).Inv lz on header := by
  obtain ⟨log, hkeeps⟩ := h.tracers q hq
  have hs := hkeeps.standing
  rw [hstanding] at hs
  obtain ⟨hopen, -, hblocks⟩ := hs
  have howed : f.owed q = none := by
    rw [owed, hstanding]
    rfl
  have hkept := hkeeps.kept.flush
  have hdone : framesOf lz on log.done ++ frame 8 (payloadOf lz on log.pending) =
      framesOf lz on log.cut.done := by
    rw [Log.cut, framesOf_append, framesOf_singleton]
  simp only [hdone] at hkept
  have hpos : log.cut.pending.length < flushSize := by
    change ([] : List Slot).length < flushSize
    decide
  cases closing with
  | true =>
    exact h.store_silent hq log.cut rfl howed.symm
      ⟨hkeeps.initialized, hkeeps.fd, hkeeps.compression, hkept, fun _ ↦ rfl, hblocks⟩
  | false =>
    exact h.store_silent hq log.cut rfl howed.symm
      ⟨hkeeps.initialized, hkeeps.fd, hkeeps.compression, hkept, hopen, rfl, hpos, hblocks⟩

/-- A step of a flush keeps every record and, apart from other frames, the frames. -/
theorem Inv.flush (h : f.Inv lz on header) (hq : q < f.created) (hapart : Apart (.flush q) f)
    {r : Except Fault Family} (hr : f.flush q = some r) :
    ∃ g, r = .ok g ∧ g.Inv lz on header := by
  cases hstanding : (f.process q).standing with
  | running =>
    simp only [Family.flush, hstanding] at hr
    cases hr
  | ended =>
    simp only [Family.flush, hstanding] at hr
    cases hr
  | flushing stage job closing =>
    cases stage with
    | lock =>
      simp only [Family.flush, hstanding, Option.ite_none_left_eq_some] at hr
      obtain ⟨log, hkeeps⟩ := h.tracers q hq
      have hs := hkeeps.standing
      rw [hstanding] at hs
      have howed : f.owed q = none := by
        rw [owed, hstanding]
        rfl
      cases hr.2
      exact ⟨_, rfl, h.store_silent hq log rfl howed.symm
        ⟨hkeeps.initialized, hkeeps.fd, hkeeps.compression, hkeeps.kept, hs⟩⟩
    | writeLength =>
      simp only [Family.flush, hstanding] at hr
      cases hr
      refine ⟨_, rfl, h.flush_length hq hstanding (hapart ?_)⟩
      rw [hstanding]
      rfl
    | writePayload =>
      obtain ⟨shared, hwrite, hinv⟩ := h.flush_payload hq hstanding
      simp only [Family.flush, hstanding, hwrite] at hr
      cases hr
      exact ⟨_, rfl, hinv⟩
    | unlock =>
      simp only [Family.flush, hstanding] at hr
      cases hr
      exact ⟨_, rfl, h.flush_unlock hq hstanding⟩

/-- A child keeps nothing yet. -/
theorem Inv.fork (h : f.Inv lz on header) (hq : q < f.created) {tracing : Bool}
    (hstanding : (if tracing then (f.process q).standing.isRunning
      else (f.process q).standing.isAlive) = true) : (f.fork q tracing).Inv lz on header := by
  obtain ⟨log, hkeeps⟩ := h.tracers q hq
  obtain ⟨hlogged, hblocks, howed⟩ := h.unborn f.created (Nat.le_refl _)
  have hself : (f.fork q tracing).process f.created = ⟨(f.process q).shared,
      (f.process q).writeMutex,
      memaThreadStarting (if tracing then (f.process q).thread else Thread.fresh), .running⟩ :=
    Function.update_self ..
  have hother (u : Nat) (hu : u ≠ f.created) : (f.fork q tracing).process u = f.process u :=
    Function.update_of_ne hu ..
  have hchild : ((f.fork q tracing).process f.created).Keeps lz on Log.empty [] [] := by
    rw [hself]
    cases tracing with
    | true =>
      have hrun : (f.process q).standing = .running := by
        cases hs : (f.process q).standing with
        | running => rfl
        | flushing stage job closing => rw [hs] at hstanding; cases hstanding
        | ended => rw [hs] at hstanding; cases hstanding
      have hs := hkeeps.standing
      rw [hrun] at hs
      exact hkeeps.child hs.1 hkeeps.kept.clean hs.2.1 _
    | false =>
      exact hkeeps.child (hkeeps.isOpen hstanding) TraceBuffer.clean_fresh rfl _
  constructor
  · intro u hu
    by_cases huc : u = f.created
    · subst huc
      refine ⟨Log.empty, ?_⟩
      change Tracer.Keeps _ _ _ _ (f.logged _) (f.blocks _)
      rw [hlogged, hblocks]
      exact hchild
    · rw [hother u huc]
      exact h.tracers u (Nat.lt_of_le_of_ne (Nat.le_of_lt_succ hu) huc)
  · intro u hu
    have hlt : f.created < u := hu
    rw [owed, hother u (by omega)]
    exact h.unborn u (by omega)
  · apply h.framed.congr (g := f.fork q tracing) rfl rfl
    intro u
    by_cases huc : u = f.created
    · subst huc
      rw [howed, owed, hself]
      rfl
    · rw [owed, hother u huc, owed]

/-- The finalizer begins with a flush. -/
theorem Inv.finalize (h : f.Inv lz on header) (hrun : f.canRun q = true) :
    ∃ g, f.enterFlush lz q (f.runtime q) true = .ok g ∧ g.Inv lz on header := by
  obtain ⟨hq, hstanding, howed, log, hkeeps⟩ := h.running hrun
  have hs := hkeeps.standing
  rw [hstanding] at hs
  have henter := h.enterFlush hq (f.runtime q) log hkeeps.initialized hkeeps.fd hkeeps.compression
    hs.1 rfl howed hkeeps.kept hs.2.2.2 true
  rw [logging_self] at henter
  exact henter

/-- A process that ends without the finalizer keeps what it holds. -/
theorem Inv.exit (h : f.Inv lz on header) (hrun : f.canRun q = true) :
    (f.store q (f.runtime q) (f.process q).writeMutex .ended).Inv lz on header := by
  obtain ⟨hq, hstanding, howed, log, hkeeps⟩ := h.running hrun
  have hs := hkeeps.standing
  rw [hstanding] at hs
  refine h.store_silent hq log rfl howed.symm
    ⟨hkeeps.initialized, hkeeps.fd, hkeeps.compression, hkeeps.kept, ?_, hs.2.2.2⟩
  intro hclosed
  have hopen : (f.process q).shared.out.isOpen = true := hs.1
  exact absurd (hopen.symm.trans hclosed) (by decide)

/-- No step fails, and every step apart from the others' frames keeps the invariant. -/
theorem Inv.step (h : f.Inv lz on header) {a : FamilyAction} (hapart : Apart a f)
    {r : Except Fault Family} (hr : f.step lz a = some r) :
    ∃ g, r = .ok g ∧ g.Inv lz on header := by
  cases a with
  | fork q tracing =>
    rw [Family.step, Option.ite_none_right_eq_some, Bool.and_eq_true, decide_eq_true_eq] at hr
    obtain ⟨⟨hq, hstanding⟩, hr⟩ := hr
    cases hr
    exact ⟨_, rfl, h.fork hq hstanding⟩
  | call q c =>
    rw [Family.step, Option.ite_none_right_eq_some] at hr
    obtain ⟨g, hg, hinv⟩ := h.call hr.1 c
    rw [hg] at hr
    cases hr.2
    exact ⟨g, rfl, hinv⟩
  | flush q =>
    rw [Family.step, Option.ite_none_right_eq_some] at hr
    exact h.flush hr.1 hapart hr.2
  | finalize q =>
    rw [Family.step, Option.ite_none_right_eq_some] at hr
    obtain ⟨g, hg, hinv⟩ := h.finalize hr.1
    rw [hg] at hr
    cases hr.2
    exact ⟨g, rfl, hinv⟩
  | exit q =>
    rw [Family.step, Option.ite_none_right_eq_some] at hr
    obtain ⟨hrun, hr⟩ := hr
    cases hr
    exact ⟨_, rfl, h.exit hrun⟩

end Steps

/-! ### The main result -/

/-- The records process `q` holds that its blocks in the file do not have. -/
def unflushed (f : Family) (q : Nat) : List Slot :=
  match (f.process q).standing with
  | .flushing .unlock _ _ => []
  | _ => ((f.process q).thread.buffer.held).getD []

/-- The file is the header and whole frames, but for a length whose payload is still owed. The
blocks of each process, and then what it holds, are what it logged itself: what a parent held at a
`fork` is in its own blocks and in no child's. Nothing is left once the finalizer has closed the
file. -/
structure WellFramed (lz : Lz4) (on : Bool) (header : List UInt8) (f : Family) : Prop where
  whole : (∀ q, f.owed q = none) → f.file = header ++ f.frames lz on
  half : ∀ q payload, f.owed q = some payload →
    f.file = header ++ f.frames lz on ++ leBytes 8 payload.length
  once : ∀ q, q < f.created →
    ((f.blocks q).flatten ++ f.unflushed q).map Slot.readback = (f.logged q).map some
  finished : ∀ q, q < f.created → (f.process q).shared.out.isOpen = false →
    (f.blocks q).flatten.map Slot.readback = (f.logged q).map some

section Main

variable {lz : Lz4} {on : Bool} {header : List UInt8} {f : Family}

/-- The blocks of a process and what it holds are the contents of its log. -/
private theorem Inv.contents {q : Nat} {log : Log Slot}
    (h : (f.process q).Keeps lz on log (f.logged q) (f.blocks q)) :
    (f.blocks q).flatten ++ f.unflushed q = log.contents := by
  have hs := h.standing
  have hheld := h.kept.laid.held_eq
  unfold unflushed
  cases hstanding : (f.process q).standing with
  | running =>
    rw [hstanding] at hs
    obtain ⟨-, -, -, hblocks⟩ := hs
    rw [hblocks, hheld]
    rfl
  | ended =>
    rw [hstanding] at hs
    obtain ⟨-, hblocks⟩ := hs
    rw [hblocks, hheld]
    rfl
  | flushing stage job closing =>
    rw [hstanding] at hs
    obtain ⟨-, -, hblocks⟩ := hs
    cases stage with
    | unlock =>
      rw [hblocks]
      simp [FlushStage.blocks, Log.contents]
    | _ =>
      rw [hblocks, hheld]
      simp [FlushStage.blocks, Log.contents]

theorem Inv.wellFramed (h : f.Inv lz on header) : f.WellFramed lz on header := by
  constructor
  · intro hnone
    cases h.framed with
    | whole _ hfile => exact hfile
    | half q payload hq _ _ =>
      rw [hnone q] at hq
      cases hq
  · intro q payload hq
    cases h.framed with
    | whole hnone _ =>
      rw [hnone q] at hq
      cases hq
    | half u p hu hother hfile =>
      have hqu : q = u := by
        by_contra hne
        rw [hother q hne] at hq
        cases hq
      rw [hqu, hu] at hq
      cases hq
      exact hfile
  · intro q hq
    obtain ⟨log, hkeeps⟩ := h.tracers q hq
    rw [Inv.contents hkeeps, map_readback_of_holds hkeeps.kept.holds]
  · intro q hq hclosed
    obtain ⟨log, hkeeps⟩ := h.tracers q hq
    have hended : (f.process q).standing = .ended := by
      cases hs : (f.process q).standing with
      | ended => rfl
      | running =>
        have hopen := hkeeps.isOpen (by rw [hs]; rfl)
        exact absurd (hopen.symm.trans hclosed) (by decide)
      | flushing stage job closing =>
        have hopen := hkeeps.isOpen (by rw [hs]; rfl)
        exact absurd (hopen.symm.trans hclosed) (by decide)
    have hs := hkeeps.standing
    rw [hended] at hs
    obtain ⟨hpending, hblocks⟩ := hs
    have hholds := map_readback_of_holds hkeeps.kept.holds
    rw [Log.contents, hpending hclosed, List.append_nil] at hholds
    rw [hblocks, hholds]

/-- Before any fork, the header is written and nothing is kept. -/
theorem started_inv (lz : Lz4) {start : Startup} (hname : start.flags.filename.isSome = true)
    (hfd : start.fd ≠ -1) :
    (started start).Inv lz start.flags.compression (memaInitialize start).shared.out.bytes := by
  have htraced := memaInitialize_traced lz hname hfd
  have hroom : (Log.empty : Log Slot).pending.length < flushSize := by decide
  constructor
  · intro q _
    exact ⟨Log.empty, htraced.tracing.initialized, htraced.tracing.fd,
      compression_memaInitialize start, ⟨rfl, rfl, htraced.kept.laid, htraced.kept.clean, .nil⟩,
      htraced.kept.isOpen, htraced.tracing.outside, hroom, rfl⟩
  · intro q _
    exact ⟨rfl, rfl, rfl⟩
  · apply Framed.whole
    · exact fun _ ↦ rfl
    · exact (List.append_nil _).symm

/-- The invariant holds while every step is apart. -/
theorem Inv.of_reachableBy (lz : Lz4) {start : Startup}
    (hname : start.flags.filename.isSome = true) (hfd : start.fd ≠ -1)
    (h : (machine lz start).ReachableBy Apart f) :
    f.Inv lz start.flags.compression (memaInitialize start).shared.out.bytes := by
  refine h.invariant ?_ ?_
  · rintro f rfl
    exact started_inv lz hname hfd
  · intro a f g hf hapart hs
    obtain ⟨g', hg', hinv⟩ := hf.step hapart hs
    cases hg'
    exact hinv

end Main

/-- In every run of a process and its descendants in which no process begins a frame while another
one has written the length of its own and not the payload, every step succeeds, the file is well
framed, and every record appears once. -/
theorem wellFramed_of_apart (lz : Lz4) {start : Startup}
    (hname : start.flags.filename.isSome = true) (hfd : start.fd ≠ -1) {f : Family}
    (h : (machine lz start).ReachableBy Apart f) :
    f.WellFramed lz start.flags.compression (memaInitialize start).shared.out.bytes ∧
      ∀ a r, Apart a f → f.step lz a = some r → ∃ g, r = .ok g := by
  have hinv := Inv.of_reachableBy lz hname hfd h
  refine ⟨hinv.wellFramed, ?_⟩
  intro a r hapart hr
  obtain ⟨g, hg, -⟩ := hinv.step hapart hr
  exact ⟨g, hg⟩

/-- A parent holds an entry at a fork; the child logs one of its own and finalises. -/
theorem wellFramed_of_apart_forked :
    ∃ f : Family, f.logged 0 = [.funcEnter 16] ∧ f.logged 1 = [.funcEnter 32] ∧
      (f.process 1).shared.out.isOpen = false ∧
      f.WellFramed id Startup.toFile.flags.compression
        (memaInitialize Startup.toFile).shared.out.bytes ∧
      ∀ a r, Apart a f → f.step id a = some r → ∃ g, r = .ok g := by
  have hcall : (machine id Startup.toFile).ReachableBy Apart _ :=
    .step (a := .call 0 (.functionEntry 16)) (.start rfl) trivial rfl
  have hfork : (machine id Startup.toFile).ReachableBy Apart _ :=
    .step (a := .fork 0 true) hcall trivial rfl
  have hchild : (machine id Startup.toFile).ReachableBy Apart _ :=
    .step (a := .call 1 (.functionEntry 32)) hfork trivial rfl
  have hfinalize : (machine id Startup.toFile).ReachableBy Apart _ :=
    .step (a := .finalize 1) hchild trivial rfl
  have hlock : (machine id Startup.toFile).ReachableBy Apart _ :=
    .step (a := .flush 1) hfinalize nofun rfl
  have hlength : (machine id Startup.toFile).ReachableBy Apart _ :=
    .step (a := .flush 1) hlock (by rintro - (_ | _ | u) <;> rfl) rfl
  have hpayload : (machine id Startup.toFile).ReachableBy Apart _ :=
    .step (a := .flush 1) hlength nofun rfl
  have hunlock : (machine id Startup.toFile).ReachableBy Apart _ :=
    .step (a := .flush 1) hpayload nofun rfl
  exact ⟨_, rfl, rfl, rfl, wellFramed_of_apart id rfl (by decide) hunlock⟩

/-- A step that is not apart writes its length between another frame's length and payload. -/
theorem overlap_of_not_apart (lz : Lz4) {start : Startup}
    (hname : start.flags.filename.isSome = true) (hfd : start.fd ≠ -1) {f g : Family} {q : Nat}
    (h : (machine lz start).ReachableBy Apart f) (hnot : ¬ Apart (.flush q) f)
    (hstep : f.step lz (.flush q) = some (.ok g)) :
    ∃ u payload size, g.owed u = some payload ∧
      g.file = (memaInitialize start).shared.out.bytes ++ f.frames lz start.flags.compression ++
        leBytes 8 payload.length ++ leBytes 8 size := by
  have hinv := Inv.of_reachableBy lz hname hfd h
  rw [Apart, Classical.not_imp, not_forall] at hnot
  obtain ⟨hlength, u, howed⟩ := hnot
  cases hinv.framed with
  | whole hnone _ => exact absurd (hnone u) howed
  | half v payload hv hother hfile =>
    rw [Family.step, Option.ite_none_right_eq_some] at hstep
    obtain ⟨hq, hstep⟩ := hstep
    cases hstanding : (f.process q).standing with
    | running =>
      rw [hstanding] at hlength
      cases hlength
    | ended =>
      rw [hstanding] at hlength
      cases hlength
    | flushing stage job closing =>
      rw [hstanding] at hlength
      have hstage : stage = .writeLength := by
        cases stage <;> first | rfl | cases hlength
      subst hstage
      simp only [Family.flush, hstanding, Option.some.injEq, Except.ok.injEq] at hstep
      subst hstep
      have hvq : v ≠ q := by
        rintro rfl
        rw [owed, hstanding] at hv
        cases hv
      have hopen : (f.runtime q).shared.out.isOpen = true := by
        obtain ⟨log, hkeeps⟩ := hinv.tracers q hq
        exact hkeeps.isOpen (by rw [hstanding]; rfl)
      refine ⟨v, payload, job.payload.length, ?_, ?_⟩
      · rw [owed_store_of_ne f q _ true _ hvq]
        exact hv
      · show ((f.runtime q).shared.out.write (leBytes 8 job.payload.length)).1.bytes = _
        rw [OutFile.write_open hopen, ← hfile]
        rfl

/-- A parent that has logged an entry forks, the child logs a write, and both finalise: the parent
writes its length, the child its length and its payload, and the parent its payload. What is left
is no concatenation of frames. -/
theorem interleaved_not_framed :
    ∃ f, (machine id Startup.toFile).run [.call 0 (.functionEntry 16), .fork 0 true,
        .call 1 (.access 4096 8 true ⟨0, 0, 0, 0⟩), .finalize 0, .finalize 1, .flush 0, .flush 1,
        .flush 0, .flush 1, .flush 1, .flush 0, .flush 0, .flush 1] (started Startup.toFile) =
          some (.ok f) ∧
      (f.process 0).standing.isAlive = false ∧ (f.process 1).standing.isAlive = false ∧
      ∀ ps, f.file ≠ (memaInitialize Startup.toFile).shared.out.bytes ++ Framing.frames 8 ps := by
  -- Two lengths, then the child's write and the parent's entry.
  let written : List UInt8 := leBytes 8 56 ++ leBytes 8 56 ++
    ((Logged.access 0 0 0 0 4096 true).write Slot.zero).bytes ++
    ((Logged.funcEnter 16).write Slot.zero).bytes
  have hnot : ∀ ps, written ≠ Framing.frames 8 ps :=
    ne_frames_of_isFrames (by decide) (by decide +kernel) (by decide +kernel)
  refine ⟨_, rfl, rfl, rfl, fun ps hfile ↦ hnot ps ?_⟩
  have hwritten : (memaInitialize Startup.toFile).shared.out.bytes ++ written = _ := rfl
  exact List.append_cancel_left (hwritten.trans hfile)

end Family

end Mema
