import Mema.Runtime.AfterClose

/-!
# What the viewer reads in a reused slot

`mema_rtl.cpp:141–173` declares a 4-byte type and a 1-byte flag where `memaviz/record.go:18–92`
reads 8-byte words. The padding between them is zero when the buffer is created, and no store
touches it, so every flushed slot reads as the record logged last, on every pass through the
buffer.
-/

namespace Mema

open Bytes

/-! ### One slot -/

/-- The type and the fields of a logged record are those the viewer's overlays show. -/
def Record.Agrees (r : Record) : Logged → Prop
  | .access time pc bp sp addr isWrite =>
    r.type = MEMA_ACCESS ∧
      r.memAccess = ⟨time, pc, bp, sp, addr, if isWrite then 1 else 0⟩
  | .funcEnter addr => r.type = MEMA_FUNC_ENTER ∧ r.functionCall = ⟨addr⟩
  | .funcExit addr => r.type = MEMA_FUNC_EXIT ∧ r.functionCall = ⟨addr⟩

/-- Neither padding has been written to. -/
structure Slot.Unpadded (s : Slot) : Prop where
  type : s.get .typePadding = 0
  flag : s.get .flagPadding = 0

theorem Slot.unpadded_zero : Slot.zero.Unpadded := ⟨Slot.get_zero _, Slot.get_zero _⟩

/-- A store keeps the padding. -/
theorem Logged.unpadded_write (e : Logged) {s : Slot} (h : s.Unpadded) : (e.write s).Unpadded :=
  ⟨(e.typePadding_write s).trans h.type, (e.flagPadding_write s).trans h.flag⟩

namespace Slot.Unpadded

variable {s : Slot}

theorem typeWord (h : s.Unpadded) : s.get .typeWord = s.get .type := by
  rw [s.get_typeWord, h.type, Nat.mul_zero, Nat.add_zero]

theorem lastWord (h : s.Unpadded) : s.get .lastWord = s.get .isWrite := by
  rw [s.get_lastWord, h.flag, Nat.mul_zero, Nat.add_zero]

/-- Over clean padding, whatever else the slot held, the viewer reads what is stored. -/
theorem agrees (h : s.Unpadded) (e : Logged) : Record.Agrees (e.write s) e := by
  have hs := e.unpadded_write h
  have hcode : Record.type (e.write s) = e.type.code := by
    rw [Record.type, hs.typeWord]
    cases e <;> simp (disch := decide) [Logged.write, Slot.get_set_of_disjoint] <;> rfl
  cases e with
  | access time pc bp sp addr isWrite =>
    have hflag : UInt64.ofNat (((Logged.access time pc bp sp addr isWrite).write s).get
        .lastWord) = if isWrite then 1 else 0 := by
      rw [hs.lastWord, Logged.write, Slot.get_set]
      cases isWrite <;> rfl
    refine ⟨hcode, ?_⟩
    rw [Record.memAccess, Record.isWrite, hflag]
    simp (disch := decide) [Record.addr, Logged.write, Slot.get_set_of_disjoint, word_eq]
  | funcEnter addr =>
    refine ⟨hcode, ?_⟩
    simp (disch := decide) [Record.functionCall, Record.funcPointer, Logged.write, word_eq]
  | funcExit addr =>
    refine ⟨hcode, ?_⟩
    simp (disch := decide) [Record.functionCall, Record.funcPointer, Logged.write, word_eq]

end Slot.Unpadded

/-! ### The arrays a run flushes -/

/-- The array a call hands to the flush, if its record fills the buffer. -/
def Call.flushed (r : Runtime) (c : Call) : Option (List Slot) :=
  match c.begin r with
  | .ok (r, some _) => if r.thread.buffer.atLast then r.thread.buffer.held else none
  | _ => none

/-- The arrays the calls of a run hand to the flush. -/
def flushedArrays (lz : Lz4) : Runtime → List Call → List (List Slot)
  | _, [] => []
  | r, c :: cs =>
    match c.perform lz r with
    | .error _ => (c.flushed r).toList
    | .ok (r', _) => (c.flushed r).toList ++ flushedArrays lz r' cs

/-- A flush leaves the slots as they are. -/
theorem buffer_memaEmptyBuffer {lz : Lz4} {r r' : Runtime} (h : memaEmptyBuffer lz r = .ok r') :
    r'.thread.buffer = r.thread.buffer.reset := by
  unfold memaEmptyBuffer at h
  split at h
  · cases h
    rfl
  · split at h
    · cases h
    · dsimp only at h
      split at h
      · split at h
        · cases h
          rfl
        · cases h
      · cases h
        rfl

/-! ### What holds between calls -/

/-- The buffer holds `ss`, and no slot of it, used or not, has anything in its padding. -/
structure Runtime.Readable (r : Runtime) (ss : List Slot) : Prop where
  initialized : r.shared.memaInitialized = true
  outside : r.thread.insideMema = false
  sink : r.shared.memaccessFd = -1 ∨ r.shared.out.isOpen = true
  laid : r.thread.buffer.Laid ss
  room : ss.length < flushSize
  unpadded : ∀ i, (r.thread.buffer.memAccesses i).Unpadded

namespace Runtime.Readable

variable {lz : Lz4} {r r' : Runtime} {ss : List Slot}

theorem congr (h : r.Readable ss) (hs : r.SameTrace r') : r'.Readable ss := by
  refine ⟨hs.initialized.trans h.initialized, hs.outside.trans h.outside, ?_, ?_, h.room, ?_⟩
  · rw [hs.fd, hs.out]
    exact h.sink
  · rw [hs.buffer]
    exact h.laid
  · rw [hs.buffer]
    exact h.unpadded

/-- A call lays the slot of its record behind the others, and a full buffer is handed on. -/
theorem perform (lz : Lz4) (h : r.Readable ss) (c : Call) :
    ∃ r' ss' new, c.perform lz r = .ok (r', r.switch.record c) ∧ r'.Readable ss' ∧
      r'.switch = r.switch.next c ∧ (c.flushed r).toList.flatten ++ ss' = ss ++ new ∧
      List.Forall₂ Record.Agrees new (r.switch.record c).toList := by
  obtain ⟨r₁, hsame, hnext, hbegin⟩ := c.begin_spec h.initialized h.outside
  have h₁ := h.congr hsame.sameTrace
  rw [Call.perform_eq, Call.flushed, hbegin]
  cases r.switch.record c with
  | none => exact ⟨r₁, ss, [], rfl, h₁, hnext, (List.append_nil ss).symm, .nil⟩
  | some e =>
    obtain ⟨b, hb, hlaid⟩ := h₁.laid.append h₁.room e.write
    have happend : appendRecord r₁ e = .ok ({ r₁ with thread.buffer := b }, some e) := by
      rw [appendRecord, hb]
    have hunpadded : ∀ i, (b.memAccesses i).Unpadded :=
      TraceBuffer.forall_append h₁.unpadded (fun s ↦ e.unpadded_write) hb
    have hnew : List.Forall₂ Record.Agrees [e.write (r₁.thread.buffer.memAccesses ss.length)]
        [e] := .cons ((h₁.unpadded ss.length).agrees e) .nil
    rw [Option.elim_some, happend]
    dsimp only
    by_cases hfull : b.atLast = true
    · obtain ⟨r₂, hflush, hlive, hswitch, hempty, -⟩ := memaEmptyBuffer_live lz
        (r := { r₁ with thread.buffer := b }) h₁.initialized h₁.outside hlaid h₁.sink
      have hbuffer : r₂.thread.buffer = b.reset := buffer_memaEmptyBuffer hflush
      rw [if_pos hfull, if_pos hfull, hflush, hlaid.held_eq]
      refine ⟨r₂, [], _, rfl, ⟨hlive.initialized, hlive.outside, hlive.sink, hempty, by decide,
        ?_⟩, hswitch.trans hnext, ?_, hnew⟩
      · rw [hbuffer]
        exact hunpadded
      · rw [Option.toList_some, List.flatten_singleton, List.append_nil]
    · rw [if_neg hfull, if_neg hfull]
      refine ⟨{ r₁ with thread.buffer := b }, _, _, rfl, ⟨h₁.initialized, h₁.outside, h₁.sink,
        hlaid, ?_, hunpadded⟩, hnext, rfl, hnew⟩
      have hlen := mt hlaid.atLast_iff.mpr hfull
      have hroom := h₁.room
      rw [List.length_append, List.length_singleton] at hlen ⊢
      omega

/-- In every run the flushed slots and the held ones agree with the records, in order. -/
theorem run (lz : Lz4) (h : r.Readable ss) (cs : List Call) :
    ∃ r' ss' new, runCalls lz r cs = .ok (r', r.switch.records cs) ∧ r'.Readable ss' ∧
      (flushedArrays lz r cs).flatten ++ ss' = ss ++ new ∧
      List.Forall₂ Record.Agrees new (r.switch.records cs) := by
  induction cs generalizing r ss with
  | nil => exact ⟨r, ss, [], rfl, h, (List.append_nil ss).symm, .nil⟩
  | cons c cs ih =>
    obtain ⟨r₁, ss₁, new₁, hperform, h₁, hnext, hslots₁, hnew₁⟩ := h.perform lz c
    obtain ⟨r₂, ss₂, new₂, hrun, h₂, hslots₂, hnew₂⟩ := ih h₁
    rw [hnext] at hrun hnew₂
    rw [runCalls, flushedArrays, hperform, Switch.records_cons]
    refine ⟨r₂, ss₂, new₁ ++ new₂, ?_, h₂, ?_, List.rel_append hnew₁ hnew₂⟩
    · simp only [hrun]
    · dsimp only
      rw [List.flatten_append, List.append_assoc, hslots₂, ← List.append_assoc, hslots₁,
        List.append_assoc]

end Runtime.Readable

/-! ### The main result -/

theorem buffer_memaInitialize (start : Startup) :
    (memaInitialize start).thread.buffer = TraceBuffer.fresh.setUp := by
  by_cases hname : start.flags.filename.isSome = true
  · obtain ⟨r, hr, hrun⟩ := memaInitialize_opened hname
    rw [hrun]
    exact hr.buffer
  · rw [memaInitialize, if_pos (by simpa using hname)]

theorem memaInitialize_readable (start : Startup) : (memaInitialize start).Readable [] := by
  obtain ⟨hinit, hout, -, hsink⟩ := memaInitialize_live start
  have hbuffer := buffer_memaInitialize start
  refine ⟨hinit, hout, hsink, ?_, by decide, ?_⟩
  · rw [hbuffer]
    exact TraceBuffer.laid_setUp _
  · intro i
    rw [hbuffer]
    exact Slot.unpadded_zero

/-- While everything is traced, every sequence of records is logged by some calls. -/
theorem Switch.exists_records {s : Switch} (hmf : s.monitorFunc = false)
    (hon : s.flags.disable = false) (hname : s.flags.filename.isNone = false)
    (es : List Logged) : ∃ cs, s.records cs = es := by
  have hentry (addr : UInt64) : s.entry addr = s := by simp [Switch.entry, Switch.monitors, hmf]
  have hexit (addr : UInt64) : s.exit addr = s := by simp [Switch.exit, Switch.monitors, hmf]
  induction es with
  | nil => exact ⟨[], rfl⟩
  | cons e es ih =>
    obtain ⟨cs, rfl⟩ := ih
    have hcall : ∃ c, s.record c = some e ∧ s.next c = s := by
      cases e with
      | access time pc bp sp addr isWrite =>
        exact ⟨.access addr 0 isWrite ⟨time, pc, bp, sp⟩, by simp [Switch.record, hon, hname], rfl⟩
      | funcEnter addr =>
        exact ⟨.functionEntry addr, by simp [Switch.record, hentry, hon], hentry addr⟩
      | funcExit addr =>
        exact ⟨.functionExit addr, by simp [Switch.record, hexit, hon], hexit addr⟩
    obtain ⟨c, hrecord, hnext⟩ := hcall
    refine ⟨c :: cs, ?_⟩
    rw [Switch.records_cons, hrecord, hnext]
    rfl

/-- In every run, every slot of every array handed to a flush, the finalizer's included, reads
through the viewer's overlays as the record that was logged into it; and the runs log every
sequence of records. -/
theorem flushed_slots_agree (lz : Lz4) :
    (∀ start cs, ∃ r es last, runCalls lz (memaInitialize start) cs = .ok (r, es) ∧
      r.thread.buffer.held = some last ∧
      List.Forall₂ Record.Agrees
        (flushedArrays lz (memaInitialize start) cs ++ [last]).flatten es) ∧
    ∀ es, ∃ start cs r, runCalls lz (memaInitialize start) cs = .ok (r, es) := by
  constructor
  · intro start cs
    obtain ⟨r, last, new, hrun, h, hslots, hnew⟩ := (memaInitialize_readable start).run lz cs
    refine ⟨r, _, last, hrun, h.laid.held_eq, ?_⟩
    rw [List.flatten_append, List.flatten_singleton, hslots]
    exact hnew
  · intro es
    obtain ⟨cs, rfl⟩ := (memaInitialize Startup.toFile).switch.exists_records rfl rfl rfl es
    obtain ⟨r, hrun, -⟩ := (memaInitialize_live Startup.toFile).run lz cs
    exact ⟨Startup.toFile, cs, r, hrun⟩

end Mema
