import Mema.Runtime.Monitoring
import Mema.Runtime.Threads

/-!
# Calls after the finalizer

`mema_rtl.cpp:199–280,357–390`: the finalizer closes the output descriptor, but the variable
that holds it, the switch and the buffer stay as they are. Later hooks fill the buffer again,
and the next flush writes to the closed descriptor.
-/

namespace Mema

open Bytes Framing

/-! ### The writes of a call -/

/-- What a flush passes to `write`, in order. -/
def flushWrites (lz : Lz4) (r : Runtime) : List (List UInt8) :=
  match beginFlush lz r with
  | .ok (_, some job) => [leBytes 8 job.payload.length, job.payload]
  | _ => []

/-- What a call passes to `write`: nothing, or the writes of the flush at a full buffer. -/
def Call.writes (lz : Lz4) (r : Runtime) (c : Call) : List (List UInt8) :=
  match c.begin r with
  | .ok (r, some _) => if r.thread.buffer.atLast then flushWrites lz r else []
  | _ => []

/-- A flush does to the file what its writes do. -/
theorem out_memaEmptyBuffer {lz : Lz4} {r r' : Runtime} (h : memaEmptyBuffer lz r = .ok r') :
    r'.shared.out = (flushWrites lz r).foldl (fun f bs ↦ (f.write bs).1) r.shared.out := by
  rw [memaEmptyBuffer_eq] at h
  unfold flushWrites
  cases hb : beginFlush lz r with
  | error f =>
    rw [hb] at h
    cases h
  | ok p =>
    obtain ⟨r₁, job⟩ := p
    rw [hb] at h
    have hshared : r₁.shared = r.shared := by
      unfold beginFlush at hb
      split at hb
      · cases hb
        rfl
      · split at hb
        · cases hb
        · cases hb
          rfl
    cases job with
    | none =>
      cases h
      rw [hshared]
      rfl
    | some job =>
      dsimp only at h
      rw [hshared] at h
      unfold writePayload at h
      dsimp only at h
      split at h
      · cases h
      · next shared hs =>
        cases h
        split at hs
        · split at hs
          · cases hs
            rfl
          · cases hs
        · cases hs
          rfl

/-- In a run of calls none writes to a closed file, and no write-length assertion fails. -/
structure NoWriteAfterClose (lz : Lz4) (r : Runtime) (cs : List Call) : Prop where
  silent : ∀ p c q, cs = p ++ c :: q → ∀ r' es, runCalls lz r p = .ok (r', es) →
    r'.shared.out.isOpen = false → c.writes lz r' = []
  asserts : runCalls lz r cs ≠ .error .assertion

/-! ### A finalised thread -/

/-- The finalizer has run, and since then the buffer has been filled with `n` records. -/
structure Runtime.Finalized (r : Runtime) (n : Nat) : Prop where
  initialized : r.shared.memaInitialized = true
  outside : r.thread.insideMema = false
  closed : r.shared.memaccessFd ≠ -1 → r.shared.out.isOpen = false
  held : ∃ ss, r.thread.buffer.Laid ss ∧ ss.length = n

/-- The finalizer leaves an empty buffer, and closes the file if there is one. -/
theorem Runtime.Live.finalize {r : Runtime} (h : r.Live) (lz : Lz4) :
    ∃ r', memaFinalize lz r = .ok r' ∧ r'.Finalized 0 ∧ r'.switch = r.switch ∧
      r'.shared.memaccessFd = r.shared.memaccessFd := by
  obtain ⟨ss, hlaid, -⟩ := h.room
  obtain ⟨r', hflush, hlive, hswitch, hempty, hfd⟩ := memaEmptyBuffer_live lz h.initialized
    h.outside hlaid h.sink
  rw [memaFinalize, hflush]
  by_cases hnone : r'.shared.memaccessFd = -1
  · refine ⟨r', if_neg (not_not_intro hnone), ?_, hswitch, hfd⟩
    exact ⟨hlive.initialized, hlive.outside, fun hne ↦ absurd hnone hne, [], hempty, rfl⟩
  · refine ⟨{ r' with shared.out.isOpen := false }, if_pos hnone, ?_, hswitch, hfd⟩
    exact ⟨hlive.initialized, hlive.outside, fun _ ↦ rfl, [], hempty, rfl⟩

namespace Runtime.Finalized

variable {lz : Lz4} {r : Runtime} {n : Nat}

/-- Whatever keeps everything but the switch keeps a finalised thread. -/
theorem congr (h : r.Finalized n) {r' : Runtime} (hs : r.SameTrace r') : r'.Finalized n := by
  refine ⟨hs.initialized.trans h.initialized, hs.outside.trans h.outside, ?_, ?_⟩
  · rw [hs.fd, hs.out]
    exact h.closed
  · rw [hs.buffer]
    exact h.held

/-- Up to the flush that may follow, a call appends what the switch decides. -/
theorem begin (h : r.Finalized n) (hroom : n < flushSize) (c : Call) :
    ∃ r', c.begin r = .ok (r', r.switch.record c) ∧
      r'.Finalized (n + (r.switch.record c).toList.length) ∧ r'.switch = r.switch.next c ∧
      r'.shared.memaccessFd = r.shared.memaccessFd := by
  obtain ⟨r₁, hsame, hnext, hbegin⟩ := c.begin_spec h.initialized h.outside
  have h₁ := h.congr hsame.sameTrace
  rw [hbegin]
  cases r.switch.record c with
  | none => exact ⟨r₁, rfl, h₁, hnext, hsame.sameTrace.fd⟩
  | some e =>
    obtain ⟨ss, hlaid, hlen⟩ := h₁.held
    obtain ⟨b, hb, hlaid'⟩ := hlaid.append (by omega) e.write
    refine ⟨{ r₁ with thread.buffer := b }, ?_, ?_, hnext, hsame.sameTrace.fd⟩
    · rw [Option.elim_some, appendRecord, hb]
    · refine ⟨h₁.initialized, h₁.outside, h₁.closed, _, hlaid', ?_⟩
      rw [List.length_append, hlen]
      rfl

/-- Without a file, or while the buffer does not fill up, a call writes nothing. -/
theorem perform (lz : Lz4) (h : r.Finalized n) (hroom : n < flushSize) (c : Call)
    (hsafe : r.shared.memaccessFd = -1 ∨ n + (r.switch.record c).toList.length < flushSize) :
    ∃ r' n', c.perform lz r = .ok (r', r.switch.record c) ∧ c.writes lz r = [] ∧
      r'.Finalized n' ∧ n' < flushSize ∧
      (r.shared.memaccessFd ≠ -1 → n' = n + (r.switch.record c).toList.length) ∧
      r'.switch = r.switch.next c ∧ r'.shared.memaccessFd = r.shared.memaccessFd := by
  obtain ⟨r₁, hbegin, hf, hs, hfd⟩ := h.begin hroom c
  obtain ⟨ss, hlaid, hlen⟩ := hf.held
  rw [Call.perform_eq, Call.writes, hbegin]
  cases hrec : r.switch.record c with
  | none =>
    rw [hrec] at hf
    exact ⟨r₁, n, rfl, rfl, hf, hroom, fun _ ↦ rfl, hs, hfd⟩
  | some e =>
    rw [hrec] at hf hlen hsafe
    rw [Option.toList_some, List.length_singleton] at hf hlen hsafe
    by_cases hfull : r₁.thread.buffer.atLast = true
    · -- The buffer is full, so there is no file and the flush only resets it.
      have hlast := hlaid.atLast_iff.mp hfull
      have hnone : r₁.shared.memaccessFd = -1 := by
        rw [hfd]
        exact hsafe.resolve_right (by omega)
      have hflush : memaEmptyBuffer lz r₁ =
          .ok { r₁ with thread.buffer := r₁.thread.buffer.reset } := if_pos hnone
      have hwrites : flushWrites lz r₁ = [] := by
        rw [flushWrites, beginFlush, if_pos hnone]
      refine ⟨{ r₁ with thread.buffer := r₁.thread.buffer.reset }, 0, ?_, ?_, ?_, by decide,
        fun hne ↦ absurd (hfd.symm.trans hnone) hne, hs, hfd⟩
      · simp only [if_pos hfull, hflush]
        rfl
      · simp only [if_pos hfull, hwrites]
      · exact ⟨hf.initialized, hf.outside, hf.closed, [], hlaid.reset, rfl⟩
    · have hroom' : n + 1 < flushSize := by
        have hne := mt hlaid.atLast_iff.mpr hfull
        omega
      exact ⟨r₁, n + 1, if_neg hfull, if_neg hfull, hf, hroom', fun _ ↦ rfl, hs, hfd⟩

/-- Without a file, or while the buffer does not fill up, a run writes nothing. -/
theorem run (lz : Lz4) (h : r.Finalized n) (hroom : n < flushSize) (cs : List Call)
    (hsafe : r.shared.memaccessFd = -1 ∨ n + (r.switch.records cs).length < flushSize) :
    ∃ r' n', runCalls lz r cs = .ok (r', r.switch.records cs) ∧ r'.Finalized n' ∧
      n' < flushSize ∧ (r.shared.memaccessFd ≠ -1 → n' = n + (r.switch.records cs).length) ∧
      r'.switch = r.switch.after cs ∧ r'.shared.memaccessFd = r.shared.memaccessFd := by
  induction cs generalizing r n with
  | nil => exact ⟨r, n, rfl, h, hroom, fun _ ↦ rfl, rfl, rfl⟩
  | cons c cs ih =>
    rw [Switch.records_cons, List.length_append] at hsafe ⊢
    have hstep := hsafe.imp_right fun hlt ↦
      show n + (r.switch.record c).toList.length < flushSize by omega
    obtain ⟨r₁, n₁, hr₁, -, hf₁, hroom₁, heq₁, hs₁, hfd₁⟩ := h.perform lz hroom c hstep
    have hrest : r₁.shared.memaccessFd = -1 ∨
        n₁ + (r₁.switch.records cs).length < flushSize := by
      rw [hs₁, hfd₁]
      by_cases hnone : r.shared.memaccessFd = -1
      · exact .inl hnone
      · have hlt := hsafe.resolve_left hnone
        have heq := heq₁ hnone
        exact .inr (by omega)
    obtain ⟨r₂, n₂, hr₂, hf₂, hroom₂, heq₂, hs₂, hfd₂⟩ := ih hf₁ hroom₁ hrest
    rw [hs₁] at hr₂ heq₂ hs₂
    rw [hfd₁] at heq₂
    refine ⟨r₂, n₂, ?_, hf₂, hroom₂, ?_, hs₂, hfd₂.trans hfd₁⟩
    · rw [runCalls, hr₁]
      simp only [hr₂]
    · intro hne
      rw [heq₂ hne, heq₁ hne, Nat.add_assoc]

/-- The record that fills the buffer is written, although the file is closed. -/
theorem writes_full (h : r.Finalized n) (hfull : n + 1 = flushSize)
    (hfd : r.shared.memaccessFd ≠ -1) {c : Call} (hrec : (r.switch.record c).isSome = true) :
    c.writes lz r ≠ [] := by
  obtain ⟨r₁, hbegin, hf, -, hfd₁⟩ := h.begin (by omega) c
  obtain ⟨ss, hlaid, hlen⟩ := hf.held
  obtain ⟨e, he⟩ := Option.isSome_iff_exists.mp hrec
  rw [he] at hbegin hlen
  have hlast : r₁.thread.buffer.atLast = true := by
    rw [hlaid.atLast_iff, hlen]
    exact hfull
  rw [Call.writes, hbegin]
  dsimp only
  rw [if_pos hlast, flushWrites, beginFlush, if_neg (by rw [hfd₁]; exact hfd), hlaid.held_eq]
  exact List.cons_ne_nil _ _

end Runtime.Finalized

/-- A call that logs the record after the first `k`. -/
theorem Switch.exists_record (s : Switch) (cs : List Call) {k : Nat}
    (h : k < (s.records cs).length) :
    ∃ p c q, cs = p ++ c :: q ∧ (s.records p).length = k ∧
      ((s.after p).record c).isSome = true := by
  induction cs generalizing s k with
  | nil => exact absurd h (Nat.not_lt_zero k)
  | cons c cs ih =>
    rw [Switch.records_cons, List.length_append] at h
    cases hrec : s.record c with
    | none =>
      rw [hrec, Option.toList_none, List.length_nil, Nat.zero_add] at h
      obtain ⟨p, d, q, rfl, hlen, hd⟩ := ih (s.next c) h
      refine ⟨c :: p, d, q, rfl, ?_, hd⟩
      rw [Switch.records_cons, hrec]
      exact hlen
    | some e =>
      rw [hrec, Option.toList_some, List.length_singleton] at h
      cases k with
      | zero =>
        refine ⟨[], c, cs, rfl, rfl, ?_⟩
        show (s.record c).isSome = true
        rw [hrec]
        rfl
      | succ k =>
        obtain ⟨p, d, q, rfl, hlen, hd⟩ := ih (s.next c) (k := k) (by omega)
        refine ⟨c :: p, d, q, rfl, ?_, hd⟩
        rw [Switch.records_cons, hrec, Option.toList_some, List.length_append,
          List.length_singleton, hlen]
        omega

/-! ### The runs -/

/-- Initialise, take calls, finalise. -/
def runToFinalize (lz : Lz4) (start : Startup) (cs : List Call) : Except Fault Runtime :=
  match runCalls lz (memaInitialize start) cs with
  | .error f => .error f
  | .ok (r, _) => memaFinalize lz r

theorem runToFinalize_finalized (lz : Lz4) (start : Startup) (cs : List Call) :
    ∃ r, runToFinalize lz start cs = .ok r ∧ r.Finalized 0 := by
  obtain ⟨r, hrun, hlive, -⟩ := (memaInitialize_live start).run lz cs
  obtain ⟨r', hfin, hf, -, -⟩ := hlive.finalize lz
  refine ⟨r', ?_, hf⟩
  rw [runToFinalize, hrun]
  exact hfin

theorem Runtime.Finalized.noWriteAfterClose_iff (lz : Lz4) {r : Runtime} (h : r.Finalized 0)
    (cs : List Call) :
    NoWriteAfterClose lz r cs ↔
      r.shared.memaccessFd = -1 ∨ (r.switch.records cs).length < flushSize := by
  constructor
  · intro hno
    by_contra hbad
    rw [not_or, Nat.not_lt] at hbad
    obtain ⟨hfd, hmany⟩ := hbad
    have hpos : 0 < flushSize := by decide
    obtain ⟨p, c, q, hcs, hlen, hrec⟩ := r.switch.exists_record cs (k := flushSize - 1)
      (by omega)
    obtain ⟨r₁, n₁, hr₁, hf₁, -, heq₁, hs₁, hfd₁⟩ := h.run lz hpos p (.inr (by omega))
    have hn : n₁ + 1 = flushSize := by
      have heq := heq₁ hfd
      omega
    rw [← hs₁] at hrec
    rw [← hfd₁] at hfd
    have hclosed := hf₁.closed hfd
    exact hf₁.writes_full hn hfd hrec (hno.silent p c q hcs r₁ _ hr₁ hclosed)
  · intro hsafe
    have hpos : 0 < flushSize := by decide
    rw [← Nat.zero_add (r.switch.records cs).length] at hsafe
    constructor
    · rintro p c q rfl r' es hr' -
      rw [Switch.records_append, Switch.records_cons] at hsafe
      simp only [List.length_append] at hsafe
      obtain ⟨r₁, n₁, hr₁, hf₁, hroom₁, heq₁, hs₁, hfd₁⟩ := h.run lz hpos p
        (hsafe.imp_right fun hlt ↦ by omega)
      cases hr₁.symm.trans hr'
      have hstep : r'.shared.memaccessFd = -1 ∨
          n₁ + (r'.switch.record c).toList.length < flushSize := by
        rw [hfd₁, hs₁]
        by_cases hnone : r.shared.memaccessFd = -1
        · exact .inl hnone
        · have hlt := hsafe.resolve_left hnone
          have heq := heq₁ hnone
          exact .inr (by omega)
      obtain ⟨r₂, n₂, -, hwrites, -⟩ := hf₁.perform lz hroom₁ c hstep
      exact hwrites
    · obtain ⟨r₁, n₁, hr₁, -⟩ := h.run lz hpos cs hsafe
      rw [hr₁]
      intro heq
      cases heq

/-- For every run that goes on after the finalizer, nothing is written to the closed file
exactly when no file was opened or fewer records are logged than fill the buffer. -/
theorem no_write_after_close_iff (lz : Lz4) (start : Startup) (before : List Call) :
    ∃ r, runToFinalize lz start before = .ok r ∧ ∀ cs, NoWriteAfterClose lz r cs ↔
      r.shared.memaccessFd = -1 ∨ (r.switch.records cs).length < flushSize := by
  obtain ⟨r, hrun, hf⟩ := runToFinalize_finalized lz start before
  exact ⟨r, hrun, hf.noWriteAfterClose_iff lz⟩

/-- While everything is traced, every entry is logged. -/
theorem Switch.records_replicate_entry {s : Switch} (hmf : s.monitorFunc = false)
    (hon : s.flags.disable = false) (addr : UInt64) (n : Nat) :
    s.records (List.replicate n (.functionEntry addr)) =
      List.replicate n (.funcEnter addr) := by
  have hentry : s.entry addr = s := by simp [Switch.entry, Switch.monitors, hmf]
  have hrec : s.record (.functionEntry addr) = some (.funcEnter addr) := by
    simp [Switch.record, hentry, hon]
  have hnext : s.next (.functionEntry addr) = s := hentry
  induction n with
  | zero => rfl
  | succ n ih =>
    rw [List.replicate_succ, Switch.records_cons, hrec, hnext, ih, List.replicate_succ]
    rfl

/-- A further buffer of function entries after the finalizer. -/
theorem writes_after_close : ∃ r, runToFinalize id Startup.toFile [] = .ok r ∧
    ¬ NoWriteAfterClose id r (List.replicate flushSize (.functionEntry 16)) := by
  obtain ⟨r, hfin, hf, hswitch, hfd⟩ := (memaInitialize_live Startup.toFile).finalize id
  have hmf : r.switch.monitorFunc = false := by
    rw [hswitch]
    rfl
  have hon : r.switch.flags.disable = false := by
    rw [hswitch]
    rfl
  refine ⟨r, hfin, ?_⟩
  rw [hf.noWriteAfterClose_iff, Switch.records_replicate_entry hmf hon, List.length_replicate]
  rintro (hnone | hlt)
  · rw [hfd] at hnone
    exact absurd hnone (by decide)
  · exact absurd hlt (Nat.lt_irrefl _)

end Mema
