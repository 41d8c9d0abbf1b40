import Mema.Trace.OneTracer

/-!
# Tracing with several threads

Whatever the interleaving, the file keeps every record when only the first thread calls hooks
and either finalises itself or holds nothing when another thread does.
-/

namespace Mema

open Bytes Framing Chunks

section Steps

variable {lz : Lz4} {start : Startup} {header : List UInt8} {p : Process} {log : Log Slot}
  {out : OutFile}

namespace Process

/-! ### One step, and a schedule -/

/-- What a step does to a process in which only the first thread logs. -/
inductive Effect (lz : Lz4) (start : Startup) (header : List UInt8) (p : Process) (log : Log Slot) :
    ThreadAction → Except Fault Process → Prop
  | crashed (t : Nat) (c : Call) (ht : t ≠ 0) :
    Effect lz start header p log (.call t c) (.error .nullPointer)
  | logged (c : Call) (p' : Process) (log' : Log Slot) (out' : OutFile)
    (h : p'.OneTracer lz start header log' out')
    (hlength : (p'.logged 0).length = (p.logged 0).length + 1) :
    Effect lz start header p log (.call 0 c) (.ok p')
  | silent (a : ThreadAction) (p' : Process) (log' : Log Slot) (out' : OutFile)
    (hcall : ∀ t c, a ≠ .call t c) (hfinalize : ∀ t, a ≠ .finalize t)
    (h : p'.OneTracer lz start header log' out') (hlogged : p'.logged = p.logged) :
    Effect lz start header p log a (.ok p')
  | finished (t : Nat) (p' : Process) (h : p'.Finished lz start header log t)
    (hlogged : p'.logged = p.logged) :
    Effect lz start header p log (.finalize t) (.ok p')

private theorem running_of_canRun {t : Nat} (h : p.canRun t = true) : p.standing t = .running := by
  rw [canRun, Bool.and_eq_true, Bool.and_eq_true] at h
  have hrunning := h.1.2
  cases hs : p.standing t with
  | running => rfl
  | flushing stage job => rw [hs] at hrunning; cases hrunning
  | ended => rw [hs] at hrunning; cases hrunning

/-- When the others have ended and one thread runs, none is flushing. -/
private theorem OneTracer.idle_of_ended (h : p.OneTracer lz start header log out) {t : Nat}
    (hrun : p.standing t = .running)
    (hended : (List.range p.created).all (fun u ↦ u == t || (p.standing u).isEnded) = true) :
    ∀ u stage job, p.standing u ≠ .flushing stage job := by
  intro u stage job hs
  by_cases hu : u = 0
  · subst hu
    have hzero := List.all_eq_true.mp hended 0 (List.mem_range.mpr h.created)
    rw [Bool.or_eq_true, beq_iff_eq, hs] at hzero
    rcases hzero with ht | he
    · rw [← ht, hs] at hrun
      cases hrun
    · cases he
  · exact (h.others u hu).2.2 stage job hs

/-- The steps of a process in which only the first thread logs. -/
theorem OneTracer.step_effect (hstart : start.Enabled) (h : p.OneTracer lz start header log out)
    {a : ThreadAction} {r : Except Fault Process} (hr : p.step lz a = some r) :
    Effect lz start header p log a r := by
  cases a with
  | create =>
    rw [Process.step, h.going] at hr
    cases hr
    exact .silent _ _ log out (by simp) (by simp) h.create rfl
  | call t c =>
    rw [Process.step, Option.ite_none_right_eq_some, Bool.and_eq_true] at hr
    obtain ⟨⟨hrun, hhook⟩, hr⟩ := hr
    cases hr
    by_cases ht : t = 0
    · subst ht
      obtain ⟨p', log', e, hcall, h', hlogged⟩ :=
        h.call_first hstart (running_of_canRun hrun) (of_decide_eq_true hhook)
      rw [hcall]
      apply Effect.logged c p' log' out h'
      rw [hlogged, List.length_append, List.length_singleton]
    · rw [h.call_other hstart ht (of_decide_eq_true hhook)]
      exact .crashed t c ht
  | flush t =>
    rw [Process.step] at hr
    by_cases ht : t = 0
    · subst ht
      obtain ⟨p', log', out', rfl, h', hlogged⟩ := h.flush_first hr
      exact .silent _ _ log' out' (by simp) (by simp) h' hlogged
    · rw [h.flush_other ht] at hr
      cases hr
  | finish t =>
    rw [Process.step, Option.ite_none_right_eq_some] at hr
    obtain ⟨hrun, hr⟩ := hr
    cases hr
    exact .silent _ _ log out (by simp) (by simp) (h.finish (running_of_canRun hrun)) rfl
  | finalize t =>
    rw [Process.step, Option.ite_none_right_eq_some, Bool.and_eq_true] at hr
    obtain ⟨⟨hrun, hended⟩, hr⟩ := hr
    obtain ⟨p', hfinal, hfinished, hlogged⟩ :=
      h.finalize (h.idle_of_ended (running_of_canRun hrun) hended)
    rw [hfinal] at hr
    cases hr
    exact .finished t p' hfinished hlogged

/-- No thread takes a step after finalisation. -/
theorem Finished.step_none {t : Nat} (h : p.Finished lz start header log t) (a : ThreadAction) :
    p.step lz a = none := by
  have hstop (u : Nat) : p.canRun u = false := by
    rw [canRun, h.finalized]
    exact Bool.and_false _
  cases a with
  | create => rw [Process.step, h.finalized, if_pos rfl]
  | call u c =>
    rw [Process.step, hstop]
    rfl
  | flush u =>
    have hidle := h.idle u
    rw [Process.step]
    cases hs : p.standing u with
    | running => simp only [Process.flush, hs]
    | ended => simp only [Process.flush, hs]
    | flushing stage job => exact absurd hs (hidle stage job)
  | finish u =>
    rw [Process.step, hstop]
    rfl
  | finalize u =>
    rw [Process.step, hstop]
    rfl

end Process

end Steps

/-- Whether a step is a call of a hook. -/
def ThreadAction.isCall : ThreadAction → Bool
  | .call _ _ => true
  | _ => false

namespace Process

section Runs

variable {lz : Lz4} {start : Startup} {header : List UInt8} {p : Process} {log : Log Slot}
  {out : OutFile}

/-- How a schedule ends when `n` records were logged before it. -/
inductive Ends (lz : Lz4) (start : Startup) (header : List UInt8) (n : Nat) :
    List ThreadAction → Except Fault Process → Prop
  | crashed (as : List ThreadAction) (f : Fault) (t : Nat) (c : Call) (ht : t ≠ 0)
    (hmem : .call t c ∈ as) : Ends lz start header n as (.error f)
  | traced (as : List ThreadAction) (p : Process) (log : Log Slot) (out : OutFile)
    (hcalls : ∀ t c, .call t c ∈ as → t = 0) (hgoing : ∀ t, .finalize t ∉ as)
    (h : p.OneTracer lz start header log out) : Ends lz start header n as (.ok p)
  | finished (as : List ThreadAction) (p : Process) (log : Log Slot) (t : Nat)
    (hcalls : ∀ t c, .call t c ∈ as → t = 0) (hmem : .finalize t ∈ as)
    (honly : ∀ u, .finalize u ∈ as → u = t) (h : p.Finished lz start header log t)
    (hlength : (p.logged 0).length = n + as.countP ThreadAction.isCall) :
    Ends lz start header n as (.ok p)

/-- A step that does not finalise goes before a schedule. -/
theorem Ends.cons {n : Nat} {as : List ThreadAction} {r : Except Fault Process} {a : ThreadAction}
    (hcall : ∀ t c, a = .call t c → t = 0) (hfinalize : ∀ t, a ≠ .finalize t)
    (h : Ends lz start header (n + (if a.isCall then 1 else 0)) as r) :
    Ends lz start header n (a :: as) r := by
  have hcalls (hrest : ∀ t c, .call t c ∈ as → t = 0) : ∀ t c, .call t c ∈ a :: as → t = 0 := by
    intro t c hmem
    rcases List.mem_cons.mp hmem with he | hmem
    · exact hcall t c he.symm
    · exact hrest t c hmem
  have hlater {t : Nat} (hmem : .finalize t ∈ a :: as) : .finalize t ∈ as := by
    rcases List.mem_cons.mp hmem with he | hmem
    · exact absurd he.symm (hfinalize t)
    · exact hmem
  cases h with
  | crashed f t c ht hmem => exact .crashed _ f t c ht (List.mem_cons_of_mem a hmem)
  | traced p log out hrest hgoing h =>
    exact .traced _ p log out (hcalls hrest) (fun t hmem ↦ hgoing t (hlater hmem)) h
  | finished p log t hrest hmem honly h hlength =>
    apply Ends.finished _ p log t (hcalls hrest) (List.mem_cons_of_mem a hmem)
      (fun u hu ↦ honly u (hlater hu)) h
    rw [hlength, List.countP_cons]
    omega

/-- How a schedule ends that begins with only the first thread logging. -/
theorem OneTracer.run_ends (hstart : start.Enabled) (h : p.OneTracer lz start header log out)
    {as : List ThreadAction} {r : Except Fault Process}
    (hr : (machine lz start).run as p = some r) :
    Ends lz start header (p.logged 0).length as r := by
  induction as generalizing p log out with
  | nil =>
    cases hr
    exact .traced [] p log out (by simp) (by simp) h
  | cons a as ih =>
    rw [Machine.run] at hr
    cases hs : (machine lz start).step a p with
    | none =>
      rw [hs] at hr
      cases hr
    | some r' =>
      rw [hs] at hr
      cases h.step_effect hstart hs with
      | crashed t c ht =>
        cases hr
        exact .crashed _ _ t c ht (by simp)
      | logged c p' log' out' h' hlength =>
        have hrest := ih h' hr
        rw [hlength] at hrest
        exact hrest.cons (fun t _ he ↦ by cases he; rfl) (by simp)
      | silent _ p' log' out' hcall hfinalize h' hlogged =>
        have hrest := ih h' hr
        have hnone : a.isCall = false := by
          cases a with
          | call t c => exact absurd rfl (hcall t c)
          | _ => rfl
        rw [hlogged] at hrest
        apply Ends.cons (fun t c he ↦ absurd he (hcall t c)) hfinalize
        rw [hnone]
        exact hrest
      | finished t p' hfinished hlogged =>
        cases as with
        | nil =>
          cases hr
          apply Ends.finished _ p' log t (by simp) (by simp) (by simp) hfinished
          rw [hlogged]
          rfl
        | cons b as =>
          have hnone : (machine lz start).step b p' = none := hfinished.step_none b
          dsimp only at hr
          rw [Machine.run, hnone] at hr
          cases hr

end Runs

end Process

/-! ### The main result -/

/-- The pointers are set, in order, and inside the array. -/
def TraceBuffer.Pointing (b : TraceBuffer) : Prop :=
  ∃ f n l, b.firstMemAccess = some f ∧ b.nextFreeMemAccess = some n ∧
    b.lastMemAccess = some l ∧ f ≤ n ∧ n ≤ l ∧ l < memAccessesBufsize

theorem TraceBuffer.Laid.pointing {b : TraceBuffer} {ss : List Slot} (h : b.Laid ss)
    (hroom : ss.length ≤ flushSize) : b.Pointing :=
  ⟨0, ss.length, flushSize, h.first, h.next, h.last, Nat.zero_le _, hroom, by decide⟩

namespace Process

/-- The records of thread `t` in the file, frame by frame. -/
def fileRecords (p : Process) (t : Nat) : List Slot :=
  (p.flushed.filter fun frame ↦ frame.1 == t).flatMap Prod.snd

/-- Recording threads have their pointers in their own buffer; outside the lock the file is the
header and whole frames; and a finalised file has the records of each thread in its order. -/
structure KeepsAll (lz : Lz4) (start : Startup) (header : List UInt8) (p : Process) : Prop where
  pointers : ∀ t, p.logged t ≠ [] → (p.thread t).buffer.Pointing
  frames : p.writeMutex = none → p.shared.out.bytes =
    header ++ framesOf lz start.flags.compression (p.flushed.map Prod.snd)
  records : p.finalized = true → ∀ t,
    (p.fileRecords t).map Slot.readback = (p.logged t).map some

/-- The schedule runs without a fault and keeps every record. -/
def TracesAll (lz : Lz4) (start : Startup) (as : List ThreadAction) : Prop :=
  ∃ p, (machine lz start).run as (started start) = some (.ok p) ∧
    p.KeepsAll lz start (memaInitialize start).shared.out.bytes

/-- Hooks run on the first thread only, and so does the finalizer unless that thread holds
nothing. -/
structure FirstThreadOnly (as : List ThreadAction) : Prop where
  calls : ∀ t c, .call t c ∈ as → t = 0
  finalize : ∀ t, .finalize t ∈ as → t = 0 ∨ flushSize ∣ as.countP ThreadAction.isCall

section Main

variable {lz : Lz4} {start : Startup} {header : List UInt8} {p : Process} {log : Log Slot}
  {out : OutFile}

/-- Set-up leaves the first thread tracing and the others without a buffer. -/
theorem started_oneTracer (lz : Lz4) (hstart : start.Enabled) :
    (started start).OneTracer lz start (memaInitialize start).shared.out.bytes Log.empty
      (memaInitialize start).shared.out := by
  have htraced := memaInitialize_traced lz hstart.filename hstart.fd
  have hsettings := memaInitialize_settings hstart
  have hthread : (started start).thread 0 = (memaInitialize start).thread := by
    rw [thread_started, Function.update_self]
  refine ⟨Nat.one_pos, rfl, htraced.tracing.initialized, hsettings.1, htraced.tracing.fd, ?_, ?_,
    by simp [Log.empty], ?_, ?_⟩
  · rw [hthread]
    exact hsettings.2
  · intro t ht
    refine ⟨?_, rfl, ?_⟩
    · rw [thread_started, Function.update_of_ne ht]
    · intro stage job hs
      cases hs
  · rw [hthread, ← hsettings.1]
    exact htraced.kept
  · change _ ∧ ((started start).thread 0).insideMema = false ∧ _
    rw [hthread]
    exact ⟨by decide, htraced.tracing.outside, rfl, rfl, rfl⟩

/-- While only the first thread has logged, everything is kept. -/
theorem OneTracer.keepsAll (h : p.OneTracer lz start header log out) :
    p.KeepsAll lz start header := by
  have hbytes : framesOf lz start.flags.compression
      ((log.done.map (Prod.mk 0)).map Prod.snd) = framesOf lz start.flags.compression log.done := by
    rw [List.map_map]
    exact congrArg _ (List.map_id log.done)
  refine ⟨?_, ?_, ?_⟩
  · intro t hlogged
    have ht : t = 0 := by
      by_contra ht
      exact hlogged (h.others t ht).2.1
    subst ht
    exact h.kept.laid.pointing h.room
  · intro hmutex
    by_cases hidle : ∀ stage job, p.standing 0 ≠ .flushing stage job
    · obtain ⟨-, -, hout, -, hflushed⟩ := h.idle hidle
      rw [hout, hflushed, hbytes]
      exact h.kept.bytes
    · simp only [ne_eq, not_forall, not_not] at hidle
      obtain ⟨stage, job, hstanding⟩ := hidle
      have hs := h.standing
      rw [hstanding] at hs
      obtain ⟨-, -, -, hout, howner, hflushed⟩ := hs
      rw [hmutex] at howner
      -- Of the stages only the first is outside the lock.
      cases stage with
      | lock =>
        simp only [FlushStage.written, FlushStage.frames, List.append_nil] at hout hflushed
        rw [hout, hflushed, hbytes]
        exact h.kept.bytes
      | writeLength => cases howner
      | writePayload => cases howner
      | unlock => cases howner
  · intro hfinal
    rw [h.going] at hfinal
    cases hfinal

/-- The first thread's frames in the file, and the last one if it is its own. -/
theorem Finished.fileRecords_first {t : Nat} (h : p.Finished lz start header log t) :
    p.fileRecords 0 = log.done.flatten ++ (if t = 0 then log.pending else []) := by
  have hdone : (log.done.map (Prod.mk 0)).filter (fun frame ↦ frame.1 == 0) =
      log.done.map (Prod.mk 0) := by
    rw [List.filter_eq_self]
    simp
  rw [fileRecords, h.flushed, List.filter_append, hdone, List.flatMap_append, List.flatMap_map]
  by_cases ht : t = 0
  · subst ht
    simp [List.flatMap_id']
  · have hno : (t == 0) = false := beq_eq_false_iff_ne.mpr ht
    simp [hno, ht, List.flatMap_id']

/-- No record of another thread is in the file. -/
theorem Finished.fileRecords_other {t : Nat} (h : p.Finished lz start header log t) {u : Nat}
    (hu : u ≠ 0) : p.fileRecords u = [] := by
  have hdone : (log.done.map (Prod.mk 0)).filter (fun frame ↦ frame.1 == u) = [] := by
    rw [List.filter_eq_nil_iff]
    simp [hu.symm]
  rw [fileRecords, h.flushed, List.filter_append, hdone, List.nil_append]
  by_cases ht : t = u
  · subst ht
    simp [hu]
  · have hno : (t == u) = false := beq_eq_false_iff_ne.mpr ht
    simp [hno]

/-- The file is complete unless the first thread held something that another finaliser left. -/
theorem Finished.keepsAll_iff {t : Nat} (h : p.Finished lz start header log t) :
    p.KeepsAll lz start header ↔ t = 0 ∨ log.pending = [] := by
  have hread := map_readback_of_holds h.holds
  constructor
  · intro hkeeps
    by_cases ht : t = 0
    · exact .inl ht
    · right
      have hrecords := congrArg List.length (hkeeps.records h.finalized 0)
      rw [h.fileRecords_first, if_neg ht, List.append_nil, List.length_map, List.length_map,
        ← h.holds.length_eq, Log.contents, List.length_append] at hrecords
      apply List.eq_nil_of_length_eq_zero
      omega
  · intro hwhole
    refine ⟨?_, fun _ ↦ h.bytes, ?_⟩
    · intro u hlogged
      have hu : u = 0 := by
        by_contra hu
        exact hlogged (h.others u hu)
      subst hu
      obtain ⟨ss, hlaid, hroom⟩ := h.laid
      exact hlaid.pointing (Nat.le_of_lt hroom)
    · intro _ u
      by_cases hu : u = 0
      · subst hu
        have hcontents : p.fileRecords 0 = log.contents := by
          rw [h.fileRecords_first, Log.contents]
          rcases hwhole with ht | hpending
          · rw [if_pos ht]
          · rw [hpending, ite_self]
        rw [hcontents, hread]
      · rw [h.fileRecords_other hu, h.others u hu]
        rfl

/-- The first thread holds nothing when the records logged fill whole blocks. -/
theorem Finished.pending_eq_nil_iff {t : Nat} (h : p.Finished lz start header log t) :
    log.pending = [] ↔ flushSize ∣ (p.logged 0).length := by
  rw [← h.holds.length_eq, Nat.dvd_iff_mod_eq_zero, ← h.filled.length_pending,
    List.length_eq_zero_iff]

end Main

/-- A schedule of any number of threads keeps every record exactly when only the first thread
calls hooks, and finalises unless its records fill whole blocks. -/
theorem tracesAll_iff (lz : Lz4) {start : Startup} (hstart : start.Enabled)
    {as : List ThreadAction} (has : ((machine lz start).run as (started start)).isSome = true) :
    TracesAll lz start as ↔ FirstThreadOnly as := by
  obtain ⟨r, hr⟩ := Option.isSome_iff_exists.mp has
  have hends := (started_oneTracer lz hstart).run_ends hstart hr
  have hmet (p : Process) (he : r = .ok p) : TracesAll lz start as ↔
      p.KeepsAll lz start (memaInitialize start).shared.out.bytes := by
    subst he
    constructor
    · rintro ⟨p', hp', hkeeps⟩
      rw [hr] at hp'
      cases hp'
      exact hkeeps
    · intro hkeeps
      exact ⟨p, hr, hkeeps⟩
  cases hends with
  | crashed f t c ht hmem =>
    constructor
    · rintro ⟨p, hp, -⟩
      rw [hr] at hp
      cases hp
    · intro hfirst
      exact absurd (hfirst.calls t c hmem) ht
  | traced p log out hcalls hgoing h =>
    rw [hmet p rfl]
    constructor
    · intro _
      exact ⟨hcalls, fun t hmem ↦ absurd hmem (hgoing t)⟩
    · intro _
      exact h.keepsAll
  | finished p log t hcalls hmem honly h hlength =>
    have hlogged : (p.logged 0).length = as.countP ThreadAction.isCall := by
      rw [hlength]
      exact Nat.zero_add _
    rw [hmet p rfl, h.keepsAll_iff, h.pending_eq_nil_iff, hlogged]
    constructor
    · intro hwhole
      refine ⟨hcalls, fun u hu ↦ ?_⟩
      rw [honly u hu]
      exact hwhole
    · intro hfirst
      exact hfirst.finalize t hmem

/-- Another thread runs next to the one that traces and finalises. -/
theorem tracesAll_iff_two_threads :
    TracesAll id Startup.toFile [.create, .call 0 (.functionEntry 16), .finish 1, .finalize 0] :=
  (tracesAll_iff id ⟨rfl, rfl, by decide, .inl rfl⟩ rfl).mpr ⟨by simp, by simp⟩

/-- The first record of a second thread goes through a NULL pointer. -/
theorem second_thread_not_tracesAll :
    (machine id Startup.toFile).run [.create, .call 1 (.functionEntry 16)]
        (started Startup.toFile) = some (.error .nullPointer) ∧
      ¬ TracesAll id Startup.toFile [.create, .call 1 (.functionEntry 16)] := by
  have hstart : Startup.toFile.Enabled := ⟨rfl, rfl, by decide, .inl rfl⟩
  have hcreated := (started_oneTracer id hstart).create
  have hhook : (Call.functionEntry 16).IsHook := trivial
  have hcall := hcreated.call_other hstart Nat.one_ne_zero hhook
  have hrun : (machine id Startup.toFile).run [.create, .call 1 (.functionEntry 16)]
      (started Startup.toFile) = some (.error .nullPointer) := by
    have hstep : (machine id Startup.toFile).step (.call 1 (.functionEntry 16))
        (started Startup.toFile).create = some (.error .nullPointer) := congrArg some hcall
    have hcreate : (machine id Startup.toFile).step .create (started Startup.toFile) =
        some (.ok (started Startup.toFile).create) := rfl
    rw [Machine.run_cons hcreate, Machine.run, hstep]
  refine ⟨hrun, ?_⟩
  rintro ⟨p, hp, -⟩
  rw [hrun] at hp
  cases hp

end Process

end Mema
