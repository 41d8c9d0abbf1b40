import Mema.Memadump.Details
import Mema.Memadump.Trace

/-!
# A session of memadump

`memagrind/memadump/md_main.c:397–452,610–664,792–810`: the helpers of instrumented superblocks
bump the counters and fill the record buffer one after the other.
-/

namespace Mema.Memadump

/-! ### The tool's state -/

/-- The static variables that helpers and `md_fini` work on. -/
structure Tool where
  counters : Counters
  detailCounts : DetailCounts
  dump : Dump

/-- The state behind `md_post_clo_init`. -/
def Tool.start (fd : Nat) (maps : List (List UInt8)) (mapsFailed : Bool) : Tool where
  counters := .zero
  detailCounts := .zero
  dump := postCloInit fd maps mapsFailed

namespace Guest

variable {σ : Type} (g : Guest σ)

/-- One helper call in the guest's state `s`. -/
def perform (lz : Lz4) (s : σ) (t : Tool) (call : HelperCall) : Except Fault Tool :=
  match call.traced with
  | some ev =>
    match (called (g.value s ev)).perform lz t.dump with
    | .error f => .error f
    | .ok d => .ok { t with dump := d }
  | none => .ok { t with
      counters := t.counters.call call
      detailCounts := t.detailCounts.call call }

/-- An instrumented superblock runs from `s`. -/
def run (lz : Lz4) : List OutStmt → σ → Tool → Except Fault Tool
  | [], _, t => .ok t
  | .helper call :: out, s, t =>
    match g.perform lz s t call with
    | .error f => .error f
    | .ok t => run lz out s t
  | .copied st :: out, s, t => if g.leaves st s then .ok t else run lz out (g.exec st s) t

end Guest

/-- Executions one after the other. -/
def runSession {opts : Options} {nEvents : Nat} {σ : Type} (lz : Lz4) :
    Tool → List (Execution opts nEvents σ) → Except Fault Tool
  | t, [] => .ok t
  | t, x :: xs =>
    match x.guest.run lz x.out x.state t with
    | .error f => .error f
    | .ok t => runSession lz t xs

/-! ### Counters and trace apart -/

section Apart

variable {opts : Options} {nEvents : Nat} {σ : Type}

/-- The counters after calls, and the dump. -/
def Tool.counted (t : Tool) (calls : List HelperCall) (d : Dump) : Tool where
  counters := calls.foldl Counters.call t.counters
  detailCounts := calls.foldl DetailCounts.call t.detailCounts
  dump := d

/-- Traced events leave the counters alone. -/
theorem HelperCall.call_of_traced {call : HelperCall} {ev : Event} (h : call.traced = some ev) :
    (∀ n : Counters, n.call call = n) ∧ ∀ n : DetailCounts, n.call call = n := by
  cases call with
  | trace _ => exact ⟨fun _ ↦ rfl, fun _ ↦ rfl⟩
  | _ => cases h

/-- A superblock counts its calls and traces its events, each as if alone. -/
theorem Guest.run_eq (g : Guest σ) (lz : Lz4) (out : List OutStmt) (s : σ) (t : Tool) :
    g.run lz out s t = (runTrace lz t.dump (g.trace out s)).map (t.counted (g.calls out s)) := by
  induction out generalizing s t with
  | nil => rfl
  | cons st out ih =>
    cases st with
    | helper call =>
      rw [Guest.run, Guest.perform, Guest.trace, Guest.calls]
      cases htraced : call.traced with
      | none =>
        dsimp only
        rw [ih]
        rfl
      | some ev =>
        obtain ⟨hcounters, hdetails⟩ := call.call_of_traced htraced
        rw [Option.map_some, Option.toList_some, List.singleton_append, runTrace]
        dsimp only
        cases (called (g.value s ev)).perform lz t.dump with
        | error f => rfl
        | ok d =>
          dsimp only
          rw [ih]
          congr 1
          funext d'
          simp [Tool.counted, hcounters, hdetails]
    | copied st =>
      rw [Guest.run, Guest.trace, Guest.calls]
      split
      · rfl
      · exact ih _ _

theorem runTrace_append (lz : Lz4) (d : Dump) (es es' : List TraceEvent) :
    runTrace lz d (es ++ es') = runTrace lz d es >>= fun d ↦ runTrace lz d es' := by
  induction es generalizing d with
  | nil => rfl
  | cons e es ih =>
    rw [List.cons_append, runTrace, runTrace]
    cases e.perform lz d with
    | error f => rfl
    | ok d => exact ih d

/-- A session counts the calls of its executions and traces their events. -/
theorem runSession_eq (lz : Lz4) (t : Tool) (xs : List (Execution opts nEvents σ)) :
    runSession lz t xs =
      (runTrace lz t.dump (xs.flatMap Execution.traced)).map (t.counted (runHelpers xs)) := by
  induction xs generalizing t with
  | nil => rfl
  | cons x xs ih =>
    rw [runSession, x.guest.run_eq, List.flatMap_cons, runTrace_append, runHelpers,
      List.flatMap_cons, Execution.traced]
    cases runTrace lz t.dump (x.guest.trace x.out x.state) with
    | error f => rfl
    | ok d =>
      change runSession lz (t.counted x.calls d) xs = _
      rw [ih]
      change (runTrace lz d _).map _ = (runTrace lz d _).map _
      congr 1
      funext d'
      simp [Tool.counted, runHelpers, List.foldl_append]

end Apart

end Mema.Memadump
