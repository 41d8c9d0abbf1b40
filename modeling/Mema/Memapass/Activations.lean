import Mema.Memapass.Unwinding

/-!
# Executions with their call stacks

An execution of an instrumented program in which every call of the runtime stands with the
activations in progress. The frames that the recorded brackets keep open are these activations
until one is left by unwinding; each of those adds one frame that is never closed for it.
-/

namespace Mema.Memapass

open Nesting

/-- A call of the runtime, the activations in progress when it is made, innermost first, and how
many were left by unwinding before it. -/
structure Observed where
  call : Call
  active : List FunctionId
  unwound : Nat
  deriving DecidableEq, Repr

namespace Observed

/-- The activations that are open for the recorded stream once the call is made: the exit call
ends the innermost one. -/
def openAfter (ob : Observed) : List FunctionId :=
  match ob.call with
  | .functionExit _ => ob.active.tail
  | _ => ob.active

end Observed

/-- Calls made in the same activation. -/
def observe (active : List FunctionId) (unwound : Nat) (cs : List Call) : List Observed :=
  cs.map fun c ↦ ⟨c, active, unwound⟩

/-- Activations that the outcome adds to those left by unwinding. -/
def Outcome.unwinds : Outcome → Nat
  | .returned => 0
  | .unwound => 1

/-- The executions of `Runs`, from given activations and a number of unwound ones. -/
inductive Executes (P : Program) :
    List FunctionId → Nat → Position → List Observed → Nat → Outcome → Prop
  | body {active : List FunctionId} {u u' : Nat} {f : FunctionId} {F : Function} {b : OutBlock}
      {obs : List Observed} {o : Outcome} (hF : P.body f = some F)
      (hb : (P.instrumented F).blocks[0]? = some b)
      (h : Executes P (f :: active) u (.insts F 0 b.insts) obs u' o) :
      Executes P active u (.call f) obs (u' + o.unwinds) o
  | foreign {active : List FunctionId} {u u' : Nat} {f : FunctionId} {obs : List Observed}
      {o : Outcome} (hF : P.body f = none) (h : Executes P active u .foreign obs u' o) :
      Executes P active u (.call f) obs u' o
  | done (active : List FunctionId) (u : Nat) (o : Outcome) :
      Executes P active u .foreign [] u o
  | calls {active : List FunctionId} {u u₁ u' : Nat} {f : FunctionId} {obs obs' : List Observed}
      {o o' : Outcome} (h : Executes P active u (.call f) obs u₁ o)
      (h' : Executes P active u₁ .foreign obs' u' o') :
      Executes P active u .foreign (obs ++ obs') u' o'
  | inserted {active : List FunctionId} {u u' : Nat} {F : Function} {k : BlockId} {i : Inserted}
      {ps : List Placed} {cs : List Call} {obs : List Observed} {o : Outcome}
      (hi : P.performs i cs) (h : Executes P active u (.insts F k ps) obs u' o) :
      Executes P active u (.insts F k (.inserted i :: ps)) (observe active u cs ++ obs) u' o
  | plain {active : List FunctionId} {u u' : Nat} {F : Function} {k : BlockId} {i : Instr}
      {ps : List Placed} {obs : List Observed} {o : Outcome}
      (hi : ∀ callee, i.opcode ≠ .call callee)
      (h : Executes P active u (.insts F k ps) obs u' o) :
      Executes P active u (.insts F k (.original i :: ps)) obs u' o
  | returns {active : List FunctionId} {u u₁ u' : Nat} {F : Function} {k : BlockId} {i : Instr}
      {callee : Operand} {f : FunctionId} {ps : List Placed} {obs obs' : List Observed}
      {o : Outcome} (hi : i.opcode = .call callee) (hf : Program.mayCall callee f)
      (h : Executes P active u (.call f) obs u₁ .returned)
      (h' : Executes P active u₁ (.insts F k ps) obs' u' o) :
      Executes P active u (.insts F k (.original i :: ps)) (obs ++ obs') u' o
  | unwinds {active : List FunctionId} {u u' : Nat} {F : Function} {k : BlockId} {i : Instr}
      {callee : Operand} {f : FunctionId} {ps : List Placed} {obs : List Observed}
      (hi : i.opcode = .call callee) (hf : Program.mayCall callee f)
      (h : Executes P active u (.call f) obs u' .unwound) :
      Executes P active u (.insts F k (.original i :: ps)) obs u' .unwound
  | ret {active : List FunctionId} {u : Nat} {F : Function} {k : BlockId} {b : OutBlock}
      {v : Option Operand} (hb : (P.instrumented F).blocks[k]? = some b)
      (ht : b.terminator = .ret v) : Executes P active u (.insts F k []) [] u .returned
  | resume {active : List FunctionId} {u : Nat} {F : Function} {k : BlockId} {b : OutBlock}
      {v : Operand} (hb : (P.instrumented F).blocks[k]? = some b)
      (ht : b.terminator = .resume v) : Executes P active u (.insts F k []) [] u .unwound
  | br {active : List FunctionId} {u u' : Nat} {F : Function} {k k' : BlockId}
      {b b' : OutBlock} {targets : List BlockId} {obs : List Observed} {o : Outcome}
      (hb : (P.instrumented F).blocks[k]? = some b) (ht : b.terminator = .br targets)
      (hk : k' ∈ targets) (hb' : (P.instrumented F).blocks[k']? = some b')
      (h : Executes P active u (.insts F k' b'.insts) obs u' o) :
      Executes P active u (.insts F k []) obs u' o
  | invoke {active : List FunctionId} {u u₁ u' : Nat} {F : Function}
      {k normal unwind : BlockId} {b b' : OutBlock} {callee : Operand} {f : FunctionId}
      {obs obs' : List Observed} {o o' : Outcome}
      (hb : (P.instrumented F).blocks[k]? = some b)
      (ht : b.terminator = .invoke callee normal unwind) (hf : Program.mayCall callee f)
      (h : Executes P active u (.call f) obs u₁ o)
      (hb' : (P.instrumented F).blocks[if o = .returned then normal else unwind]? = some b')
      (h' : Executes P active u₁
        (.insts F (if o = .returned then normal else unwind) b'.insts) obs' u' o') :
      Executes P active u (.insts F k []) (obs ++ obs') u' o'

/-! ### The same executions -/

@[simp] theorem map_call_observe (active : List FunctionId) (u : Nat) (cs : List Call) :
    (observe active u cs).map Observed.call = cs := by
  simp [observe, Function.comp_def]

/-- Every execution of `Runs` goes on from any activations. -/
theorem Runs.executes {P : Program} {pos : Position} {cs : List Call} {fr : Forest}
    {o : Outcome} (h : Runs P pos cs fr o) (active : List FunctionId) (u : Nat) :
    ∃ obs u', obs.map Observed.call = cs ∧ Executes P active u pos obs u' o := by
  induction h generalizing active u with
  | @body f F b cs inner o hF hb _ ih =>
    obtain ⟨obs, u', rfl, hobs⟩ := ih (f :: active) u
    exact ⟨obs, _, rfl, .body hF hb hobs⟩
  | foreign hF _ ih =>
    obtain ⟨obs, u', rfl, hobs⟩ := ih active u
    exact ⟨obs, u', rfl, .foreign hF hobs⟩
  | done o => exact ⟨[], u, rfl, .done active u o⟩
  | calls _ _ ih ih' =>
    obtain ⟨obs, u₁, rfl, hobs⟩ := ih active u
    obtain ⟨obs', u', rfl, hobs'⟩ := ih' active u₁
    exact ⟨_, u', List.map_append, .calls hobs hobs'⟩
  | @inserted F k i ps cs cs' fr o hi _ ih =>
    obtain ⟨obs, u', rfl, hobs⟩ := ih active u
    exact ⟨_, u', by rw [List.map_append, map_call_observe], .inserted hi hobs⟩
  | plain hi _ ih =>
    obtain ⟨obs, u', rfl, hobs⟩ := ih active u
    exact ⟨obs, u', rfl, .plain hi hobs⟩
  | returns hi hf _ _ ih ih' =>
    obtain ⟨obs, u₁, rfl, hobs⟩ := ih active u
    obtain ⟨obs', u', rfl, hobs'⟩ := ih' active u₁
    exact ⟨_, u', List.map_append, .returns hi hf hobs hobs'⟩
  | unwinds hi hf _ ih =>
    obtain ⟨obs, u', rfl, hobs⟩ := ih active u
    exact ⟨obs, u', rfl, .unwinds hi hf hobs⟩
  | ret hb ht => exact ⟨[], u, rfl, .ret hb ht⟩
  | resume hb ht => exact ⟨[], u, rfl, .resume hb ht⟩
  | br hb ht hk hb' _ ih =>
    obtain ⟨obs, u', rfl, hobs⟩ := ih active u
    exact ⟨obs, u', rfl, .br hb ht hk hb' hobs⟩
  | invoke hb ht hf _ hb' _ ih ih' =>
    obtain ⟨obs, u₁, rfl, hobs⟩ := ih active u
    obtain ⟨obs', u', rfl, hobs'⟩ := ih' active u₁
    exact ⟨_, u', List.map_append, .invoke hb ht hf hobs hb' hobs'⟩

/-! ### Recorded frames against activations -/

/-- Open frames of the recorded brackets show activations: one frame more for each that was left
by unwinding, and the activations themselves as long as none was. -/
structure Mirrors (addr : FunctionId → UInt64) (active : List FunctionId) (unwound : Nat)
    (frames : List UInt64) : Prop where
  length : frames.length = active.length + unwound
  exact : unwound = 0 → frames = active.map addr

namespace Mirrors

variable {addr : FunctionId → UInt64} {active : List FunctionId} {u : Nat}
  {frames : List UInt64}

theorem nil (addr : FunctionId → UInt64) : Mirrors addr [] 0 [] := ⟨rfl, fun _ ↦ rfl⟩

/-- Entering an activation opens its frame. -/
theorem push (h : Mirrors addr active u frames) (f : FunctionId) :
    Mirrors addr (f :: active) u (addr f :: frames) where
  length := by
    rw [List.length_cons, List.length_cons, h.length]
    omega
  exact hu := by rw [h.exact hu, List.map_cons]

/-- Returning closes a frame. -/
theorem pop {f : FunctionId} (h : Mirrors addr (f :: active) u frames) :
    ∃ a rest, frames = a :: rest ∧ Mirrors addr active u rest := by
  have hlength := h.length
  cases frames with
  | nil =>
    simp only [List.length_nil, List.length_cons] at hlength
    omega
  | cons a rest =>
    refine ⟨a, rest, rfl, ?_, fun hu ↦ ?_⟩
    · simp only [List.length_cons] at hlength
      omega
    · have hexact := h.exact hu
      rw [List.map_cons, List.cons.injEq] at hexact
      exact hexact.2

/-- An activation left by unwinding keeps its frame open. -/
theorem unwind {f : FunctionId} (h : Mirrors addr (f :: active) u frames) :
    Mirrors addr active (u + 1) frames where
  length := by
    rw [h.length, List.length_cons]
    omega
  exact hu := by omega

end Mirrors

/-- From one stack of frames to another, the brackets of observed calls show the activations
after every call. -/
def Follows (addr : FunctionId → UInt64) : List UInt64 → List Observed → List UInt64 → Prop
  | frames, [], frames' => frames = frames'
  | frames, ob :: obs, frames' => ∃ next, step frames ob.call.token = some next ∧
      Mirrors addr ob.openAfter ob.unwound next ∧ Follows addr next obs frames'

namespace Follows

variable {addr : FunctionId → UInt64} {frames frames₁ frames' : List UInt64}
  {obs obs' : List Observed}

theorem append (h : Follows addr frames obs frames₁) (h' : Follows addr frames₁ obs' frames') :
    Follows addr frames (obs ++ obs') frames' := by
  induction obs generalizing frames with
  | nil =>
    cases h
    exact h'
  | cons ob obs ih =>
    obtain ⟨next, hstep, hshows, hrest⟩ := h
    exact ⟨next, hstep, hshows, ih hrest⟩

/-- Calls that neither open nor close a frame. -/
theorem quiet {active : List FunctionId} {u : Nat} (h : Mirrors addr active u frames)
    {cs : List Call} (hcs : ∀ c ∈ cs, c.token = .other) :
    Follows addr frames (observe active u cs) frames := by
  induction cs with
  | nil => rfl
  | cons c cs ih =>
    have hc := hcs c (List.mem_cons_self ..)
    refine ⟨frames, by rw [hc]; rfl, ?_, ih fun d hd ↦ hcs d (List.mem_cons_of_mem _ hd)⟩
    cases c with
    | functionEntry a => cases hc
    | functionExit a => cases hc
    | _ => exact h

/-- Every initial part of the calls replays to what is shown after its last call. -/
theorem shown (h : Follows addr frames obs frames') {i : Nat} (hi : i < obs.length) :
    ∃ next, replay frames (((obs.map Observed.call).take (i + 1)).map Call.token) = some next ∧
      Mirrors addr obs[i].openAfter obs[i].unwound next := by
  induction obs generalizing frames i with
  | nil => exact absurd hi (Nat.not_lt_zero _)
  | cons ob obs ih =>
    obtain ⟨next, hstep, hshows, hrest⟩ := h
    cases i with
    | zero => exact ⟨next, by simp [replay, hstep], hshows⟩
    | succ i =>
      obtain ⟨last, hreplay, hlast⟩ := ih hrest (Nat.lt_of_succ_lt_succ hi)
      refine ⟨last, ?_, hlast⟩
      rw [List.map_cons, List.take_succ_cons, List.map_cons, replay, hstep]
      exact hreplay

end Follows

namespace Program

variable (P : Program)

end Program

end Mema.Memapass
