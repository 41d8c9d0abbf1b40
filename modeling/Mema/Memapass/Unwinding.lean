import Mema.Lib.Nesting
import Mema.Memapass.Paths
import Mema.Trace.OneTracer

/-!
# Activations that unwind

`memapass/LLVMMema/Pass.cpp:139–164` and `mema_rtl.cpp:288–355`: only a return is preceded by a
call of the exit hook. Executions of an instrumented program, in which activations return or are
left by unwinding, and the stream of records they leave.
-/

namespace Mema.Memapass

open Nesting

/-- How an activation ends. -/
inductive Outcome
  | returned
  | unwound
  deriving DecidableEq, Repr

/-- Activations of instrumented functions in the order they start, each with those inside it. -/
inductive Forest
  | nil
  | cons (f : FunctionId) (inner : Forest) (outcome : Outcome) (rest : Forest)

namespace Forest

/-- The activations of one forest, then those of another. -/
def append : Forest → Forest → Forest
  | .nil, fr => fr
  | .cons f inner outcome rest, fr => .cons f inner outcome (rest.append fr)

variable (addr : FunctionId → UInt64)

/-- Enter and exit of the activations: one that unwinds has no exit. -/
def tokens : Forest → List (Token UInt64)
  | .nil => []
  | .cons f inner outcome rest =>
    .enter (addr f) :: (inner.tokens ++
      ((if outcome = .returned then [.leave (addr f)] else []) ++ rest.tokens))

/-- The frames that the exits leave open, innermost first, as addresses: an exit closes the
innermost one, which need not be its own. -/
def leftOpen : Forest → List UInt64
  | .nil => []
  | .cons f inner outcome rest =>
    rest.leftOpen ++
      if outcome = .returned then (inner.leftOpen ++ [addr f]).tail
      else inner.leftOpen ++ [addr f]

/-- Whenever an activation returns, those inside it have left no frame open, or the innermost
one they left is of the same function. -/
def ReturnsToOwn : Forest → Prop
  | .nil => True
  | .cons f inner outcome rest =>
    inner.ReturnsToOwn ∧
      (outcome = .returned → ∀ a ∈ (inner.leftOpen addr).head?, a = addr f) ∧
      rest.ReturnsToOwn

instance decidableReturnsToOwn : DecidablePred (ReturnsToOwn addr)
  | .nil => isTrue trivial
  | .cons _ inner _ rest =>
    have := decidableReturnsToOwn inner
    have := decidableReturnsToOwn rest
    inferInstanceAs (Decidable (_ ∧ _ ∧ _))

end Forest

/-! ### Executions -/

/-- Functions of a module with its data layout, and where it is loaded. -/
structure Program extends Addresses where
  TD : DataLayout
  ctor : FunctionId
  functions : List Function

namespace Program

variable (P : Program)

/-- The instrumented function's original body. -/
def body (f : FunctionId) : Option Function := P.functions.find? fun F ↦ F.id = f ∧ F.id ≠ P.ctor

/-- What runs instead of the body. -/
def instrumented (F : Function) : OutFunction := handleFunction P.TD P.ctor F

/-- The value that reaches a callback; the result of a cast may be any pointer. -/
def mayBe : Value → UInt64 → Prop
  | .operand (.constant c), a => a = P.constant c
  | _, _ => True

/-- The function that a call enters; through a pointer it may be any. -/
def mayCall : Operand → FunctionId → Prop
  | .constant (.function f), g => f = g
  | _, _ => True

/-- What an inserted instruction calls of the runtime. -/
def performs : Inserted → List Call → Prop
  | .ptrToInt _ _, cs => cs = []
  | .functionEntry f, cs => ∃ a, P.mayBe f a ∧ cs = [.functionEntry a]
  | .functionExit f, cs => ∃ a, P.mayBe f a ∧ cs = [.functionExit a]
  | .memAccess addr size isWrite, cs =>
    ∃ a site, P.mayBe addr a ∧ cs = [.access a size isWrite site]

end Program

/-- What is being executed: a call, the rest of a block, or code that is not instrumented. -/
inductive Position
  | call (f : FunctionId)
  | insts (F : Function) (k : BlockId) (ps : List Placed)
  | foreign

/-- Executions that end: the runtime calls they make, the activations in them, and how they
end. Branches and memory are left open. -/
inductive Runs (P : Program) : Position → List Call → Forest → Outcome → Prop
  | body {f : FunctionId} {F : Function} {b : OutBlock} {cs : List Call} {inner : Forest}
      {o : Outcome} (hF : P.body f = some F) (hb : (P.instrumented F).blocks[0]? = some b)
      (h : Runs P (.insts F 0 b.insts) cs inner o) :
      Runs P (.call f) cs (.cons f inner o .nil) o
  | foreign {f : FunctionId} {cs : List Call} {fr : Forest} {o : Outcome}
      (hF : P.body f = none) (h : Runs P .foreign cs fr o) : Runs P (.call f) cs fr o
  -- foreign code returns or throws; it may catch what the functions it calls throw
  | done (o : Outcome) : Runs P .foreign [] .nil o
  | calls {f : FunctionId} {cs cs' : List Call} {fr fr' : Forest} {o o' : Outcome}
      (h : Runs P (.call f) cs fr o) (h' : Runs P .foreign cs' fr' o') :
      Runs P .foreign (cs ++ cs') (fr.append fr') o'
  | inserted {F : Function} {k : BlockId} {i : Inserted} {ps : List Placed}
      {cs cs' : List Call} {fr : Forest} {o : Outcome} (hi : P.performs i cs)
      (h : Runs P (.insts F k ps) cs' fr o) :
      Runs P (.insts F k (.inserted i :: ps)) (cs ++ cs') fr o
  | plain {F : Function} {k : BlockId} {i : Instr} {ps : List Placed} {cs : List Call}
      {fr : Forest} {o : Outcome} (hi : ∀ callee, i.opcode ≠ .call callee)
      (h : Runs P (.insts F k ps) cs fr o) : Runs P (.insts F k (.original i :: ps)) cs fr o
  | returns {F : Function} {k : BlockId} {i : Instr} {callee : Operand} {f : FunctionId}
      {ps : List Placed} {cs cs' : List Call} {fr fr' : Forest} {o : Outcome}
      (hi : i.opcode = .call callee) (hf : Program.mayCall callee f)
      (h : Runs P (.call f) cs fr .returned) (h' : Runs P (.insts F k ps) cs' fr' o) :
      Runs P (.insts F k (.original i :: ps)) (cs ++ cs') (fr.append fr') o
  | unwinds {F : Function} {k : BlockId} {i : Instr} {callee : Operand} {f : FunctionId}
      {ps : List Placed} {cs : List Call} {fr : Forest} (hi : i.opcode = .call callee)
      (hf : Program.mayCall callee f) (h : Runs P (.call f) cs fr .unwound) :
      Runs P (.insts F k (.original i :: ps)) cs fr .unwound
  | ret {F : Function} {k : BlockId} {b : OutBlock} {v : Option Operand}
      (hb : (P.instrumented F).blocks[k]? = some b) (ht : b.terminator = .ret v) :
      Runs P (.insts F k []) [] .nil .returned
  | resume {F : Function} {k : BlockId} {b : OutBlock} {v : Operand}
      (hb : (P.instrumented F).blocks[k]? = some b) (ht : b.terminator = .resume v) :
      Runs P (.insts F k []) [] .nil .unwound
  | br {F : Function} {k k' : BlockId} {b b' : OutBlock} {targets : List BlockId}
      {cs : List Call} {fr : Forest} {o : Outcome}
      (hb : (P.instrumented F).blocks[k]? = some b) (ht : b.terminator = .br targets)
      (hk : k' ∈ targets) (hb' : (P.instrumented F).blocks[k']? = some b')
      (h : Runs P (.insts F k' b'.insts) cs fr o) : Runs P (.insts F k []) cs fr o
  | invoke {F : Function} {k normal unwind : BlockId} {b b' : OutBlock} {callee : Operand}
      {f : FunctionId} {cs cs' : List Call} {fr fr' : Forest} {o o' : Outcome}
      (hb : (P.instrumented F).blocks[k]? = some b)
      (ht : b.terminator = .invoke callee normal unwind) (hf : Program.mayCall callee f)
      (h : Runs P (.call f) cs fr o)
      (hb' : (P.instrumented F).blocks[if o = .returned then normal else unwind]? = some b')
      (h' : Runs P (.insts F (if o = .returned then normal else unwind) b'.insts) cs' fr' o') :
      Runs P (.insts F k []) (cs ++ cs') (fr.append fr') o'

/-! ### The stream of an execution -/

namespace Forest

variable (addr : FunctionId → UInt64)

theorem tokens_append (fr fr' : Forest) :
    (fr.append fr').tokens addr = fr.tokens addr ++ fr'.tokens addr := by
  induction fr with
  | nil => rfl
  | cons f inner outcome rest _ ih =>
    rw [append, tokens, tokens, ih]
    simp only [List.append_assoc, List.cons_append]

/-- The exits of a forest pop what its activations push and leave the frames below alone. -/
theorem replay_tokens (fr : Forest) (s : List UInt64) :
    replay s (fr.tokens addr) = some (fr.leftOpen addr ++ s) := by
  induction fr generalizing s with
  | nil => rfl
  | cons f inner outcome rest ihInner ihRest =>
    rw [tokens, replay_enter, replay_append, ihInner]
    cases outcome with
    | unwound =>
      simp only [reduceCtorEq, if_false, List.nil_append, Option.bind_some, ihRest, leftOpen]
      simp
    | returned =>
      simp only [if_true, List.singleton_append, Option.bind_some, leftOpen]
      cases hopen : inner.leftOpen addr with
      | nil => simp [ihRest]
      | cons a open' => simp [ihRest]

/-- Every exit closes a frame of its own function exactly when every returning activation finds
one innermost. -/
theorem matched_tokens (fr : Forest) (s : List UInt64) :
    Matched s (fr.tokens addr) ↔ fr.ReturnsToOwn addr := by
  induction fr generalizing s with
  | nil => exact Iff.rfl
  | cons f inner outcome rest ihInner ihRest =>
    rw [tokens, Matched, matched_append (replay_tokens addr inner _), ihInner, ReturnsToOwn]
    apply and_congr_right
    intro _
    cases outcome with
    | unwound => simp [ihRest]
    | returned =>
      cases hopen : inner.leftOpen addr with
      | nil => simp [Matched, ihRest]
      | cons a open' => simp [Matched, ihRest]

end Forest

/-- The frames that the calls of hooks open and close. -/
def hookBrackets (cs : List Call) : List (Token UInt64) := brackets (cs.map Call.token)

@[simp] theorem hookBrackets_append (cs cs' : List Call) :
    hookBrackets (cs ++ cs') = hookBrackets cs ++ hookBrackets cs' := by
  rw [hookBrackets, List.map_append, brackets_append]
  rfl

namespace Program

variable (P : Program)

/-- The instructions inserted between the entry and the exit call. -/
def Between (qs : List Placed) : Prop :=
  ∀ i, .inserted i ∈ qs → ∀ cs, P.performs i cs → hookBrackets cs = []

/-- The exit call of a block, if it returns. -/
def exitOf (F : Function) (b : BasicBlock) : List Placed :=
  if b.terminator.isReturn then [.inserted (.functionExit (funcptrOf F.id))] else []

/-- The rest of a block behind the entry call. -/
def Behind (F : Function) (k : BlockId) (ps : List Placed) : Prop :=
  ∃ b qs, F.blocks[k]? = some b ∧ P.Between qs ∧ ps = qs ++ exitOf F b

/-- The rest of the entry block before the entry call. -/
def Before (F : Function) (k : BlockId) (ps : List Placed) : Prop :=
  ∃ (is : List Instr) (qs : List Placed), (∀ i ∈ is, i.isPHI = true) ∧ P.Behind F k qs ∧
    ps = is.map .original ++ .inserted (.functionEntry (funcptrOf F.id)) :: qs

/-- Nothing is left of a block that returns. -/
def AtReturn (F : Function) (k : BlockId) (ps : List Placed) : Prop :=
  ps = [] ∧ ∃ b, F.blocks[k]? = some b ∧ b.terminator.isReturn = true

/-- The exit token of an activation. -/
def exitToken (F : Function) (o : Outcome) : List (Token UInt64) :=
  if o = .returned then [.leave (P.functionAddr F.id)] else []

/-- What an execution from a position calls, given the activations in it. -/
def Brackets : Position → List Call → Forest → Outcome → Prop
  | .call _, cs, fr, _ => hookBrackets cs = fr.tokens P.functionAddr
  | .foreign, cs, fr, _ => hookBrackets cs = fr.tokens P.functionAddr
  | .insts F k ps, cs, fr, o => F.id ≠ P.ctor →
    (P.Before F k ps → hookBrackets cs = .enter (P.functionAddr F.id) ::
      (fr.tokens P.functionAddr ++ P.exitToken F o)) ∧
    (P.Behind F k ps → hookBrackets cs = fr.tokens P.functionAddr ++ P.exitToken F o) ∧
    (AtReturn F k ps → cs = [] ∧ fr = .nil ∧ o = .returned)

variable {P}

theorem body_spec {f : FunctionId} {F : Function} (h : P.body f = some F) :
    F.id = f ∧ F.id ≠ P.ctor := by
  have := List.find?_some h
  simpa using this

theorem Between.cons {p : Placed} {qs : List Placed} (h : P.Between (p :: qs)) :
    P.Between qs := by
  intro i hi
  exact h i (by simp [hi])

/-- A block that is run is the instrumented form of one of the original. -/
theorem instrumented_block {F : Function} (hF : F.id ≠ P.ctor) {k : BlockId} {b : OutBlock}
    (hb : (P.instrumented F).blocks[k]? = some b) :
    ∃ b₀ m, F.blocks[k]? = some b₀ ∧
      b = ⟨(instrumentInsts P.TD m (F.placed k b₀)).1, b₀.terminator⟩ := by
  have hlength := length_handleFunction P.TD F hF
  obtain ⟨hk, _⟩ := List.getElem?_eq_some_iff.mp hb
  rw [instrumented, hlength] at hk
  obtain ⟨m, hout⟩ := handleFunction_block P.TD F hF (List.getElem?_eq_getElem hk)
  rw [instrumented, hout] at hb
  exact ⟨_, m, List.getElem?_eq_getElem hk, (Option.some.inj hb).symm⟩

/-- Casts and access calls open and close nothing. -/
theorem between_instrumentAccess (n : Nat) (p : Placed) :
    P.Between (instrumentAccess P.TD n p).1 := by
  have hcast (n : Nat) (v : Operand) (size : UInt8) (isWrite : Bool) :
      P.Between ((createPointerCast n v).2.1 ++
        [.inserted (.memAccess (createPointerCast n v).1 size isWrite)]) := by
    intro i hi cs hcs
    have hkind : (∃ m source, i = .ptrToInt m source) ∨
        ∃ addr, i = .memAccess addr size isWrite := by
      cases v with
      | constant c =>
        simp only [createPointerCast, List.nil_append, List.mem_singleton,
          Placed.inserted.injEq] at hi
        exact .inr ⟨_, hi⟩
      | register r =>
        simp only [createPointerCast, List.cons_append, List.nil_append, List.mem_cons,
          Placed.inserted.injEq, List.not_mem_nil, or_false] at hi
        exact hi.imp (fun h ↦ ⟨_, _, h⟩) fun h ↦ ⟨_, h⟩
    rcases hkind with ⟨m, source, rfl⟩ | ⟨addr, rfl⟩
    · cases hcs
      rfl
    · obtain ⟨a, site, _, rfl⟩ := hcs
      rfl
  rw [instrumentAccess]
  cases isInterestingMemoryAccess p with
  | some a =>
    obtain ⟨addr, type, isWrite⟩ := a
    exact hcast n addr _ isWrite
  | none =>
    cases memIntrinsicDest p with
    | some rawDest => exact hcast n rawDest 0 true
    | none =>
      intro i hi
      cases hi

theorem Between.append {ps qs : List Placed} (h : P.Between ps) (h' : P.Between qs) :
    P.Between (ps ++ qs) := by
  intro i hi
  rcases List.mem_append.mp hi with hmem | hmem
  · exact h i hmem
  · exact h' i hmem

theorem between_originals (n : Nat) (is : List Instr) :
    P.Between (instrumentInsts P.TD n (is.map .original)).1 := by
  induction is generalizing n with
  | nil =>
    intro i hi
    cases hi
  | cons i is ih =>
    simp only [List.map_cons, instrumentInsts]
    apply (between_instrumentAccess n (.original i)).append
    intro j hj
    have hmem := (List.mem_cons.mp hj).resolve_left (by simp)
    exact ih _ j hmem

private theorem instrumentInsts_phis (n : Nat) {is : List Instr} (h : ∀ i ∈ is, i.isPHI = true) :
    instrumentInsts P.TD n (is.map .original) = (is.map .original, n) := by
  induction is generalizing n with
  | nil => rfl
  | cons i is ih =>
    obtain ⟨id, opcode⟩ := i
    have hphi : opcode = .phi := by simpa [Instr.isPHI] using h ⟨id, opcode⟩ (by simp)
    subst hphi
    simp only [List.map_cons, instrumentInsts, instrumentAccess, isInterestingMemoryAccess,
      memIntrinsicDest, ih n fun j hj ↦ h j (by simp [hj]), List.nil_append]

/-- An activation starts before its entry call. -/
theorem before_entry {F : Function} (hF : F.id ≠ P.ctor) {b : OutBlock}
    (hb : (P.instrumented F).blocks[0]? = some b) : P.Before F 0 b.insts := by
  obtain ⟨b₀, m, hb₀, rfl⟩ := instrumented_block hF hb
  have hphis : ∀ i ∈ b₀.insts.takeWhile Instr.isPHI, i.isPHI = true :=
    fun i hi ↦ List.mem_takeWhile_imp hi
  refine ⟨b₀.insts.takeWhile Instr.isPHI,
    (instrumentInsts P.TD m ((b₀.insts.dropWhile Instr.isPHI).map .original)).1 ++ exitOf F b₀,
    hphis, ⟨b₀, _, hb₀, between_originals m _, rfl⟩, ?_⟩
  rw [Function.placed, if_pos rfl, List.append_assoc, instrumentInsts_append,
    instrumentInsts_phis m hphis, List.cons_append]
  simp only [instrumentInsts, instrumentAccess, isInterestingMemoryAccess, memIntrinsicDest,
    List.nil_append, instrumentInsts_append]
  rw [exitOf]
  split
  · rfl
  · rfl

/-- A block that is branched to starts behind the entry call. -/
theorem behind_entry {F : Function} (hF : F.id ≠ P.ctor) {k : BlockId} (hk : k ≠ 0)
    {b : OutBlock} (hb : (P.instrumented F).blocks[k]? = some b) : P.Behind F k b.insts := by
  obtain ⟨b₀, m, hb₀, rfl⟩ := instrumented_block hF hb
  refine ⟨b₀, _, hb₀, between_originals m b₀.insts, ?_⟩
  rw [Function.placed, if_neg hk, instrumentInsts_append, exitOf]
  split
  · rfl
  · rfl

/-- The code after a branch goes on behind the entry call. -/
theorem behind_successor {F : Function} (hF : F.id ≠ P.ctor) {k k' : BlockId} {b b' : OutBlock}
    (hb : (P.instrumented F).blocks[k]? = some b) (hk : k' ∈ b.terminator.successors)
    (hb' : (P.instrumented F).blocks[k']? = some b') : P.Behind F k' b'.insts := by
  obtain ⟨b₀, m, hb₀, rfl⟩ := instrumented_block hF hb
  apply behind_entry hF _ hb'
  rintro rfl
  exact F.entry_first b₀ (List.mem_of_getElem? hb₀) hk

/-- At the end of a block, behind its entry call, it does not return without an exit call. -/
theorem Behind.not_return {F : Function} {k : BlockId} (h : P.Behind F k []) {b : BasicBlock}
    (hb : F.blocks[k]? = some b) : b.terminator.isReturn = false := by
  obtain ⟨b₀, qs, hb₀, _, hnil⟩ := h
  rw [hb] at hb₀
  cases hb₀
  cases hret : b.terminator.isReturn with
  | false => rfl
  | true => simp [exitOf, hret] at hnil

/-- An original instruction behind the entry call is followed by the rest of the block. -/
theorem Behind.original {F : Function} {k : BlockId} {i : Instr} {ps : List Placed}
    (h : P.Behind F k (.original i :: ps)) : P.Behind F k ps := by
  obtain ⟨b, qs, hb, hqs, heq⟩ := h
  cases qs with
  | nil =>
    unfold exitOf at heq
    split at heq
    · simp at heq
    · simp at heq
  | cons q qs =>
    rw [List.cons_append, List.cons.injEq] at heq
    exact ⟨b, qs, hb, hqs.cons, heq.2⟩

/-- An inserted instruction behind the entry call is no hook's, or it is the exit call. -/
theorem Behind.inserted {F : Function} {k : BlockId} {i : Inserted} {ps : List Placed}
    (h : P.Behind F k (.inserted i :: ps)) :
    ((∀ cs, P.performs i cs → hookBrackets cs = []) ∧ P.Behind F k ps) ∨
      (i = .functionExit (funcptrOf F.id) ∧ AtReturn F k ps) := by
  obtain ⟨b, qs, hb, hqs, heq⟩ := h
  cases qs with
  | nil =>
    unfold exitOf at heq
    split at heq
    · next hret =>
      simp only [List.nil_append, List.cons.injEq, Placed.inserted.injEq] at heq
      exact .inr ⟨heq.1, heq.2, b, hb, hret⟩
    · simp at heq
  | cons q qs =>
    rw [List.cons_append, List.cons.injEq] at heq
    obtain ⟨hq, hrest⟩ := heq
    subst hq
    exact .inl ⟨fun cs hcs ↦ hqs i (by simp) cs hcs, b, qs, hb, hqs.cons, hrest⟩

/-- Before the entry call stand only PHIs. -/
theorem Before.original {F : Function} {k : BlockId} {i : Instr} {ps : List Placed}
    (h : P.Before F k (.original i :: ps)) : i.isPHI = true ∧ P.Before F k ps := by
  obtain ⟨is, qs, his, hqs, heq⟩ := h
  cases is with
  | nil => simp at heq
  | cons j is =>
    simp only [List.map_cons, List.cons_append, List.cons.injEq, Placed.original.injEq] at heq
    obtain ⟨rfl, hrest⟩ := heq
    exact ⟨his i (by simp), is, qs, fun j hj ↦ his j (by simp [hj]), hqs, hrest⟩

/-- The first inserted instruction before or at the entry call is that call. -/
theorem Before.inserted {F : Function} {k : BlockId} {i : Inserted} {ps : List Placed}
    (h : P.Before F k (.inserted i :: ps)) :
    i = .functionEntry (funcptrOf F.id) ∧ P.Behind F k ps := by
  obtain ⟨is, qs, his, hqs, heq⟩ := h
  cases is with
  | nil =>
    simp only [List.map_nil, List.nil_append, List.cons.injEq, Placed.inserted.injEq] at heq
    obtain ⟨rfl, rfl⟩ := heq
    exact ⟨rfl, hqs⟩
  | cons j is => simp at heq

theorem Before.ne_nil {F : Function} {k : BlockId} (h : P.Before F k []) : False := by
  obtain ⟨is, qs, _, _, heq⟩ := h
  simp at heq

theorem Behind.not_atReturn {F : Function} {k : BlockId} {b : OutBlock} (hF : F.id ≠ P.ctor)
    (hb : (P.instrumented F).blocks[k]? = some b) (ht : b.terminator.isReturn = false) :
    ¬ AtReturn F k [] := by
  intro ⟨_, b₁, hb₁, hret⟩
  obtain ⟨b₀, m, hb₀, rfl⟩ := instrumented_block hF hb
  rw [hb₁] at hb₀
  cases hb₀
  rw [hret] at ht
  cases ht

end Program

/-- The hooks called by an execution open and close the frames of its activations: each one is
opened, and closed when it returns. -/
theorem Runs.brackets {P : Program} {pos : Position} {cs : List Call} {fr : Forest} {o : Outcome}
    (h : Runs P pos cs fr o) : P.Brackets pos cs fr o := by
  induction h with
  | @body f F b cs inner o hF hb _ ih =>
    obtain ⟨hid, hctor⟩ := Program.body_spec hF
    change hookBrackets cs = _
    rw [(ih hctor).1 (Program.before_entry hctor hb), hid]
    simp [Forest.tokens, Program.exitToken, hid]
  | foreign _ _ ih => exact ih
  | done o => rfl
  | @calls f cs cs' fr fr' o o' _ _ ih ih' =>
    change hookBrackets (cs ++ cs') = _
    rw [hookBrackets_append, Forest.tokens_append, ← ih, ← ih']
  | @inserted F k i ps cs cs' fr o hi _ ih =>
    intro hctor
    obtain ⟨_, hbehind, hreturn⟩ := ih hctor
    refine ⟨?_, ?_, ?_⟩
    · intro hpos
      obtain ⟨rfl, hrest⟩ := hpos.inserted
      obtain ⟨a, ha, rfl⟩ := hi
      rw [hookBrackets_append, hbehind hrest]
      cases ha
      rfl
    · intro hpos
      rcases hpos.inserted with ⟨hquiet, hrest⟩ | ⟨rfl, hrest⟩
      · rw [hookBrackets_append, hquiet cs hi, hbehind hrest]
        rfl
      · -- the exit call: nothing but the return is left
        obtain ⟨rfl, rfl, rfl⟩ := hreturn hrest
        obtain ⟨a, ha, rfl⟩ := hi
        cases ha
        rfl
    · intro hpos
      cases hpos.1
  | @plain F k i ps cs fr o hi _ ih =>
    intro hctor
    obtain ⟨hbefore, hbehind, _⟩ := ih hctor
    refine ⟨?_, ?_, ?_⟩
    · intro hpos
      exact hbefore hpos.original.2
    · intro hpos
      exact hbehind hpos.original
    · intro hpos
      cases hpos.1
  | @returns F k i callee f ps cs cs' fr fr' o hi _ _ _ ih ih' =>
    intro hctor
    obtain ⟨_, hbehind, _⟩ := ih' hctor
    refine ⟨?_, ?_, ?_⟩
    · intro hpos
      have hphi := hpos.original.1
      simp [Instr.isPHI, hi] at hphi
    · intro hpos
      rw [hookBrackets_append, hbehind hpos.original, Forest.tokens_append, ← ih,
        List.append_assoc]
    · intro hpos
      cases hpos.1
  | @unwinds F k i callee f ps cs fr hi _ _ ih =>
    intro _
    refine ⟨?_, ?_, ?_⟩
    · intro hpos
      have hphi := hpos.original.1
      simp [Instr.isPHI, hi] at hphi
    · intro _
      change hookBrackets cs = _ at ih
      rw [ih, Program.exitToken, if_neg (by decide), List.append_nil]
    · intro hpos
      cases hpos.1
  | @ret F k b v hb ht =>
    intro hctor
    refine ⟨fun hpos ↦ hpos.ne_nil.elim, ?_, fun _ ↦ ⟨rfl, rfl, rfl⟩⟩
    intro hpos
    obtain ⟨b₀, m, hb₀, rfl⟩ := Program.instrumented_block hctor hb
    have hterminator : b₀.terminator = .ret v := ht
    have hret := hpos.not_return hb₀
    rw [hterminator] at hret
    cases hret
  | @resume F k b v hb ht =>
    intro hctor
    refine ⟨fun hpos ↦ hpos.ne_nil.elim, fun _ ↦ rfl, fun hpos ↦ ?_⟩
    exact (Program.Behind.not_atReturn hctor hb (by rw [ht]; rfl) hpos).elim
  | @br F k k' b b' targets cs fr o hb ht hk hb' _ ih =>
    intro hctor
    refine ⟨fun hpos ↦ hpos.ne_nil.elim, fun _ ↦ ?_, fun hpos ↦ ?_⟩
    · have hsucc : k' ∈ b.terminator.successors := by rwa [ht]
      exact (ih hctor).2.1 (Program.behind_successor hctor hb hsucc hb')
    · exact (Program.Behind.not_atReturn hctor hb (by rw [ht]; rfl) hpos).elim
  | @invoke F k normal unwind b b' callee f cs cs' fr fr' o o' hb ht _ _ hb' _ ih ih' =>
    intro hctor
    refine ⟨fun hpos ↦ hpos.ne_nil.elim, fun _ ↦ ?_, fun hpos ↦ ?_⟩
    · have hsucc : (if o = .returned then normal else unwind) ∈ b.terminator.successors := by
        rw [ht]
        split
        · exact List.mem_cons_self
        · exact List.mem_cons_of_mem _ List.mem_cons_self
      rw [hookBrackets_append, Forest.tokens_append, ← ih, List.append_assoc,
        (ih' hctor).2.1 (Program.behind_successor hctor hb hsucc hb')]
    · exact (Program.Behind.not_atReturn hctor hb (by rw [ht]; rfl) hpos).elim

/-- An execution calls the hooks only. -/
theorem Runs.hooks {P : Program} {pos : Position} {cs : List Call} {fr : Forest} {o : Outcome}
    (h : Runs P pos cs fr o) : ∀ c ∈ cs, c.IsHook := by
  have happend {cs cs' : List Call} (h : ∀ c ∈ cs, c.IsHook) (h' : ∀ c ∈ cs', c.IsHook) :
      ∀ c ∈ cs ++ cs', c.IsHook := by
    intro c hc
    rcases List.mem_append.mp hc with hmem | hmem
    · exact h c hmem
    · exact h' c hmem
  induction h with
  | body _ _ _ ih => exact ih
  | foreign _ _ ih => exact ih
  | done o => simp
  | calls _ _ ih ih' => exact happend ih ih'
  | @inserted F k i ps cs cs' fr o hi _ ih =>
    apply happend _ ih
    intro c hc
    cases i with
    | ptrToInt n source =>
      cases hi
      cases hc
    | functionEntry f =>
      obtain ⟨a, _, rfl⟩ := hi
      cases List.mem_singleton.mp hc
      trivial
    | functionExit f =>
      obtain ⟨a, _, rfl⟩ := hi
      cases List.mem_singleton.mp hc
      trivial
    | memAccess addr size isWrite =>
      obtain ⟨a, site, _, rfl⟩ := hi
      cases List.mem_singleton.mp hc
      trivial
  | plain _ _ ih => exact ih
  | returns _ _ _ _ ih ih' => exact happend ih ih'
  | unwinds _ _ _ ih => exact ih
  | ret _ _ => simp
  | resume _ _ => simp
  | br _ _ _ _ _ ih => exact ih
  | invoke _ _ _ _ _ _ ih ih' => exact happend ih ih'

/-! ### The recorded stream -/

/-- While the switch is on and nothing is monitored every hook records its token. -/
theorem records_tokens {s : Switch} (hdisable : s.flags.disable = false)
    (hname : s.flags.filename.isSome = true) (hmonitor : s.monitorFunc = false) {cs : List Call}
    (h : ∀ c ∈ cs, c.IsHook) : (s.records cs).map Logged.token = cs.map Call.token := by
  have hnone : s.flags.filename.isNone = false := by
    simpa [Option.isSome_iff_ne_none] using hname
  induction cs with
  | nil => rfl
  | cons c cs ih =>
    have hrest := ih fun d hd ↦ h d (by simp [hd])
    rw [Switch.records_cons, List.map_append, List.map_cons]
    cases c with
    | functionEntry a =>
      have hsame : s.entry a = s := by simp [Switch.entry, Switch.monitors, hmonitor]
      simp only [Switch.next, Switch.record, hsame, hdisable, hrest]
      rfl
    | functionExit a =>
      have hsame : s.exit a = s := by simp [Switch.exit, Switch.monitors, hmonitor]
      simp only [Switch.next, Switch.record, hsame, hdisable, hrest]
      rfl
    | access a size isWrite site =>
      simp only [Switch.next, Switch.record, hdisable, hnone, hrest]
      rfl
    | enable => exact (h .enable (by simp)).elim
    | disable => exact (h .disable (by simp)).elim

/-- The execution's calls are recorded, and every recorded exit carries the address of the
innermost recorded entry still open. -/
def ExitsMatch (lz : Lz4) (start : Startup) (cs : List Call) : Prop :=
  ∃ r es, runCalls lz (memaInitialize start) cs = .ok (r, es) ∧
    Matched [] (es.map Logged.token)

theorem exitsMatch_iff_matched (lz : Lz4) {start : Startup} (hstart : start.Enabled)
    {cs : List Call} (h : ∀ c ∈ cs, c.IsHook) :
    ExitsMatch lz start cs ↔ Matched [] (hookBrackets cs) := by
  have htraced := memaInitialize_traced lz hstart.filename hstart.fd
  obtain ⟨hflags, hmonitor⟩ := memaInitialize_settings hstart
  obtain ⟨r, hr, _, _⟩ := (maintained_traced lz _).run
    ⟨_, htraced, Chunks.Log.filled_empty (by decide)⟩ cs
  have htokens := records_tokens (s := (memaInitialize start).switch)
    (by rw [Runtime.switch, hflags, hstart.disable])
    (by rw [Runtime.switch, hflags, hstart.filename]) hmonitor h
  rw [hookBrackets, matched_brackets, ← htokens]
  constructor
  · rintro ⟨r', es, hes, hmatched⟩
    rw [hr] at hes
    cases hes
    exact hmatched
  · intro hmatched
    exact ⟨r, _, hr, hmatched⟩

/-- In an execution of an instrumented program with tracing enabled the recorded exits match
exactly when whatever returns finds a frame of its own innermost: no frame left open inside it by
unwinding, or one of the same function. -/
theorem exitsMatch_iff {P : Program} {cs : List Call} {fr : Forest} {o : Outcome}
    (h : Runs P .foreign cs fr o) (lz : Lz4) {start : Startup} (hstart : start.Enabled) :
    ExitsMatch lz start cs ↔ fr.ReturnsToOwn P.functionAddr := by
  have hbrackets : hookBrackets cs = fr.tokens P.functionAddr := h.brackets
  rw [exitsMatch_iff_matched lz hstart h.hooks, hbrackets, Forest.matched_tokens]

section Example

/-- A function that calls another in a `try` block and returns either way. -/
def catcher : Function where
  id := 1
  entry := ⟨[], .invoke (.constant (.function 2)) 1 2⟩
  others := [⟨[], .ret none⟩, ⟨[], .br [1]⟩]
  entry_first := by decide

/-- A function that throws by way of a library function. -/
def thrower : Function where
  id := 2
  entry := ⟨[⟨0, .call (.constant (.function 3))⟩], .unreachable⟩
  others := []
  entry_first := by decide

/-- The two in a program. -/
def throwing : Program where
  functionAddr f := .ofNat (16 * f)
  other _ := 0
  TD := ⟨id⟩
  ctor := 0
  functions := [catcher, thrower]

/-- The hooks called when the exception is caught. -/
def caughtCalls : List Call :=
  [.functionEntry 16, .functionEntry 32, .functionExit 16]

/-- The activations when the exception is caught. -/
def caughtForest : Forest := .cons 1 (.cons 2 .nil .unwound .nil) .returned .nil

private theorem thrower_runs :
    Runs throwing (.call 2) [.functionEntry 32] (.cons 2 .nil .unwound .nil) .unwound := by
  have hcall : Runs throwing (.call 3) [] .nil .unwound := .foreign rfl (.done .unwound)
  have hbody : Runs throwing (.insts thrower 0 [.original ⟨0, .call (.constant (.function 3))⟩])
      [] .nil .unwound := .unwinds rfl rfl hcall
  have hentry : throwing.performs (.functionEntry (funcptrOf 2)) [.functionEntry 32] :=
    ⟨32, rfl, rfl⟩
  exact .body rfl rfl (.inserted hentry hbody)

private theorem catcher_runs : Runs throwing (.call 1) caughtCalls caughtForest .returned := by
  have hexit : throwing.performs (.functionExit (funcptrOf 1)) [.functionExit 16] :=
    ⟨16, rfl, rfl⟩
  have hentry : throwing.performs (.functionEntry (funcptrOf 1)) [.functionEntry 16] :=
    ⟨16, rfl, rfl⟩
  have hret : Runs throwing (.insts catcher 1 []) [] .nil .returned :=
    .ret (b := ⟨[.inserted (.functionExit (funcptrOf 1))], .ret none⟩) rfl rfl
  have hcaught : Runs throwing (.insts catcher 2 []) [.functionExit 16] .nil .returned :=
    .br (b := ⟨[], .br [1]⟩) rfl rfl (List.mem_singleton_self 1)
      rfl (.inserted hexit hret)
  have hcallee : Program.mayCall (.constant (.function 2)) 2 := rfl
  have hinvoke : Runs throwing (.insts catcher 0 [])
      ([.functionEntry 32] ++ [.functionExit 16]) (.cons 2 .nil .unwound .nil) .returned :=
    .invoke (b := ⟨[.inserted (.functionEntry (funcptrOf 1))],
      .invoke (.constant (.function 2)) 1 2⟩) rfl rfl hcallee thrower_runs rfl hcaught
  exact .body rfl rfl (.inserted hentry hinvoke)

private theorem caught_runs : Runs throwing .foreign caughtCalls caughtForest .returned :=
  .calls catcher_runs (.done .returned)

/-- The exit of the catching function closes the frame that the throwing one left. -/
theorem exitsMatch_iff_caught :
    ExitsMatch id Startup.toFile caughtCalls ↔ caughtForest.ReturnsToOwn throwing.functionAddr :=
  exitsMatch_iff caught_runs id ⟨rfl, rfl, by decide, .inl rfl⟩

/-- When an exception passes through a function to its caller, the caller's exit carries another
address than the innermost open entry. -/
theorem unwinding_not_matched :
    ¬ ∀ (P : Program) (cs : List Call) (fr : Forest) (o : Outcome), Runs P .foreign cs fr o →
      ∀ (lz : Lz4) (start : Startup), start.Enabled → ExitsMatch lz start cs := by
  intro h
  have hstart : Startup.toFile.Enabled := ⟨rfl, rfl, by decide, .inl rfl⟩
  have hmatch := h throwing caughtCalls caughtForest .returned caught_runs id Startup.toFile hstart
  rw [exitsMatch_iff_matched id hstart caught_runs.hooks] at hmatch
  exact absurd hmatch.1 (by decide)

end Example

end Mema.Memapass
