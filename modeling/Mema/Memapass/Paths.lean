import Mathlib.Data.List.TakeWhile
import Mema.Memapass.Pass

/-!
# Callbacks along a path

What the instrumented body calls when it runs along a path from its entry to a return, compared
with the accesses of the original instructions on that path.
-/

namespace Mema.Memapass

/-- A callback as the runtime receives it. -/
inductive Callback
  | functionEntry (f : UInt64)
  | functionExit (f : UInt64)
  | memAccess (addr : UInt64) (size : UInt8) (isWrite : Bool)
  deriving DecidableEq, Repr

/-- Where the program was loaded: the values of its constants. -/
structure Addresses where
  functionAddr : FunctionId → UInt64
  other : Nat → UInt64

/-- A constant read as a number; a cast to an integer keeps it. -/
def Addresses.constant (g : Addresses) : Constant → UInt64
  | .function f => g.functionAddr f
  | .ptrToInt source => constant g source
  | .other id => g.other id

/-- How the original instructions act: any machine with registers. -/
structure Semantics (σ : Type) extends Addresses where
  exec : BlockId → Instr → σ → σ
  leave : BlockId → Terminator → σ → σ
  register : σ → Nat → UInt64

/-- A function's address is the pointer the pass casts. -/
def funcptrOf (f : FunctionId) : Value := .operand (.constant (.ptrToInt (.function f)))

namespace Semantics

variable {σ : Type} (g : Semantics σ)

/-- A value of the body. -/
def operand (s : σ) : Operand → UInt64
  | .register r => g.register s r
  | .constant c => g.constant c

/-- A value handed to a callback, given the results of the casts. -/
def value (s : σ) (casts : Nat → UInt64) : Value → UInt64
  | .operand v => g.operand s v
  | .cast n => casts n

/-- The instructions of a block in order: callbacks, the state behind them, and the casts. -/
def runInsts (k : BlockId) :
    List Placed → σ → (Nat → UInt64) → List Callback × σ × (Nat → UInt64)
  | [], s, casts => ([], s, casts)
  | .original i :: ps, s, casts => runInsts k ps (g.exec k i s) casts
  | .inserted (.ptrToInt n source) :: ps, s, casts =>
    runInsts k ps s fun m ↦ if m = n then g.operand s source else casts m
  | .inserted (.functionEntry f) :: ps, s, casts =>
    let (callbacks, s', casts') := runInsts k ps s casts
    (.functionEntry (g.value s casts f) :: callbacks, s', casts')
  | .inserted (.functionExit f) :: ps, s, casts =>
    let (callbacks, s', casts') := runInsts k ps s casts
    (.functionExit (g.value s casts f) :: callbacks, s', casts')
  | .inserted (.memAccess addr size isWrite) :: ps, s, casts =>
    let (callbacks, s', casts') := runInsts k ps s casts
    (.memAccess (g.value s casts addr) size isWrite :: callbacks, s', casts')

/-- The callbacks of a function along a path of blocks. -/
def runPath (blocks : List OutBlock) : List BlockId → σ → (Nat → UInt64) → List Callback
  | [], _, _ => []
  | k :: ks, s, casts =>
    match blocks[k]? with
    | none => []
    | some b =>
      let (callbacks, s, casts) := g.runInsts k b.insts s casts
      callbacks ++ runPath blocks ks (g.leave k b.terminator s) casts

end Semantics

/-! ### The original accesses -/

/-- Pointer, size argument and write flag that the runtime should see of an instruction. -/
def Instr.access (TD : DataLayout) (i : Instr) : Option (Operand × UInt8 × Bool) :=
  match i.opcode with
  | .load type pointer => some (pointer, .ofNat (TD.typeStoreSizeInBits type), false)
  | .store type pointer => some (pointer, .ofNat (TD.typeStoreSizeInBits type), true)
  | .atomicRMW type pointer => some (pointer, .ofNat (TD.typeStoreSizeInBits type), true)
  | .atomicCmpXchg type pointer => some (pointer, .ofNat (TD.typeStoreSizeInBits type), true)
  | .memIntrinsic rawDest _ => some (rawDest, 0, true)
  | _ => none

namespace Semantics

variable {σ : Type} (g : Semantics σ) (TD : DataLayout)

/-- The access of an instruction that runs in a state. -/
def accessIn (s : σ) (i : Instr) : List Callback :=
  ((i.access TD).map fun a ↦ .memAccess (g.operand s a.1) a.2.1 a.2.2).toList

/-- The accesses of original instructions. -/
def accesses (k : BlockId) : List Instr → σ → List Callback
  | [], _ => []
  | i :: is, s => g.accessIn TD s i ++ accesses k is (g.exec k i s)

/-- The state behind original instructions. -/
def execAll (k : BlockId) (is : List Instr) (s : σ) : σ := is.foldl (fun s i ↦ g.exec k i s) s

/-- The accesses of the original function along a path of blocks. -/
def pathAccesses (blocks : List BasicBlock) : List BlockId → σ → List Callback
  | [], _ => []
  | k :: ks, s =>
    match blocks[k]? with
    | none => []
    | some b =>
      g.accesses TD k b.insts s ++
        pathAccesses blocks ks (g.leave k b.terminator (g.execAll k b.insts s))

end Semantics

/-- Paths along the branches from a block to a return. -/
inductive ReturnPath (blocks : List BasicBlock) : BlockId → List BlockId → Prop
  | ret {k : BlockId} {b : BasicBlock} (hb : blocks[k]? = some b)
      (hret : b.terminator.isReturn = true) : ReturnPath blocks k [k]
  | step {k k' : BlockId} {ks : List BlockId} {b : BasicBlock} (hb : blocks[k]? = some b)
      (hsucc : k' ∈ b.terminator.successors) (h : ReturnPath blocks k' ks) :
      ReturnPath blocks k (k :: ks)

/-- The instrumented function reports each returning path of the original exactly. -/
structure Instruments (TD : DataLayout) (F : Function) (out : OutFunction) : Prop where
  callbacks : ∀ {σ : Type} (g : Semantics σ) (path : List BlockId),
    ReturnPath F.blocks 0 path → ∀ (s : σ) (casts : Nat → UInt64),
      g.runPath out.blocks path s casts =
        .functionEntry (g.functionAddr F.id) :: g.pathAccesses TD F.blocks path s ++
          [.functionExit (g.functionAddr F.id)]
  exits : ∀ b ∈ out.blocks, b.terminator.isReturn = true →
    b.insts.getLast? = some (.inserted (.functionExit (funcptrOf F.id)))
  once : ∀ k : BlockId, (out.blocks[k]?.map fun b ↦ b.insts.countP fun p ↦
      p matches .inserted (.memAccess _ _ _)) =
    F.blocks[k]?.map fun b ↦ b.insts.countP fun i ↦ (i.access TD).isSome
  erased : out.id = F.id ∧ out.blocks.map OutBlock.erase = F.blocks

/-! ### One instruction -/

section Insts

variable {σ : Type} (g : Semantics σ) (TD : DataLayout)

theorem access_placed (i : Instr) :
    i.access TD = match isInterestingMemoryAccess (.original i) with
      | some (addr, type, isWrite) => some (addr, .ofNat (TD.typeStoreSizeInBits type), isWrite)
      | none => (memIntrinsicDest (.original i)).map fun rawDest ↦ (rawDest, 0, true) := by
  obtain ⟨id, opcode⟩ := i
  cases opcode <;> rfl

/-- A cast and a call that uses it report the operand. -/
theorem runInsts_reported (k n : Nat) (v : Operand) (size : UInt8) (isWrite : Bool)
    (ps : List Placed) (s : σ) (casts : Nat → UInt64) :
    ∃ casts', g.runInsts k ((createPointerCast n v).2.1 ++
        .inserted (.memAccess (createPointerCast n v).1 size isWrite) :: ps) s casts =
      (.memAccess (g.operand s v) size isWrite :: (g.runInsts k ps s casts').1,
        (g.runInsts k ps s casts').2) := by
  cases v with
  | constant c => exact ⟨casts, rfl⟩
  | register r =>
    refine ⟨fun m ↦ if m = n then g.register s r else casts m, ?_⟩
    simp [createPointerCast, Semantics.runInsts, Semantics.value, Semantics.operand]

/-- What is inserted before an original instruction reports its access and changes nothing
else. -/
theorem runInsts_before (k n : Nat) (i : Instr) (ps : List Placed) (s : σ)
    (casts : Nat → UInt64) :
    ∃ casts', g.runInsts k ((instrumentAccess TD n (.original i)).1 ++ ps) s casts =
      (g.accessIn TD s i ++ (g.runInsts k ps s casts').1, (g.runInsts k ps s casts').2) := by
  rw [Semantics.accessIn, access_placed, instrumentAccess]
  cases isInterestingMemoryAccess (.original i) with
  | some a =>
    obtain ⟨addr, type, isWrite⟩ := a
    rw [List.append_assoc]
    exact runInsts_reported g k n addr _ isWrite ps s casts
  | none =>
    cases memIntrinsicDest (.original i) with
    | some rawDest =>
      rw [List.append_assoc]
      exact runInsts_reported g k n rawDest 0 true ps s casts
    | none => exact ⟨casts, rfl⟩

theorem runInsts_append (k : BlockId) (ps qs : List Placed) (s : σ) (casts : Nat → UInt64) :
    g.runInsts k (ps ++ qs) s casts =
      ((g.runInsts k ps s casts).1 ++
          (g.runInsts k qs (g.runInsts k ps s casts).2.1 (g.runInsts k ps s casts).2.2).1,
        (g.runInsts k qs (g.runInsts k ps s casts).2.1 (g.runInsts k ps s casts).2.2).2) := by
  induction ps generalizing s casts with
  | nil => rfl
  | cons p ps ih =>
    rw [List.cons_append]
    cases p with
    | original i => exact ih _ _
    | inserted i =>
      cases i with
      | ptrToInt n source => exact ih _ _
      | functionEntry f => simp only [Semantics.runInsts, ih, List.cons_append]
      | functionExit f => simp only [Semantics.runInsts, ih, List.cons_append]
      | memAccess addr size isWrite => simp only [Semantics.runInsts, ih, List.cons_append]

theorem instrumentInsts_append (n : Nat) (ps qs : List Placed) :
    (instrumentInsts TD n (ps ++ qs)).1 =
      (instrumentInsts TD n ps).1 ++
        (instrumentInsts TD (instrumentInsts TD n ps).2 qs).1 := by
  induction ps generalizing n with
  | nil => rfl
  | cons p ps ih =>
    rw [List.cons_append]
    simp only [instrumentInsts, ih, List.append_assoc, List.cons_append]

/-- The instrumented originals of a block report their accesses and act like the originals. -/
theorem runInsts_originals (k n : Nat) (is : List Instr) (s : σ) (casts : Nat → UInt64) :
    ∃ casts', g.runInsts k (instrumentInsts TD n (is.map .original)).1 s casts =
      (g.accesses TD k is s, g.execAll k is s, casts') := by
  induction is generalizing n s casts with
  | nil => exact ⟨casts, rfl⟩
  | cons i is ih =>
    simp only [List.map_cons, instrumentInsts]
    obtain ⟨casts₁, hbefore⟩ := runInsts_before g TD k n i
      (.original i :: (instrumentInsts TD (instrumentAccess TD n (.original i)).2
        (is.map .original)).1) s casts
    obtain ⟨casts₂, hrest⟩ :=
      ih (instrumentAccess TD n (.original i)).2 (g.exec k i s) casts₁
    refine ⟨casts₂, ?_⟩
    rw [hbefore, Semantics.runInsts, hrest]
    rfl

end Insts

/-! ### One block -/

/-- The instructions of a block before the second loop. -/
def Function.placed (F : Function) (k : BlockId) (b : BasicBlock) : List Placed :=
  (if k = 0 then (b.insts.takeWhile Instr.isPHI).map Placed.original ++
      .inserted (.functionEntry (funcptrOf F.id)) ::
        (b.insts.dropWhile Instr.isPHI).map .original
    else b.insts.map .original) ++
  if b.terminator.isReturn then [.inserted (.functionExit (funcptrOf F.id))] else []

section Blocks

variable (TD : DataLayout) (F : Function)

theorem instrumentBlocks_getElem {bs : List OutBlock} {k : BlockId} {b : OutBlock}
    (hb : bs[k]? = some b) (n : Nat) :
    ∃ m, (instrumentBlocks TD n bs)[k]? =
      some ⟨(instrumentInsts TD m b.insts).1, b.terminator⟩ := by
  induction bs generalizing n k with
  | nil => simp at hb
  | cons b' bs ih =>
    cases k with
    | zero =>
      cases hb
      exact ⟨n, rfl⟩
    | succ k =>
      rw [List.getElem?_cons_succ] at hb
      obtain ⟨m, hm⟩ := ih hb (instrumentInsts TD n b'.insts).2
      exact ⟨m, by simpa [instrumentBlocks] using hm⟩

theorem length_instrumentBlocks (n : Nat) (bs : List OutBlock) :
    (instrumentBlocks TD n bs).length = bs.length := by
  induction bs generalizing n with
  | nil => rfl
  | cons b bs ih => simp [instrumentBlocks, ih]

private theorem takeWhile_original (is : List Instr) :
    (is.map Placed.original).takeWhile (fun p ↦ p.erase.any Instr.isPHI) =
      (is.takeWhile Instr.isPHI).map .original := by
  rw [List.takeWhile_map]
  rfl

private theorem dropWhile_original (is : List Instr) :
    (is.map Placed.original).dropWhile (fun p ↦ p.erase.any Instr.isPHI) =
      (is.dropWhile Instr.isPHI).map .original := by
  rw [List.dropWhile_map]
  rfl

/-- A block of the handled function: its own instructions with the calls of the first loop, run
through the second. -/
theorem handleFunction_block {ctor : FunctionId} (hctor : F.id ≠ ctor) {k : BlockId}
    {b : BasicBlock} (hb : F.blocks[k]? = some b) :
    ∃ m, (handleFunction TD ctor F).blocks[k]? =
      some ⟨(instrumentInsts TD m (F.placed k b)).1, b.terminator⟩ := by
  rw [handleFunction, if_neg hctor]
  have hplaced : ((insertEntry (funcptrOf F.id) F.unchanged.blocks).map
      (insertExit (funcptrOf F.id)))[k]? = some ⟨F.placed k b, b.terminator⟩ := by
    rw [List.getElem?_map, Function.unchanged, Function.blocks, List.map_cons, insertEntry]
    cases k with
    | zero =>
      cases hb
      simp only [List.getElem?_cons_zero, Option.map_some, insertExit, Function.placed,
        BasicBlock.unchanged, takeWhile_original, dropWhile_original, if_true]
      split
      · rfl
      · simp
    | succ k =>
      have hother : F.others[k]? = some b := hb
      simp only [List.getElem?_cons_succ, List.getElem?_map, hother, Option.map_some, insertExit,
        Function.placed, BasicBlock.unchanged, Nat.succ_ne_zero, if_false]
      split
      · rfl
      · simp
  exact instrumentBlocks_getElem TD hplaced 0

theorem length_handleFunction {ctor : FunctionId} (hctor : F.id ≠ ctor) :
    (handleFunction TD ctor F).blocks.length = F.blocks.length := by
  rw [handleFunction, if_neg hctor]
  simp [length_instrumentBlocks, insertEntry, Function.unchanged, Function.blocks]

end Blocks

/-! ### Along a path -/

section Runs

variable {σ : Type} (g : Semantics σ) (TD : DataLayout) (F : Function)

theorem accesses_append (k : BlockId) (is js : List Instr) (s : σ) :
    g.accesses TD k (is ++ js) s =
      g.accesses TD k is s ++ g.accesses TD k js (g.execAll k is s) := by
  induction is generalizing s with
  | nil => rfl
  | cons i is ih =>
    rw [List.cons_append, Semantics.accesses, Semantics.accesses, ih, List.append_assoc]
    rfl

private theorem accesses_phis (k : BlockId) {is : List Instr} (h : ∀ i ∈ is, i.isPHI = true)
    (s : σ) : g.accesses TD k is s = [] := by
  induction is generalizing s with
  | nil => rfl
  | cons i is ih =>
    have hphi : i.opcode = .phi := by simpa [Instr.isPHI] using h i (by simp)
    have haccess : i.access TD = none := by rw [Instr.access, hphi]
    rw [Semantics.accesses, Semantics.accessIn, haccess, ih fun j hj ↦ h j (by simp [hj])]
    rfl

/-- The call at the entry, as the callback received. -/
private def entryCall (k : BlockId) : List Callback :=
  if k = 0 then [.functionEntry (g.functionAddr F.id)] else []

/-- The call at a return. -/
private def exitCall (b : BasicBlock) : List Callback :=
  if b.terminator.isReturn then [.functionExit (g.functionAddr F.id)] else []

private theorem runInsts_front (k m : Nat) (b : BasicBlock) (s : σ) (casts : Nat → UInt64) :
    ∃ casts', g.runInsts k (instrumentInsts TD m (if k = 0 then
        (b.insts.takeWhile Instr.isPHI).map Placed.original ++
          .inserted (.functionEntry (funcptrOf F.id)) ::
            (b.insts.dropWhile Instr.isPHI).map .original
        else b.insts.map .original)).1 s casts =
      (entryCall g F k ++ g.accesses TD k b.insts s, g.execAll k b.insts s, casts') := by
  by_cases hk : k = 0
  · simp only [if_pos hk, entryCall]
    have hphis : ∀ i ∈ b.insts.takeWhile Instr.isPHI, i.isPHI = true :=
      fun i hi ↦ List.mem_takeWhile_imp hi
    obtain ⟨casts₁, hfront⟩ :=
      runInsts_originals g TD k m (b.insts.takeWhile Instr.isPHI) s casts
    obtain ⟨casts₂, hrest⟩ := runInsts_originals g TD k
      (instrumentInsts TD m ((b.insts.takeWhile Instr.isPHI).map .original)).2
      (b.insts.dropWhile Instr.isPHI) (g.execAll k (b.insts.takeWhile Instr.isPHI) s) casts₁
    have hsplit := List.takeWhile_append_dropWhile (p := Instr.isPHI) (l := b.insts)
    have haccesses := accesses_append g TD k (b.insts.takeWhile Instr.isPHI)
      (b.insts.dropWhile Instr.isPHI) s
    rw [hsplit, accesses_phis g TD k hphis, List.nil_append] at haccesses
    have hexec : g.execAll k (b.insts.dropWhile Instr.isPHI)
        (g.execAll k (b.insts.takeWhile Instr.isPHI) s) = g.execAll k b.insts s := by
      rw [Semantics.execAll, Semantics.execAll, ← List.foldl_append, hsplit]
      rfl
    refine ⟨casts₂, ?_⟩
    rw [instrumentInsts_append, runInsts_append, hfront, accesses_phis g TD k hphis]
    simp only [instrumentInsts, instrumentAccess, isInterestingMemoryAccess, memIntrinsicDest,
      List.nil_append, Semantics.runInsts, hrest, haccesses, hexec]
    rfl
  · simp only [if_neg hk, entryCall]
    exact runInsts_originals g TD k m b.insts s casts

/-- What a handled block calls when it runs. -/
private theorem runInsts_placed (k m : Nat) (b : BasicBlock) (s : σ) (casts : Nat → UInt64) :
    ∃ casts', g.runInsts k (instrumentInsts TD m (F.placed k b)).1 s casts =
      (entryCall g F k ++ g.accesses TD k b.insts s ++ exitCall g F b,
        g.execAll k b.insts s, casts') := by
  obtain ⟨casts', hfront⟩ := runInsts_front g TD F k m b s casts
  refine ⟨casts', ?_⟩
  rw [Function.placed, instrumentInsts_append, runInsts_append, hfront, exitCall]
  by_cases hret : b.terminator.isReturn = true
  · rw [if_pos hret, if_pos hret]
    rfl
  · rw [if_neg hret, if_neg hret]
    rfl

private theorem not_isReturn {t : Terminator} {k : BlockId} (h : k ∈ t.successors) :
    t.isReturn = false := by
  cases t with
  | ret value => cases h
  | _ => rfl

/-- A path to a return calls the entry if it starts there, the accesses in order, and the exit
once at its end. -/
private theorem runPath_eq {ctor : FunctionId} (hctor : F.id ≠ ctor) {k : BlockId}
    {path : List BlockId} (h : ReturnPath F.blocks k path) (s : σ) (casts : Nat → UInt64) :
    g.runPath (handleFunction TD ctor F).blocks path s casts =
      entryCall g F k ++ g.pathAccesses TD F.blocks path s ++
        [.functionExit (g.functionAddr F.id)] := by
  induction h generalizing s casts with
  | @ret k b hb hret =>
    obtain ⟨m, hout⟩ := handleFunction_block TD F hctor hb
    obtain ⟨casts', hrun⟩ := runInsts_placed g TD F k m b s casts
    have hexit : exitCall g F b = [.functionExit (g.functionAddr F.id)] := if_pos hret
    simp only [Semantics.runPath, Semantics.pathAccesses, hout, hb, hrun, hexit, List.append_nil]
  | @step k k' ks b hb hsucc h ih =>
    obtain ⟨m, hout⟩ := handleFunction_block TD F hctor hb
    obtain ⟨casts', hrun⟩ := runInsts_placed g TD F k m b s casts
    -- a block with successors does not return, and the entry block is no successor
    have hexit : exitCall g F b = [] := by
      rw [exitCall, not_isReturn hsucc]
      rfl
    have hentry : entryCall g F k' = [] := by
      apply if_neg
      intro hzero
      subst hzero
      exact F.entry_first b (List.mem_of_getElem? hb) hsucc
    have hrest := ih (g.leave k b.terminator (g.execAll k b.insts s)) casts'
    rw [hentry, List.nil_append] at hrest
    simp only [Semantics.runPath, Semantics.pathAccesses, hout, hb, hrun, hexit, List.append_nil,
      hrest, List.append_assoc]

end Runs

section Static

variable (TD : DataLayout) (F : Function)

/-- Whether an instruction is an inserted access call. -/
private def isAccessCall (p : Placed) : Bool := p matches .inserted (.memAccess _ _ _)

private theorem countP_createPointerCast (n : Nat) (v : Operand) :
    (createPointerCast n v).2.1.countP isAccessCall = 0 := by
  cases v <;> rfl

private theorem countP_instrumentAccess (n : Nat) (i : Instr) :
    (instrumentAccess TD n (.original i)).1.countP isAccessCall =
      if (i.access TD).isSome then 1 else 0 := by
  rw [access_placed, instrumentAccess]
  cases isInterestingMemoryAccess (.original i) with
  | some a =>
    obtain ⟨addr, type, isWrite⟩ := a
    simp only [List.countP_append, countP_createPointerCast]
    rfl
  | none =>
    cases memIntrinsicDest (.original i) with
    | some rawDest =>
      simp only [List.countP_append, countP_createPointerCast]
      rfl
    | none => rfl

private theorem countP_instrumentInsts (n : Nat) (is : List Instr) :
    (instrumentInsts TD n (is.map .original)).1.countP isAccessCall =
      is.countP fun i ↦ (i.access TD).isSome := by
  induction is generalizing n with
  | nil => rfl
  | cons i is ih =>
    simp only [List.map_cons, instrumentInsts, List.countP_append, List.countP_cons, ih,
      countP_instrumentAccess]
    simp [isAccessCall, Nat.add_comm]

theorem filterMap_createPointerCast (n : Nat) (v : Operand) :
    (createPointerCast n v).2.1.filterMap Placed.erase = [] := by
  cases v <;> rfl

/-- Only calls and casts are inserted before an instruction. -/
theorem erase_instrumentAccess (n : Nat) (p : Placed) :
    (instrumentAccess TD n p).1.filterMap Placed.erase = [] := by
  rw [instrumentAccess]
  cases isInterestingMemoryAccess p with
  | some a =>
    obtain ⟨addr, type, isWrite⟩ := a
    simp only [List.filterMap_append, filterMap_createPointerCast]
    rfl
  | none =>
    cases memIntrinsicDest p with
    | some rawDest =>
      simp only [List.filterMap_append, filterMap_createPointerCast]
      rfl
    | none => rfl

theorem erase_instrumentInsts (n : Nat) (ps : List Placed) :
    (instrumentInsts TD n ps).1.filterMap Placed.erase = ps.filterMap Placed.erase := by
  induction ps generalizing n with
  | nil => rfl
  | cons p ps ih =>
    simp only [instrumentInsts, List.filterMap_append, erase_instrumentAccess, List.nil_append,
      List.filterMap_cons, ih]

private theorem erase_originals (is : List Instr) :
    (is.map Placed.original).filterMap Placed.erase = is := by
  rw [List.filterMap_map]
  exact List.filterMap_some

theorem erase_placed (k : BlockId) (b : BasicBlock) :
    (F.placed k b).filterMap Placed.erase = b.insts := by
  have hexit : (if b.terminator.isReturn then [Placed.inserted (.functionExit (funcptrOf F.id))]
      else []).filterMap Placed.erase = [] := by
    split
    · rfl
    · rfl
  rw [Function.placed, List.filterMap_append, hexit, List.append_nil]
  split
  · rw [List.filterMap_append, List.filterMap_cons, erase_originals, erase_originals]
    exact List.takeWhile_append_dropWhile
  · exact erase_originals b.insts

private theorem countP_placed (k : BlockId) (m : Nat) (b : BasicBlock) :
    (instrumentInsts TD m (F.placed k b)).1.countP isAccessCall =
      b.insts.countP fun i ↦ (i.access TD).isSome := by
  have hexit (n : Nat) : (instrumentInsts TD n (if b.terminator.isReturn then
      [Placed.inserted (.functionExit (funcptrOf F.id))] else [])).1.countP isAccessCall = 0 := by
    split
    · rfl
    · rfl
  rw [Function.placed, instrumentInsts_append, List.countP_append, hexit, Nat.add_zero]
  split
  · rw [instrumentInsts_append, List.countP_append, countP_instrumentInsts]
    simp only [instrumentInsts, instrumentAccess, isInterestingMemoryAccess, memIntrinsicDest,
      List.nil_append, List.countP_cons, countP_instrumentInsts]
    have hsplit := List.takeWhile_append_dropWhile (p := Instr.isPHI) (l := b.insts)
    have hcount := congrArg (List.countP fun i ↦ (i.access TD).isSome) hsplit
    rw [List.countP_append] at hcount
    simpa [isAccessCall] using hcount
  · exact countP_instrumentInsts TD m b.insts

theorem getLast?_instrumentInsts {k : BlockId} {b : BasicBlock}
    (hret : b.terminator.isReturn = true) (m : Nat) :
    (instrumentInsts TD m (F.placed k b)).1.getLast? =
      some (.inserted (.functionExit (funcptrOf F.id))) := by
  rw [Function.placed, if_pos hret, instrumentInsts_append]
  exact List.getLast?_append_of_ne_nil _ (List.cons_ne_nil _ _)

end Static

/-- A function other than the constructor is instrumented exactly. -/
theorem handleFunction_instruments (TD : DataLayout) {ctor : FunctionId} {F : Function}
    (hctor : F.id ≠ ctor) : Instruments TD F (handleFunction TD ctor F) := by
  have hlength := length_handleFunction TD F hctor
  have hblock (k : BlockId) (b : OutBlock)
      (hb : (handleFunction TD ctor F).blocks[k]? = some b) :
      ∃ b₀ m, F.blocks[k]? = some b₀ ∧
        b = ⟨(instrumentInsts TD m (F.placed k b₀)).1, b₀.terminator⟩ := by
    obtain ⟨hk, _⟩ := List.getElem?_eq_some_iff.mp hb
    rw [hlength] at hk
    obtain ⟨m, hout⟩ := handleFunction_block TD F hctor (List.getElem?_eq_getElem hk)
    rw [hout] at hb
    exact ⟨_, m, List.getElem?_eq_getElem hk, (Option.some.inj hb).symm⟩
  constructor
  · intro σ g path hpath s casts
    exact runPath_eq g TD F hctor hpath s casts
  · intro b hb hret
    obtain ⟨k, hk⟩ := List.mem_iff_getElem?.mp hb
    obtain ⟨b₀, m, _, rfl⟩ := hblock k b hk
    exact getLast?_instrumentInsts TD F hret m
  · intro k
    cases hk : F.blocks[k]? with
    | none =>
      have hnone : (handleFunction TD ctor F).blocks[k]? = none := by
        rw [List.getElem?_eq_none_iff] at hk ⊢
        omega
      rw [hnone]
      rfl
    | some b₀ =>
      obtain ⟨m, hout⟩ := handleFunction_block TD F hctor hk
      rw [hout]
      exact congrArg some (countP_placed TD F k m b₀)
  · constructor
    · rw [handleFunction, if_neg hctor]
    · apply List.ext_getElem?
      intro k
      rw [List.getElem?_map]
      cases hk : F.blocks[k]? with
      | none =>
        have hnone : (handleFunction TD ctor F).blocks[k]? = none := by
          rw [List.getElem?_eq_none_iff] at hk ⊢
          omega
        rw [hnone]
        rfl
      | some b₀ =>
        obtain ⟨m, hout⟩ := handleFunction_block TD F hctor hk
        rw [hout, Option.map_some, OutBlock.erase, erase_instrumentInsts, erase_placed]

/-- With a data layout the pass instruments every function body of the module exactly. -/
theorem runOnModule_instruments (TD : DataLayout) (ctor init : FunctionId) (M : List Function) :
    ∀ F ∈ M, F.id ≠ ctor →
      ∃ out ∈ runOnModule (some TD) ctor init M, Instruments TD F out := by
  intro F hF hctor
  refine ⟨handleFunction TD ctor F, ?_, handleFunction_instruments TD hctor⟩
  exact List.mem_map_of_mem (List.mem_append_left _ hF)

/-- A loop that stores through its argument, behind a load and before a copy. -/
def copyLoop : Function where
  id := 1
  entry := ⟨[⟨0, .load 32 (.register 0)⟩], .br [1]⟩
  others :=
    [⟨[⟨1, .phi⟩, ⟨2, .store 8 (.register 0)⟩, ⟨3, .call (.constant (.function 2))⟩], .br [1, 2]⟩,
      ⟨[⟨4, .memIntrinsic (.constant (.other 0)) true⟩], .ret none⟩]
  entry_first := by decide

/-- The loop in a module of its own. -/
theorem copyLoop_instruments :
    ∃ out ∈ runOnModule (some ⟨id⟩) 0 9 [copyLoop], Instruments ⟨id⟩ copyLoop out :=
  runOnModule_instruments ⟨id⟩ 0 9 [copyLoop] copyLoop (List.mem_singleton_self _) (by decide)

end Mema.Memapass
