import Mathlib.Data.List.Basic

/-!
# The instrumenting pass

`memapass/LLVMMema/Pass.cpp:81–227`: calls of the runtime are inserted into each function body,
at its entry, before its returns and before its memory accesses. Instructions keep of LLVM's what
the pass and the later arguments look at.
-/

namespace Mema.Memapass

/-! ### Bodies -/

/-- An LLVM type. -/
abbrev Ty := Nat

/-- A function of the module. -/
abbrev FunctionId := Nat

/-- A basic block, by its place in the function. -/
abbrev BlockId := Nat

/-- A constant; `other` stands for globals, literals and expressions. -/
inductive Constant
  | function (f : FunctionId)
  | ptrToInt (source : Constant)
  | other (id : Nat)
  deriving DecidableEq, Repr

/-- A value of the original body: an argument or an instruction's result, or a constant. -/
inductive Operand
  | register (r : Nat)
  | constant (value : Constant)
  deriving DecidableEq, Repr

/-- What an instruction does. The type of an access is what its pointer points to. -/
inductive Opcode
  | phi
  | load (type : Ty) (pointer : Operand)
  | store (type : Ty) (pointer : Operand)
  | atomicRMW (type : Ty) (pointer : Operand)
  | atomicCmpXchg (type : Ty) (pointer : Operand)
  | memIntrinsic (rawDest : Operand) (transfer : Bool)
  | call (callee : Operand)
  | other (op : Nat)
  deriving DecidableEq, Repr

/-- An instruction before the terminator of its block. -/
structure Instr where
  id : Nat
  opcode : Opcode
  deriving DecidableEq, Repr

/-- `PHINode`. -/
def Instr.isPHI (i : Instr) : Bool := i.opcode = .phi

/-- The last instruction of a block; `br` stands for every branch within the function. -/
inductive Terminator
  | ret (value : Option Operand)
  | br (targets : List BlockId)
  | invoke (callee : Operand) (normal unwind : BlockId)
  | resume (value : Operand)
  | unreachable
  deriving DecidableEq, Repr

/-- `ReturnInst`. -/
def Terminator.isReturn : Terminator → Bool
  | .ret _ => true
  | _ => false

/-- The blocks that may run next. -/
def Terminator.successors : Terminator → List BlockId
  | .br targets => targets
  | .invoke _ normal unwind => [normal, unwind]
  | _ => []

/-- `BasicBlock`. -/
structure BasicBlock where
  insts : List Instr
  terminator : Terminator
  deriving DecidableEq, Repr

/-- A function with a body: its entry block, which no block branches to, and the others. -/
structure Function where
  id : FunctionId
  entry : BasicBlock
  others : List BasicBlock
  entry_first : ∀ b ∈ entry :: others, 0 ∉ b.terminator.successors

/-- The blocks, the entry first. -/
def Function.blocks (F : Function) : List BasicBlock := F.entry :: F.others

/-! ### Inserted instructions -/

/-- A value the pass hands to a callback: one of the body or constant, or an inserted cast. -/
inductive Value
  | operand (v : Operand)
  | cast (n : Nat)
  deriving DecidableEq, Repr

/-- What the pass inserts: casts, and calls of the three callbacks. -/
inductive Inserted
  | ptrToInt (n : Nat) (source : Operand)
  | functionEntry (f : Value)
  | functionExit (f : Value)
  | memAccess (addr : Value) (size : UInt8) (isWrite : Bool)
  deriving DecidableEq, Repr

/-- An instruction of a body that the pass works on. -/
inductive Placed
  | original (i : Instr)
  | inserted (i : Inserted)
  deriving DecidableEq, Repr

/-- The body's own instruction, when it is one. -/
def Placed.erase : Placed → Option Instr
  | .original i => some i
  | .inserted _ => none

/-- A block that the pass works on. -/
structure OutBlock where
  insts : List Placed
  terminator : Terminator
  deriving DecidableEq, Repr

/-- A function that the pass works on. -/
structure OutFunction where
  id : FunctionId
  blocks : List OutBlock
  deriving DecidableEq, Repr

/-- A block before the pass. -/
def BasicBlock.unchanged (b : BasicBlock) : OutBlock := ⟨b.insts.map .original, b.terminator⟩

/-- A function before the pass. -/
def Function.unchanged (F : Function) : OutFunction := ⟨F.id, F.blocks.map BasicBlock.unchanged⟩

/-- Delete the inserted instructions of a block. -/
def OutBlock.erase (b : OutBlock) : BasicBlock := ⟨b.insts.filterMap Placed.erase, b.terminator⟩

/-! ### The pass -/

/-- `DataLayout`, as far as the pass asks it. -/
structure DataLayout where
  typeStoreSizeInBits : Ty → Nat

/-- `CreatePointerCast` to an integer: a constant is folded, else a cast is inserted. -/
def createPointerCast (n : Nat) : Operand → Value × List Placed × Nat
  | .constant c => (.operand (.constant (.ptrToInt c)), [], n)
  | .register r => (.cast n, [.inserted (.ptrToInt n (.register r))], n + 1)

/-- `isInterestingMemoryAccess`, `Pass.cpp:117–135`: the pointer, its type and `IsWrite`. -/
def isInterestingMemoryAccess : Placed → Option (Operand × Ty × Bool)
  | .original ⟨_, .load type pointer⟩ => some (pointer, type, false)
  | .original ⟨_, .store type pointer⟩ => some (pointer, type, true)
  | .original ⟨_, .atomicRMW type pointer⟩ => some (pointer, type, true)
  | .original ⟨_, .atomicCmpXchg type pointer⟩ => some (pointer, type, true)
  | _ => none

/-- The destination of a `MemIntrinsic`. -/
def memIntrinsicDest : Placed → Option Operand
  | .original ⟨_, .memIntrinsic rawDest _⟩ => some rawDest
  | _ => none

section Pass

variable (TD : DataLayout)

/-- What the second loop inserts before an instruction, `Pass.cpp:176–207`; a size is passed in
eight bits. -/
def instrumentAccess (n : Nat) (p : Placed) : List Placed × Nat :=
  match isInterestingMemoryAccess p with
  | some (addr, type, isWrite) =>
    let (addrLong, casts, n) := createPointerCast n addr
    let size := .ofNat (TD.typeStoreSizeInBits type)
    (casts ++ [.inserted (.memAccess addrLong size isWrite)], n)
  | none =>
    match memIntrinsicDest p with
    | some rawDest =>
      let (addrLong, casts, n) := createPointerCast n rawDest
      (casts ++ [.inserted (.memAccess addrLong 0 true)], n)
    | none => ([], n)

/-- The second loop over the instructions of a block, `Pass.cpp:170–219`. -/
def instrumentInsts : Nat → List Placed → List Placed × Nat
  | n, [] => ([], n)
  | n, p :: ps =>
    let (before, n) := instrumentAccess TD n p
    let (rest, n) := instrumentInsts n ps
    (before ++ p :: rest, n)

/-- The second loop over the blocks, `Pass.cpp:169–220`. -/
def instrumentBlocks : Nat → List OutBlock → List OutBlock
  | _, [] => []
  | n, b :: bs =>
    let (insts, n) := instrumentInsts TD n b.insts
    ⟨insts, b.terminator⟩ :: instrumentBlocks n bs

/-- The call before the first instruction of the entry block that is no PHI,
`Pass.cpp:147–156`. -/
def insertEntry (funcptr : Value) : List OutBlock → List OutBlock
  | [] => []
  | b :: bs =>
    let isPHI (p : Placed) : Bool := p.erase.any Instr.isPHI
    ⟨b.insts.takeWhile isPHI ++ .inserted (.functionEntry funcptr) :: b.insts.dropWhile isPHI,
      b.terminator⟩ :: bs

/-- The first loop in a block: a call before its return, `Pass.cpp:158–165`. -/
def insertExit (funcptr : Value) (b : OutBlock) : OutBlock :=
  if b.terminator.isReturn then
    ⟨b.insts ++ [.inserted (.functionExit funcptr)], b.terminator⟩
  else b

/-- `MemaPass::handleFunction`, `Pass.cpp:139–226`; the module constructor is left alone. -/
def handleFunction (ctor : FunctionId) (F : Function) : OutFunction :=
  if F.id = ctor then F.unchanged
  else
    let funcptr : Value := .operand (.constant (.ptrToInt (.function F.id)))
    let blocks := insertEntry funcptr F.unchanged.blocks
    let blocks := blocks.map (insertExit funcptr)
    ⟨F.id, instrumentBlocks TD 0 blocks⟩

end Pass

/-- The module constructor that the pass creates, `Pass.cpp:87–99`: a call of
`__mema_initialize`. -/
def moduleCtor (ctor init : FunctionId) : Function where
  id := ctor
  entry := ⟨[⟨0, .call (.constant (.function init))⟩], .ret none⟩
  others := []
  entry_first := by simp [Terminator.successors]

/-- `MemaPass::runOnModule`, `Pass.cpp:81–115`, on the functions with a body. Without a data
layout nothing is changed. -/
def runOnModule (TD : Option DataLayout) (ctor init : FunctionId) (M : List Function) :
    List OutFunction :=
  match TD with
  | none => M.map Function.unchanged
  | some TD => (M ++ [moduleCtor ctor init]).map (handleFunction TD ctor)

end Mema.Memapass
