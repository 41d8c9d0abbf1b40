import Mema.Lib.Coalesce
import Mema.Record.Views
import Mema.Trace.Buffer

/-!
# memadump's instrumentation

`memagrind/memadump/md_main.c:391–606,667–775,812–1117`. The types repeat what the
instrumentation reads of VEX's superblocks on a 64-bit host; detailed counts, memory traces and
superblock traces have no option and are always on.
-/

namespace Mema.Memadump

open Coalesce

/-! ### Superblocks -/

/-- `IRType`; `other` stands for the types without an index. -/
inductive IRType
  | INVALID | I1 | I8 | I16 | I32 | I64 | I128 | F32 | F64 | F128 | V128 | V256 | other
  deriving DecidableEq, Repr

/-- Number of a temporary of the superblock. -/
abbrev IRTemp := Nat

/-- A constant and its bits. -/
structure IRConst where
  ty : IRType
  value : UInt64
  deriving DecidableEq, Repr

/-- `IRExpr`; `other` stands for the forms that are never looked into. -/
inductive IRExpr
  | rdTmp (tmp : IRTemp)
  | const (con : IRConst)
  | load (ty : IRType) (addr : IRExpr)
  | unop (op : Nat) (arg : IRExpr)
  | binop (op : Nat) (arg1 arg2 : IRExpr)
  | triop (op : Nat) (arg1 arg2 arg3 : IRExpr)
  | qop (op : Nat) (arg1 arg2 arg3 arg4 : IRExpr)
  | mux0X (cond expr0 exprX : IRExpr)
  | other (id : Nat)
  deriving DecidableEq, Repr

/-- `isIRAtom`. -/
def IRExpr.isIRAtom : IRExpr → Bool
  | .rdTmp _ => true
  | .const _ => true
  | _ => false

/-- `eqIRAtom`. -/
def IRExpr.eqIRAtom : IRExpr → IRExpr → Bool
  | .rdTmp t, .rdTmp u => t == u
  | .const c, .const d => c == d
  | _, _ => false

/-- `mkIRExpr_HWord`. -/
def mkIRExprHWord (hw : UInt64) : IRExpr := .const ⟨.I64, hw⟩

/-- `IREffect`: how a dirty helper touches memory. -/
inductive IREffect
  | None | Read | Write | Modify
  deriving DecidableEq, Repr

/-- `IRDirty`. -/
structure IRDirty where
  cee : Nat
  mFx : IREffect
  mAddr : Option IRExpr
  mSize : Int
  tmp : Option IRTemp
  deriving DecidableEq, Repr

/-- `IRCAS`; a doubleword operation has high parts. -/
structure IRCAS where
  oldHi : Option IRTemp
  oldLo : IRTemp
  addr : Option IRExpr
  expdHi : Option IRExpr
  expdLo : IRExpr
  dataHi : Option IRExpr
  dataLo : Option IRExpr
  deriving DecidableEq, Repr

/-- `IRStmt`: the twelve tags of the switch. -/
inductive IRStmt
  | noOp
  | iMark (addr : UInt64) (len : UInt32)
  | abiHint (base : IRExpr) (len : Int)
  | put (offset : Int) (data : IRExpr)
  | putI (ix : IRExpr) (bias : Int) (data : IRExpr)
  | wrTmp (tmp : IRTemp) (data : IRExpr)
  | store (addr data : IRExpr)
  | cas (details : IRCAS)
  | llsc (result : IRTemp) (addr : IRExpr) (storedata : Option IRExpr)
  | dirty (details : IRDirty)
  | mbe (event : Nat)
  | exit (guard : IRExpr) (dst : IRConst)
  deriving DecidableEq, Repr

/-- Whether the tag is `Ist_IMark`. -/
def IRStmt.isIMark : IRStmt → Bool
  | .iMark _ _ => true
  | _ => false

/-- What VEX and Valgrind answer about the superblock and the machine. -/
structure Vex where
  sizeofIRType : IRType → Int
  typeOfIRExpr : IRExpr → IRType
  typeOfIRTemp : IRTemp → IRType
  fnnameIfEntry : UInt64 → Option String
  minInstrSzB : Nat
  maxInstrSzB : Nat
  clreqSzB : Nat

/-- `clo_basic_counts` and `clo_fnname`, which option processing never leaves empty. -/
structure Options where
  basicCounts : Bool
  fnname : String
  fnname_ne : fnname ≠ ""

/-! ### Inserted calls -/

/-- `Op`, the operations with detailed counts. -/
inductive Op
  | OpLoad | OpStore | OpAlu
  deriving DecidableEq, Repr

/-- `MAX_DSIZE`. -/
def maxDsize : Int := 512

/-- `Event`: an outstanding memory event. -/
structure Event where
  ekind : EventKind
  addr : IRExpr
  size : Int
  deriving DecidableEq, Repr

/-- The dirty calls that the instrumentation inserts; the kind of a traced event selects the
helper among `trace_instr`, `trace_load`, `trace_store` and `trace_modify`. -/
inductive HelperCall
  | addOneSBEntered
  | traceSuperblock (addr : UInt64)
  | addOneIRStmt
  | addOneGuestInstr
  | addOneFuncCall
  | addOneJcc
  | addOneJccUntaken
  | addOneInvertedJcc
  | addOneInvertedJccUntaken
  | addOneSBCompleted
  | incrementDetail (op : Op) (typeIx : Nat)
  | trace (ev : Event)
  deriving DecidableEq, Repr

/-- The event of a trace call. -/
def HelperCall.traced : HelperCall → Option Event
  | .trace ev => some ev
  | _ => none

/-- A statement of the instrumented superblock. -/
inductive OutStmt
  | copied (st : IRStmt)
  | helper (call : HelperCall)
  deriving DecidableEq, Repr

/-- The input's statement, when it is one. -/
def OutStmt.original : OutStmt → Option IRStmt
  | .copied st => some st
  | .helper _ => none

/-- `sbOut`, `events` and the variables that one pass over the statements carries. -/
structure SbOut where
  stmts : List OutStmt
  events : List Event
  iaddr : UInt64
  ilen : UInt32

namespace SbOut

/-- `addStmtToIRSB` with a statement of the input. -/
def addStmtToIRSB (sb : SbOut) (st : IRStmt) : SbOut :=
  { sb with stmts := sb.stmts ++ [.copied st] }

/-- `addStmtToIRSB` with a dirty call. -/
def addCall (sb : SbOut) (call : HelperCall) : SbOut :=
  { sb with stmts := sb.stmts ++ [.helper call] }

/-- A call under `if (clo_basic_counts)`. -/
def count (opts : Options) (sb : SbOut) (call : HelperCall) : SbOut :=
  if opts.basicCounts then sb.addCall call else sb

/-- `flushEvents`, `md_main.c:667–705`. -/
def flushEvents (sb : SbOut) : SbOut :=
  { sb with stmts := sb.stmts ++ sb.events.map fun ev ↦ .helper (.trace ev), events := [] }

/-- The last lines of the three `addEvent` functions: flush when full, then append. -/
def appendEvent (nEvents : Nat) (sb : SbOut) (evt : Event) : Except Fault SbOut :=
  let sb := if sb.events.length = nEvents then sb.flushEvents else sb
  if sb.events.length < nEvents then .ok { sb with events := sb.events ++ [evt] }
  else .error .assertion

end SbOut

/-- The sizes that `addEvent_Ir` asserts. -/
def instrSizeOk (vex : Vex) (isize : UInt32) : Bool :=
  (vex.minInstrSzB ≤ isize.toNat && isize.toNat ≤ vex.maxInstrSzB) ||
    vex.clreqSzB == isize.toNat

/-- The addresses and sizes that `addEvent_Dr` and `addEvent_Dw` assert. -/
def accessOk (daddr : IRExpr) (dsize : Int) : Bool :=
  daddr.isIRAtom && (1 ≤ dsize && dsize ≤ maxDsize)

/-- `addEvent_Ir`, `md_main.c:712–727`. -/
def addEventIr (vex : Vex) (nEvents : Nat) (sb : SbOut) (iaddr : IRExpr) (isize : UInt32) :
    Except Fault SbOut :=
  if instrSizeOk vex isize then sb.appendEvent nEvents ⟨.Ir, iaddr, isize.toNat⟩
  else .error .assertion

/-- `addEvent_Dr`, `md_main.c:729–744`. -/
def addEventDr (nEvents : Nat) (sb : SbOut) (daddr : IRExpr) (dsize : Int) :
    Except Fault SbOut :=
  if accessOk daddr dsize then sb.appendEvent nEvents ⟨.Dr, daddr, dsize⟩
  else .error .assertion

/-- `addEvent_Dw`, `md_main.c:746–775`: a write after a read of the same place makes it a
modify, in place and before the check for a full buffer. -/
def addEventDw (nEvents : Nat) (sb : SbOut) (daddr : IRExpr) (dsize : Int) :
    Except Fault SbOut :=
  if accessOk daddr dsize then
    match sb.events.getLast? with
    | some lastEvt =>
      if lastEvt.ekind = .Dr ∧ lastEvt.size = dsize ∧ lastEvt.addr.eqIRAtom daddr then
        .ok { sb with events := sb.events.dropLast ++ [{ lastEvt with ekind := .Dm }] }
      else sb.appendEvent nEvents ⟨.Dw, daddr, dsize⟩
    | none => sb.appendEvent nEvents ⟨.Dw, daddr, dsize⟩
  else .error .assertion

/-- `type2index`, `md_main.c:468–484`. -/
def type2index : IRType → Option Nat
  | .I1 => some 0
  | .I8 => some 1
  | .I16 => some 2
  | .I32 => some 3
  | .I64 => some 4
  | .I128 => some 5
  | .F32 => some 6
  | .F64 => some 7
  | .F128 => some 8
  | .V128 => some 9
  | .V256 => some 10
  | _ => none

/-- `instrument_detail`, `md_main.c:517–531`. -/
def instrumentDetail (sb : SbOut) (op : Op) (type : IRType) : Except Fault SbOut :=
  match type2index type with
  | some typeIx => .ok (sb.addCall (.incrementDetail op typeIx))
  | none => .error .assertion

/-- The detailed count of a `WrTmp` by the form of its right-hand side. -/
def IRExpr.countedOp : IRExpr → Option Op
  | .load _ _ => some .OpLoad
  | .unop _ _ => some .OpAlu
  | .binop _ _ _ => some .OpAlu
  | .triop _ _ _ _ => some .OpAlu
  | .qop _ _ _ _ _ => some .OpAlu
  | .mux0X _ _ _ => some .OpAlu
  | _ => none

/-! ### The cases of the switch -/

section Cases

variable (opts : Options) (vex : Vex) (nEvents : Nat)

/-- `Ist_IMark`. -/
def instrumentIMark (sb : SbOut) (addr : UInt64) (len : UInt32) : Except Fault SbOut := do
  let mut sb := sb
  if opts.basicCounts then
    sb := { sb with iaddr := addr, ilen := len }.addCall .addOneGuestInstr
    if opts.fnname = "" then throw .assertion
    if vex.fnnameIfEntry addr = some opts.fnname then sb := sb.addCall .addOneFuncCall
  sb ← addEventIr vex nEvents sb (mkIRExprHWord addr) len
  return sb.addStmtToIRSB (.iMark addr len)

/-- `Ist_WrTmp`. -/
def instrumentWrTmp (sb : SbOut) (tmp : IRTemp) (data : IRExpr) : Except Fault SbOut := do
  let mut sb := sb
  if let .load ty addr := data then
    sb ← addEventDr nEvents sb addr (vex.sizeofIRType ty)
  let type := vex.typeOfIRExpr data
  if type = .INVALID then throw .assertion
  if let some op := data.countedOp then sb ← instrumentDetail sb op type
  return sb.addStmtToIRSB (.wrTmp tmp data)

/-- `Ist_Store`. -/
def instrumentStore (sb : SbOut) (addr data : IRExpr) : Except Fault SbOut := do
  let mut sb := sb
  let type := vex.typeOfIRExpr data
  sb ← addEventDw nEvents sb addr (vex.sizeofIRType type)
  if type = .INVALID then throw .assertion
  sb ← instrumentDetail sb .OpStore type
  return sb.addStmtToIRSB (.store addr data)

/-- `Ist_Dirty`. -/
def instrumentDirty (sb : SbOut) (d : IRDirty) : Except Fault SbOut := do
  let mut sb := sb
  match d.mFx, d.mAddr with
  | .None, none => if d.mSize ≠ 0 then throw .assertion
  | .None, some _ => throw .assertion
  | _, none => throw .assertion
  | mFx, some mAddr =>
    if d.mSize = 0 then throw .assertion
    if mFx = .Read ∨ mFx = .Modify then sb ← addEventDr nEvents sb mAddr d.mSize
    if mFx = .Write ∨ mFx = .Modify then sb ← addEventDw nEvents sb mAddr d.mSize
  return sb.addStmtToIRSB (.dirty d)

/-- `Ist_CAS`: a read and a write of the location. -/
def instrumentCAS (sb : SbOut) (cas : IRCAS) : Except Fault SbOut := do
  let mut sb := sb
  let some addr := cas.addr | throw .assertion
  let some dataLo := cas.dataLo | throw .assertion
  let dataTy := vex.typeOfIRExpr dataLo
  let dcas := cas.dataHi.isSome
  let dataSize := if dcas then vex.sizeofIRType dataTy * 2 else vex.sizeofIRType dataTy
  sb ← addEventDr nEvents sb addr dataSize
  sb ← addEventDw nEvents sb addr dataSize
  sb ← instrumentDetail sb .OpLoad dataTy
  if dcas then sb ← instrumentDetail sb .OpLoad dataTy
  sb ← instrumentDetail sb .OpStore dataTy
  if dcas then sb ← instrumentDetail sb .OpStore dataTy
  return sb.addStmtToIRSB (.cas cas)

/-- `Ist_LLSC`: without store data it is the load-linked, which flushes its own read. -/
def instrumentLLSC (sb : SbOut) (result : IRTemp) (addr : IRExpr) (storedata : Option IRExpr) :
    Except Fault SbOut := do
  let mut sb := sb
  match storedata with
  | none =>
    let dataTy := vex.typeOfIRTemp result
    sb ← addEventDr nEvents sb addr (vex.sizeofIRType dataTy)
    sb := sb.flushEvents
    sb ← instrumentDetail sb .OpLoad dataTy
  | some data =>
    let dataTy := vex.typeOfIRExpr data
    sb ← addEventDw nEvents sb addr (vex.sizeofIRType dataTy)
    sb ← instrumentDetail sb .OpStore dataTy
  return sb.addStmtToIRSB (.llsc result addr storedata)

/-- `Ist_Exit`. -/
def instrumentExit (sb : SbOut) (guard : IRExpr) (dst : IRConst) : Except Fault SbOut := do
  if opts.basicCounts ∧ sb.iaddr = 0 then throw .assertion
  let conditionInverted := dst.value = sb.iaddr + sb.ilen.toUInt64
  let sb := sb.count opts (if conditionInverted then .addOneInvertedJcc else .addOneJcc)
  let sb := sb.flushEvents.addStmtToIRSB (.exit guard dst)
  return sb.count opts
    (if conditionInverted then .addOneInvertedJccUntaken else .addOneJccUntaken)

/-- The switch over the statement's tag. -/
def instrumentStmt (sb : SbOut) (st : IRStmt) : Except Fault SbOut :=
  match st with
  | .iMark addr len => instrumentIMark opts vex nEvents sb addr len
  | .wrTmp tmp data => instrumentWrTmp vex nEvents sb tmp data
  | .store addr data => instrumentStore vex nEvents sb addr data
  | .dirty d => instrumentDirty nEvents sb d
  | .cas details => instrumentCAS vex nEvents sb details
  | .llsc result addr storedata => instrumentLLSC vex nEvents sb result addr storedata
  | .exit guard dst => instrumentExit opts sb guard dst
  | st => .ok (sb.addStmtToIRSB st)

/-- The loop from the first `IMark` on; null statements and no-ops are dropped. -/
def instrumentStmts (sb : SbOut) : List (Option IRStmt) → Except Fault SbOut
  | [] => .ok sb
  | none :: stmts => instrumentStmts sb stmts
  | some .noOp :: stmts => instrumentStmts sb stmts
  | some st :: stmts => do
    let sb ← instrumentStmt opts vex nEvents (sb.count opts .addOneIRStmt) st
    instrumentStmts sb stmts

/-- The first loop: copy what precedes the first `IMark`. It reads the tag of every statement
it meets. -/
def copyPreamble (sb : SbOut) :
    List (Option IRStmt) → Except Fault (SbOut × List (Option IRStmt))
  | [] => .ok (sb, [])
  | none :: _ => .error .nullPointer
  | some st :: stmts =>
    if st.isIMark then .ok (sb, some st :: stmts)
    else copyPreamble (sb.addStmtToIRSB st) stmts

/-- `md_instrument`, `md_main.c:812–1117`, for a superblock at `base`. -/
def mdInstrument (base : UInt64) (sbIn : List (Option IRStmt)) : Except Fault (List OutStmt) := do
  let (sb, stmts) ← copyPreamble ⟨[], [], 0, 0⟩ sbIn
  let sb := sb.count opts .addOneSBEntered
  let sb := sb.addCall (.traceSuperblock base)
  let sb ← instrumentStmts opts vex nEvents { sb with events := [] } stmts
  return ((sb.count opts .addOneSBCompleted).flushEvents).stmts

end Cases

end Mema.Memadump
