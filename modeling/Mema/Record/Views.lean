import Mema.Lib.Nesting
import Mema.Record.Layout

/-!
# What the producers store and what the viewer reads

Each hook assigns some fields of a reused slot: memapass in
`memapass/mema_rtl.cpp:312–315,347–349,368–373`, memadump in
`memagrind/memadump/md_main.c:610–664`. The viewer overlays `memaviz/record.go:18–92`.
-/

namespace Mema

/-! ### memapass -/

/-- `MemaRecordType` of `mema_rtl.cpp:141–145`. -/
inductive MemaRecordType
  | access
  | funcEnter
  | funcExit
  deriving DecidableEq, Repr

/-- The enumeration's values. -/
def MemaRecordType.code : MemaRecordType → Nat
  | .access => 0
  | .funcEnter => 1
  | .funcExit => 2

/-- One record logged by a hook of the runtime. `time` is the bit pattern of the stored
double. -/
inductive Logged
  | access (time pc bp sp addr : UInt64) (isWrite : Bool)
  | funcEnter (addr : UInt64)
  | funcExit (addr : UInt64)
  deriving DecidableEq, Repr

namespace Logged

/-- The type code a record carries. -/
def type : Logged → MemaRecordType
  | .access .. => .access
  | .funcEnter _ => .funcEnter
  | .funcExit _ => .funcExit

/-- The stores of `__mema_access`, `__mema_function_entry` or `__mema_function_exit` into the
next slot, `mema_rtl.cpp:368–373,312–315,347–349`. -/
def write : Logged → Slot → Slot
  | .access time pc bp sp addr isWrite, s =>
    (((((((s.set .type MemaRecordType.access.code).set .time time.toNat).set .pc pc.toNat).set
      .bp bp.toNat).set .sp sp.toNat).set .addr addr.toNat).set .isWrite isWrite.toNat)
  | .funcEnter addr, s =>
    (s.set .type MemaRecordType.funcEnter.code).set .funcAddr addr.toNat
  | .funcExit addr, s =>
    (s.set .type MemaRecordType.funcExit.code).set .funcAddr addr.toNat

/-- Bracket structure of a record. -/
def token : Logged → Nesting.Token UInt64
  | .access .. => .other
  | .funcEnter addr => .enter addr
  | .funcExit addr => .leave addr

end Logged

/-- What the runtime's own declaration reads from a slot. -/
def Slot.readback (s : Slot) : Option Logged :=
  match s.get .type with
  | 0 => some (.access (.ofNat (s.get .time)) (.ofNat (s.get .pc)) (.ofNat (s.get .bp))
      (.ofNat (s.get .sp)) (.ofNat (s.get .addr)) (s.get .isWrite != 0))
  | 1 => some (.funcEnter (.ofNat (s.get .funcAddr)))
  | 2 => some (.funcExit (.ofNat (s.get .funcAddr)))
  | _ => none

/-! ### memadump -/

namespace Memadump

/-- `EventKind` of `md_main.c:560–562`. -/
inductive EventKind
  | Ir
  | Dr
  | Dw
  | Dm
  deriving DecidableEq, Repr

/-- `MemaRecordType` of `md_main.c:184–191`. -/
inductive RecordType
  | instRead
  | dataRead
  | dataWrite
  | dataModify
  | funcEnter
  | funcExit
  deriving DecidableEq, Repr

/-- The enumeration's values. -/
def RecordType.code : RecordType → Nat
  | .instRead => 0
  | .dataRead => 1
  | .dataWrite => 2
  | .dataModify => 3
  | .funcEnter => 4
  | .funcExit => 5

/-- The type each trace helper stores, `md_main.c:613,627,641,655`. -/
def EventKind.recordType : EventKind → RecordType
  | .Ir => .instRead
  | .Dr => .dataRead
  | .Dw => .dataWrite
  | .Dm => .dataModify

/-- One call of a trace helper. -/
structure TraceEvent where
  kind : EventKind
  addr : UInt64
  size : UInt64
  deriving DecidableEq, Repr

/-- The stores of `trace_instr`, `trace_load`, `trace_store` and `trace_modify`; the helpers
differ in the type they store only. -/
def TraceEvent.write (e : TraceEvent) (s : Slot) : Slot :=
  ((s.set .type e.kind.recordType.code).set .addr e.addr.toNat).set .lastWord e.size.toNat

/-- What memadump's own declaration reads from a slot. -/
def readback (s : Slot) : Option TraceEvent :=
  let event (kind : EventKind) : TraceEvent :=
    ⟨kind, .ofNat (s.get .addr), .ofNat (s.get .lastWord)⟩
  match s.get .type with
  | 0 => some (event .Ir)
  | 1 => some (event .Dr)
  | 2 => some (event .Dw)
  | 3 => some (event .Dm)
  | _ => none

end Memadump

/-! ### memaviz -/

/-- The viewer's record is the 56 bytes themselves. -/
abbrev Record := Slot

/-- `MEMA_ACCESS`, `MEMA_FUNC_ENTER` and `MEMA_FUNC_EXIT` of `record.go:12–16`. -/
def MEMA_ACCESS : Nat := 0
def MEMA_FUNC_ENTER : Nat := 1
def MEMA_FUNC_EXIT : Nat := 2

/-- `MemAccess` of `record.go:81–85`. `Time` is the bit pattern of the double. -/
structure MemAccess where
  time : UInt64
  pc : UInt64
  bp : UInt64
  sp : UInt64
  addr : UInt64
  isWrite : UInt64
  deriving DecidableEq, Repr

/-- `FunctionCall` of `record.go:75–79`. -/
structure FunctionCall where
  funcPointer : UInt64
  deriving DecidableEq, Repr

namespace Record

/-- `Type int64`, read unsigned: it is only compared with the three codes above. -/
def type (r : Record) : Nat := r.get .typeWord

/-- `MemAccess().Addr`. -/
def addr (r : Record) : UInt64 := .ofNat (r.get .addr)

/-- `MemAccess().IsWrite`. -/
def isWrite (r : Record) : UInt64 := .ofNat (r.get .lastWord)

/-- `FunctionCall().FuncPointer`. -/
def funcPointer (r : Record) : UInt64 := .ofNat (r.get .funcAddr)

/-- `MemAccess()`, the content overlaid with the access. -/
def memAccess (r : Record) : MemAccess where
  time := .ofNat (r.get .time)
  pc := .ofNat (r.get .pc)
  bp := .ofNat (r.get .bp)
  sp := .ofNat (r.get .sp)
  addr := r.addr
  isWrite := r.isWrite

/-- `FunctionCall()`, the content overlaid with the function pointer. -/
def functionCall (r : Record) : FunctionCall := ⟨r.funcPointer⟩

/-- Bracket structure of a record as the viewer classifies it. -/
def token (r : Record) : Nesting.Token Record :=
  if r.type = MEMA_FUNC_ENTER then .enter r
  else if r.type = MEMA_FUNC_EXIT then .leave r
  else .other

end Record

/-! ### Stores read back -/

/-- A word stored in eight bytes is read back. -/
theorem word_eq {f : Field} (hf : f.width = 8) (v : UInt64) :
    UInt64.ofNat (v.toNat % 256 ^ f.width) = v := by
  have hv : v.toNat < 256 ^ 8 := v.toNat_lt
  rw [hf, Nat.mod_eq_of_lt hv, UInt64.ofNat_toNat]

private theorem bool_eq (w : Bool) : (w.toNat % 256 ^ Field.isWrite.width != 0) = w := by
  cases w <;> rfl

/-- The runtime reads back every record it stores, whatever the slot held before. -/
theorem Logged.readback_write (e : Logged) (s : Slot) : (e.write s).readback = some e := by
  cases e with
  | access time pc bp sp addr isWrite =>
    have ht : ((Logged.access time pc bp sp addr isWrite).write s).get .type = 0 := by
      simp (disch := decide) [Logged.write, Slot.get_set_of_disjoint, MemaRecordType.code]
    rw [Slot.readback, ht]
    simp (disch := decide) [Logged.write, Slot.get_set_of_disjoint, word_eq, bool_eq]
  | funcEnter addr =>
    have ht : ((Logged.funcEnter addr).write s).get .type = 1 := by
      simp (disch := decide) [Logged.write, Slot.get_set_of_disjoint, MemaRecordType.code]
      rfl
    rw [Slot.readback, ht]
    simp (disch := decide) [Logged.write, word_eq]
  | funcExit addr =>
    have ht : ((Logged.funcExit addr).write s).get .type = 2 := by
      simp (disch := decide) [Logged.write, Slot.get_set_of_disjoint, MemaRecordType.code]
      rfl
    rw [Slot.readback, ht]
    simp (disch := decide) [Logged.write, word_eq]

/-- No store of the runtime touches the padding of the type. -/
theorem Logged.typePadding_write (e : Logged) (s : Slot) :
    (e.write s).get .typePadding = s.get .typePadding := by
  cases e <;> simp (disch := decide) [Logged.write, Slot.get_set_of_disjoint]

/-- Nor the padding of the flag. -/
theorem Logged.flagPadding_write (e : Logged) (s : Slot) :
    (e.write s).get .flagPadding = s.get .flagPadding := by
  cases e <;> simp (disch := decide) [Logged.write, Slot.get_set_of_disjoint]

namespace Memadump

/-- memadump reads back every event it stores, whatever the slot held before. -/
theorem TraceEvent.readback_write (e : TraceEvent) (s : Slot) :
    readback (e.write s) = some e := by
  obtain ⟨kind, addr, size⟩ := e
  cases kind <;>
    simp (disch := decide) [readback, TraceEvent.write, Slot.get_set_of_disjoint, word_eq] <;>
    rfl

/-- No store of a trace helper touches the padding of the type. -/
theorem TraceEvent.typePadding_write (e : TraceEvent) (s : Slot) :
    (e.write s).get .typePadding = s.get .typePadding := by
  simp (disch := decide) [TraceEvent.write, Slot.get_set_of_disjoint]

end Memadump

end Mema
