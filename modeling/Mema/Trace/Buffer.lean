import Mathlib.Data.List.Forall2
import Mathlib.Logic.Function.Basic
import Mema.Lib.Chunks
import Mema.Lib.Framing
import Mema.Record.Layout

/-!
# The record buffer both producers keep

`memapass/mema_rtl.cpp:163–173` and `memagrind/memadump/md_main.c:265–272` declare the same
array and the same three pointers, and every hook appends by
`*(next_free_mem_access++)` and then compares the pointer with the last slot. `Laid` says
which records the array holds; `Stored` ties array and file to an abstract chunked log.
-/

namespace Mema

open Bytes Framing Chunks

/-- Ways a traced process dies inside a producer. -/
inductive Fault
  | nullPointer
  | outOfBounds
  | assertion
  | intOverflow
  deriving DecidableEq, Repr

/-- `bufsize_MB`. -/
def bufsizeMB : Nat := 10

/-- `mem_accesses_bufsize`, the number of slots of the array. -/
def memAccessesBufsize : Nat := bufsizeMB * 1024 * 1024 / recordSize

/-- Number of records a full buffer is flushed with: the array's last slot stays unused. -/
def flushSize : Nat := memAccessesBufsize - 1

/-- `LZ4_compress`, taken not to fail. -/
abbrev Lz4 : Type := List UInt8 → List UInt8

/-! ### The output descriptor -/

/-- The output file as the kernel sees it. -/
structure OutFile where
  isOpen : Bool
  bytes : List UInt8
  deriving DecidableEq

/-- `write(2)` on the output descriptor: everything is written to an open file, nothing to a
closed one. Returns the call's result. -/
def OutFile.write (f : OutFile) (bs : List UInt8) : OutFile × Int :=
  if f.isOpen then ({ f with bytes := f.bytes ++ bs }, bs.length) else (f, -1)

theorem OutFile.write_open {f : OutFile} (h : f.isOpen = true) (bs : List UInt8) :
    f.write bs = ({ f with bytes := f.bytes ++ bs }, (bs.length : Int)) := by
  rw [OutFile.write, if_pos h]

/-- A frame is two writes: the length, then the payload. -/
theorem OutFile.write_frame {f : OutFile} (h : f.isOpen = true) (p : List UInt8) :
    (f.write (leBytes 8 p.length)).1.write p =
      ({ f with bytes := f.bytes ++ frame 8 p }, (p.length : Int)) := by
  have h' : ({ f with bytes := f.bytes ++ leBytes 8 p.length } : OutFile).isOpen = true := h
  rw [OutFile.write_open h, OutFile.write_open h', frame, List.append_assoc]

/-! ### The array and its pointers -/

/-- The record array and the pointers into it; an unset pointer is NULL. -/
structure TraceBuffer where
  memAccesses : Nat → Slot
  firstMemAccess : Option Nat
  nextFreeMemAccess : Option Nat
  lastMemAccess : Option Nat

namespace TraceBuffer

/-- Zero-initialised storage with NULL pointers. -/
def fresh : TraceBuffer := ⟨fun _ ↦ Slot.zero, none, none, none⟩

/-- The pointer set-up of `mema_rtl.cpp:488–490,506–508` and `md_main.c:807–809`. -/
def setUp (b : TraceBuffer) : TraceBuffer :=
  { b with
    firstMemAccess := some 0
    nextFreeMemAccess := some 0
    lastMemAccess := some (memAccessesBufsize - 1) }

/-- `MemAccess & f = *(next_free_mem_access++)` and the stores into `f`. -/
def append (w : Slot → Slot) (b : TraceBuffer) : Except Fault TraceBuffer :=
  match b.nextFreeMemAccess with
  | none => .error .nullPointer
  | some i =>
    if i < memAccessesBufsize then
      .ok { b with
        memAccesses := Function.update b.memAccesses i (w (b.memAccesses i))
        nextFreeMemAccess := some (i + 1) }
    else .error .outOfBounds

/-- `next_free_mem_access == last_mem_access`. -/
def atLast (b : TraceBuffer) : Bool := b.nextFreeMemAccess == b.lastMemAccess

/-- `next_free_mem_access = &mem_accesses[0]`. -/
def reset (b : TraceBuffer) : TraceBuffer := { b with nextFreeMemAccess := some 0 }

/-- The `next_free_mem_access - first_mem_access` records from `first_mem_access`; between a
NULL and a set pointer there is no such array to read. -/
def held (b : TraceBuffer) : Option (List Slot) :=
  match b.firstMemAccess, b.nextFreeMemAccess with
  | some f, some n => some ((List.range' f (n - f)).map b.memAccesses)
  | none, none => some []
  | _, _ => none

/-- Pointers are set up and the slots `[first, next)` hold these records. -/
structure Laid (b : TraceBuffer) (ss : List Slot) : Prop where
  first : b.firstMemAccess = some 0
  next : b.nextFreeMemAccess = some ss.length
  last : b.lastMemAccess = some flushSize
  slots : ∀ i (h : i < ss.length), b.memAccesses i = ss[i]

/-- The type padding of every slot is zero. -/
def Clean (b : TraceBuffer) : Prop := ∀ i, (b.memAccesses i).get .typePadding = 0

theorem clean_fresh : fresh.Clean := fun _ ↦ Slot.get_zero _

theorem Clean.setUp {b : TraceBuffer} (h : b.Clean) : b.setUp.Clean := h

theorem Clean.reset {b : TraceBuffer} (h : b.Clean) : b.reset.Clean := h

theorem laid_setUp (b : TraceBuffer) : b.setUp.Laid [] :=
  ⟨rfl, rfl, rfl, fun i h ↦ absurd h (by simp)⟩

theorem Laid.reset {b : TraceBuffer} {ss : List Slot} (h : b.Laid ss) : b.reset.Laid [] :=
  ⟨h.first, rfl, h.last, fun i hi ↦ absurd hi (by simp)⟩

/-- The held records are the laid ones. -/
theorem Laid.held_eq {b : TraceBuffer} {ss : List Slot} (h : b.Laid ss) : b.held = some ss := by
  rw [held, h.first, h.next]
  apply congrArg some
  apply List.ext_getElem
  · simp
  · intro i hi hj
    simp only [List.getElem_map, List.getElem_range', Nat.zero_add, Nat.one_mul]
    exact h.slots i hj

/-- The flush test fires exactly at a full buffer. -/
theorem Laid.atLast_iff {b : TraceBuffer} {ss : List Slot} (h : b.Laid ss) :
    b.atLast = true ↔ ss.length = flushSize := by
  rw [atLast, h.next, h.last]
  simp

/-- Below the flush size an append stays inside the array and lays one more record. -/
theorem Laid.append {b : TraceBuffer} {ss : List Slot} (h : b.Laid ss)
    (hroom : ss.length < flushSize) (w : Slot → Slot) :
    ∃ b', b.append w = .ok b' ∧ b'.Laid (ss ++ [w (b.memAccesses ss.length)]) := by
  have hin : ss.length < memAccessesBufsize := by
    have hk : flushSize = memAccessesBufsize - 1 := rfl
    omega
  refine ⟨_, by rw [TraceBuffer.append, h.next]; exact if_pos hin, ?_⟩
  refine ⟨h.first, by simp, h.last, ?_⟩
  intro i hi
  simp only [Function.update_apply]
  split
  · next he =>
    subst he
    rw [List.getElem_append_right (Nat.le_refl _)]
    simp
  · next he =>
    have hlt : i < ss.length := by
      rw [List.length_append, List.length_singleton] at hi
      omega
    rw [List.getElem_append_left hlt]
    exact h.slots i hlt

/-- What holds of every slot and is kept by the stores into a slot holds after an append. -/
theorem forall_append {P : Slot → Prop} {b b' : TraceBuffer} (h : ∀ i, P (b.memAccesses i))
    {w : Slot → Slot} (hw : ∀ s, P s → P (w s)) (ha : b.append w = .ok b') (i : Nat) :
    P (b'.memAccesses i) := by
  unfold TraceBuffer.append at ha
  split at ha
  · cases ha
  · next n hn =>
    split at ha
    · cases ha
      simp only [Function.update_apply]
      split
      · exact hw _ (h n)
      · exact h i
    · cases ha

/-- Stores that keep the type padding keep the array clean. -/
theorem Clean.append {b b' : TraceBuffer} (h : b.Clean) {w : Slot → Slot}
    (hw : ∀ s, (w s).get .typePadding = s.get .typePadding) (ha : b.append w = .ok b') :
    b'.Clean := by
  apply forall_append (P := fun s ↦ s.get .typePadding = 0) h _ ha
  intro s hs
  exact (hw s).trans hs

end TraceBuffer

/-! ### Buffer and file against the abstract log -/

/-- The payload of a frame: the records' bytes, compressed twice when compression is on. -/
def payloadOf (lz : Lz4) (compression : Bool) (ss : List Slot) : List UInt8 :=
  if compression then lz (lz (Slot.bytesOf ss)) else Slot.bytesOf ss

/-- The frames of the flushed record arrays. -/
def framesOf (lz : Lz4) (compression : Bool) (blocks : List (List Slot)) : List UInt8 :=
  frames 8 (blocks.map (payloadOf lz compression))

theorem framesOf_append (lz : Lz4) (compression : Bool) (xs ys : List (List Slot)) :
    framesOf lz compression (xs ++ ys) =
      framesOf lz compression xs ++ framesOf lz compression ys := by
  rw [framesOf, List.map_append, frames_append, framesOf, framesOf]

theorem framesOf_singleton (lz : Lz4) (compression : Bool) (ss : List Slot) :
    framesOf lz compression [ss] = frame 8 (payloadOf lz compression ss) := by
  rw [framesOf, List.map_singleton, frames_singleton]

/-- A slot holds a record: its producer reads the record back, and the type padding is
clean. -/
structure Slot.Holds {ε : Type} (readback : Slot → Option ε) (s : Slot) (e : ε) : Prop where
  read : readback s = some e
  padding : s.get .typePadding = 0

/-- Buffer and file keep exactly the records `es` through an abstract log: the file is the
header and one frame per finished chunk, and the array holds the pending records. -/
structure Kept {ε : Type} (lz : Lz4) (compression : Bool) (header : List UInt8)
    (readback : Slot → Option ε) (b : TraceBuffer) (f : OutFile) (log : Log Slot)
    (es : List ε) : Prop where
  isOpen : f.isOpen = true
  bytes : f.bytes = header ++ framesOf lz compression log.done
  laid : b.Laid log.pending
  clean : b.Clean
  holds : List.Forall₂ (Slot.Holds readback) log.contents es

namespace Kept

variable {ε : Type} {lz : Lz4} {compression : Bool} {header : List UInt8}
  {readback : Slot → Option ε} {b : TraceBuffer} {f : OutFile} {log : Log Slot} {es : List ε}

/-- After set-up nothing is kept and the file is the header. -/
theorem setUp {f : OutFile} (hf : f.isOpen = true) :
    Kept lz compression f.bytes readback TraceBuffer.fresh.setUp f Log.empty [] :=
  ⟨hf, by simp [framesOf, Log.empty], TraceBuffer.laid_setUp _,
    TraceBuffer.clean_fresh.setUp, .nil⟩

/-- Appending a record makes it pending, and the flush test reports a full buffer. -/
theorem append (h : Kept lz compression header readback b f log es)
    (hroom : log.pending.length < flushSize) {w : Slot → Slot} {e : ε}
    (hread : ∀ s, readback (w s) = some e)
    (hpad : ∀ s, (w s).get .typePadding = s.get .typePadding) :
    ∃ b' x, b.append w = .ok b' ∧
      Kept lz compression header readback b' f ⟨log.done, log.pending ++ [x]⟩ (es ++ [e]) ∧
      (b'.atLast = true ↔ log.pending.length + 1 = flushSize) := by
  obtain ⟨b', hb, hlaid⟩ := h.laid.append hroom w
  have hx : (w (b.memAccesses log.pending.length)).Holds readback e :=
    ⟨hread _, by rw [hpad]; exact h.clean _⟩
  refine ⟨b', _, hb, ⟨h.isOpen, h.bytes, hlaid, h.clean.append hpad hb, ?_⟩, ?_⟩
  · have hc := List.rel_append h.holds (.cons hx .nil)
    simpa only [Log.contents, List.append_assoc] using hc
  · rw [hlaid.atLast_iff, List.length_append, List.length_singleton]

/-- Writing the held records as one frame and resetting the pointer cuts the log. -/
theorem flush (h : Kept lz compression header readback b f log es) :
    Kept lz compression header readback b.reset
      { f with bytes := f.bytes ++ frame 8 (payloadOf lz compression log.pending) }
      log.cut es := by
  refine ⟨h.isOpen, ?_, h.laid.reset, h.clean.reset, ?_⟩
  · rw [Log.cut, framesOf_append, framesOf_singleton, h.bytes, List.append_assoc]
  · rw [Log.contents_cut]
    exact h.holds

end Kept

end Mema
