import Mema.Trace.Lz4Traces
import Mema.Viewer.Accepting

/-!
# Traces of programs that did not finish

A killed program leaves the header and the frames flushed so far, the last of them perhaps in
part. The viewer loads such a file exactly when the cut lies behind the header and between two
frames, and then as the blocks before the cut.
-/

namespace Mema

open Bytes Framing Chunks Memory

/-! ### A framed file cut off anywhere -/

section Cut

variable (clz4 : Clz4) {accepts : List UInt8 → Bool} {table : List UInt8}
  {ps : List (List UInt8)}

end Cut

/-! ### Traces -/

/-- The flushed blocks hold all but the records of the last, not yet full one. -/
structure Behind {ε : Type} (readback : Slot → Option ε) (blocks : List (List Slot))
    (es : List ε) : Prop where
  holds : List.Forall₂ (Slot.Holds readback) blocks.flatten (es.take (flushSize * blocks.length))
  recent : es.length < flushSize * (blocks.length + 1)

end Mema
