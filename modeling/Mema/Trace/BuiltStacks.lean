import Mema.Memapass.Activations
import Mema.Trace.Lz4Traces
import Mema.Trace.SwitchSafety

/-!
# From an execution to the stacks the viewer builds

Instrumented code calls the hooks, these log records, a flush compresses a full array, the
viewer loads the file and builds the stacks block by block. Together: directly after
`BuildStree`, with the blocks' records still present, the stack at every record is that of the
activations in progress when it was logged. `GenerateVertices` then releases the records.
-/

namespace Mema

open Bytes Framing Chunks Nesting Memapass

/-! ### A stored record's brackets -/

/-- The records of a loaded block are the flushed ones and others that open and close nothing. -/
def Restored (ss : List Slot) (records : List Record) : Prop :=
  ∃ behind : List Record, records = ss ++ behind ∧ ∀ r ∈ behind, r.token = .other

theorem Restored.brackets {ss : List Slot} {records : List Record} (h : Restored ss records) :
    brackets (records.map Record.token) = brackets (ss.map Record.token) := by
  obtain ⟨behind, rfl, hquiet⟩ := h
  have hnone : Nesting.brackets (behind.map Record.token) = [] := by
    apply List.filter_eq_nil_iff.mpr
    intro t ht
    obtain ⟨r, hr, rfl⟩ := List.mem_map.mp ht
    rw [hquiet r hr]
    simp
  rw [List.map_append, brackets_append, hnone, List.append_nil]

section Example

end Example

end Mema
