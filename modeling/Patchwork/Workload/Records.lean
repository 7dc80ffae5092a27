import Patchwork.Workload.Basic

/-!
# The record workload

Writes records to a command stream and reads them back. A record has three parts: an
opcode, its position, and the number of its parts.
-/

namespace Patchwork

namespace Workload

open Script

def recordParts : Nat := 3

/-- Writes the record of an index; the opcodes take turns. -/
def writeRecord (w : Writer) (i : Nat) : Except Fault Writer := do
  let w := w.opcode (Opcode.all.getD (i % Opcode.all.length) .endCommands)
  (← w.int i).int recordParts

def readRecord (r : Reader) : Except Fault (Int × Reader) := do
  let (o, r) ← r.opcode
  let (position, r) := r.int
  let (parts, r) := r.int
  return (o.code + position + parts, r)

/-- The record workload: the length of the stream, the sum of all parts that were read
back, and the number of items that were written. -/
def records : Workload := fun n => check do
  let w ← (List.range n).foldlM writeRecord { order := .little }
  let start : Reader := { data := w.bytes, order := .little }
  let (total, _) ← (List.range n).foldlM (fun (state : Int × Reader) _ => do
    let (sum, r) ← readRecord state.2
    return (state.1 + sum, r)) (0, start)
  return .tuple [.int w.bytes.length, .int total, .int w.items.length]

end Workload

end Patchwork
