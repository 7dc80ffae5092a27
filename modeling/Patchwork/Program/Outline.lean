import Patchwork.Datum.Operators
import Patchwork.Program.Layout
import Patchwork.Schedule.Plan
import Patchwork.Stream.Command

/-!
# The outline of a program

What a stream of commands looks like on a machine whose code is not at hand: on the
native machine each load and save is patched once, and arithmetic is not patched.
-/

namespace Patchwork

/-- The commands, constants and data size of a program. -/
structure Outline where
  commands : List Opcode
  constants : List Bytes
  dataSize : Int

namespace Outline

def usesMemory (g : Graph) (s : Step) : Bool :=
  match Schedule.content g s.run with
  | .load .. | .save .. => true
  | _ => false

def constantBytes (g : Graph) (n : Net) : Except Fault (Option Bytes) :=
  match g.node n.source with
  | .constant value _ => do return some (Bytes.ofNat .little 4 (← Word.ofNumber value).toNat)
  | _ => .ok none

def ofPlan (g : Graph) (p : Plan) : Except Fault Outline := do
  let (_, dataSize) ← Layout.slots p.slots 0
  let constants := (← p.slots.mapM (constantBytes g)).filterMap id
  let patches := (p.steps.filter (usesMemory g)).map fun _ => Opcode.patch .object
  return { constants, dataSize
           commands := [.freeMemory, .allocateData] ++ constants.map (fun _ => .copyData) ++
             [.allocateCode, .copyCode] ++ patches ++ [.entryPoint, .dumpCode] }

def squareExample : Except Fault Outline := do
  let expression : Trace Value := do
    let input ← Scalar.traced <$> Value.constant (.float 9.0)
    let square ← Scalar.binary .pow input (.int 2)
    let scaled ← Scalar.binary .trueDiv square (.plain (.float 3.3))
    (← Scalar.binary .add scaled (.int 5)).lift
  let (v, g) ← expression.run Graph.empty
  let g' := g.push (.root v.net)
  ofPlan g' (← Plan.ofRoots g' [g.size])

end Outline

end Patchwork
