import Patchwork.Workload.Basic

/-!
# The gradient workload

Takes gradients of a loss to which each variable contributes one term, with every
operation that can be derived once in each term.
-/

namespace Patchwork

namespace Workload

open Script

def lossTerm (x : Datum) : Script Datum := do
  let apply (f : Elementary) (d : Datum) : Script Datum := routine (.elementary f) [d]
  let wave ← operate .mul (← apply .sin x) (← apply .cos x)
  let decay ← operate .mul (← routine .abs [x]) (← apply .exp (← routine .negate [x]))
  let angle ← routine (.pairwise .atan2) [← apply .atan x, real 2.0]
  let arcs ← sumOf [← apply .asin (← operate .mul x (real 0.5)),
    ← apply .acos (← operate .sub x (real 0.25)), angle]
  let power ← operate .pow (← operate .add x (real 2.0)) (real 2.5)
  let scale ← operate .trueDiv (← apply .log (← operate .add x (real 1.0))) (real 3.0)
  let growth ← operate .add (← apply .sqrt power) scale
  let steps ← operate .floorDiv x (real 2.0)
  let above ← operate .gt x (real 0.5)
  sumOf [wave, decay, ← operate .mul arcs growth, ← apply .tan x, steps, above]

/-- The gradient workload: gradients in respect to all variables as a list, to the first
four as a vector and as a quaternion, and to the first two. -/
def gradients : Workload := fun n => do
  let remainder ← operate .modulo (← namedValue (.int 7)) (← namedValue (.int 3))
  let start ← operate .mul (← namedValue (real 1.5)) remainder
  let xs ← (List.range n).mapM fun i => namedValue (real (0.1 + 0.01 * i.toFloat))
  let loss ← xs.foldlM (fun y x => do operate .add y (← lossTerm x)) start
  let all ← routine .gradient [loss, .list xs]
  let partly (ds : Datum) : Script Datum := do
    routine .gradient [← operate .add loss remainder, ds]
  let vector ← partly (← routine .makeVector [.list (xs.take 4)])
  let quaternion ← partly (← routine .makeQuaternion [.list (xs.take 4)])
  let _ ← partly (.tuple (xs.take 2))
  return .tuple [← lengthOf all, ← lengthOf vector, ← lengthOf (← trace (quaternion.part .values)),
    .int xs.length]

end Workload

end Patchwork
