import Patchwork.Workload.Basic

/-!
# The function workload

Applies every mathematical function to a variable, to a vector and to a tensor of
variables, and adds up the sizes of what comes back and a few results on plain numbers.
-/

namespace Patchwork

namespace Workload

open Script

def unaryRoutines : List Routine :=
  [.elementary .exp, .elementary .log, .elementary .sqrt, .elementary .sin, .elementary .cos,
   .elementary .tan, .elementary .asin, .elementary .acos, .elementary .atan, .abs, .sign, .relu,
   .sigmoid]

def binaryRoutines : List Routine :=
  [.pairwise .atan2, .pairwise .minimum, .pairwise .maximum, .pairwise .pow]

def spaced (n : Nat) (start : Float) : Script (List Datum) :=
  (List.range n).mapM fun i => namedValue (real (start + 0.1 * i.toFloat))

def plainResults : Script (List Datum) := do
  return [← routine .get42 [.int 4], ← routine (.pairwise .pow) [real 2.0, real 6.0],
    ← routine (.pairwise .pow) [real 2.0, .int (-1)]]

/-- The function workload: the sum of the sizes and of the plain results, and the size of
the vectors. -/
def functions : Workload := fun n => do
  let x ← namedValue (real 0.5)
  let y ← namedValue (real 0.25)
  let k ← namedValue (.int 3)
  let v ← routine .makeVector [.list (← spaced n 0.1)]
  let w ← routine .makeVector [.list (← spaced n 0.2)]
  let t ← routine .makeTensor [.list (← spaced n 0.3)]
  let u ← routine .makeTensor [.list (← spaced n 0.4)]
  let _ ← unaryRoutines.mapM fun f => routine f [x]
  let unary ← unaryRoutines.mapM fun f => do return [← routine f [v], ← routine f [t]]
  let _ ← binaryRoutines.mapM fun f => routine f [x, k]
  let binary ← binaryRoutines.mapM fun f =>
    [(v, w), (v, real 2.0), (real 2.0, v), (t, u), (t, real 2.0), (real 2.0, t)].mapM fun (a, b) =>
      routine f [a, b]
  let _ ← routine .get42 [x]
  let _ ← routine .mixedTotal [.list [x, y]]
  let _ ← routine .clamp [x, real 0.0, real 1.0]
  let clamped ← routine .clamp [v, real 0.0, real 1.0]
  let _ ← routine .lerp [x, y, real 0.5]
  let between ← routine .lerp [v, w, real 0.5]
  let sizes ← (unary.flatten ++ binary.flatten ++ [clamped, between]).mapM elementCount
  let total ← sumOf (.int (sizes.foldl (· + ·) 0 : Nat) :: (← plainResults))
  return .tuple [total, ← lengthOf v]

end Workload

end Patchwork
