import Patchwork.Script.Jit
import Patchwork.Workload.Basic

/-!
# The call workload

Calls one compiled function at evenly spaced points and adds up its results, so that all
calls after the first one reuse the program of the first.
-/

namespace Patchwork

namespace Workload

open Script

/-- The function that is compiled: a shifted factor times another one. -/
def shiftedProduct : List Datum → Script Datum
  | [x, y] => do routine (.operator .mul) [← routine (.operator .add) [x, real 1.2], y]
  | _ => throw .illTyped

def calls : Workload := fun n => do
  let (_, total) ← (List.range n).foldlM (fun (state : Option Compiled × Float) i => do
    let point := i.toFloat
    let (outcome, after) ← Compiled.call shiftedProduct state.1 [real (point * 0.1), real (point * 0.3)]
    match ← check outcome with
    | .scalar (.plain (.float x)) => return (after, state.2 + x)
    | _ => throw .illTyped) (none, 0.0)
  return real (Decimal.roundTo 3 total)

end Workload

end Patchwork
