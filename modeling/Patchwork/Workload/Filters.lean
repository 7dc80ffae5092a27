import Patchwork.Workload.Basic

/-!
# The filter workload

Sorts, takes the median and averages a vector of variables whose starting values are
scattered over eleven numbers, and takes the median of the same numbers untraced.
-/

namespace Patchwork

namespace Workload

open Script

def scattered (n : Nat) : List Datum := (List.range n).map fun i => real (i * 7 % 11 : Nat).toFloat

def filters : Workload := fun n => do
  let numbers := scattered n
  let v ← routine .makeVector [.list (← numbers.mapM namedValue)]
  let order ← routine .argsort [v]
  let middle ← routine .median [v]
  let average ← routine .mean [v]
  let mixed ← routine .homogenized [.list [← namedValue (real 1.0), real 2.0]]
  let bare ← routine .homogenized [.list [real 1.0, real 2.0]]
  let plain ← routine .median [← routine .makeVector [.list numbers]]
  return .tuple [← lengthOf order, ← kindOf middle, ← kindOf average, ← lengthOf mixed,
    ← lengthOf bare, plain]

end Workload

end Patchwork
