import Patchwork.Schedule.Registers

/-!
# The plan of a program

From the nets to keep, the steps of a program and the nets that need a cell of memory.
-/

namespace Patchwork

/-- The steps of a program and the nets it keeps in memory. -/
structure Plan where
  steps : List Step
  slots : List Net

def Plan.ofRoots (g : Graph) (roots : List NodeId) : Except Fault Plan := do
  let order ← g.executionOrder roots
  let constants ← g.constantNets order
  let steps := Schedule.withSaves g (Schedule.withLoads g order) constants
  return { steps, slots := Schedule.slots g constants steps }

end Patchwork
