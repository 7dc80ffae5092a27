import Patchwork.Script.Session

/-!
# Requests to targets
-/

namespace Patchwork

inductive TargetRequest where
  | new
  | compile
  | run
  | read
  | write
  | ask
  deriving Repr, DecidableEq

namespace TargetRequest

open Script

/-- The stencils that there are: those of the native machine, under its own name or under
the name that stands for it. -/
def isAvailable (architecture optimization : Datum) : Bool :=
  match architecture, optimization with
  | .text a, .text o => (a == "native" || a == "x86_64") && o == "O3"
  | _, _ => false

def call (r : TargetRequest) (as : Arguments) : Script Datum := do
  match r with
  | .new =>
    if isAvailable (as.get 0 "arch" (.text "native")) (as.get 1 "optimization" (.text "O3")) then
      addTarget {}
    else throw .absentFile
  | .compile =>
    let k ← targetOf (← need as 0 "self")
    let s ← get
    let (outcome, t, g) := (← target k).compile s.graph (as.positional.drop 1)
    set { s with graph := g }
    setTarget k t
    check outcome
    return .absent
  | .run =>
    let k ← targetOf (← need as 0 "self")
    setTarget k (← check ((← target k).run (← graph)))
    return .absent
  | .read =>
    let t ← target (← targetOf (← need as 0 "self"))
    check (t.read (← graph) (← need as 1 "variables"))
  | .write =>
    let k ← targetOf (← need as 0 "self")
    let slots ← need as 1 "variables"
    let (outcome, t) := (← target k).write (← graph) slots (← need as 2 "data")
    setTarget k t
    check outcome
    return .absent
  | .ask =>
    let t ← target (← targetOf (← need as 0 "self"))
    match ← need as 1 "variable" with
    | .scalar (.traced v) =>
      if (t.memory.get? (← graph) v.net).isSome then return .absent
      else throw (.violated .compiledVariable)
    | _ => throw .absentAttribute

end TargetRequest

end Patchwork
