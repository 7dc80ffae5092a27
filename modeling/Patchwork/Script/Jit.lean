import Patchwork.Script.Session

/-!
# Compiling a function at its first call

The first call of a function makes variables of its arguments, runs the function on them
and compiles what it returns. Later calls only write their arguments to the variables, so
they take the types of the first call. A first call that fails while tracing or compiling
leaves nothing behind, and the next call is a first call again.
-/

namespace Patchwork

/-- A compiled function: its target, the variables of its arguments, and its result. -/
structure Compiled where
  target : Nat
  inputs : List Datum
  output : Datum

namespace Compiled

open Script

def variableFor (argument : Datum) : Script Datum := do
  if argument.isIterable then
    let items ← check argument.iterate
    return .tuple (← items.mapM fun d => trace (Datum.makeValue d .absent))
  else trace (Datum.makeValue argument .absent)

def first (body : List Datum → Script Datum) (arguments : List Datum) : Script Compiled := do
  let k ← match ← addTarget {} with
    | .target k => pure k
    | _ => throw .illTyped
  let inputs ← arguments.mapM variableFor
  let output ← body inputs
  let s ← get
  let (outcome, t, g) := (← Script.target k).compile s.graph [output]
  set { s with graph := g }
  setTarget k t
  check outcome
  return { target := k, inputs, output }

/-- Writes arguments to the variables of a compiled function, as far as there are both. -/
def again (c : Compiled) (arguments : List Datum) : Script Unit := do
  for (slots, data) in c.inputs.zip arguments do
    let (outcome, t) := (← Script.target c.target).write (← graph) slots data
    setTarget c.target t
    check outcome

def result (c : Compiled) : Script Datum := do
  let t ← check ((← Script.target c.target).run (← graph))
  setTarget c.target t
  check (t.read (← graph) c.output)

/-- A call of a function that may have been compiled before. Besides the outcome it
returns what is compiled afterwards. -/
def call (body : List Datum → Script Datum) (before : Option Compiled) (arguments : List Datum) :
    Script (Except Fault Datum × Option Compiled) := do
  let ready : Script Compiled := match before with
    | some c => do
      c.again arguments
      return c
    | none => first body arguments
  match ← attempt ready with
  | .error f => return (.error f, before)
  | .ok c => return (← attempt c.result, some c)

end Compiled

end Patchwork
