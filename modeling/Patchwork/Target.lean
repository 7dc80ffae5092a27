import Patchwork.Datum.Routines
import Patchwork.Machine.Run
import Patchwork.Schedule.Plan

/-!
# Targets

A target compiles values to a program, keeps the program and its variables, runs it, and
reads and writes the variables.
-/

namespace Patchwork

/-- A program with its memory. -/
structure Target where
  memory : Memory := []
  program : Option (List Step) := none

namespace Target

/-! ## Compiling -/

def startWord (g : Graph) (n : Net) : Except Fault Word :=
  match g.node n.source with
  | .constant value _ => Word.ofNumber value
  | _ => .ok 0

def startMemory (g : Graph) (slots : List Net) : Except Fault Memory :=
  slots.mapM fun n => do return (n, ← startWord g n)

/-- Refuses a step whose stencil leaves a library function to be linked. -/
def linked (g : Graph) (s : Step) : Except Fault Unit :=
  match Schedule.content g s.run with
  | .apply o args commutative => match o.libraryFunction? with
    | some f => .error (.violated (.linkedSymbol (Node.apply o args commutative).name f))
    | none => .ok ()
  | _ => .ok ()

/-- The target after compiling some roots: the constants must fit, then every function
must be linked. Without variables there is nothing to run. -/
def compileRoots (g : Graph) (roots : List NodeId) : Except Fault Target := do
  let plan ← Plan.ofRoots g roots
  let memory ← startMemory g plan.slots
  plan.steps.forM (linked g)
  if plan.slots.isEmpty then return {}
  else return { memory, program := some plan.steps }

/-- The traced values that an argument of a compilation asks for: a value itself, or
those among the elements of an array or the items of a collection. -/
def requested (d : Datum) : List Value :=
  let items := match d with
    | .vector xs | .tensor _ xs _ => xs
    | .quaternion w x y z => [w, x, y, z]
    | .scalar s => [.scalar s]
    | d => (d.iterate.toOption).getD []
  items.filterMap fun d => match d with
    | .scalar (.traced v) => some v
    | _ => none

/-- Compiles the values in some data. The new target is returned with the outcome,
because a compilation without variables fails and leaves an empty target behind. -/
def compile (t : Target) (g : Graph) (data : List Datum) : Except Fault Unit × Target × Graph :=
  let values := data.flatMap requested
  let (roots, g) := values.foldl (fun (state : List NodeId × Graph) v =>
    (state.1 ++ [state.2.size], state.2.push (.root v.net))) ([], g)
  match compileRoots g roots with
  | .error f => (.error f, t, g)
  | .ok new =>
    if new.program.isNone then (.error (.violated .unstated), new, g) else (.ok (), new, g)

def run (t : Target) (g : Graph) : Except Fault Target :=
  match t.program with
  | some steps =>
    let machine := Machine.run .native g steps { memory := t.memory }
    .ok { t with memory := machine.memory }
  | none => .error .notRunnable

/-! ## Reading and writing -/

def readValue (t : Target) (g : Graph) (v : Value) : Except Fault Number :=
  match t.memory.get? g v.net with
  | some w => .ok (w.number v.kind)
  | none => .error (.violated .compiledValue)

/-- What a datum inside a collection reads as: only traced values are looked up. -/
def readItem (t : Target) (g : Graph) : Datum → Except Fault Datum
  | .scalar (.traced v) => do return .plain (← t.readValue g v)
  | d => .ok d

mutual

/-- What a datum reads as: arrays element by element, collections as a list. -/
def read (t : Target) (g : Graph) : Datum → Except Fault Datum
  | .vector xs => do return .vector (← t.readAll g xs)
  | .tensor shape xs truths => do
    let values ← t.readAll g xs
    let shape' := if shape.isEmpty then [(values.length : Int)] else shape
    return .tensor shape' values truths
  | .quaternion w x y z => do
    return .quaternion (← t.read g w) (← t.read g x) (← t.read g y) (← t.read g z)
  | .scalar (.plain n) => .ok (.plain n)
  | .scalar (.traced v) => do return .plain (← t.readValue g v)
  | d => match d.iterate with
    | .ok items => do return .list (← items.mapM (t.readItem g))
    | .error _ => .error (.violated .tracedValue)

def readAll (t : Target) (g : Graph) : List Datum → Except Fault (List Datum)
  | [] => .ok []
  | d :: ds => do return (← t.read g d) :: (← t.readAll g ds)

end

/-- Writes a number, spelled or plain, to the cell of a value. -/
def writeValue (t : Target) (g : Graph) (v : Value) (d : Datum) : Except Fault Target :=
  match t.memory.find? fun cell => g.sameNet cell.1 v.net with
  | none => .error (.violated .compiledValue)
  | some (n, _) => do
    let number ← match n.cell with
      | .float => Number.float <$> d.readFloat
      | .int => Number.int <$> d.readInt
    return { t with memory := t.memory.set g v.net (← Word.ofNumber number) }

/-- Writes data to values: one number to one value, or the items of a collection to the
items of another, as far as both go. Nesting deeper than `depth` is not followed. A
failure keeps what was written before it. -/
def writeTo (g : Graph) : Nat → Target → Datum → Datum → Except Fault Unit × Target
  | 0, t, _, _ => (.error .endless, t)
  | depth + 1, t, slots, data =>
    if slots.isIterable then
      if data.isIterable then
        match slots.iterate, data.iterate with
        | .ok vs, .ok ds =>
          (vs.zip ds).foldl (fun (state : Except Fault Unit × Target) (v, d) =>
            match state.1 with
            | .ok () => writeTo g depth state.2 v d
            | .error _ => state) (.ok (), t)
        | .error f, _ | _, .error f => (.error f, t)
      else (.error (.violated .manyValues), t)
    else if data.isIterable then (.error (.violated .oneValue), t)
    else match slots with
      | .scalar (.traced v) => match t.writeValue g v data with
        | .ok t => (.ok (), t)
        | .error f => (.error f, t)
      | _ => (.error (.violated .tracedValue), t)

def write (t : Target) (g : Graph) (slots data : Datum) : Except Fault Unit × Target :=
  t.writeTo g (slots.depth + data.depth + 2) slots data

end Target

end Patchwork
