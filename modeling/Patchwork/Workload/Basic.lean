import Patchwork.Script.Request

/-!
# Workloads

A workload is a script of a given size that exercises one part of the library and returns
a summary of what it built. The nodes that it makes measure its work: those of the graph,
and the loads and saves of the programs that it compiles.
-/

namespace Patchwork

abbrev Workload := Nat → Script Datum

namespace Workload

open Script

def routine (r : Routine) (arguments : List Datum) : Script Datum := trace (r.call ⟨arguments, []⟩)

def method (m : Method) (self : Datum) (arguments : List Datum) : Script Datum :=
  trace (m.call self ⟨arguments, []⟩)

def operate (o : Operator) (a b : Datum) : Script Datum := routine (.operator o) [a, b]

def sumOf : List Datum → Script Datum
  | [] => return .int 0
  | d :: ds => ds.foldlM (operate .add) d

def namedValue (d : Datum) : Script Datum := routine .makeValue [d]

def real (x : Float) : Datum := .plain (.float x)

def kindOf (d : Datum) : Script Datum := trace (d.part .kind)

def lengthOf (d : Datum) : Script Datum := routine .length [d]

/-- The number of elements of a vector, a tensor or a quaternion. -/
def elementCount (d : Datum) : Script Nat := do
  match ← trace (d.part .values) with
  | .tuple xs => return xs.length
  | _ => throw .illTyped

/-- The loads and saves that the programs of the targets were given. -/
def transfers (s : Session) : List Node :=
  s.targets.toList.flatMap fun t => (t.program.getD []).filterMap fun step =>
    match step.run with
    | .fresh n => some n
    | .existing _ => none

/-- How many nodes of each name a session has made, by name. Roots ask for a result and are
not counted. -/
def nodeCounts (s : Session) : List (String × Nat) :=
  let names := (s.graph.nodes.toList ++ transfers s).filterMap fun n => match n with
    | .root _ => none
    | n => some n.name
  let counts := names.foldl (fun (t : List (String × Nat)) name =>
    if t.any fun e => e.1 == name then t.map fun e => if e.1 == name then (e.1, e.2 + 1) else e
    else t ++ [(name, 1)]) []
  counts.mergeSort fun a b => a.1 ≤ b.1

end Workload

end Patchwork
