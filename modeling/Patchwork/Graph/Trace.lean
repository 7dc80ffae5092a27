import Patchwork.Graph.Node

/-!
# Tracing

A computation on values does not compute: it appends nodes to the graph and returns the
values that stand for the results. A trace either succeeds with a larger graph or fails
with a fault.
-/

namespace Patchwork

abbrev Trace := StateT Graph (Except Fault)

/-- A traced scalar: a net and the kind under which the user reads it. -/
structure Value where
  net : Net
  kind : Kind
  deriving Repr, DecidableEq, Inhabited

namespace Trace

def fail {α : Type} (f : Fault) : Trace α := throw f

def push (n : Node) : Trace NodeId := fun g => .ok (g.size, g.push n)

def constant (value : Number) (anonymous : Bool) : Trace Net := do
  return ⟨value.cell, ← push (.constant value anonymous)⟩

end Trace

namespace Value

def ofNet (n : Net) : Value := ⟨n, .ofCell n.cell⟩

/-- A value for a net, read under a given kind, which the net's cell must store. -/
def ofNetAs (n : Net) (wanted : String) : Trace Value :=
  match Kind.ofName? wanted with
  | some k =>
    if k.cell = n.cell then pure ⟨n, k⟩
    else throw (.violated (.netType n.cell.name wanted))
  | none => throw (.violated (.netType n.cell.name wanted))

def constant (n : Number) : Trace Value := do
  let net ← Trace.constant n false
  return ⟨net, match n with | .bool _ => .bool | _ => .ofCell net.cell⟩

def literal (n : Number) : Trace Value := do
  return ofNet (← Trace.constant n true)

end Value

namespace Trace

def sortByKind (vs : List Value) : List Value :=
  vs.mergeSort fun a b => a.kind.rank ≤ b.kind.rank

/-- Appends an operation on values. A commutative operation takes its operands in the
order of their kinds. The result is read under the kind of its cell. -/
def apply (o : Operation) (operands : List Value) (commutative : Bool) : Trace Value :=
  let operands := if commutative then sortByKind operands else operands
  match o.result? (operands.map fun v => v.kind.cell) with
  | none => throw (.uncovered (.operation o.name (operands.map fun v => v.kind.name)))
  | some cell => do
    let k ← push (.apply o (operands.map Value.net) commutative)
    return .ofNet ⟨cell, k⟩

def compare (o : Operation) (operands : List Value) (commutative : Bool) : Trace Value := do
  let v ← apply o operands commutative
  return { v with kind := .bool }

end Trace

end Patchwork
