import Patchwork.Workload.Basic

/-!
# The comparison workload

Builds the same computation three times over, once with the operands of its sum and its
product exchanged, and counts how many comparisons find the copies to be the same.
-/

namespace Patchwork

namespace Workload

open Script

/-- Whether two nodes or nets are the same computation, as a number. -/
def agreement (a b : Datum) : Script Nat := do
  let equal ← check (← GraphRequest.equal.call ⟨[a, b], []⟩).truth
  return if equal then 1 else 0

/-- The nets of a sum, of its product with a factor, and of what is left when the second
summand is taken away. -/
def shifted (a c factor : Datum) (exchanged : Bool) : Script (List Datum) := do
  let flip (o : Operator) (x y : Datum) : Script Datum :=
    if exchanged then operate o y x else operate o x y
  let sum ← flip .add a c
  let product ← flip .mul sum factor
  let rest ← operate .sub product c
  [sum, product, rest].mapM fun d => trace (d.part .net)

/-- How many of the comparisons between three copies of a computation succeed: all stages
of the copy with exchanged operands, and the last stage of the plain copy. -/
def copies (a factor c : Datum) : Script Nat := do
  let first ← shifted a c factor false
  let exchanged ← shifted a c factor true
  let again ← shifted a c factor false
  let pairs := first.zip exchanged ++ (first.zip again).drop 2
  return (← pairs.mapM fun (x, y) => agreement x y).foldl (· + ·) 0

/-- The comparison workload: the number of comparisons that succeed, the kinds of three
variables that were made with a given kind, and the names of the roots of a variable and
of a number. -/
def comparisons : Workload := fun n => do
  let a ← namedValue (real 1.5)
  let factor ← namedValue (real 2.5)
  let found ← (List.range n).mapM fun i => do
    copies a factor (← routine .literal [real (i.toFloat + 1)])
  let constant (x : Float) (anonymous : Bool) : Script Datum :=
    GraphRequest.constant.call ⟨[real x, .bool anonymous], []⟩
  let first ← constant 1.5 true
  let others ← [(1.5, true), (2.5, true), (1.5, false)].mapM fun (x, anonymous) =>
    constant x anonymous
  let equal ← others.mapM (agreement first)
  let kinds ← ["bool", "int", "float"].mapM fun kind => do
    kindOf (← GraphRequest.value.call ⟨[.int 1, .text kind], []⟩)
  let roots ← [a, real 2.5].mapM fun d => do
    let root ← GraphRequest.root.call ⟨[d], []⟩
    trace (root.part .name)
  return .tuple (.int (found.foldl (· + ·) 0 + equal.foldl (· + ·) 0 : Nat) :: kinds ++ roots)

end Workload

end Patchwork
