import Patchwork.Workload.Basic

/-!
# The vector workload

Applies every operation on vectors to two long vectors of variables, to two of length
three, to a variable and to plain numbers.
-/

namespace Patchwork

namespace Workload

open Script

def spacedVector (n : Nat) (start : Float) : Script Datum := do
  let xs ← (List.range n).mapM fun i => namedValue (real (start + i.toFloat))
  routine .makeVector [.list xs]

def orders : List Operator := [.gt, .lt, .ge, .le, .eq, .ne]

/-- The sum of all comparisons of a vector with another, with a variable and with a plain
number. Equality is also defined for a list of plain numbers. -/
def comparedVector (v w s : Datum) (points : List Datum) : Script Datum := do
  let results ← orders.mapM fun o => do
    let other := if o = .eq then .list points else w
    return [← operate o v other, ← operate o v s, ← operate o v (real 2.0)]
  sumOf results.flatten

/-- The vector workload: the lengths of vectors, the kinds of scalars, whether a plain
vector keeps its length when its elements are made alike, and its sum. -/
def vectors : Workload := fun n => do
  let v ← spacedVector n 1.0
  let w ← spacedVector n 2.0
  let a ← spacedVector 3 1.0
  let b ← spacedVector 3 4.0
  let s ← namedValue (real 2.5)
  let angle ← namedValue (real 0.5)
  let points := (List.range n).map fun i => real (i.toFloat + 1)
  let power : Datum := .routine (.pairwise .pow)
  let elementwise ← [(Operator.add, v, w), (.add, v, s), (.add, real 2.0, v), (.sub, v, s),
    (.sub, v, real 2.0), (.mul, v, w), (.mul, v, s), (.mul, real 2.0, v), (.trueDiv, v, w),
    (.trueDiv, v, s), (.trueDiv, v, real 2.0), (.pow, v, w), (.pow, v, s), (.pow, v, real 2.0),
    (.sub, real 2.0, a), (.trueDiv, real 2.0, a), (.pow, real 2.0, a)].mapM fun (o, x, y) =>
      operate o x y
  let powers ← [(v, w), (v, s), (a, real 2.0)].mapM fun (x, y) => routine .mapVector [x, y, power]
  let negated ← routine .negate [v]
  let compared ← comparedVector v w s points
  let product ← operate .matmul v w
  let unit ← method .normalize v []
  let scalars := [← operate .mul product s, ← routine .dotProduct [v, w], ← method .sum v [],
    ← method .sum w [], ← method .sum unit [], ← method .magnitude v [], ← routine .distance [v, w],
    ← routine .scalarProjection [a, b], ← routine .angleBetween [a, b]]
  let cross ← method .cross a [b]
  let normal ← routine .crossProduct [a, b]
  let projected ← routine .vectorProjection [a, b]
  let rotated ← routine .rotateVector [a, b, angle]
  let _ ← sumOf [cross, normal, projected, rotated]
  let plain ← routine .makeVector [.list [.int 2, .int 3, .int 4]]
  let forward := [Operator.add, .sub, .mul, .trueDiv, .pow] ++ orders
  let _ ← forward.mapM fun o => operate o plain (real 2.0)
  let _ ← [Operator.sub, .trueDiv, .pow].mapM fun o => operate o (real 2.0) plain
  let alike ← method .homogenize plain []
  let lengths ← (elementwise.take 2 ++ [negated, unit, cross] ++ powers.take 1 ++
    [normal, projected, rotated, compared]).mapM lengthOf
  let kinds ← scalars.mapM kindOf
  let kept := (← elementCount alike) == (← elementCount plain)
  return .tuple (lengths ++ kinds ++ [.bool kept, ← method .sum plain []])

end Workload

end Patchwork
