import Patchwork.Workload.Basic

/-!
# The tensor workload

Applies every operation on tensors to two square tensors of variables, to a vector and a
tensor of rank one, to plain numbers and to lists of them, and looks at the shapes.
-/

namespace Patchwork

namespace Workload

open Script

def grid (n : Nat) (start : Float) : List (List Datum) :=
  (List.range n).map fun i => (List.range n).map fun j => real (start + (i * n + j).toFloat)

def squareTensor (n : Nat) (start : Float) : Script Datum := do
  let rows ← (grid n start).mapM fun row => do return Datum.list (← row.mapM namedValue)
  routine .makeTensor [.list rows]

/-- Arithmetic on a square tensor: sums with another, with a number, with nested lists and
with a list that is repeated for each row, and the other operators. -/
def tensorArithmetic (a b : Datum) (rows : List (List Datum)) : Script (List Datum) := do
  let two := real 2.0
  [(Operator.add, a, b), (.add, a, two), (.add, a, .list (rows.map .list)),
    (.add, a, .list (rows.headD [])), (.sub, a, b), (.sub, two, a), (.mul, a, b), (.mul, a, two),
    (.mul, two, a), (.trueDiv, a, b), (.trueDiv, two, a), (.pow, a, .int 2),
    (.pow, two, a)].mapM fun (o, x, y) => operate o x y

def shapeOf (d : Datum) : Script Datum := trace (d.part .shape)

/-- The tensor workload: the shapes of tensors, then sizes, kinds of scalars and reductions
of a plain tensor, and whether a negative has as many elements as what it negates. -/
def tensors : Workload := fun n => do
  let a ← squareTensor n 1.0
  let b ← squareTensor n 2.0
  let points (start : Float) : Script (List Datum) :=
    (List.range n).mapM fun i => namedValue (real (start + i.toFloat))
  let v ← routine .makeVector [.list (← points 1.0)]
  let u ← routine .makeTensor [.list (← points 2.0)]
  let results ← tensorArithmetic a b (grid n 3.0)
  let compared ← sumOf (← [Operator.gt, .lt, .ge, .le, .eq, .ne].mapM fun o =>
    operate o a (real 2.0))
  let negated ← routine .negate [a]
  let product ← operate .matmul a b
  let columns ← [v, u].mapM fun x => operate .matmul a x
  let row ← operate .matmul u a
  let whole : Datum := .slice ⟨none, none, none⟩
  let index (key : Datum) : Script Datum := routine .index [a, key]
  let pieces := [← index (.int 0),
    ← index (.tuple [.slice ⟨some 0, some 2, none⟩, .slice ⟨none, none, some 2⟩]),
    ← index (.tuple [whole, .int 0]), ← index (.tuple [.int 0, .int 1])]
  let reduced := [← method .sum a [.int 0], ← method .sum a [.int 0, .bool true],
    ← method .sum a [.absent, .bool true], ← method .mean a [.int 0]]
  let made := [← routine .zeros [.int 3], ← routine .ones [.int 2],
    ← routine .ones [.tuple [.int 2, .int n]], ← routine .arange [.int n], ← routine .eye [.int n],
    ← routine .eye [.int n, .int (n + 1)], ← routine .identity [.int 3],
    ← routine .arange [real 0.0, real n.toFloat], row,
    ← routine .arange [real 5.0, real 0.0, real (-1.0)]]
  let joined := [← routine .concat [.list [a, b]], ← routine .concat [.list [a, b], .int 1],
    ← routine .flatten [a]]
  let alike ← method .homogenize a []
  let scalar ← method .getScalar a [.int 0, .int 0]
  let point ← routine .makeTensor [scalar]
  let plain ← routine .makeTensor [.list [real 1.0, real 2.0]]
  let block ← routine .zeros [.tuple [.int 1, .int 2, .int 2]]
  let three ← routine .makeVector [.list [.int 1, .int 2, .int 3]]
  let diagonal ← routine .diagonal [three]
  let shapes ← (results.take 1 ++ [compared, product] ++ columns ++
    [← trace (a.part .transposed), ← method .transpose a [.int 1, .int 0], ← method .flatten a []] ++
    reduced ++ pieces ++ made ++ joined ++ [← routine .zeros [.tuple [.int 2, .int 3]], alike,
    point, plain, u, block, three, diagonal]).mapM shapeOf
  let scalars := [← method .sum a [], ← method .mean a [], ← method .trace a [],
    ← operate .matmul u u, scalar]
  let both ← method .sum a [.tuple [.int 0, .int 1]]
  let kept := (← elementCount negated) == (← elementCount a)
  return .tuple (shapes ++ [← lengthOf a, ← method .size block []] ++ (← scalars.mapM kindOf) ++
    [← method .sum plain [], ← method .mean plain [], ← kindOf both, ← lengthOf u, .bool kept])

end Workload

end Patchwork
