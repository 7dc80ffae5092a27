import Patchwork.Workload.Basic

/-!
# The arithmetic workload

Applies every operator to variables, round after round. The whole numbers stay as they
are, so what is computed from them is built anew in each round and is the same
computation each time. The running value goes through a chain of operations on doubles,
so each round adds that chain to the graph.
-/

namespace Patchwork

namespace Workload

open Script

/-- A whole number computed with all operators on whole numbers, comparisons included. -/
def wholeRound (p q r s t : Datum) : Script Datum := do
  let both ← operate .bitAnd (.int 12) (← operate .bitAnd p q)
  let any ← operate .bitOr (.int 12) (← operate .bitOr p r)
  let one ← operate .bitXor (.int 12) (← operate .bitXor p s)
  let up ← operate .shiftLeft (.int 1) (← operate .shiftLeft p t)
  let down ← operate .shiftRight (.int 64) (← operate .shiftRight p t)
  let rest ← operate .modulo (.int 64) (← operate .modulo p q)
  let compared ← [(Operator.gt, .int 2), (.lt, .int 12), (.ge, .int 2), (.le, .int 12), (.eq, q),
    (.ne, q)].mapM fun (o, bound) => operate o rest bound
  sumOf ([both, any, one, up, down] ++ compared)

def doubleRound (x : Datum) : Script Datum := do
  let x ← operate .add (real 2.5) (← operate .add x (real 1.5))
  let x ← operate .sub (real 3.5) (← operate .sub x (real 0.5))
  let x ← operate .mul (.int 3) (← operate .mul x (real 2.0))
  let x ← operate .trueDiv (real 1.5) (← operate .trueDiv x (real 2.0))
  let x ← operate .floorDiv (real 2.5) (← operate .floorDiv x (real 0.5))
  let x ← operate .pow x (real 2.5)
  routine .absolute [← routine .negate [x]]

/-- The arithmetic workload: how many computations there are to the running value, how
many kinds of node they take, its kind, and whether it is the same computation as
itself. -/
def arithmetic : Workload := fun n => do
  let doubles ← [1.5, 2.5, 3.5, 4.5].mapM fun x => namedValue (real x)
  let wholes ← [9, 2, 3, 4, 1].mapM fun (i : Int) => namedValue (.int i)
  let last ← match doubles, wholes with
    | [a, b, c, d], [p, q, r, s, t] => (List.range n).foldlM (fun x _ => do
        let whole ← wholeRound p q r s t
        let y ← doubleRound x
        let first ← routine .choose [← operate .gt y b, y, b]
        let second ← routine .choose [whole, a, b]
        sumOf [first, second, ← operate .mul a b, ← operate .add a b, ← operate .mul c d]) a
    | _, _ => throw .illTyped
  let root ← GraphRequest.root.call ⟨[last], []⟩
  let counts ← match ← GraphRequest.statistics.call ⟨[.list [root]], []⟩ with
    | .dict entries => pure (entries.map Prod.snd)
    | _ => throw .illTyped
  return .tuple [← routine .total [.list counts], .int counts.length, ← kindOf last,
    ← GraphRequest.equal.call ⟨[root, root], []⟩]

end Workload

end Patchwork
