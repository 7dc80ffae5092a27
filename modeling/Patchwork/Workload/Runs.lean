import Patchwork.Workload.Basic

/-!
# The run workload

Compiles the links of a fading sum together with results on whole numbers, runs the
program once, and reads the results one by one, as lists and as a vector.
-/

namespace Patchwork

namespace Workload

open Script

/-- The links of a fading sum: each one keeps nine tenths of the link before, and adds the
square of the next variable and a thousandth of the sample function. The sum starts at
the first variable, so there must be one. -/
def fadingSum (slots : List Datum) : Script (List Datum) := do
  let start :: _ := slots | throw .absentIndex
  let (_, links) ← slots.foldlM (fun (state : Datum × List Datum) x => do
    let (link, links) := state
    let kept ← operate .mul link (real 0.9)
    let grown ← operate .add kept (← operate .mul x x)
    let next ← operate .add grown (← operate .mul (← routine .get42 [x]) (real 0.001))
    return (next, links ++ [next])) (start, [])
  return links

def rounded : Datum → Script Datum
  | .scalar (.plain (.float x)) => return real (Decimal.roundTo 3 x)
  | _ => throw .illTyped

/-- The run workload: the sum of all links, the results on whole numbers, the size and the
sum of a list of three links, the shape of a vector of four, and a plain number, which
reads as itself. -/
def runs : Workload := fun n => do
  let slots ← (List.range n).mapM fun i => namedValue (real (0.1 + 0.01 * i.toFloat))
  let links ← fadingSum slots
  let whole ← namedValue (.int 3)
  let exceeds ← operate .gt whole (.int 5)
  let shifted ← operate .add whole (.int 4)
  let scaled ← operate .mul whole (.int 4)
  let array ← routine .makeVector [.list (links.take 4)]
  let target ← TargetRequest.new.call ⟨[], []⟩
  let _ ← TargetRequest.compile.call ⟨[target, links.getLastD .absent, exceeds, shifted, scaled,
    .list (links.take 3), array, .list links], []⟩
  let _ ← TargetRequest.run.call ⟨[target], []⟩
  let read (d : Datum) : Script Datum := TargetRequest.read.call ⟨[target, d], []⟩
  let few ← read (.list (links.take 3))
  let shape ← trace ((← read array).part .shape)
  return .tuple [← rounded (← routine .total [← read (.list links)]), ← read exceeds, ← read shifted,
    ← lengthOf few, shape, ← routine .total [few], ← read (real 3.14),
    ← rounded (← read (links.headD .absent)), ← read scaled]

end Workload

end Patchwork
