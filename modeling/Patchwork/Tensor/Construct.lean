import Patchwork.Tensor.Product

/-!
# Making tensors
-/

namespace Patchwork

namespace Tensor

variable {α : Type} [Element α]

def filled (x : α) (shape : Shape) : Except Fault (Tensor α) :=
  build (List.replicate (Shape.size shape).toNat x) shape

/-- The numbers from `current` on in steps of `step`, as long as they stand before `stop`.
At most `bound` numbers are listed. -/
def spaced (before : Number → Bool) (step : Number) : Nat → Number → Except Fault (List Number)
  | 0, _ => .ok []
  | bound + 1, current =>
    if before current then do
      return current :: (← spaced before step bound (← current.add step))
    else .ok []

/-- A bound on how many numbers lie between two numbers at a given step. Rounding of the
running number can only move it by a fraction of a step each time, which the factor
covers. -/
def spacedBound (start stop step : Number) : Nat :=
  let steps := do (← (← stop.sub start).trueDiv step).toInt
  match steps with
  | .ok n => 2 * n.natAbs + 16
  | .error _ => 16

def evenly (start stop step : Number) : Except Fault (List Number) :=
  let bound := spacedBound start stop step
  if (Number.int 0).lt step then spaced (fun x => x.lt stop) step bound start
  else if step.lt (.int 0) then spaced (fun x => stop.lt x) step bound start
  else .error (.rejected .zeroStep)

section Traced

variable {m : Type → Type} [Monad m] [MonadExceptOf Fault m] [Arithmetic m α]

open Arithmetic

def eye (rows columns : Int) : m (Tensor α) := do
  let values ← (upTo rows).flatMapM fun i => (upTo columns).mapM fun j =>
    constant (.int (if i = j then 1 else 0))
  Fault.lift (build values [rows, columns])

/-- The square matrix with given elements on the diagonal and named zeros elsewhere. -/
def diagonal (entries : List α) : m (Tensor α) := do
  let n : Int := entries.length
  let values ← entries.zipIdx.flatMapM fun (x, i) => (List.range entries.length).mapM fun j =>
    if i = j then pure x else constant (.int 0)
  Fault.lift (build values [n, n])

end Traced

/-- The tensors joined along an axis, which may count from the end. They must agree in
every other dimension. -/
def concat (ts : List (Tensor α)) (axis : Int) : Except Fault (Tensor α) :=
  match ts with
  | [] => .error (.violated .someTensor)
  | first :: _ => do
    let rank := first.rank
    let axis := if axis < 0 then axis + rank else axis
    unless 0 ≤ axis ∧ axis < rank do throw (.violated .unstated)
    let k := axis.toNat
    for t in ts do
      unless t.rank = rank ∧ t.shape.eraseIdx k = first.shape.eraseIdx k do
        throw (.violated .unstated)
    let extent (t : Tensor α) : Int := t.shape.getD k 0
    let shape := first.shape.set k ((ts.map extent).foldl (· + ·) 0)
    let inner := Shape.size (first.shape.drop (k + 1))
    let outer := Shape.size (first.shape.take k)
    let values := (upTo outer).flatMap fun o => ts.flatMap fun t =>
      let start := o * extent t * inner
      Sequence.between t.values start (start + extent t * inner)
    build values shape

end Tensor

end Patchwork
