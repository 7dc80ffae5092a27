import Patchwork.Tensor.Index
import Patchwork.Tensor.Reshape

/-!
# Broadcasting

Two shapes are aligned at their last dimension. Extents must agree or be 1, and an extent
of 1 is repeated. Missing dimensions count as 1.
-/

namespace Patchwork

namespace Shape

def padded (s : Shape) (rank : Nat) : Shape := List.replicate (rank - s.length) 1 ++ s

def broadcast (a b : Shape) : Except Fault Shape :=
  let rank := max a.length b.length
  ((a.padded rank).zip (b.padded rank)).mapM fun (m, n) =>
    if m = n then .ok m
    else if m = 1 then .ok n
    else if n = 1 then .ok m
    else .error (.rejected (.broadcast a b))

end Shape

namespace Tensor

variable {α : Type} [Element α]

def repeatAlong (t : Tensor α) (axis : Int) (times : Int) : Except Fault (Tensor α) := do
  let extent ← Sequence.at t.shape axis
  if extent ≠ 1 then throw (.rejected (.repetition extent))
  let shape ← Sequence.put t.shape axis times
  let places := choices (shape.map fun n => Slice.progression 0 n 1)
  let values ← places.mapM fun is => do
    Sequence.at t.values (← t.flatIndex (← Sequence.put is axis 0))
  build values shape

def addDimensions (t : Tensor α) : Nat → Except Fault (Tensor α)
  | 0 => .ok t
  | n + 1 => do (← t.reshape (1 :: t.shape)).addDimensions n

def expand (t : Tensor α) (target : Shape) : Except Fault (Tensor α) := do
  if t.shape = target then return t
  let given := t.shape.padded target.length
  if (given.zip target).any fun (s, n) => s ≠ n && s ≠ 1 then
    throw (.rejected (.expansion t.shape target))
  let t ← t.addDimensions (target.length - t.shape.length)
  (t.shape.zip target).zipIdx.foldlM
    (fun t ((extent, wanted), k) =>
      if extent = 1 ∧ wanted ≠ 1 then t.repeatAlong k wanted else .ok t) t

def aligned (a b : Tensor α) : Except Fault (Shape × List (α × α)) := do
  if a.shape = b.shape then return (a.shape, a.values.zip b.values)
  let shape ← Shape.broadcast a.shape b.shape
  let a ← a.expand shape
  let b ← b.expand shape
  return (shape, a.values.zip b.values)

def zipWithM {m : Type → Type} [Monad m] [MonadExceptOf Fault m] (f : α → α → m α)
    (a b : Tensor α) : m (Tensor α) := do
  let (shape, pairs) ← Fault.lift (a.aligned b)
  let values ← pairs.mapM fun (x, y) => f x y
  Fault.lift (build values shape)

end Tensor

end Patchwork
