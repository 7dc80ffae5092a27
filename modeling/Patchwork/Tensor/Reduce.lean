import Patchwork.Tensor.Broadcast
import Patchwork.Scalar.Arithmetic

/-!
# Sums over axes

A sum over some axes adds up all elements that agree on the remaining indices, in the
order of the flat list. A sum over every axis is a scalar, in which plain numbers are
gathered first.
-/

namespace Patchwork

/-- The outcome of an operation that may leave no dimension. -/
inductive Reduced (α : Type) where
  | scalar (x : α)
  | tensor (t : Tensor α)

namespace Tensor

variable {α : Type} [Element α] {m : Type → Type} [Monad m] [MonadExceptOf Fault m]
  [Arithmetic m α]

open Arithmetic

/-- The axes of a sum: in bounds, without repetition, highest first. -/
def summedAxes (rank : Nat) (axes : List Int) : Except Fault (List Nat) := do
  let checked ← axes.mapM fun (a : Int) =>
    if 0 ≤ a ∧ a < rank then .ok a.toNat else .error (.rejected (.axis a rank))
  return checked.eraseDups.mergeSort (· ≥ ·)

def dropPositions {β : Type} (xs : List β) (positions : List Nat) : List β :=
  (xs.zipIdx.filter fun (_, k) => !positions.contains k).map Prod.fst

def unitPositions (shape : Shape) (positions : List Nat) : Shape :=
  shape.zipIdx.map fun (n, k) => if positions.contains k then 1 else n

/-- A partial sum: the places filled so far. -/
structure Partial (α : Type) where
  values : List α
  filled : List Bool

def Partial.add (p : Partial α) (place : Int) (x : α) : m (Partial α) := do
  if ← Fault.lift (Sequence.at p.filled place) then
    let sum ← Arithmetic.add (← Fault.lift (Sequence.at p.values place)) x
    return { p with values := ← Fault.lift (Sequence.put p.values place sum) }
  else
    return {
      values := ← Fault.lift (Sequence.put p.values place x)
      filled := ← Fault.lift (Sequence.put p.filled place true) }

def sumAll (t : Tensor α) (keep : Bool) : m (Reduced α) := do
  let total ← mixedTotal t.values
  if keep then return .tensor (← Fault.lift (build [total] (t.shape.map fun _ => 1)))
  else return .scalar total

/-- The sum over the given axes; on request the summed dimensions are kept with extent
1, unless all of them are summed. -/
def sum (t : Tensor α) (axes : List Int) (keep : Bool) : m (Reduced α) := do
  let axes ← Fault.lift (summedAxes t.rank axes)
  let shape := dropPositions t.shape axes
  if shape.isEmpty then return .scalar (← mixedTotal t.values)
  let start ← Fault.lift (Sequence.at t.values 0)
  let room := (Shape.size shape).toNat
  let initial : Partial α := ⟨List.replicate room start, List.replicate room false⟩
  let summed ← t.values.zipIdx.foldlM (fun (p : Partial α) (x, k) => do
    let indices ← Fault.lift (t.shape.indices k)
    p.add (Shape.position shape (dropPositions indices axes)) x) initial
  let shape := if keep then unitPositions t.shape axes else shape
  return .tensor (← Fault.lift (build summed.values shape))

def trace (t : Tensor α) : m α :=
  match t.shape with
  | [a, b] =>
    if a = b then do
      mixedTotal (← (Slice.progression 0 a 1).mapM fun i => Fault.lift (t.get [i, i]))
    else throw (.violated .squareMatrix)
  | _ => throw (.violated .squareMatrix)

end Tensor

end Patchwork
