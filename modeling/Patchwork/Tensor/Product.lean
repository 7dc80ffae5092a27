import Patchwork.Tensor.Reduce

/-!
# Matrix products

The product of two vectors is a scalar, in which plain numbers are gathered first. A
product with a matrix adds from left to right, starting at zero; a matrix times a vector
starts at a named constant zero.
-/

namespace Patchwork

namespace Tensor

variable {α : Type} [Element α] {m : Type → Type} [Monad m] [MonadExceptOf Fault m]
  [Arithmetic m α]

open Arithmetic

def upTo (n : Int) : List Int := Slice.progression 0 n 1

def term (a b : Tensor α) (i j : List Int) : m α := do
  let x ← Fault.lift (a.get i)
  let y ← Fault.lift (b.get j)
  mul x y

def matmul (a b : Tensor α) : m (Reduced α) :=
  match a.shape, b.shape with
  | [], _ | _, [] => throw (.rejected .scalarProduct)
  | [k], [k'] =>
    if k ≠ k' then throw (.rejected (.productShapes a.shape b.shape))
    else do
      let terms ← (a.values.zip b.values).mapM fun (x, y) => mul x y
      return .scalar (← mixedTotal terms)
  | [rows, k], [k', columns] =>
    if k ≠ k' then throw (.rejected (.productShapes a.shape b.shape))
    else do
      let values ← (upTo rows).flatMapM fun i => (upTo columns).mapM fun j => do
        total (← (upTo k).mapM fun l => term a b [i, l] [l, j])
      return .tensor (← Fault.lift (build values [rows, columns]))
  | [k], [k', columns] =>
    if k ≠ k' then throw (.rejected (.productShapes a.shape b.shape))
    else do
      let values ← (upTo columns).mapM fun j => do
        total (← (upTo k).mapM fun l => term a b [l] [l, j])
      return .tensor (← Fault.lift (build values [columns]))
  | [rows, k], [k'] =>
    if k ≠ k' then throw (.rejected (.productShapes a.shape b.shape))
    else do
      let values ← (upTo rows).mapM fun i => do
        let zero ← constant (.int 0)
        (upTo k).foldlM (fun sum l => do add sum (← term a b [i, l] [l])) zero
      return .tensor (← Fault.lift (build values [rows]))
  | s, s' => throw (.uncovered (.product s.length s'.length))

end Tensor

end Patchwork
