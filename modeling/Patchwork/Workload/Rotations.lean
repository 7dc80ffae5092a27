import Patchwork.Workload.Basic

/-!
# The rotation workload

Makes a rotation from three angles in each round, turns it into every other form, applies
every operator to it and multiplies it up with the rotations of the rounds before. At the
end the same is done with plain numbers, which traces next to nothing.
-/

namespace Patchwork

namespace Workload

open Script

def triple (x y z : Float) : Script (List Datum) := [x, y, z].mapM fun v => namedValue (real v)

/-- The forms of a rotation: its matrix, its angles, its axis, a vector turned by it and
its imaginary part. -/
def forms (q vector : Datum) : Script (List Datum) := do
  let axis ← match ← method .axisAngle q [] with
    | .tuple [axis, _] => pure axis
    | _ => throw .illTyped
  let imaginary ← routine .index [q, .slice ⟨some 1, none, none⟩]
  return [← method .rotationMatrix q [], ← method .eulerAngles q [], axis,
    ← method .rotateVector q [vector], imaginary]

def combinations (q unit before s : Datum) : Script (List Datum) := do
  return [← operate .add before q, ← operate .add q s, ← operate .add (real 1.5) q,
    ← operate .sub q unit, ← operate .sub q s, ← operate .sub (real 2.5) q,
    ← operate .mul q s, ← operate .mul q (real 2.0), ← operate .mul (real 0.5) q,
    ← operate .trueDiv q s, ← operate .trueDiv q (real 2.0)]

def rotations : Workload := fun n => do
  let identity ← routine .identityRotation []
  let (_, total, kind) ← (List.range n).foldlM (fun (state : Datum × Nat × Datum) i => do
    let (before, total, _) := state
    let step := 0.1 * i.toFloat
    let q ← routine .fromEuler (← triple (0.1 + step) (0.2 + step) (0.3 + step))
    let vector ← routine .makeVector [.list (← triple 1.0 2.0 3.0)]
    let s ← namedValue (real (1.5 + step))
    let unit ← method .normalize q []
    let changed := [unit, ← method .conjugate q [], ← method .inverse q [],
      ← routine .negate [q], ← operate .matmul before q]
    let _ ← combinations q unit before s
    let norm ← routine .absolute [q]
    let sizes ← (vector :: (← forms q vector) ++ changed).mapM elementCount
    return (changed.getLastD q, total + sizes.foldl (· + ·) 0, ← kindOf norm)) (identity, 0, .absent)
  let plain ← routine .makeQuaternion [real 1.0, real 1.0, real 1.0, real 1.0]
  let turned := [← method .rotationMatrix plain [], ← method .eulerAngles plain [],
    ← method .rotateVector plain [← routine .makeVector [.list [real 1.0, real 2.0, real 3.0]]],
    ← method .conjugate plain [], ← method .inverse plain [], ← method .normalize plain [],
    ← routine .negate [plain], ← operate .add plain plain, ← operate .add plain (real 1.0),
    ← operate .mul plain (real 2.0), ← operate .trueDiv plain (real 2.0)]
  let sizes ← turned.mapM elementCount
  return .tuple [.int total, kind, .int (sizes.foldl (· + ·) 0 : Nat), ← method .norm plain []]

end Workload

end Patchwork
