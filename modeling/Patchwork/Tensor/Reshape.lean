import Patchwork.Tensor.Basic

/-!
# Reshaping and transposing

Reshaping keeps the flat list and changes the shape. One dimension may be left open and
follows from the others. Transposing moves every element to the place with permuted
indices; axes that repeat leave places without an element.
-/

namespace Patchwork

namespace Tensor

variable {α : Type} [Element α]

def closedShape (size : Int) (shape : Shape) : Except Fault Shape :=
  match List.count (-1) shape with
  | 0 => .ok shape
  | 1 =>
    let known := Shape.size (shape.filter (· ≠ -1))
    if known = 0 then .error .divisionByZero
    else if size.fmod known ≠ 0 then .error (.rejected (.inferredDimension size shape))
    else .ok (shape.map fun d => if d = -1 then size.fdiv known else d)
  | _ => .error (.rejected .unknownDimensions)

def reshape (t : Tensor α) (shape : Shape) : Except Fault (Tensor α) := do
  let shape ← closedShape t.size shape
  if Shape.size shape ≠ t.size then throw (.rejected (.reshape t.size shape))
  build t.values shape

def flatten (t : Tensor α) : Except Fault (Tensor α) := t.reshape [-1]

def reversedAxes (rank : Nat) : List Int := (List.range rank).reverse.map Int.ofNat

def gather {β : Type} (xs : List β) (axes : List Int) : Except Fault (List β) :=
  axes.mapM (Sequence.at xs)

def transpose (t : Tensor α) (axes : List Int) : Except Fault (Tensor α) := do
  let axes := if axes.isEmpty then reversedAxes t.rank else axes
  if axes.length ≠ t.rank then throw (.rejected .axisCount)
  if axes.any fun a => a < 0 || (t.rank : Int) ≤ a then throw (.rejected (.axisRange t.rank))
  let shape ← gather t.shape axes
  let place (moved : List α) (entry : α × Nat) : Except Fault (List α) := do
    let old ← t.shape.indices entry.2
    Sequence.put moved (Shape.position shape (← gather old axes)) entry.1
  let moved ← t.values.zipIdx.foldlM place (List.replicate t.values.length Element.hole)
  build moved shape

end Tensor

end Patchwork
