import Patchwork.Sequence

/-!
# Tensors

A tensor is a shape and a flat list of elements in row-major order. The shape is what
the caller gave: nothing forces it to match the number of elements, so every access is
checked.
-/

namespace Patchwork

/-! ## Shapes -/

namespace Shape

def size (s : Shape) : Int := s.foldl (· * ·) 1

/-- The position of a multi-index in row-major order, without a look at bounds. -/
def position (s : Shape) (indices : List Int) : Int :=
  ((s.zip indices).foldr (fun (d, i) (acc : Int × Int) => (acc.1 + i * acc.2, acc.2 * d)) (0, 1)).1

/-- The first dimension, from the last one backwards, whose index is out of bounds. -/
def excess? (s : Shape) (indices : List Int) : Option Excess :=
  let checked := (s.zip indices).zipIdx.reverse
  (checked.find? fun ((d, i), _) => i < 0 || d ≤ i).map fun ((d, i), k) => .index i k d

/-- The multi-index of a position; a dimension without extent has none. -/
def indices (s : Shape) (position : Int) : Except Fault (List Int) := do
  let step (d : Int) (acc : Int × List Int) : Except Fault (Int × List Int) :=
    if d = 0 then .error .divisionByZero
    else .ok (acc.1.fdiv d, acc.1.fmod d :: acc.2)
  let (_, found) ← s.reverse.foldlM (fun acc d => step d acc) (position, [])
  return found

end Shape

/-- A shape and its elements in row-major order. -/
structure Tensor (α : Type) where
  shape : Shape
  values : List α

namespace Tensor

variable {α : Type}

def rank (t : Tensor α) : Nat := t.shape.length

def size (t : Tensor α) : Int := t.shape.size

def length (t : Tensor α) : Except Fault Int :=
  match t.shape with
  | [] => .error (.rankZero .length)
  | n :: _ => .ok n

def flatIndex (t : Tensor α) (indices : List Int) : Except Fault Int :=
  if indices.length ≠ t.rank then .error (.outside (.indexCount t.rank indices.length))
  else match t.shape.excess? indices with
    | some e => .error (.outside e)
    | none => .ok (t.shape.position indices)

def get (t : Tensor α) (indices : List Int) : Except Fault α := do
  if indices.length ≠ t.rank then
    throw (.violated (.indexCount t.rank indices.length))
  Sequence.at t.values (← t.flatIndex indices)

end Tensor

/-- What a tensor needs to know of its elements. -/
class Element (α : Type) where
  /-- A number, plain or traced. -/
  isScalar : α → Bool
  /-- A list of further elements. -/
  isSequence : α → Bool
  /-- The shape of a list of elements, which must all have the same shape inside. -/
  nestedShape : List α → Except Fault Shape
  /-- The scalars inside a list of elements, in order. -/
  leaves : List α → List α
  /-- The tensor that stands for a single element. -/
  asTensor : α → Except Fault (Tensor α)
  /-- What a place holds to which nothing was written. -/
  hole : α

namespace Tensor

variable {α : Type} [Element α]

def ofNested (xs : List α) : Except Fault (Tensor α) := do
  return ⟨← Element.nestedShape xs, Element.leaves xs⟩

/-- Elements under a given shape. There must be a scalar among them, and lists are
dropped. The shape without dimensions stands for the shape of the nesting. -/
def build (values : List α) (shape : Shape) : Except Fault (Tensor α) :=
  match shape with
  | [] => ofNested values
  | shape =>
    if values.any Element.isScalar then
      .ok ⟨shape, values.filter fun v => !Element.isSequence v⟩
    else .error (.violated .scalarSequence)

end Tensor

end Patchwork
