import Patchwork.Tensor.Basic
import Patchwork.Scalar.Arithmetic

/-!
# Vectors

A vector is a list of numbers, plain and traced ones mixed. An operation with a plain
number makes that number a named constant once, and every traced component is combined
with this one constant; plain components are combined with the number itself.
-/

namespace Patchwork

namespace Vector

variable {α : Type} {m : Type → Type} [Monad m] [MonadExceptOf Fault m] [Arithmetic m α]

open Arithmetic

def zipWith (f : α → α → m α) (xs ys : List α) (r : Requirement := .unstated) : m (List α) :=
  if xs.length = ys.length then (xs.zip ys).mapM fun (x, y) => f x y
  else throw (.violated r)

/-- Applies an operation to every component and one number. A plain number becomes one
named constant, which the traced components take. -/
def withScalar (f : α → α → m α) (xs : List α) (s : α) : m (List α) := do
  if isTraced m s then xs.mapM fun x => f x s
  else
    let shared ← named s
    xs.mapM fun x => f x (if isTraced m x then shared else s)

def scaled (xs : List α) (s : α) : m (List α) := withScalar mul xs s

/-- The dot product: the sum of the products, plain ones first. -/
def dot (xs ys : List α) : m α := do
  mixedTotal (← zipWith mul xs ys .sameLength)

def cross : List α → List α → m (List α)
  | [a1, a2, a3], [b1, b2, b3] => do
    let minor (p q r s : α) : m α := do sub (← mul (m := m) p q) (← mul (m := m) r s)
    return [← minor a2 b3 a3 b2, ← minor a3 b1 a1 b3, ← minor a1 b2 a2 b1]
  | _, _ => throw (.violated .threeDimensional)

def magnitude (xs : List α) : m α := do
  elementary .sqrt (← mixedTotal (m := m) (← xs.mapM fun x => mul x x))

/-- A small number that keeps a divisor away from zero. -/
def epsilon (m : Type → Type) {α : Type} [Arithmetic m α] : α := literal m (.decimal 1 (-20))

/-- The vector divided by its magnitude, which is kept away from zero. -/
def normalize (xs : List α) : m (List α) := do
  let length ← add (m := m) (← magnitude xs) (epsilon m)
  withScalar div xs length

def homogenize (xs : List α) : m (List α) :=
  if xs.any (isTraced m) then xs.mapM fun x => if isTraced m x then pure x else named x
  else pure xs

def distance (xs ys : List α) : m α := do magnitude (← zipWith sub xs ys)

def scalarProjection (xs ys : List α) : m α := do
  let product ← dot xs ys
  let length ← add (m := m) (← magnitude ys) (epsilon m)
  div product length

/-- The part of the first vector that points along the second. -/
def vectorProjection (xs ys : List α) : m (List α) := do
  let product ← dot xs ys
  let squared ← add (m := m) (← square (m := m) (← magnitude ys)) (epsilon m)
  scaled ys (← div (m := m) product squared)

def angleBetween (xs ys : List α) : m α := do
  let product ← dot xs ys
  let lengths ← mul (m := m) (← magnitude xs) (← magnitude ys)
  let cosine ← div (m := m) product (← add (m := m) lengths (epsilon m))
  elementary .acos cosine

def rotate (xs axis : List α) (angle : α) : m (List α) := do
  let k ← normalize axis
  let cosine ← elementary (m := m) .cos angle
  let sine ← elementary (m := m) .sin angle
  let kept ← scaled xs cosine
  let turned ← scaled (← cross k xs) sine
  let along ← scaled (← scaled k (← dot k xs)) (← sub (m := m) (int m 1) cosine)
  zipWith add (← zipWith add kept turned) along

end Vector

end Patchwork
