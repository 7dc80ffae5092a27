import Patchwork.Scalar.Operators

/-!
# Arithmetic in the abstract

The formulas of the array types are written once, over anything that can be added,
multiplied and so on inside a monad that can fail. Traced scalars are one instance. An
instance on exact numbers gives the same formulas their mathematical meaning.
-/

namespace Patchwork

/-- A number as it is written in a formula: an integer, or a decimal fraction. -/
inductive Literal where
  | int (value : Int)
  | decimal (mantissa : Int) (exponent : Int)
  deriving Repr, DecidableEq

/-- The plain number that a literal names; a fraction is rounded to a double. -/
def Literal.number : Literal → Number
  | .int i => .int i
  | .decimal m e =>
    let x := Float.ofScientific m.natAbs (e < 0) e.natAbs
    .float (if m < 0 then -x else x)

/-- What a formula needs of its numbers. -/
class Arithmetic (m : Type → Type) (α : Type) where
  /-- A number written in the formula. -/
  literal : Literal → α
  /-- A plain number made into a named constant where numbers are traced. -/
  named : α → m α
  isTraced : α → Bool
  isZero : α → Bool
  binary : Operator → α → α → m α
  neg : α → m α
  elementary : Elementary → α → m α
  atan2 : α → α → m α

namespace Arithmetic

variable {m : Type → Type} {α : Type} [Monad m] [Arithmetic m α]

def int (m : Type → Type) {α : Type} [Arithmetic m α] (i : Int) : α := literal m (.int i)

/-- A whole number written with a decimal point. -/
def real (m : Type → Type) {α : Type} [Arithmetic m α] (i : Int) : α := literal m (.decimal i 0)

/-- A number written in the formula, made into a named constant. -/
def constant (l : Literal) : m α := named (literal m l : α)

def add (a b : α) : m α := binary .add a b

def sub (a b : α) : m α := binary .sub a b

def mul (a b : α) : m α := binary .mul a b

def div (a b : α) : m α := binary .trueDiv a b

def square (a : α) : m α := binary .pow a (int m 2)

/-- The sum of a list from left to right, starting at the integer zero. -/
def total (xs : List α) : m α := xs.foldlM add (int m 0)

/-- The sum of the plain numbers plus the sum of the traced ones, each from left to
right. -/
def mixedTotal (xs : List α) : m α := do
  let plain ← total (m := m) (xs.filter fun x => !isTraced m x)
  let traced ← total (m := m) (xs.filter fun x => isTraced m x)
  add plain traced

/-- The first number if the condition is not zero, else the second: each is multiplied
by a truth value. -/
def select (condition first second : α) : m α := do
  let yes ← mul (m := m) (← binary (m := m) .ne condition (int m 0)) first
  let no ← mul (m := m) (← binary (m := m) .eq condition (int m 0)) second
  add yes no

/-- Keeps a number between two bounds: each of the three candidates is multiplied by a
truth value. -/
def clamp (x lower upper : α) : m α := do
  let below ← mul (m := m) (← binary (m := m) .lt x lower) lower
  let above ← mul (m := m) (← binary (m := m) .gt x upper) upper
  let outside ← add (m := m) below above
  let inside ← binary (m := m) .bitAnd (← binary (m := m) .ge x lower)
    (← binary (m := m) .le x upper)
  add outside (← mul (m := m) inside x)

end Arithmetic

instance [Library] : Arithmetic Trace Scalar where
  literal l := .plain l.number
  named s := match s with
    | .plain n => return .traced (← Value.constant n)
    | .traced _ => throw (.rejected (.dataType "value"))
  isTraced := Scalar.isTraced
  isZero s := match s with
    | .plain n => n.isZero
    | .traced _ => false
  binary := Scalar.binary
  neg := Scalar.neg
  elementary := Scalar.elementary
  atan2 := Scalar.either Number.atan2 .atan2 false

end Patchwork
