import Patchwork.Graph.Trace
import Patchwork.Number.Elementary

/-!
# Operators on scalars

A scalar is a plain number or a traced value. An operator on two plain numbers is
arithmetic; with a traced operand it appends a node, after turning a plain operand into
an anonymous constant. Adding or subtracting zero and multiplying by one or zero append
nothing.
-/

namespace Patchwork

/-- A plain number or a traced value. -/
inductive Scalar where
  | plain (n : Number)
  | traced (v : Value)

instance : Inhabited Scalar := ⟨.plain default⟩

inductive Operator where
  | add | sub | mul | trueDiv | floorDiv | modulo | pow | matmul
  | shiftLeft | shiftRight | bitAnd | bitOr | bitXor
  | gt | lt | ge | le | eq | ne
  deriving Repr, DecidableEq

namespace Scalar

def int (i : Int) : Scalar := plain (.int i)

def isTraced : Scalar → Bool
  | traced _ => true
  | plain _ => false

/-- The traced value of a scalar: a plain number becomes an anonymous constant. -/
def lift : Scalar → Trace Value
  | plain n => Value.literal n
  | traced v => pure v

def operate (o : Operation) (operands : List Scalar) (commutative : Bool := false) :
    Trace Scalar := do
  return traced (← Trace.apply o (← operands.mapM lift) commutative)

def comparison (o : Operation) (operands : List Scalar) (commutative : Bool := false) :
    Trace Scalar := do
  return traced (← Trace.compare o (← operands.mapM lift) commutative)

def arithmetic (r : Except Fault Number) : Trace Scalar := plain <$> Fault.lift r

/-! ## Arithmetic -/

/-- Sum. Adding a plain zero returns the value itself. -/
def add : Scalar → Scalar → Trace Scalar
  | plain a, plain b => arithmetic (a.add b)
  | traced v, plain n => if n.isZero then pure (traced v) else operate .add [traced v, plain n] true
  | plain n, traced v => if n.isZero then pure (traced v) else operate .add [traced v, plain n] true
  | traced v, traced w => operate .add [traced v, traced w] true

/-- Difference. Subtracting a plain zero returns the value itself. -/
def sub : Scalar → Scalar → Trace Scalar
  | plain a, plain b => arithmetic (a.sub b)
  | traced v, plain n => if n.isZero then pure (traced v) else operate .sub [traced v, plain n]
  | a, b => operate .sub [a, b]

/-- Product of a value and a plain number. A whole number becomes a double first if the
value is one; then one returns the value itself and zero returns a plain zero. -/
def scale (v : Value) (n : Number) : Trace Scalar := do
  let n ←
    if v.kind = .float then Number.float <$> Fault.lift n.toFloat else pure n
  if n.eq (.int 1) then return traced v
  else if n.isZero then return int 0
  else operate .mul [traced v, plain n] true

def mul : Scalar → Scalar → Trace Scalar
  | plain a, plain b => arithmetic (a.mul b)
  | traced v, plain n => scale v n
  | plain n, traced v => scale v n
  | traced v, traced w => operate .mul [traced v, traced w] true

def either (onNumbers : Number → Number → Except Fault Number) (o : Operation)
    (commutative : Bool) : Scalar → Scalar → Trace Scalar
  | plain a, plain b => arithmetic (onNumbers a b)
  | a, b => operate o [a, b] commutative

/-- Repeated multiplication: `x` times itself, `n + 1` factors in all. -/
def multiplied (x : Scalar) : Nat → Trace Scalar
  | 0 => pure x
  | n + 1 => do mul (← multiplied x n) x

/-- A power. A plain whole exponent from 0 to 7 is multiplied out, also for plain bases;
otherwise a traced operand makes a node, the exponent -1 is a reciprocal, and the result
is a double. -/
def power (x y : Scalar) : Trace Scalar :=
  let small : Option Nat := match y with
    | plain n => n.whole?.bind fun i => if 0 ≤ i ∧ i < 8 then some i.toNat else none
    | traced _ => none
  match small with
  | some 0 => pure (int 1)
  | some (n + 1) => multiplied x n
  | none => match x, y with
    | plain a, plain b =>
      if b.eq (.int (-1)) then arithmetic ((Number.int 1).trueDiv a) else arithmetic (a.powFloat b)
    | x, y => operate .pow [x, y]

/-! ## Comparison -/

def compared (onNumbers : Number → Number → Bool) (node : Scalar → Scalar → Trace Scalar) :
    Scalar → Scalar → Trace Scalar
  | plain a, plain b => pure (plain (.bool (onNumbers a b)))
  | a, b => node a b

def equality (o : Operation) : Scalar → Scalar → Trace Scalar
  | plain n, traced v => comparison o [traced v, plain n] true
  | a, b => comparison o [a, b] true

def binary : Operator → Scalar → Scalar → Trace Scalar
  | .add, a, b => add a b
  | .sub, a, b => sub a b
  | .mul, a, b => mul a b
  | .trueDiv, a, b => either Number.trueDiv .div false a b
  | .floorDiv, a, b => either Number.floorDiv .floordiv false a b
  | .modulo, a, b => either Number.modulo .mod false a b
  | .pow, plain a, plain b => arithmetic (a.pow b)
  | .pow, a, b => power a b
  | .matmul, _, _ => throw .illTyped
  | .shiftLeft, a, b => either Number.shiftLeft .lshift false a b
  | .shiftRight, a, b => either Number.shiftRight .rshift false a b
  | .bitAnd, a, b => either Number.bitAnd .bwand true a b
  | .bitOr, a, b => either Number.bitOr .bwor true a b
  | .bitXor, a, b => either Number.bitXor .bwxor true a b
  | .gt, a, b => compared (fun x y => y.lt x) (fun a b => comparison .gt [a, b]) a b
  | .lt, a, b => compared (fun x y => x.lt y) (fun a b => comparison .gt [b, a]) a b
  | .ge, a, b => compared (fun x y => y.le x) (fun a b => comparison .ge [a, b]) a b
  | .le, a, b => compared (fun x y => x.le y) (fun a b => comparison .ge [b, a]) a b
  | .eq, a, b => compared (fun x y => x.eq y) (equality .eq) a b
  | .ne, a, b => compared (fun x y => !x.eq y) (equality .ne) a b

def neg : Scalar → Trace Scalar
  | plain n => pure (plain n.neg)
  | traced v => operate .neg [traced v]

end Scalar

def Elementary.operation : Elementary → Operation
  | sqrt => .sqrt | exp => .exp | log => .log
  | sin => .sin | cos => .cos | tan => .tan
  | asin => .asin | acos => .acos | atan => .atan

def Scalar.elementary [Library] (f : Elementary) : Scalar → Trace Scalar
  | plain n => arithmetic (f.ofNumber n)
  | traced v => operate f.operation [traced v]

end Patchwork
