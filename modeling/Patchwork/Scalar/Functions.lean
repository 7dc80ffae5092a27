import Patchwork.Scalar.Arithmetic

/-!
# Functions of scalars

Functions that are traced as one node when an operand is traced, and that are computed
by comparisons and products on plain numbers.
-/

namespace Patchwork

/-- A function of two numbers besides the operators. -/
inductive Pairwise where
  | pow | atan2 | minimum | maximum
  deriving Repr, DecidableEq

namespace Scalar

/-- The smaller number; the second of two equal ones. -/
def minimum : Scalar → Scalar → Trace Scalar :=
  either (fun a b => .ok (if a.lt b then a else b)) .min false

/-- The larger number; the second of two equal ones. -/
def maximum : Scalar → Scalar → Trace Scalar :=
  either (fun a b => .ok (if b.lt a then a else b)) .max false

def pairwise [Library] : Pairwise → Scalar → Scalar → Trace Scalar
  | .pow => power
  | .atan2 => either Number.atan2 .atan2 false
  | .minimum => minimum
  | .maximum => maximum

/-- The absolute value. On plain numbers, each of the number and its negative is
multiplied by a truth value. -/
def abs : Scalar → Trace Scalar
  | plain n => arithmetic do
    let below ← (Number.bool (n.lt (.int 0))).mul n.neg
    let above ← (Number.bool ((Number.int 0).le n)).mul n
    below.add above
  | traced v => operate .abs [traced v]

def sign : Scalar → Trace Scalar
  | plain n => arithmetic ((Number.bool ((Number.int 0).lt n)).sub (.bool (n.lt (.int 0))))
  | traced v => operate .sign [traced v]

/-- A test function: five times the sum of 42 and three times the whole part, plus 21. -/
def get42 : Scalar → Trace Scalar
  | plain n => arithmetic do
    let whole ← n.toInt
    let tripled ← (← (Number.int whole).mul (.float 3.0)).add (.float 42.0)
    (← tripled.mul (.float 5.0)).add (.float 21.0)
  | traced v => operate .get42 [traced v]

end Scalar

end Patchwork
