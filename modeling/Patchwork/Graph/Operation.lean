/-!
# Operations and their types

A net carries a 32-bit cell that holds an integer or a binary32 number. A value adds
the kind the user thinks in, which also knows truth values; on the target those are
integer cells. An operation is chosen together with the cell types of its operands,
and that choice fixes the type of its result.
-/

namespace Patchwork

/-- The type of a 32-bit cell. -/
inductive Cell where
  | int
  | float
  deriving Repr, DecidableEq, Inhabited

namespace Cell

def name : Cell → String
  | int => "int"
  | float => "float"

def all : List Cell := [int, float]

/-- The cell type that holds integers only if both operands do. -/
def join : Cell → Cell → Cell
  | int, int => int
  | _, _ => float

end Cell

/-- The type of a value as the user sees it. -/
inductive Kind where
  | int
  | float
  | bool
  deriving Repr, DecidableEq, Inhabited

namespace Kind

def name : Kind → String
  | int => "int"
  | float => "float"
  | bool => "bool"

/-- The cell type that stores a kind: truth values are stored as integers. -/
def cell : Kind → Cell
  | float => .float
  | _ => .int

def ofCell : Cell → Kind
  | .int => int
  | .float => float

def ofName? : String → Option Kind
  | "int" => some int
  | "float" => some float
  | "bool" => some bool
  | _ => none

def rank : Kind → Nat
  | bool => 0
  | float => 1
  | int => 2

end Kind

inductive Operation where
  | add | sub | mul | div | floordiv | mod
  | gt | ge | eq | ne
  | bwand | bwor | bwxor | lshift | rshift
  | min | max | pow | atan2
  | neg | abs | sign
  | sqrt | exp | log | sin | cos | tan | asin | acos | atan
  | get42
  | cast (target : Cell)
  deriving Repr, DecidableEq

namespace Operation

def name : Operation → String
  | add => "add" | sub => "sub" | mul => "mul" | div => "div"
  | floordiv => "floordiv" | mod => "mod"
  | gt => "gt" | ge => "ge" | eq => "eq" | ne => "ne"
  | bwand => "bwand" | bwor => "bwor" | bwxor => "bwxor"
  | lshift => "lshift" | rshift => "rshift"
  | min => "min" | max => "max" | pow => "pow" | atan2 => "atan2"
  | neg => "neg" | abs => "abs" | sign => "sign"
  | sqrt => "sqrt" | exp => "exp" | log => "log"
  | sin => "sin" | cos => "cos" | tan => "tan"
  | asin => "asin" | acos => "acos" | atan => "atan"
  | get42 => "get_42"
  | cast target => "cast_" ++ target.name

/-- The part of a name before its first underscore, by which nodes are told apart. -/
def stem : Operation → String
  | get42 => "get"
  | cast _ => "cast"
  | o => o.name

def all : List Operation :=
  [add, sub, mul, div, floordiv, mod, gt, ge, eq, ne, bwand, bwor, bwxor, lshift, rshift,
    min, max, pow, atan2, neg, abs, sign, sqrt, exp, log, sin, cos, tan, asin, acos, atan,
    get42, cast .int, cast .float]

def ofName? (s : String) : Option Operation := all.find? (·.name == s)

/-- The cell type of the result for operands of the given types, or `none` if there is
no stencil for them. -/
def result? : Operation → List Cell → Option Cell
  | add, [a, b] | sub, [a, b] | mul, [a, b] | floordiv, [a, b] | min, [a, b] | max, [a, b] =>
    some (a.join b)
  | div, [_, _] | pow, [_, _] | atan2, [_, _] => some .float
  | gt, [_, _] | ge, [_, _] | eq, [_, _] | ne, [_, _] => some .int
  | mod, [.int, .int] | bwand, [.int, .int] | bwor, [.int, .int] | bwxor, [.int, .int]
  | lshift, [.int, .int] | rshift, [.int, .int] => some .int
  | neg, [a] | abs, [a] => some a
  | sign, [_] => some .int
  | sqrt, [_] | exp, [_] | log, [_] | sin, [_] | cos, [_] | tan, [_]
  | asin, [_] | acos, [_] | atan, [_] | get42, [_] => some .float
  | cast .float, [.int, _] => some .float
  | cast .int, [.float, _] => some .int
  | _, _ => none

def typedName (o : Operation) (operands : List Cell) : String :=
  "_".intercalate (o.name :: operands.map Cell.name)

def libraryFunction? : Operation → Option String
  | sqrt => some "sqrtf" | exp => some "expf" | log => some "logf"
  | sin => some "sinf" | cos => some "cosf" | tan => some "tanf"
  | asin => some "asinf" | acos => some "acosf" | atan => some "atanf"
  | atan2 => some "atan2f" | pow => some "powf"
  | _ => none

end Operation

end Patchwork
