import Patchwork.Number.Arithmetic

/-!
# Elementary functions of plain numbers

What an elementary function is at a plain number is left to a mathematical library, which
is a parameter. In the native library each function is the binary64 one inside its domain.
Outside the domain, and where a finite argument has no finite image, it fails.
-/

namespace Patchwork

open scoped Power

/-- The elementary functions of one argument. -/
inductive Elementary where
  | sqrt | exp | log | sin | cos | tan | asin | acos | atan
  deriving Repr, DecidableEq

namespace Binary64

def atFinite (f : Float → Float) (x : Float) : Except Fault Float :=
  if x.isInf then .error .domain else .ok (f x)

def atUnit (f : Float → Float) (x : Float) : Except Fault Float :=
  if x.abs > 1.0 then .error .domain else .ok (f x)

end Binary64

namespace Elementary

/-- The natural logarithm of a positive integer beyond the range of doubles. -/
def logLarge (i : Nat) : Float :=
  let drop := Nat.log2 i - 1000
  Float.log (Float.ofNat (i / 2 ^ drop)) + Float.ofNat drop * Float.log 2.0

def ofFloat : Elementary → Float → Except Fault Float
  | sqrt, x => if x < 0.0 then .error .domain else .ok x.sqrt
  | exp, x =>
    let y := x.exp
    if y.isInf && !x.isInf then .error .overflow else .ok y
  | log, x => if x ≤ 0.0 then .error .domain else .ok x.log
  | sin, x => Binary64.atFinite Float.sin x
  | cos, x => Binary64.atFinite Float.cos x
  | tan, x => Binary64.atFinite Float.tan x
  | asin, x => Binary64.atUnit Float.asin x
  | acos, x => Binary64.atUnit Float.acos x
  | atan, x => .ok x.atan

end Elementary

/-! ## Mathematical libraries -/

/-- A mathematical library: what its functions give at plain numbers. -/
class Library where
  function : Elementary → Number → Except Fault Float
  angle : Number → Number → Except Fault Float

/-- The library of functions on doubles. A logarithm is also defined for integers beyond
the range of doubles. -/
instance Library.native : Library where
  function f n :=
    match f, n, n.toFloat with
    | f, _, .ok x => f.ofFloat x
    | .log, .int i, .error e =>
      if i ≤ 0 then .error .domain else if e = .overflow then .ok (Elementary.logLarge i.toNat)
      else .error e
    | _, _, .error e => .error e
  angle a b := do return Float.atan2 (← a.toFloat) (← b.toFloat)

variable [Library]

/-- The library function that is called for a plain number. The arc cosine of a plain
number is computed as its arc sine. -/
def Elementary.called : Elementary → Elementary
  | acos => asin
  | f => f

def Elementary.ofNumber (f : Elementary) (n : Number) : Except Fault Number :=
  Number.float <$> Library.function f.called n

def Number.atan2 (a b : Number) : Except Fault Number := Number.float <$> Library.angle a b

end Patchwork
