import Patchwork.Power

/-!
# Binary64 numbers as exact quantities

A finite double is an integer times a power of two, and every question this
library asks of one that is not plain arithmetic (is it equal to that integer,
which decimal names it, what is the remainder) is answered on that exact form.
-/

namespace Patchwork

open scoped Power

namespace Binary64

/-- A double taken apart: `finite neg m e` stands for `± m * 2 ^ e`. -/
inductive Parts where
  | nan
  | infinite (negative : Bool)
  | finite (negative : Bool) (mantissa : Nat) (exponent : Int)
  deriving Repr, DecidableEq

/-- The exact contents of a double, read off its bits. -/
def decode (x : Float) : Parts :=
  let bits := x.toBits.toNat
  let negative := bits / 2 ^ (63 : Nat) == 1
  let biased : Nat := bits / 2 ^ (52 : Nat) % 2 ^ (11 : Nat)
  let fraction := bits % 2 ^ (52 : Nat)
  if biased = 2047 then
    if fraction = 0 then .infinite negative else .nan
  else if biased = 0 then .finite negative fraction (-1074)
  else .finite negative (fraction + 2 ^ (52 : Nat)) ((biased : Int) - 1075)

/-- The double with the given sign, mantissa below `2 ^ 53` and exponent; the
exponent must be at least `-1074`. A mantissa below `2 ^ 52` is meant only at the
least exponent, where numbers are denormal. -/
def encode (negative : Bool) (mantissa : Nat) (exponent : Int) : Float :=
  let sign := if negative then 2 ^ (63 : Nat) else 0
  let body :=
    if mantissa < 2 ^ (52 : Nat) then mantissa
    else (exponent + 1074).toNat * 2 ^ (52 : Nat) + mantissa
  Float.ofBits (UInt64.ofNat (sign + body))

/-- `n / d` rounded to the nearest integer, a half going to the even neighbour. -/
def roundDiv (n d : Nat) : Nat :=
  let q := n / d
  let r := n % d
  if 2 * r < d then q
  else if d < 2 * r then q + 1
  else if q % 2 = 0 then q else q + 1

/-- The double nearest to `± p / q`, a tie going to the even mantissa; `none` when
the quotient rounds beyond the largest double. The divisor must be positive. -/
def ofRatio (negative : Bool) (p q : Nat) : Option Float :=
  if p = 0 then some (if negative then -0.0 else 0.0)
  else
    let guess : Int := (Nat.log2 p : Int) - (Nat.log2 q : Int)
    let scaled (e : Int) : Nat × Nat :=
      if e < 0 then (p * 2 ^ e.natAbs, q) else (p, q * 2 ^ e.toNat)
    let exponent (top : Int) : Int := max (top - 52) (-1074)
    let fits (top : Int) : Bool :=
      let (n, d) := scaled top
      d ≤ n
    let top := if fits guess then guess else guess - 1
    let e := exponent top
    let (n, d) := scaled e
    let m := roundDiv n d
    let (m, e) := if m = 2 ^ (53 : Nat) then (2 ^ (52 : Nat), e + 1) else (m, e)
    if e + 53 > 1024 then none else some (encode negative m e)

/-- The double nearest to an integer; `none` beyond the range. -/
def ofInt (i : Int) : Option Float := ofRatio (i < 0) i.natAbs 1

/-- `m * 2 ^ e` cut down to an integer, towards zero. -/
def shiftInt (m : Nat) (e : Int) : Nat :=
  if e < 0 then m / 2 ^ e.natAbs else m * 2 ^ e.toNat

/-- The integer part of a finite double, towards zero. -/
def toInt? (x : Float) : Option Int :=
  match decode x with
  | .finite negative m e =>
    let k : Int := shiftInt m e
    some (if negative then -k else k)
  | _ => none

def isWhole (x : Float) : Bool :=
  match decode x with
  | .finite _ m e => e ≥ 0 || m % 2 ^ e.natAbs == 0
  | _ => false

def compareInt (i : Int) (x : Float) : Ordering :=
  match decode x with
  | .nan => .lt
  | .infinite negative => if negative then .gt else .lt
  | .finite negative m e =>
    let m : Int := if negative then -m else m
    if e < 0 then compare (i * 2 ^ e.natAbs) m else compare i (m * 2 ^ e.toNat)

def remainder (x y : Float) : Float :=
  match decode x, decode y with
  | .finite negative m e, .finite _ n f =>
    if n = 0 then 0.0 / 0.0
    else
      let least := min e f
      let a := m * 2 ^ (e - least).toNat
      let b := n * 2 ^ (f - least).toNat
      let r := a % b
      let scaled := if least < 0 then (r, 2 ^ least.natAbs) else (r * 2 ^ least.toNat, 1)
      (ofRatio negative scaled.1 scaled.2).getD x
  | .finite .., .infinite _ => x
  | _, _ => 0.0 / 0.0

end Binary64

end Patchwork
