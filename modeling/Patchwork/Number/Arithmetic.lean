import Patchwork.Number.Basic

/-!
# Arithmetic on plain numbers

Integers are exact. As soon as one operand is a double, both become doubles and the
operation is the binary64 one. Division of integers rounds the exact quotient once.
-/

namespace Patchwork

open scoped Power

namespace Binary64

def signBit (x : Float) : Bool := x.toBits.toNat / 2 ^ (63 : Nat) == 1

/-- The floor of a quotient together with the remainder that has the divisor's sign.
The quotient is first computed from the exact remainder, so it is whole before it is
rounded to the nearest whole double. -/
def floorDivMod (x y : Float) : Float × Float :=
  let r := remainder x y
  let q := (x - r) / y
  let (q, r) :=
    if r != 0.0 then
      if signBit y != signBit r then (q - 1.0, r + y) else (q, r)
    else (q, if signBit y then -0.0 else 0.0)
  let q :=
    if q != 0.0 then
      let f := q.floor
      if q - f > 0.5 then f + 1.0 else f
    else if signBit (x / y) then -0.0 else 0.0
  (q, r)

/-- A power of doubles, refused where it has no real value. The result may be infinite
only if an operand is. -/
def pow (x y : Float) : Except Fault Float :=
  if x == 0.0 && y < 0.0 then .error .divisionByZero
  else if x < 0.0 && x.isFinite && y.isFinite && !isWhole y then .error .illTyped
  else
    let z := Float.pow x y
    if z.isInf && x.isFinite && y.isFinite then .error .overflow else .ok z

end Binary64

/-! ## Bits of integers of any size -/

namespace Bits

def not (a : Int) : Int := -a - 1

/-- Bitwise conjunction in two's complement of unbounded width. -/
def and : Int → Int → Int
  | .ofNat m, .ofNat n => .ofNat (m &&& n)
  | .ofNat m, .negSucc n => .ofNat (m - (m &&& n))
  | .negSucc m, .ofNat n => .ofNat (n - (n &&& m))
  | .negSucc m, .negSucc n => .negSucc (m ||| n)

/-- Bitwise disjunction in two's complement of unbounded width. -/
def or (a b : Int) : Int := not (and (not a) (not b))

/-- Bitwise exclusive disjunction in two's complement of unbounded width. -/
def xor : Int → Int → Int
  | .ofNat m, .ofNat n => .ofNat (m ^^^ n)
  | .ofNat m, .negSucc n => .negSucc (m ^^^ n)
  | .negSucc m, .ofNat n => .negSucc (m ^^^ n)
  | .negSucc m, .negSucc n => .ofNat (m ^^^ n)

end Bits

namespace Number

/-- Applies an operation on integers, or its counterpart on doubles if an operand is
a double. -/
def lift (onInts : Int → Int → Except Fault Number) (onFloats : Float → Float → Except Fault Number)
    (a b : Number) : Except Fault Number :=
  match a.whole?, b.whole? with
  | some i, some j => onInts i j
  | _, _ => do onFloats (← a.toFloat) (← b.toFloat)

def add : Number → Number → Except Fault Number :=
  lift (fun i j => .ok (int (i + j))) (fun x y => .ok (float (x + y)))

def sub : Number → Number → Except Fault Number :=
  lift (fun i j => .ok (int (i - j))) (fun x y => .ok (float (x - y)))

def mul : Number → Number → Except Fault Number :=
  lift (fun i j => .ok (int (i * j))) (fun x y => .ok (float (x * y)))

def trueDiv : Number → Number → Except Fault Number :=
  lift
    (fun i j =>
      if j = 0 then .error .divisionByZero
      else match Binary64.ofRatio ((i < 0) != (j < 0)) i.natAbs j.natAbs with
        | some x => .ok (float x)
        | none => .error .overflow)
    (fun x y => if y == 0.0 then .error .divisionByZero else .ok (float (x / y)))

def floorDiv : Number → Number → Except Fault Number :=
  lift
    (fun i j => if j = 0 then .error .divisionByZero else .ok (int (i.fdiv j)))
    (fun x y => if y == 0.0 then .error .divisionByZero else .ok (float (Binary64.floorDivMod x y).1))

def modulo : Number → Number → Except Fault Number :=
  lift
    (fun i j => if j = 0 then .error .divisionByZero else .ok (int (i.fmod j)))
    (fun x y => if y == 0.0 then .error .divisionByZero else .ok (float (Binary64.floorDivMod x y).2))

/-- Power. A negative exponent of an integer gives a double. -/
def pow : Number → Number → Except Fault Number :=
  lift
    (fun i j =>
      if 0 ≤ j then .ok (int (i ^ j.toNat))
      else do
        let x ← (int i).toFloat
        let y ← (int j).toFloat
        return float (← Binary64.pow x y))
    (fun x y => return float (← Binary64.pow x y))

/-- The double that a power has in the plain elementary functions. -/
def powFloat (a b : Number) : Except Fault Number := do
  return float (← (← a.pow b).toFloat)

def shiftLeft (a b : Number) : Except Fault Number :=
  match a.whole?, b.whole? with
  | some i, some j => if j < 0 then .error .domain else .ok (int (i * 2 ^ j.toNat))
  | _, _ => .error .illTyped

def shiftRight (a b : Number) : Except Fault Number :=
  match a.whole?, b.whole? with
  | some i, some j => if j < 0 then .error .domain else .ok (int (i.fdiv (2 ^ j.toNat)))
  | _, _ => .error .illTyped

/-- A bitwise operation, which stays within the truth values if both operands are. -/
def bitwise (onBools : Bool → Bool → Bool) (onInts : Int → Int → Int) (a b : Number) :
    Except Fault Number :=
  match a, b with
  | bool p, bool q => .ok (bool (onBools p q))
  | a, b => match a.whole?, b.whole? with
    | some i, some j => .ok (int (onInts i j))
    | _, _ => .error .illTyped

def bitAnd : Number → Number → Except Fault Number := bitwise Bool.and Bits.and

def bitOr : Number → Number → Except Fault Number := bitwise Bool.or Bits.or

def bitXor : Number → Number → Except Fault Number := bitwise Bool.xor Bits.xor

def neg : Number → Number
  | int i => int (-i)
  | bool b => int (if b then -1 else 0)
  | float x => float (-x)

def abs : Number → Number
  | int i => int i.natAbs
  | bool b => int (if b then 1 else 0)
  | float x => float x.abs

end Number

end Patchwork
