import Patchwork.Fault
import Patchwork.Number.Binary64

/-!
# Plain numbers

A plain number is an integer of any size, a truth value or a double. Truth values
take part in arithmetic as 0 and 1. Comparison is exact: an integer is compared with
the number that a double stands for, not with its own rounding.
-/

namespace Patchwork

open scoped Power

/-- An integer, a truth value or a double. -/
inductive Number where
  | int (value : Int)
  | bool (value : Bool)
  | float (value : Float)

namespace Number

instance : Inhabited Number := ⟨.int 0⟩

/-- The integer that an integer or a truth value stands for. -/
def whole? : Number → Option Int
  | int i => some i
  | bool b => some (if b then 1 else 0)
  | float _ => none

def toFloat : Number → Except Fault Float
  | int i => match Binary64.ofInt i with
    | some x => .ok x
    | none => .error .overflow
  | bool b => .ok (if b then 1.0 else 0.0)
  | float x => .ok x

def toInt : Number → Except Fault Int
  | int i => .ok i
  | bool b => .ok (if b then 1 else 0)
  | float x => match Binary64.toInt? x with
    | some i => .ok i
    | none => .error (if x.isNaN then .domain else .overflow)

/-! ## Comparison -/

def compare? (a b : Number) : Option Ordering :=
  match a, b with
  | float x, float y =>
    if x < y then some .lt else if y < x then some .gt else if x == y then some .eq else none
  | float x, b =>
    if x.isNaN then none else b.whole?.map fun i => (Binary64.compareInt i x).swap
  | a, float y =>
    if y.isNaN then none else a.whole?.map fun i => Binary64.compareInt i y
  | a, b => a.whole?.bind fun i => b.whole?.map fun j => compare i j

/-- Numeric equality: 1, 1.0 and true are equal, a NaN equals nothing. -/
def eq (a b : Number) : Bool := compare? a b == some .eq

def lt (a b : Number) : Bool := compare? a b == some .lt

def le (a b : Number) : Bool := a.lt b || a.eq b

def isZero (a : Number) : Bool := a.eq (int 0)

def hashModulus : Nat := 2 ^ (61 : Nat) - 1

/-- The hash of a number: its residue modulo a Mersenne prime, in which a power of two
has an inverse, with the sign of the number. Equal numbers have equal hashes, and
`-1` shares the hash of `-2`. -/
def hash (a : Number) : Int :=
  let signed (negative : Bool) (r : Nat) : Int :=
    let h : Int := if negative then -r else r
    if h = -1 then -2 else h
  match a with
  | int i => signed (i < 0) (i.natAbs % hashModulus)
  | bool b => if b then 1 else 0
  | float x => match Binary64.decode x with
    | .nan => 0
    | .infinite negative => if negative then -314159 else 314159
    | .finite negative m e =>
      let shift := (e % 61).toNat
      signed negative (m * 2 ^ shift % hashModulus)

end Number

end Patchwork
