import Patchwork.Graph.Operation
import Patchwork.Number.Basic

/-!
# Words

Every cell of the machine is a word of 32 bits. Under an integer cell the word is a
signed number that wraps around, under a float cell it is a binary32 number.
-/

namespace Patchwork

open scoped Power

abbrev Word := UInt32

namespace Word

def ofSigned (i : Int32) : Word := i.toUInt32

def signed (w : Word) : Int32 := w.toInt32

def ofReal (x : Float32) : Word := x.toBits

def ofBool (b : Bool) : Word := if b then 1 else 0

/-- The binary32 number that a word stands for; an integer is converted to the nearest
one. -/
def real (c : Cell) (w : Word) : Float32 :=
  match c with
  | .int => w.signed.toFloat32
  | .float => Float32.ofBits w

def fits (i : Int) : Bool := -2 ^ (31 : Nat) ≤ i && i < 2 ^ (31 : Nat)

def ofInt (i : Int) : Except Fault Word :=
  if fits i then .ok (ofSigned (Int32.ofInt i)) else .error .overflow

/-- The binary32 number nearest to a double, a tie going to the even mantissa; it is
infinite if the double lies beyond the largest one. -/
def nearest (x : Float) : Float32 :=
  match x.toModel.unpack with
  | .finite sign mantissa exponent _ => .ofModel (.pack (.round .binary32 sign mantissa exponent))
  | exact => .ofModel (.pack exact)

/-- The word of the binary32 number nearest to a double. A finite double must not round
to infinity. -/
def ofDouble (x : Float) : Except Fault Word :=
  let y := nearest x
  if y.isInf && !x.isInf then .error .overflow else .ok (ofReal y)

def ofNumber : Number → Except Fault Word
  | .float x => ofDouble x
  | .int i => ofInt i
  | .bool b => .ok (ofBool b)

def number (k : Kind) (w : Word) : Number :=
  match k with
  | .int => .int w.signed.toInt
  | .float => .float (Float32.ofBits w).toFloat
  | .bool => .bool (w != 0)

/-- A binary32 number cut down to a signed number; the least one stands for all numbers
that do not fit. -/
def truncate (x : Float32) : Int32 :=
  if -2147483648.0 ≤ x && x < 2147483648.0 then x.toInt32 else Int32.minValue

end Word

end Patchwork
