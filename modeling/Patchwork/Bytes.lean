import Patchwork.Power
import Patchwork.Sequence

/-!
# Numbers as bytes

A number of fixed width is written with its least byte first or last. A signed number is
stored as its residue, so that negative numbers have the highest bit set.
-/

namespace Patchwork

open scoped Power

/-- Which byte of a number comes first. -/
inductive ByteOrder where
  | little
  | big
  deriving Repr, DecidableEq, Inhabited

def ByteOrder.name : ByteOrder → String
  | little => "little"
  | big => "big"

abbrev Bytes := List UInt8

namespace Bytes

/-- The `width` lowest bytes of a number, the least one first. -/
def littleOfNat : Nat → Nat → Bytes
  | 0, _ => []
  | width + 1, n => UInt8.ofNat n :: littleOfNat width (n / 256)

def littleToNat : Bytes → Nat
  | [] => 0
  | b :: bs => b.toNat + 256 * littleToNat bs

def ofNat (order : ByteOrder) (width n : Nat) : Bytes :=
  match order with
  | .little => littleOfNat width n
  | .big => (littleOfNat width n).reverse

def toNat (order : ByteOrder) (bs : Bytes) : Nat :=
  match order with
  | .little => littleToNat bs
  | .big => littleToNat bs.reverse

def signed (bits n : Nat) : Int :=
  if bits ≠ 0 ∧ 2 ^ (bits - 1) ≤ n then (n : Int) - 2 ^ bits else n

def inRange (width : Nat) (isSigned : Bool) (i : Int) : Bool :=
  if isSigned then
    if width = 0 then i = 0 || i = -1 else -2 ^ (8 * width - 1) ≤ i && i < 2 ^ (8 * width - 1)
  else 0 ≤ i && i < 2 ^ (8 * width)

def ofInt (order : ByteOrder) (width : Nat) (isSigned : Bool) (i : Int) : Except Fault Bytes :=
  if inRange width isSigned i then .ok (ofNat order width (i % 2 ^ (8 * width)).toNat)
  else .error .overflow

def toInt (order : ByteOrder) (isSigned : Bool) (bs : Bytes) : Int :=
  if isSigned then signed (8 * bs.length) (toNat order bs) else toNat order bs

/-- Replaces the bytes from `start` to before `stop`; what lies beyond the end is
appended. -/
def splice (bs : Bytes) (start stop : Nat) (replacement : Bytes) : Bytes :=
  bs.take start ++ replacement ++ bs.drop (max start stop)

/-- Overwrites bytes in place; what would lie beyond the end is dropped. -/
def overwrite (bs : Bytes) (start : Nat) (replacement : Bytes) : Bytes :=
  (bs.splice start (start + replacement.length) replacement).take bs.length

def hexDigits (b : UInt8) : String :=
  String.ofList [Nat.digitChar (b.toNat / 16), Nat.digitChar (b.toNat % 16)]

def hex (bs : Bytes) : String := String.join (bs.map hexDigits)

@[simp] theorem length_littleOfNat (width n : Nat) : (littleOfNat width n).length = width := by
  induction width generalizing n with
  | zero => rfl
  | succ width ih => simp [littleOfNat, ih]

@[simp] theorem length_ofNat (order : ByteOrder) (width n : Nat) :
    (ofNat order width n).length = width := by
  cases order <;> simp [ofNat]

end Bytes

end Patchwork
