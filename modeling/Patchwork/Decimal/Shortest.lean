import Patchwork.Number.Basic
import Patchwork.Text.Blank

/-!
# Decimal texts of numbers

A double is written with the fewest digits that read back as the same double; of several
such decimals the nearest is taken. Rounding to a number of places is exact: the double's
own value is rounded, a half going to the even neighbour.
-/

namespace Patchwork

open scoped Power

/-- An integer times a power of ten. -/
structure Decimal where
  digits : Nat
  exponent : Int
  deriving Repr, DecidableEq

namespace Decimal

def ratio (m : Nat) (e : Int) : Nat × Nat :=
  if e < 0 then (m, 2 ^ e.natAbs) else (m * 2 ^ e.toNat, 1)

/-- The number of decimal digits before the point of `p / q`, zero or negative for
fractions below one tenth. -/
def magnitude (p q : Nat) : Int :=
  let guess : Int := ((Nat.toDigits 10 p).length : Int) - (Nat.toDigits 10 q).length
  let below (k : Int) : Bool := if k < 0 then p * 10 ^ k.natAbs < q else p < q * 10 ^ k.toNat
  if below guess then guess else guess + 1

/-- Whether the decimal `d * 10 ^ k` lies among the numbers that round to the double with
mantissa `m` and exponent `e`: half a step away at most, where a step below a power of
two is half as long. The ends belong to an even mantissa. -/
def readsBack (m : Nat) (e : Int) (d : Nat) (k : Int) : Bool :=
  -- Everything is scaled to whole quarters of the step.
  let down : Nat := if m = 2 ^ (52 : Nat) && e > -1074 then 1 else 2
  let scale (p2 p10 : Int) (n : Nat) : Nat :=
    n * 2 ^ p2.toNat * 10 ^ p10.toNat
  let two := min 0 (e - 2)
  let ten := min 0 k
  let candidate := scale (-two) (k - ten) d
  let unit := scale (e - 2 - two) (-ten) 1
  let low := (4 * m - down) * unit
  let high := (4 * m + 2) * unit
  if m % 2 = 0 then low ≤ candidate && candidate ≤ high else low < candidate && candidate < high

/-- The candidates with a given number of digits that read back: the neighbours of the
double on that decimal grid, the nearer one first. -/
def candidate? (m : Nat) (e : Int) (count : Nat) : Option Decimal :=
  let (p, q) := ratio m e
  let k := magnitude p q - count
  let (n, d) := if k < 0 then (p * 10 ^ k.natAbs, q) else (p, q * 10 ^ k.toNat)
  let near := Binary64.roundDiv n d
  let other := if n / d = near then near + 1 else near - 1
  if readsBack m e near k then some ⟨near, k⟩
  else if readsBack m e other k then some ⟨other, k⟩
  else none

/-- A decimal without zeros at its end. At most `fuel` zeros are dropped. -/
def trimmed : Nat → Decimal → Decimal
  | 0, d => d
  | fuel + 1, d =>
    if d.digits ≠ 0 ∧ d.digits % 10 = 0 then trimmed fuel ⟨d.digits / 10, d.exponent + 1⟩ else d

/-- The decimal with the fewest digits that reads back as `m * 2 ^ e`; seventeen digits
always suffice. -/
def shortest (m : Nat) (e : Int) : Decimal :=
  let found := ((List.range 17).map (· + 1)).findSome? (candidate? m e)
  trimmed 20 (found.getD ⟨0, 0⟩)

def roundTo (places : Nat) (x : Float) : Float :=
  match Binary64.decode x with
  | .finite negative m e =>
    let (p, q) := ratio m e
    let scaled := Binary64.roundDiv (p * 10 ^ places) q
    (Binary64.ofRatio negative scaled (10 ^ places)).getD x
  | _ => x

def positional (digits : List Char) (point : Int) : String :=
  let n : Int := digits.length
  if point ≤ 0 then
    "0." ++ String.ofList (List.replicate point.natAbs '0' ++ digits)
  else if n ≤ point then
    String.ofList (digits ++ List.replicate (point - n).toNat '0') ++ ".0"
  else
    String.ofList (digits.take point.toNat) ++ "." ++ String.ofList (digits.drop point.toNat)

def scientific (digits : List Char) (exponent : Int) : String :=
  let mantissa := match digits with
    | [] => "0"
    | [d] => d.toString
    | d :: rest => d.toString ++ "." ++ String.ofList rest
  let size := toString exponent.natAbs
  let size := if size.length < 2 then "0" ++ size else size
  mantissa ++ "e" ++ (if exponent < 0 then "-" else "+") ++ size

/-- The text of a positive decimal: positional from a ten-thousandth up to sixteen digits
before the point, and with an exponent otherwise. -/
def text (d : Decimal) : String :=
  let digits := Nat.toDigits 10 d.digits
  let point : Int := digits.length + d.exponent
  if -4 < point ∧ point ≤ 16 then positional digits point
  else scientific digits (point - 1)

end Decimal

def Binary64.text (x : Float) : String :=
  match Binary64.decode x with
  | .nan => "nan"
  | .infinite negative => if negative then "-inf" else "inf"
  | .finite negative m e =>
    let body := if m = 0 then "0.0" else (Decimal.shortest m e).text
    if negative then "-" ++ body else body

def Number.text : Number → String
  | .int i => toString i
  | .bool b => if b then "True" else "False"
  | .float x => Binary64.text x

/-! ## Reading -/

namespace Number

def signed : List Char → Bool × List Char
  | '-' :: rest => (true, rest)
  | '+' :: rest => (false, rest)
  | cs => (false, cs)

/-- The number that digits stand for; single underscores may stand between digits. -/
def digitsValue? (cs : List Char) : Option Nat :=
  let step (acc : Option (Nat × Bool)) (c : Char) : Option (Nat × Bool) :=
    match acc with
    | none => none
    | some (n, afterDigit) =>
      if c.isDigit then some (n * 10 + (c.toNat - '0'.toNat), true)
      else if c == '_' && afterDigit then some (n, false)
      else none
  match cs.foldl step (some (0, false)) with
  | some (n, true) => some n
  | _ => none

def readInt? (s : String) : Option Int :=
  let (negative, rest) := signed (Text.strip s).toList
  (digitsValue? rest).map fun n => if negative then -(n : Int) else n

def optionalDigits? (cs : List Char) : Option Nat :=
  if cs.isEmpty then some 0 else digitsValue? cs

/-- The double that a text spells: digits with an optional point and exponent, or the
name of a special double. -/
def readFloat? (s : String) : Option Float :=
  let (negative, rest) := signed (Text.strip s).toList
  let lower := rest.map Char.toLower
  let magnitude : Option Float :=
    if lower = "inf".toList || lower = "infinity".toList then some (1.0 / 0.0)
    else if lower = "nan".toList then some (0.0 / 0.0)
    else
      let mantissa := lower.takeWhile (· != 'e')
      let exponent := lower.dropWhile (· != 'e')
      let whole := mantissa.takeWhile (· != '.')
      let fraction := (mantissa.dropWhile (· != '.')).drop 1
      let power : Option Int := match exponent with
        | [] => some 0
        | _ :: e =>
          let (down, e) := signed e
          (digitsValue? e).map fun n => if down then -(n : Int) else n
      if whole.isEmpty && fraction.isEmpty then none
      else do
        let a ← optionalDigits? whole
        let b ← optionalDigits? fraction
        let places := (fraction.filter Char.isDigit).length
        let power := (← power) - places
        let digits := a * 10 ^ places + b
        -- Beyond these powers every double has overflowed or vanished.
        if digits = 0 || power < -5000 then some 0.0
        else if power > 5000 then some (1.0 / 0.0)
        else
          let (p, q) := if power < 0 then (digits, 10 ^ power.natAbs) else (digits * 10 ^ power.toNat, 1)
          some ((Binary64.ofRatio false p q).getD (1.0 / 0.0))
  magnitude.map fun x => if negative then -x else x

end Number

end Patchwork
