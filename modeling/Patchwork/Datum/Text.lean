import Patchwork.Datum.Operators
import Patchwork.Decimal.Shortest

/-!
# Texts of data

How data are described to a user. Nets and values are shown by a mark, because their
numbers differ from run to run.
-/

namespace Patchwork

open scoped Power

namespace Text

def hexDigit (n : Nat) : Char := (Nat.toDigits 16 (n % 16)).headD '0'

def hex (width : Nat) (n : Nat) : String :=
  String.ofList ((List.range width).reverse.map fun k => hexDigit (n / 16 ^ k))

def escaped (quote c : Char) : String :=
  if c == quote || c == '\\' then "\\" ++ c.toString
  else if c == '\n' then "\\n"
  else if c == '\r' then "\\r"
  else if c == '\t' then "\\t"
  else if c.toNat < 32 || c.toNat = 127 then "\\x" ++ hex 2 c.toNat
  else c.toString

/-- A text between single quotes, or between double quotes if it has single ones only. -/
def quoted (s : String) : String :=
  let quote := if s.toList.contains '\'' && !s.toList.contains '"' then '"' else '\''
  quote.toString ++ String.join (s.toList.map (escaped quote)) ++ quote.toString

/-- Entries between parentheses; a single entry is followed by a comma. -/
def parenthesised : List String → String
  | [x] => "(" ++ x ++ ",)"
  | xs => "(" ++ ", ".intercalate xs ++ ")"

end Text

namespace Datum

def netMark : String := "h:#"

def nodeText (g : Graph) (k : NodeId) : String :=
  let n := g.node k
  let inner := match n with
    | .constant value _ => value.text
    | n => ", ".intercalate (n.args.map fun _ => netMark)
  s!"Node:{n.name}(" ++ inner ++ ")"

def shapeText (shape : Shape) (truths : List Nat) : String :=
  Text.parenthesised (shape.zipIdx.map fun (n, k) =>
    if truths.contains k then (if n = 0 then "False" else "True") else toString n)

mutual

def describe (g : Graph) : Datum → String
  | absent => "None"
  | undefined => "NotImplemented"
  | scalar (.plain n) => n.text
  | scalar (.traced _) | net _ => netMark
  | text s => Text.quoted s
  | list xs => "[" ++ ", ".intercalate (describeAll g xs) ++ "]"
  | tuple xs => Text.parenthesised (describeAll g xs)
  | vector xs => "vector(" ++ Text.parenthesised (describeAll g xs) ++ ")"
  | tensor shape xs truths =>
    let values := if shape.isEmpty then Text.parenthesised (describeAll g xs) else "..."
    "tensor(shape=" ++ shapeText shape truths ++ ", values=" ++ values ++ ")"
  | quaternion w x y z =>
    "quaternion(w=" ++ describe g w ++ ", x=" ++ describe g x ++ ", y=" ++ describe g y ++
      ", z=" ++ describe g z ++ ")"
  | node k => nodeText g k
  | d => d.classText

def describeAll (g : Graph) : List Datum → List String
  | [] => []
  | x :: xs => describe g x :: describeAll g xs

end

end Datum

end Patchwork
