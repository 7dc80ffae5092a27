import Patchwork.Fault
import Patchwork.Text.Blank

/-!
# Templates of stencils

A stencil is written as a function that ends in a call of a function named for the types
it passes on. A template is the source text of such functions with the types left open.
-/

namespace Patchwork

inductive Template where
  | entry
  | operator
  | cast
  | negation
  | auxiliary1
  | auxiliary2
  | custom
  | library1
  | library2
  | conversion
  | realOperator
  | floorDivision
  | minimum
  | maximum
  | result1
  | result2
  | loadFirst
  | loadSecond
  | save
  deriving Repr, DecidableEq

namespace Template

/-! ## Indentation -/

/-- How far a line stands from the left margin. -/
def indentation (line : String) : Nat := line.length - (Text.stripStart line).length

def blanks (n : Nat) : String := String.ofList (List.replicate n ' ')

def startsFlush (line : String) : Bool :=
  match line.toList with
  | [] => false
  | c :: _ => c != ' '

/-- The lines of a text, without a blank line at the front if there are others. -/
def contentLines (text : String) : List String :=
  match Text.lines text with
  | first :: second :: rest =>
    if (Text.strip first).isEmpty then second :: rest else first :: second :: rest
  | lines => lines

/-- A text moved to the left margin, after an empty line. The first line says how far it
is moved, or the second if the first one is at the margin already. -/
def indented (text : String) : String :=
  match contentLines text with
  | [] => ""
  | first :: rest =>
    let margin := match rest with
      | second :: _ => if startsFlush first then indentation second else indentation first
      | [] => indentation first
    let moved (line : String) : String :=
      let bare := Text.strip line
      blanks (line.length - bare.length - margin) ++ bare
    "\n" ++ "\n".intercalate ((first :: rest).map moved)

def paragraph (margin : Nat) (lines : List String) : String :=
  let start := "\n" ++ blanks margin
  start ++ start.intercalate lines ++ start

/-! ## Sources -/

def sign? : String → Option String
  | "add" => some "+" | "sub" => some "-" | "mul" => some "*" | "div" => some "/"
  | "pow" => some "**" | "gt" => some ">" | "eq" => some "==" | "ge" => some ">="
  | "ne" => some "!=" | "mod" => some "%" | "lshift" => some "<<" | "rshift" => some ">>"
  | "bwand" => some "&" | "bwor" => some "|" | "bwxor" => some "^"
  | _ => none

def sign (op : String) : Except Fault String :=
  match sign? op with
  | some s => .ok s
  | none => .error .absentKey

/-- The number of bytes that the entry function could keep on its stack. -/
def stackSize : Nat := 128

def function (margin : Nat) (head : String) (body : List String) : String :=
  paragraph margin ((head ++ " \x7b") :: body.map ("    " ++ ·) ++ ["\x7d"])

def head2 (name t1 t2 a b : String) : String := s!"STENCIL void {name}_{t1}_{t2}({t1} {a}, {t2} {b})"

def head1 (name t1 : String) : String := s!"STENCIL void {name}_{t1}({t1} arg1)"

/-- The entry function, after a text that fixes its calling convention. -/
def entrySource (convention : String) : String :=
  indented (paragraph 4 [s!"{convention}int entry_function_shell()\x7b",
    s!"    //volatile char stack_place_holder[{stackSize}];",
    "    //stack_place_holder[0] = 0;", "    result_int(0);", "    return 1;", "\x7d"])

def choiceSource (name comparison t1 t2 : String) : String :=
  if t1 == "int" && t2 == "int" then
    function 8 (head2 name t1 t2 "a" "b") [s!"result_int_{t2}(a {comparison} b ? a : b, b);"]
  else
    function 8 (head2 name t1 t2 "a" "b") ["float _a = (float)a; float _b = (float)b;",
      s!"result_float_{t2}(_a {comparison} _b ? _a : _b, b);"]

def source : Template → List String → Except Fault String
  | operator, [op, t1, t2, out] => do
    return function 4 (head2 op t1 t2 "arg1" "arg2")
      [s!"result_{out}_{t2}(arg1 " ++ (← sign op) ++ " arg2, arg2);"]
  | cast, [t1, t2, out] =>
    .ok (function 4 (head2 s!"cast_{out}" t1 t2 "arg1" "arg2")
      [s!"result_{out}_{t2}(({t1})arg1, arg2);"])
  | negation, [t1] => .ok (function 4 (head1 "neg" t1) [s!"result_{t1}(-arg1);"])
  | auxiliary1, [name, t1] =>
    .ok (function 4 (head1 name t1) [s!"result_float(aux_{name}((float)arg1));"])
  | auxiliary2, [name, t1, t2] =>
    .ok (function 4 (head2 name t1 t2 "arg1" "arg2")
      [s!"result_float_{t2}(aux_{name}((float)arg1, (float)arg2), arg2);"])
  | custom, [signature, body] => .ok (function 4 s!"STENCIL void {signature}" [body])
  | library1, [name, t1, stencil] =>
    .ok (function 4 (head1 stencil t1) [s!"result_float({name}((float)arg1));"])
  | library2, [name, t1, t2] =>
    .ok (function 4 (head2 name t1 t2 "arg1" "arg2")
      [s!"result_float_{t2}({name}f((float)arg1, (float)arg2), arg2);"])
  | conversion, [t1, t2, out] =>
    .ok (function 4 (head2 "conv" t1 t2 "arg1" "arg2")
      [s!"result_{out}_{t2}(({out})arg1, arg2);"])
  | realOperator, [op, t1, t2] => do
    return function 4 (head2 op t1 t2 "arg1" "arg2")
      [s!"result_float_{t2}((float)arg1 " ++ (← sign op) ++ " (float)arg2, arg2);"]
  | floorDivision, [op, t1, t2] =>
    .ok (if t1 == "int" && t2 == "int" then
      function 8 (head2 op t1 t2 "a" "b")
        ["int result = a / b - ((a % b != 0) && ((a < 0) != (b < 0)));",
          s!"result_int_{t2}(result, b);"]
    else
      function 8 (head2 op t1 t2 "a" "b")
        [s!"result_float_{t2}(floorf((float)a / (float)b), b);"])
  | minimum, [t1, t2] => .ok (choiceSource "min" "<" t1 t2)
  | maximum, [t1, t2] => .ok (choiceSource "max" ">" t1 t2)
  | result1, [t1] => .ok (paragraph 4 [s!"void result_{t1}({t1} arg1);"])
  | result2, [t1, t2] =>
    .ok (paragraph 4 [s!"void result_{t1}_{t2}({t1} arg1, {t2} arg2);"])
  | loadFirst, [t1, t2, out] =>
    .ok (function 4 (head2 s!"load_{out}_reg0" t1 t2 "arg1" "arg2")
      [s!"result_{out}_{t2}(dummy_{out}, arg2);"])
  | loadSecond, [t1, t2, out] =>
    .ok (function 4 (head2 s!"load_{out}_reg1" t1 t2 "arg1" "arg2")
      [s!"result_{t1}_{out}(arg1, dummy_{out});"])
  | save, [t1, t2] =>
    .ok (function 4 (head2 s!"store_{t1}_reg0" t1 t2 "arg1" "arg2")
      [s!"dummy_{t1} = arg1;", s!"result_{t1}_{t2}(arg1, arg2);"])
  | _, _ => .error .illTyped

/-- The source text of a template for given types and names. -/
def render (t : Template) (arguments : List String) : Except Fault String :=
  match t, arguments with
  | entry, [] => .ok (entrySource "")
  | entry, _ => .error .illTyped
  | t, arguments => indented <$> t.source arguments

/-- All ways to take one entry of each list, the last list varying fastest. -/
def choices {α : Type} : List (List α) → List (List α)
  | [] => [[]]
  | xs :: rest => xs.flatMap fun x => (choices rest).map (x :: ·)

end Template

end Patchwork
