import Patchwork.Text.Pattern

/-!
# Listings for reading

A machine code listing is prepared for a page: marks are escaped, the body of each
function is set off from the jump at its end, and runs of blanks are kept.
-/

namespace Patchwork

namespace Document

open Pattern

/-- Characters in which every end of a line is a line feed. -/
def unixFrom : List Char → List Char
  | [] => []
  | '\r' :: '\n' :: rest => '\n' :: unixFrom rest
  | '\r' :: rest => '\n' :: unixFrom rest
  | c :: rest => c :: unixFrom rest

/-- A text in which every end of a line is a line feed. -/
def unixLines (s : String) : String := String.ofList (unixFrom s.toList)

def codeMark : String := "Disassembly of section .text"

/-- A function: its first lines, and the two or more lines from the one before the jump to
the empty line after it. -/
def functionBody : List Pattern :=
  let inLine := char (· != '\n')
  [group 1 (literal ":\n"), group 2 [lazy [any]],
    group 3 ([lineStart, many1 [inLine]] ++ literal "\n" ++ [many1 [inLine]] ++ literal "result_" ++
      [lazy [any]] ++ literal "\n\n")]

def secondBlank : List Pattern := [behind (· == ' '), char (· == ' ')]

/-- The text of a listing with its marks escaped and its parts set off. -/
def marked (s : String) : String :=
  let s := Text.replace s "\t" "    "
  let s := Text.replace s ">" "&gt;"
  let s := Text.replace s "<" "&lt;"
  let s := substitute functionBody
    (fun o => o.group 1 ++ "<b>" ++ o.group 2 ++ "</b><i>" ++ o.group 3 ++ "</i>") s
  substitute secondBlank (fun _ => "&nbsp;") s

/-- The lines after the first that begins a code section. -/
def afterMark : List String → List String
  | [] => []
  | line :: rest => if Text.contains line codeMark then rest else afterMark rest

/-- A listing as a page: the code section alone, if it is marked as such. -/
def listing (s : String) : String :=
  let s := unixLines s
  let lines := Text.lines (marked s)
  let shown := if Text.contains s codeMark then afterMark lines else lines
  "<code>\n" ++ String.join (shown.map (· ++ "<br>\n")) ++ "</code>\n"

end Document

end Patchwork
