import Patchwork.Document.Listing
import Patchwork.Fault

/-!
# Parts of documents

Sections of a page by heading, functions of a source by name, and sections of a machine
code listing by name, each as an ordered table. In a table a later entry takes the place
of an earlier one of the same name.
-/

namespace Patchwork

namespace Document

open Pattern

abbrev Table := List (String × String)

def Table.set (t : Table) (key value : String) : Table :=
  if t.any fun e => e.1 == key then t.map fun e => if e.1 == key then (key, value) else e
  else t ++ [(key, value)]

/-! ## Sections of a page -/

def headingMarks : Pattern := iterate true 1 (some 6) (literal "#")

/-- A heading, its section, and then the next heading or the end. Code between fences
belongs to the section. -/
def sectionPattern : List Pattern :=
  [lineStart, group 1 [headingMarks], many1 [blank], group 2 [lazy [any]], many [blank], lineEnd,
    group 3 [lazy [any],
      lazy (literal "```" ++ [lazy [any]] ++ literal "```" ++ [lazy [any]])],
    ahead [either [lineStart, headingMarks, many1 [blank]] [textEnd]]]

/-- The sections of a page by heading. Pictures are looked for beside the page. -/
def sections (s : String) : Table :=
  (occurrences sectionPattern s).1.foldl (fun t o =>
    t.set (o.group 2) (Text.replace (Text.strip (o.group 3)) "](docs/source/media/" "](media/")) []

/-! ## Functions of a source -/

/-- Whether a character can stand in a word: letters, digits and the underscore. Beyond
the first blocks all characters count, except blanks, punctuation and signs. -/
def isWord (c : Char) : Bool :=
  let n := c.toNat
  if n < 0x80 then c.isAlphanum || c == '_'
  else if n < 0xc0 then n == 0xaa || n == 0xb2 || n == 0xb3 || n == 0xb5 || n == 0xb9 || n == 0xba ||
    (0xbc ≤ n && n ≤ 0xbe)
  else if n < 0x2000 then n != 0xd7 && n != 0xf7 && !Text.isBlank c
  else 0x2c00 ≤ n && !(0x2e00 ≤ n && n ≤ 0x2e7f) && !(0x3000 ≤ n && n ≤ 0x3004) &&
    !(0x3008 ≤ n && n ≤ 0x3020) && !(0xd800 ≤ n && n ≤ 0xf8ff) && !(0xff00 ≤ n && n ≤ 0xff0f)

def typeNames : List (List Pattern) := ["void", "int", "float", "double"].map literal

def externalMark : List Pattern := literal "STENCIL" ++ [many1 [blank]] ++ literal "extern"

/-- A function with its body, in which braces are nested once at most. -/
def functionPattern : List Pattern :=
  let plain := char fun c => c != '\x7b' && c != '\x7d'
  [group 1 ([oneOf (externalMark :: typeNames), many1 [blank], many1 [char isWord], many [blank]] ++
    literal "(" ++ [many [char (· != ')')]] ++ literal ")" ++ [many [blank]] ++ literal "\x7b" ++
    [many [either [plain] (literal "\x7b" ++ [many [plain]] ++ literal "\x7d")]] ++ literal "\x7d")]

def functionName : List Pattern :=
  [maybe externalMark, many [blank], maybe [oneOf typeNames], many [blank],
    group 1 [many1 [char isWord]], many [blank]] ++ literal "("

def functions (s : String) : Table :=
  (occurrences functionPattern (unixLines s)).1.foldl (fun t o =>
    let code := Text.strip (o.group 1)
    match first? functionName code with
    | some name => t.set (name.group 1) code
    | none => t) []

def sectionMark : List Pattern :=
  [lineStart] ++ literal "Disassembly of section " ++
    [group 1 [iterate false 1 none [char (· != '\n')]]] ++ literal ":"

/-- The sections of a listing by name; empty ones are left out. -/
def codeSections (s : String) : Table :=
  let (marks, tail) := occurrences sectionMark (unixLines s)
  let contents := (marks.drop 1).map Occurrence.gap ++ [tail]
  (marks.zip contents).foldl (fun t (mark, content) =>
    if content.isEmpty then t else t.set (Text.strip (mark.group 1)) (Text.strip content)) []

/-! ## Pages -/

/-- What becomes of the pages: a page that was begun exists, and is empty if one of its
sections is missing. -/
structure ReadmePages where
  start : Option String
  compiler : Option String
  fault : Option Fault

def startHeadings : List String :=
  ["# Copapy", "## Current state", "## Install", "## Examples", "### Basic example",
    "### Inverse kinematics", "## License"]

def needSection (t : Table) (heading : String) : Except Fault String :=
  match t.lookup heading with
  | some s => .ok s
  | none => .error .absentKey

def startPage (t : Table) : Except Fault String := do
  let parts ← startHeadings.mapM fun h => do
    let name := String.ofList (Text.trim (fun c => c == ' ' || c == '#') h.toList)
    return h ++ "\n" ++ (← needSection t name)
  return "\n".intercalate parts

def readmePages (s : String) : ReadmePages :=
  let t := sections (unixLines s)
  match startPage t with
  | .error f => ⟨some "", none, some f⟩
  | .ok start => match needSection t "How it works" with
    | .error f => ⟨some start, some "", some f⟩
    | .ok compiler => ⟨some start, some compiler, none⟩

def fenced (language text : String) : String := "```" ++ language ++ "\n" ++ text ++ "\n```\n"

def byName {α : Type} (listings : List (String × α)) : List (String × α) :=
  listings.mergeSort fun a b => a.1 ≤ b.1

/-- A page that shows the source and the machine code of every stencil; `listings` holds
a listing for each architecture. -/
def stencilPage (source : String) (listings : List (String × String)) : String :=
  let tables := byName (listings.map fun (name, s) => (name, codeSections s))
  let shown := (functions source).filter fun (name, _) =>
    !Text.contains name "get_42" && !name.startsWith "cast_"
  String.join (shown.map fun (name, code) =>
    let listed := tables.map fun (architecture, t) =>
      match t.lookup (".text." ++ name) with
      | some s => s!"\n### {architecture}\n" ++ fenced "nasm" s
      | none => s!"\n### {architecture}\nNo assembly found for this architecture\n"
    s!"\n## {name}\n" ++ fenced "c" code ++ String.join listed ++ "\n")

def examplePage (program : String) (listings : List (String × String)) : String :=
  "\nExample program:\n" ++ fenced "python" (unixLines program) ++
    String.join ((byName listings).map fun (architecture, s) =>
      s!"\n## {architecture}\n" ++ fenced "nasm" (unixLines s))

end Document

end Patchwork
