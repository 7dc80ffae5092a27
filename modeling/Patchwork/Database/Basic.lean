import Patchwork.Database.Patch
import Patchwork.Object.Reader

/-!
# Stencil databases

A stencil database is an object file whose functions are stencils. A stencil ends in a
jump to a function that is named for the types it passes on; when stencils are put one
after the other the jump is cut off.
-/

namespace Patchwork

/-- A relocation of a function, with what is known of the symbol it points to. -/
structure RelocationEntry where
  symbolName : String
  symbolKind : SymbolKind
  symbolOffset : Nat
  sectionIndex : Nat
  functionOffset : Int
  start : Int
  relocation : Relocation
  deriving DecidableEq

/-- An object file of stencils. -/
structure Database where
  object : Object
  /-- The types that each function passes on. -/
  definitions : List (String × String)
  /-- Whether the entry function is in the short encoding. -/
  isThumb : Bool
  /-- The relocations handed out so far, by function and by whether its jump is cut off. -/
  handedOut : List ((String × Bool) × List RelocationEntry) := []

/-! ## Functions of an object file -/

namespace Object

/-- What a function passes on: the name of the last function it jumps to, without its
beginning. -/
def passedOn (o : Object) (s : Symbol) : Except Fault String := do
  for r in s.relocations.reverse do
    let name := (← o.pointedTo r).name
    if name.startsWith "result_" then return String.ofList (name.toList.drop 7)
  return "void"

def lastRelocation (s : Symbol) : Except Fault Relocation :=
  match s.relocations.getLast? with
  | some r => .ok r
  | none => .error (.violated (.someCall s.name))

/-- The position of the jump at the end of a function; far below zero if the last
relocation is not a jump. The instruction of a narrow field is four bytes long, that of
any other field has one more byte before it. -/
def lastCall (o : Object) (s : Symbol) : Except Fault Int := do
  let r ← lastRelocation s
  if (← o.pointedTo r).name.startsWith "dummy_" then return -0xffff
  let length : Int := if r.bits < 32 then 4 else 5
  return (r.offset : Int) - s.offset + 4 - length

def afterLastCall (s : Symbol) : Except Fault Int := do
  let r ← lastRelocation s
  if 32 < r.bits then throw (.violated .shortRelocation)
  return (r.offset : Int) - s.offset + 4

/-- Where a stencil begins and ends: a jump at the end of its section is cut off. -/
def stencilRange (o : Object) (s : Symbol) : Except Fault (Int × Int) := do
  let last ← o.lastCall s
  match o.sectionOf? s with
  | none => throw (.violated (.codeSection s.name))
  | some sec =>
    let size : Int := sec.size
    return (0, if size ≤ last + 5 then last else size)

end Object

namespace Database

def entryFunction : String := "entry_function_shell"

/-- Adds a definition; a name keeps its first place and its last meaning. -/
def define (defs : List (String × String)) (name types : String) : List (String × String) :=
  if defs.any fun d => d.1 == name then
    defs.map fun d => if d.1 == name then (name, types) else d
  else defs ++ [(name, types)]

def ofObject (o : Object) : Except Fault Database := do
  let functions := o.symbols.filter fun s => s.kind = .function
  let definitions ← functions.foldlM (fun defs s => do return define defs s.name (← o.passedOn s)) []
  return { object := o, definitions, isThumb := (← o.symbol entryFunction).isThumb }

def «open» (raw : Bytes) : Except Fault Database := do ofObject (← Object.read raw)

/-! ## Sizes and code -/

def typeSize : String → Except Fault Nat
  | "int" | "float" => .ok 4
  | _ => .error .absentKey

def sectionAt (db : Database) (index : Int) : Except Fault Section := Sequence.at db.object.sections index

def stencilCode (db : Database) (name : String) : Except Fault Bytes := do
  let s ← db.object.symbol name
  let (start, stop) ← db.object.stencilRange s
  return db.object.bytesAt (db.object.fileOffset s + start) (stop - start)

/-- The parts of a function that can be asked for. -/
inductive FunctionPart where
  | full
  /-- What comes before the last call. -/
  | start
  /-- What comes after the last call. -/
  | «end»
  deriving Repr, DecidableEq

def functionCode (db : Database) (name : String) (part : FunctionPart) : Except Fault Bytes := do
  let s ← db.object.symbol name
  unless s.kind = .function do throw (.violated (.isFunction name))
  let code := db.object.code s
  match part with
  | .full => return code
  | .start => return Sequence.between code 0 (← db.object.lastCall s)
  | .«end» => return Sequence.between code (← Object.afterLastCall s) code.length

/-! ## Functions that are called -/

def addNames (names more : List String) : List String :=
  more.foldl (fun names n => if names.contains n then names else names ++ [n]) names

mutual

/-- The functions that a function calls, and those that they call. Calls nested deeper
than `depth` never end. -/
def calleesOf (o : Object) (depth : Nat) (name : String) : Except Fault (List String) := do
  calledBy o depth (← o.symbol name).relocations []
termination_by (depth, 1, 0)

/-- The functions that some relocations call, and those that they call, added to names
found before. -/
def calledBy (o : Object) (depth : Nat) (rs : List Relocation) (found : List String) :
    Except Fault (List String) :=
  match rs with
  | [] => .ok found
  | r :: rs => do
    let s ← o.pointedTo r
    if s.kind = .function then
      match depth with
      | 0 => throw .endless
      | depth + 1 =>
        let further ← calleesOf o depth s.name
        calledBy o (depth + 1) rs (addNames (addNames found [s.name]) further)
    else calledBy o depth rs found
termination_by (depth, 0, rs.length)

end

/-- The functions that some functions call, directly or through others. A function that
was found on the way is not looked at again. Without recursion no chain of calls is
longer than the list of symbols. -/
def callees (db : Database) (names : List String) : Except Fault (List String) :=
  names.foldlM (fun found name => do
    if found.contains name then return found
    else return addNames found (← calleesOf db.object (db.object.symbols.length + 1) name)) []

def constantSections (db : Database) (names : List String) : Except Fault (List Nat) := do
  let found ← names.mapM fun name => do
    let s ← db.object.symbol name
    s.relocations.mapM fun r => do
      let t ← db.object.pointedTo r
      return match db.object.sectionOf? t with
        | some sec =>
          if sec.kind = .progbits && t.kind ≠ .function && !t.name.startsWith "dummy_" then
            [sec.index]
          else []
        | none => []
  return found.flatten.flatten.eraseDups.mergeSort (· ≤ ·)

end Database

end Patchwork
