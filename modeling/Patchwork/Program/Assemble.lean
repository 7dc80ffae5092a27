import Patchwork.Database.Relocations
import Patchwork.Program.Layout
import Patchwork.Schedule.Plan
import Patchwork.Stream.Command

/-!
# Assembling a program

A program is put together from stencils: the beginning of the entry function, the stencil
of each step, and the end of the entry function. Auxiliary functions come before it.
Relocations become patch commands: to the variable of a step, to the next stencil, to a
constant, or to a function.

The outcome is a stream of commands and the places of the variables. The database is
returned too, because it remembers the relocations that were handed out.
-/

namespace Patchwork

/-- A stream of commands and the variables it lays out. -/
structure Assembly where
  stream : Writer
  slots : List (Placed Net)

namespace Assembly

/-- A computation that asks a database for relocations or fails. -/
abbrev Build := ExceptT Fault (StateM Database)

def check {α : Type} (r : Except Fault α) : Build α := ExceptT.mk (pure r)

def eachRelocation {σ : Type} (name : String) (stencil : Bool) (state : σ)
    (act : σ → RelocationEntry → Except Fault σ) : Build σ :=
  ExceptT.mk fun db => db.eachRelocation name stencil state act

/-- Where everything that a relocation can point to lies. -/
structure Places where
  slots : List (Placed Net)
  sections : List (Placed Int)
  functions : List (String × Int)

def variableAddress (g : Graph) (p : Places) (n : Net) : Except Fault Int :=
  match p.slots.find? fun v => g.sameNet v.content n with
  | some v => .ok v.start
  | none => .error .absentKey

def constantAddress (p : Places) (function : String) (e : RelocationEntry) : Except Fault Int :=
  match p.sections.find? fun s => s.content = (e.sectionIndex : Int) with
  | some s => .ok (e.symbolOffset + s.start)
  | none => .error (.violated (.linkedSymbol function e.symbolName))

def functionAddress (p : Places) (name : String) : Except Fault Int :=
  match p.functions.lookup name with
  | some a => .ok a
  | none => .error .absentKey

def isData : SymbolKind → Bool
  | .object | .noType | .«section» => true
  | _ => false

def towardsCode : Int := (Opcode.patch .function).code

def towardsData : Int := (Opcode.patch .object).code

def stencilPatch (g : Graph) (o : Object) (p : Places) (net : Option Net) (name : String)
    (offset length : Int) (e : RelocationEntry) : Except Fault Patch :=
  if isData e.symbolKind then
    if e.symbolName.startsWith "dummy_" then
      match net with
      | none => .error (.violated (.netOfRelocation name))
      | some n => do Database.patch o e (← variableAddress g p n) offset towardsData
    else if e.symbolName.startsWith "result_" then
      Database.patch o e (offset + length) offset towardsCode
    else do Database.patch o e (← constantAddress p name e) offset towardsData
  else if e.symbolKind = .function then do
    Database.patch o e (← functionAddress p e.symbolName) offset towardsCode
  else .error (.rejected (.stencilSymbol name e.symbolKind.name e.symbolName))

def auxiliaryPatch (o : Object) (p : Places) (name : String) (start : Int) (e : RelocationEntry) :
    Except Fault (Option Patch) :=
  if e.sectionIndex = 0 then
    if e.relocation.type == "R_ARM_V4BX" then .ok none
    else .error (.violated (.definedSection e.relocation.type name e.symbolName))
  else if isData e.symbolKind then do
    return some (← Database.patch o e (← constantAddress p name e) start towardsData)
  else if e.symbolKind = .function then do
    return some (← Database.patch o e (← functionAddress p e.symbolName) start towardsCode)
  else .error (.rejected (.auxiliarySymbol name e.symbolKind.name e.symbolName e.sectionIndex))

def patchCommand (p : Patch) : Except Fault Command :=
  match Opcode.ofCode? p.command with
  | some (.patch kind) => .ok (.patch kind p.address p.mask p.scale p.value)
  | _ => .error .domain

/-- The code put together so far, where the next stencil goes, and the patches. -/
structure Code where
  bytes : Bytes
  offset : Int
  patches : List Patch := []

def addStep (g : Graph) (db : Database) (p : Places) (c : Code) (s : Step) : Build Code := do
  let name := (Schedule.content g s.run).name
  unless db.definitions.any fun d => d.1 == name do throw (.violated (.knownStencil name))
  let data ← check (db.stencilCode name)
  let patches ← eachRelocation name true c.patches fun patches e => do
    return patches ++ [← stencilPatch g db.object p s.net name c.offset data.length e]
  return { bytes := c.bytes ++ data, offset := c.offset + data.length, patches }

def addFunctionPatches (db : Database) (p : Places) (patches : List Patch) (f : String × Int) :
    Build (List Patch) :=
  eachRelocation f.1 false patches fun patches e => do
    return match ← auxiliaryPatch db.object p f.1 f.2 e with
      | some patch => patches ++ [patch]
      | none => patches

def copySection (db : Database) (isCode : Bool) (s : Placed Int) : Except Fault Command := do
  let data := db.object.sectionData (← db.sectionAt s.content)
  return if isCode then .copyCode s.start s.length data else .copyData s.start s.length data

def writeConstant (g : Graph) (w : Writer) (v : Placed Net) : Except Fault Writer :=
  match g.node v.content.source with
  | .constant value _ => do
    let w ← (w.opcode .copyData).int v.start
    let w ← w.int v.length
    w.value value v.length.toNat
  | _ => .ok w

def emit (w : Writer) (c : Command) : Build Writer := check (c.write w)

def stencilNames (g : Graph) (steps : List Step) : List String :=
  Database.addNames [] (steps.map fun s => (Schedule.content g s.run).name)

/-- Links the steps of a plan with the auxiliary functions and the constant sections that
they need. Variables, functions and sections are laid out in the order in which they are
given. -/
def link (g : Graph) (plan : Plan) (auxiliary : List String) (constants : List Nat) :
    Build Assembly := do
  let db ← get
  let w ← emit { order := db.object.order } .freeMemory
  let (sections, stop) ← check (Layout.sections db (constants.map Int.ofNat) 0)
  let (slots, stop) ← check (Layout.slots plan.slots stop)
  let w ← emit w (.allocateData stop)
  let w ← sections.foldlM (fun w s => do emit w (← check (copySection db false s))) w
  let w ← check (slots.foldlM (writeConstant g) w)
  let functions ← check (Layout.functions db auxiliary 0)
  let places : Places := { slots, sections, functions := functions.addresses }
  let start ← check (db.functionCode Database.entryFunction .start)
  let code : Code := { bytes := start, offset := functions.stop + start.length }
  let code ← plan.steps.foldlM (addStep g db places) code
  let stop ← check (db.functionCode Database.entryFunction .«end»)
  let size := code.offset + stop.length
  let w ← emit w (.allocateCode size)
  let w ← functions.sections.foldlM (fun w s => do emit w (← check (copySection db true s))) w
  let patches ← functions.addresses.foldlM (addFunctionPatches db places) code.patches
  let w ← emit w (.copyCode functions.stop (size - functions.stop) (code.bytes ++ stop))
  let w ← patches.foldlM (fun w p => do emit w (← check (patchCommand p))) w
  let w ← emit w (.entryPoint (functions.stop + if db.isThumb then 1 else 0))
  return { stream := w, slots }

def assemble (g : Graph) (roots : List NodeId) : Build Assembly := do
  let db ← get
  let plan ← check (Plan.ofRoots g roots)
  let names := stencilNames g plan.steps
  let auxiliary := (← check (db.callees names)).mergeSort (· ≤ ·)
  let constants ← check (db.constantSections (Database.addNames auxiliary names))
  link g plan auxiliary constants

def askFor (g : Graph) (a : Assembly) (n : Net) : Except Fault Writer :=
  match a.slots.find? fun v => g.sameNet v.content n with
  | some v => (Command.readData v.start v.length).write a.stream
  | none => .error (.violated .compiledVariable)

end Assembly

end Patchwork
