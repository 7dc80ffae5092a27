import Patchwork.Database.Relocations
import Patchwork.Script.Session

/-!
# Requests to stencil databases
-/

namespace Patchwork

inductive DatabaseRequest where
  | native
  | new
  | definitions
  | nativeDefinition
  | relocations
  | patch
  | passedOn
  | position
  | lastCall
  | afterLastCall
  | signedWord
  | callees
  | constantSections
  | typeSize
  | symbolSize
  | symbolOffset
  | symbolSection
  | sectionSize
  | sectionAlignment
  | sectionData
  | functionCode
  | stencilCode
  | byteOrder
  | isThumb
  deriving Repr, DecidableEq

namespace DatabaseRequest

open Script

def text (as : Arguments) (k : Nat) (name : String) : Script String := do
  trace (← need as k name).needText

def whole (as : Arguments) (k : Nat) (name : String) : Script Int := do
  trace (← need as k name).needInt

def key (as : Arguments) (k : Nat) (name : String) : Script String := do
  match ← need as k name with
  | .text s => return s
  | d => if d.isHashable then throw .absentKey else throw .illTyped

def entryDatum (e : RelocationEntry) : Datum :=
  .relocation [.text e.symbolName, .text e.symbolKind.name, .int e.symbolOffset,
    .int e.sectionIndex, .int e.functionOffset, .int e.start, .text e.relocation.type,
    .int e.relocation.offset, .int e.relocation.addend, .int e.relocation.bits]

def patchDatum (p : Patch) : Datum :=
  .patch [.int p.mask, .int p.address, .int p.value, .int p.scale, .int p.command]

def definitionsDatum (defs : List (String × String)) : Datum :=
  .dict (defs.map fun (name, types) => (.text name, .text types))

/-- The part of a function that a text names; anything unknown names all of it. -/
def partOf : String → Database.FunctionPart
  | "start" => .start
  | "end" => .«end»
  | _ => .full

def call (natives : List (String × String)) (r : DatabaseRequest) (as : Arguments) :
    Script Datum := do
  let db : Script Database := do database (← databaseOf (← need as 0 "self"))
  let symbol : Script Symbol := do check ((← db).object.symbol (← key as 1 "name"))
  match r with
  | .native => return .database none
  | .new =>
    match ← need as 0 "obj_file" with
    | .bytes raw => addDatabase (← check (Database.«open» raw))
    | _ => throw .illTyped
  | .definitions =>
    match ← need as 0 "sdb" with
    | .database none => return definitionsDatum natives
    | _ => return definitionsDatum (← db).definitions
  | .nativeDefinition =>
    match natives.lookup (← key as 0 "name") with
    | some types => return .text types
    | none => throw .absentKey
  | .relocations =>
    let k ← databaseOf (← need as 0 "sdb")
    let name ← key as 1 "symbol_name"
    let stencil ← check (as.get 2 "stencil" (.bool false)).truth
    return .list ((← onDatabase k (·.relocations name stencil)).map entryDatum)
  | .patch =>
    let k ← databaseOf (← need as 0 "sdb")
    let name ← key as 1 "symbol_name"
    let stencil ← check (as.get 2 "stencil" (.bool false)).truth
    let found ← onDatabase k (·.relocations name stencil)
    let e ← check (Sequence.at found (← whole as 3 "i"))
    let p ← check (Database.patch (← database k).object e (← whole as 4 "symbol_address")
      (← whole as 5 "function_offset") (← whole as 6 "symbol_type"))
    return patchDatum p
  | .passedOn => return .text (← check ((← db).object.passedOn (← symbol)))
  | .position =>
    let (start, stop) ← check ((← db).object.stencilRange (← symbol))
    return .tuple [.int start, .int stop]
  | .lastCall => return .int (← check ((← db).object.lastCall (← symbol)))
  | .afterLastCall => return .int (← check (Object.afterLastCall (← symbol)))
  | .signedWord => return .int (Patchwork.signedWord (← whole as 0 "value"))
  | .callees =>
    let names ← trace ((← items as 1 "names").mapM Datum.needText)
    return .set (((← check ((← db).callees names)).mergeSort (· ≤ ·)).map .text)
  | .constantSections =>
    let names ← trace ((← items as 1 "symbol_names").mapM Datum.needText)
    return .list ((← check ((← db).constantSections names)).map fun (n : Nat) => .int n)
  | .typeSize =>
    match ← need as 0 "self" with
    | .database _ => return .int (← check (Database.typeSize (← key as 1 "type_name")))
    | _ => throw .absentAttribute
  | .symbolSize => return .int (← symbol).size
  | .symbolOffset => return .int (← symbol).offset
  | .symbolSection => return .int (← symbol).sectionIndex
  | .sectionSize => return .int (← check ((← db).sectionAt (← whole as 1 "index"))).size
  | .sectionAlignment => return .int (← check ((← db).sectionAt (← whole as 1 "index"))).alignment
  | .sectionData =>
    let db ← db
    return .bytes (db.object.sectionData (← check (db.sectionAt (← whole as 1 "index"))))
  | .functionCode =>
    let part := match as.get 2 "part" (.text "full") with
      | .text s => partOf s
      | _ => .full
    return .bytes (← check ((← db).functionCode (← key as 1 "name") part))
  | .stencilCode => return .bytes (← check ((← db).stencilCode (← key as 1 "name")))
  | .byteOrder => return .text (← db).object.order.name
  | .isThumb => return .bool (← db).isThumb

end DatabaseRequest

end Patchwork
