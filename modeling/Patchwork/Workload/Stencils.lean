import Patchwork.Workload.Basic

/-!
# The stencil workload

Asks a database for all that a compiler needs of its stencils, one stencil after another
and over again from the first, and adds up the sizes and patches that it is told.
-/

namespace Patchwork

namespace Workload

open Script

def wordPlaces (code : Bytes) : Int := (code.length : Int) - 3

def patchSum (p : Patch) : Int := p.mask + p.address + p.value + p.scale + p.command

/-- What the answers about a stencil add up to. Its relocations are patched as if the
stencil lay at `0x8000` and every symbol at `0x4000`. -/
def surveyStencil (db : Database) (name : String) : Except Fault Int × Database :=
  let measured : Except Fault Int := do
    let code ← db.stencilCode name
    let s ← db.object.symbol name
    return code.length + wordPlaces code + s.size + s.offset + s.sectionIndex
  match measured with
  | .error f => (.error f, db)
  | .ok total =>
    let (all, db) := db.eachRelocation name false total fun total e =>
      .ok (total + e.sectionIndex + e.functionOffset)
    match all with
    | .error f => (.error f, db)
    | .ok total => db.eachRelocation name true total fun total e => do
      return total + patchSum (← Database.patch db.object e 0x4000 0x8000 0x2000)

def entryLengths (db : Database) : Except Fault Int := do
  let lengths ← [Database.FunctionPart.full, .start, .«end»].mapM fun part => do
    return ((← db.functionCode Database.entryFunction part).length : Int)
  return lengths.foldl (· + ·) 0

def sectionSum (db : Database) (index : Nat) : Except Fault Int := do
  let s ← db.sectionAt index
  return s.size + s.alignment + (db.object.sectionData s).length

/-- The stencil workload: the sum of the answers, the number of functions that the
stencils call, the sections of their constants and the byte order. -/
def stencils (raw : Bytes) : Workload := fun n => do
  let k ← databaseOf (← addDatabase (← check (Database.«open» raw)))
  let names := (← database k).definitions.map (·.1) |>.filter (· ≠ Database.entryFunction)
  let asked := (List.range n).filterMap fun i => names[i % names.length]?
  let total ← asked.foldlM (fun total name => do
    return total + (← onDatabase k (surveyStencil · name))) 0
  let db ← database k
  let used := asked.eraseDups
  let called ← check (db.callees used)
  let constants ← check (db.constantSections (Database.addNames used called))
  let sizes ← check (constants.mapM (sectionSum db))
  let entry ← check (entryLengths db)
  return .tuple [.int (total + entry + sizes.foldl (· + ·) 0), .int called.length,
    .list (constants.map fun (i : Nat) => .int i), .text db.object.order.name]

end Workload

end Patchwork
