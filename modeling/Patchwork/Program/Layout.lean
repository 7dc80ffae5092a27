import Patchwork.Database.Basic
import Patchwork.Graph.Node

/-!
# Memory layout

Things are laid out one after the other, each at the next multiple of its alignment: the
constant sections and variables of a program in its data, and its auxiliary functions in
its code. A function is laid out with the whole section that holds it, once.
-/

namespace Patchwork

/-- Something with the place it takes. -/
structure Placed (α : Type) where
  content : α
  start : Int
  length : Int

namespace Layout

def align (offset alignment : Int) : Except Fault Int :=
  if alignment = 0 then .error .divisionByZero
  else .ok ((offset + alignment - 1).fdiv alignment * alignment)

def place {α : Type} (content : α) (length alignment : Int) (state : List (Placed α) × Int) :
    Except Fault (List (Placed α) × Int) := do
  let start ← align state.2 alignment
  return (state.1 ++ [⟨content, start, length⟩], start + length)

/-- The layout of variables, each aligned to its own size, and where it ends. -/
def slots (nets : List Net) (offset : Int) : Except Fault (List (Placed Net) × Int) :=
  nets.foldlM (fun state n => do
    let size ← Database.typeSize n.cell.name
    place n size size state) ([], offset)

def sections (db : Database) (indices : List Int) (offset : Int) :
    Except Fault (List (Placed Int) × Int) :=
  indices.foldlM (fun state index => do
    let s ← db.sectionAt index
    place index s.size s.alignment state) ([], offset)

/-- Where auxiliary functions lie: the sections that hold them, and their addresses. -/
structure Functions where
  sections : List (Placed Int) := []
  addresses : List (String × Int) := []
  stop : Int

/-- Gives a function its address; a later one takes the place of an earlier one. -/
def assign (addresses : List (String × Int)) (name : String) (address : Int) :
    List (String × Int) :=
  if addresses.any fun a => a.1 == name then
    addresses.map fun a => if a.1 == name then (name, address) else a
  else addresses ++ [(name, address)]

def addFunction (db : Database) (f : Functions) (name : String) : Except Fault Functions := do
  let s ← db.object.symbol name
  let index : Int := s.sectionIndex
  match f.sections.find? fun p => p.content = index with
  | some p => return { f with addresses := assign f.addresses name (p.start + s.offset) }
  | none =>
    let sec ← db.sectionAt index
    let start ← align f.stop sec.alignment
    return { sections := f.sections ++ [⟨index, start, sec.size⟩]
             addresses := assign f.addresses name (start + s.offset)
             stop := start + sec.size }

def functions (db : Database) (names : List String) (offset : Int) : Except Fault Functions :=
  names.foldlM (addFunction db) { stop := offset }

end Layout

end Patchwork
