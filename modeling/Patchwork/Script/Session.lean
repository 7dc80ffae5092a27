import Patchwork.Database.Basic
import Patchwork.Target

/-!
# Sessions

A session is what the steps of a script share: one graph, targets, and databases. A step
that fails keeps the changes it made to targets and databases before it failed; of a
failed trace nothing is left.
-/

namespace Patchwork

/-- What the steps of a script share. -/
structure Session where
  graph : Graph := {}
  targets : Array Target := #[]
  databases : Array Database := #[]

abbrev Script := ExceptT Fault (StateM Session)

namespace Script

variable {α : Type}

def check (r : Except Fault α) : Script α := ExceptT.mk (pure r)

def trace (t : Trace α) : Script α := ExceptT.mk fun s =>
  match t s.graph with
  | .ok (a, g) => (.ok a, { s with graph := g })
  | .error f => (.error f, s)

def attempt (x : Script α) : Script (Except Fault α) := ExceptT.lift x.run

def graph : Script Graph := do return (← get).graph

def need (as : Arguments) (k : Nat) (name : String) : Script Datum := trace (as.need k name)

def items (as : Arguments) (k : Nat) (name : String) : Script (List Datum) := do
  check (← need as k name).iterate

/-! ## Targets -/

def addTarget (t : Target) : Script Datum := do
  let s ← get
  set { s with targets := s.targets.push t }
  return .target s.targets.size

def targetOf : Datum → Script Nat
  | .target k => pure k
  | _ => throw .absentAttribute

def target (k : Nat) : Script Target := do return (← get).targets.getD k {}

def setTarget (k : Nat) (t : Target) : Script Unit :=
  modify fun s => { s with targets := s.targets.setIfInBounds k t }

/-! ## Databases -/

def addDatabase (db : Database) : Script Datum := do
  let s ← get
  set { s with databases := s.databases.push db }
  return .database (some s.databases.size)

def databaseOf : Datum → Script Nat
  | .database (some k) => pure k
  | _ => throw .absentAttribute

def database (k : Nat) : Script Database := do
  match (← get).databases[k]? with
  | some db => return db
  | none => throw .absentAttribute

def onDatabase (k : Nat) (f : Database → Except Fault α × Database) : Script α := do
  let (r, db) := f (← database k)
  modify fun s => { s with databases := s.databases.setIfInBounds k db }
  check r

end Script

end Patchwork
