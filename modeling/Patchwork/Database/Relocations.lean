import Patchwork.Database.Basic

/-!
# Relocations of a function

The relocations of a function are handed out one by one. What has been handed out is
remembered, and the next time it is handed out again without looking at the object file.
A look that fails, or that is given up half way, leaves what it had handed out, so from
then on the function seems to have no other relocations.
-/

namespace Patchwork

namespace Database

/-- Relocations that are handed out one by one; a fault may follow the last one. -/
structure Handout where
  entries : List RelocationEntry
  fault : Option Fault := none

def entriesOf (o : Object) (s : Symbol) (start stop : Int) : List Relocation → Handout
  | [] => ⟨[], none⟩
  | r :: rs =>
    let position : Int := (r.offset : Int) - s.offset - start
    if position < stop - start then
      match o.pointedTo r with
      | .error f => ⟨[], some f⟩
      | .ok t =>
        let entry : RelocationEntry :=
          { symbolName := t.name, symbolKind := t.kind, symbolOffset := t.value
            sectionIndex := t.sectionIndex, functionOffset := s.offset, start
            relocation := r }
        let rest := entriesOf o s start stop rs
        { rest with entries := entry :: rest.entries }
    else entriesOf o s start stop rs

/-- The relocations of a function as the object file has them. For a stencil, those of
the jump that is cut off are left out. -/
def look (o : Object) (name : String) (stencil : Bool) : Handout :=
  let range : Except Fault (Symbol × Int × Int) := do
    let s ← o.symbol name
    if stencil then return (s, ← o.stencilRange s) else return (s, 0, (s.size : Int))
  match range with
  | .error f => ⟨[], some f⟩
  | .ok (s, start, stop) => entriesOf o s start stop s.relocations

/-- The relocations of a function: what was handed out before, or else a look at the
object file. -/
def handout (db : Database) (name : String) (stencil : Bool) : Handout :=
  match db.handedOut.lookup (name, stencil) with
  | some entries => ⟨entries, none⟩
  | none => look db.object name stencil

/-- Remembers what was handed out of a function's relocations, unless there is something
to remember already. -/
def remember (db : Database) (name : String) (stencil : Bool) (entries : List RelocationEntry) :
    Database :=
  match db.handedOut.lookup (name, stencil) with
  | some _ => db
  | none => { db with handedOut := ((name, stencil), entries) :: db.handedOut }

/-- Does something with entries one by one until it fails. Returns the outcome and how
many entries were taken. -/
def walk {σ : Type} (act : σ → RelocationEntry → Except Fault σ) :
    σ → List RelocationEntry → Except Fault σ × Nat
  | state, [] => (.ok state, 0)
  | state, e :: rest => match act state e with
    | .error f => (.error f, 1)
    | .ok state =>
      let (outcome, taken) := walk act state rest
      (outcome, taken + 1)

/-- Does something with each relocation of a function. The database remembers as many as
were taken. -/
def eachRelocation {σ : Type} (db : Database) (name : String) (stencil : Bool) (state : σ)
    (act : σ → RelocationEntry → Except Fault σ) : Except Fault σ × Database :=
  let h := db.handout name stencil
  let (outcome, taken) := walk act state h.entries
  let db := db.remember name stencil (h.entries.take taken)
  match outcome, h.fault with
  | .ok _, some f => (.error f, db)
  | outcome, _ => (outcome, db)

def relocations (db : Database) (name : String) (stencil : Bool) :
    Except Fault (List RelocationEntry) × Database :=
  db.eachRelocation name stencil [] fun found e => .ok (found ++ [e])

def patch (o : Object) (e : RelocationEntry) (symbolAddress functionAddress command : Int) :
    Except Fault Patch :=
  let r := e.relocation
  let position : Int := (r.offset : Int) - e.functionOffset - e.start + functionAddress
  match PatchRule.ofName? r.type with
  | some rule => rule.patch o.order r.addend ⟨symbolAddress, position, command⟩
  | none => match r.target.bind o.section?, o.pointedTo? r with
    | some s, some t => .error (.uncovered (.relocation r.type s.name t.name))
    | _, _ => .error .absentAttribute

end Database

end Patchwork
