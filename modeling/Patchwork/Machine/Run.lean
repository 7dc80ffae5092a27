import Patchwork.Machine.Stencil
import Patchwork.Schedule.Registers

/-!
# Running a program

The machine has two registers and one cell of memory for each net that a program keeps.
A load copies a cell into a register, a save copies the first register into a cell, and
an operation replaces the first register by its result.
-/

namespace Patchwork

abbrev Memory := List (Net × Word)

namespace Memory

/-- The content of the cell of a net; nets that carry the same computation share one. -/
def get? (g : Graph) (m : Memory) (n : Net) : Option Word :=
  (m.find? fun cell => g.sameNet cell.1 n).map Prod.snd

def set (g : Graph) (m : Memory) (n : Net) (w : Word) : Memory :=
  m.map fun cell => if g.sameNet cell.1 n then (cell.1, w) else cell

end Memory

structure Machine where
  first : Word := 0
  second : Word := 0
  memory : Memory := []

namespace Machine

def setRegister (m : Machine) (r : Register) (w : Word) : Machine :=
  match r with
  | .first => { m with first := w }
  | .second => { m with second := w }

def perform (i : Interpretation) (g : Graph) (net : Option Net) (node : Node) (m : Machine) :
    Machine :=
  match node, net with
  | .load _ r _, some n => m.setRegister r ((m.memory.get? g n).getD 0)
  | .save _ _, some n => { m with memory := m.memory.set g n m.first }
  | .apply o args _, _ =>
    let cells := args.map Net.cell
    let second := if args.length < 2 then i.residue o cells m.first m.second else m.second
    { m with first := i.result o cells m.first m.second, second }
  | _, _ => m

def step (i : Interpretation) (g : Graph) (m : Machine) (s : Step) : Machine :=
  m.perform i g s.net (Schedule.content g s.run)

def run (i : Interpretation) (g : Graph) (steps : List Step) (m : Machine) : Machine :=
  steps.foldl (step i g) m

@[simp] theorem run_nil (i : Interpretation) (g : Graph) (m : Machine) : run i g [] m = m := rfl

end Machine

end Patchwork
