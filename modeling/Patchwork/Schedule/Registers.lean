import Patchwork.Schedule.Edges

/-!
# Loads and saves

Stencils work on two registers. Before an operation, each operand that is not in its
register is loaded; after an operation, a result that is loaded again later is saved. A
request to keep a net is turned into a save of the first register.
-/

namespace Patchwork

/-- What a step runs: a node of the graph, or a load or save made for it. -/
inductive Instruction where
  | existing (k : NodeId)
  | fresh (n : Node)

/-- A step of a program, with the net it is about. -/
structure Step where
  net : Option Net
  run : Instruction

namespace Schedule

def content (g : Graph) : Instruction → Node
  | .existing k => g.node k
  | .fresh n => n

/-- The nets that the two registers hold. -/
structure Registers where
  first : Option Net := none
  second : Option Net := none

namespace Registers

def get (r : Registers) : Register → Option Net
  | .first => r.first
  | .second => r.second

def set (r : Registers) (k : Register) (n : Net) : Registers :=
  match k with
  | .first => { r with first := some n }
  | .second => { r with second := some n }

/-- The cell types that the registers hold; an empty one counts as an integer. -/
def cells (r : Registers) : Cell × Cell :=
  ((r.first.map Net.cell).getD .int, (r.second.map Net.cell).getD .int)

end Registers

def loadOperands (args : List Net) (r : Registers) : List Step × Registers :=
  (args.zip [Register.first, Register.second]).foldl
    (fun (state : List Step × Registers) (n, k) =>
      if state.2.get k = some n then state
      else
        let load : Step := ⟨some n, .fresh (.load n.cell k state.2.cells)⟩
        (state.1 ++ [load], state.2.set k n)) ([], r)

/-- The steps of a node and the registers after them. The result of a node that is used
comes to the first register; the second keeps its contents if there were two operands. -/
def nodeSteps (g : Graph) (result? : NodeId → Option Net) (k : NodeId) (r : Registers) :
    List Step × Registers :=
  let node := g.node k
  if node.isConstant then ([], r)
  else
    let (loads, r) := loadOperands node.args r
    match result? k with
    | some n =>
      let second := if node.args.length < 2 then none else r.second
      (loads ++ [⟨some n, .existing k⟩], { first := some n, second })
    | none => (loads ++ [⟨none, .existing k⟩], r)

/-- Nodes in execution order, with loads put in. The net of a step is its result, or for
a load what is loaded. -/
def withLoads (g : Graph) (order : List NodeId) : List Step :=
  (order.foldl (fun (state : List Step × Registers) k =>
    let (steps, r) := nodeSteps g (g.netOf? order) k state.2
    (state.1 ++ steps, r)) ([], {})).1

def isLoad : Node → Bool
  | .load .. => true
  | _ => false

/-- The state of putting in saves: the registers and the nets that have been saved. -/
structure Saving where
  registers : Registers
  saved : List Net

def saveStep (n : Net) (r : Registers) (args : List Net) : Step :=
  ⟨some n, .fresh (.save r.cells args)⟩

/-- A step itself: a request to keep a net becomes a save, a load keeps its net, and any
other step is about no net. -/
def translated (g : Graph) (s : Step) (r : Registers) : Step :=
  match content g s.run with
  | .root arg => saveStep arg r [arg]
  | node => if isLoad node then s else { s with net := none }

def savedStep (g : Graph) (loaded : List Net) (s : Step) (state : Saving) : List Step × Saving :=
  let own := translated g s state.registers
  match s.net with
  | none => ([own], state)
  | some n =>
    let second := match (content g s.run).args with
      | _ :: b :: _ => some b
      | _ => state.registers.second
    let registers : Registers := { first := some n, second }
    if loaded.any (g.sameNet n) && !state.saved.any (g.sameNet n) then
      ([own, saveStep n registers []], { registers, saved := n :: state.saved })
    else ([own], { state with registers })

def withSaves (g : Graph) (steps : List Step) (constants : List Net) : List Step :=
  let loaded := steps.filterMap fun s => if isLoad (content g s.run) then s.net else none
  (steps.foldl (fun (state : List Step × Saving) s =>
    let (more, saving) := savedStep g loaded s state.2
    (state.1 ++ more, saving)) ([], ⟨{}, constants⟩)).1

/-- The nets that a program keeps in memory: those of constants and those of its steps,
in order of first appearance. -/
def slots (g : Graph) (constants : List Net) (steps : List Step) : List Net :=
  g.distinctNets (constants ++ steps.filterMap Step.net)

end Schedule

end Patchwork
