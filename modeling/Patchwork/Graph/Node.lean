import Patchwork.Graph.Operation
import Patchwork.Number.Basic

/-!
# The expression graph

Nodes are kept in the order in which they were made, and a node's position is its
identity: two nodes with the same contents are still two nodes. A net is the wire out
of a node, and there is one per node, so a net is known by its source.

Nodes are only ever appended, so what a position holds never changes, and an operand
always stands before the node that uses it.
-/

namespace Patchwork

open scoped Power

abbrev NodeId := Nat

/-- The wire out of a node, with the type of the cell it carries. -/
structure Net where
  cell : Cell
  source : NodeId
  deriving Repr, DecidableEq, Inhabited

/-- One of the two registers that stencils pass on. -/
inductive Register where
  | first
  | second
  deriving Repr, DecidableEq, Inhabited

def Register.number : Register → Nat
  | first => 0
  | second => 1

inductive Node where
  /-- A constant. An anonymous one is known by its contents, any other by its position. -/
  | constant (value : Number) (anonymous : Bool)
  | apply (operation : Operation) (args : List Net) (commutative : Bool)
  /-- A request to keep the contents of a net. -/
  | root (arg : Net)
  /-- Reads a cell into a register, given the types that both registers hold before. -/
  | load (cell : Cell) (register : Register) (held : Cell × Cell)
  /-- Writes the first register to a cell, given the types that both registers hold. -/
  | save (held : Cell × Cell) (args : List Net)
  /-- A node without meaning. -/
  | blank

instance : Inhabited Node := ⟨.blank⟩

def Number.cell : Number → Cell
  | .float _ => .float
  | _ => .int

def Number.same (a b : Number) : Bool := a.eq b && a.cell == b.cell

namespace Node

def args : Node → List Net
  | apply _ args _ => args
  | root arg => [arg]
  | save _ args => args
  | _ => []

def name : Node → String
  | constant value _ => "const_" ++ value.cell.name
  | apply o args _ => o.typedName (args.map Net.cell)
  | root arg => "store_" ++ arg.cell.name
  | load c r (a, b) => s!"load_{c.name}_reg{r.number}_{a.name}_{b.name}"
  | save (a, b) _ => s!"store_{a.name}_reg0_{a.name}_{b.name}"
  | blank => ""

/-- The part of the name before its first underscore. -/
def stem : Node → String
  | constant .. => "const"
  | apply o _ _ => o.stem
  | root _ => "store"
  | load .. => "load"
  | save .. => "store"
  | blank => ""

def isConstant : Node → Bool
  | constant .. => true
  | _ => false

def isOperation : Node → Bool
  | apply .. | load .. | save .. => true
  | _ => false

def isCommutative : Node → Bool
  | apply _ _ commutative => commutative
  | _ => false

end Node

/-- The node store, with a hash for every node. -/
structure Graph where
  nodes : Array Node := #[]
  hashes : Array UInt64 := #[]
  hashed : hashes.size = nodes.size := by rfl

namespace Graph

def empty : Graph := {}

instance : Inhabited Graph := ⟨empty⟩

def size (g : Graph) : Nat := g.nodes.size

def node (g : Graph) (k : NodeId) : Node := g.nodes.getD k .blank

def hashOf (g : Graph) (k : NodeId) : UInt64 := g.hashes.getD k 0

def numberHash (n : Number) : UInt64 := UInt64.ofNat (n.hash % 2 ^ (64 : Nat)).toNat

/-- The hash that a node gets at position `k`: a named constant and a node without
operands of its own are told apart by position, everything else by contents. The
operands of a commutative operation count as a set, and a set starts from a hash of its
own. -/
def nodeHash (g : Graph) (k : NodeId) : Node → UInt64
  | .constant value anonymous =>
    if anonymous then mixHash (numberHash value) (hash value.cell.name)
    else mixHash 7919 (hash k)
  | .root arg => mixHash (hash ("store_" ++ arg.cell.name)) (g.hashOf arg.source)
  | .blank => 0
  | n =>
    let operands := n.args.map fun a => g.hashOf a.source
    if n.isCommutative then
      ((operands.mergeSort (· ≤ ·)).eraseDups).foldl mixHash (mixHash 104729 (hash n.name))
    else operands.foldl mixHash (hash n.name)

def push (g : Graph) (n : Node) : Graph :=
  let h := g.nodeHash g.size n
  { nodes := g.nodes.push n, hashes := g.hashes.push h, hashed := by simp [g.hashed] }

@[simp] theorem size_push (g : Graph) (n : Node) : (g.push n).size = g.size + 1 := by
  simp [push, size]

@[simp] theorem node_push_size (g : Graph) (n : Node) : (g.push n).node g.size = n := by
  simp [push, node, size, Array.getD]

theorem node_push_of_lt (g : Graph) (n : Node) {k : NodeId} (h : k < g.size) :
    (g.push n).node k = g.node k := by
  have h' : k < g.nodes.size := h
  simp [push, node, Array.getD, Nat.lt_succ_of_lt h', h', Array.getElem_push_lt h']

theorem hashOf_push_of_lt (g : Graph) (n : Node) {k : NodeId} (h : k < g.size) :
    (g.push n).hashOf k = g.hashOf k := by
  have h' : k < g.hashes.size := g.hashed ▸ h
  simp [push, hashOf, Array.getD, Nat.lt_succ_of_lt h', h', Array.getElem_push_lt h']

end Graph

end Patchwork
