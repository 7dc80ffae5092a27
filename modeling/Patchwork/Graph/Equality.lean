import Patchwork.Graph.Node

/-!
# When two nodes are the same computation

Two operations are the same if they have the same stem and the same number of operands
and their operands are the same, in order, or matched up by hash if the operation is
commutative. A difference in hash settles the matter at once. Anonymous constants are
the same if they are equal numbers of one cell type; any other node is the same only as
itself.

The comparison walks both graphs downwards. A pair of nodes that has been looked at is
not looked at again, so shared operands cost nothing, and operands stand before the
nodes that use them, so the walk ends. The hash is a parameter: nothing here depends on
how it was made.
-/

namespace Patchwork

/-- Pairs of nodes already found to agree. -/
abbrev Agreed := List (NodeId × NodeId)

namespace Graph

def sameLeaf (g : Graph) (a b : NodeId) : Bool :=
  a == b || match g.node a, g.node b with
    | .constant x true, .constant y true => x.same y
    | _, _ => false

def sortedArgs (hash : NodeId → UInt64) (args : List Net) : List Net :=
  args.mergeSort fun x y => hash x.source ≤ hash y.source

def pairedArgs (g : Graph) (hash : NodeId → UInt64) (a b : NodeId) : List (NodeId × NodeId) :=
  let left := (g.node a).args
  let right := (g.node b).args
  let pairs :=
    if (g.node a).isCommutative then (sortedArgs hash left).zip (sortedArgs hash right)
    else left.zip right
  pairs.map fun (x, y) => (x.source, y.source)

mutual

/-- Compares two nodes and everything below them, adding the pairs that agree. -/
def agree (g : Graph) (hash : NodeId → UInt64) (a b : NodeId) (seen : Agreed) : Option Agreed :=
  if hash a != hash b then none
  else if seen.contains (a, b) then some seen
  else if (g.node a).isOperation then
    if (g.node a).stem != (g.node b).stem || (g.node a).args.length != (g.node b).args.length then
      none
    else
      (agreeAll g hash a (pairedArgs g hash a b) seen).map ((a, b) :: ·)
  else if sameLeaf g a b then some ((a, b) :: seen)
  else none
termination_by (a, 1, 0)

/-- Compares pairs of operands of a node at position `above`. A node and itself agree. -/
def agreeAll (g : Graph) (hash : NodeId → UInt64) (above : NodeId) :
    List (NodeId × NodeId) → Agreed → Option Agreed
  | [], seen => some seen
  | (x, y) :: rest, seen =>
    if x = y then agreeAll g hash above rest seen
    else if x < above then
      match agree g hash x y seen with
      | some seen => agreeAll g hash above rest seen
      | none => none
    else none
termination_by pairs => (above, 0, pairs.length)

end

def sameNodeBy (g : Graph) (hash : NodeId → UInt64) (a b : NodeId) : Bool :=
  if a = b then true
  else if (g.node a).isOperation && (g.node b).isOperation then (agree g hash a b []).isSome
  else sameLeaf g a b

def sameNode (g : Graph) (a b : NodeId) : Bool := g.sameNodeBy g.hashOf a b

def sameNet (g : Graph) (a b : Net) : Bool := g.sameNode a.source b.source

/-- Every node is the same computation as itself, whatever the hash. -/
@[simp] theorem sameNodeBy_self (g : Graph) (hash : NodeId → UInt64) (a : NodeId) :
    g.sameNodeBy hash a a = true := by simp [sameNodeBy]

end Graph

end Patchwork
