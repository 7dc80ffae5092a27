import Patchwork.Graph.Equality
import Patchwork.Schedule.Order

/-!
# The edges of a graph

An edge leads from an operand to the node that uses it. Nets that carry the same
computation are merged while edges are collected: the first one found stands for all.
-/

namespace Patchwork

abbrev Edge := NodeId × NodeId

/-- The orders in which sets of nodes are gone through: the users of a node, and the leaves
of a walk. A set has no order of its own, so that any other order would do as well. -/
structure SetOrder where
  users : NodeId → List NodeId → List NodeId := fun _ users => users
  leaves : List NodeId → List NodeId := fun leaves => leaves

namespace Graph

def sameEdge (g : Graph) (e f : Edge) : Bool := g.sameNode e.1 f.1 && g.sameNode e.2 f.2

/-! ## All edges -/

/-- A walk that collects edges: nodes to visit, nets that stand for their equals, and
the edges found, last one first. -/
structure Collection where
  pending : List NodeId
  nets : List Net
  found : List Edge

def representative (g : Graph) (nets : List Net) (n : Net) : Net × List Net :=
  match nets.find? (g.sameNet n) with
  | some m => (m, nets)
  | none => (n, n :: nets)

/-- Adds the edge from an operand to a node, and visits the operand if the edge is
new. -/
def Collection.visit (g : Graph) (node : NodeId) (c : Collection) (arg : Net) : Collection :=
  let (arg, nets) := g.representative c.nets arg
  let edge := (arg.source, node)
  if c.found.any (g.sameEdge edge) then { c with nets }
  else { pending := arg.source :: c.pending, nets, found := edge :: c.found }

/-- Visits pending nodes until none is left. -/
def collect (g : Graph) : Nat → Collection → Collection
  | 0, c => c
  | steps + 1, c =>
    match c.pending with
    | [] => c
    | node :: rest =>
      collect g steps ((g.node node).args.foldl (Collection.visit g node) { c with pending := rest })

/-- The edges below some nodes, in the order in which a walk from the last node finds
them. There are no more edges than pairs of nodes, and every edge is followed once. -/
def edges (g : Graph) (roots : List NodeId) : List Edge :=
  let steps := roots.length + g.size * g.size + 1
  (collect g steps ⟨roots.reverse, [], []⟩).found.reverse

def sortEdges (g : Graph) (edges : List Edge) : Except Fault (List NodeId) :=
  Edges.sort g.sameNode edges

/-- The nodes below some roots, each after its operands. -/
def executionOrder (g : Graph) (roots : List NodeId) : Except Fault (List NodeId) :=
  g.sortEdges (g.edges roots)

/-! ## Edges between leaves and roots -/

abbrev Users := List (NodeId × List NodeId)

def usersOf (g : Graph) (users : Users) (k : NodeId) : Option (List NodeId) :=
  (users.find? fun entry => g.sameNode entry.1 k).map Prod.snd

def enlist (g : Graph) (k user : NodeId) (entry : NodeId × List NodeId) : NodeId × List NodeId :=
  if g.sameNode entry.1 k then
    (entry.1, if entry.2.any (g.sameNode user) then entry.2 else entry.2 ++ [user])
  else entry

def addUser (g : Graph) (users : Users) (k user : NodeId) : Users × Bool :=
  if users.any fun entry => g.sameNode entry.1 k then (users.map (g.enlist k user), false)
  else (users ++ [(k, [user])], true)

def visitOperand (g : Graph) (node : NodeId) (state : List NodeId × Users) (arg : Net) :
    List NodeId × Users :=
  let (users, isNew) := g.addUser state.2 arg.source node
  (if isNew then arg.source :: state.1 else state.1, users)

def collectUsers (g : Graph) : Nat → List NodeId → Users → Users
  | 0, _, users => users
  | _, [], users => users
  | steps + 1, node :: rest, users =>
    let (pending, users) := (g.node node).args.foldl (g.visitOperand node) (rest, users)
    collectUsers g steps pending users

def climbTo (g : Graph) (child : NodeId) (state : List NodeId × List Edge) (user : NodeId) :
    List NodeId × List Edge :=
  if state.2.any (g.sameEdge (child, user)) then state
  else (user :: state.1, (child, user) :: state.2)

/-- Climbs from pending nodes to their users; the edges are collected, last one first. -/
def climb (g : Graph) (users : Users) (order : SetOrder) :
    Nat → List NodeId → List Edge → List Edge
  | 0, _, found => found
  | _, [], found => found
  | steps + 1, child :: rest, found =>
    let (pending, found) := (order.users child ((g.usersOf users child).getD [])).foldl
      (g.climbTo child) (rest, found)
    climb g users order steps pending found

def edgesBetween (g : Graph) (roots leaves : List NodeId) (order : SetOrder := {}) : List Edge :=
  let users := collectUsers g (roots.length + g.size + 1) roots.reverse []
  (climb g users order (leaves.length + g.size * g.size + 1) leaves.reverse []).reverse

def edgesFromLeaves (g : Graph) (roots leaves : List NodeId) (order : SetOrder := {}) :
    Except Fault (List Edge) :=
  let found := g.edgesBetween roots leaves order
  if leaves.all fun leaf => found.any fun e => g.sameNode e.1 leaf then .ok found
  else .error (.violated .unstated)

/-! ## Nets -/

/-- The last net among the operands of some nodes that carries a given node. -/
def netOf? (g : Graph) (nodes : List NodeId) (k : NodeId) : Option Net :=
  ((nodes.flatMap fun node => (g.node node).args).filter fun n => g.sameNode n.source k).getLast?

def constantNets (g : Graph) (nodes : List NodeId) : Except Fault (List Net) :=
  (nodes.filter fun k => (g.node k).isConstant).mapM fun k =>
    match g.netOf? nodes k with
    | some n => .ok n
    | none => .error .absentKey

/-- Nets in order of first appearance, equal ones once. -/
def distinctNets (g : Graph) (nets : List Net) : List Net :=
  nets.foldl (fun found n => if found.any (g.sameNet n) then found else found ++ [n]) []

/-- Nodes in order of first appearance, equal ones once. -/
def distinctNodes (g : Graph) (nodes : List NodeId) : List NodeId :=
  nodes.foldl (fun found k => if found.any (g.sameNode k) then found else found ++ [k]) []

/-- How often each name occurs among distinct nodes that something below the roots uses,
by name. -/
def statistics (g : Graph) (roots : List NodeId) : List (String × Nat) :=
  let names := (g.distinctNodes ((g.edges roots).map Prod.fst)).map fun k => (g.node k).name
  (names.eraseDups.mergeSort fun a b => a ≤ b).map fun name => (name, names.count name)

end Graph

end Patchwork
