import Patchwork.Script.Session
import Patchwork.Program.Assemble

/-!
# Requests about the graph

What a script can ask about nodes and nets: constructors, comparisons, the edges and the
order of a graph, the steps of a program and its layout, and the assembled program.
-/

namespace Patchwork

inductive GraphRequest where
  | blank
  | root
  | constant
  | net
  | source
  | value
  | equal
  | identical
  | equalHash
  | edges
  | sort
  | constantNets
  | withLoads
  | withSaves
  | between
  | nets
  | variableLayout
  | sectionLayout
  | functionLayout
  | statistics
  | assemble
  | ask
  deriving Repr, DecidableEq

namespace GraphRequest

open Script

/-! ## Reading arguments -/

def nodeOf : Datum → Except Fault NodeId
  | .node k => .ok k
  | _ => .error .absentAttribute

def netOf : Datum → Except Fault Net
  | .net n => .ok n
  | _ => .error .absentAttribute

def nodes (as : Arguments) (k : Nat) (name : String) : Script (List NodeId) := do
  check ((← items as k name).mapM nodeOf)

def valueOf : Datum → Except Fault Value
  | .scalar (.traced v) => .ok v
  | _ => .error .absentAttribute

def stepOf (d : Datum) : Except Fault Step := do
  match ← d.iterate with
  | [.net n, .node k] => return ⟨some n, .existing k⟩
  | [.absent, .node k] => return ⟨none, .existing k⟩
  | [_, _] => throw .absentAttribute
  | _ => throw .domain

def offset (as : Arguments) (k : Nat) : Script Int :=
  trace (as.get k "offset" (Datum.int 0)).needInt

/-! ## Writing outcomes -/

def stepDatum (s : Step) : Script Datum := do
  let k ← match s.run with
    | .existing k => pure k
    | .fresh n => trace (Trace.push n)
  let net := match s.net with
    | some n => Datum.net n
    | none => .absent
  return .tuple [net, .node k]

def stepsDatum (steps : List Step) : Script Datum := .list <$> steps.mapM stepDatum

def placesDatum {α : Type} (f : α → Datum) (places : List (Placed α)) : Datum :=
  .list (places.map fun p => .tuple [f p.content, .int p.start, .int p.length])

def edgesDatum (edges : List Edge) : Datum :=
  .list (edges.map fun e => .tuple [.node e.1, .node e.2])

/-! ## Comparisons -/

/-- Whether two data are the same node, the same net or equal plain data. -/
def same (g : Graph) : Datum → Datum → Bool
  | .node a, .node b => g.sameNode a b
  | .net a, .net b => g.sameNet a b
  | .scalar (.plain a), .scalar (.plain b) => a.eq b
  | .text a, .text b => a == b
  | .bytes a, .bytes b => a == b
  | .absent, .absent => true
  | _, _ => false

def isIdentical : Datum → Datum → Bool
  | .node a, .node b => a == b
  | .net a, .net b => a == b
  | .scalar (.traced a), .scalar (.traced b) => a == b
  | _, _ => false

def hashOf (g : Graph) : Datum → Except Fault UInt64
  | .node k => .ok (g.hashOf k)
  | .net n => .ok (g.hashOf n.source)
  | _ => .error .illTyped

/-! ## Constructors -/

def netFor : Datum → Trace Net
  | .scalar (.traced v) => pure v.net
  | .net n => pure n
  | .scalar (.plain n) => Trace.constant n true
  | d => throw (.rejected (.dataType d.className))

def pairOf (d : Datum) : Except Fault (Datum × Datum) := do
  match ← d.iterate with
  | [a, b] =>
    unless a.isHashable && b.isHashable do throw .illTyped
    return (a, b)
  | _ => throw .domain

/-- The distinct nets among collections of nets, nodes and nothing. -/
def netsOf (g : Graph) (inputs : List Datum) : Except Fault (List Net) := do
  let mut found : List Net := []
  for input in inputs do
    for element in ← input.iterate do
      for d in ← element.iterate do
        match d with
        | .net n => found := found ++ [n]
        | .node _ | .absent => pure ()
        | d => throw (.violated (.netOrNode (d.describe g)))
  return g.distinctNets found

def endOf : Datum → Except Fault NodeId
  | .node k => .ok k
  | .net n => .ok n.source
  | _ => .error .absentAttribute

def assembled (roots : List NodeId) (d : Datum) : Script Assembly := do
  let g ← graph
  onDatabase (← databaseOf d) (Assembly.assemble g roots).run

def call (r : GraphRequest) (as : Arguments) : Script Datum := do
  match r with
  | .blank => return .node (← trace (Trace.push .blank))
  | .root =>
    let d ← need as 0 "input"
    return .node (← trace (do Trace.push (.root (← netFor d))))
  | .constant =>
    match ← need as 0 "value" with
    | .scalar (.plain n) =>
      let anonymous ← check (as.get 1 "anonymous" (.bool true)).truth
      return .node (← trace (Trace.push (.constant n anonymous)))
    | d => throw (.rejected (.dataType d.className))
  | .net => return .net (← check (valueOf (← need as 0 ""))).net
  | .source => return .node (← check (valueOf (← need as 0 ""))).net.source
  | .value =>
    let source ← need as 0 "source"
    trace (Datum.makeValue source (as.get 1 "dtype" .absent))
  | .equal => return .bool (same (← graph) (← need as 0 "") (← need as 1 ""))
  | .identical => return .bool (isIdentical (← need as 0 "") (← need as 1 ""))
  | .equalHash =>
    let g ← graph
    return .bool ((← check (hashOf g (← need as 0 ""))) == (← check (hashOf g (← need as 1 ""))))
  | .edges => return edgesDatum ((← graph).edges (← nodes as 0 "nodes"))
  | .sort =>
    let pairs ← check ((← items as 0 "edges").mapM pairOf)
    return .list (← check (Edges.sort (same (← graph)) pairs))
  | .constantNets =>
    return .list ((← check ((← graph).constantNets (← nodes as 0 "nodes"))).map .net)
  | .withLoads => stepsDatum (Schedule.withLoads (← graph) (← nodes as 0 "node_list"))
  | .withSaves =>
    let steps ← check ((← items as 0 "net_node_list").mapM stepOf)
    let constants ← check ((← items as 1 "const_nets").mapM netOf)
    stepsDatum (Schedule.withSaves (← graph) steps constants)
  | .between =>
    let roots ← nodes as 0 "roots"
    let leaves ← nodes as 1 "leaves"
    return edgesDatum (← check ((← graph).edgesFromLeaves roots leaves))
  | .nets => return .list ((← check (netsOf (← graph) as.positional)).map .net)
  | .variableLayout =>
    let nets ← check ((← items as 0 "variable_list").mapM netOf)
    let (places, stop) ← check (Layout.slots nets (← offset as 2))
    return .tuple [placesDatum .net places, .int stop]
  | .sectionLayout =>
    let indices ← trace ((← items as 0 "section_indexes").mapM Datum.needInt)
    let db ← database (← databaseOf (← need as 1 "sdb"))
    let (places, stop) ← check (Layout.sections db indices (← offset as 2))
    return .tuple [placesDatum .int places, .int stop]
  | .functionLayout =>
    let names ← trace ((← items as 0 "function_names").mapM Datum.needText)
    let db ← database (← databaseOf (← need as 1 "sdb"))
    let f ← check (Layout.functions db names (← offset as 2))
    return .tuple [placesDatum .int f.sections,
      .dict (f.addresses.map fun (name, address) => (.text name, .int address)), .int f.stop]
  | .statistics =>
    let ends ← check ((← items as 0 "node_list").mapM endOf)
    return .dict (((← graph).statistics ends).map fun (name, n) => (.text name, .int n))
  | .assemble =>
    let roots ← nodes as 0 "node_list"
    let a ← assembled roots (← need as 1 "sdb")
    let slots := a.slots.map fun v =>
      Datum.tuple [.net v.content, .int v.start, .int v.length, .text v.content.cell.name]
    return .list [.bytes a.stream.bytes, .list slots]
  | .ask =>
    let roots ← nodes as 0 "node_list"
    let a ← assembled roots (← need as 1 "sdb")
    let v ← check (valueOf (← need as 2 "value"))
    let w ← check (Assembly.askFor (← graph) a v.net)
    return .bytes (w.bytes.drop a.stream.bytes.length)

end GraphRequest

end Patchwork
