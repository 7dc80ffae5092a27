import Patchwork.Fault

/-!
# Stable topological order

An edge says that its source has to stand before its target. Of all nodes whose sources
have been placed, the one that appeared first in the list of edges is placed next. Nodes
are told apart by a given test, and of several nodes that the test takes for one the
first to appear stands for all of them where it starts, and the last to be reached where
it follows others.
-/

namespace Patchwork

namespace Edges

variable {α : Type}

def rank (same : α → α → Bool) (nodes : List α) (x : α) : Nat := nodes.findIdx (same x)

def insert (same : α → α → Bool) (nodes : List α) (x : α) : List α :=
  if nodes.any (same x) then nodes else nodes ++ [x]

def nodes (same : α → α → Bool) (edges : List (α × α)) : List α :=
  edges.foldl (fun found (u, v) => insert same (insert same found u) v) []

/-- An edge by the ranks of its ends, with the node it leads to. -/
structure Ranked (α : Type) where
  source : Nat
  target : Nat
  node : α

def ranked (same : α → α → Bool) (found : List α) (edges : List (α × α)) : List (Ranked α) :=
  edges.map fun (u, v) => ⟨rank same found u, rank same found v, v⟩

def indegree (edges : List (Ranked α)) (k : Nat) : Nat := edges.countP (·.target == k)

/-- A placement under way: nodes that are ready with their ranks, edges left into each
node by rank, and the nodes placed so far, last one first. -/
structure Placement (α : Type) where
  ready : List (Nat × α)
  missing : Array Nat
  placed : List α

/-- Takes one edge away. Its target is ready when it was the last one into it. -/
def Placement.release (p : Placement α) (e : Ranked α) : Placement α :=
  let left := p.missing.getD e.target 0 - 1
  let missing := p.missing.setIfInBounds e.target left
  if left = 0 then { p with missing, ready := p.ready ++ [(e.target, e.node)] }
  else { p with missing }

def byRank (ready : List (Nat × α)) : List (Nat × α) :=
  ready.mergeSort fun a b => a.1 ≤ b.1

/-- Places ready nodes until none is left. Every step places one node. -/
def place (outgoing : Nat → List (Ranked α)) : Nat → Placement α → Placement α
  | 0, p => p
  | steps + 1, p =>
    match p.ready with
    | [] => p
    | (k, x) :: rest =>
      let p := (outgoing k).foldl Placement.release { p with ready := rest, placed := x :: p.placed }
      place outgoing steps { p with ready := byRank p.ready }

def grouped (count : Nat) (edges : List (Ranked α)) : Array (List (Ranked α)) :=
  edges.foldr (fun e groups => groups.modify e.source (e :: ·)) (Array.replicate count [])

/-- The nodes of a list of edges, every source before its target; fails on a cycle. -/
def sort (same : α → α → Bool) (edges : List (α × α)) : Except Fault (List α) :=
  let found := nodes same edges
  let edges := ranked same found edges
  let groups := grouped found.length edges
  let missing := edges.foldl (fun counts e => counts.modify e.target (· + 1))
    (Array.replicate found.length 0)
  let ready := found.zipIdx.filterMap fun (x, k) =>
    if missing.getD k 0 = 0 then some (k, x) else none
  let done := place (fun k => groups.getD k []) found.length ⟨ready, missing, []⟩
  if done.placed.length = found.length then .ok done.placed.reverse
  else .error (.rejected .cyclic)

end Edges

end Patchwork
