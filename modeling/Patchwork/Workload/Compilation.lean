import Patchwork.Workload.Basic

/-!
# The scheduling workload

Builds a chain of products and differences with one root for each link, and schedules it
step by step.
-/

namespace Patchwork

namespace Workload

open Script

/-- The links of a chain: each one scales the link before by a shifted variable and takes
the cosine of the variable away. -/
def chain (slots : List Datum) : Script (List Datum) := do
  let start := slots.headD .absent
  let (_, links) ← slots.foldlM (fun (state : Datum × List Datum) v => do
    let (link, links) := state
    let scaled ← routine (.operator .mul) [link, ← routine (.operator .add) [v, real 0.5]]
    let next ← routine (.operator .sub) [scaled, ← routine (.elementary .cos) [v]]
    return (next, links ++ [next])) (start, [])
  return links

def listed (r : GraphRequest) (arguments : List Datum) : Script (List Datum) := do
  check (← r.call ⟨arguments, []⟩).iterate

def scheduling : Workload := fun n => do
  let slots ← (List.range n).mapM fun i => namedValue (real (i.toFloat + 1))
  let roots ← (← chain slots).mapM fun d => GraphRequest.root.call ⟨[d], []⟩
  let edges ← listed .edges [.list roots]
  let order ← listed .sort [.list edges]
  let constants ← listed .constantNets [.list order]
  let loaded ← listed .withLoads [.list order]
  let saved ← listed .withSaves [.list loaded, .list constants]
  let nets ← listed .nets [.list [.tuple constants], .list saved]
  let layout ← GraphRequest.variableLayout.call ⟨[.list nets, .database none], []⟩
  let statistics ← match ← GraphRequest.statistics.call ⟨[.list roots], []⟩ with
    | .dict entries => routine .total [.list (entries.map Prod.snd)]
    | _ => throw .illTyped
  let leaves ← (slots.take 2).mapM fun v => GraphRequest.source.call ⟨[v], []⟩
  let between ← listed .between [.list roots, .list leaves]
  let (places, size) ← match layout with
    | .tuple [.list places, size] => pure (places, size)
    | _ => throw .illTyped
  let count (ds : List Datum) : Datum := .int ds.length
  return .tuple [count edges, count order, count constants, count loaded, count saved, count nets,
    size, count places, statistics, count between]

end Workload

end Patchwork
