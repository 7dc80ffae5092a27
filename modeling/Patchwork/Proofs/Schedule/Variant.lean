import Patchwork.Proofs.Graph.Variant
import Patchwork.Proofs.Schedule.Registers
import Patchwork.Target

/-!
# Programs of variants

A program does not depend on the starting values of its variables: variants of a graph have
the same plans, and the same steps do the same on them.
-/

namespace Patchwork

namespace Graph.Variant

variable {vars : NodeId → Prop} {g g' : Graph} (h : g.Variant vars g')

include h

theorem args : (fun k => (g'.node k).args) = fun k => (g.node k).args :=
  funext fun k => (h.node k).args_eq

theorem isConstant :
    (fun k => (g'.node k).isConstant) = fun k => (g.node k).isConstant :=
  funext fun k => (h.node k).isConstant_eq

/-! ## Plans -/

theorem visit : Collection.visit g' = Collection.visit g := by
  have he : g'.sameEdge = g.sameEdge := by
    funext e f
    rw [sameEdge, sameEdge, h.sameNode]
  have hr : g'.representative = g.representative := by
    funext nets n
    rw [representative, representative, h.sameNet]
  funext k c n
  rw [Collection.visit, Collection.visit, hr, he]

theorem edges : g'.edges = g.edges := by
  have hc : ∀ steps c, collect g' steps c = collect g steps c := by
    intro steps
    induction steps with
    | zero => exact fun _ => rfl
    | succ steps ih =>
      intro c
      rw [collect, collect]
      split
      · rfl
      · rw [h.visit, (h.node _).args_eq, ih]
  funext roots
  rw [Graph.edges, Graph.edges, h.size, hc]

theorem netOf? : g'.netOf? = g.netOf? := by
  funext nodes k
  rw [Graph.netOf?, Graph.netOf?, h.args, h.sameNode]

theorem constantNets : g'.constantNets = g.constantNets := by
  funext nodes
  rw [Graph.constantNets, Graph.constantNets, h.isConstant, h.netOf?]

theorem nodeSteps : Schedule.nodeSteps g' = Schedule.nodeSteps g := by
  funext result? k r
  rw [Schedule.nodeSteps, Schedule.nodeSteps, (h.node k).isConstant_eq, (h.node k).args_eq]

theorem content (run : Instruction) :
    Schedule.content g' run = Schedule.content g run ∨ ∃ x y,
      Schedule.content g run = .constant x false ∧ Schedule.content g' run = .constant y false := by
  cases run with
  | fresh n => exact .inl rfl
  | existing k =>
    change g'.node k = g.node k ∨ ∃ x y, g.node k = .constant x false ∧ g'.node k = .constant y false
    have hn := h.node k
    generalize g.node k = n at hn
    generalize g'.node k = n' at hn
    cases hn with
    | same => exact .inl rfl
    | number => exact .inr ⟨_, _, rfl, rfl⟩

theorem isLoad :
    (fun s : Step => Schedule.isLoad (Schedule.content g' s.run)) =
      fun s => Schedule.isLoad (Schedule.content g s.run) := by
  funext s
  obtain hc | ⟨x, y, hx, hy⟩ := h.content s.run
  · rw [hc]
  · rw [hx, hy]
    rfl

theorem translated : Schedule.translated g' = Schedule.translated g := by
  funext s r
  rw [Schedule.translated, Schedule.translated]
  obtain hc | ⟨x, y, hx, hy⟩ := h.content s.run
  · rw [hc]
  · rw [hx, hy]
    rfl

theorem savedStep : Schedule.savedStep g' = Schedule.savedStep g := by
  funext loaded s state
  have hg : (Schedule.content g' s.run).args = (Schedule.content g s.run).args := by
    obtain hc | ⟨x, y, hx, hy⟩ := h.content s.run
    · rw [hc]
    · rw [hx, hy]
      rfl
  rw [Schedule.savedStep, Schedule.savedStep, h.translated, h.sameNet, hg]

theorem ofRoots (roots : List NodeId) :
    Plan.ofRoots g' roots = Plan.ofRoots g roots := by
  have ho : g'.executionOrder roots = g.executionOrder roots := by
    rw [executionOrder, executionOrder, sortEdges, sortEdges, h.edges, h.sameNode]
  have hl : Schedule.withLoads g' = Schedule.withLoads g := by
    funext order
    rw [Schedule.withLoads_eq, Schedule.withLoads_eq, h.nodeSteps, h.netOf?]
  have hs : Schedule.withSaves g' = Schedule.withSaves g := by
    funext steps consts
    have hd : Schedule.loadedNets g' steps = Schedule.loadedNets g steps := by
      rw [Schedule.loadedNets, Schedule.loadedNets]
      congr 1
      funext s
      rw [congrFun h.isLoad s]
    rw [Schedule.withSaves_eq, Schedule.withSaves_eq, h.savedStep, hd]
  have ht : Schedule.slots g' = Schedule.slots g := by
    funext consts steps
    rw [Schedule.slots, Schedule.slots, distinctNets, distinctNets, h.sameNet]
  rw [Plan.ofRoots, Plan.ofRoots, ho, h.constantNets, hl, hs, ht]

/-! ## Runs -/

theorem get? : Memory.get? g' = Memory.get? g := by
  funext m n
  rw [Memory.get?, Memory.get?, h.sameNet]

theorem set : Memory.set g' = Memory.set g := by
  funext m n w
  rw [Memory.set, Memory.set, h.sameNet]

theorem run (i : Interpretation) (steps : List Step) (m : Machine) :
    Machine.run i g' steps m = Machine.run i g steps m := by
  have hs : Machine.step i g' = Machine.step i g := by
    funext m s
    rw [Machine.step, Machine.step]
    obtain hc | ⟨x, y, hx, hy⟩ := h.content s.run
    · simp only [hc, Machine.perform, h.get?, h.set]
    · rw [hx, hy]
      rfl
  rw [Machine.run, Machine.run, hs]

end Graph.Variant

/-! ## Reading -/

namespace Target

variable {g g' : Graph} {t : Target}

theorem readItem_congr (h : t.readValue g' = t.readValue g) : t.readItem g' = t.readItem g := by
  funext d
  unfold Target.readItem
  split <;> simp only [h]

mutual

theorem read_congr (h : t.readValue g' = t.readValue g) : ∀ d, t.read g' d = t.read g d
  | .vector xs => by rw [Target.read, Target.read, readAll_congr h xs]
  | .tensor shape xs truths => by rw [Target.read, Target.read, readAll_congr h xs]
  | .quaternion w x y z => by
    rw [Target.read, Target.read, read_congr h w, read_congr h x, read_congr h y, read_congr h z]
  | .scalar (.plain n) => by rw [Target.read, Target.read]
  | .scalar (.traced v) => by rw [Target.read, Target.read, h]
  | .absent | .undefined | .text _ | .bytes _ | .list _ | .tuple _ | .set _ | .dict _ | .slice _
  | .bare _ | .net _ | .node _ | .routine _ | .target _ | .database _ | .relocation _ | .patch _ => by
    simp only [Target.read, readItem_congr h]

theorem readAll_congr (h : t.readValue g' = t.readValue g) : ∀ ds, t.readAll g' ds = t.readAll g ds
  | [] => by rw [Target.readAll, Target.readAll]
  | d :: ds => by rw [Target.readAll, Target.readAll, read_congr h d, readAll_congr h ds]

end

end Target

namespace Graph.Variant

variable {vars : NodeId → Prop} {g g' : Graph}

theorem readValue (h : g.Variant vars g') (t : Target) : t.readValue g' = t.readValue g := by
  funext v
  rw [Target.readValue, Target.readValue, h.get?]

theorem read (h : g.Variant vars g') (t : Target) (d : Datum) : t.read g' d = t.read g d :=
  Target.read_congr (h.readValue t) d

end Graph.Variant

end Patchwork
