import Patchwork.Proofs.Schedule.Registers

/-!
# The memory that a program leaves behind

From an order of execution to the memory at the end of a run. The nets that a program
keeps are those of its constants and of its steps, and in the end each of them holds its
value, whatever the values are, as long as they solve the equations of the operations and
the cells of the constants hold theirs at the start.
-/

namespace Patchwork

open Graph List

variable {n : Net} {plan : Plan}

/-! ## Nets of a plan -/

namespace Graph

variable {g : Graph} {roots order : List NodeId}

theorem exists_mapM_ok {α β : Type} {f : α → Except Fault β} {P : α → β → Prop} (l : List α)
    (h : ∀ x ∈ l, ∃ y, f x = .ok y ∧ P x y) :
    ∃ ys, l.mapM f = .ok ys ∧ (∀ x ∈ l, ∃ y ∈ ys, P x y) ∧ ∀ y ∈ ys, ∃ x ∈ l, P x y := by
  induction l with
  | nil => exact ⟨[], rfl, by simp, by simp⟩
  | cons x rest ih =>
    obtain ⟨⟨y, hy, hxy⟩, hs⟩ := forall_mem_cons.1 h
    obtain ⟨ys, hys, hl, hr⟩ := ih hs
    refine ⟨y :: ys, ?_, ?_, ?_⟩
    · rw [mapM_cons, hy, hys]
      rfl
    · refine forall_mem_cons.2 ⟨⟨y, mem_cons_self, hxy⟩, fun x' hx' => ?_⟩
      obtain ⟨y', hy', hxy'⟩ := hl x' hx'
      exact ⟨y', mem_cons_of_mem _ hy', hxy'⟩
    · refine forall_mem_cons.2 ⟨⟨x, mem_cons_self, hxy⟩, fun y' hy' => ?_⟩
      obtain ⟨x', hx', hxy'⟩ := hr y' hy'
      exact ⟨x', mem_cons_of_mem _ hx', hxy'⟩

theorem exists_constantNets (hr : g.Requests roots) (hh : g.Scheduled roots order) :
    ∃ consts, g.constantNets order = .ok consts ∧ (∀ k ∈ order, (g.node k).isConstant →
        ∃ n ∈ consts, g.sameNode n.source k) ∧
      ∀ n ∈ consts, ∃ k ∈ order, (g.node k).isConstant ∧
        g.sameNode n.source k ∧ ∃ j ∈ order, n ∈ (g.node j).args := by
  have hns : ∀ k ∈ order.filter fun k => (g.node k).isConstant, ∃ n, g.netOf? order k = some n ∧
      g.sameNode n.source k ∧ ∃ j ∈ order, n ∈ (g.node j).args := by
    intro k hk
    obtain ⟨hk, hc⟩ := mem_filter.1 hk
    obtain ht | ⟨-, j, hj, n, hn, hs⟩ := hh.used k hk
    · obtain ⟨a, ha⟩ := hr k ht
      simp [ha, Node.isConstant] at hc
    · obtain ⟨m, hm⟩ := exists_netOf? hj hn hs
      exact ⟨m, hm, mem_of_netOf? hm⟩
  obtain ⟨consts, ho, hl, hg⟩ : ∃ consts, g.constantNets order = .ok consts ∧
      (∀ k ∈ order.filter fun k => (g.node k).isConstant, ∃ n ∈ consts,
        g.sameNode n.source k ∧ ∃ j ∈ order, n ∈ (g.node j).args) ∧
      ∀ n ∈ consts, ∃ k ∈ order.filter fun k => (g.node k).isConstant,
        g.sameNode n.source k ∧ ∃ j ∈ order, n ∈ (g.node j).args := by
    refine exists_mapM_ok _ fun k hk => ?_
    obtain ⟨n, hn, he⟩ := hns k hk
    exact ⟨n, by rw [hn], he⟩
  refine ⟨consts, ho, fun k hk hc => ?_, ?_⟩
  · obtain ⟨n, hn, hs, -⟩ := hl k (mem_filter.2 ⟨hk, hc⟩)
    exact ⟨n, hn, hs⟩
  intro n hn
  obtain ⟨k, hk, hs⟩ := hg n hn
  obtain ⟨hk, hc⟩ := mem_filter.1 hk
  exact ⟨k, hk, hc, hs⟩

theorem distinctNets_fold (tr : g.Traced) (nets found : List Net)
    (h : Edges.Distinct g.sameNet found) :
    let all := nets.foldl (Edges.insert g.sameNet) found
    Edges.Distinct g.sameNet all ∧ (∀ n ∈ found, n ∈ all) ∧
      (∀ n ∈ nets, ∃ m ∈ all, g.sameNet n m) ∧ ∀ n ∈ all, n ∈ found ∨ n ∈ nets := by
  induction nets generalizing found with
  | nil => exact ⟨h, fun _ => id, by simp, fun _ => .inl⟩
  | cons n rest ih =>
    have eqv := equality_sameNet tr
    obtain ⟨hd, hk, hc, he⟩ := ih _ (Edges.distinct_insert eqv h n)
    refine ⟨hd, fun m hm => hk m (Edges.mem_insert_of_mem hm), ?_, ?_⟩
    · refine forall_mem_cons.2 ⟨?_, hc⟩
      obtain ⟨m, hm, hs⟩ := Edges.any_insert eqv found n
      exact ⟨m, hk m hm, hs⟩
    · intro m hm
      obtain hm | hm := he m hm
      · obtain hm | rfl := Edges.eq_or_mem_of_mem_insert hm
        · exact .inl hm
        · exact .inr mem_cons_self
      · exact .inr (mem_cons_of_mem _ hm)

theorem distinct_distinctNets (tr : g.Traced) (nets : List Net) :
    Edges.Distinct g.sameNet (g.distinctNets nets) := (distinctNets_fold tr nets [] .nil).1

theorem exists_distinctNets (tr : g.Traced) {nets : List Net} (h : n ∈ nets) :
    ∃ m ∈ g.distinctNets nets, g.sameNet n m := (distinctNets_fold tr nets [] .nil).2.2.1 n h

theorem mem_of_mem_distinctNets (tr : g.Traced) {nets : List Net}
    (h : n ∈ g.distinctNets nets) : n ∈ nets := by
  simpa using (distinctNets_fold tr nets [] .nil).2.2.2 n h

end Graph

namespace Schedule

variable {g : Graph} {i : Interpretation} {value : NodeId → Word} {roots order : List NodeId}
  {consts loaded : List Net}

theorem mem_netsOf_of_translated (loaded : List Net) {steps : List Step} {x : Step}
    (hx : x ∈ steps) (hn : ∀ regs, (translated g x regs).net = some n) (s : Saving) :
    n ∈ netsOf (emitted (savedStep g loaded) steps s).1 := by
  induction steps generalizing s with
  | nil => cases hx
  | cons y rest ih =>
    rw [emitted_cons, netsOf_append]
    obtain rfl | hx := mem_cons.1 hx
    · refine mem_append_left _ ?_
      have ho : n ∈ netsOf [translated g x s.registers] := by simp [netsOf, hn]
      rw [savedStep]
      split
      · exact ho
      · dsimp only
        split
        · rw [← singleton_append, netsOf_append]
          exact mem_append_left _ ho
        · exact ho
    · exact mem_append_right _ (ih hx _)

theorem mem_netsOf_of_loaded (loaded : List Net) (steps : List Step) (s : Saving)
    (h : n ∈ loadedNets g steps) : n ∈ netsOf (emitted (savedStep g loaded) steps s).1 := by
  obtain ⟨x, hx, hn⟩ := mem_filterMap.1 h
  split at hn
  · rename_i hl
    refine mem_netsOf_of_translated loaded hx (fun regs => ?_) s
    rw [translated]
    split
    · rename_i hr
      simp [hr, isLoad] at hl
    · rwa [if_pos hl]
  · cases hn

theorem mem_withLoads_of_root (order nodes : List NodeId) (r : Registers) {k : NodeId}
    (hk : k ∈ nodes) (hr : g.node k = .root n) :
    ∃ net, ⟨net, .existing k⟩ ∈ (emitted (nodeSteps g (g.netOf? order)) nodes r).1 := by
  induction nodes generalizing r with
  | nil => cases hk
  | cons j rest ih =>
    rw [emitted_cons]
    obtain rfl | hk := mem_cons.1 hk
    · rw [nodeSteps, if_neg (by simp [hr, Node.isConstant])]
      dsimp only
      split <;> exact ⟨_, mem_append_left _ (mem_append_right _ mem_cons_self)⟩
    · obtain ⟨net, hn⟩ := ih (nodeSteps g (g.netOf? order) j r).2 hk
      exact ⟨net, mem_append_right _ hn⟩

theorem mem_args_of_loaded (tr : g.Traced) (k : NodeId) (r : Registers)
    (h : n ∈ loadedNets g (nodeSteps g (g.netOf? order) k r).1) : n ∈ (g.node k).args := by
  have ho : ∀ net, loadedNets g [⟨net, .existing k⟩] = [] := by
    intro net
    have hl : isLoad (g.node k) = false := by
      cases hk : g.node k <;> simp [isLoad]
      exact absurd hk ((tr.wellFormed k).notLoad _ _ _)
    simp [loadedNets, content, hl]
  rw [nodeSteps] at h
  split at h
  · cases h
  · dsimp only at h
    split at h <;> rw [loadedNets_append, ho, append_nil] at h <;>
      exact mem_of_mem_loadedNets h

theorem exists_arg_of_loaded (tr : g.Traced) (nodes : List NodeId) (r : Registers)
    (h : n ∈ loadedNets g (emitted (nodeSteps g (g.netOf? order)) nodes r).1) :
    ∃ k ∈ nodes, n ∈ (g.node k).args := by
  induction nodes generalizing r with
  | nil => cases h
  | cons k rest ih =>
    rw [emitted_cons, loadedNets_append] at h
    obtain h | h := mem_append.1 h
    · exact ⟨k, mem_cons_self, mem_args_of_loaded tr k r h⟩
    · obtain ⟨j, hj, hn⟩ := ih _ h
      exact ⟨j, mem_cons_of_mem _ hj, hn⟩

/-! ## The memory that a program leaves behind -/

/-- What a plan is made of: an order of execution and the nets of its constants. -/
structure Plans (g : Graph) (roots order : List NodeId) (consts : List Net) (plan : Plan) :
    Prop where
  scheduled : g.Scheduled roots order
  constant : ∀ k ∈ order, (g.node k).isConstant = true →
    ∃ n ∈ consts, g.sameNode n.source k = true
  only : ∀ n ∈ consts, ∃ k ∈ order, (g.node k).isConstant = true ∧
    g.sameNode n.source k = true
  operand : ∀ n ∈ consts, ∃ j ∈ order, n ∈ (g.node j).args
  steps : plan.steps = withSaves g (withLoads g order) consts
  slots : plan.slots = slots g consts plan.steps

theorem exists_plan (tr : g.Traced) (hr : g.Requests roots) :
    ∃ plan order consts,
      Plan.ofRoots g roots = .ok plan ∧ Plans g roots order consts plan := by
  obtain ⟨order, hd, hs⟩ := exists_executionOrder tr hr
  obtain ⟨consts, hcs, hc, ho⟩ := exists_constantNets hr hs
  refine ⟨⟨withSaves g (withLoads g order) consts,
    slots g consts (withSaves g (withLoads g order) consts)⟩, order, consts, ?_,
    hs, hc, fun n hn => ?_, fun n hn => ?_, rfl, rfl⟩
  · rw [Plan.ofRoots, hd]
    simp only [bind, Except.bind, hcs]
    rfl
  · obtain ⟨k, hk, hcon, hm, -⟩ := ho n hn
    exact ⟨k, hk, hcon, hm⟩
  · obtain ⟨-, -, -, -, ha⟩ := ho n hn
    exact ha

theorem Plans.prepared (tr : g.Traced) (hp : Plans g roots order consts plan)
    {keys : List Net} (hs : keys.Perm plan.slots) :
    Prepared g order consts (loadedNets g (withLoads g order)) keys := by
  refine ⟨fun n hn => ?_, fun n hn => ?_, hp.constant⟩
  · obtain ⟨k, -, hk⟩ := exists_arg_of_loaded tr order {} hn
    exact ⟨n.cell, (tr.wellFormed k).typed n hk⟩
  · have he : n ∈ consts ++ netsOf plan.steps := by
      rw [hp.steps, withSaves_eq]
      exact mem_append_right _ (mem_netsOf_of_loaded _ _ _ hn)
    obtain ⟨m, hm, hsm⟩ := exists_distinctNets tr he
    refine ⟨m, hs.mem_iff.2 ?_, sameNode_symm tr hsm⟩
    rw [hp.slots]
    exact hm

/-- What a program leaves in memory: every cell has the value of its net, if the cells
of constants have it at the start. -/
theorem memory_of_runs (tr : g.Traced) (hr : g.Requests roots) (hi : i.ReadsOperands)
    (hp : Plans g roots order consts plan) (ho : Solved g i order value)
    {start finish : Machine} (hrn : Machine.Runs i g plan.steps start finish)
    (hks : (start.memory.map Prod.fst).Perm plan.slots)
    (hst : ∀ n ∈ consts, start.memory.Holds g value n) :
    finish.memory = start.memory.map fun c => (c.1, value c.1.source) := by
  have hs := hp.steps
  rw [withSaves_eq] at hs
  have hpp := hp.prepared tr hks
  have ht : Tracked g value consts (loadedNets g (withLoads g order))
      (start.memory.map Prod.fst) [] {} ⟨{}, consts⟩ consts start :=
    ⟨by simp, by simp, hst, fun _ => id, fun _ => id, by simp, rfl⟩
  rw [hs] at hrn
  obtain ⟨r, s, he⟩ := ht.run tr hr hi hp.scheduled hpp ho order rfl (fun _ => id) hrn
  have hh : ∀ c ∈ finish.memory, c.2 = value c.1.source := by
    intro c hc
    have hk : c.1 ∈ plan.slots := hks.mem_iff.1 (he.cells ▸ mem_map_of_mem hc)
    rw [hp.slots, slots] at hk
    have hn := mem_of_mem_distinctNets tr hk
    rw [hs] at hn
    exact he.holds c.1 hn c hc (sameNode_self g _)
  calc finish.memory = finish.memory.map fun c => (c.1, value c.1.source) := by
        conv_lhs => rw [← List.map_id finish.memory]
        exact map_congr_left fun c hc => Prod.ext rfl (hh c hc)
    _ = (finish.memory.map Prod.fst).map fun n => (n, value n.source) := by simp
    _ = start.memory.map fun c => (c.1, value c.1.source) := by simp [he.cells]

theorem Plans.exists_slot (tr : g.Traced) (hp : Plans g roots order consts plan)
    {k : NodeId} (hk : k ∈ roots) (hr : g.node k = .root n) : ∃ m ∈ plan.slots, g.sameNet n m := by
  obtain ⟨net, hs⟩ := mem_withLoads_of_root order order {} (hp.scheduled.root k hk) hr
  have hn : n ∈ netsOf plan.steps := by
    rw [hp.steps, withSaves_eq]
    refine mem_netsOf_of_translated _ hs (fun regs => ?_) _
    simp [translated, content, hr, saveStep]
  rw [hp.slots]
  exact exists_distinctNets tr (mem_append_right _ hn)

end Schedule

end Patchwork
