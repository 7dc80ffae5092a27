import Patchwork.Proofs.Schedule.Plan
import Mathlib.Data.List.Induction

/-!
# A compiled program computes the values of its nets

What the values are is said by `Graph.Meaning`: constants have the values that their cells
start with, and every operation that the roots need is the same computation as one whose
value comes from the values of its operands. Such values exist, and a program leaves them
in memory. If the interpretation respects the operands that the graph exchanges, they are
the values of `Graph.evaluate`.
-/

namespace Patchwork

open Graph List

/-! ## Values -/

/-- The content of the cell of a node's net; equal nodes share one. -/
def Memory.valuation (g : Graph) (m : Memory) (k : NodeId) : Word :=
  ((m.find? fun cell => g.sameNode cell.1.source k).map Prod.snd).getD 0

/-- Values of the nodes that some roots need, up to equality of nodes: equal nodes have
one value, constants have the one given, and an operation has the one that an equal
operation computes from the values of its operands. -/
structure Graph.Meaning (g : Graph) (i : Interpretation) (v : NodeId → Word) (roots : List NodeId)
    (value : NodeId → Word) : Prop where
  congr : g.Congruent value
  constant : ∀ k, g.Below roots k → (g.node k).isConstant = true → value k = v k
  operation : ∀ k, g.Below roots k → (g.node k).isOperation = true →
    ∃ j o args c, g.sameNode k j = true ∧ g.node j = .apply o args c ∧
      value k = i.applied o (operands value args)

/-- What a run of a program comes to: the values of the nets to keep are in memory and
those of constants are as before, so the next run, from any registers, changes nothing. -/
structure Graph.Outcome (g : Graph) (i : Interpretation) (roots : List NodeId) (plan : Plan)
    (start finish : Machine) (value : NodeId → Word) : Prop where
  meaning : g.Meaning i (start.memory.valuation g) roots value
  memory : finish.memory = start.memory.map fun c => (c.1, value c.1.source)
  stored : ∀ r ∈ roots, ∀ n, g.node r = .root n → finish.memory.get? g n = some (value n.source)
  consts : ∀ n, (g.node n.source).isConstant = true →
    finish.memory.get? g n = start.memory.get? g n
  again : ∀ first second finish',
    Machine.Runs i g plan.steps ⟨first, second, finish.memory⟩ finish' →
    finish'.memory = finish.memory
  evaluated : g.Respected i → ∀ k, g.Below roots k →
    value k = g.evaluate i (start.memory.valuation g) k

namespace Schedule

variable {g : Graph} {i : Interpretation} {value v : NodeId → Word} {roots order : List NodeId}
  {consts : List Net} {m : Memory}

section

variable (tr : g.Traced)

include tr

theorem valuation_congruent (m : Memory) : g.Congruent (m.valuation g) := by
  intro a b ha
  have hs : (fun cell : Net × Word => g.sameNode cell.1.source a) =
      fun cell => g.sameNode cell.1.source b := by
    funext cell
    rw [sameNode_comm tr, sameNode_congr tr ha, sameNode_comm tr]
  rw [Memory.valuation, Memory.valuation, hs]

theorem valuation_eq (hi : Edges.Distinct g.sameNet (m.map Prod.fst))
    {c : Net × Word} (hc : c ∈ m) : m.valuation g c.1.source = c.2 := by
  have eqv := equality_sameNet tr
  rw [Memory.valuation]
  cases hf : m.find? fun cell => g.sameNode cell.1.source c.1.source with
  | none => simpa using find?_eq_none.1 hf c hc
  | some d =>
    have hd := mem_of_find?_eq_some hf
    have hs : g.sameNode d.1.source c.1.source := by simpa using find?_some hf
    have hk := hi.eq_of_same eqv (mem_map_of_mem hd) (mem_map_of_mem hc) hs
    have hn : (m.map Prod.fst).Nodup := hi.imp fun {x y} hx he => by
      rw [he, eqv.refl] at hx
      cases hx
    rw [inj_on_of_nodup_map hn hd hc hk]
    rfl

omit tr in
theorem not_same_of_split (hs : g.Scheduled roots order) {l rest : List NodeId} {k : NodeId}
    (hp : order = l ++ k :: rest) : ∀ j ∈ l, g.sameNode j k = false := by
  have hd := hs.distinct
  rw [Edges.Distinct, hp, pairwise_append] at hd
  exact fun j hj => hd.2.2 j hj k mem_cons_self

/-- Values that solve the equations along the beginning of an order; the next node gets
its value from theirs. -/
theorem exists_solved_append (hc : g.Scheduled roots order)
    {l rest : List NodeId} {k : NodeId} (hs : order = l ++ k :: rest) (ho : Solved g i l value) :
    ∃ value', Solved g i (l ++ [k]) value' ∧ ∀ j, (g.node j).isConstant → value' j = value j := by
  by_cases hop : (g.node k).isOperation
  swap
  · refine ⟨value, ⟨ho.congr, fun j hj o args c hd => ?_⟩, fun _ _ => rfl⟩
    obtain hj | hj := mem_append.1 hj
    · exact ho.operation j hj o args c hd
    · obtain rfl := mem_singleton.1 hj
      simp [hd, Node.isOperation] at hop
  obtain ⟨o, args, c, hk⟩ := tr.wellFormed.exists_apply hop
  -- The class of `k` gets the new value; what stands before is not in it.
  let value' : NodeId → Word := fun j =>
    if g.sameNode k j then i.applied o (Graph.operands value args) else value j
  have hl : ∀ j, (∃ j' ∈ l, g.sameNode j j') → value' j = value j := by
    rintro j ⟨j', hj', hm⟩
    refine if_neg ?_
    intro hkj
    have hf := not_same_of_split hc hs j' hj'
    rw [sameNode_symm tr (sameNode_trans tr hkj hm)] at hf
    cases hf
  have hp : ∀ l' j rest', order = l' ++ j :: rest' → (∀ x ∈ l', x ∈ l) →
      Graph.operands value' (g.node j).args = Graph.operands value (g.node j).args := by
    intro l' j rest' hs' hu
    refine map_congr_left fun n hn => ?_
    obtain ⟨x, hx, hm⟩ := hc.before l' j rest' hs' n hn
    rw [hl n.source ⟨x, hu x hx, hm⟩]
  refine ⟨value', ⟨fun a b ha => ?_, fun j hj p ys d hj' => ?_⟩, fun j hj => ?_⟩
  · dsimp only [value']
    rw [sameNode_comm tr k a, sameNode_comm tr k b, sameNode_congr tr ha, ho.congr a b ha]
  · obtain hj | hj := mem_append.1 hj
    · obtain ⟨l₁, l₂, rfl⟩ := append_of_mem hj
      have hg := hp l₁ j (l₂ ++ k :: rest) (by simpa using hs) (fun x hx => mem_append_left _ hx)
      rw [hj'] at hg
      rw [hl j ⟨j, hj, sameNode_self g j⟩, ho.operation j hj p ys d hj']
      exact congrArg _ hg.symm
    · obtain rfl := mem_singleton.1 hj
      have hg := hp l j rest hs (fun _ => id)
      rw [hk] at hj' hg
      cases hj'
      exact (if_pos (sameNode_self g j)).trans (congrArg _ hg.symm)
  · refine if_neg ?_
    intro hkj
    rw [← isConstant_of_sameNode tr.wellFormed hkj, hk] at hj
    cases hj

/-- The equations of the operations have a solution for given values of constants. -/
theorem exists_solved (i : Interpretation) (hc : g.Scheduled roots order) (hv : g.Congruent v) :
    ∃ value, Solved g i order value ∧ ∀ k, (g.node k).isConstant → value k = v k := by
  have hl : ∀ l rest, order = l ++ rest → ∃ value, Solved g i l value ∧
      ∀ k, (g.node k).isConstant → value k = v k := by
    intro l
    induction l using List.reverseRecOn with
    | nil => exact fun _ _ => ⟨v, ⟨hv, by simp⟩, fun _ _ => rfl⟩
    | append_singleton l k ih =>
      intro rest hs
      rw [append_assoc, singleton_append] at hs
      obtain ⟨value, ho, ha⟩ := ih _ hs
      obtain ⟨value', ho', ha'⟩ := exists_solved_append tr hc hs ho
      exact ⟨value', ho', fun k hk => (ha' k hk).trans (ha k hk)⟩
  exact hl order [] (by simp)

/-- The values of `Graph.evaluate` solve the equations, if the interpretation respects the
operands that the graph exchanges. -/
theorem solved_evaluate (hr : g.Respected i) (hv : g.Congruent v)
    (order : List NodeId) : Solved g i order (g.evaluate i v) where
  congr _ _ ha := evaluate_congr tr.wellFormed hr
    (fun a b hl => hv a b ((sameNode_iff tr.wellFormed).2 (.inr hl))) ha
  operation _ _ _ _ _ hk := evaluate_apply tr.wellFormed hk

/-! ## Programs -/

theorem exists_mem_order (hc : g.Scheduled roots order) {k : NodeId}
    (hk : g.Below roots k) : ∃ j ∈ order, g.sameNode k j := by
  have hg : ∀ j ∈ order, ∀ n ∈ (g.node j).args, ∃ x ∈ order, g.sameNode n.source x := by
    intro j hj n hn
    obtain ⟨l, rest, hp⟩ := append_of_mem hj
    obtain ⟨x, hx, hs⟩ := hc.before l j rest hp n hn
    exact ⟨x, hp ▸ mem_append_left _ hx, hs⟩
  induction hk with
  | root hr hn => exact hg _ (hc.root _ hr) _ hn
  | operand _ hn ih =>
    obtain ⟨j, hj, hs⟩ := ih
    obtain ⟨n', hn', hs'⟩ := exists_same_arg tr.wellFormed hs hn
    obtain ⟨x, hx, hs''⟩ := hg j hj n' hn'
    exact ⟨x, hx, sameNode_trans tr hs' hs''⟩

theorem Solved.meaning (hc : g.Scheduled roots order) (hs : Solved g i order value)
    (hv : ∀ k, (g.node k).isConstant → value k = v k) :
    g.Meaning i v roots value where
  congr := hs.congr
  constant k _ hk := hv k hk
  operation := by
    intro k hk ho
    obtain ⟨j, hj, hm⟩ := exists_mem_order tr hc hk
    rw [isOperation_of_sameNode tr.wellFormed hm] at ho
    obtain ⟨o, args, c, hn⟩ := tr.wellFormed.exists_apply ho
    exact ⟨j, o, args, c, hm, hn, (hs.congr k j hm).trans (hs.operation j hj o args c hn)⟩

theorem holds_of_valuation (hd : Edges.Distinct g.sameNet (m.map Prod.fst))
    (hv : ∀ k, (g.node k).isConstant → value k = m.valuation g k) {n : Net}
    (hn : (g.node n.source).isConstant) : m.Holds g value n := by
  intro c hc hm
  have hs := isConstant_of_sameNode tr.wellFormed hm
  rw [hv _ (hs.trans hn), valuation_eq tr hd hc]

/-- The values that a run leaves in memory: those of `Graph.evaluate` where the
interpretation allows, and else some solution of the equations. -/
theorem exists_values (i : Interpretation) (hs : g.Scheduled roots order) (hv : g.Congruent v) :
    ∃ value, Solved g i order value ∧ (∀ k, (g.node k).isConstant → value k = v k) ∧
      (g.Respected i → ∀ k, value k = g.evaluate i v k) := by
  by_cases hr : g.Respected i
  · refine ⟨g.evaluate i v, solved_evaluate tr hr hv order, fun k hk => ?_, fun _ _ => rfl⟩
    refine evaluate_leaf ?_
    cases hn : g.node k <;> simp_all [Node.isConstant, Node.isOperation]
  · obtain ⟨value, ho, ha⟩ := exists_solved tr i hs hv
    exact ⟨value, ho, ha, fun h => absurd h hr⟩

/-- Where all cells hold the values of their nets, the nets to keep are read as their
values. -/
theorem get?_of_memory {plan : Plan} (hp : Plans g roots order consts plan)
    (congr : g.Congruent value) {start finish : Memory} (hk : (start.map Prod.fst).Perm plan.slots)
    (he : finish = start.map fun c => (c.1, value c.1.source)) {r : NodeId} {n : Net}
    (hr : r ∈ roots) (hn : g.node r = .root n) : finish.get? g n = some (value n.source) := by
  subst he
  obtain ⟨m, hm, hs⟩ := hp.exists_slot tr hr hn
  refine Memory.Holds.get? congr ?_ ⟨m, ?_, sameNode_symm tr hs⟩
  · intro c hc _
    obtain ⟨c', -, rfl⟩ := mem_map.1 hc
    rfl
  · simpa using hk.mem_iff.2 hm

theorem outcome_of_runs (ht : g.Requests roots) (hi : i.ReadsOperands)
    {plan : Plan} (hp : Plans g roots order consts plan) {start finish : Machine}
    (hks : (start.memory.map Prod.fst).Perm plan.slots)
    (hrn : Machine.Runs i g plan.steps start finish) :
    ∃ value, g.Outcome i roots plan start finish value := by
  obtain ⟨value, hs, hv, he⟩ :=
    exists_values tr i hp.scheduled (valuation_congruent tr start.memory)
  have hd : Edges.Distinct g.sameNet (start.memory.map Prod.fst) := by
    refine hks.symm.pairwise ?_ fun {x y} hx => ?_
    · rw [hp.slots]
      exact distinct_distinctNets tr _
    · rw [Graph.sameNet, sameNode_comm tr]
      exact hx
  have hcst : ∀ n, (g.node n.source).isConstant → start.memory.Holds g value n :=
    fun n => holds_of_valuation tr hd hv
  have hst : ∀ n ∈ consts, start.memory.Holds g value n := by
    intro n hn
    obtain ⟨k, -, hk, hsm⟩ := hp.only n hn
    exact hcst n (isConstant_of_sameNode tr.wellFormed hsm ▸ hk)
  have hm := memory_of_runs tr ht hi hp hs hrn hks hst
  have hl : finish.memory.map Prod.fst = start.memory.map Prod.fst := by simp [hm]
  have hh : ∀ n, finish.memory.Holds g value n := by
    intro n c hc _
    rw [hm] at hc
    obtain ⟨c', -, rfl⟩ := mem_map.1 hc
    rfl
  refine ⟨value, hs.meaning tr hp.scheduled hv, hm,
    fun r hr n hn => get?_of_memory tr hp hs.congr hks hm hr hn, ?_, ?_, fun hres k _ => he hres k⟩
  · intro n hn
    have hf : (fun c : Net × Word => g.sameNet c.1 n) ∘
        (fun c : Net × Word => (c.1, value c.1.source)) = fun c => g.sameNet c.1 n := rfl
    rw [hm, Memory.get?, Memory.get?, find?_map, hf, Option.map_map]
    cases hcl : start.memory.find? fun c => g.sameNet c.1 n with
    | none => rfl
    | some c =>
      have hsm : g.sameNet c.1 n := by simpa using find?_some hcl
      exact congrArg some (hcst n hn c (mem_of_find?_eq_some hcl) hsm).symm
  · intro first second finish' hrn'
    have ha := memory_of_runs tr ht hi hp hs hrn' (hl ▸ hks) (fun n _ => hh n)
    rw [ha, hm]
    simp

end

/-- **Compilation preserves meaning.** Requests have a plan, and whatever the layout of
memory, the registers and the contents of cells at the start, every run of its steps leaves
the values of the nets to keep in their cells. The machine's own run is one of them. -/
theorem plan_computes (tr : g.Traced) (hroots : g.Requests roots) (hi : i.ReadsOperands) :
    ∃ plan, Plan.ofRoots g roots = .ok plan ∧ ∀ start : Machine,
      (start.memory.map Prod.fst).Perm plan.slots →
        Machine.Runs i g plan.steps start (Machine.run i g plan.steps start) ∧
        ∀ finish, Machine.Runs i g plan.steps start finish →
          ∃ value, g.Outcome i roots plan start finish value := by
  obtain ⟨plan, order, consts, ho, hp⟩ := exists_plan tr hroots
  exact ⟨plan, ho, fun start hk => ⟨Machine.runs_run i g plan.steps start,
    fun finish hr => outcome_of_runs tr hroots hi hp hk hr⟩⟩

/-- The product of two named consts and its sum with the first of them, both to be
kept. The product is needed twice. -/
def sharedProduct : Graph :=
  (((((Graph.empty.push (.constant (.float 2.0) false)).push (.constant (.float 3.0) false)).push
    (.apply .mul [⟨.float, 0⟩, ⟨.float, 1⟩] true)).push
    (.apply .add [⟨.float, 2⟩, ⟨.float, 0⟩] true)).push (.root ⟨.float, 3⟩)).push (.root ⟨.float, 2⟩)

theorem sharedProduct_traced : sharedProduct.Traced := traced_of_checks (fun _ => true) (by decide)

theorem sharedProduct_computes :
    sharedProduct.Traced ∧ sharedProduct.Requests [4, 5] ∧
      Interpretation.native.ReadsOperands ∧
      ∃ plan, Plan.ofRoots sharedProduct [4, 5] = .ok plan ∧ ∀ start : Machine,
        (start.memory.map Prod.fst).Perm plan.slots →
          Machine.Runs .native sharedProduct plan.steps start
            (Machine.run .native sharedProduct plan.steps start) ∧
          ∀ finish, Machine.Runs .native sharedProduct plan.steps start finish →
            ∃ value, sharedProduct.Outcome .native [4, 5] plan start finish value := by
  have hr : sharedProduct.Requests [4, 5] := by
    simp [Graph.Requests, sharedProduct, Graph.node, Graph.push, Graph.empty]
  exact ⟨sharedProduct_traced, hr, Interpretation.native_readsOperands,
    plan_computes sharedProduct_traced hr Interpretation.native_readsOperands⟩

end Schedule

end Patchwork
