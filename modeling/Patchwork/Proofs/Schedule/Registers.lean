import Patchwork.Proofs.Machine.Run
import Patchwork.Proofs.Schedule.Edges
import Patchwork.Schedule.Plan

/-!
# Loads and saves are right

Two trackers decide about loads and saves. The first follows the registers, and what it
says about them is true of the machine: this needs that a loaded net has been saved
before. The second decides about saves, and what it says about registers may be wrong; it
only has to save every result that is loaded again. Both are followed in one invariant
along the order of execution, together with the machine.
-/

namespace Patchwork

open Graph List

namespace Schedule

/-! ## Putting out steps -/

section Emitted

variable {ι σ : Type} (f : ι → σ → List Step × σ)

/-- The steps that are put out along a list, and the state at its end. -/
def emitted (xs : List ι) (s : σ) : List Step × σ :=
  xs.foldl (fun state x => (state.1 ++ (f x state.2).1, (f x state.2).2)) ([], s)

theorem emitted_fold (xs : List ι) (out : List Step) (s : σ) :
    xs.foldl (fun state x => (state.1 ++ (f x state.2).1, (f x state.2).2)) (out, s) =
      (out ++ (emitted f xs s).1, (emitted f xs s).2) := by
  induction xs generalizing out s with
  | nil => simp [emitted]
  | cons x rest ih =>
    rw [emitted, foldl_cons, foldl_cons, ih, ih]
    simp

@[simp] theorem emitted_nil (s : σ) : emitted f [] s = ([], s) := rfl

@[simp] theorem emitted_cons (x : ι) (xs : List ι) (s : σ) :
    emitted f (x :: xs) s =
      ((f x s).1 ++ (emitted f xs (f x s).2).1, (emitted f xs (f x s).2).2) := by
  rw [emitted, foldl_cons, emitted_fold]
  simp

theorem emitted_append (xs ys : List ι) (s : σ) :
    emitted f (xs ++ ys) s = ((emitted f xs s).1 ++ (emitted f ys (emitted f xs s).2).1,
        (emitted f ys (emitted f xs s).2).2) := by
  induction xs generalizing s with
  | nil => simp
  | cons x rest ih => simp [ih]

end Emitted

variable {g : Graph} {i : Interpretation} {value : NodeId → Word} {roots order : List NodeId}
  {consts loaded keys held : List Net} {done : List NodeId} {r : Registers} {s : Saving}
  {m m' : Machine} {k : NodeId} {n : Net}

def loadedNets (g : Graph) (steps : List Step) : List Net :=
  steps.filterMap fun s => if isLoad (content g s.run) then s.net else none

def netsOf (steps : List Step) : List Net := steps.filterMap Step.net

def loadOperand (p : Net × Register) (r : Registers) : List Step × Registers :=
  if r.get p.2 = some p.1 then ([], r)
  else ([⟨some p.1, .fresh (.load p.1.cell p.2 r.cells)⟩], r.set p.2 p.1)

theorem loadOperands_eq (args : List Net) (r : Registers) :
    loadOperands args r = emitted loadOperand (args.zip [Register.first, Register.second]) r := by
  rw [loadOperands]
  congr
  funext state ⟨n, k⟩
  dsimp only [loadOperand]
  split <;> simp

theorem withLoads_eq (g : Graph) (order : List NodeId) :
    withLoads g order = (emitted (nodeSteps g (g.netOf? order)) order {}).1 := rfl

theorem withSaves_eq (g : Graph) (steps : List Step) (consts : List Net) :
    withSaves g steps consts =
      (emitted (savedStep g (loadedNets g steps)) steps ⟨{}, consts⟩).1 := rfl

/-- The invariant of a run: the first tracker is right about the registers, the nets in
`held` have their values in memory, and of the nodes done, those that are loaded have been
saved. -/
structure Tracked (g : Graph) (value : NodeId → Word) (consts loaded keys : List Net)
    (done : List NodeId) (r : Registers) (s : Saving) (held : List Net) (m : Machine) : Prop where
  first : ∀ n, r.first = some n → m.first = value n.source
  second : ∀ n, r.second = some n → m.second = value n.source
  holds : ∀ n ∈ held, m.memory.Holds g value n
  saved : ∀ n ∈ s.saved, n ∈ held
  kept : ∀ n ∈ consts, n ∈ s.saved
  available : ∀ k ∈ done, (∃ n ∈ loaded, g.sameNode n.source k = true) →
    ∃ n ∈ s.saved, g.sameNode n.source k = true
  cells : m.memory.map Prod.fst = keys

/-! ## Loads -/

theorem savedStep_load (tr : g.Traced) (loaded : List Net) (c : Cell) (reg : Register)
    (types : Cell × Cell) (hs : ∃ n' ∈ s.saved, g.sameNode n'.source n.source) :
    (savedStep g loaded ⟨some n, .fresh (.load c reg types)⟩ s).1 =
        [⟨some n, .fresh (.load c reg types)⟩] ∧
      (savedStep g loaded ⟨some n, .fresh (.load c reg types)⟩ s).2.saved = s.saved := by
  obtain ⟨n', hn', hm⟩ := hs
  have ha : s.saved.any (g.sameNet n) := any_eq_true.2 ⟨n', hn', sameNode_symm tr hm⟩
  simp [savedStep, translated, content, isLoad, ha]

/-- A load keeps the invariant and brings the net to its register. -/
theorem Tracked.load (h : Tracked g value consts loaded keys done r s held m) (tr : g.Traced)
    (congr : g.Congruent value) {c : Cell} {reg : Register} {types : Cell × Cell}
    (ha : ∃ n' ∈ s.saved, g.sameNode n'.source n.source) (hc : ∃ n' ∈ keys, g.sameNet n' n)
    (hr : Machine.Runs i g (savedStep g loaded ⟨some n, .fresh (.load c reg types)⟩ s).1 m m') :
    Tracked g value consts loaded keys done (r.set reg n)
      (savedStep g loaded ⟨some n, .fresh (.load c reg types)⟩ s).2 (held ++ [n]) m' := by
  obtain ⟨ho, hs⟩ := savedStep_load tr loaded c reg types ha
  rw [ho] at hr
  obtain ⟨n', hn', hsm⟩ := ha
  have hh : m.memory.Holds g value n := (h.holds n' (h.saved n' hn')).of_same tr hsm
  have hg := hh.get? congr (h.cells ▸ hc)
  obtain rfl : m' = m.setRegister reg (value n.source) := by
    cases hr with
    | cons residue hr =>
      cases hr
      simp [Machine.step, Machine.perform, content, hg]
  have hm : (m.setRegister reg (value n.source)).memory = m.memory := by cases reg <;> rfl
  refine ⟨?_, ?_, ?_, ?_, ?_, ?_, ?_⟩
  · intro n'' hn''
    cases reg with
    | first =>
      cases hn''
      rfl
    | second => exact h.first n'' hn''
  · intro n'' hn''
    cases reg with
    | first => exact h.second n'' hn''
    | second =>
      cases hn''
      rfl
  · rw [hm]
    intro n'' hn''
    obtain hn'' | hn'' := mem_append.1 hn''
    · exact h.holds n'' hn''
    · obtain rfl := mem_singleton.1 hn''
      exact hh
  · rw [hs]
    exact fun n'' hn'' => mem_append_left _ (h.saved n'' hn'')
  · rw [hs]
    exact h.kept
  · rw [hs]
    exact h.available
  · rw [hm]
    exact h.cells

theorem loadOperand_snd (n : Net) (reg : Register) (r : Registers) :
    (loadOperand (n, reg) r).2 = r.set reg n := by
  rw [loadOperand]
  split
  · rename_i hh
    obtain ⟨first, second⟩ := r
    cases reg <;> simp_all [Registers.get, Registers.set]
  · rfl

theorem loadedNets_append (g : Graph) (xs ys : List Step) :
    loadedNets g (xs ++ ys) = loadedNets g xs ++ loadedNets g ys := filterMap_append

theorem netsOf_append (xs ys : List Step) : netsOf (xs ++ ys) = netsOf xs ++ netsOf ys :=
  filterMap_append

/-- Loading operands keeps the invariant, if what has to be loaded has been saved. -/
theorem Tracked.loads (tr : g.Traced) (congr : g.Congruent value) (ps : List (Net × Register))
    (h : Tracked g value consts loaded keys done r s held m)
    (hl : ∀ n ∈ loadedNets g (emitted loadOperand ps r).1,
      (∃ n' ∈ s.saved, g.sameNode n'.source n.source) ∧ ∃ n' ∈ keys, g.sameNet n' n)
    (hr : Machine.Runs i g (emitted (savedStep g loaded) (emitted loadOperand ps r).1 s).1 m m') :
    Tracked g value consts loaded keys done (emitted loadOperand ps r).2
      (emitted (savedStep g loaded) (emitted loadOperand ps r).1 s).2
      (held ++ netsOf (emitted (savedStep g loaded) (emitted loadOperand ps r).1 s).1) m' := by
  induction ps generalizing r s held m with
  | nil =>
    cases hr
    simpa [netsOf] using h
  | cons p rest ih =>
    obtain ⟨n, reg⟩ := p
    rw [emitted_cons] at hr hl ⊢
    rw [loadOperand_snd] at hr hl ⊢
    by_cases hh : r.get reg = some n
    · have ho : loadOperand (n, reg) r = ([], r) := by rw [loadOperand, if_pos hh]
      have he : r.set reg n = r := by rw [← loadOperand_snd, ho]
      rw [ho, he] at hr hl ⊢
      exact ih h hl hr
    · have ho : (loadOperand (n, reg) r).1 =
          [⟨some n, .fresh (.load n.cell reg r.cells)⟩] := by rw [loadOperand, if_neg hh]
      rw [ho] at hr hl ⊢
      obtain ⟨hs, hc⟩ := hl n (by simp [loadedNets, content, isLoad])
      obtain ⟨hu, ht⟩ := savedStep_load tr loaded n.cell reg r.cells hs
      rw [singleton_append, emitted_cons] at hr ⊢
      obtain ⟨mid, hf, hrs⟩ := hr.append
      have hm := h.load tr congr hs hc hf
      have hd := ih hm (fun n' hn' => ht.symm ▸ hl n' (by
        rw [loadedNets_append]
        exact mem_append_right _ hn')) hrs
      rw [netsOf_append, ← append_assoc, hu]
      exact hd

theorem loadOperands_registers (args : List Net) (r : Registers) :
    (∀ n, args[0]? = some n → (loadOperands args r).2.first = some n) ∧
      ∀ n, args[1]? = some n → (loadOperands args r).2.second = some n := by
  rw [loadOperands_eq]
  match args with
  | [] => simp
  | [a] => simp [loadOperand_snd, Registers.set]
  | a :: b :: rest => simp [loadOperand_snd, Registers.set]

theorem mem_of_mem_loadedNets {args : List Net} {r : Registers}
    (h : n ∈ loadedNets g (loadOperands args r).1) : n ∈ args := by
  have hp : ∀ (ps : List (Net × Register)) (r : Registers),
      n ∈ loadedNets g (emitted loadOperand ps r).1 → ∃ reg, (n, reg) ∈ ps := by
    intro ps
    induction ps with
    | nil => simp [loadedNets]
    | cons p rest ih =>
      intro r hn
      rw [emitted_cons, loadedNets_append] at hn
      obtain hn | hn := mem_append.1 hn
      · rw [loadOperand] at hn
        split at hn
        · cases hn
        · obtain rfl : n = p.1 := by simpa [loadedNets, content, isLoad] using hn
          exact ⟨p.2, mem_cons_self⟩
      · obtain ⟨reg, hr⟩ := ih _ hn
        exact ⟨reg, mem_cons_of_mem _ hr⟩
  rw [loadOperands_eq] at h
  obtain ⟨reg, hr⟩ := hp _ _ h
  exact (of_mem_zip hr).1

/-! ## Operations and requests -/

theorem Tracked.save (h : Tracked g value consts loaded keys done r s held m)
    (congr : g.Congruent value) (hf : m.first = value n.source) :
    Tracked g value consts loaded keys done r s (held ++ [n])
      { m with memory := m.memory.set g n m.first } where
  first := h.first
  second := h.second
  holds := by
    rw [hf]
    intro n' hn'
    obtain hn' | hn' := mem_append.1 hn'
    · exact (h.holds n' hn').set congr n
    · obtain rfl := mem_singleton.1 hn'
      exact Memory.holds_set congr _ _
  saved n' hn' := mem_append_left _ (h.saved n' hn')
  kept := h.kept
  available := h.available
  cells := (Memory.map_fst_set _ _ _ _).trans h.cells

theorem Tracked.finish (h : Tracked g value consts loaded keys done r s held m)
    {s' : Saving} (hs : ∀ n ∈ s.saved, n ∈ s'.saved) (ha : ∀ n ∈ s'.saved, n ∈ held)
    (hk : (∃ n ∈ loaded, g.sameNode n.source k) → ∃ n ∈ s'.saved, g.sameNode n.source k) :
    Tracked g value consts loaded keys (done ++ [k]) r s' held m where
  first := h.first
  second := h.second
  holds := h.holds
  saved := ha
  kept n hn := hs n (h.kept n hn)
  available := by
    intro j hj hl
    obtain hj | hj := mem_append.1 hj
    · obtain ⟨n, hn, hm⟩ := h.available j hj hl
      exact ⟨n, hs n hn, hm⟩
    · obtain rfl := mem_singleton.1 hj
      exact hk hl
  cells := h.cells

theorem savedStep_operation (loaded : List Net) (n : Net) (s : Saving)
    (hk : (g.node k).isOperation) (hl : ∀ c reg held, g.node k ≠ .load c reg held) :
    (∃ regs, savedStep g loaded ⟨some n, .existing k⟩ s =
      ([⟨none, .existing k⟩, saveStep n regs []], ⟨regs, n :: s.saved⟩)) ∨
    ((loaded.any (g.sameNet n) → s.saved.any (g.sameNet n)) ∧
      ∃ regs, savedStep g loaded ⟨some n, .existing k⟩ s = ([⟨none, .existing k⟩], ⟨regs, s.saved⟩)) := by
  have ho : translated g ⟨some n, .existing k⟩ s.registers = ⟨none, .existing k⟩ := by
    cases hn : g.node k <;> simp_all [translated, content, isLoad, Node.isOperation]
  obtain ⟨regs, hr⟩ : ∃ regs, savedStep g loaded ⟨some n, .existing k⟩ s =
      if loaded.any (g.sameNet n) && !s.saved.any (g.sameNet n) then
        ([⟨none, .existing k⟩, saveStep n regs []], ⟨regs, n :: s.saved⟩)
      else ([⟨none, .existing k⟩], ⟨regs, s.saved⟩) := by
    rw [savedStep, ho]
    exact ⟨_, rfl⟩
  split at hr
  · exact .inl ⟨regs, hr⟩
  · rename_i hs
    exact .inr ⟨fun ha => by simpa [ha] using hs, regs, hr⟩

/-- An operation keeps the invariant: its result is in the first register, and in
memory if it is loaded later. -/
theorem Tracked.operation (h : Tracked g value consts loaded keys done r s held m)
    (tr : g.Traced) (congr : g.Congruent value) (hi : i.ReadsOperands) {o : Operation}
    {args : List Net} {c : Bool} (hk : g.node k = .apply o args c) (hn : g.sameNode n.source k)
    (hv : value k = i.applied o (Graph.operands value args))
    (hf : ∀ a, args[0]? = some a → r.first = some a)
    (hs : ∀ a, args[1]? = some a → r.second = some a)
    (hr : Machine.Runs i g (savedStep g loaded ⟨some n, .existing k⟩ s).1 m m') :
    Tracked g value consts loaded keys (done ++ [k])
      { first := some n, second := if args.length < 2 then none else r.second }
      (savedStep g loaded ⟨some n, .existing k⟩ s).2
      (held ++ netsOf (savedStep g loaded ⟨some n, .existing k⟩ s).1) m' := by
  have he : i.result o (args.map Net.cell) m.first m.second = value n.source := by
    rw [hi.result_eq ((tr.wellFormed k).covered o args c hk)
      (fun a ha => h.first a (hf a ha)) (fun a ha => h.second a (hs a ha)), ← hv, congr _ _ hn]
  -- The machine after the stencil, with the tracker as it was about saves.
  have ht : ∀ second, (¬ args.length < 2 → second = m.second) →
      Tracked g value consts loaded keys done
        { first := some n, second := if args.length < 2 then none else r.second } s held
        { m with first := value n.source, second } := by
    intro second hke
    refine ⟨?_, ?_, h.holds, h.saved, h.kept, h.available, h.cells⟩
    · rintro n' ⟨⟩
      rfl
    · intro n' hn'
      split at hn'
      · cases hn'
      · rename_i hl
        exact (hke hl).trans (h.second n' hn')
  have hp : ∀ residue, m.step { i with residue } g ⟨none, .existing k⟩ = { m with
        first := value n.source
        second := if args.length < 2 then residue o (args.map Net.cell) m.first m.second
          else m.second } := by
    simp [Machine.step, Machine.perform, content, hk, he]
  obtain ⟨regs, ho⟩ | ⟨hsav, regs, ho⟩ :=
    savedStep_operation loaded n s (by rw [hk]; rfl) (by simp [hk]) <;> rw [ho] at hr ⊢
  · cases hr with
    | cons residue hr =>
      cases hr with
      | cons residue' hr =>
        cases hr
        rw [hp]
        refine ((ht _ fun hl => if_neg hl).save congr rfl).finish ?_ ?_ ?_
        · exact fun n' => mem_cons_of_mem n
        · intro n' hn'
          obtain rfl | hn' := mem_cons.1 hn'
          · simp
          · exact mem_append_left _ (h.saved n' hn')
        · exact fun _ => ⟨n, mem_cons_self, hn⟩
  · cases hr with
    | cons residue hr =>
      cases hr
      rw [hp, show netsOf [⟨none, .existing k⟩] = [] from rfl, append_nil]
      refine (ht _ fun hl => if_neg hl).finish (fun _ => id) h.saved ?_
      rintro ⟨n', hn', hm⟩
      obtain ⟨n'', hn'', hm'⟩ := any_eq_true.1 (hsav (any_eq_true.2
        ⟨n', hn', sameNode_trans tr hn (sameNode_symm tr hm)⟩))
      exact ⟨n'', hn'', sameNode_trans tr (sameNode_symm tr hm') hn⟩

/-- A request keeps the invariant and its net in memory. -/
theorem Tracked.request (h : Tracked g value consts loaded keys done r s held m)
    (congr : g.Congruent value) (hk : g.node k = .root n) (hf : r.first = some n)
    (hu : ¬ ∃ n' ∈ loaded, g.sameNode n'.source k)
    (hr : Machine.Runs i g (savedStep g loaded ⟨none, .existing k⟩ s).1 m m') :
    Tracked g value consts loaded keys (done ++ [k]) r
      (savedStep g loaded ⟨none, .existing k⟩ s).2
      (held ++ netsOf (savedStep g loaded ⟨none, .existing k⟩ s).1) m' := by
  have ho : translated g ⟨none, .existing k⟩ s.registers = saveStep n s.registers [n] := by
    simp [translated, content, hk]
  rw [savedStep, ho] at hr ⊢
  cases hr with
  | cons residue hr =>
    cases hr
    refine (h.save congr (h.first n hf)).finish (fun _ => id) ?_ ?_
    · exact fun n' hn' => mem_append_left _ (h.saved n' hn')
    · exact fun hl => absurd hl hu

/-! ## Programs -/

/-- What a program knows about the nets it loads: they are typed, they have cells, and the
constants among its nodes are saved from the start. -/
structure Prepared (g : Graph) (order : List NodeId) (consts loaded keys : List Net) :
    Prop where
  typed : ∀ n ∈ loaded, ∃ cell, (g.node n.source).cell? = some cell
  cell : ∀ n ∈ loaded, ∃ n' ∈ keys, g.sameNet n' n = true
  constant : ∀ k ∈ order, (g.node k).isConstant = true →
    ∃ n ∈ consts, g.sameNode n.source k = true

/-- Values that solve the equations of the operations among some nodes. -/
structure Solved (g : Graph) (i : Interpretation) (order : List NodeId) (value : NodeId → Word) :
    Prop where
  congr : g.Congruent value
  operation : ∀ k ∈ order, ∀ o args c, g.node k = .apply o args c →
    value k = i.applied o (Graph.operands value args)

theorem Tracked.saved_operand (h : Tracked g value consts loaded keys done r s held m)
    (tr : g.Traced) (hc : g.Scheduled roots order)
    (hpp : Prepared g order consts loaded keys) {rest : List NodeId}
    (hp : order = done ++ k :: rest) (hn : n ∈ loaded) (ha : n ∈ (g.node k).args) :
    (∃ n' ∈ s.saved, g.sameNode n'.source n.source) ∧ ∃ n' ∈ keys, g.sameNet n' n := by
  obtain ⟨j, hj, hs⟩ := hc.before done k rest hp n ha
  obtain ⟨n', hn', hs'⟩ := h.available j hj ⟨n, hn, hs⟩
  exact ⟨⟨n', hn', sameNode_trans tr hs' (sameNode_symm tr hs)⟩, hpp.cell n hn⟩

/-- The steps of a node. A constant has none. Else the operands are loaded and the node follows,
with the net of its result if it is an operation. -/
theorem nodeSteps_cases (tr : g.Traced) (hr : g.Requests roots) (hs : g.Scheduled roots order)
    (hk : k ∈ order) (r : Registers) :
    ((g.node k).isConstant ∧ nodeSteps g (g.netOf? order) k r = ([], r)) ∨
    (∃ a, g.node k = .root a ∧ nodeSteps g (g.netOf? order) k r =
      ((loadOperands (g.node k).args r).1 ++ [⟨none, .existing k⟩],
        (loadOperands (g.node k).args r).2)) ∨
    ∃ o args c n, g.node k = .apply o args c ∧ g.netOf? order k = some n ∧
      nodeSteps g (g.netOf? order) k r =
        ((loadOperands (g.node k).args r).1 ++ [⟨some n, .existing k⟩],
          ⟨some n, if (g.node k).args.length < 2 then none
            else (loadOperands (g.node k).args r).2.second⟩) := by
  by_cases hc : (g.node k).isConstant
  · exact .inl ⟨hc, by rw [nodeSteps, if_pos hc]⟩
  obtain ht | ⟨⟨cell, hl⟩, j, hj, n', hn', hm⟩ := hs.used k hk
  · obtain ⟨a, ha⟩ := hr k ht
    exact .inr (.inl ⟨a, ha, by rw [nodeSteps, if_neg hc, netOf?_root tr ha]⟩)
  · obtain ⟨n, hn⟩ := exists_netOf? hj hn' hm
    obtain ⟨o, args, c, ho⟩ : ∃ o args c, g.node k = .apply o args c := by
      cases hd : g.node k <;> simp_all [Node.cell?, Node.isConstant]
    exact .inr (.inr ⟨o, args, c, n, ho, hn, by rw [nodeSteps, if_neg hc, hn]⟩)

/-- The steps of a node keep the invariant. -/
theorem Tracked.node (tr : g.Traced) (hrts : g.Requests roots) (hi : i.ReadsOperands)
    (hc : g.Scheduled roots order) (hpp : Prepared g order consts loaded keys)
    (hs : Solved g i order value) {rest : List NodeId} (hp : order = done ++ k :: rest)
    (h : Tracked g value consts loaded keys done r s held m)
    (hl : ∀ n ∈ loadedNets g (nodeSteps g (g.netOf? order) k r).1, n ∈ loaded)
    (hr : Machine.Runs i g
      (emitted (savedStep g loaded) (nodeSteps g (g.netOf? order) k r).1 s).1 m m') :
    Tracked g value consts loaded keys (done ++ [k]) (nodeSteps g (g.netOf? order) k r).2
      (emitted (savedStep g loaded) (nodeSteps g (g.netOf? order) k r).1 s).2
      (held ++ netsOf (emitted (savedStep g loaded) (nodeSteps g (g.netOf? order) k r).1 s).1)
      m' := by
  have hk : k ∈ order := by simp [hp]
  obtain ⟨hf, hd⟩ := loadOperands_registers (g.node k).args r
  -- The loads of a node, whatever step follows them.
  have hstp : ∀ (own : Step) (r' : Registers),
      nodeSteps g (g.netOf? order) k r = ((loadOperands (g.node k).args r).1 ++ [own], r') →
      ∃ s₁ held₁ mid, Tracked g value consts loaded keys done
          (loadOperands (g.node k).args r).2 s₁ held₁ mid ∧
        Machine.Runs i g (savedStep g loaded own s₁).1 mid m' ∧
        (emitted (savedStep g loaded) (nodeSteps g (g.netOf? order) k r).1 s).2 =
          (savedStep g loaded own s₁).2 ∧
        held ++ netsOf (emitted (savedStep g loaded) (nodeSteps g (g.netOf? order) k r).1 s).1 =
          held₁ ++ netsOf (savedStep g loaded own s₁).1 := by
    intro own r' heq
    rw [heq] at hr hl ⊢
    simp only [emitted_append, emitted_cons, emitted_nil, append_nil] at hr ⊢
    obtain ⟨mid, hlds, hw⟩ := hr.append
    rw [loadOperands_eq] at hlds hw hl ⊢
    refine ⟨_, _, mid, h.loads tr hs.congr _ ?_ hlds, hw, rfl, ?_⟩
    · intro n hn
      rw [← loadOperands_eq] at hn hl
      refine h.saved_operand tr hc hpp hp (hl n ?_) (mem_of_mem_loadedNets hn)
      rw [loadedNets_append]
      exact mem_append_left _ hn
    · rw [netsOf_append, append_assoc]
  obtain ⟨hcst, hno⟩ | ⟨a, ha, heq⟩ | ⟨o, args, c, n, ho, hn, heq⟩ :=
    nodeSteps_cases tr hrts hc hk r
  · rw [hno] at hr ⊢
    cases hr
    rw [emitted_nil, show netsOf [] = [] from rfl, append_nil]
    refine h.finish (fun _ => id) h.saved fun _ => ?_
    obtain ⟨n, hn, hm⟩ := hpp.constant k hk hcst
    exact ⟨n, h.kept n hn, hm⟩
  · obtain ⟨s₁, held₁, mid, ht, hw, hsta, hh⟩ := hstp _ _ heq
    rw [hsta, hh, heq]
    refine ht.request hs.congr ha (hf a (by simp [ha, Node.args])) ?_ hw
    rintro ⟨n, hn, hm⟩
    obtain ⟨cell, hcl⟩ := hpp.typed n hn
    rw [sameNode_root_eq_false tr ha hcl] at hm
    cases hm
  · obtain ⟨s₁, held₁, mid, ht, hw, hsta, hh⟩ := hstp _ _ heq
    rw [hsta, hh, heq]
    rw [ho] at hf hd ht ⊢
    exact ht.operation tr hs.congr hi ho (mem_of_netOf? hn).1
      (hs.operation k hk o args c ho) hf hd hw

/-- The steps of all nodes keep the invariant. -/
theorem Tracked.run (tr : g.Traced) (hr : g.Requests roots) (hi : i.ReadsOperands)
    (hc : g.Scheduled roots order) (hp : Prepared g order consts loaded keys)
    (ho : Solved g i order value) (rest : List NodeId) (hs : order = done ++ rest)
    (h : Tracked g value consts loaded keys done r s held m)
    (hl : ∀ n ∈ loadedNets g (emitted (nodeSteps g (g.netOf? order)) rest r).1, n ∈ loaded)
    (hrn : Machine.Runs i g (emitted (savedStep g loaded)
      (emitted (nodeSteps g (g.netOf? order)) rest r).1 s).1 m m') :
    ∃ r' s', Tracked g value consts loaded keys order r' s'
      (held ++ netsOf (emitted (savedStep g loaded)
        (emitted (nodeSteps g (g.netOf? order)) rest r).1 s).1) m' := by
  induction rest generalizing done r s held m with
  | nil =>
    cases hrn
    refine ⟨r, s, ?_⟩
    simpa [netsOf, hs] using h
  | cons k rest ih =>
    rw [emitted_cons, loadedNets_append] at hl
    rw [emitted_cons, emitted_append] at hrn ⊢
    obtain ⟨mid, hd, hrs⟩ := hrn.append
    have hm := h.node tr hr hi hc hp ho hs (fun n hn => hl n (mem_append_left _ hn)) hd
    obtain ⟨r', s', he⟩ := ih (by simpa using hs) hm (fun n hn => hl n (mem_append_right _ hn)) hrs
    refine ⟨r', s', ?_⟩
    rw [netsOf_append, ← append_assoc]
    exact he

end Schedule

end Patchwork
