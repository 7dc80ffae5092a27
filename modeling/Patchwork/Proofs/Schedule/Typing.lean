import Patchwork.Database.Basic
import Patchwork.Proofs.Compilation
import Patchwork.Proofs.Schedule.Stencils

/-!
# Stencils get registers of the types that they declare

The name of a stencil ends in the types of the registers that it takes. The types in a load
come from the first tracker, those in a save from the second, and both take an empty register
for an integer, so a declared type may be wrong. It is right wherever it matters: a register
that is read later, before it is loaded again, has the declared type.

The types that registers and cells hold are found by running the program on types in place of
values. A stencil that finds a type other than the declared one gives a word that stands for
no type at all, and what a stencil with one operand leaves in the second register is chosen
anew at each step.
-/

namespace Patchwork

open Graph List

variable {args : List Net} {c : Bool} {o : Operation} {reg : Register}

/-! ## Types in place of values -/

def Word.ofType : Option Cell → Word
  | none => 0
  | some .int => 1
  | some .float => 2

def Machine.register (m : Machine) : Register → Word
  | .first => m.first
  | .second => m.second

/-- Stencils on types. An operation on operands of the types that it declares gives the
type of its result, and any other gives none. -/
def Interpretation.typing : Interpretation where
  result o cells first second :=
    if (∀ c ∈ cells[0]?, first = .ofType (some c)) ∧ ∀ c ∈ cells[1]?, second = .ofType (some c)
    then .ofType (o.result? cells) else .ofType none
  residue _ _ _ _ := .ofType none

theorem Interpretation.typing_readsOperands : typing.ReadsOperands := fun _ _ _ _ _ _ => by
  simp [typing]

namespace Graph

variable {g : Graph} {a b : NodeId}

def typeOf (g : Graph) (k : NodeId) : Word := .ofType (g.node k).cell?

theorem cell?_of_sameNode (wf : g.WellFormed) (h : g.sameNode a b) :
    (g.node a).cell? = (g.node b).cell? := by
  obtain ⟨-, -, h⟩ | hl := (sameNode_iff wf).1 h
  · exact cell?_of_agrees wf h
  · obtain rfl | ⟨x, y, hx, hy, hxy⟩ := sameLeaf_iff.1 hl
    · rfl
    · rw [hx, hy]
      exact congrArg some (Number.cell_of_same hxy)

theorem typeOf_congruent (wf : g.WellFormed) : g.Congruent g.typeOf :=
  fun _ _ h => congrArg Word.ofType (cell?_of_sameNode wf h)

theorem typeOf_source (wf : g.WellFormed) {k : NodeId} {n : Net} (hn : n ∈ (g.node k).args) :
    g.typeOf n.source = .ofType (some n.cell) := congrArg Word.ofType ((wf k).typed n hn)

theorem solved_typeOf (wf : g.WellFormed) (order : List NodeId) :
    Schedule.Solved g .typing order g.typeOf where
  congr := typeOf_congruent wf
  operation := by
    intro k _ o args c hk
    have hf : ∀ (j : Nat) (cell : Cell), (args.map Net.cell)[j]? = some cell →
        ((operands g.typeOf args)[j]?.map Prod.snd).getD 0 = .ofType (some cell) := by
      intro j cell hl
      rw [getElem?_map, Option.map_eq_some_iff] at hl
      obtain ⟨n, hn, rfl⟩ := hl
      have hm : n ∈ (g.node k).args := by
        rw [hk]
        exact mem_of_getElem? hn
      simp [operands, hn, typeOf_source wf hm]
    have hc : (operands g.typeOf args).map Prod.fst = args.map Net.cell := by
      simp [operands, Function.comp_def]
    rw [Interpretation.applied, hc, typeOf, hk]
    exact (if_pos ⟨hf 0, hf 1⟩).symm

end Graph

namespace Schedule

variable {g : Graph} {roots order done : List NodeId} {consts loaded keys held : List Net}
  {r : Registers} {s : Saving} {m m' : Machine} {k : NodeId} {n : Net}
  {steps tail xs ys : List Step}

/-! ## Live registers -/

/-- A register is live if it is read before it is loaded again. -/
def Live (g : Graph) (reg : Register) : List Step → Prop
  | [] => False
  | s :: rest => (content g s.run).reads reg = true ∨
      (content g s.run).fills reg = false ∧ Live g reg rest

/-- A step finds the types that it declares: every live register has the declared type,
and a load reads a cell of the type that it loads. -/
structure Fitting (g : Graph) (m : Machine) (s : Step) (after : List Step) : Prop where
  register : ∀ reg, Live g reg (s :: after) →
    ∃ c, (content g s.run).declares? reg = some c ∧ m.register reg = .ofType (some c)
  cell : ∀ n c reg types, s.net = some n → content g s.run = .load c reg types →
    m.memory.get? g n = some (.ofType (some c))

/-- Every step of a run finds the types that it declares; `tail` comes after the run. -/
def Safe (g : Graph) (tail : List Step) : List Step → Machine → Prop
  | [], _ => True
  | s :: rest, m => Fitting g m s (rest ++ tail) ∧
      ∀ residue, Safe g tail rest (m.step { Interpretation.typing with residue } g s)

theorem Safe.append (h : Safe g (ys ++ tail) xs m)
    (hn : ∀ m', Machine.Runs .typing g xs m m' → Safe g tail ys m') : Safe g tail (xs ++ ys) m := by
  induction xs generalizing m with
  | nil => exact hn m (.nil m)
  | cons x rest ih =>
    refine ⟨?_, fun residue => ih (h.2 residue) fun m' hr => hn m' (.cons residue hr)⟩
    rw [append_eq, append_assoc]
    exact h.1

theorem Safe.fitting {before after : List Step} {x : Step}
    (h : Safe g tail (before ++ x :: after) m) (hr : Machine.Runs .typing g before m m') :
    Fitting g m' x (after ++ tail) := by
  induction hr with
  | nil => exact h.1
  | cons residue _ ih => exact ih (h.2 residue)

/-! ## Trackers and types -/

/-- The first tracker knows the live registers. -/
def Known (g : Graph) (r : Registers) (steps : List Step) : Prop :=
  ∀ reg, Live g reg steps → ∃ n, r.get reg = some n

def Registers.Typed (g : Graph) (r : Registers) : Prop :=
  ∀ reg n, r.get reg = some n → (g.node n.source).cell? = some n.cell

/-- What the first tracker knows, the second knows too. -/
def Registers.Within (r r' : Registers) : Prop := ∀ reg n, r.get reg = some n → r'.get reg = some n

theorem Registers.get_set (r : Registers) (reg reg' : Register) (n : Net) :
    (r.set reg n).get reg' = if reg = reg' then some n else r.get reg' := by
  cases reg <;> cases reg' <;> rfl

theorem Registers.Typed.set (h : r.Typed g)
    (hn : (g.node n.source).cell? = some n.cell) : (r.set reg n).Typed g := by
  intro reg' n' hn'
  rw [Registers.get_set] at hn'
  split at hn'
  · cases hn'
    exact hn
  · exact h reg' n' hn'

theorem Registers.set_of_get (h : r.get reg = some n) : r.set reg n = r := by
  obtain ⟨first, second⟩ := r
  cases reg <;> cases h <;> rfl

theorem Registers.cells_get (reg : Register) (h : r.get reg = some n) :
    [r.cells.1, r.cells.2][reg.number]? = some n.cell := by
  cases reg <;> simp_all [Registers.get, Registers.cells, Register.number]

theorem Tracked.register_eq (h : Tracked g g.typeOf consts loaded keys done r s held m)
    (ht : r.Typed g) (hn : r.get reg = some n) : m.register reg = .ofType (some n.cell) := by
  rw [← ht reg n hn]
  cases reg with
  | first => exact h.first n hn
  | second => exact h.second n hn

/-! ## Loads -/

theorem emitted_loads (tr : g.Traced) (loaded : List Net) (ps : List (Net × Register))
    (r : Registers) (s : Saving) (hs : ∀ n ∈ loadedNets g (emitted loadOperand ps r).1,
      ∃ n' ∈ s.saved, g.sameNode n'.source n.source) :
    (emitted (savedStep g loaded) (emitted loadOperand ps r).1 s).1 =
      (emitted loadOperand ps r).1 := by
  induction ps generalizing r s with
  | nil => rfl
  | cons p rest ih =>
    obtain ⟨n, reg⟩ := p
    rw [emitted_cons] at hs ⊢
    rw [loadOperand] at hs ⊢
    split at hs
    · rw [if_pos ‹_›]
      exact ih _ s hs
    · rw [if_neg ‹_›]
      obtain ⟨ho, ht⟩ := savedStep_load tr loaded n.cell reg r.cells
        (hs n (by simp [loadedNets, content, isLoad]))
      simp only [singleton_append, emitted_cons, ho]
      rw [ih]
      intro n' hn'
      rw [ht]
      exact hs n' (by
        rw [loadedNets_append]
        exact mem_append_right _ hn')

theorem live_load {c : Cell} {reg' : Register} {types : Cell × Cell} {net : Option Net}
    (h : Live g reg' (⟨net, .fresh (.load c reg types)⟩ :: tail)) : reg ≠ reg' ∧ Live g reg' tail := by
  obtain h | ⟨hf, hl⟩ := h
  · cases h
  · exact ⟨by simpa [content, Node.fills] using hf, hl⟩

theorem Known.load {c : Cell} {types : Cell × Cell} {net : Option Net}
    (h : Known g (r.set reg n) tail) : Known g r (⟨net, .fresh (.load c reg types)⟩ :: tail) := by
  intro reg' hl
  obtain ⟨he, hl⟩ := live_load hl
  obtain ⟨n', hn'⟩ := h reg' hl
  rw [Registers.get_set, if_neg he] at hn'
  exact ⟨n', hn'⟩

theorem Known.loads (ps : List (Net × Register)) (r : Registers)
    (h : Known g (emitted loadOperand ps r).2 tail) :
    Known g r ((emitted loadOperand ps r).1 ++ tail) := by
  induction ps generalizing r with
  | nil => exact h
  | cons p rest ih =>
    rw [emitted_cons, loadOperand_snd] at h ⊢
    have hr := ih _ h
    rw [loadOperand]
    split
    · rw [Registers.set_of_get ‹_›] at hr ⊢
      exact hr
    · exact hr.load

/-- A load finds the types that it declares, if the tracker knows what is live after it. -/
theorem Tracked.fitting_load (h : Tracked g g.typeOf consts loaded keys done r s held m)
    (tr : g.Traced) (ht : r.Typed g) (hn : (g.node n.source).cell? = some n.cell)
    (hs : ∃ n' ∈ s.saved, g.sameNode n'.source n.source)
    (hc : ∃ n' ∈ keys, g.sameNet n' n) (hk : Known g (r.set reg n) tail) :
    Fitting g m ⟨some n, .fresh (.load n.cell reg r.cells)⟩ tail where
  register reg' hl := by
    obtain ⟨n', hn'⟩ := hk.load reg' hl
    exact ⟨n'.cell, Registers.cells_get reg' hn', h.register_eq ht hn'⟩
  cell := by
    rintro _ _ _ _ ⟨⟩ ⟨⟩
    obtain ⟨n', hn', hm⟩ := hs
    have hh := (h.holds n' (h.saved n' hn')).of_same tr hm
    rw [hh.get? (typeOf_congruent tr.wellFormed) (h.cells ▸ hc), Graph.typeOf, hn]

theorem Safe.loads (tr : g.Traced) (ps : List (Net × Register))
    (hp : ∀ p ∈ ps, (g.node p.1.source).cell? = some p.1.cell)
    (h : Tracked g g.typeOf consts loaded keys done r s held m) (ht : r.Typed g)
    (hl : ∀ n ∈ loadedNets g (emitted loadOperand ps r).1,
      (∃ n' ∈ s.saved, g.sameNode n'.source n.source) ∧ ∃ n' ∈ keys, g.sameNet n' n)
    (hk : Known g (emitted loadOperand ps r).2 tail) :
    Safe g tail (emitted loadOperand ps r).1 m := by
  induction ps generalizing r s held m with
  | nil => trivial
  | cons p rest ih =>
    obtain ⟨n, reg⟩ := p
    obtain ⟨hn, hr⟩ := forall_mem_cons.1 hp
    rw [emitted_cons] at hl hk ⊢
    rw [loadOperand_snd] at hl hk ⊢
    rw [loadOperand] at hl ⊢
    by_cases hh : r.get reg = some n
    · rw [if_pos hh, Registers.set_of_get hh] at *
      exact ih hr h ht hl hk
    · rw [if_neg hh] at hl ⊢
      obtain ⟨hs, hc⟩ := hl n (by simp [loadedNets, content, isLoad])
      obtain ⟨ho, ha⟩ := savedStep_load tr loaded n.cell reg r.cells hs
      refine ⟨h.fitting_load tr ht hn hs hc (Known.loads rest _ hk), fun residue => ?_⟩
      have hst := Machine.Runs.cons residue (.nil (m.step { Interpretation.typing with residue } g
        ⟨some n, .fresh (.load n.cell reg r.cells)⟩))
      have hm := h.load tr (typeOf_congruent tr.wellFormed) hs hc (ho ▸ hst)
      refine ih hr hm (ht.set hn) (fun n' hn' => ha.symm ▸ hl n' ?_) hk
      rw [loadedNets_append]
      exact mem_append_right _ hn'

/-! ## Operations and requests -/

theorem live_save {regs : Registers}
    (h : Live g reg (saveStep n regs args :: tail)) : reg = .first ∨ Live g reg tail := by
  obtain h | ⟨-, h⟩ := h
  · exact .inl (by simpa [saveStep, content, Node.reads] using h)
  · exact .inr h

/-- After an operation the second tracker has its result and its second operand, and the save
of the result declares their types. -/
theorem savedStep_operation_registers
    (loaded : List Net) (n : Net) (s : Saving) (hk : g.node k = .apply o args c) :
    ∃ regs : Registers, regs.first = some n ∧ (∀ a, args[1]? = some a → regs.second = some a) ∧
      (savedStep g loaded ⟨some n, .existing k⟩ s).2.registers = regs ∧
      ∃ saves, (savedStep g loaded ⟨some n, .existing k⟩ s).1 = ⟨none, .existing k⟩ :: saves ∧
        (saves = [] ∨ saves = [saveStep n regs []]) := by
  obtain ⟨second, hs, ho⟩ : ∃ second, (∀ a, args[1]? = some a → second = some a) ∧
      savedStep g loaded ⟨some n, .existing k⟩ s =
        if loaded.any (g.sameNet n) && !s.saved.any (g.sameNet n) then
          ([⟨none, .existing k⟩, saveStep n ⟨some n, second⟩ []], ⟨⟨some n, second⟩, n :: s.saved⟩)
        else ([⟨none, .existing k⟩], ⟨⟨some n, second⟩, s.saved⟩) := by
    simp only [savedStep, translated, content, hk, Node.args, isLoad]
    refine ⟨_, fun a ha => ?_, rfl⟩
    obtain _ | ⟨b, _ | ⟨b', rest⟩⟩ := args
    · cases ha
    · cases ha
    · simpa using ha
  rw [ho]
  refine ⟨⟨some n, second⟩, rfl, hs, ?_, ?_⟩
  · split <;> rfl
  · split
    · exact ⟨_, rfl, .inr rfl⟩
    · exact ⟨_, rfl, .inl rfl⟩

theorem Tracked.step_operation (h : Tracked g g.typeOf consts loaded keys done r s held m)
    (tr : g.Traced) (hk : g.node k = .apply o args c)
    (hn : g.sameNode n.source k) (hi : ∀ reg a, args[reg.number]? = some a → r.get reg = some a)
    (residue : Operation → List Cell → Word → Word → Word) :
    (m.step { Interpretation.typing with residue } g ⟨none, .existing k⟩).first =
      g.typeOf n.source := by
  have hr := Interpretation.typing_readsOperands.result_eq ((tr.wellFormed k).covered o args c hk)
    (fun a ha => h.first a (hi .first a ha)) (fun a ha => h.second a (hi .second a ha))
  have hs := solved_typeOf tr.wellFormed [k]
  rw [hs.congr _ _ hn, hs.operation k (by simp) o args c hk, ← hr]
  simp [Machine.step, Machine.perform, content, hk]

/-- An operation finds the types that it declares, and so does the save of its result. -/
theorem Safe.operation (h : Tracked g g.typeOf consts loaded keys done r s held m)
    (tr : g.Traced) (ht : r.Typed g) (hk : g.node k = .apply o args c) (hn : g.sameNode n.source k)
    (hc : (g.node n.source).cell? = some n.cell)
    (hi : ∀ reg a, args[reg.number]? = some a → r.get reg = some a)
    (hw : Known g { first := some n, second := if args.length < 2 then none else r.second } tail) :
    Safe g tail (savedStep g loaded ⟨some n, .existing k⟩ s).1 m ∧
      Known g r ((savedStep g loaded ⟨some n, .existing k⟩ s).1 ++ tail) := by
  obtain ⟨regs, hg, hg', -, saves, ho, hs⟩ := savedStep_operation_registers loaded n s hk
  rw [ho]
  -- A register that is live after the operation has the result, or is the second of two operands.
  have hd : Live g .second tail → ∃ a, args[1]? = some a := by
    intro hv
    obtain ⟨n', hn'⟩ := hw .second hv
    by_cases hl : args.length < 2
    · simp [Registers.get, hl] at hn'
    · exact ⟨_, getElem?_eq_getElem (Nat.lt_of_lt_of_le Nat.one_lt_two (Nat.not_lt.1 hl))⟩
  have hf : Live g .second (saves ++ tail) → Live g .second tail := by
    obtain rfl | rfl := hs
    · exact id
    · exact fun hv => (live_save hv).resolve_left (by simp)
  have hv : ∀ reg, Live g reg (⟨none, .existing k⟩ :: (saves ++ tail)) →
      ∃ a, args[reg.number]? = some a := by
    intro reg hv
    obtain he | ⟨-, hv⟩ := hv
    · have hlt : reg.number < args.length := by simpa [content, hk, Node.reads] using he
      exact ⟨_, getElem?_eq_getElem hlt⟩
    · cases reg with
      | second => exact hd (hf hv)
      | first =>
        have hl := Operation.length_of_result ((tr.wellFormed k).covered o args c hk)
        rw [length_map] at hl
        exact ⟨_, getElem?_eq_getElem (show 0 < args.length by omega)⟩
  refine ⟨⟨⟨fun reg hr => ?_, ?_⟩, fun residue => ?_⟩, fun reg hr => ?_⟩
  · obtain ⟨a, ha⟩ := hv reg hr
    refine ⟨a.cell, ?_, h.register_eq ht (hi reg a ha)⟩
    simp [content, hk, Node.declares?, Node.declared, ha]
  · rintro _ _ _ _ ⟨⟩
  · obtain rfl | rfl := hs
    · trivial
    refine ⟨⟨fun reg hr => ?_, ?_⟩, fun _ => trivial⟩
    · cases reg with
      | first =>
        refine ⟨n.cell, Registers.cells_get .first hg, ?_⟩
        rw [Machine.register, h.step_operation tr hk hn hi residue, Graph.typeOf, hc]
      | second =>
        obtain ⟨a, ha⟩ := hd ((live_save hr).resolve_left (by simp))
        refine ⟨a.cell, Registers.cells_get .second (hg' a ha), ?_⟩
        rw [← h.register_eq ht (hi .second a ha)]
        have hl : ¬ args.length < 2 := Nat.not_lt.2 (List.getElem?_eq_some_iff.1 ha).1
        simp [Machine.register, Machine.step, Machine.perform, content, hk, hl]
    · rintro _ _ _ _ - ⟨⟩
  · obtain ⟨a, ha⟩ := hv reg hr
    exact ⟨a, hi reg a ha⟩

theorem Registers.Typed.result (h : r.Typed g) (hn : (g.node n.source).cell? = some n.cell)
    (args : List Net) :
    Registers.Typed g { first := some n, second := if args.length < 2 then none else r.second } := by
  intro reg n' hn'
  cases reg with
  | first =>
    cases hn'
    exact hn
  | second =>
    split at hn'
    · cases hn'
    · exact h .second n' hn'

theorem Registers.within_result (hk : g.node k = .apply o args c)
    (hi : ∀ reg a, args[reg.number]? = some a → r.get reg = some a) :
    Registers.Within { first := some n, second := if args.length < 2 then none else r.second }
      (savedStep g loaded ⟨some n, .existing k⟩ s).2.registers := by
  obtain ⟨regs, hr, hr', hs, -⟩ := savedStep_operation_registers loaded n s hk
  rw [hs]
  intro reg n' hn'
  cases reg with
  | first => exact hr.trans hn'
  | second =>
    simp only [Registers.get] at hn' ⊢
    split at hn'
    · cases hn'
    · have ha := getElem?_eq_getElem (show 1 < args.length by omega)
      rw [hr' _ ha, ← hn']
      exact (hi .second _ ha).symm

/-- The save of a request finds the types that it declares. -/
theorem Safe.request (h : Tracked g g.typeOf consts loaded keys done r s held m)
    (ht : r.Typed g) (hi : r.Within s.registers) (hk : g.node k = .root n)
    (hf : r.first = some n) (hw : Known g r tail) :
    Safe g tail (savedStep g loaded ⟨none, .existing k⟩ s).1 m ∧
      Known g r ((savedStep g loaded ⟨none, .existing k⟩ s).1 ++ tail) := by
  have ho : (savedStep g loaded ⟨none, .existing k⟩ s).1 = [saveStep n s.registers [n]] := by
    simp [savedStep, translated, content, hk]
  have hl : Known g r (saveStep n s.registers [n] :: tail) := by
    intro reg hr
    obtain rfl | hr := live_save hr
    · exact ⟨n, hf⟩
    · exact hw reg hr
  rw [ho]
  refine ⟨⟨⟨fun reg hr => ?_, ?_⟩, fun _ => trivial⟩, hl⟩
  · obtain ⟨n', hn'⟩ := hl reg hr
    exact ⟨n'.cell, Registers.cells_get reg (hi reg n' hn'), h.register_eq ht hn'⟩
  · rintro _ _ _ _ - ⟨⟩

theorem Registers.Within.load_first (h : r.Within s.registers) (loaded : List Net) (n : Net) :
    (r.set .first n).Within (emitted (savedStep g loaded)
      (emitted loadOperand [(n, .first)] r).1 s).2.registers := by
  have hs : r.get .first ≠ some n → (emitted (savedStep g loaded)
      (emitted loadOperand [(n, .first)] r).1 s).2.registers = s.registers.set .first n := by
    intro hh
    simp only [emitted_cons, emitted_nil, loadOperand, if_neg hh, append_nil, savedStep,
      content, Node.args]
    split <;> rfl
  by_cases hh : r.get .first = some n
  · rw [Registers.set_of_get hh]
    simpa [loadOperand, hh] using h
  · rw [hs hh]
    intro reg n' hn'
    rw [Registers.get_set] at hn' ⊢
    split
    · rwa [if_pos ‹_›] at hn'
    · rw [if_neg ‹_›] at hn'
      exact h reg n' hn'

/-! ## Programs -/

theorem Safe.after_loads (tr : g.Traced) {own : Step}
    (hg : ∀ n ∈ args, (g.node n.source).cell? = some n.cell)
    (h : Tracked g g.typeOf consts loaded keys done r s held m) (ht : r.Typed g)
    (hl : ∀ n ∈ loadedNets g (loadOperands args r).1,
      (∃ n' ∈ s.saved, g.sameNode n'.source n.source) ∧ ∃ n' ∈ keys, g.sameNet n' n)
    (hw : ∀ held' m', Tracked g g.typeOf consts loaded keys done (loadOperands args r).2
        (emitted (savedStep g loaded) (loadOperands args r).1 s).2 held' m' →
      Safe g tail (savedStep g loaded own
          (emitted (savedStep g loaded) (loadOperands args r).1 s).2).1 m' ∧
        Known g (loadOperands args r).2 ((savedStep g loaded own
          (emitted (savedStep g loaded) (loadOperands args r).1 s).2).1 ++ tail)) :
    Safe g tail (emitted (savedStep g loaded) ((loadOperands args r).1 ++ [own]) s).1 m ∧
      Known g r ((emitted (savedStep g loaded) ((loadOperands args r).1 ++ [own]) s).1 ++ tail) := by
  rw [loadOperands_eq] at *
  have ho := emitted_loads tr loaded _ r s fun n hn => (hl n hn).1
  have ha : ∀ m', Machine.Runs .typing g
      (emitted loadOperand (args.zip [Register.first, Register.second]) r).1 m m' → _ :=
    fun m' hr => hw _ m' (h.loads tr (typeOf_congruent tr.wellFormed) _ hl (ho.symm ▸ hr))
  obtain ⟨-, hk⟩ := ha _ (Machine.runs_run _ _ _ m)
  rw [emitted_append, ho, emitted_cons, emitted_nil, append_nil]
  refine ⟨Safe.append (Safe.loads tr _ ?_ h ht hl hk) fun m' hr => (ha m' hr).1, ?_⟩
  · exact fun p hp => hg p.1 (of_mem_zip hp).1
  · rw [append_assoc]
    exact Known.loads _ r hk

theorem Registers.Typed.loads (h : r.Typed g)
    (hg : ∀ n ∈ args, (g.node n.source).cell? = some n.cell) : (loadOperands args r).2.Typed g := by
  rw [loadOperands_eq]
  match args with
  | [] => exact h
  | [a] => simpa [loadOperand_snd] using h.set (hg a (by simp))
  | a :: b :: rest =>
    simpa [loadOperand_snd] using (h.set (hg a (by simp))).set (hg b (by simp))

/-- The steps of a node find the types that they declare, and the trackers stay right
about types. -/
theorem Safe.node (tr : g.Traced) (hrts : g.Requests roots) (hc : g.Scheduled roots order)
    (hpp : Prepared g order consts loaded keys) {rest : List NodeId}
    (hp : order = done ++ k :: rest)
    (h : Tracked g g.typeOf consts loaded keys done r s held m) (ht : r.Typed g)
    (hi : r.Within s.registers)
    (hl : ∀ n ∈ loadedNets g (nodeSteps g (g.netOf? order) k r).1, n ∈ loaded) :
    (nodeSteps g (g.netOf? order) k r).2.Typed g ∧ (nodeSteps g (g.netOf? order) k r).2.Within
        (emitted (savedStep g loaded) (nodeSteps g (g.netOf? order) k r).1 s).2.registers ∧
      ∀ tail, Known g (nodeSteps g (g.netOf? order) k r).2 tail →
        Safe g tail (emitted (savedStep g loaded) (nodeSteps g (g.netOf? order) k r).1 s).1 m ∧
        Known g r
          ((emitted (savedStep g loaded) (nodeSteps g (g.netOf? order) k r).1 s).1 ++ tail) := by
  have hk : k ∈ order := by simp [hp]
  have hgs : ∀ n ∈ (g.node k).args, (g.node n.source).cell? = some n.cell := (tr.wellFormed k).typed
  have ht' := ht.loads hgs
  obtain ⟨hf, hd⟩ := loadOperands_registers (g.node k).args r
  have hs : ∀ (own : Step) (r' : Registers),
      nodeSteps g (g.netOf? order) k r = ((loadOperands (g.node k).args r).1 ++ [own], r') →
      ∀ n ∈ loadedNets g (loadOperands (g.node k).args r).1,
        (∃ n' ∈ s.saved, g.sameNode n'.source n.source) ∧ ∃ n' ∈ keys, g.sameNet n' n := by
    intro own r' heq n hn
    refine h.saved_operand tr hc hpp hp (hl n ?_) (mem_of_mem_loadedNets hn)
    rw [heq, loadedNets_append]
    exact mem_append_left _ hn
  obtain ⟨-, hno⟩ | ⟨a, ha, heq⟩ | ⟨o, args, c, n, ho, hn, heq⟩ := nodeSteps_cases tr hrts hc hk r
  · rw [hno]
    exact ⟨ht, hi, fun tail hw => ⟨trivial, hw⟩⟩
  · have hi' : (loadOperands (g.node k).args r).2.Within (emitted (savedStep g loaded)
        (loadOperands (g.node k).args r).1 s).2.registers := by
      have hld := hi.load_first (g := g) loaded a
      rw [loadOperands_eq, ha]
      simpa [Node.args, loadOperand_snd] using hld
    rw [heq]
    refine ⟨ht', ?_, fun tail hw => ?_⟩
    · rw [emitted_append, emitted_cons, emitted_nil]
      simpa [savedStep] using hi'
    · exact Safe.after_loads tr hgs h ht (hs _ _ heq) fun held' m' hr =>
        Safe.request hr ht' hi' ha (hf a (by simp [ha, Node.args])) hw
  · obtain ⟨hnk, i, -, hni⟩ := mem_of_netOf? hn
    have he := (tr.wellFormed i).typed n hni
    have hnodeArgs : (g.node k).args = args := by
      rw [ho]
      rfl
    have hs' := hs _ _ heq
    rw [hnodeArgs] at heq hgs ht' hf hd hs'
    have hin : ∀ (reg : Register) a, args[reg.number]? = some a →
        (loadOperands args r).2.get reg = some a := by
      intro reg a hg
      cases reg with
      | first => exact hf a hg
      | second => exact hd a hg
    rw [heq]
    refine ⟨ht'.result he args, ?_, fun tail hw => ?_⟩
    · rw [emitted_append, emitted_cons]
      exact Registers.within_result ho hin
    · exact Safe.after_loads tr hgs h ht hs' fun held' m' hr =>
        Safe.operation hr tr ht' ho hnk he hin hw

/-- The steps of all nodes find the types that they declare. -/
theorem Safe.run (tr : g.Traced) (hr : g.Requests roots) (hc : g.Scheduled roots order)
    (hp : Prepared g order consts loaded keys) (rest : List NodeId) (hs : order = done ++ rest)
    (h : Tracked g g.typeOf consts loaded keys done r s held m) (ht : r.Typed g)
    (hw : r.Within s.registers)
    (hl : ∀ n ∈ loadedNets g (emitted (nodeSteps g (g.netOf? order)) rest r).1, n ∈ loaded) :
    Safe g [] (emitted (savedStep g loaded)
        (emitted (nodeSteps g (g.netOf? order)) rest r).1 s).1 m ∧
      Known g r (emitted (savedStep g loaded)
        (emitted (nodeSteps g (g.netOf? order)) rest r).1 s).1 := by
  induction rest generalizing done r s held m with
  | nil => exact ⟨trivial, fun _ => False.elim⟩
  | cons k rest ih =>
    rw [emitted_cons, loadedNets_append] at hl
    rw [emitted_cons, emitted_append]
    have hl' : ∀ n ∈ loadedNets g (nodeSteps g (g.netOf? order) k r).1, n ∈ loaded :=
      fun n hn => hl n (mem_append_left _ hn)
    obtain ⟨ht', hw', hd⟩ := Safe.node tr hr hc hp hs h ht hw hl'
    have ha : ∀ m', Machine.Runs .typing g
        (emitted (savedStep g loaded) (nodeSteps g (g.netOf? order) k r).1 s).1 m m' → _ :=
      fun m' hrn => ih (by simpa using hs) (h.node tr hr Interpretation.typing_readsOperands hc hp
          (solved_typeOf tr.wellFormed order) hs hl' hrn) ht' hw'
        (fun n hn => hl n (mem_append_right _ hn))
    obtain ⟨-, hk⟩ := ha _ (Machine.runs_run _ _ _ m)
    obtain ⟨hf, hk'⟩ := hd _ hk
    refine ⟨Safe.append ?_ fun m' hrn => (ha m' hrn).1, hk'⟩
    rwa [append_nil]

/-! ## Type safety -/

def StartsTyped (g : Graph) (m : Memory) : Prop :=
  ∀ c ∈ m, (g.node c.1.source).isConstant = true → c.2 = .ofType (g.node c.1.source).cell?

/-- **Stencils get registers of the types that they declare.** Requests have a plan. All its
stencils are in the catalogue, so every database that defines those of the catalogue knows
them. Run on types, from any registers, with any layout of memory and any contents of the cells
but those of constants, every step finds the types that it declares. -/
theorem plan_type_safe (tr : g.Traced) (hroots : g.Requests roots) :
    ∃ plan, Plan.ofRoots g roots = .ok plan ∧
      (∀ x ∈ plan.steps, (content g x.run).Catalogued) ∧
      (∀ db : Database, (∀ e ∈ Catalogue.stencils, ∃ d ∈ db.definitions, d.1 = e.name) →
        ∀ x ∈ plan.steps, (db.definitions.any fun d => d.1 == (content g x.run).name) = true) ∧
      ∀ start : Machine, (start.memory.map Prod.fst).Perm plan.slots →
        StartsTyped g start.memory → ∀ before x after, plan.steps = before ++ x :: after →
          ∀ m, Machine.Runs .typing g before start m → Fitting g m x after := by
  obtain ⟨plan, order, consts, ho, hp⟩ := exists_plan tr hroots
  have ha : ∀ x ∈ plan.steps, (content g x.run).Catalogued :=
    fun x hx => hp.catalogued tr hroots hx
  refine ⟨plan, ho, ha, fun db hb x hx => ?_, ?_⟩
  · obtain ⟨e, he, hname, -⟩ := (ha x hx).listed
    obtain ⟨d, hd, hde⟩ := hb e he
    exact List.any_eq_true.2 ⟨d, hd, by simp [hde, hname]⟩
  intro start hy hr before x after hl m hu
  have hh : ∀ n ∈ consts, start.memory.Holds g g.typeOf n := by
    intro n hn c hc hs
    obtain ⟨k, -, hk, hs'⟩ := hp.only n hn
    refine hr c hc ?_
    rw [Graph.isConstant_of_sameNode tr.wellFormed hs,
      Graph.isConstant_of_sameNode tr.wellFormed hs', hk]
  have ht : Tracked g g.typeOf consts (loadedNets g (withLoads g order))
      (start.memory.map Prod.fst) [] {} ⟨{}, consts⟩ consts start :=
    ⟨by simp, by simp, hh, fun _ => id, fun _ => id, by simp, rfl⟩
  have hm : ∀ (reg : Register) n, Registers.get {} reg ≠ some n := by
    intro reg n
    cases reg <;> simp [Registers.get]
  obtain ⟨hf, -⟩ := Safe.run tr hroots hp.scheduled (hp.prepared tr hy) order rfl ht
    (fun reg n hn => absurd hn (hm reg n)) (fun reg n hn => absurd hn (hm reg n))
    (fun _ => id)
  have hsteps : plan.steps = (emitted (savedStep g (loadedNets g (withLoads g order)))
      (emitted (nodeSteps g (g.netOf? order)) order {}).1 ⟨{}, consts⟩).1 := hp.steps
  rw [← hsteps, hl] at hf
  simpa using hf.fitting hu

theorem sharedProduct_type_safe :
    sharedProduct.Traced ∧ sharedProduct.Requests [4, 5] ∧
      ∃ plan, Plan.ofRoots sharedProduct [4, 5] = .ok plan ∧
        (∀ x ∈ plan.steps, (content sharedProduct x.run).Catalogued) ∧
        (∀ db : Database, (∀ e ∈ Catalogue.stencils, ∃ d ∈ db.definitions, d.1 = e.name) →
          ∀ x ∈ plan.steps,
            (db.definitions.any fun d => d.1 == (content sharedProduct x.run).name) = true) ∧
        ∀ start : Machine, (start.memory.map Prod.fst).Perm plan.slots →
          StartsTyped sharedProduct start.memory →
          ∀ before x after, plan.steps = before ++ x :: after →
            ∀ m, Machine.Runs .typing sharedProduct before start m →
              Fitting sharedProduct m x after := by
  have hr : sharedProduct.Requests [4, 5] := by
    simp [Graph.Requests, sharedProduct, Graph.node, Graph.push, Graph.empty]
  exact ⟨sharedProduct_traced, hr, plan_type_safe sharedProduct_traced hr⟩

end Schedule

end Patchwork
