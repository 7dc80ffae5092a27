import Patchwork.Machine.Run
import Patchwork.Proofs.Graph.Evaluation

/-!
# Memory and runs

A run is more than the function `Machine.run` tells: a stencil with one operand may leave
anything in the second register, and something else each time. `Machine.Runs` relates a
machine to all the machines that a program may leave behind.

Memory is spoken of relative to values: a cell holds the value of its net.
-/

namespace Patchwork

open List

variable {g : Graph} {value : NodeId → Word}

def Graph.Congruent (g : Graph) (value : NodeId → Word) : Prop :=
  ∀ a b, g.sameNode a b = true → value a = value b

/-! ## Memory -/

namespace Memory

variable {m : Memory} {n k : Net}

theorem map_fst_set (g : Graph) (m : Memory) (n : Net) (w : Word) :
    (m.set g n w).map Prod.fst = m.map Prod.fst := by
  rw [set, map_map]
  refine map_congr_left fun c _ => ?_
  simp only [Function.comp_apply]
  split <;> rfl

def Holds (g : Graph) (value : NodeId → Word) (n : Net) (m : Memory) : Prop :=
  ∀ c ∈ m, g.sameNet c.1 n = true → c.2 = value c.1.source

theorem Holds.of_same (tr : g.Traced) (h : m.Holds g value n) (hs : g.sameNet n k) :
    m.Holds g value k :=
  fun c hc hk => h c hc (Graph.sameNode_trans tr hk (Graph.sameNode_symm tr hs))

theorem mem_set {w : Word} {c : Net × Word} (h : c ∈ m.set g n w) :
    (g.sameNet c.1 n ∧ c.2 = w) ∨ (g.sameNet c.1 n = false ∧ c ∈ m) := by
  obtain ⟨c', hc', heq⟩ := mem_map.1 h
  split at heq
  · rename_i hn
    subst heq
    exact .inl ⟨hn, rfl⟩
  · rename_i hn
    subst heq
    exact .inr ⟨by simpa using hn, hc'⟩

theorem Holds.set (congr : g.Congruent value) (h : m.Holds g value k) (n : Net) :
    (m.set g n (value n.source)).Holds g value k := by
  intro c hc hk
  obtain ⟨hn, hw⟩ | ⟨_, hc⟩ := mem_set hc
  · rw [hw, congr _ _ hn]
  · exact h c hc hk

theorem holds_set (congr : g.Congruent value) (m : Memory) (n : Net) :
    (m.set g n (value n.source)).Holds g value n := by
  intro c hc hn
  obtain ⟨_, hw⟩ | ⟨he, _⟩ := mem_set hc
  · rw [hw, congr _ _ hn]
  · rw [hn] at he
    cases he

theorem Holds.get? (congr : g.Congruent value) (h : m.Holds g value n)
    (hl : ∃ k ∈ m.map Prod.fst, g.sameNet k n) : m.get? g n = some (value n.source) := by
  obtain ⟨k, hk, hn⟩ := hl
  obtain ⟨c, hc, rfl⟩ := mem_map.1 hk
  rw [Memory.get?]
  cases hf : m.find? fun cell => g.sameNet cell.1 n with
  | none => exact absurd hn (by simpa using find?_eq_none.1 hf c hc)
  | some d =>
    have hd := find?_some hf
    rw [Option.map_some, h d (mem_of_find?_eq_some hf) hd, congr _ _ hd]

end Memory

/-! ## Runs -/

namespace Machine

variable {i : Interpretation}

/-- What running some steps may end in. What a stencil with one operand leaves in the
second register is chosen anew at each step. -/
inductive Runs (i : Interpretation) (g : Graph) : List Step → Machine → Machine → Prop
  | nil (m : Machine) : Runs i g [] m m
  | cons (residue : Operation → List Cell → Word → Word → Word) {s : Step} {steps : List Step}
      {m m' : Machine} (h : Runs i g steps (m.step { i with residue } g s) m') :
      Runs i g (s :: steps) m m'

theorem runs_run (i : Interpretation) (g : Graph) (steps : List Step) (m : Machine) :
    Runs i g steps m (run i g steps m) := by
  induction steps generalizing m with
  | nil => exact .nil m
  | cons s rest ih => exact .cons i.residue (ih (m.step i g s))

theorem Runs.append {s t : List Step} {m m' : Machine} (h : Runs i g (s ++ t) m m') :
    ∃ mid, Runs i g s m mid ∧ Runs i g t mid m' := by
  induction s generalizing m with
  | nil => exact ⟨m, .nil m, h⟩
  | cons x rest ih =>
    cases h with
    | cons residue h =>
      obtain ⟨mid, hm, he⟩ := ih h
      exact ⟨mid, .cons residue hm, he⟩

end Machine

/-- A stencil with one operand does not read the second register. -/
def Interpretation.ReadsOperands (i : Interpretation) : Prop :=
  ∀ o c, (o.result? [c]).isSome → ∀ a b b', i.result o [c] a b = i.result o [c] a b'

theorem Interpretation.native_readsOperands : Interpretation.native.ReadsOperands := by
  intro o c h a b b'
  cases o with
  | cast t => cases t <;> cases c <;> cases h
  | _ => cases c <;> first | rfl | cases h

theorem Interpretation.ReadsOperands.result_eq {i : Interpretation} (hi : i.ReadsOperands)
    {o : Operation} {args : List Net} (hr : (o.result? (args.map Net.cell)).isSome)
    {first second : Word} (hf : ∀ n, args[0]? = some n → first = value n.source)
    (hs : ∀ n, args[1]? = some n → second = value n.source) :
    i.result o (args.map Net.cell) first second = i.applied o (Graph.operands value args) := by
  have hl := Operation.length_of_result hr
  rw [length_map] at hl
  match args, hl with
  | [x], _ =>
    rw [hf x rfl]
    exact hi o x.cell hr _ _ _
  | [x, y], _ =>
    rw [hf x rfl, hs y rfl]
    rfl

end Patchwork
