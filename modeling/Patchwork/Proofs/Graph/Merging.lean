import Patchwork.Proofs.Compilation
import Patchwork.Target

/-!
# When merging equal nets is sound

Nets are merged if their nodes are equal, and anonymous constants are equal as numbers.
What a constant is stored as is its word, and one pair of equal numbers has two words: a
zero and a negative zero. A graph that has both as anonymous constants merges nets of
different values, and a graph that does not never does, under any interpretation.
-/

namespace Patchwork

namespace Graph

variable {g : Graph} {a b : NodeId}

/-- The word that a constant starts with; zero if it does not fit. -/
def startWord (g : Graph) (k : NodeId) : Word :=
  ((Target.startWord g ⟨.int, k⟩).toOption).getD 0

/-- A graph with a zero and a negative zero among its anonymous constants. -/
def HasOppositeZeros (g : Graph) : Prop :=
  ∃ j k x y, g.node j = .constant x true ∧ g.node k = .constant y true ∧ x.OppositeZeros y

theorem startWord_constant {x : Number} {anonymous : Bool} (h : g.node a = .constant x anonymous) :
    g.startWord a = ((Word.ofNumber x).toOption).getD 0 := by
  rw [startWord, Target.startWord, h]

theorem startWord_of_sameLeaf (hz : ¬ g.HasOppositeZeros) (h : g.sameLeaf a b) :
    g.startWord a = g.startWord b := by
  obtain rfl | ⟨x, y, hx, hy, hxy⟩ := sameLeaf_iff.1 h
  · rfl
  · obtain heq | ho := Number.ofNumber_eq_or_zeros hxy
    · rw [startWord_constant hx, startWord_constant hy, heq]
    · exact absurd ⟨a, b, x, y, hx, hy, ho⟩ hz

theorem startWord_operation (wf : g.WellFormed) (h : (g.node a).isOperation) :
    g.startWord a = 0 := by
  obtain ⟨o, args, c, ha⟩ := wf.exists_apply h
  rw [startWord, Target.startWord, ha]
  rfl

theorem startWord_congruent (wf : g.WellFormed) (hz : ¬ g.HasOppositeZeros) :
    g.Congruent g.startWord := by
  intro a b h
  obtain ⟨ha, hb, _⟩ | h := (sameNode_iff wf).1 h
  · rw [startWord_operation wf ha, startWord_operation wf hb]
  · exact startWord_of_sameLeaf hz h

theorem same_of_oppositeZeros {x y : Number} (h : x.OppositeZeros y) : x.same y := by
  obtain ⟨rfl, rfl⟩ | ⟨rfl, rfl⟩ := h <;> decide

theorem word_of_oppositeZeros {x y : Number} (h : x.OppositeZeros y) :
    ((Word.ofNumber x).toOption).getD 0 ≠ ((Word.ofNumber y).toOption).getD 0 := by
  obtain ⟨rfl, rfl⟩ | ⟨rfl, rfl⟩ := h <;> decide

/-- Merged nets have one value, whatever the operations compute. -/
def MergesEqualValues (g : Graph) : Prop :=
  ∀ i, g.Respected i → ∀ m n : Net, g.sameNet m n = true →
    g.evaluate i g.startWord m.source = g.evaluate i g.startWord n.source

theorem mergesEqualValues_iff (wf : g.WellFormed) : g.MergesEqualValues ↔ ¬ g.HasOppositeZeros := by
  constructor
  · rintro h ⟨j, k, x, y, hj, hk, hz⟩
    have hs : g.sameNode j k := by
      rw [sameNode_iff wf, sameLeaf_iff]
      exact .inr (.inr ⟨x, y, hj, hk, same_of_oppositeZeros hz⟩)
    have hv := h ⟨fun _ _ _ _ => 0, fun _ _ _ _ => 0⟩ (fun _ _ _ _ _ _ _ => rfl)
      ⟨.float, j⟩ ⟨.float, k⟩ hs
    rw [evaluate_leaf (by rw [hj]; rfl), evaluate_leaf (by rw [hk]; rfl),
      startWord_constant hj, startWord_constant hk] at hv
    exact word_of_oppositeZeros hz hv
  · intro hz i hr m n hs
    exact evaluate_congr wf hr (fun a b => startWord_of_sameLeaf hz) hs

/-! ## Compiled programs -/

/-- Programs that start with the words of their constants give every net to keep the value
that it has without merging. -/
def CompilesExactly (g : Graph) : Prop :=
  ∀ i roots plan, g.Respected i → i.ReadsOperands → g.Requests roots →
    Plan.ofRoots g roots = .ok plan → ∀ slots, slots.Perm plan.slots →
    ∀ start finish : Machine, Target.startMemory g slots = .ok start.memory →
    Machine.Runs i g plan.steps start finish → ∀ r ∈ roots, ∀ n, g.node r = .root n →
    finish.memory.get? g n = some (g.evaluate i g.startWord n.source)

theorem startMemory_ok {slots : List Net} {m : Memory} (h : Target.startMemory g slots = .ok m) :
    m.map Prod.fst = slots ∧ ∀ c ∈ m, c.2 = g.startWord c.1.source := by
  induction slots generalizing m with
  | nil =>
    cases h
    simp
  | cons n rest ih =>
    rw [Target.startMemory, List.mapM_cons] at h
    cases hw : Target.startWord g n with
    | error f =>
      rw [hw] at h
      cases h
    | ok w =>
      cases hr : Target.startMemory g rest with
      | error f =>
        rw [Target.startMemory] at hr
        rw [hw, hr] at h
        cases h
      | ok m' =>
        have hs := hr
        rw [Target.startMemory] at hs
        rw [hw, hs] at h
        cases h
        obtain ⟨hk, ho⟩ := ih hr
        refine ⟨by simp [hk], List.forall_mem_cons.2 ⟨?_, ho⟩⟩
        have heq : Target.startWord g ⟨.int, n.source⟩ = Target.startWord g n := rfl
        rw [startWord, heq, hw]
        rfl

theorem compilesExactly (tr : g.Traced) (hz : ¬ g.HasOppositeZeros) : g.CompilesExactly := by
  intro i roots plan he hi ht ho slots hl start finish hst hrn r hr n hn
  obtain ⟨plan', order, consts, ho', hp⟩ := Schedule.exists_plan tr ht
  obtain rfl : plan' = plan := by simpa [ho'] using ho
  obtain ⟨hks, hw⟩ := startMemory_ok hst
  have hks' : (start.memory.map Prod.fst).Perm plan'.slots := hks ▸ hl
  have hs := Schedule.solved_evaluate tr he (startWord_congruent tr.wellFormed hz) order
  have hcst : ∀ n ∈ consts, start.memory.Holds g (g.evaluate i g.startWord) n := by
    intro n hn c hc hsm
    obtain ⟨k, -, hk, hnk⟩ := hp.only n hn
    rw [← isConstant_of_sameNode tr.wellFormed (sameNode_trans tr hsm hnk)] at hk
    rw [hw c hc, evaluate_leaf]
    cases hd : g.node c.1.source <;> simp_all [Node.isConstant, Node.isOperation]
  have hm := Schedule.memory_of_runs tr ht hi hp hs hrn hks' hcst
  exact Schedule.get?_of_memory tr hp hs.congr hks' hm hr hn

/-- **Merging is sound exactly without opposite zeros.** Equal nets have equal values,
under every interpretation, if and only if the graph does not have a zero and a negative
zero among its anonymous constants; and then no program can tell that nets were merged. -/
theorem merging_sound_iff (wf : g.WellFormed) :
    (g.MergesEqualValues ↔ ¬ g.HasOppositeZeros) ∧
      (¬ g.HasOppositeZeros → g.Marked g.hashOf → g.CompilesExactly) :=
  ⟨mergesEqualValues_iff wf, fun hzeros marked => compilesExactly ⟨wf, marked⟩ hzeros⟩

theorem sharedProduct_not_hasOppositeZeros : ¬ Schedule.sharedProduct.HasOppositeZeros := by
  rintro ⟨j, k, x, y, hj, -, -⟩
  match j with
  | 0 | 1 | 2 | 3 | 4 | 5 => exact absurd hj (by simp [Schedule.sharedProduct, node, push, empty])
  | j + 6 =>
    rw [node_of_size_le (Nat.le_add_left 6 j)] at hj
    cases hj

theorem sharedProduct_merging_sound :
    Schedule.sharedProduct.WellFormed ∧ Schedule.sharedProduct.MergesEqualValues ∧
      Schedule.sharedProduct.CompilesExactly := by
  obtain ⟨hv, hc⟩ := merging_sound_iff Schedule.sharedProduct_traced.wellFormed
  exact ⟨Schedule.sharedProduct_traced.wellFormed, hv.2 sharedProduct_not_hasOppositeZeros,
    hc sharedProduct_not_hasOppositeZeros Schedule.sharedProduct_traced.marked⟩

/-- A zero and a negative zero, as they come from plain numbers. -/
def oppositeZeros : Graph :=
  (Graph.empty.push (.constant (.float 0.0) true)).push (.constant (.float (-0.0)) true)

theorem oppositeZeros_wellFormed : oppositeZeros.WellFormed :=
  (wellFormed_empty.push (Node.fits_constant _ _ _ _)).push (Node.fits_constant _ _ _ _)

/-- **Opposite zeros are merged**, and have different words. -/
theorem oppositeZeros_merged :
    oppositeZeros.sameNet ⟨.float, 0⟩ ⟨.float, 1⟩ = true ∧
      oppositeZeros.evaluate .native oppositeZeros.startWord 0 = 0 ∧
      oppositeZeros.evaluate .native oppositeZeros.startWord 1 = 0x80000000 := by
  refine ⟨?_, ?_, ?_⟩
  · rw [sameNet, sameNode_iff oppositeZeros_wellFormed, sameLeaf_iff]
    exact .inr (.inr ⟨_, _, rfl, rfl, by decide⟩)
  · rw [evaluate_leaf rfl]
    decide
  · rw [evaluate_leaf rfl]
    decide

end Graph

end Patchwork
