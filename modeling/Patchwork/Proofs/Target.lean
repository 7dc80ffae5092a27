import Patchwork.Proofs.Compilation
import Patchwork.Proofs.Schedule.Stencils
import Patchwork.Proofs.Schedule.Variant

/-!
# Targets

A target keeps one cell for each net of its program. Variables have one if and only if they
are needed, and numbers that are written to them replace their starting values. A run starts
from whatever the cells hold, but only the cells of constants matter.
-/

namespace Patchwork

open Graph List

variable {c : Net × Word} {m : Memory}

/-! ## Variables -/

namespace Graph

variable {g : Graph} {j k : NodeId} {x : Number}

theorem sameNode_named (hk : g.node k = .constant x false) : g.sameNode j k ↔ j = k := by
  constructor
  · intro h
    rw [Graph.sameNode, sameNodeBy, hk] at h
    split at h
    · assumption
    · rw [if_neg (by simp [Node.isOperation])] at h
      obtain heq | ⟨_, _, _, hn, _⟩ := sameLeaf_iff.1 h
      · exact heq
      · simp [hk] at hn
  · rintro rfl
    exact sameNode_self g j

end Graph

namespace Schedule

variable {g : Graph} {roots order : List NodeId} {consts : List Net} {plan : Plan} {k : NodeId}
  {n : Net} {x : Number}

theorem exists_arg_of_nodeSteps {r : Registers} (hk : k ∈ order) {y : Step}
    (hy : y ∈ (nodeSteps g (g.netOf? order) k r).1)
    (hn : y.net = some n ∨ content g y.run = .root n) : ∃ j ∈ order, n ∈ (g.node j).args := by
  have hl : y ∈ (loadOperands (g.node k).args r).1 → ∃ j ∈ order, n ∈ (g.node j).args := by
    intro hy
    rw [loadOperands_eq] at hy
    obtain ⟨p, hp, r', hy⟩ := mem_emitted _ hy
    rw [loadOperand] at hy
    split at hy
    · cases hy
    · obtain rfl := mem_singleton.1 hy
      obtain ⟨⟨⟩⟩ | hr := hn
      · exact ⟨k, hk, (of_mem_zip hp).1⟩
      · cases hr
  have ho : (y.net = none ∨ y.net = g.netOf? order k) → y.run = .existing k →
      ∃ j ∈ order, n ∈ (g.node j).args := by
    intro he hu
    obtain hn | hr := hn
    · obtain he | he := he
      · simp [hn] at he
      · exact (mem_of_netOf? (he ▸ hn)).2
    · rw [hu] at hr
      exact ⟨k, hk, by simp [show g.node k = .root n from hr, Node.args]⟩
  rw [nodeSteps] at hy
  split at hy
  · cases hy
  · dsimp only at hy
    split at hy
    · rename_i hs
      obtain hy | hy := mem_append.1 hy
      · exact hl hy
      · obtain rfl := mem_singleton.1 hy
        exact ho (.inr hs.symm) rfl
    · obtain hy | hy := mem_append.1 hy
      · exact hl hy
      · obtain rfl := mem_singleton.1 hy
        exact ho (.inl rfl) rfl

theorem net_of_savedStep {loaded : List Net} {s : Saving} {x y : Step}
    (hx : x ∈ (savedStep g loaded y s).1) (hn : x.net = some n) :
    y.net = some n ∨ content g y.run = .root n := by
  have ho : ∀ regs, (translated g y regs).net = some n →
      y.net = some n ∨ content g y.run = .root n := by
    intro regs hn
    rw [translated] at hn
    split at hn
    · cases hn
      exact .inr ‹_›
    · split at hn
      · exact .inl hn
      · cases hn
  rw [savedStep] at hx
  split at hx
  · obtain rfl := mem_singleton.1 hx
    exact ho _ hn
  · rename_i he
    dsimp only at hx
    split at hx
    · obtain rfl | hx := mem_cons.1 hx
      · exact ho _ hn
      · obtain rfl := mem_singleton.1 hx
        exact .inl (he.trans hn)
    · obtain rfl := mem_singleton.1 hx
      exact ho _ hn

section

variable (tr : g.Traced) (hplan : Plans g roots order consts plan)

include tr hplan

theorem Plans.exists_arg (hn : n ∈ plan.slots) : ∃ j ∈ order, n ∈ (g.node j).args := by
  rw [hplan.slots] at hn
  obtain hn | hn := mem_append.1 (mem_of_mem_distinctNets tr hn)
  · exact hplan.operand n hn
  · obtain ⟨x, hx, hn⟩ := mem_filterMap.1 hn
    rw [hplan.steps, withSaves_eq, withLoads_eq] at hx
    obtain ⟨y, hy, s, hx⟩ := mem_emitted _ hx
    obtain ⟨k, hk, r, hy⟩ := mem_emitted _ hy
    exact exists_arg_of_nodeSteps hk hy (net_of_savedStep hx hn)

theorem Plans.typed (hn : n ∈ plan.slots) : (g.node n.source).cell? = some n.cell := by
  obtain ⟨j, -, hj⟩ := hplan.exists_arg tr hn
  exact (tr.wellFormed j).typed n hj

end

/-! ## Running again -/

section

variable (tr : g.Traced) (hroots : g.Requests roots) (hplan : Plans g roots order consts plan)

include tr hroots hplan

theorem Plans.exists_values (hs : m.map Prod.fst = plan.slots) :
    ∃ value : NodeId → Word, (∀ c ∈ m, (g.node c.1.source).isConstant → c.2 = value c.1.source) ∧
      ∀ m' : Memory, m'.map Prod.fst = plan.slots →
        (∀ c ∈ m', (g.node c.1.source).isConstant → c.2 = value c.1.source) →
        (Machine.run .native g plan.steps { memory := m' }).memory =
          plan.slots.map fun n => (n, value n.source) := by
  obtain ⟨value, ho, hv, -⟩ :=
    Schedule.exists_values tr .native hplan.scheduled (valuation_congruent tr m)
  have hd : Edges.Distinct g.sameNet (m.map Prod.fst) := by
    rw [hs, hplan.slots]
    exact distinct_distinctNets tr _
  refine ⟨value, fun c hc ht => ?_, fun m' hs' hm' => ?_⟩
  · rw [hv _ ht, valuation_eq tr hd hc]
  · have hh : ∀ n ∈ consts, Memory.Holds g value n m' := by
      intro n hn c hc hsm
      obtain ⟨k, -, hk, hsm'⟩ := hplan.only n hn
      refine hm' c hc ?_
      rw [isConstant_of_sameNode tr.wellFormed hsm, isConstant_of_sameNode tr.wellFormed hsm', hk]
    rw [memory_of_runs tr hroots Interpretation.native_readsOperands hplan ho
      (Machine.runs_run .native g plan.steps { memory := m' }) (hs' ▸ .refl _) hh, ← hs']
    simp

theorem Plans.keys_run (hk : m.map Prod.fst = plan.slots) :
    (Machine.run .native g plan.steps { memory := m }).memory.map Prod.fst = plan.slots := by
  obtain ⟨value, hv, hr⟩ := hplan.exists_values tr hroots hk
  rw [hr m hk hv]
  simp [Function.comp_def]

end

end Schedule

namespace Target

variable {g g' : Graph} {roots order : List NodeId} {t : Target} {memory : Memory} {v : Value}

theorem startMemory_ok {slots : List Net} (h : startMemory g slots = .ok memory) :
    memory.map Prod.fst = slots ∧ ∀ c ∈ memory, startWord g c.1 = .ok c.2 := by
  induction slots generalizing memory with
  | nil =>
    cases h
    exact ⟨rfl, by simp⟩
  | cons n rest ih =>
    have hc : startMemory g (n :: rest) =
        startWord g n >>= fun w => startMemory g rest >>= fun more => .ok ((n, w) :: more) := by
      rw [startMemory, mapM_cons]
      cases startWord g n <;> rfl
    rw [hc] at h
    cases hw : startWord g n with
    | error e =>
      rw [hw] at h
      cases h
    | ok w =>
      cases hr : startMemory g rest with
      | error e =>
        rw [hw, hr] at h
        cases h
      | ok more =>
        rw [hw, hr] at h
        cases h
        obtain ⟨hk, ho⟩ := ih hr
        exact ⟨by simp [hk], forall_mem_cons.2 ⟨hw, ho⟩⟩

/-- Writes numbers to values, one after the other, until one cannot be written. -/
def writeAll (g : Graph) : List (Value × Number) → Target → Except Fault Unit × Target
  | [], t => (.ok (), t)
  | (v, n) :: rest, t => match t.writeValue g v (.plain n) with
    | .ok t => writeAll g rest t
    | .error f => (.error f, t)

def Takes (g : Graph) (v : Value) (n : Number) : Prop :=
  ∃ x, g.node v.net.source = .constant x false ∧ x.cell = n.cell

def HasCell (m : Memory) (k : NodeId) : Prop := ∃ c ∈ m, c.1.source = k

theorem hasCell_iff {k : NodeId} : HasCell m k ↔ ∃ n ∈ m.map Prod.fst, n.source = k := by
  simp [HasCell]

theorem writeValue_eq {n : Number} (hv : Takes g v n)
    (ht : ∀ c ∈ t.memory, (g.node c.1.source).cell? = some c.1.cell)
    (hl : HasCell t.memory v.net.source) {w : Word} (hw : Word.ofNumber n = .ok w) :
    t.writeValue g v (.plain n) = .ok { t with memory := t.memory.set g v.net w } := by
  obtain ⟨x, hx, hxn⟩ := hv
  obtain ⟨c, hc, hr⟩ := hl
  cases hf : t.memory.find? fun c => g.sameNet c.1 v.net with
  | none =>
    have hne := find?_eq_none.1 hf c hc
    exact absurd ((sameNode_named hx).2 hr) hne
  | some d =>
    have hm : g.sameNet d.1 v.net := by simpa using find?_some hf
    have hd : d.1.source = v.net.source := (sameNode_named hx).1 hm
    have he : d.1.cell = n.cell := by
      have hy := ht d (mem_of_find?_eq_some hf)
      rw [hd, hx] at hy
      exact (Option.some.inj hy).symm.trans hxn
    -- A number that is converted to the type of its own cell is stored as it is.
    have hs : ∀ number, Word.ofNumber number = .ok w →
        (do return { t with memory := t.memory.set g v.net (← Word.ofNumber number) }) =
          .ok { t with memory := t.memory.set g v.net w } := by
      intro number hn
      rw [hn]
      rfl
    rw [writeValue, hf]
    dsimp only at he ⊢
    rw [he]
    cases n with
    | float x => exact hs (.float x) hw
    | int i => exact hs (.int i) hw
    | bool b =>
      refine hs (.int (if b then 1 else 0)) ?_
      rw [← hw]
      cases b <;> rfl

/-- The cells after a number has been written: that of the variable holds it. -/
theorem mem_set_named {n : Number} (hv : Takes g v n) {w : Word} (hc : c ∈ m.set g v.net w) :
    (c.1.source = v.net.source ∧ c.2 = w) ∨ (c.1.source ≠ v.net.source ∧ c ∈ m) := by
  obtain ⟨x, hx, -⟩ := hv
  obtain ⟨hs, hw⟩ | ⟨hs, hc⟩ := Memory.mem_set hc
  · exact .inl ⟨(sameNode_named hx).1 hs, hw⟩
  · refine .inr ⟨fun heq => ?_, hc⟩
    rw [Graph.sameNet, (sameNode_named hx).2 heq] at hs
    cases hs

/-- The cells after numbers have been written to some variables. -/
structure Written (m m' : Memory) (pairs : List (Value × Number)) : Prop where
  keys : m'.map Prod.fst = m.map Prod.fst
  cell : ∀ c ∈ m', (∃ p ∈ pairs, p.1.net.source = c.1.source ∧ Word.ofNumber p.2 = .ok c.2) ∨
    (c ∈ m ∧ ∀ p ∈ pairs, p.1.net.source ≠ c.1.source)

theorem typed_of_keys {m' : Memory} (h : m'.map Prod.fst = m.map Prod.fst)
    (ht : ∀ c ∈ m, (g.node c.1.source).cell? = some c.1.cell) :
    ∀ c ∈ m', (g.node c.1.source).cell? = some c.1.cell := by
  intro c hc
  obtain ⟨d, hd, heq⟩ := mem_map.1 (h ▸ mem_map_of_mem hc)
  rw [← heq]
  exact ht d hd

/-- Numbers that fit are written to variables that have cells. -/
theorem writeAll_ok (pairs : List (Value × Number)) (hr : ∀ p ∈ pairs, Takes g p.1 p.2)
    (ht : ∀ c ∈ t.memory, (g.node c.1.source).cell? = some c.1.cell)
    (hl : ∀ p ∈ pairs, HasCell t.memory p.1.net.source)
    (hf : ∀ p ∈ pairs, ∃ w, Word.ofNumber p.2 = .ok w) :
    ∃ memory, writeAll g pairs t = (.ok (), { t with memory }) ∧ Written t.memory memory pairs := by
  induction pairs generalizing t with
  | nil => exact ⟨t.memory, rfl, rfl, fun c hc => .inr ⟨hc, by simp⟩⟩
  | cons p rest ih =>
    obtain ⟨hp, hrs⟩ := forall_mem_cons.1 hr
    obtain ⟨hcl, hl⟩ := forall_mem_cons.1 hl
    obtain ⟨⟨w, hw⟩, hf⟩ := forall_mem_cons.1 hf
    have hk := Memory.map_fst_set g t.memory p.1.net w
    have hl' : ∀ q ∈ rest, HasCell (t.memory.set g p.1.net w) q.1.net.source := by
      intro q hq
      rw [hasCell_iff, hk, ← hasCell_iff]
      exact hl q hq
    obtain ⟨memory, hwr, hn⟩ := ih (t := { t with memory := t.memory.set g p.1.net w })
      hrs (typed_of_keys hk ht) hl' hf
    refine ⟨memory, ?_, hn.keys.trans hk, fun c hc => ?_⟩
    · rw [writeAll, writeValue_eq hp ht hcl hw]
      exact hwr
    · obtain ⟨q, hq, hqc⟩ | ⟨hc, he⟩ := hn.cell c hc
      · exact .inl ⟨q, mem_cons_of_mem _ hq, hqc⟩
      · obtain ⟨hs, hcw⟩ | ⟨hs, hc⟩ := mem_set_named hp hc
        · exact .inl ⟨p, mem_cons_self, hs.symm, hcw ▸ hw⟩
        · exact .inr ⟨hc, forall_mem_cons.2 ⟨hs.symm, he⟩⟩

end Target

/-! ## Running with other numbers -/

/-- Graphs with other numbers in some variables: they are variants in these variables,
which have the given numbers in the second. -/
structure Graph.Renumbered (g g' : Graph) (pairs : List (Value × Number)) : Prop where
  variant : g.Variant (fun k => ∃ p ∈ pairs, p.1.net.source = k) g'
  below : ∀ p ∈ pairs, p.1.net.source < g'.size
  number : ∀ p ∈ pairs, g'.node p.1.net.source = .constant p.2 false

namespace Graph.Renumbered

variable {g g' : Graph} {pairs : List (Value × Number)} {p : Value × Number} {n : Net}

end Graph.Renumbered

namespace Target

variable {g g' : Graph} {roots : List NodeId} {t t' finished finished' : Target}
  {pairs : List (Value × Number)}

theorem run_ok (h : t.run g = .ok t') : ∃ steps, t.program = some steps ∧
    t' = { t with memory := (Machine.run .native g steps { memory := t.memory }).memory } := by
  rw [run] at h
  split at h
  · rename_i steps hs
    cases h
    exact ⟨steps, hs, rfl⟩
  · cases h

section Plans

variable {order : List NodeId} {consts : List Net} {plan : Plan} {start start' memory : Memory}

end Plans

end Target

end Patchwork
