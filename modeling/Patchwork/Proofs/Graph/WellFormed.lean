import Patchwork.Graph.Equality
import Mathlib.Data.List.Permutation

/-!
# Well-formed graphs

What tracing promises about the graphs it makes: an operand stands before the node that
uses it and carries the type it is used under, every operation has a stencil for its
operands, and an operation is marked as commutative only if it takes its operands in any
order. Loads and saves are made by the scheduler and never stand in a graph.
-/

namespace Patchwork

variable {below : NodeId → Option Cell} {g : Graph} {k : NodeId} {n : Node}

namespace Node

/-- The type of the net out of a node; only constants and operations have one. -/
def cell? : Node → Option Cell
  | constant value _ => some value.cell
  | apply o args _ => o.result? (args.map Net.cell)
  | _ => none

/-- What a graph promises about the node at a position, given the cells below it. -/
structure Fits (below : NodeId → Option Cell) (k : NodeId) (n : Node) : Prop where
  before : ∀ a ∈ n.args, a.source < k
  typed : ∀ a ∈ n.args, below a.source = some a.cell
  covered : ∀ o args c, n = apply o args c → (o.result? (args.map Net.cell)).isSome
  exchangeable : ∀ o args, n = apply o args true → ∀ cells, cells.Perm (args.map Net.cell) →
    o.result? cells = o.result? (args.map Net.cell)
  notLoad : ∀ c r held, n ≠ load c r held
  notSave : ∀ held args, n ≠ save held args

theorem fits_constant (below : NodeId → Option Cell) (k : NodeId) (x : Number) (anonymous : Bool) :
    (constant x anonymous).Fits below k := by
  constructor <;> simp [args]

theorem fits_blank (below : NodeId → Option Cell) (k : NodeId) : blank.Fits below k := by
  constructor <;> simp [args]

theorem fits_root {a : Net} (hl : a.source < k)
    (hc : below a.source = some a.cell) : (root a).Fits below k := by
  constructor <;> simp [args, hl, hc]

theorem fits_apply {o : Operation} {xs : List Net}
    {commutative : Bool} (hl : ∀ a ∈ xs, a.source < k)
    (hc : ∀ a ∈ xs, below a.source = some a.cell) (hr : (o.result? (xs.map Net.cell)).isSome)
    (he : commutative → ∀ cells, cells.Perm (xs.map Net.cell) →
      o.result? cells = o.result? (xs.map Net.cell)) :
    (apply o xs commutative).Fits below k where
  before := hl
  typed := hc
  covered := by
    rintro _ _ _ ⟨⟩
    exact hr
  exchangeable := by
    rintro _ _ ⟨⟩
    exact he rfl
  notLoad := by simp
  notSave := by simp

def checks (below : NodeId → Option Cell) (k : NodeId) (n : Node) : Bool :=
  n.args.all (fun a => decide (a.source < k ∧ below a.source = some a.cell)) &&
    match n with
    | apply o args c =>
      let cells := args.map Net.cell
      (o.result? cells).isSome &&
        (!c || cells.permutations'.all fun cells' => decide (o.result? cells' = o.result? cells))
    | load .. | save .. => false
    | _ => true

theorem fits_of_checks (h : n.checks below k) : n.Fits below k := by
  simp only [checks, Bool.and_eq_true, List.all_eq_true, decide_eq_true_eq] at h
  obtain ⟨hg, hn⟩ := h
  have hb : ∀ a ∈ n.args, a.source < k := fun a ha => (hg a ha).1
  have ht : ∀ a ∈ n.args, below a.source = some a.cell := fun a ha => (hg a ha).2
  cases n with
  | apply o args c =>
    simp only [Bool.and_eq_true, Bool.or_eq_true, Bool.not_eq_true', List.all_eq_true,
      decide_eq_true_eq, List.mem_permutations'] at hn
    refine fits_apply hb ht hn.1 fun hc cells hl => ?_
    exact (hn.2.resolve_left (by simp [hc])) cells hl
  | load => cases hn
  | save => cases hn
  | _ => exact ⟨hb, ht, nofun, nofun, nofun, nofun⟩

/-- A node that fits still does when more is known about the cells. -/
theorem Fits.mono {below' : NodeId → Option Cell}
    (h : n.Fits below k) (hb : ∀ j < k, below' j = below j) : n.Fits below' k :=
  { h with typed := fun a ha => (hb _ (h.before a ha)).trans (h.typed a ha) }

end Node

namespace Graph

def WellFormed (g : Graph) : Prop := ∀ k, (g.node k).Fits (fun j => (g.node j).cell?) k

theorem node_of_size_le (h : g.size ≤ k) : g.node k = .blank := by
  have h' : g.nodes.size ≤ k := h
  simp [node, Array.getD, Nat.not_lt.2 h']

theorem lt_size_of_ne_blank (h : g.node k ≠ .blank) : k < g.size := by
  by_contra hk
  exact h (node_of_size_le (Nat.not_lt.1 hk))

theorem wellFormed_empty : empty.WellFormed := by
  intro k
  rw [node_of_size_le (Nat.zero_le k)]
  exact Node.fits_blank _ k

/-- Appending a node that fits keeps a graph well-formed. -/
theorem WellFormed.push (wf : g.WellFormed)
    (hn : n.Fits (fun j => (g.node j).cell?) g.size) : (g.push n).WellFormed := by
  intro k
  rcases Nat.lt_trichotomy k g.size with hk | rfl | hk
  · rw [node_push_of_lt g n hk]
    exact (wf k).mono fun j hj => by rw [node_push_of_lt g n (Nat.lt_trans hj hk)]
  · rw [node_push_size]
    exact hn.mono fun j hj => by rw [node_push_of_lt g n hj]
  · rw [node_of_size_le (by rw [size_push]; exact hk)]
    exact Node.fits_blank _ k

/-- The nodes that some roots need: their operands, the operands of those, and so on. -/
inductive Below (g : Graph) (roots : List NodeId) : NodeId → Prop
  | root {r : NodeId} {n : Net} (hr : r ∈ roots) (hn : n ∈ (g.node r).args) : Below g roots n.source
  | operand {k : NodeId} {n : Net} (hk : Below g roots k) (hn : n ∈ (g.node k).args) :
      Below g roots n.source

def Within (g : Graph) (roots : List NodeId) (k : NodeId) : Prop := k ∈ roots ∨ g.Below roots k

theorem Within.operand {roots : List NodeId} (h : g.Within roots k)
    {n : Net} (hn : n ∈ (g.node k).args) : g.Below roots n.source := by
  rcases h with h | h
  · exact .root h hn
  · exact .operand h hn

theorem Within.le {r : NodeId} (wf : g.WellFormed) (h : g.Within [r] k) : k ≤ r := by
  rcases h with h | h
  · exact Nat.le_of_eq (List.mem_singleton.1 h)
  · induction h with
    | root hr hn => exact List.mem_singleton.1 hr ▸ Nat.le_of_lt ((wf _).before _ hn)
    | operand _ hn ih => exact Nat.le_trans (Nat.le_of_lt ((wf _).before _ hn)) ih

/-- Operations of one stem that hash alike are both marked as commutative or both not.
Equality reads the mark of its left side only, so without this it could depend on the
side. -/
def Marked (g : Graph) (hash : NodeId → UInt64) : Prop :=
  ∀ j k, (g.node j).isOperation = true → (g.node k).isOperation = true → hash j = hash k →
    (g.node j).stem = (g.node k).stem → (g.node j).isCommutative = (g.node k).isCommutative

/-- A graph as tracing makes it, with hashes that keep marked operations apart from
others. -/
structure Traced (g : Graph) : Prop where
  wellFormed : g.WellFormed
  marked : g.Marked g.hashOf

/-- Operations of one stem are all marked as commutative, or none of them is. -/
def Uniform (g : Graph) : Prop :=
  ∀ j k, (g.node j).isOperation = true → (g.node k).isOperation = true →
    (g.node j).stem = (g.node k).stem → (g.node j).isCommutative = (g.node k).isCommutative

theorem uniform_of_stem (mark : String → Bool) (h : ∀ k < g.size, (g.node k).isOperation →
    (g.node k).isCommutative = mark (g.node k).stem) : g.Uniform := by
  have hl : ∀ k, (g.node k).isOperation → k < g.size := by
    refine fun k ho => lt_size_of_ne_blank fun hb => ?_
    rw [hb] at ho
    cases ho
  intro j k hj hk hs
  rw [h j (hl j hj) hj, h k (hl k hk) hk, hs]

theorem Uniform.marked (h : g.Uniform) (hash : NodeId → UInt64) : g.Marked hash :=
  fun j k hj hk _ hs => h j k hj hk hs

theorem wellFormed_of_checks
    (h : ∀ k < g.size, (g.node k).checks (fun j => (g.node j).cell?) k) : g.WellFormed := by
  intro k
  by_cases hk : k < g.size
  · exact Node.fits_of_checks (h k hk)
  · rw [node_of_size_le (Nat.not_lt.1 hk)]
    exact Node.fits_blank _ k

/-- Whether a graph is traced can be checked node by node, if its operations are marked by their
stem. -/
theorem traced_of_checks (mark : String → Bool)
    (h : ∀ k < g.size, (g.node k).checks (fun j => (g.node j).cell?) k ∧
      ((g.node k).isOperation → (g.node k).isCommutative = mark (g.node k).stem)) : g.Traced :=
  ⟨wellFormed_of_checks fun k hk => (h k hk).1,
    (uniform_of_stem mark fun k hk => (h k hk).2).marked _⟩

end Graph

end Patchwork
