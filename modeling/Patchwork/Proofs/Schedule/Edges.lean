import Patchwork.Proofs.Graph.Equality
import Patchwork.Proofs.Schedule.Order
import Patchwork.Schedule.Edges
import Mathlib.Data.List.ProdSigma

/-!
# The edges below some roots

The walk visits a node once for each edge out of it, and it follows an edge only once.
Equal nets have been merged by then: of equal nodes below the roots only one is ever
visited, so that on visited nodes equality is identity. When nothing is pending, every
operand of a visited node has its edge. The nodes in topological order of these edges
are an order of execution: each node once, after its operands.
-/

namespace Patchwork

open List

variable {k : NodeId} {n : Net}

namespace Graph

variable {g : Graph} {roots : List NodeId} {c : Collection} {current : Option NodeId}

def Requests (g : Graph) (roots : List NodeId) : Prop := ∀ r ∈ roots, ∃ n, g.node r = .root n

/-- The nodes that a walk visits: the roots, and the sources of nets it has met. -/
def Collection.Visited (roots : List NodeId) (c : Collection) (k : NodeId) : Prop :=
  k ∈ roots ∨ ∃ n ∈ c.nets, n.source = k

def Collection.Done (g : Graph) (c : Collection) (k : NodeId) : Prop :=
  ∀ n ∈ (g.node k).args, ∃ e ∈ c.found, e.2 = k ∧ g.sameNode n.source e.1 = true

/-- The invariant of the walk, while it is at the operands of one node. -/
structure Collecting (g : Graph) (roots : List NodeId) (current : Option NodeId)
    (c : Collection) : Prop where
  distinct : Edges.Distinct g.sameNet c.nets
  typed : ∀ n ∈ c.nets, (g.node n.source).cell? = some n.cell
  met : ∀ n ∈ c.nets, ∃ e ∈ c.found, e.1 = n.source
  source : ∀ e ∈ c.found, ∃ n ∈ c.nets, n.source = e.1
  target : ∀ e ∈ c.found, c.Visited roots e.2
  operand : ∀ e ∈ c.found, ∃ n ∈ (g.node e.2).args, g.sameNode n.source e.1 = true
  nodup : c.found.Nodup
  pending : ∀ k ∈ c.pending, c.Visited roots k
  settled : ∀ k, c.Visited roots k → k ∈ c.pending ∨ current = some k ∨ c.Done g k

theorem lt_size_of_cell? {cell : Cell} (h : (g.node k).cell? = some cell) : k < g.size := by
  by_contra hk
  rw [node_of_size_le (Nat.not_lt.1 hk)] at h
  cases h

theorem Collecting.visited_lt (h : Collecting g roots current c) (hr : g.Requests roots)
    (hk : c.Visited roots k) : k < g.size := by
  obtain hk | ⟨n, hn, rfl⟩ := hk
  · obtain ⟨n, ht⟩ := hr k hk
    by_contra hl
    rw [node_of_size_le (Nat.not_lt.1 hl)] at ht
    cases ht
  · exact lt_size_of_cell? (h.typed n hn)

theorem equality_sameNode (tr : g.Traced) : Edges.Equality g.sameNode :=
  ⟨sameNode_self g, sameNode_symm tr, sameNode_trans tr⟩

theorem equality_sameNet (tr : g.Traced) : Edges.Equality g.sameNet :=
  ⟨fun n => sameNode_self g n.source, fun h => sameNode_symm tr h,
    fun h h' => sameNode_trans tr h h'⟩

theorem Collecting.eq_of_visited (h : Collecting g roots current c) (tr : g.Traced)
    (hr : g.Requests roots) {j : NodeId} (hj : c.Visited roots j) (hk : c.Visited roots k)
    (hs : g.sameNode j k) : j = k := by
  have ht : ∀ {x y}, x ∈ roots → g.sameNode x y → x = y := fun hx hy =>
    eq_of_sameNode_root tr.wellFormed (hr _ hx).choose_spec hy
  obtain hj | ⟨m, hm, rfl⟩ := hj
  · exact ht hj hs
  · obtain hk | ⟨n, hn, rfl⟩ := hk
    · exact (ht hk (sameNode_symm tr hs)).symm
    · rw [h.distinct.eq_of_same (equality_sameNet tr) hm hn hs]

/-! ## One operand -/

/-- What meeting an operand does: the edge is there afterwards, and if it is new, its
source is pending. -/
theorem visit_cases (h : Collecting g roots current c) (tr : g.Traced) (hr : g.Requests roots)
    (hk : c.Visited roots k) (n : Net) :
    (∃ m ∈ c.nets, g.sameNet n m ∧ (m.source, k) ∈ c.found ∧ c.visit g k n = c) ∨
    (∃ m ∈ c.nets, g.sameNet n m ∧ (m.source, k) ∉ c.found ∧
      c.visit g k n = ⟨m.source :: c.pending, c.nets, (m.source, k) :: c.found⟩) ∨
    ((∀ m ∈ c.nets, g.sameNet n m = false) ∧
      c.visit g k n = ⟨n.source :: c.pending, n :: c.nets, (n.source, k) :: c.found⟩) := by
  cases hf : c.nets.find? (g.sameNet n) with
  | some m =>
    have hm := mem_of_find?_eq_some hf
    have hnm := find?_some hf
    have ha : c.found.any (g.sameEdge (m.source, k)) ↔ (m.source, k) ∈ c.found := by
      constructor
      · intro h'
        obtain ⟨e, he, hs⟩ := any_eq_true.1 h'
        obtain ⟨hc, ht⟩ := Bool.and_eq_true_iff.1 hs
        obtain ⟨m', hm', hm'e⟩ := h.source e he
        rw [h.eq_of_visited tr hr (.inr ⟨m, hm, rfl⟩) (.inr ⟨m', hm', hm'e⟩) hc,
          h.eq_of_visited tr hr hk (h.target e he) ht]
        exact he
      · exact fun hmem => any_eq_true.2 ⟨_, hmem, by simp [sameEdge]⟩
    by_cases hmem : (m.source, k) ∈ c.found
    · refine .inl ⟨m, hm, hnm, hmem, ?_⟩
      simp [Collection.visit, representative, hf, ha.2 hmem]
    · refine .inr (.inl ⟨m, hm, hnm, hmem, ?_⟩)
      have hn : ¬ c.found.any (g.sameEdge (m.source, k)) := fun h' => hmem (ha.1 h')
      simp only [Collection.visit, representative, hf]
      rw [if_neg hn]
  | none =>
    have ho : ∀ m ∈ c.nets, g.sameNet n m = false := by
      simpa using find?_eq_none.1 hf
    refine .inr (.inr ⟨ho, ?_⟩)
    -- An edge from an equal source would have brought a net for it.
    have hn : ¬ c.found.any (g.sameEdge (n.source, k)) := by
      intro h'
      obtain ⟨e, he, hs⟩ := any_eq_true.1 h'
      obtain ⟨m, hm, hme⟩ := h.source e he
      have hl := ho m hm
      rw [sameNet, hme, (Bool.and_eq_true_iff.1 hs).1] at hl
      cases hl
    simp only [Collection.visit, representative, hf]
    rw [if_neg hn]

theorem Collecting.add (h : Collecting g roots (some k) c)
    (hk : c.Visited roots k) (hn : n ∈ (g.node k).args) {nets : List Net} {m : Net}
    (hm : m ∈ nets) (hs : ∀ m' ∈ c.nets, m' ∈ nets) (hw : ∀ m' ∈ nets, m' ∈ c.nets ∨ m' = m)
    (hd : Edges.Distinct g.sameNet nets) (ht : (g.node m.source).cell? = some m.cell)
    (hsm : g.sameNode n.source m.source) (hf : (m.source, k) ∉ c.found) :
    Collecting g roots (some k) ⟨m.source :: c.pending, nets, (m.source, k) :: c.found⟩ := by
  have hv : ∀ {j}, c.Visited roots j →
      Collection.Visited roots ⟨m.source :: c.pending, nets, (m.source, k) :: c.found⟩ j :=
    Or.imp_right fun ⟨m', hm', hj⟩ => ⟨m', hs m' hm', hj⟩
  refine ⟨hd, ?_, ?_, ?_, ?_, ?_, nodup_cons.2 ⟨hf, h.nodup⟩, ?_, ?_⟩
  · intro m' hm'
    obtain hm' | rfl := hw m' hm'
    · exact h.typed m' hm'
    · exact ht
  · intro m' hm'
    obtain hm' | rfl := hw m' hm'
    · obtain ⟨e, he, hem⟩ := h.met m' hm'
      exact ⟨e, mem_cons_of_mem _ he, hem⟩
    · exact ⟨_, mem_cons_self, rfl⟩
  · refine forall_mem_cons.2 ⟨⟨m, hm, rfl⟩, fun e he => ?_⟩
    obtain ⟨m', hm', hme⟩ := h.source e he
    exact ⟨m', hs m' hm', hme⟩
  · exact forall_mem_cons.2 ⟨hv hk, fun e he => hv (h.target e he)⟩
  · exact forall_mem_cons.2 ⟨⟨n, hn, hsm⟩, h.operand⟩
  · exact forall_mem_cons.2 ⟨.inr ⟨m, hm, rfl⟩, fun j hj => hv (h.pending j hj)⟩
  · intro j hj
    have hj' : j = m.source ∨ c.Visited roots j := by
      obtain hj | ⟨m', hm', rfl⟩ := hj
      · exact .inr (.inl hj)
      · obtain hm' | rfl := hw m' hm'
        · exact .inr (.inr ⟨m', hm', rfl⟩)
        · exact .inl rfl
    obtain rfl | hj' := hj'
    · exact .inl mem_cons_self
    · obtain hp | hc | hdn := h.settled j hj'
      · exact .inl (mem_cons_of_mem _ hp)
      · exact .inr (.inl hc)
      · refine .inr (.inr fun a ha => ?_)
        obtain ⟨e, he, hej⟩ := hdn a ha
        exact ⟨e, mem_cons_of_mem _ he, hej⟩

/-- What a walk has gained: the invariant still holds, edges found before are kept, and
there is one more node pending for each new edge. -/
structure Advanced (g : Graph) (roots : List NodeId) (k : NodeId) (c c' : Collection) : Prop where
  collecting : Collecting g roots (some k) c'
  kept : ∀ e ∈ c.found, e ∈ c'.found
  visited : c'.Visited roots k
  balance : c'.pending.length + c.found.length = c.pending.length + c'.found.length

/-- Meeting an operand keeps the invariant, and the operand has its edge then. -/
theorem Collecting.visit (h : Collecting g roots (some k) c) (tr : g.Traced)
    (hr : g.Requests roots) (hk : c.Visited roots k) (hn : n ∈ (g.node k).args) :
    Advanced g roots k c (c.visit g k n) ∧
      ∃ e ∈ (c.visit g k n).found, e.2 = k ∧ g.sameNode n.source e.1 := by
  obtain ⟨m, hm, hnm, he, heq⟩ | ⟨m, hm, hnm, he, heq⟩ | ⟨ho, heq⟩ :=
    visit_cases h tr hr hk n <;> rw [heq]
  · exact ⟨⟨h, fun _ => id, hk, rfl⟩, _, he, rfl, hnm⟩
  · have ha := h.add hk hn hm (fun _ => id) (fun _ => .inl) h.distinct (h.typed m hm) hnm he
    refine ⟨⟨ha, fun e => mem_cons_of_mem _, hk, ?_⟩, _, mem_cons_self, rfl, hnm⟩
    simp only [length_cons]
    omega
  · have hfr : (n.source, k) ∉ c.found := by
      intro he
      obtain ⟨m, hm, hmn⟩ := h.source _ he
      have hf := ho m hm
      rw [sameNet, hmn, sameNode_self] at hf
      cases hf
    have ha := h.add hk hn mem_cons_self (fun _ => mem_cons_of_mem _)
      (fun m hm => (mem_cons.1 hm).symm) (pairwise_cons.2 ⟨ho, h.distinct⟩)
      ((tr.wellFormed k).typed n hn) (sameNode_self g _) hfr
    refine ⟨⟨ha, fun e => mem_cons_of_mem _, ?_, ?_⟩, _, mem_cons_self, rfl, sameNode_self g _⟩
    · exact hk.imp_right fun ⟨m, hm, hmk⟩ => ⟨m, mem_cons_of_mem _ hm, hmk⟩
    · simp only [length_cons]
      omega

theorem Collecting.visitAll (tr : g.Traced) (hr : g.Requests roots)
    (ns : List Net) (hs : ∀ n ∈ ns, n ∈ (g.node k).args) (h : Collecting g roots (some k) c)
    (hk : c.Visited roots k) :
    Advanced g roots k c (ns.foldl (Collection.visit g k) c) ∧
      ∀ n ∈ ns, ∃ e ∈ (ns.foldl (Collection.visit g k) c).found,
        e.2 = k ∧ g.sameNode n.source e.1 := by
  induction ns generalizing c with
  | nil => exact ⟨⟨h, fun _ => id, hk, rfl⟩, by simp⟩
  | cons n rest ih =>
    obtain ⟨hn, hrs⟩ := forall_mem_cons.1 hs
    obtain ⟨ho, e, he, hek⟩ := h.visit tr hr hk hn
    obtain ⟨hm, hd⟩ := ih hrs ho.collecting ho.visited
    have hb := ho.balance
    have hb' := hm.balance
    refine ⟨⟨hm.collecting, fun e he => hm.kept e (ho.kept e he), hm.visited, ?_⟩,
      forall_mem_cons.2 ⟨⟨e, hm.kept e he, hek⟩, hd⟩⟩
    rw [foldl_cons]
    omega

/-! ## The walk -/

theorem Collecting.step (h : Collecting g roots none c) (tr : g.Traced)
    (hr : g.Requests roots) {rest : List NodeId} (hp : c.pending = k :: rest) :
    let c' := (g.node k).args.foldl (Collection.visit g k) { c with pending := rest }
    Collecting g roots none c' ∧ c'.pending.length + c.found.length + 1 =
      c.pending.length + c'.found.length := by
  have hk : c.Visited roots k := h.pending k (by simp [hp])
  have hs : Collecting g roots (some k) { c with pending := rest } := by
    refine ⟨h.distinct, h.typed, h.met, h.source, h.target, h.operand, h.nodup,
      fun j hj => h.pending j (by simp [hp, hj]), fun j hj => ?_⟩
    obtain hj | hj | hj := h.settled j hj
    · rw [hp] at hj
      obtain rfl | hj := mem_cons.1 hj
      · exact .inr (.inl rfl)
      · exact .inl hj
    · cases hj
    · exact .inr (.inr hj)
  obtain ⟨ha, hd⟩ := hs.visitAll tr hr (g.node k).args (fun _ => id) hk
  have he := ha.collecting
  constructor
  · refine ⟨he.distinct, he.typed, he.met, he.source, he.target, he.operand,
      he.nodup, he.pending, fun j hj => ?_⟩
    obtain hj | hj | hj := he.settled j hj
    · exact .inl hj
    · cases hj
      exact .inr (.inr hd)
    · exact .inr (.inr hj)
  · have hb := ha.balance
    dsimp only at hb ⊢
    rw [hp, length_cons]
    omega

theorem Collecting.length_found_le (h : Collecting g roots current c) (hr : g.Requests roots) :
    c.found.length ≤ g.size * g.size := by
  have hs : c.found ⊆ range g.size ×ˢ range g.size := by
    rintro ⟨a, b⟩ he
    have ha := h.visited_lt hr (.inr (h.source _ he))
    have hb := h.visited_lt hr (h.target _ he)
    exact pair_mem_product.2 ⟨mem_range.2 ha, mem_range.2 hb⟩
  simpa [length_product] using (subperm_of_subset h.nodup hs).length_le

/-- The walk keeps the invariant and leaves nothing pending, if it may take as many
steps as there are nodes pending and edges to find. -/
theorem Collecting.collect (tr : g.Traced) (hr : g.Requests roots) (steps : Nat)
    (h : Collecting g roots none c)
    (ht : c.pending.length + (g.size * g.size - c.found.length) < steps) :
    Collecting g roots none (collect g steps c) ∧ (Graph.collect g steps c).pending = [] := by
  induction steps generalizing c with
  | zero => omega
  | succ steps ih =>
    rw [Graph.collect]
    split
    · rename_i hp
      exact ⟨h, hp⟩
    · rename_i k rest hp
      obtain ⟨hs, hb⟩ := h.step tr hr hp
      have ho := hs.length_found_le hr
      exact ih hs (by omega)

/-- Edges that leave out no operand of some roots and of what is below them. -/
structure Closed (g : Graph) (roots : List NodeId) (edges : List Edge) : Prop where
  operand : ∀ e ∈ edges, ∃ n ∈ (g.node e.2).args, g.sameNode n.source e.1 = true
  target : ∀ e ∈ edges, e.2 ∈ roots ∨ ∃ f ∈ edges, f.1 = e.2
  root : ∀ r ∈ roots, ∀ n ∈ (g.node r).args,
    ∃ e ∈ edges, e.2 = r ∧ g.sameNode n.source e.1 = true
  below : ∀ e ∈ edges, ∀ n ∈ (g.node e.1).args,
    ∃ f ∈ edges, f.2 = e.1 ∧ g.sameNode n.source f.1 = true
  typed : ∀ e ∈ edges, ∃ cell, (g.node e.1).cell? = some cell
  unique : ∀ e ∈ edges, ∀ f ∈ edges, ∀ j k, (j = e.1 ∨ j = e.2) → (k = f.1 ∨ k = f.2) →
    g.sameNode j k = true → j = k

theorem collecting_start (roots : List NodeId) :
    Collecting g roots none ⟨roots.reverse, [], []⟩ := by
  refine ⟨.nil, by simp, by simp, by simp, by simp, by simp, .nil, ?_, ?_⟩
  · exact fun k hk => .inl (mem_reverse.1 hk)
  · rintro k (hk | ⟨n, hn, _⟩)
    · exact .inl (mem_reverse.2 hk)
    · cases hn

/-- The edges below some roots leave out no operand. -/
theorem closed_edges (tr : g.Traced) (ht : g.Requests roots) : g.Closed roots (g.edges roots) := by
  obtain ⟨h, hm⟩ := (collecting_start roots).collect tr ht
    (roots.length + g.size * g.size + 1) (by simp)
  rw [edges]
  generalize Graph.collect g _ _ = c at h hm
  have hs : ∀ {e}, e ∈ c.found → c.Visited roots e.1 := fun he => .inr (h.source _ he)
  have hd : ∀ {k}, c.Visited roots k → c.Done g k := by
    intro k hk
    obtain hk | hk | hk := h.settled k hk
    · rw [hm] at hk
      cases hk
    · cases hk
    · exact hk
  constructor <;> simp only [mem_reverse]
  case operand => exact h.operand
  case root => exact fun r hr => hd (.inl hr)
  case below => exact fun e he => hd (hs he)
  case target =>
    intro e he
    refine (h.target e he).imp_right fun ⟨n, hn, hne⟩ => ?_
    obtain ⟨f, hf, hfn⟩ := h.met n hn
    exact ⟨f, hf, hfn.trans hne⟩
  case typed =>
    intro e he
    obtain ⟨n, hn, hne⟩ := h.source e he
    exact ⟨n.cell, hne ▸ h.typed n hn⟩
  case unique =>
    intro e he f hf j k hj hk
    refine h.eq_of_visited tr ht ?_ ?_
    · obtain rfl | rfl := hj
      exacts [hs he, h.target e he]
    · obtain rfl | rfl := hk
      exacts [hs hf, h.target f hf]

/-! ## The order of execution -/

/-- An order of execution for some roots: every node once, after its operands, and
only nodes that are roots or used. -/
structure Scheduled (g : Graph) (roots order : List NodeId) : Prop where
  distinct : Edges.Distinct g.sameNode order
  root : ∀ r ∈ roots, r ∈ order
  used : ∀ k ∈ order, k ∈ roots ∨
    (∃ cell, (g.node k).cell? = some cell) ∧
      ∃ j ∈ order, ∃ n ∈ (g.node j).args, g.sameNode n.source k = true
  before : ∀ l k r, order = l ++ k :: r → ∀ n ∈ (g.node k).args,
    ∃ j ∈ l, g.sameNode n.source j = true

theorem Closed.mem_order {edges : List Edge} {order : List NodeId} (h : g.Closed roots edges)
    (ho : Edges.Ordered g.sameNode edges order) {e : Edge} (he : e ∈ edges) :
    e.1 ∈ order ∧ e.2 ∈ order := by
  have hs : ∀ k, (k = e.1 ∨ k = e.2) → (∃ x ∈ order, g.sameNode k x) → k ∈ order := by
    rintro k hk ⟨x, hx, hkx⟩
    obtain ⟨f, hf, hxf⟩ := ho.known x hx
    exact h.unique e he f hf k x hk hxf hkx ▸ hx
  exact ⟨hs _ (.inl rfl) (ho.covers e he).1, hs _ (.inr rfl) (ho.covers e he).2⟩

theorem Closed.scheduled {edges : List Edge} {order : List NodeId} (h : g.Closed roots edges)
    (tr : g.Traced) (ht : g.Requests roots)
    (ho : Edges.Ordered g.sameNode edges order) : g.Scheduled roots order where
  distinct := ho.distinct
  root := by
    intro r hr
    obtain ⟨n, hn⟩ := ht r hr
    obtain ⟨e, he, rfl, -⟩ := h.root r hr n (by simp [hn, Node.args])
    exact (h.mem_order ho he).2
  used := by
    -- A node that is not a root is the source of an edge.
    have hs : ∀ f ∈ edges, (∃ cell, (g.node f.1).cell? = some cell) ∧
        ∃ j ∈ order, ∃ n ∈ (g.node j).args, g.sameNode n.source f.1 := fun f hf =>
      ⟨h.typed f hf, f.2, (h.mem_order ho hf).2, h.operand f hf⟩
    intro k hk
    obtain ⟨e, he, rfl | rfl⟩ := ho.known k hk
    · exact .inr (hs e he)
    · obtain hrt | ⟨f, hf, hfe⟩ := h.target e he
      · exact .inl hrt
      · exact .inr (hfe ▸ hs f hf)
  before := by
    intro l k r hp n hn
    have hd : ∃ e ∈ edges, e.2 = k ∧ g.sameNode n.source e.1 := by
      obtain ⟨e, he, rfl | rfl⟩ := ho.known k (by simp [hp])
      · exact h.below e he n hn
      · obtain hrt | ⟨f, hf, hfe⟩ := h.target e he
        · exact h.root _ hrt n hn
        · exact hfe ▸ h.below f hf n (hfe ▸ hn)
    obtain ⟨e, he, rfl, hne⟩ := hd
    obtain ⟨j, hj, hej⟩ := ho.before e he l _ r hp (sameNode_self g _)
    exact ⟨j, hj, sameNode_trans tr hne hej⟩

/-- The edges below some roots have a topological order. -/
theorem exists_sortEdges (tr : g.Traced) (hr : g.Requests roots) :
    ∃ order, g.sortEdges (g.edges roots) = .ok order ∧
      Edges.Ordered g.sameNode (g.edges roots) order := by
  have hu : ∀ e ∈ g.edges roots, g.eldest e.1 < g.eldest e.2 := by
    intro e he
    obtain ⟨n, hn, hne⟩ := (closed_edges tr hr).operand e he
    exact eldest_eq tr hne ▸ eldest_lt_of_arg tr hn
  exact Edges.exists_sort (equality_sameNode tr) (fun x y => eldest_eq tr) hu

/-- The nodes below some roots have an order of execution. -/
theorem exists_executionOrder (tr : g.Traced) (hr : g.Requests roots) :
    ∃ order, g.executionOrder roots = .ok order ∧ g.Scheduled roots order := by
  obtain ⟨order, hs, ho⟩ := exists_sortEdges tr hr
  exact ⟨order, hs, (closed_edges tr hr).scheduled tr hr ho⟩

/-! ## Nets -/

theorem mem_of_netOf? {nodes : List NodeId} (h : g.netOf? nodes k = some n) :
    g.sameNode n.source k ∧ ∃ j ∈ nodes, n ∈ (g.node j).args := by
  have hm := mem_of_getLast? h
  simpa [and_comm] using hm

theorem exists_netOf? {nodes : List NodeId} {j : NodeId} (hj : j ∈ nodes)
    (hn : n ∈ (g.node j).args) (hs : g.sameNode n.source k) : ∃ m, g.netOf? nodes k = some m := by
  have hm : n ∈ (nodes.flatMap fun node => (g.node node).args).filter
      fun n => g.sameNode n.source k := by
    simpa [hs] using ⟨j, hj, hn⟩
  exact ⟨_, getLast?_eq_some_getLast (ne_nil_of_mem hm)⟩

theorem sameNode_root_eq_false (tr : g.Traced) {m : Net} {cell : Cell}
    (hk : g.node k = .root m) (hn : (g.node n.source).cell? = some cell) :
    g.sameNode n.source k = false := by
  rw [Bool.eq_false_iff]
  intro hs
  rw [← eq_of_sameNode_root tr.wellFormed hk (sameNode_symm tr hs), hk] at hn
  cases hn

theorem netOf?_root (tr : g.Traced) {m : Net} (hk : g.node k = .root m)
    (nodes : List NodeId) : g.netOf? nodes k = none := by
  cases h : g.netOf? nodes k with
  | none => rfl
  | some n =>
    obtain ⟨hs, j, -, hn⟩ := mem_of_netOf? h
    rw [sameNode_root_eq_false tr hk ((tr.wellFormed j).typed n hn)] at hs
    cases hs

end Graph

end Patchwork
