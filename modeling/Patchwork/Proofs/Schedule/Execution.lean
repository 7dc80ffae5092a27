import Patchwork.Proofs.Compilation
import Patchwork.Proofs.Graph.Hashes

/-!
# Everything is executed once and in time

The walk below some roots comes to an end, and more steps would not change what it has
found. It stays among the nodes that can be reached from the roots, although it puts one
net for another: the net it takes instead is itself the operand of a node met before. So
the order of execution lists one node for each class of equal nodes that can be reached,
which is reached itself, and each one after the nodes that stand for its operands.
-/

namespace Patchwork

open List

/-- Of nodes that are told apart exactly one is the same as a given one, if there is one. -/
theorem Edges.Distinct.countP_eq_one {α : Type} {same : α → α → Bool} (eqv : Equality same)
    {l : List α} (h : Distinct same l) {x : α} (hx : ∃ y ∈ l, same x y) :
    l.countP (same x) = 1 := by
  induction l with
  | nil => simp at hx
  | cons z rest ih =>
    obtain ⟨hz, hr⟩ := pairwise_cons.1 h
    by_cases hxz : same x z
    · have hn : rest.countP (same x) = 0 := by
        refine countP_eq_zero.2 fun y hy hxy => ?_
        have hf := hz y hy
        rw [eqv.trans (eqv.symm hxz) hxy] at hf
        cases hf
      rw [countP_cons_of_pos hxz, hn]
    · rw [countP_cons_of_neg hxz]
      refine ih hr ?_
      obtain ⟨y, hy, hxy⟩ := hx
      obtain rfl | hy := mem_cons.1 hy
      · exact absurd hxy hxz
      · exact ⟨y, hy, hxy⟩

namespace Graph

variable {g : Graph} {roots : List NodeId} {c : Collection} {k : NodeId}

/-! ## The end of a walk -/

theorem collect_of_le {steps more : Nat} (he : (g.collect steps c).pending = [])
    (hl : steps ≤ more) : g.collect more c = g.collect steps c := by
  induction steps generalizing c more with
  | zero =>
    have hp : c.pending = [] := he
    cases more with
    | zero => rfl
    | succ more => simp [collect, hp]
  | succ steps ih =>
    obtain _ | more := more
    · omega
    rw [collect, collect]
    cases hp : c.pending with
    | nil => rfl
    | cons k rest =>
      rw [collect, hp] at he
      exact ih he (Nat.le_of_succ_le_succ hl)

/-- The walk below some roots ends, and more steps would not change what it found. -/
theorem exists_collection (tr : g.Traced) (hr : g.Requests roots) :
    ∃ c, Collecting g roots none c ∧ c.pending = [] ∧ g.edges roots = c.found.reverse ∧
      ∀ steps, roots.length + g.size * g.size < steps →
        g.collect steps ⟨roots.reverse, [], []⟩ = c := by
  obtain ⟨hc, he⟩ := (collecting_start (g := g) roots).collect tr hr
    (roots.length + g.size * g.size + 1) (by simp)
  exact ⟨_, hc, he, rfl, fun steps hs => collect_of_le he hs⟩

/-- No edge is found twice, not even between other nodes that are the same. -/
theorem edges_distinct (tr : g.Traced) (hr : g.Requests roots) :
    Edges.Distinct g.sameEdge (g.edges roots) := by
  have hn : (g.edges roots).Nodup := by
    obtain ⟨c, hc, -, hd, -⟩ := exists_collection tr hr
    rw [hd]
    exact nodup_reverse.2 hc.nodup
  refine Pairwise.imp_of_mem ?_ hn
  intro e f he hf hne
  rw [Bool.eq_false_iff]
  intro hm
  obtain ⟨hs, ht⟩ := Bool.and_eq_true_iff.1 hm
  have hu := (closed_edges tr hr).unique e he f hf
  exact hne (Prod.ext (hu _ _ (.inl rfl) (.inl rfl) hs) (hu _ _ (.inr rfl) (.inr rfl) ht))

/-! ## What a walk reaches -/

/-- A walk that has not left what its roots need. -/
structure Rooted (g : Graph) (roots : List NodeId) (c : Collection) : Prop where
  pending : ∀ j ∈ c.pending, g.Within roots j
  nets : ∀ n ∈ c.nets, g.Below roots n.source
  found : ∀ e ∈ c.found, g.Below roots e.1 ∧ g.Within roots e.2

theorem rooted_start (g : Graph) (roots : List NodeId) : g.Rooted roots ⟨roots.reverse, [], []⟩ :=
  ⟨fun _ hj => .inl (mem_reverse.1 hj), by simp, by simp⟩

theorem representative_below {nets : List Net} {n : Net}
    (hs : ∀ m ∈ nets, g.Below roots m.source) (hn : g.Below roots n.source) :
    g.Below roots (g.representative nets n).1.source ∧
      ∀ m ∈ (g.representative nets n).2, g.Below roots m.source := by
  rw [representative]
  split
  · rename_i m hm
    exact ⟨hs m (mem_of_find?_eq_some hm), hs⟩
  · exact ⟨hn, forall_mem_cons.2 ⟨hn, hs⟩⟩

theorem Rooted.visit (h : g.Rooted roots c) (hk : g.Within roots k) {n : Net}
    (hn : n ∈ (g.node k).args) : g.Rooted roots (c.visit g k n) := by
  obtain ⟨hs, hns⟩ := representative_below h.nets (hk.operand hn)
  rw [Collection.visit]
  dsimp only
  split
  · exact ⟨h.pending, hns, h.found⟩
  · exact ⟨forall_mem_cons.2 ⟨.inr hs, h.pending⟩, hns, forall_mem_cons.2 ⟨⟨hs, hk⟩, h.found⟩⟩

theorem Rooted.visitAll (h : g.Rooted roots c) (hk : g.Within roots k) (ns : List Net)
    (hs : ∀ n ∈ ns, n ∈ (g.node k).args) : g.Rooted roots (ns.foldl (Collection.visit g k) c) := by
  induction ns generalizing c with
  | nil => exact h
  | cons n rest ih =>
    obtain ⟨hn, hr⟩ := forall_mem_cons.1 hs
    exact ih (h.visit hk hn) hr

/-- No walk leaves what its roots need, however many steps it takes. -/
theorem Rooted.collect (h : g.Rooted roots c) (steps : Nat) :
    g.Rooted roots (g.collect steps c) := by
  induction steps generalizing c with
  | zero => exact h
  | succ steps ih =>
    rw [Graph.collect]
    split
    · exact h
    · rename_i k rest hp
      have hk : g.Within roots k := h.pending k (by simp [hp])
      have hr : g.Rooted roots { c with pending := rest } :=
        ⟨fun j hj => h.pending j (by simp [hp, hj]), h.nets, h.found⟩
      exact ih (hr.visitAll hk _ fun _ => id)

theorem rooted_edges (g : Graph) (roots : List NodeId) :
    ∀ e ∈ g.edges roots, g.Below roots e.1 ∧ g.Within roots e.2 := fun e he =>
  ((rooted_start g roots).collect _).found e (mem_reverse.1 he)

/-! ## The order of execution -/

/-- **The order of execution computes everything once and in time.** The walk ends and finds
no edge twice. Its edges have an order in which every root stands once, and one node of each
class of equal nodes that the roots need; all nodes of the order are needed, and before each
one stands, for every operand, the node that is computed for it. -/
theorem executionOrder_once (tr : g.Traced) (hroots : g.Requests roots) :
    (∃ c : Collection, c.pending = [] ∧ g.edges roots = c.found.reverse ∧
      ∀ steps, roots.length + g.size * g.size < steps →
        g.collect steps ⟨roots.reverse, [], []⟩ = c) ∧
    (g.edges roots).Pairwise (fun e f => g.sameEdge e f = false) ∧
    ∃ order, g.sortEdges (g.edges roots) = .ok order ∧
      (∀ r ∈ roots, order.count r = 1) ∧
      (∀ k, g.Within roots k → order.countP (g.sameNode k) = 1) ∧
      (∀ k ∈ order, g.Within roots k) ∧
      ∀ l k r, order = l ++ k :: r →
        ∀ n ∈ (g.node k).args, ∃ j ∈ l, g.sameNode n.source j = true := by
  obtain ⟨c, -, hend, hd, ht⟩ := exists_collection tr hroots
  refine ⟨⟨c, hend, hd, ht⟩, edges_distinct tr hroots, ?_⟩
  obtain ⟨order, hsort, ho⟩ := exists_sortEdges tr hroots
  have hs := (closed_edges tr hroots).scheduled tr hroots ho
  have hc : ∀ k, g.Within roots k → ∃ j ∈ order, g.sameNode k j = true := by
    rintro k (hk | hk)
    · exact ⟨k, hs.root k hk, sameNode_self g k⟩
    · exact Schedule.exists_mem_order tr hs hk
  have hn : order.Nodup := hs.distinct.imp fun hf heq => by simp [heq] at hf
  refine ⟨order, hsort, ?_, ?_, ?_, hs.before⟩
  · exact fun r hr => List.count_eq_one_of_mem hn (hs.root r hr)
  · exact fun k hk => hs.distinct.countP_eq_one (equality_sameNode tr) (hc k hk)
  · intro k hk
    obtain ⟨e, he, rfl | rfl⟩ := ho.known k hk
    · exact .inr (rooted_edges g roots e he).1
    · exact (rooted_edges g roots e he).2

def keptProducts : Graph :=
  (Hashing.exchangedProducts.push (.root ⟨.int, 2⟩)).push (.root ⟨.int, 3⟩)

theorem keptProducts_traced : keptProducts.Traced := traced_of_checks (fun _ => true) (by decide)

/-- One of the requests is made twice. -/
theorem keptProducts_once :
    keptProducts.Traced ∧ keptProducts.Requests [4, 5, 4] ∧ keptProducts.Below [4, 5, 4] 2 ∧
      ∃ order, keptProducts.executionOrder [4, 5, 4] = .ok order ∧
        order.count 4 = 1 ∧ order.count 5 = 1 ∧ order.countP (keptProducts.sameNode 2) = 1 := by
  have hr : keptProducts.Requests [4, 5, 4] := by
    simp [Requests, keptProducts, Hashing.exchangedProducts, node, push, empty]
  have hb : keptProducts.Below [4, 5, 4] 2 :=
    .root (r := 4) (n := ⟨.int, 2⟩) (by simp) List.mem_cons_self
  obtain ⟨-, -, order, hs, ho, hn, -⟩ := executionOrder_once keptProducts_traced hr
  exact ⟨keptProducts_traced, hr, hb, order, hs, ho 4 (by simp),
    ho 5 (by simp), hn 2 (.inr hb)⟩

end Graph

end Patchwork
