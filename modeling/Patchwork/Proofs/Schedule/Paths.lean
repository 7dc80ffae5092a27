import Patchwork.Proofs.Schedule.Between
import Patchwork.Proofs.Schedule.Execution

/-!
# Exactly the edges on paths from leaves to roots

The walk up starts from the leaves and follows the users that the walk down has listed. It
stays on paths that begin at a leaf, because the source of an edge is a leaf or the target of
an edge found before. It leaves out none, because whatever lies on such a path is reached from
the operand below it. Equal nodes are one node for both walks.
-/

namespace Patchwork

namespace Graph

variable {g : Graph} {roots leaves : List NodeId} {edges : List Edge} {child parent : NodeId}

/-- An edge on a path from a leaf to a root: its target is a root or needed by one, uses
the source, and the source is a leaf or depends on one, all of this up to equality. -/
structure Connects (g : Graph) (roots leaves : List NodeId) (child parent : NodeId) : Prop where
  needed : g.Needed roots parent
  operand : ∃ n ∈ (g.node parent).args, g.sameNode n.source child = true
  leaf : ∃ leaf ∈ leaves, g.Needed [child] leaf

section

variable (h : g.Between roots leaves edges) (tr : g.Traced)

include h tr

/-- No path is left out: a node that depends on a leaf is joined to all its users. -/
theorem Between.joins_of_connects
    (ho : g.Connects roots leaves child parent) : g.Joins edges child parent := by
  obtain ⟨hp, ⟨n, hn, hc⟩, leaf, hl, hd⟩ := ho
  induction child using Nat.strongRecOn generalizing parent n with
  | _ child ih =>
    suffices hr : ∃ k, Reached leaves edges k ∧ g.sameNode child k by
      obtain ⟨k, hk, hs⟩ := hr
      exact (h.every k hk parent hp n hn (sameNode_trans tr hc hs)).congr tr hs
    rcases needed_iff.1 hd with hs | ⟨m, hm, hd⟩
    · exact ⟨leaf, .inl hl, hs⟩
    · -- The edge from the operand below has been found, and it leads here.
      have hnee : g.Needed roots child := (hp.operand tr hn).congr tr hc
      obtain ⟨e, he, hs⟩ := ih m.source ((tr.wellFormed child).before m hm) hnee m hm
        (sameNode_self g _) hd
      exact ⟨e.2, .inr ⟨e, he, rfl⟩, (Bool.and_eq_true_iff.1 hs).2⟩

/-- Edges that leave out no user are those on paths from leaves to roots. -/
theorem Between.joins_iff : g.Joins edges child parent ↔ g.Connects roots leaves child parent := by
  refine ⟨?_, h.joins_of_connects tr⟩
  rintro ⟨e, he, hs⟩
  obtain ⟨hc, hp⟩ := Bool.and_eq_true_iff.1 hs
  refine ⟨(h.user e he).needed.congr tr (sameNode_symm tr hp), ?_, ?_⟩
  · obtain ⟨n, hn, hne⟩ := h.operand e he
    obtain ⟨m, hm, hnm⟩ := exists_same_arg tr.wellFormed (sameNode_symm tr hp) hn
    refine ⟨m, hm, sameNode_trans tr (sameNode_symm tr hnm) ?_⟩
    exact sameNode_trans tr hne (sameNode_symm tr hc)
  · obtain ⟨leaf, hl, hd⟩ := h.exists_leaf tr he
    exact ⟨leaf, hl, hd.congr_root tr (sameNode_symm tr hc)⟩

theorem Between.exists_source {leaf k : NodeId}
    (hl : leaf ∈ leaves) (hk : g.Below roots k) (hs : g.sameNode k leaf) :
    ∃ e ∈ edges, g.sameNode e.1 leaf := by
  obtain ⟨u, hu, n, hn, rfl⟩ := hk.exists_user
  obtain ⟨e, he, hj⟩ := h.joins_of_connects tr ⟨hu.needed, ⟨n, hn, hs⟩, leaf, hl,
    needed_self g leaf⟩
  exact ⟨e, he, sameNode_symm tr (Bool.and_eq_true_iff.1 hj).1⟩

end

/-- **The walks find exactly the edges on paths from leaves to roots, each one once**, if every
leaf is properly needed by a root. Both walks come to an end, nothing is refused, and it does
not matter in which order the users of a node are gone through. -/
theorem edgesFromLeaves_exact (tr : g.Traced) (roots leaves : List NodeId) {order : SetOrder}
    (horder : order.Permutes)
    (hleaves : ∀ leaf ∈ leaves, ∃ k, g.Below roots k ∧ g.sameNode k leaf = true) :
    ∃ edges, g.edgesFromLeaves roots leaves order = .ok edges ∧ g.Finds roots leaves order edges ∧
      edges.Pairwise (fun e f => g.sameEdge e f = false) ∧
      ∀ child parent, g.Joins edges child parent ↔ g.Connects roots leaves child parent := by
  obtain ⟨hf, h⟩ := finds_edgesBetween tr roots leaves horder
  refine ⟨_, ?_, hf, h.distinct, fun child parent => h.joins_iff tr⟩
  rw [edgesFromLeaves, if_pos]
  refine List.all_eq_true.2 fun leaf hl => List.any_eq_true.2 ?_
  obtain ⟨k, hk, hs⟩ := hleaves leaf hl
  exact h.exists_source tr hl hk hs

/-- Between the first factor and the requests there are edges to the products and on from them,
and none from the second factor. -/
theorem keptProducts_edges_exact :
    ∃ edges, keptProducts.edgesFromLeaves [4, 5] [0] = .ok edges ∧
      keptProducts.Joins edges 0 3 ∧ keptProducts.Joins edges 3 5 ∧
      ¬ keptProducts.Joins edges 1 2 := by
  have hp : keptProducts.Below [4, 5] 3 :=
    .root (r := 5) (n := ⟨.int, 3⟩) (by simp) List.mem_cons_self
  have hf : keptProducts.Below [4, 5] 0 := .operand (n := ⟨.int, 0⟩) hp (by decide)
  obtain ⟨edges, hg, -, -, he⟩ := edgesFromLeaves_exact keptProducts_traced [4, 5] [0]
    SetOrder.permutes_default (List.forall_mem_singleton.2 ⟨0, hf, by decide⟩)
  have hs := needed_self keptProducts 0
  refine ⟨edges, hg, (he 0 3).2 ⟨Within.needed (.inr hp), by decide, 0, by simp, hs⟩,
    (he 3 5).2 ⟨Within.needed (.inl (by simp)), by decide, 0, by simp, ?_⟩, fun hj => ?_⟩
  · exact needed_iff.2 (.inr ⟨⟨.int, 0⟩, by decide, hs⟩)
  · obtain ⟨leaf, hl, hd⟩ := ((he 1 2).1 hj).leaf
    obtain rfl := List.mem_singleton.1 hl
    rcases needed_iff.1 hd with ha | ⟨n, hn, -⟩
    · exact absurd ha (by decide)
    · cases hn

end Graph

end Patchwork
