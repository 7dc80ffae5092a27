import Patchwork.Proofs.Graph.Agreement
import Mathlib.Data.Nat.Find

/-!
# Equality of nodes is an equivalence

Two nodes are the same if they are operations that agree, or one constant written twice.
This is an equivalence, and equal nodes have equal operands. The eldest of equal nodes
stands for all of them, and an operand is older than the nodes that use it even when ages
are counted in this way: merging equal nodes closes no cycle.
-/

namespace Patchwork

open List

namespace Graph

variable {g : Graph} {hash : NodeId → UInt64} {a b c : NodeId}

/-! ## Equality of nodes -/

theorem sameNodeBy_iff (wf : g.WellFormed) : g.sameNodeBy hash a b ↔
    ((g.node a).isOperation ∧ (g.node b).isOperation ∧ Agrees g hash a b) ∨ g.sameLeaf a b := by
  rw [sameNodeBy]
  split
  · rename_i hab
    exact ⟨fun _ => .inr (sameLeaf_iff.2 (.inl hab)), fun _ => rfl⟩
  · rename_i hab
    split
    · rename_i ho
      rw [Bool.and_eq_true] at ho
      rw [agree_isSome_iff wf]
      refine ⟨fun h => .inl ⟨ho.1, ho.2, h⟩, ?_⟩
      rintro (⟨_, _, h⟩ | h)
      · exact h
      · obtain rfl | ⟨x, y, hx, _, _⟩ := sameLeaf_iff.1 h
        · exact .refl a
        · simp [hx, Node.isOperation] at ho
    · rename_i ho
      refine ⟨.inr, ?_⟩
      rintro (⟨ha, hb, _⟩ | h)
      · simp [ha, hb] at ho
      · exact h

theorem sameNode_iff (wf : g.WellFormed) : g.sameNode a b ↔
    ((g.node a).isOperation ∧ (g.node b).isOperation ∧ Agrees g g.hashOf a b) ∨
      g.sameLeaf a b := sameNodeBy_iff wf

@[simp] theorem sameNode_self (g : Graph) (k : NodeId) : g.sameNode k k :=
  sameNodeBy_self g g.hashOf k

theorem sameNode_of_agrees (wf : g.WellFormed) (h : Agrees g g.hashOf a b) : g.sameNode a b := by
  rw [sameNode_iff wf]
  cases h with
  | refl => exact .inr (sameLeaf_iff.2 (.inl rfl))
  | leaf _ _ hf => exact .inr hf
  | operation hh ho hs hl hg =>
    exact .inl ⟨ho, isOperation_of_stem wf ho hs, .operation hh ho hs hl hg⟩

theorem isOperation_of_sameNode (wf : g.WellFormed) (h : g.sameNode a b) :
    (g.node a).isOperation = (g.node b).isOperation := by
  obtain ⟨ha, hb, _⟩ | hl := (sameNode_iff wf).1 h
  · rw [ha, hb]
  · exact isOperation_of_sameLeaf hl

theorem sameNodeBy_symm (wf : g.WellFormed) (marked : g.Marked hash)
    (h : g.sameNodeBy hash a b) : g.sameNodeBy hash b a := by
  rw [sameNodeBy_iff wf] at h ⊢
  obtain ⟨ha, hb, h⟩ | h := h
  · exact .inl ⟨hb, ha, h.symm wf marked⟩
  · exact .inr (sameLeaf_symm h)

theorem sameNodeBy_trans (wf : g.WellFormed) (marked : g.Marked hash)
    (h : g.sameNodeBy hash a b) (h' : g.sameNodeBy hash b c) : g.sameNodeBy hash a c := by
  rw [sameNodeBy_iff wf] at h h' ⊢
  obtain ⟨ha, hb, h⟩ | h := h
  · obtain ⟨_, hc, h'⟩ | h' := h'
    · exact .inl ⟨ha, hc, h.trans wf marked h'⟩
    · obtain rfl | ⟨x, y, hx, _, _⟩ := sameLeaf_iff.1 h'
      · exact .inl ⟨ha, hb, h⟩
      · simp [hx, Node.isOperation] at hb
  · obtain ⟨hb, hc, h'⟩ | h' := h'
    · obtain rfl | ⟨x, y, _, hy, _⟩ := sameLeaf_iff.1 h
      · exact .inl ⟨hb, hc, h'⟩
      · simp [hy, Node.isOperation] at hb
    · exact .inr (sameLeaf_trans h h')

theorem sameNode_symm (tr : g.Traced) (h : g.sameNode a b) : g.sameNode b a :=
  sameNodeBy_symm tr.wellFormed tr.marked h

theorem sameNode_trans (tr : g.Traced) (h : g.sameNode a b) (h' : g.sameNode b c) :
    g.sameNode a c := sameNodeBy_trans tr.wellFormed tr.marked h h'

theorem sameNode_comm (tr : g.Traced) (a b : NodeId) : g.sameNode a b = g.sameNode b a := by
  rw [Bool.eq_iff_iff]
  exact ⟨sameNode_symm tr, sameNode_symm tr⟩

/-- Equal nodes are told apart from a third one in the same way. -/
theorem sameNode_congr (tr : g.Traced) (h : g.sameNode a b) (c : NodeId) :
    g.sameNode a c = g.sameNode b c := by
  rw [Bool.eq_iff_iff]
  exact ⟨sameNode_trans tr (sameNode_symm tr h), sameNode_trans tr h⟩

/-- Equal nodes have equal operands, though maybe in another order. -/
theorem exists_same_arg (wf : g.WellFormed) (h : g.sameNode a b) {n : Net}
    (hn : n ∈ (g.node a).args) : ∃ m ∈ (g.node b).args, g.sameNode n.source m.source := by
  obtain ⟨_, _, h⟩ | h := (sameNode_iff wf).1 h
  · obtain ⟨m, hm, hnm⟩ := h.exists_arg hn
    exact ⟨m, hm, sameNode_of_agrees wf hnm⟩
  · obtain rfl | ⟨x, y, hx, _, _⟩ := sameLeaf_iff.1 h
    · exact ⟨n, hn, sameNode_self g _⟩
    · simp [hx, Node.args] at hn

theorem isConstant_of_sameNode (wf : g.WellFormed) (h : g.sameNode a b) :
    (g.node a).isConstant = (g.node b).isConstant := by
  obtain ⟨ha, hb, _⟩ | h := (sameNode_iff wf).1 h
  · obtain ⟨o, args, c, ha⟩ := wf.exists_apply ha
    obtain ⟨p, args', c', hb⟩ := wf.exists_apply hb
    rw [ha, hb]
    rfl
  · obtain rfl | ⟨x, y, hx, hy, _⟩ := sameLeaf_iff.1 h
    · rfl
    · rw [hx, hy]
      rfl

theorem eq_of_sameNode_root (wf : g.WellFormed) {n : Net} (ha : g.node a = .root n)
    (h : g.sameNode a b) : a = b := by
  obtain ⟨ho, _, _⟩ | h := (sameNode_iff wf).1 h
  · simp [ha, Node.isOperation] at ho
  · obtain rfl | ⟨x, y, hx, _, _⟩ := sameLeaf_iff.1 h
    · rfl
    · simp [ha] at hx

/-! ## The eldest of equal nodes -/

/-- The first node that is the same computation as a given one. -/
def eldest (g : Graph) (k : NodeId) : NodeId :=
  Nat.find (p := fun j => g.sameNode j k = true) ⟨k, sameNode_self g k⟩

theorem sameNode_eldest (g : Graph) (k : NodeId) : g.sameNode (g.eldest k) k :=
  Nat.find_spec (p := fun j => g.sameNode j k) _

theorem eldest_le (h : g.sameNode a b) : g.eldest b ≤ a :=
  Nat.find_min' (p := fun j => g.sameNode j b) _ h

theorem eldest_eq (tr : g.Traced) (h : g.sameNode a b) : g.eldest a = g.eldest b := by
  refine Nat.le_antisymm (eldest_le ?_) (eldest_le ?_)
  · exact sameNode_trans tr (g.sameNode_eldest b) (sameNode_symm tr h)
  · exact sameNode_trans tr (g.sameNode_eldest a) h

/-- Operands are older than the nodes that use them, also if the ages are those of the
eldest equal nodes; so merging equal nodes closes no cycle. -/
theorem eldest_lt_of_arg (tr : g.Traced) {n : Net} (hn : n ∈ (g.node a).args) :
    g.eldest n.source < g.eldest a := by
  have hs := sameNode_symm tr (g.sameNode_eldest a)
  obtain ⟨m, hm, hnm⟩ := exists_same_arg tr.wellFormed hs hn
  calc g.eldest n.source ≤ m.source := eldest_le (sameNode_symm tr hnm)
    _ < g.eldest a := (tr.wellFormed _).before m hm

/-! ## Nodes that are needed -/

section Needed

variable {roots : List NodeId}

def Needed (g : Graph) (roots : List NodeId) (k : NodeId) : Prop :=
  ∃ j, g.Within roots j ∧ g.sameNode j k = true

theorem Within.needed (h : g.Within roots a) : g.Needed roots a := ⟨a, h, sameNode_self g a⟩

theorem needed_self (g : Graph) (a : NodeId) : g.Needed [a] a :=
  Within.needed (.inl (mem_singleton_self a))

theorem Needed.congr (tr : g.Traced) (h : g.Needed roots a) (ha : g.sameNode a b) :
    g.Needed roots b := by
  obtain ⟨j, hj, hja⟩ := h
  exact ⟨j, hj, sameNode_trans tr hja ha⟩

theorem Needed.operand (tr : g.Traced) (h : g.Needed roots a) {n : Net}
    (hn : n ∈ (g.node a).args) : g.Needed roots n.source := by
  obtain ⟨j, hj, ha⟩ := h
  obtain ⟨m, hm, hnm⟩ := exists_same_arg tr.wellFormed (sameNode_symm tr ha) hn
  exact ⟨m.source, .inr (hj.operand hm), sameNode_symm tr hnm⟩

theorem Below.eldest_lt (tr : g.Traced) (h : g.Below [a] b) : g.eldest b < g.eldest a := by
  induction h with
  | root hr hn =>
    obtain rfl := mem_singleton.1 hr
    exact eldest_lt_of_arg tr hn
  | operand _ hn ih => exact Nat.lt_trans (eldest_lt_of_arg tr hn) ih

/-- A node needs only nodes that are not younger. -/
theorem Needed.eldest_le (tr : g.Traced) (h : g.Needed [a] b) : g.eldest b ≤ g.eldest a := by
  obtain ⟨j, hj, hb⟩ := h
  rw [← eldest_eq tr hb]
  rcases hj with hj | hj
  · exact Nat.le_of_eq (congrArg g.eldest (mem_singleton.1 hj))
  · exact Nat.le_of_lt (hj.eldest_lt tr)

theorem Within.below_of_operand {n : Net} (h : g.Within [n.source] b)
    (hn : n ∈ (g.node a).args) : g.Below [a] b := by
  have ht : g.Below [a] n.source := .root (mem_singleton_self a) hn
  rcases h with h | h
  · exact mem_singleton.1 h ▸ ht
  · induction h with
    | root hr hm => exact .operand (mem_singleton.1 hr ▸ ht) hm
    | operand _ hm ih => exact .operand ih hm

theorem Below.exists_operand (h : g.Below [a] b) :
    ∃ n ∈ (g.node a).args, g.Within [n.source] b := by
  induction h with
  | @root r n hr hn => exact ⟨n, mem_singleton.1 hr ▸ hn, .inl (mem_singleton_self _)⟩
  | operand _ hm ih =>
    obtain ⟨n, hn, hw⟩ := ih
    exact ⟨n, hn, .inr (hw.operand hm)⟩

/-- A node needs itself and what its operands need. -/
theorem needed_iff : g.Needed [a] b ↔
    g.sameNode a b ∨ ∃ n ∈ (g.node a).args, g.Needed [n.source] b := by
  constructor
  · rintro ⟨j, hj | hj, hb⟩
    · exact .inl (mem_singleton.1 hj ▸ hb)
    · obtain ⟨n, hn, hw⟩ := hj.exists_operand
      exact .inr ⟨n, hn, j, hw, hb⟩
  · rintro (ha | ⟨n, hn, j, hj, hb⟩)
    · exact ⟨a, .inl (mem_singleton_self a), ha⟩
    · exact ⟨j, .inr (hj.below_of_operand hn), hb⟩

theorem Needed.congr_root (tr : g.Traced) (h : g.Needed [a] c) (ha : g.sameNode a b) :
    g.Needed [b] c := by
  induction a using Nat.strongRecOn generalizing b with
  | _ a ih =>
    rcases needed_iff.1 h with hc | ⟨n, hn, hd⟩
    · exact needed_iff.2 (.inl (sameNode_trans tr (sameNode_symm tr ha) hc))
    · obtain ⟨m, hm, hnm⟩ := exists_same_arg tr.wellFormed ha hn
      exact needed_iff.2 (.inr ⟨m, hm, ih n.source ((tr.wellFormed a).before n hn) hd hnm⟩)

theorem Needed.trans (tr : g.Traced) (h : g.Needed roots a) (h' : g.Needed [a] b) :
    g.Needed roots b := by
  induction a using Nat.strongRecOn with
  | _ a ih =>
    rcases needed_iff.1 h' with ha | ⟨n, hn, hd⟩
    · exact h.congr tr ha
    · exact ih n.source ((tr.wellFormed a).before n hn) (h.operand tr hn) hd

end Needed

end Graph

end Patchwork
