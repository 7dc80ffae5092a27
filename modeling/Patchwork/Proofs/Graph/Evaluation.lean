import Patchwork.Machine.Stencil
import Patchwork.Proofs.Graph.Equality

/-!
# The value of a node

The value of a node under an interpretation and a valuation of the constants, and what
equality of nodes means for it. Equal nodes have equal values as soon as the valuation
does not tell equal constants apart.
-/

namespace Patchwork

open Function List

/-! ## Operations -/

namespace Operation

def ofStem? (s : String) : Option Operation := all.find? (·.stem == s)

theorem ofStem?_stem (o : Operation) :
    ofStem? o.stem = some (match o with | cast _ => cast .int | o => o) := by
  cases o with
  | cast t => cases t <;> decide
  | _ => decide

/-- A conversion goes to the type that its operand does not have. -/
theorem cast_eq_of_result {t u : Cell} {cells : List Cell} (ht : ((cast t).result? cells).isSome)
    (hu : ((cast u).result? cells).isSome) : t = u := by
  cases t <;> cases u <;> simp only [result?] at ht hu <;> split at ht <;> simp_all

/-- Stem and operand types tell what an operation is, if it has a stencil. -/
theorem eq_of_stem {o p : Operation} {cells : List Cell} (hs : o.stem = p.stem)
    (ho : (o.result? cells).isSome) (hp : (p.result? cells).isSome) : o = p := by
  have h := ofStem?_stem o
  rw [hs, ofStem?_stem p, Option.some.injEq] at h
  split at h
  · split at h
    · rw [cast_eq_of_result ho hp]
    · rename_i hc
      exact absurd h.symm (hc .int)
  · split at h
    · rename_i hc _ _
      exact absurd h (hc .int)
    · exact h.symm

theorem length_of_result {o : Operation} {cells : List Cell} (h : (o.result? cells).isSome) :
    cells.length = 1 ∨ cells.length = 2 := by
  unfold result? at h
  split at h <;> simp at h ⊢

end Operation

def Interpretation.applied (i : Interpretation) (o : Operation) (operands : List (Cell × Word)) :
    Word :=
  i.result o (operands.map Prod.fst) ((operands[0]?.map Prod.snd).getD 0)
    ((operands[1]?.map Prod.snd).getD 0)

namespace Graph

variable {g : Graph} {hash : NodeId → UInt64} {i : Interpretation} {v : NodeId → Word}
  {a b k : NodeId} {o p : Operation} {xs ys : List Net} {c d : Bool}

/-! ## Values -/

def operands (value : NodeId → Word) (args : List Net) : List (Cell × Word) :=
  args.map fun a => (a.cell, value a.source)

/-- The value of a node, where the valuation gives the values of constants. -/
def evaluate (i : Interpretation) (g : Graph) (v : NodeId → Word) (k : NodeId) : Word :=
  match g.node k with
  | .apply o args _ =>
    i.applied o (operands (fun x => if x < k then evaluate i g v x else 0) args)
  | _ => v k
termination_by k

theorem evaluate_apply (wf : g.WellFormed) (h : g.node k = .apply o xs c) :
    g.evaluate i v k = i.applied o (operands (g.evaluate i v) xs) := by
  have hb := (wf k).before
  rw [h] at hb
  rw [evaluate, h]
  refine congrArg (i.applied o) (map_congr_left fun n hn => ?_)
  simp only [if_pos (hb n hn)]

theorem evaluate_leaf (h : (g.node k).isOperation = false) : g.evaluate i v k = v k := by
  rw [evaluate]
  split
  · rename_i hk
    simp [hk, Node.isOperation] at h
  · rfl

/-! ## Operands of nodes that agree -/

/-- What is the same for each pair of operands is the same for all of them, up to their
order if that does not count. -/
theorem map_args_of_pairs {β : Type*} (f : NodeId → β)
    (hl : (g.node a).args.length = (g.node b).args.length)
    (hg : ∀ p ∈ g.pairedArgs hash a b, f p.1 = f p.2) :
    ((g.node a).args.map (f ·.source)).Perm ((g.node b).args.map (f ·.source)) ∧
      ((g.node a).isCommutative = false →
        (g.node a).args.map (f ·.source) = (g.node b).args.map (f ·.source)) := by
  have ho : (g.orderedSources hash (g.node a).isCommutative a).map f =
      (g.orderedSources hash (g.node a).isCommutative b).map f := by
    refine ext_getElem (by simpa using hl) fun n hn hn' => ?_
    rw [length_map] at hn hn'
    rw [getElem_map, getElem_map]
    refine hg (_, _) ?_
    rw [pairedArgs_eq, ← getElem_zip]
    exact getElem_mem (by rw [length_zip]; exact Nat.lt_min.2 ⟨hn, hn'⟩)
  constructor
  · have hp := ((g.orderedSources_perm hash (g.node a).isCommutative a).map f).symm.trans
      (ho ▸ (g.orderedSources_perm hash (g.node a).isCommutative b).map f)
    simpa [map_map, comp_def] using hp
  · intro hm
    simpa [hm, orderedSources, map_map, comp_def] using ho

section

variable (wf : g.WellFormed)

include wf

/-- Two operations that agree are one operation, and their results have one type. -/
theorem operation_eq (ha : g.node a = .apply o xs c)
    (hb : g.node b = .apply p ys d) (hs : o.stem = p.stem)
    (he : (xs.map Net.cell).Perm (ys.map Net.cell))
    (heq : c = false → xs.map Net.cell = ys.map Net.cell) :
    o = p ∧ o.result? (xs.map Net.cell) = p.result? (ys.map Net.cell) := by
  have hr : o.result? (xs.map Net.cell) = o.result? (ys.map Net.cell) := by
    cases c with
    | false => rw [heq rfl]
    | true => exact ((wf a).exchangeable o xs ha _ he.symm).symm
  have ho := (wf a).covered o xs c ha
  have hp := (wf b).covered p ys d hb
  obtain rfl := Operation.eq_of_stem hs (hr ▸ ho) hp
  exact ⟨rfl, hr⟩

theorem WellFormed.map_cell? (k : NodeId) :
    (g.node k).args.map (fun n => (g.node n.source).cell?) = (g.node k).args.map (some ·.cell) :=
  map_congr_left fun n hn => (wf k).typed n hn

theorem cell?_of_agrees (h : Agrees g hash a b) : (g.node a).cell? = (g.node b).cell? := by
  induction h with
  | refl => rfl
  | leaf _ _ hf =>
    obtain rfl | ⟨x, y, hx, hy, hxy⟩ := sameLeaf_iff.1 hf
    · rfl
    · rw [hx, hy]
      exact congrArg some (Number.cell_of_same hxy)
  | @operation a b _ ho hs hl _ ih =>
    obtain ⟨hp, heq⟩ := map_args_of_pairs (fun k => (g.node k).cell?) hl ih
    obtain ⟨o, xs, c, ha⟩ := wf.exists_apply ho
    obtain ⟨p, ys, d, hb⟩ := wf.exists_apply (isOperation_of_stem wf ho hs)
    rw [wf.map_cell?, wf.map_cell?, ha, hb] at hp heq
    rw [ha, hb] at hs ⊢
    refine (operation_eq wf ha hb hs ?_ ?_).2
    · simpa [map_map, comp_def, Node.args] using hp.map (Option.getD · .int)
    · intro hc
      simpa [map_map, comp_def, Node.args]
        using congrArg (List.map (Option.getD · Cell.int)) (heq hc)

/-- A node that agrees with an operation is that operation, on as many operands. -/
theorem apply_of_agrees (h : Agrees g hash a b) (ha : g.node a = .apply o xs c) :
    ∃ ys d, g.node b = .apply o ys d ∧ xs.length = ys.length := by
  cases h with
  | refl => exact ⟨xs, c, ha, rfl⟩
  | leaf _ ho _ => simp [ha, Node.isOperation] at ho
  | operation _ ho hs hl hg =>
    obtain ⟨p, ys, d, hb⟩ := wf.exists_apply (isOperation_of_stem wf ho hs)
    obtain ⟨hp, heq⟩ := map_args_of_pairs (fun k => (g.node k).cell?) hl
      fun q hq => cell?_of_agrees wf (hg q hq)
    rw [wf.map_cell?, wf.map_cell?, ha, hb] at hp heq
    rw [ha, hb] at hs hl
    obtain ⟨rfl, -⟩ := operation_eq wf ha hb hs
      (by simpa [map_map, comp_def, Node.args] using hp.map (Option.getD · .int)) (fun hc => by
        simpa [map_map, comp_def, Node.args]
          using congrArg (List.map (Option.getD · Cell.int)) (heq hc))
    exact ⟨ys, d, hb, hl⟩

/-! ## Equal nodes have equal values -/

/-- The interpretation does not mind the order of operands that the graph exchanges. -/
def Respected (g : Graph) (i : Interpretation) : Prop :=
  ∀ k o x y, g.node k = .apply o [x, y] true → ∀ a b,
    i.result o [x.cell, y.cell] a b = i.result o [y.cell, x.cell] b a

omit wf in
theorem pair_of_perm {α : Type*} {x y x' y' : α} (h : [x, y].Perm [x', y']) :
    (x' = x ∧ y' = y) ∨ (x' = y ∧ y' = x) := by
  obtain rfl | hx : x' = x ∨ x' = y := by simpa using h.symm.subset (by simp : x' ∈ [x', y'])
  · exact .inl ⟨rfl, (singleton_perm_singleton.1 ((perm_cons x').1 h)).symm⟩
  · subst hx
    have h' := (Perm.swap x x' []).trans h
    exact .inr ⟨rfl, (singleton_perm_singleton.1 ((perm_cons x').1 h')).symm⟩

theorem applied_perm (respected : g.Respected i)
    (hk : g.node k = .apply o xs true) {value : NodeId → Word} {ws : List (Cell × Word)}
    (hp : (operands value xs).Perm ws) : i.applied o (operands value xs) = i.applied o ws := by
  have hl := Operation.length_of_result ((wf k).covered o xs true hk)
  have hw := hp.length_eq
  rw [length_map] at hl
  match xs, ws, hl with
  | [x], [w], _ =>
    obtain rfl := singleton_perm_singleton.1 hp
    rfl
  | [x, y], [w, w'], _ =>
    obtain ⟨rfl, rfl⟩ | ⟨rfl, rfl⟩ := pair_of_perm hp
    · rfl
    · exact respected k o x y hk _ _

theorem operands_of_pairs {value : NodeId → Word}
    (ha : g.node a = .apply o xs c) (hb : g.node b = .apply p ys d) (hl : xs.length = ys.length)
    (hg : ∀ p ∈ g.pairedArgs hash a b, Agrees g hash p.1 p.2 ∧ value p.1 = value p.2) :
    (operands value xs).Perm (operands value ys) ∧
      (c = false → operands value xs = operands value ys) := by
  have hl' : (g.node a).args.length = (g.node b).args.length := by rwa [ha, hb]
  have hr : ∀ q ∈ g.pairedArgs hash a b, ((g.node q.1).cell?.getD .int, value q.1) =
      ((g.node q.2).cell?.getD .int, value q.2) := by
    intro q hq
    rw [cell?_of_agrees wf (hg q hq).1, (hg q hq).2]
  obtain ⟨hp, heq⟩ := map_args_of_pairs (fun k => ((g.node k).cell?.getD .int, value k)) hl' hr
  have ht : ∀ k, (g.node k).args.map
      (fun n => ((g.node n.source).cell?.getD .int, value n.source)) =
        operands value (g.node k).args := by
    intro k
    refine map_congr_left fun n hn => ?_
    rw [(wf k).typed n hn]
    rfl
  rw [ht, ht, ha, hb] at hp heq
  exact ⟨hp, heq⟩

/-- Nodes that agree have one value, if the valuation does not tell equal constants
apart. -/
theorem evaluate_of_agrees (respected : g.Respected i)
    (hv : ∀ a b, g.sameLeaf a b → v a = v b) (h : Agrees g hash a b) :
    g.evaluate i v a = g.evaluate i v b := by
  induction h with
  | refl => rfl
  | leaf _ ho hf =>
    rw [evaluate_leaf ho, evaluate_leaf (isOperation_of_sameLeaf hf ▸ ho)]
    exact hv _ _ hf
  | @operation a b _ ho hs hl hg ih =>
    obtain ⟨o, xs, c, ha⟩ := wf.exists_apply ho
    obtain ⟨p, ys, d, hb⟩ := wf.exists_apply (isOperation_of_stem wf ho hs)
    rw [ha, hb] at hs hl
    obtain ⟨hp, heq⟩ := operands_of_pairs wf ha hb hl fun q hq => ⟨hg q hq, ih q hq⟩
    have hcl : ∀ zs, (operands (g.evaluate i v) zs).map Prod.fst = zs.map Net.cell := by
      simp [operands]
    obtain ⟨rfl, -⟩ := operation_eq wf ha hb hs (by simpa [hcl] using hp.map Prod.fst)
      (fun hc => by simpa [hcl] using congrArg (List.map Prod.fst) (heq hc))
    rw [evaluate_apply wf ha, evaluate_apply wf hb]
    cases c with
    | false => rw [heq rfl]
    | true => exact applied_perm wf respected ha hp

/-- Equal nodes have equal values, if the valuation does not tell equal constants
apart. -/
theorem evaluate_congr (respected : g.Respected i)
    (hv : ∀ a b, g.sameLeaf a b → v a = v b) (h : g.sameNode a b) :
    g.evaluate i v a = g.evaluate i v b := by
  obtain ⟨_, _, h⟩ | h := (sameNode_iff wf).1 h
  · exact evaluate_of_agrees wf respected hv h
  · obtain rfl | ⟨x, y, hx, hy, _⟩ := sameLeaf_iff.1 h
    · rfl
    · rw [evaluate_leaf (by rw [hx]; rfl), evaluate_leaf (by rw [hy]; rfl)]
      exact hv a b h

end

end Graph

end Patchwork
