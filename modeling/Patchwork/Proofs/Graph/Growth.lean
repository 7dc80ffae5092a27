import Patchwork.Graph.Trace
import Patchwork.Proofs.Graph.Evaluation

/-!
# Growing graphs

Tracing appends nodes. What stands in a graph stays as it is: nodes, hashes, equality of
nodes, and whatever is computed bottom-up. A fold over a graph is such a computation, and
it does not tell equal nodes apart if its steps do not.
-/

namespace Patchwork

open Graph List

namespace Graph

variable {g g' g'' : Graph} {a b k : NodeId}

/-- A graph extends another one: it has the same nodes with the same hashes, and maybe
more. -/
structure Extends (g g' : Graph) : Prop where
  size : g.size ≤ g'.size
  node : ∀ k < g.size, g'.node k = g.node k
  hash : ∀ k < g.size, g'.hashOf k = g.hashOf k

theorem Extends.refl (g : Graph) : g.Extends g := ⟨Nat.le_refl _, fun _ _ => rfl, fun _ _ => rfl⟩

theorem Extends.trans (h : g.Extends g') (h' : g'.Extends g'') : g.Extends g'' where
  size := Nat.le_trans h.size h'.size
  node k hk := (h'.node k (Nat.lt_of_lt_of_le hk h.size)).trans (h.node k hk)
  hash k hk := (h'.hash k (Nat.lt_of_lt_of_le hk h.size)).trans (h.hash k hk)

theorem hashOf_push_size (g : Graph) (n : Node) :
    (g.push n).hashOf g.size = g.nodeHash g.size n := by
  simp [push, hashOf, size, Array.getD, ← g.hashed]

theorem hashOf_of_size_le (h : g.size ≤ k) : g.hashOf k = 0 := by
  have h' : g.hashes.size ≤ k := by
    rw [g.hashed]
    exact h
  simp [hashOf, Array.getD, Nat.not_lt.2 h']

theorem extends_push (g : Graph) (n : Node) : g.Extends (g.push n) where
  size := by simp
  node _ hk := node_push_of_lt g n hk
  hash _ hk := hashOf_push_of_lt g n hk

/-! ## Equality -/

theorem Extends.sameLeaf (h : g.Extends g') (ha : a < g.size) (hb : b < g.size) :
    g'.sameLeaf a b = g.sameLeaf a b := by
  rw [Graph.sameLeaf, Graph.sameLeaf, h.node a ha, h.node b hb]

theorem Extends.pairedArgs (h : g.Extends g') (wf : g.WellFormed) (ha : a < g.size)
    (hb : b < g.size) : g'.pairedArgs g'.hashOf a b = g.pairedArgs g.hashOf a b := by
  have hs : ∀ k < g.size, Graph.sortedArgs g'.hashOf (g.node k).args =
      Graph.sortedArgs g.hashOf (g.node k).args := by
    intro k hk
    have hm := map_mergeSort (f := id) (l := (g.node k).args)
      (r := fun x y => g'.hashOf x.source ≤ g'.hashOf y.source)
      (s := fun x y => g.hashOf x.source ≤ g.hashOf y.source) ?_
    · simpa [sortedArgs] using hm
    · intro x hx y hy
      rw [id, id, h.hash _ (Nat.lt_trans ((wf k).before x hx) hk),
        h.hash _ (Nat.lt_trans ((wf k).before y hy) hk)]
  rw [Graph.pairedArgs, Graph.pairedArgs, h.node a ha, h.node b hb, hs a ha, hs b hb]

theorem mem_pairedArgs_lt (wf : g.WellFormed) {hash : NodeId → UInt64} {p : NodeId × NodeId}
    (hp : p ∈ g.pairedArgs hash a b) : p.1 < a ∧ p.2 < b := by
  rw [pairedArgs_eq] at hp
  have he := of_mem_zip (a := p.1) (b := p.2) hp
  obtain ⟨m, hm, hl⟩ := mem_orderedSources.1 he.1
  obtain ⟨n, hn, hr⟩ := mem_orderedSources.1 he.2
  exact ⟨hl ▸ (wf a).before m hm, hr ▸ (wf b).before n hn⟩

/-- Comparing pairs of operands depends on the comparisons of the operands only. -/
theorem agreeAll_congr {above : NodeId} {known : NodeId → Prop}
    (below : ∀ x < above, ∀ y, known y → ∀ seen,
      agree g' g'.hashOf x y seen = agree g g.hashOf x y seen) :
    ∀ (pairs : List (NodeId × NodeId)) (seen : Agreed), (∀ p ∈ pairs, known p.2) →
      agreeAll g' g'.hashOf above pairs seen = agreeAll g g.hashOf above pairs seen := by
  intro pairs
  induction pairs with
  | nil =>
    intro seen _
    rw [agreeAll, agreeAll]
  | cons p rest ih =>
    obtain ⟨x, y⟩ := p
    intro seen hp
    obtain ⟨hy, hr⟩ := forall_mem_cons.1 hp
    rw [agreeAll, agreeAll]
    by_cases hxy : x = y
    · rw [if_pos hxy, if_pos hxy, ih seen hr]
    · rw [if_neg hxy, if_neg hxy]
      by_cases hx : x < above
      · rw [if_pos hx, if_pos hx, below x hx y hy seen]
        cases agree g g.hashOf x y seen with
        | none => rfl
        | some seen' => exact ih seen' hr
      · rw [if_neg hx, if_neg hx]

/-- The walk that compares two nodes goes down only, so it does not notice new nodes. -/
theorem Extends.agree (h : g.Extends g') (wf : g.WellFormed) (ha : a < g.size) (hb : b < g.size)
    (seen : Agreed) : agree g' g'.hashOf a b seen = agree g g.hashOf a b seen := by
  induction a using Nat.strongRecOn generalizing b seen with
  | _ a ih =>
    have hl : agreeAll g' g'.hashOf a (g.pairedArgs g.hashOf a b) seen =
        agreeAll g g.hashOf a (g.pairedArgs g.hashOf a b) seen := by
      refine agreeAll_congr (fun x hx y hy seen => ih x hx (Nat.lt_trans hx ha) hy seen) _ _ ?_
      exact fun p hp => Nat.lt_trans (mem_pairedArgs_lt wf hp).2 hb
    rw [agree, agree, h.hash a ha, h.hash b hb, h.node a ha, h.node b hb,
      h.pairedArgs wf ha hb, h.sameLeaf ha hb, hl]

theorem Extends.sameNode (h : g.Extends g') (wf : g.WellFormed) (ha : a < g.size)
    (hb : b < g.size) : g'.sameNode a b = g.sameNode a b := by
  rw [Graph.sameNode, Graph.sameNode, sameNodeBy, sameNodeBy, h.node a ha, h.node b hb,
    h.agree wf ha hb, h.sameLeaf ha hb]

/-! ## Folds -/

section Fold

variable {α : Type*}

def fold (g : Graph) (leaf : NodeId → α) (step : NodeId → Operation → List α → α) (k : NodeId) : α :=
  match g.node k with
  | .apply o args _ =>
    step k o (args.map fun a => if a.source < k then g.fold leaf step a.source else leaf k)
  | _ => leaf k
termination_by k

variable {leaf : NodeId → α} {step : NodeId → Operation → List α → α}

theorem fold_apply {o : Operation} {args : List Net} {c : Bool} (h : g.node k = .apply o args c)
    (hb : ∀ a ∈ args, a.source < k) :
    g.fold leaf step k = step k o (args.map fun a => g.fold leaf step a.source) := by
  rw [fold, h]
  refine congrArg (step k o) (map_congr_left fun n hn => ?_)
  rw [if_pos (hb n hn)]

theorem fold_leaf (h : (g.node k).isOperation = false) : g.fold leaf step k = leaf k := by
  rw [fold]
  split
  · next hk => simp [hk, Node.isOperation] at h
  · rfl

/-- A fold goes down only, so it does not notice new nodes. -/
theorem Extends.fold (h : g.Extends g') {leaf' : NodeId → α}
    {step' : NodeId → Operation → List α → α} (hl : ∀ j < g.size, leaf' j = leaf j)
    (hs : ∀ j < g.size, step' j = step j) (hk : k < g.size) :
    g'.fold leaf' step' k = g.fold leaf step k := by
  induction k using Nat.strongRecOn with
  | _ k ih =>
    rw [Graph.fold, Graph.fold, h.node k hk]
    cases g.node k with
    | apply o args c =>
      dsimp only
      rw [hs k hk]
      refine congrArg (step k o) (map_congr_left fun a _ => ?_)
      by_cases ha : a.source < k
      · rw [if_pos ha, if_pos ha, ih a.source ha (Nat.lt_trans ha hk)]
      · rw [if_neg ha, if_neg ha, hl k hk]
    | _ => exact hl k hk

theorem fold_map {β : Type*} {leaf' : NodeId → β} {step' : NodeId → Operation → List β → β}
    (f : α → β) (hl : ∀ j, f (leaf j) = leaf' j)
    (hs : ∀ j o xs, f (step j o xs) = step' j o (xs.map f)) (k : NodeId) :
    f (g.fold leaf step k) = g.fold leaf' step' k := by
  induction k using Nat.strongRecOn with
  | _ k ih =>
    rw [fold, fold]
    cases g.node k with
    | apply o args c =>
      dsimp only
      rw [hs, map_map]
      refine congrArg (step' k o) (map_congr_left fun a _ => ?_)
      rw [Function.comp_apply]
      by_cases ha : a.source < k
      · rw [if_pos ha, if_pos ha, ih a.source ha]
      · rw [if_neg ha, if_neg ha, hl]
    | _ => exact hl k

/-- What a fold promises if it is not to tell equal nodes apart: its leaves do not, its steps
do not, and a step that may exchange operands does not mind their order. -/
structure Respects (g : Graph) (P : NodeId → Prop) (leaf : NodeId → α)
    (step : NodeId → Operation → List α → α) : Prop where
  leaves : ∀ a b, g.sameLeaf a b = true → leaf a = leaf b
  steps : ∀ a b, g.sameNode a b = true → step a = step b
  exchange : ∀ k o args, P k → g.node k = .apply o args true → ∀ xs ys : List α, xs.Perm ys →
    step k o xs = step k o ys
  below : ∀ k, P k → ∀ n ∈ (g.node k).args, P n.source

theorem fold_of_agrees {P : NodeId → Prop} (wf : g.WellFormed) (h : Respects g P leaf step)
    (hab : Agrees g g.hashOf a b) (ha : P a) : g.fold leaf step a = g.fold leaf step b := by
  induction hab with
  | refl => rfl
  | leaf _ ho hf =>
    rw [fold_leaf ho, fold_leaf (isOperation_of_sameLeaf hf ▸ ho)]
    exact h.leaves _ _ hf
  | @operation a b hh ho hm hl hgs ih =>
    have hg : Agrees g g.hashOf a b := .operation hh ho hm hl hgs
    obtain ⟨o, xs, c, hd⟩ := wf.exists_apply ho
    obtain ⟨ys, d, hd', -⟩ := apply_of_agrees wf hg hd
    have hr : ∀ q ∈ g.pairedArgs g.hashOf a b, g.fold leaf step q.1 = g.fold leaf step q.2 := by
      intro q hq
      refine ih q hq ?_
      rw [pairedArgs_eq] at hq
      obtain ⟨n, hn, hs⟩ := mem_orderedSources.1 (of_mem_zip (a := q.1) (b := q.2) hq).1
      exact hs ▸ h.below a ha n hn
    obtain ⟨hp, heq⟩ := map_args_of_pairs (g.fold leaf step) hl hr
    have hb := (wf a).before
    have hb' := (wf b).before
    rw [hd] at hb
    rw [hd'] at hb'
    rw [hd, hd'] at hp heq
    rw [fold_apply hd hb, fold_apply hd' hb', ← h.steps a b (sameNode_of_agrees wf hg)]
    cases c with
    | false => exact congrArg (step a o) (heq rfl)
    | true => exact h.exchange a o xs ha hd _ _ hp

/-- Equal nodes have one fold, if the fold does not tell them apart at its steps. -/
theorem fold_congr {P : NodeId → Prop} (wf : g.WellFormed) (h : Respects g P leaf step)
    (hb : g.sameNode a b) (ha : P a) : g.fold leaf step a = g.fold leaf step b := by
  rcases (sameNode_iff wf).1 hb with ⟨_, _, hg⟩ | hl
  · exact fold_of_agrees wf h hg ha
  · rcases sameLeaf_iff.1 hl with rfl | ⟨x, y, hx, hy, _⟩
    · rfl
    · rw [fold_leaf (by rw [hx]; rfl), fold_leaf (by rw [hy]; rfl)]
      exact h.leaves a b hl

end Fold

end Graph

/-! ## Traces -/

namespace Trace

variable {α β : Type} {g : Graph} {t : Trace α} {p q : α → Graph → Prop}

/-- A trace succeeds from a graph, only appends nodes, and something holds of its result
and of the graph then. -/
def Gives (t : Trace α) (g : Graph) (p : α → Graph → Prop) : Prop :=
  ∃ a g', t g = .ok (a, g') ∧ g.Extends g' ∧ p a g'

theorem Gives.pure {a : α} (h : p a g) : Gives (Pure.pure a) g p := ⟨a, g, rfl, .refl g, h⟩

theorem Gives.bind {f : α → Trace β} {q : β → Graph → Prop} (h : Gives t g p)
    (hf : ∀ a g', g.Extends g' → p a g' → Gives (f a) g' q) : Gives (t >>= f) g q := by
  obtain ⟨a, g', ht, he, ha⟩ := h
  obtain ⟨b, g'', hr, he', hb⟩ := hf a g' he ha
  refine ⟨b, g'', ?_, he.trans he', hb⟩
  change (t g >>= fun r => f r.1 r.2) = _
  rw [ht]
  exact hr

theorem Gives.imp (h : Gives t g p) (hp : ∀ a g', g.Extends g' → p a g' → q a g') :
    Gives t g q := by
  obtain ⟨a, g', ht, he, ha⟩ := h
  exact ⟨a, g', ht, he, hp a g' he ha⟩

/-- What holds along a list that is traced: if each element satisfies what its partner in
another list asks for, then so does each result. -/
theorem gives_mapM_forall₂ {γ : Type} {f : α → Trace β} {R : γ → α → Graph → Prop}
    {S : γ → β → Graph → Prop} (hR : ∀ {c x g g'}, g.Extends g' → R c x g → R c x g')
    (hS : ∀ {c y g g'}, g.Extends g' → S c y g → S c y g')
    (hf : ∀ c x g, R c x g → (f x).Gives g (S c)) {cs : List γ} {xs : List α}
    (h : Forall₂ (R · · g) cs xs) :
    Trace.Gives (xs.mapM f) g fun ys g' => Forall₂ (S · · g') cs ys := by
  induction xs generalizing cs g with
  | nil =>
    cases h
    exact .pure .nil
  | cons x xs ih =>
    obtain _ | ⟨hx, hs⟩ := h
    rw [mapM_cons]
    refine (hf _ x g hx).bind fun y g₁ he hy => ?_
    refine (ih (hs.imp fun _ _ => hR he)).bind fun ys g₂ he' hys => .pure ?_
    exact .cons (hS he' hy) hys

theorem lift_ok_bind (a : α) (f : α → Trace β) : (Fault.lift (.ok a) >>= f : Trace β) = f a := rfl

/-- A trace fails from a graph, with a fault of which something holds. -/
def Fails (t : Trace α) (g : Graph) (p : Fault → Prop) : Prop := ∃ e, t g = .error e ∧ p e

theorem Fails.bind {f : α → Trace β} {p : Fault → Prop} (h : Fails t g p) : Fails (t >>= f) g p := by
  obtain ⟨e, ht, he⟩ := h
  refine ⟨e, ?_, he⟩
  change (t g >>= fun r => f r.1 r.2) = _
  rw [ht]
  rfl

theorem Gives.bind_fails {f : α → Trace β} {q : Fault → Prop} (h : Gives t g p)
    (hf : ∀ a g', g.Extends g' → p a g' → Fails (f a) g' q) : Fails (t >>= f) g q := by
  obtain ⟨a, g', ht, hx, ha⟩ := h
  obtain ⟨e, hr, he⟩ := hf a g' hx ha
  refine ⟨e, ?_, he⟩
  change (t g >>= fun r => f r.1 r.2) = _
  rw [ht]
  exact hr

theorem Fails.throw {e : Fault} {p : Fault → Prop} (h : p e) :
    Fails (MonadExcept.throw e : Trace α) g p := ⟨e, rfl, h⟩

theorem Gives.get_bind {f : Graph → Trace β} {q : β → Graph → Prop} (h : Gives (f g) g q) :
    Gives (get >>= f) g q := h

theorem Fails.get_bind {f : Graph → Trace β} {q : Fault → Prop} (h : Fails (f g) g q) :
    Fails (get >>= f) g q := h

theorem gives_push (g : Graph) (n : Node) :
    Gives (push n) g fun k g' => k = g.size ∧ g' = g.push n :=
  ⟨g.size, g.push n, rfl, extends_push g n, rfl, rfl⟩

/-- An appended operation stands at the end of the graph. Its operands may be exchanged if it
is marked as commutative. -/
theorem gives_node (o : Operation) (ws : List Value) (c : Bool)
    (hr : ∀ ws' : List Value, ws'.Perm ws → (o.result? (ws'.map fun w => w.kind.cell)).isSome) :
    (apply o ws c).Gives g fun w g' => ∃ ws' cell, ws'.Perm ws ∧ (c = false → ws' = ws) ∧
      o.result? (ws'.map fun w => w.kind.cell) = some cell ∧ w = .ofNet ⟨cell, g.size⟩ ∧
      g' = g.push (.apply o (ws'.map Value.net) c) := by
  rw [apply]
  have hp : (if c then sortByKind ws else ws).Perm ws := by
    split
    · exact mergeSort_perm ws _
    · exact .refl ws
  have hs : c = false → (if c then sortByKind ws else ws) = ws := by
    rintro rfl
    rfl
  generalize (if c then sortByKind ws else ws) = ws' at hp hs
  obtain ⟨cell, hc⟩ := Option.isSome_iff_exists.1 (hr ws' hp)
  rw [hc]
  refine (gives_push g _).bind fun k g' _ hk => .pure ?_
  obtain ⟨rfl, rfl⟩ := hk
  exact ⟨ws', cell, hp, hs, hc, rfl, rfl⟩

end Trace

end Patchwork
