import Patchwork.Proofs.Graph.Growth

/-!
# Graphs with other numbers in their variables

The number of a named constant is only its starting value: the node is told apart by where it
stands, and nothing that is traced looks at the number. Two graphs are variants if they differ
in the numbers of some named constants only. They have the same hashes, so the same nodes are
equal in both. A trace is uniform if it makes variants of variants and returns the same.
-/

namespace Patchwork

/-! ## Variants -/

/-- Equal nodes; or, if the node is a variable, named constants of one type. -/
inductive Node.Variant (varies : Prop) : Node → Node → Prop
  | same (n : Node) : Variant varies n n
  | number (h : varies) {x y : Number} (hcell : x.cell = y.cell) :
      Variant varies (.constant x false) (.constant y false)

namespace Node.Variant

variable {p : Prop} {n n' : Node}

section

variable (h : Variant p n n')

include h

theorem mono {q : Prop} (hq : p → q) : Variant q n n' := by
  cases h with
  | same => exact .same _
  | number hp hc => exact .number (hq hp) hc

theorem args_eq : n'.args = n.args := by cases h <;> rfl

theorem isConstant_eq : n'.isConstant = n.isConstant := by cases h <;> rfl

theorem isOperation_eq : n'.isOperation = n.isOperation := by cases h <;> rfl

theorem isCommutative_eq : n'.isCommutative = n.isCommutative := by
  cases h <;> rfl

theorem stem_eq : n'.stem = n.stem := by cases h <;> rfl

theorem anonymous_iff (x : Number) : n' = .constant x true ↔ n = .constant x true := by
  cases h with
  | same => rfl
  | number => simp

end

end Node.Variant

namespace Graph

variable {vars : NodeId → Prop} {g g' : Graph} {a b k : NodeId}

/-- Variants: graphs that differ in the numbers of some variables only. -/
structure Variant (vars : NodeId → Prop) (g g' : Graph) : Prop where
  size : g'.size = g.size
  hash : g'.hashOf = g.hashOf
  node : ∀ k, Node.Variant (vars k) (g.node k) (g'.node k)

theorem Variant.refl (vars : NodeId → Prop) (g : Graph) : Variant vars g g :=
  ⟨rfl, rfl, fun _ => .same _⟩

section

variable (h : g.Variant vars g')

include h

theorem Variant.mono {vars' : NodeId → Prop} (hv : ∀ k, vars k → vars' k) : g.Variant vars' g' :=
  ⟨h.size, h.hash, fun k => (h.node k).mono (hv k)⟩

theorem Variant.push {n n' : Node} (hn : Node.Variant (vars g.size) n n') :
    (g.push n).Variant vars (g'.push n') := by
  have hh : g'.nodeHash g'.size n' = g.nodeHash g.size n := by
    rw [h.size]
    cases hn with
    | number => rfl
    | same =>
      cases n with
      | constant | blank => rfl
      | root | apply | load | save => simp only [nodeHash, h.hash]
  have hs : (g'.push n').size = (g.push n).size := by rw [size_push, size_push, h.size]
  refine ⟨hs, funext fun k => ?_, fun k => ?_⟩
  · rcases Nat.lt_trichotomy k g.size with hk | rfl | hk
    · rw [hashOf_push_of_lt g n hk, hashOf_push_of_lt g' n' (h.size ▸ hk), h.hash]
    · rw [hashOf_push_size g n, ← hh, ← hashOf_push_size g' n', h.size]
    · have hl : (g.push n).size ≤ k := by rwa [size_push]
      rw [hashOf_of_size_le hl, hashOf_of_size_le (hs ▸ hl)]
  · rcases Nat.lt_trichotomy k g.size with hk | rfl | hk
    · rw [node_push_of_lt g n hk, node_push_of_lt g' n' (h.size ▸ hk)]
      exact h.node k
    · rw [node_push_size, ← h.size, node_push_size, h.size]
      exact hn
    · have hl : (g.push n).size ≤ k := by rwa [size_push]
      rw [node_of_size_le hl, node_of_size_le (hs ▸ hl)]
      exact .same _

/-! ## Equality of nodes -/

theorem Variant.sameLeaf (a b : NodeId) : g'.sameLeaf a b = g.sameLeaf a b := by
  rw [Bool.eq_iff_iff, sameLeaf_iff, sameLeaf_iff]
  simp only [(h.node a).anonymous_iff, (h.node b).anonymous_iff]

theorem Variant.pairedArgs (a b : NodeId) :
    g'.pairedArgs g'.hashOf a b = g.pairedArgs g.hashOf a b := by
  rw [Graph.pairedArgs, Graph.pairedArgs, h.hash, (h.node a).args_eq, (h.node b).args_eq,
    (h.node a).isCommutative_eq]

theorem Variant.agree (a b : NodeId) (seen : Agreed) :
    Graph.agree g' g'.hashOf a b seen = Graph.agree g g.hashOf a b seen := by
  induction a using Nat.strongRecOn generalizing b seen with
  | _ a ih =>
    have hb : ∀ x < a, ∀ y, True → ∀ seen,
        Graph.agree g' g'.hashOf x y seen = Graph.agree g g.hashOf x y seen :=
      fun x hx y _ seen => ih x hx y seen
    have ha := agreeAll_congr hb (g.pairedArgs g.hashOf a b) seen fun _ _ => trivial
    rw [Graph.agree, Graph.agree, (h.node a).isOperation_eq, (h.node a).stem_eq,
      (h.node b).stem_eq, (h.node a).args_eq, (h.node b).args_eq, h.pairedArgs, h.sameLeaf, ha,
      h.hash]

theorem Variant.sameNode : g'.sameNode = g.sameNode := by
  funext a b
  rw [Graph.sameNode, Graph.sameNode, sameNodeBy, sameNodeBy, (h.node a).isOperation_eq,
    (h.node b).isOperation_eq, h.agree, h.sameLeaf]

theorem Variant.sameNet : g'.sameNet = g.sameNet := by
  funext a b
  rw [Graph.sameNet, Graph.sameNet, h.sameNode]

end

end Graph

/-! ## Uniform traces -/

namespace Trace

variable {α β : Type} {vars : NodeId → Prop}

/-- Outcomes of a trace on variants: the same fault, or the same result with variants. -/
inductive Alike (vars : NodeId → Prop) : Except Fault (α × Graph) → Except Fault (α × Graph) → Prop
  | ok (x : α) {g g' : Graph} (h : g.Variant vars g') : Alike vars (.ok (x, g)) (.ok (x, g'))
  | error (f : Fault) : Alike vars (.error f) (.error f)

/-- A uniform trace only appends nodes, and does not look at the numbers of named
constants. -/
structure Uniform (t : Trace α) : Prop where
  appends : ∀ {g x g'}, t g = .ok (x, g') → g.Extends g'
  alike : ∀ {vars g g'}, g.Variant vars g' → Alike vars (t g) (t g')

theorem Uniform.pure (x : α) : Uniform (Pure.pure x) where
  appends := by
    rintro g _ _ ⟨⟩
    exact .refl g
  alike h := .ok x h

theorem Uniform.fail (f : Fault) : Uniform (Trace.fail f : Trace α) where
  appends := by
    rintro _ _ _ ⟨⟩
  alike _ := .error f

theorem Uniform.bind {t : Trace α} {f : α → Trace β} (ht : Uniform t) (hf : ∀ x, Uniform (f x)) :
    Uniform (t >>= f) where
  appends := by
    intro g y g'' h
    change (t g >>= fun p => f p.1 p.2) = .ok (y, g'') at h
    cases hx : t g with
    | error e =>
      rw [hx] at h
      cases h
    | ok p =>
      rw [hx] at h
      exact (ht.appends hx).trans ((hf p.1).appends h)
  alike := by
    intro vars g g' h
    change Alike vars (t g >>= fun p => f p.1 p.2) (t g' >>= fun p => f p.1 p.2)
    generalize hx : t g = r
    generalize hx' : t g' = r'
    have ha := ht.alike h
    rw [hx, hx'] at ha
    cases ha with
    | ok x hv => exact (hf x).alike hv
    | error e => exact .error e

theorem Uniform.push (n : Node) : Uniform (Trace.push n) where
  appends := by
    rintro g _ _ ⟨⟩
    exact Graph.extends_push g n
  alike := by
    intro vars g g' h
    change Alike vars (.ok (g.size, g.push n)) (.ok (g'.size, g'.push n))
    rw [h.size]
    exact .ok g.size (h.push (.same n))

theorem Uniform.apply (o : Operation) (operands : List Value) (commutative : Bool) :
    Uniform (Trace.apply o operands commutative) := by
  rw [Trace.apply]
  split
  · exact .fail _
  · exact .bind (.push _) fun _ => .pure _

theorem Uniform.literal (n : Number) : Uniform (Value.literal n) :=
  .bind (.bind (.push _) fun _ => .pure _) fun _ => .pure _

end Trace

end Patchwork
