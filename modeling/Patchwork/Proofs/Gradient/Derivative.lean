import Patchwork.Proofs.Graph.Growth
import Mathlib.Algebra.Field.Basic
import Mathlib.Algebra.BigOperators.Group.List.Basic
import Mathlib.Tactic.Ring

/-!
# Formal derivatives

The rational part of a graph has a meaning in any field, as soon as its numbers and its
named constants have one. Together with their derivatives these values are dual numbers,
and the rules of differentiation say how to compute with them. A derivative is taken with
respect to a node: this node and its equals change, and all other nodes do so only as far
as they are computed from them.
-/

namespace Patchwork

variable {args : List Net} {c : Bool} {o : Operation}

/-! ## The rational part of a graph -/

/-- A constant, or one of the four operations. Only sums and products may exchange their
operands. -/
def Node.IsRational (n : Node) : Prop :=
  n.isConstant = true ∨ ∃ o args c, n = .apply o args c ∧
    (o = .add ∨ o = .sub ∨ o = .mul ∨ o = .div) ∧ (c = true → o = .add ∨ o = .mul)

namespace Graph

/-- A node that is computed from constants by the four operations. -/
def Rational (g : Graph) (x : NodeId) : Prop := ∀ k, g.Within [x] k → (g.node k).IsRational

theorem apply_of_same {g : Graph} (tr : g.Traced) {a b : NodeId} (hab : g.sameNode a b)
    (ha : g.node a = .apply o args c) :
    ∃ args', g.node b = .apply o args' c := by
  rcases (sameNode_iff tr.wellFormed).1 hab with ⟨ho, ho', hg⟩ | hl
  · obtain ⟨args', c', hb, -⟩ := apply_of_agrees tr.wellFormed hg ha
    have hs : (g.node a).stem = (g.node b).stem := by rw [ha, hb]; rfl
    have hr := tr.marked a b ho ho' hg.hash_eq hs
    rw [ha, hb] at hr
    obtain rfl : c = c' := hr
    exact ⟨args', hb⟩
  · rcases sameLeaf_iff.1 hl with rfl | ⟨m, n, hm, -, -⟩
    · exact ⟨args, ha⟩
    · simp [hm] at ha

end Graph

/-! ## Values -/

/-- What plain numbers and named constants mean. -/
structure Valuation (K : Type*) where
  number : Number → K
  named : NodeId → K

/-- An exact valuation: integers mean themselves, and equal numbers mean the same. -/
structure Valuation.Exact {K : Type*} [Field K] (v : Valuation K) : Prop where
  int : ∀ i : Int, v.number (.int i) = i
  eq : ∀ m n : Number, m.eq n = true → v.number m = v.number n

/-- A value with its derivative. -/
@[ext] structure Dual (K : Type*) where
  value : K
  derivative : K

section Rules

variable {K : Type*} [Field K]

def Operation.inField : Operation → List K → K
  | .add, [a, b] => a + b
  | .sub, [a, b] => a - b
  | .mul, [a, b] => a * b
  | .div, [a, b] => a / b
  | .neg, [a] => -a
  | _, _ => 0

/-- The rules of differentiation. -/
def Operation.differential : Operation → List (Dual K) → K
  | .add, [a, b] => a.derivative + b.derivative
  | .sub, [a, b] => a.derivative - b.derivative
  | .mul, [a, b] => a.derivative * b.value + a.value * b.derivative
  | .div, [a, b] => (a.derivative * b.value - a.value * b.derivative) / b.value ^ 2
  | .neg, [a] => -a.derivative
  | _, _ => 0

def Operation.onDuals (o : Operation) (xs : List (Dual K)) : Dual K :=
  ⟨o.inField (xs.map Dual.value), o.differential xs⟩

end Rules

namespace Graph

variable {K : Type*} [Field K] {g : Graph} {v : Valuation K} {a b j k x y : NodeId}

def leafValue (g : Graph) (v : Valuation K) (k : NodeId) : K :=
  match g.node k with
  | .constant n true => v.number n
  | _ => v.named k

/-- The value of a node in a field. -/
def value (g : Graph) (v : Valuation K) (k : NodeId) : K :=
  g.fold (g.leafValue v) (fun _ o xs => o.inField xs) k

def dual (g : Graph) (v : Valuation K) (y k : NodeId) : Dual K :=
  g.fold (fun j => ⟨g.leafValue v j, if g.sameNode j y then 1 else 0⟩)
    (fun j o xs => if g.sameNode j y then ⟨(o.onDuals xs).value, 1⟩ else o.onDuals xs) k

/-- The derivative of a node with respect to a node `y`, which is taken for a variable. -/
def derivative (g : Graph) (v : Valuation K) (y k : NodeId) : K := (g.dual v y k).derivative

/-- The number of ways down from a node to a node `j` that go through sums and differences. -/
def chains (g : Graph) (j k : NodeId) : Nat :=
  g.fold (fun i => if g.sameNode i j then 1 else 0)
    (fun i o xs => (if g.sameNode i j then 1 else 0) + if o = .add ∨ o = .sub then xs.sum else 0) k

theorem value_dual (g : Graph) (v : Valuation K) (y k : NodeId) :
    (g.dual v y k).value = g.value v k := by
  refine fold_map Dual.value (fun j => rfl) (fun j o xs => ?_) k
  split <;> rfl

/-! ## Equations -/

theorem derivative_self (wf : g.WellFormed) (h : g.sameNode k y) : g.derivative v y k = 1 := by
  cases ho : (g.node k).isOperation with
  | false => simp [derivative, dual, fold_leaf ho, h]
  | true =>
    obtain ⟨o, args, c, hk⟩ := wf.exists_apply ho
    have hb := (wf k).before
    rw [hk] at hb
    simp [derivative, dual, fold_apply hk hb, h]

theorem derivative_apply (wf : g.WellFormed) (hy : g.sameNode k y = false)
    (h : g.node k = .apply o args c) :
    g.derivative v y k = o.differential (args.map fun n => g.dual v y n.source) := by
  have hb := (wf k).before
  rw [h] at hb
  simp only [derivative, dual, fold_apply h hb, hy, Bool.false_eq_true, if_false]
  rfl

theorem derivative_leaf (hy : g.sameNode k y = false) (h : (g.node k).isOperation = false) :
    g.derivative v y k = 0 := by
  simp [derivative, dual, fold_leaf h, hy]

theorem chains_apply (wf : g.WellFormed) (h : g.node k = .apply o args c) :
    g.chains j k = (if g.sameNode k j then 1 else 0) +
      if o = .add ∨ o = .sub then (args.map fun n => g.chains j n.source).sum else 0 := by
  have hb := (wf k).before
  rw [h] at hb
  exact fold_apply h hb

theorem chains_leaf (h : (g.node k).isOperation = false) :
    g.chains j k = if g.sameNode k j then 1 else 0 := fold_leaf h

/-! ## Equal nodes -/

theorem leafValue_congr (hv : v.Exact) (h : g.sameLeaf a b) :
    g.leafValue v a = g.leafValue v b := by
  rcases sameLeaf_iff.1 h with rfl | ⟨m, n, hm, hn, hmn⟩
  · rfl
  · simp only [leafValue, hm, hn]
    exact hv.eq m n (Bool.and_eq_true_iff.1 hmn).1

theorem sameNode_of_sameLeaf (wf : g.WellFormed) (h : g.sameLeaf a b) :
    g.sameNode a b := (sameNode_iff wf).2 (.inr h)

theorem sameNode_eq_false_of_eldest (tr : g.Traced) (h : g.eldest k < g.eldest y) :
    g.sameNode k y = false := by
  rw [Bool.eq_false_iff]
  intro hs
  rw [eldest_eq tr hs] at h
  exact Nat.lt_irrefl _ h

end Graph

end Patchwork
