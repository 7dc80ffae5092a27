import Patchwork.Proofs.Compilation
import Patchwork.Proofs.Gradient.Components
import Patchwork.Proofs.Number.Rational

/-!
# The chain rule

Going backwards from a result through everything that lies between it and some variables gives
the derivatives of the result, if it is computed by the four operations. Shared parts are
counted once for each way that leads to them, equal parts are taken together, and it does not
matter in which order sets of nodes are gone through.
-/

namespace Patchwork

open Graph hiding read
open List

namespace Gradient

open Scalar

variable {K : Type*} [Field K] {g g' : Graph} {x : Value} {found : Adjoints}
  {leaves order : List NodeId} {v : Valuation K}

/-! ## Rational results -/

theorem leaf_of_isConstant {n : Node} (h : n.isConstant) : n.args = [] ∧ n.isOperation = false := by
  cases n with
  | constant m anonymous => exact ⟨rfl, rfl⟩
  | _ => cases h

theorem smooth_of_rational {x : NodeId} (hx : g.Rational x) : g.Smooth x := by
  intro k hk
  rcases hx k hk with hc | ⟨o, args, c, hn, ho, -⟩
  · exact .inl (leaf_of_isConstant hc).1
  · refine .inr ⟨o, args, c, hn, ?_⟩
    rcases ho with rfl | rfl | rfl | rfl <;> decide

theorem regular_of_rational {x : NodeId} (hx : g.Rational x) : g.Regular x := by
  intro k hk o args hn
  rcases hx k hk with hc | ⟨o', args', c, hn', -, hm⟩
  · simp [hn, Node.isConstant] at hc
  · rw [hn] at hn'
    cases hn'
    rcases hm rfl with rfl | rfl <;> rfl

theorem lt_size_of_isRational {k : NodeId} (h : (g.node k).IsRational) : k < g.size := by
  refine lt_size_of_ne_blank fun hb => ?_
  rw [hb] at h
  rcases h with h | ⟨o, args, c, h, -⟩ <;> cases h

theorem exists_pair (wf : g.WellFormed) {k : NodeId} {o : Operation} {args : List Net} {c : Bool}
    (h : g.node k = .apply o args c) (ho : o = .add ∨ o = .sub ∨ o = .mul ∨ o = .div) :
    ∃ n m, args = [n, m] := by
  have hr : o.hasRule := by rcases ho with rfl | rfl | rfl | rfl <;> rfl
  rcases operands_of_hasRule wf h hr with ⟨n, -, -, ht, -⟩ | ⟨n, m, hg, -⟩
  · rcases ho with rfl | rfl | rfl | rfl <;> cases ht
  · exact ⟨n, m, hg⟩

/-- Induction over a rational result: what holds of constants, and of an operation if it does
of its two operands. -/
theorem rational_induction (wf : g.WellFormed) {motive : NodeId → Prop}
    (leaf : ∀ k, (g.node k).isOperation = false → motive k)
    (pair : ∀ k o n m c, g.node k = .apply o [n, m] c →
      (o = .add ∨ o = .sub ∨ o = .mul ∨ o = .div) → motive n.source → motive m.source → motive k)
    {x : NodeId} (hx : g.Rational x) : motive x := by
  induction x using Nat.strongRecOn with
  | _ x ih =>
    rcases hx x (.inl (mem_singleton_self x)) with hc | ⟨o, args, c, hn, ho, -⟩
    · exact leaf x (leaf_of_isConstant hc).2
    · obtain ⟨n, m, rfl⟩ := exists_pair wf hn ho
      have hp : ∀ i ∈ [n, m], motive i.source := by
        intro i hi
        have hi' : i ∈ (g.node x).args := by rw [hn]; exact hi
        exact ih i.source ((wf x).before i hi') fun k hk => hx k (.inr (hk.below_of_operand hi'))
      exact pair x o n m c hn ho (hp n (by simp)) (hp m (by simp))

/-- Plain adjoints are handed on by sums and differences. -/
theorem ways_eq_chains (wf : g.WellFormed) {x : NodeId} (hx : g.Rational x) (j : NodeId) :
    g.ways j x = g.chains j x := by
  refine rational_induction (motive := fun k => g.ways j k = g.chains j k) wf (fun k hp => ?_)
    (fun k o n m c hd ho hn hm => ?_) hx
  · rw [ways_leaf hp, chains_leaf hp]
  · rw [ways_apply wf hd, chains_apply wf hd]
    simp only [map_cons, map_nil, hn, hm]
    rcases ho with rfl | rfl | rfl | rfl <;> simp [Operation.handed, Operation.hands]

theorem slope_eq_differential {o : Operation} (ho : o = .add ∨ o = .sub ∨ o = .mul ∨ o = .div)
    (r : Reading K) (a b : Dual K) : o.slope r [a, b] = o.differential [a, b] := by
  rcases ho with rfl | rfl | rfl | rfl <;>
    simp only [Operation.slope, Operation.weights, Operation.differential]
  · ring
  · ring
  · ring
  · by_cases h0 : b.value = 0
    · simp [h0]
    · field_simp
      ring

theorem operation_eq_inField {r : Reading K} (hr : r.Exact) {o : Operation}
    (ho : o = .add ∨ o = .sub ∨ o = .mul ∨ o = .div) (a b : K) :
    r.operation o [a, b] = o.inField [a, b] := by
  rcases ho with rfl | rfl | rfl | rfl
  · exact hr.add a b
  · exact hr.sub a b
  · exact hr.mul a b
  · exact hr.div a b

theorem read_eq_value (wf : g.WellFormed) {r : Reading K} (hr : r.Exact) {x : NodeId}
    (hx : g.Rational x) : g.read r x = g.value r.toValuation x := by
  refine rational_induction (motive := fun k => g.read r k = g.value r.toValuation k) wf
    (fun k hp => ?_) (fun k o n m c hd ho hn hm => ?_) hx
  · exact (fold_leaf hp).trans (fold_leaf hp).symm
  · have hb := (wf k).before
    rw [hd] at hb
    rw [read_apply wf hd, Graph.value, fold_apply hd hb]
    simp only [map_cons, map_nil, hn, hm]
    exact operation_eq_inField hr ho _ _

/-- The slope of a rational result is its derivative. -/
theorem slope_eq_derivative (wf : g.WellFormed) {r : Reading K} (hr : r.Exact) {x : NodeId}
    (hx : g.Rational x) (y : NodeId) : g.slope r y x = g.derivative r.toValuation y x := by
  have ht : g.tangent r y x = g.dual r.toValuation y x := by
    refine rational_induction (motive := fun k => g.tangent r y k = g.dual r.toValuation y k) wf
      (fun k hp => ?_) (fun k o n m c hd ho hn hm => ?_) hx
    · rw [Graph.tangent, Graph.dual, fold_leaf hp, fold_leaf hp]
    · have hb := (wf k).before
      rw [hd] at hb
      have ha : o.onTangents r [g.tangent r y n.source, g.tangent r y m.source] =
          o.onDuals [g.dual r.toValuation y n.source, g.dual r.toValuation y m.source] := by
        rw [hn, hm]
        exact Dual.ext (operation_eq_inField hr ho _ _) (slope_eq_differential ho _ _ _)
      rw [Graph.tangent, Graph.dual, fold_apply hd hb, fold_apply hd hb]
      exact congrArg (fun d => if g.sameNode k y then Dual.mk d.value 1 else d) ha
  exact congrArg Dual.derivative ht

theorem value_eq_read (g : Graph) (v : Valuation K) (s : Scalar) :
    s.value g v = s.read g v.reading := by
  cases s <;> rfl

/-! ## The gradient -/

/-- **The gradient is the list of derivatives.** For a result that is computed from variables
and constants by sums, differences, products and quotients, and variables that it depends on,
there is a gradient, and under every exact valuation its components mean the formal partial
derivatives. It does not matter in which order sets are gone through. Plain adjoints are
doubles, so no node may be reached in more than 2^53 ways through sums and differences alone;
and the result itself is not one of the variables. -/
theorem gradient_eq_derivative (tr : g.Traced) (hx : g.Rational x.net.source)
    (hfew : ∀ j, g.chains j x.net.source ≤ 2 ^ 53) {ys : List Value}
    (hys : ∀ y ∈ ys, g.Needed [x.net.source] y.net.source)
    (hproper : ∀ y ∈ ys, g.sameNode y.net.source x.net.source = false) {sets : SetOrder}
    (hsets : sets.Permutes) :
    (Datum.gradient (.scalar (.traced x)) (.list (ys.map fun y => .scalar (.traced y)))
      sets).Gives g fun d g' => ∃ ds : List Scalar, d = .list (ds.map .scalar) ∧
        ∀ v : Valuation K, v.Exact → List.Forall₂
          (fun y s => s.value g' v = g.derivative v y.net.source x.net.source) ys ds := by
  have hm := smooth_of_rational hx
  have hz := lt_size_of_isRational (hx _ (.inl (mem_singleton_self _)))
  have hd : g.Differentiable x.net.source (ys.map fun y => y.net.source) := by
    refine ⟨fun k hk => hm.handles tr hk.1, fun i hi => ?_⟩
    obtain ⟨y, hy, rfl⟩ := mem_map.1 hi
    exact hm.passedOn tr (hys y hy) (hproper y hy)
  refine (gives_gradient (K := K) True tr hz (fun _ => regular_of_rational hx)
    (fun _ j => ways_eq_chains tr.wellFormed hx j ▸ hfew j) hsets hd).imp ?_
  rintro _ g' - ⟨ds, rfl, -, hs⟩
  refine ⟨ds, rfl, fun v hv => ?_⟩
  have hr := hs trivial _ hv.reading
  rw [← forall₂_eq_eq_eq, forall₂_map_left_iff, forall₂_map_right_iff] at hr
  refine hr.flip.imp fun y s he => ?_
  rw [value_eq_read, show s.read g' v.reading = _ from he, hm.negated_eq_zero tr, add_zero,
    slope_eq_derivative tr.wellFormed hv.reading hx]
  rfl

end Gradient

/-! ## An example -/

/-- Numbers mean the rational numbers that they stand for. -/
def Valuation.rational (named : NodeId → ℚ) : Valuation ℚ := ⟨Number.rational, named⟩

theorem Valuation.rational_exact (named : NodeId → ℚ) : (Valuation.rational named).Exact :=
  ⟨fun _ => rfl, fun _ _ => Number.rational_of_eq⟩

namespace Gradient

open Schedule (sharedProduct sharedProduct_traced)

theorem sharedProduct_rational : sharedProduct.Rational 3 := by
  intro k hk
  have hl : k ≤ 3 := hk.le sharedProduct_traced.wellFormed
  match k, hl with
  | 0, _ | 1, _ => exact .inl rfl
  | 2, _ => exact .inr ⟨.mul, _, true, rfl, by simp, fun _ => .inr rfl⟩
  | 3, _ => exact .inr ⟨.add, _, true, rfl, by simp, fun _ => .inl rfl⟩

theorem sharedProduct_chains (j : NodeId) : sharedProduct.chains j 3 ≤ 2 ^ 53 := by
  have wf := sharedProduct_traced.wellFormed
  have ht := chains_apply (k := 3) (j := j) wf (o := .add) (c := true) rfl
  have hw := chains_apply (k := 2) (j := j) wf (o := .mul) (c := true) rfl
  have h0 := chains_leaf (g := sharedProduct) (k := 0) (j := j) rfl
  simp only [map_cons, map_nil, sum_cons, sum_nil, reduceCtorEq, or_self,
    true_or, if_true, if_false] at ht hw
  rw [ht, hw, h0]
  split <;> split <;> split <;> decide

def sharedProductValues : Valuation ℚ := .rational fun k => if k = 0 then 2 else 3

/-- By the rules of differentiation, a b + a changes with a as b + 1 does, and with b as a. -/
theorem sharedProduct_derivative :
    sharedProduct.derivative sharedProductValues 0 3 = 4 ∧
      sharedProduct.derivative sharedProductValues 1 3 = 2 := by
  have wf := sharedProduct_traced.wellFormed
  have hv : ∀ y, (sharedProduct.dual sharedProductValues y 0).value = 2 ∧
      (sharedProduct.dual sharedProductValues y 1).value = 3 := by
    intro y
    rw [value_dual, value_dual]
    exact ⟨fold_leaf rfl, fold_leaf rfl⟩
  have hs : ∀ y, sharedProduct.sameNode 3 y = false → sharedProduct.sameNode 2 y = false →
      sharedProduct.derivative sharedProductValues y 3 =
        sharedProduct.derivative sharedProductValues y 0 * 3 +
          2 * sharedProduct.derivative sharedProductValues y 1 +
          sharedProduct.derivative sharedProductValues y 0 := by
    intro y ht hw
    have hp := derivative_apply (v := sharedProductValues) wf hw (o := .mul) rfl
    simp only [List.map, Operation.differential, hv y] at hp
    have ha := derivative_apply (v := sharedProductValues) wf ht (o := .add) rfl
    simp only [List.map, Operation.differential] at ha
    rw [ha, ← Graph.derivative, ← Graph.derivative, hp]
    rfl
  constructor
  · rw [hs 0 (by decide) (by decide), derivative_self wf (by decide),
      derivative_leaf (by decide) rfl]
    norm_num
  · rw [hs 1 (by decide) (by decide), derivative_leaf (k := 0) (by decide) rfl,
      derivative_self wf (by decide)]
    norm_num

/-- The gradient of a b + a with respect to a and b, at 2 and 3. -/
theorem sharedProduct_gradient :
    (Datum.gradient (.scalar (.traced ⟨⟨.float, 3⟩, .float⟩))
      (.list [.scalar (.traced ⟨⟨.float, 0⟩, .float⟩), .scalar (.traced ⟨⟨.float, 1⟩, .float⟩)])).Gives
      sharedProduct fun d g' => ∃ ds : List Scalar, d = .list (ds.map .scalar) ∧
        ds.map (Scalar.value g' sharedProductValues) = [4, 2] := by
  have he : SetOrder.Permutes {} := ⟨fun _ _ => .rfl, fun _ => .rfl⟩
  have hn : sharedProduct.Needed [3] 0 ∧ sharedProduct.Needed [3] 1 := by
    have hp : sharedProduct.Below [3] 2 :=
      .root (n := ⟨.float, 2⟩) (List.mem_singleton_self 3) (by decide)
    exact ⟨Graph.Within.needed (.inr (.operand (n := ⟨.float, 0⟩) hp (by decide))),
      Graph.Within.needed (.inr (.operand (n := ⟨.float, 1⟩) hp (by decide)))⟩
  refine (gradient_eq_derivative (K := ℚ) (x := ⟨⟨.float, 3⟩, .float⟩) sharedProduct_traced
    sharedProduct_rational sharedProduct_chains
    (List.forall_mem_cons.2 ⟨hn.1, List.forall_mem_singleton.2 hn.2⟩)
    (by decide) he).imp ?_
  rintro _ g' _ ⟨ds, rfl, hd⟩
  have hv := hd sharedProductValues (Valuation.rational_exact _)
  obtain ⟨hf, hs⟩ := sharedProduct_derivative
  match ds, hv with
  | [a, b], .cons ha (.cons hb .nil) =>
    refine ⟨_, rfl, ?_⟩
    rw [List.map_cons, List.map_cons, ha, hb, hf, hs]
    rfl

def oneVariable : Graph := Graph.empty.push (.constant (.float 2.0) false)

/-- A variable has no gradient with respect to itself: nothing lies in between, and no adjoint
is ever entered for it. -/
theorem gradient_of_itself_fails :
    Datum.gradient (.scalar (.traced ⟨⟨.float, 0⟩, .float⟩))
      (.list [.scalar (.traced ⟨⟨.float, 0⟩, .float⟩)]) {} oneVariable = .error .absentKey := by
  rfl

end Gradient

end Patchwork
