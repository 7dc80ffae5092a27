import Patchwork.Proofs.Gradient.ChainRule
import Mathlib.Algebra.Order.Ring.Basic

/-!
# The gradient of an angle

Where the second coordinate is not zero, the angle of a point is the arc tangent of the quotient
of its coordinates, up to a constant. So both change alike. But the rule for the arc tangent of
two arguments has the opposite sign, so the gradient of one is the negative of that of the other.
-/

namespace Patchwork

open Graph hiding read
open List

variable {K : Type*} [Field K] {g : Graph}

/-- How an angle changes: the derivative of the angle of the point whose ordinate and abscissa
are `a` and `b`. -/
def Graph.angleDerivative (g : Graph) (v : Valuation K) (y a b : NodeId) : K :=
  (g.derivative v y a * g.value v b - g.value v a * g.derivative v y b) /
    (g.value v a ^ 2 + g.value v b ^ 2)

namespace Gradient

open Scalar

section Slopes

variable {a b y k : NodeId} {n m : Net} {r : Reading K}

theorem tangent_of_rational (wf : g.WellFormed) (hr : r.Exact) (ha : g.Rational a) (y : NodeId) :
    g.tangent r y a = ⟨g.value r.toValuation a, g.derivative r.toValuation y a⟩ := by
  rw [tangent_eq, read_eq_value wf hr ha, slope_eq_derivative wf hr ha]

/-- The arc tangent of two arguments changes against its angle. -/
theorem slope_atan2 (wf : g.WellFormed) (hr : r.Exact)
    (hk : g.node k = .apply .atan2 [n, m] false) (hn : g.Rational n.source)
    (hm : g.Rational m.source) (hy : g.sameNode k y = false) :
    g.slope r y k = -g.angleDerivative r.toValuation y n.source m.source := by
  rw [slope_apply wf hy hk, Graph.angleDerivative]
  simp only [map_cons, map_nil, tangent_of_rational wf hr hn,
    tangent_of_rational wf hr hm, Operation.slope, Operation.weights]
  ring

variable [LinearOrder K] [IsStrictOrderedRing K]

/-- The arc tangent of a quotient changes as its angle does. -/
theorem slope_atan (wf : g.WellFormed) (hr : r.Exact) {q : Net}
    (hk : g.node k = .apply .atan [q] false) (hq : g.node q.source = .apply .div [n, m] false)
    (hn : g.Rational n.source) (hm : g.Rational m.source) (hy : g.sameNode k y = false)
    (hy' : g.sameNode q.source y = false) (h0 : g.value r.toValuation m.source ≠ 0) :
    g.slope r y k = g.angleDerivative r.toValuation y n.source m.source := by
  have hd : g.read r q.source =
      g.value r.toValuation n.source / g.value r.toValuation m.source := by
    rw [read_apply wf hq]
    simp only [map_cons, map_nil, read_eq_value wf hr hn, read_eq_value wf hr hm, hr.div]
  have hs : g.value r.toValuation n.source ^ 2 + g.value r.toValuation m.source ^ 2 ≠ 0 := by
    positivity
  rw [slope_apply wf hy hk, Graph.angleDerivative]
  simp only [map_cons, map_nil, Operation.slope, Operation.weights, value_tangent, hd]
  rw [← Graph.slope, slope_apply wf hy' hq]
  simp only [map_cons, map_nil, tangent_of_rational wf hr hn,
    tangent_of_rational wf hr hm, Operation.slope, Operation.weights]
  field_simp
  ring

end Slopes

section Gradients

variable {a b p q t : Value} {ys : List Value} {sets : SetOrder}

theorem gives_slopes (tr : g.Traced) {x : Value} {o : Operation} {args : List Net}
    (hx : g.node x.net.source = .apply o args false) (ho : o.hands = (false, false))
    (hs : g.Smooth x.net.source) (he : g.Regular x.net.source)
    (hys : ∀ y ∈ ys, ∃ n ∈ args, g.Needed [n.source] y.net.source) (hss : sets.Permutes) :
    (Datum.gradient (.scalar (.traced x)) (.list (ys.map fun y => .scalar (.traced y))) sets).Gives g
      fun d g' => ∃ ds : List Scalar, d = .list (ds.map .scalar) ∧ ∀ r : Reading K, r.Exact →
          ds.map (read g' r) = ys.map fun y => g.slope r y.net.source x.net.source := by
  have hp : ∀ y ∈ ys.map fun y => y.net.source, g.Needed [x.net.source] y ∧
      g.sameNode y x.net.source = false := by
    intro k hk
    obtain ⟨y, hy, rfl⟩ := mem_map.1 hk
    obtain ⟨n, hn, hd⟩ := hys y hy
    exact hd.proper tr (by rw [hx]; exact hn)
  refine (gives_gradient (K := K) True tr (lt_size_of_ne_blank (by simp [hx]))
    (fun _ => he) (fun _ j => (ways_le_one tr.wellFormed hx ho).trans (by norm_num)) hss
    (hs.differentiable tr (fun y hy => (hp y hy).1) fun y hy => (hp y hy).2)).imp ?_
  rintro d g' - ⟨ds, rfl, -, hds⟩
  refine ⟨ds, rfl, fun r hr => (hds trivial r hr).trans ?_⟩
  simp only [hs.negated_eq_zero tr, add_zero]

theorem smooth_of_pair (ha : g.Rational a.net.source) (hb : g.Rational b.net.source) {k : NodeId}
    {o : Operation} (hk : g.node k = .apply o [a.net, b.net] false)
    (ho : o.hasRule ∧ o.isFlat = false ∧ o ≠ .neg) : g.Smooth k ∧ g.Regular k := by
  refine ⟨smooth_of_operands hk ho ?_, regular_of_operands hk (by simp) ?_⟩
  · simpa using ⟨smooth_of_rational ha, smooth_of_rational hb⟩
  · simpa using ⟨regular_of_rational ha, regular_of_rational hb⟩

theorem exists_operand_of_or {k : NodeId}
    (h : g.Needed [a.net.source] k ∨ g.Needed [b.net.source] k) :
    ∃ n ∈ [a.net, b.net], g.Needed [n.source] k := by
  simpa using h

theorem gives_atan2 (tr : g.Traced) (ha : g.Rational a.net.source) (hb : g.Rational b.net.source)
    (hp : g.node p.net.source = .apply .atan2 [a.net, b.net] false)
    (hys : ∀ y ∈ ys, g.Needed [a.net.source] y.net.source ∨ g.Needed [b.net.source] y.net.source)
    (hss : sets.Permutes) :
    (Datum.gradient (.scalar (.traced p)) (.list (ys.map fun y => .scalar (.traced y))) sets).Gives g
      fun d g' => ∃ ds : List Scalar, d = .list (ds.map .scalar) ∧
        ∀ r : Reading K, r.Exact → ds.map (read g' r) = ys.map fun y =>
          -g.angleDerivative r.toValuation y.net.source a.net.source b.net.source := by
  obtain ⟨hs, he⟩ := smooth_of_pair ha hb hp (by decide)
  refine (gives_slopes (K := K) tr hp rfl hs he
    (fun y hy => exists_operand_of_or (hys y hy)) hss).imp ?_
  rintro d g' - ⟨ds, rfl, hd⟩
  refine ⟨ds, rfl, fun r hr => (hd r hr).trans (map_congr_left fun y hy => ?_)⟩
  obtain ⟨n, hn, hnd⟩ := exists_operand_of_or (hys y hy)
  have hpr := hnd.proper tr (x := p.net.source) (by rw [hp]; exact hn)
  exact slope_atan2 tr.wellFormed hr hp ha hb (sameNode_comm tr _ _ ▸ hpr.2)

variable [LinearOrder K] [IsStrictOrderedRing K]

theorem gives_atan (tr : g.Traced) (ha : g.Rational a.net.source) (hb : g.Rational b.net.source)
    (hq : g.node q.net.source = .apply .div [a.net, b.net] false)
    (ht : g.node t.net.source = .apply .atan [q.net] false)
    (hs : ∀ y ∈ ys, g.Needed [a.net.source] y.net.source ∨ g.Needed [b.net.source] y.net.source)
    (hss : sets.Permutes) :
    (Datum.gradient (.scalar (.traced t)) (.list (ys.map fun y => .scalar (.traced y))) sets).Gives g
      fun d g' => ∃ ds : List Scalar, d = .list (ds.map .scalar) ∧
        ∀ r : Reading K, r.Exact → g.value r.toValuation b.net.source ≠ 0 →
          ds.map (read g' r) = ys.map fun y =>
            g.angleDerivative r.toValuation y.net.source a.net.source b.net.source := by
  obtain ⟨hm, he⟩ := smooth_of_pair ha hb hq (by decide)
  have hu : ∀ y ∈ ys, g.Needed [q.net.source] y.net.source ∧
      g.sameNode y.net.source q.net.source = false := by
    intro y hy
    obtain ⟨n, hn, hd⟩ := exists_operand_of_or (hs y hy)
    exact hd.proper tr (by rw [hq]; exact hn)
  refine (gives_slopes (K := K) tr ht rfl (smooth_of_operands ht (by decide) (by simpa))
    (regular_of_operands ht (by simp) (by simpa))
    (fun y hy => ⟨q.net, by simp, (hu y hy).1⟩) hss).imp ?_
  rintro d g' - ⟨ds, rfl, hds⟩
  refine ⟨ds, rfl, fun r hr h0 => (hds r hr).trans (map_congr_left fun y hy => ?_)⟩
  obtain ⟨hd, hyq⟩ := hu y hy
  have hp := hd.proper tr (x := t.net.source) (by simp [ht, Node.args])
  exact slope_atan tr.wellFormed hr ht hq ha hb (sameNode_comm tr _ _ ▸ hp.2)
    (sameNode_comm tr _ _ ▸ hyq) h0

/-- Two ways to compute an angle: `p` is the arc tangent of `a` and `b`, and `t` is the arc
tangent of their quotient `q`. -/
structure TwoAngles (g : Graph) (a b p q t : Value) : Prop where
  pair : g.node p.net.source = .apply .atan2 [a.net, b.net] false
  quotient : g.node q.net.source = .apply .div [a.net, b.net] false
  single : g.node t.net.source = .apply .atan [q.net] false

/-- **The gradient of an angle.** Let the coordinates of a point be computed from variables and
constants by the four operations. Then the arc tangent of their quotient has the gradient of the
angle, wherever the second coordinate is not zero, and the arc tangent of two arguments has its
negative. -/
theorem gradient_atan2_eq_neg_atan (tr : g.Traced) (ys : List Value)
    (ha : g.Rational a.net.source) (hb : g.Rational b.net.source)
    (hab : TwoAngles g a b p q t)
    (hys : ∀ y ∈ ys, g.Needed [a.net.source] y.net.source ∨ g.Needed [b.net.source] y.net.source)
    (hsets : sets.Permutes) :
    (Datum.gradient (.scalar (.traced p)) (.list (ys.map fun y => .scalar (.traced y))) sets).Gives g
      fun d g₁ => (Datum.gradient (.scalar (.traced t)) (.list (ys.map fun y => .scalar (.traced y)))
        sets).Gives g fun e g₂ => ∃ ds es : List Scalar,
          d = .list (ds.map .scalar) ∧ e = .list (es.map .scalar) ∧
          ∀ r : Reading K, r.Exact → g.value r.toValuation b.net.source ≠ 0 →
            (es.map (read g₂ r) = ys.map fun y =>
              g.angleDerivative r.toValuation y.net.source a.net.source b.net.source) ∧
            ds.map (read g₁ r) = (es.map (read g₂ r)).map Neg.neg := by
  refine (gives_atan2 (K := K) tr ha hb hab.pair hys hsets).imp ?_
  rintro d g₁ - ⟨ds, rfl, hd⟩
  refine (gives_atan (K := K) tr ha hb hab.quotient hab.single hys hsets).imp ?_
  rintro e g₂ - ⟨es, rfl, he⟩
  refine ⟨ds, es, rfl, rfl, fun r hr hz => ⟨he r hr hz, ?_⟩⟩
  rw [hd r hr, he r hr hz, List.map_map]
  rfl

end Gradients

/-! ## An example -/

/-- Two variables with the arc tangent of both, their quotient, and the arc tangent of that. -/
def diagonalAngles : Graph :=
  ((((Graph.empty.push (.constant (.float 1.0) false)).push (.constant (.float 1.0) false)).push
    (.apply .atan2 [⟨.float, 0⟩, ⟨.float, 1⟩] false)).push
    (.apply .div [⟨.float, 0⟩, ⟨.float, 1⟩] false)).push (.apply .atan [⟨.float, 3⟩] false)

theorem diagonalAngles_traced : diagonalAngles.Traced :=
  traced_of_checks (fun _ => false) (by decide)

theorem diagonalAngles_rational {y : NodeId} (hy : y = 0 ∨ y = 1) : diagonalAngles.Rational y := by
  intro k hk
  have hl : k ≤ 1 := by
    have hk' : k ≤ y := hk.le diagonalAngles_traced.wellFormed
    rcases hy with rfl | rfl
    · exact Nat.le_succ_of_le hk'
    · exact hk'
  match k, hl with
  | 0, _ | 1, _ => exact .inl rfl

def diagonalValues : Reading ℚ := (Valuation.rational fun _ => 1).reading

theorem diagonalValues_exact : diagonalValues.Exact := (Valuation.rational_exact _).reading

theorem diagonalAngles_value {y : NodeId} (hy : y = 0 ∨ y = 1) :
    diagonalAngles.value diagonalValues.toValuation y = 1 := by
  rcases hy with rfl | rfl <;> exact fold_leaf rfl

/-- At the point (1, 1) the angle grows with the ordinate, and shrinks with the abscissa. -/
theorem diagonalAngles_angleDerivative :
    diagonalAngles.angleDerivative diagonalValues.toValuation 0 0 1 = 1 / 2 ∧
      diagonalAngles.angleDerivative diagonalValues.toValuation 1 0 1 = -1 / 2 := by
  have wf := diagonalAngles_traced.wellFormed
  simp only [Graph.angleDerivative, diagonalAngles_value (.inl rfl), diagonalAngles_value (.inr rfl)]
  rw [derivative_self wf (by decide), derivative_leaf (by decide) rfl,
    derivative_leaf (by decide) rfl, derivative_self wf (by decide)]
  norm_num

/-- The gradients of both angles at the point (1, 1). -/
theorem diagonalAngles_gradients :
    (Datum.gradient (.scalar (.traced ⟨⟨.float, 2⟩, .float⟩))
      (.list [.scalar (.traced ⟨⟨.float, 0⟩, .float⟩), .scalar (.traced ⟨⟨.float, 1⟩, .float⟩)])).Gives
      diagonalAngles fun d g₁ => (Datum.gradient (.scalar (.traced ⟨⟨.float, 4⟩, .float⟩))
        (.list [.scalar (.traced ⟨⟨.float, 0⟩, .float⟩), .scalar (.traced ⟨⟨.float, 1⟩, .float⟩)])).Gives
        diagonalAngles fun e g₂ => ∃ ds es : List Scalar,
          d = .list (ds.map .scalar) ∧ e = .list (es.map .scalar) ∧
          ds.map (read g₁ diagonalValues) = [-1 / 2, 1 / 2] ∧
          es.map (read g₂ diagonalValues) = [1 / 2, -1 / 2] := by
  have hs := Graph.needed_self diagonalAngles
  refine (gradient_atan2_eq_neg_atan (K := ℚ) (a := ⟨⟨.float, 0⟩, .float⟩)
    (b := ⟨⟨.float, 1⟩, .float⟩) (p := ⟨⟨.float, 2⟩, .float⟩) (q := ⟨⟨.float, 3⟩, .float⟩)
    (t := ⟨⟨.float, 4⟩, .float⟩) diagonalAngles_traced [⟨⟨.float, 0⟩, .float⟩, ⟨⟨.float, 1⟩, .float⟩]
    (diagonalAngles_rational (.inl rfl)) (diagonalAngles_rational (.inr rfl)) ⟨rfl, rfl, rfl⟩
    (List.forall_mem_cons.2 ⟨.inl (hs 0), List.forall_mem_singleton.2 (.inr (hs 1))⟩)
    SetOrder.permutes_default).imp ?_
  intro d g₁ _ ha
  refine ha.imp ?_
  rintro e g₂ - ⟨ds, es, rfl, rfl, hr⟩
  obtain ⟨he, hd⟩ := hr diagonalValues diagonalValues_exact
    (diagonalAngles_value (.inr rfl) ▸ one_ne_zero)
  rw [he] at hd
  simp only [List.map_cons, List.map_nil, diagonalAngles_angleDerivative] at he hd
  refine ⟨ds, es, rfl, rfl, ?_, he⟩
  rw [hd]
  norm_num

/-- With respect to the ordinate the gradients of the two angles differ in sign. -/
theorem atan2_gradient_has_wrong_sign :
    (Datum.gradient (.scalar (.traced ⟨⟨.float, 2⟩, .float⟩))
      (.list [.scalar (.traced ⟨⟨.float, 0⟩, .float⟩)])).Gives diagonalAngles
        (fun d g₁ => ∃ s : Scalar, d = .list [.scalar s] ∧ s.read g₁ diagonalValues = -1 / 2) ∧
    (Datum.gradient (.scalar (.traced ⟨⟨.float, 4⟩, .float⟩))
      (.list [.scalar (.traced ⟨⟨.float, 0⟩, .float⟩)])).Gives diagonalAngles
        (fun d g₂ => ∃ s : Scalar, d = .list [.scalar s] ∧ s.read g₂ diagonalValues = 1 / 2) := by
  have hs : ∀ y ∈ [(⟨⟨.float, 0⟩, .float⟩ : Value)], diagonalAngles.Needed [0] y.net.source ∨
      diagonalAngles.Needed [1] y.net.source :=
    List.forall_mem_singleton.2 (.inl (Graph.needed_self _ 0))
  constructor
  · refine (gives_atan2 (K := ℚ) (a := ⟨⟨.float, 0⟩, .float⟩) (b := ⟨⟨.float, 1⟩, .float⟩)
      diagonalAngles_traced (diagonalAngles_rational (.inl rfl))
      (diagonalAngles_rational (.inr rfl)) rfl hs SetOrder.permutes_default).imp ?_
    rintro d g₁ - ⟨ds, rfl, hd⟩
    have hr := hd diagonalValues diagonalValues_exact
    obtain ⟨s, rfl⟩ := List.length_eq_one_iff.1 (by simpa using congrArg List.length hr)
    exact ⟨s, rfl, (List.cons.inj hr).1.trans
      ((congrArg Neg.neg diagonalAngles_angleDerivative.1).trans (by norm_num))⟩
  · refine (gives_atan (K := ℚ) (a := ⟨⟨.float, 0⟩, .float⟩) (b := ⟨⟨.float, 1⟩, .float⟩)
      (q := ⟨⟨.float, 3⟩, .float⟩) diagonalAngles_traced (diagonalAngles_rational (.inl rfl))
      (diagonalAngles_rational (.inr rfl)) rfl rfl hs SetOrder.permutes_default).imp ?_
    rintro d g₂ - ⟨ds, rfl, hd⟩
    have hr := hd diagonalValues diagonalValues_exact
      (diagonalAngles_value (.inr rfl) ▸ one_ne_zero)
    obtain ⟨s, rfl⟩ := List.length_eq_one_iff.1 (by simpa using congrArg List.length hr)
    exact ⟨s, rfl, (List.cons.inj hr).1.trans diagonalAngles_angleDerivative.1⟩

end Gradient

end Patchwork
