import Patchwork.Proofs.Gradient.ChainRule

/-!
# When a gradient exists

Flat operations pass nothing on: comparisons, floor division and the operations on bits. So an
adjoint comes to a node if there is a way down from the result on which no operation is flat.
It is looked up for the variables, and also for every operation that lies between the result and
a variable, on whatever way. If one of them has none, there is no gradient, not even a zero.
-/

namespace Patchwork

namespace Graph

variable {g : Graph} {x y k u : NodeId} {leaves : List NodeId}

/-- A node steers the result: there is a way down to it on which no operation is flat. -/
inductive Steers (g : Graph) (x : NodeId) : NodeId → Prop
  | direct {u k : NodeId} (hu : g.sameNode x u = true) (h : g.PassesTo u k) : Steers g x k
  | through {u k : NodeId} (hu : Steers g x u) (h : g.PassesTo u k) : Steers g x k

/-- The nodes whose adjoint is looked up: the variables, and the operations between the result
and a variable. -/
def LooksUp (g : Graph) (x : NodeId) (leaves : List NodeId) (k : NodeId) : Prop :=
  k ∈ leaves ∨ (g.node k).args ≠ [] ∧ g.sameNode k x = false ∧ g.LiesBetween x leaves k

theorem Steers.passedOn (h : g.Steers x k) (tr : g.Traced) : g.PassedOn x k := by
  induction h with
  | direct hu h => exact ⟨_, ⟨x, .inl (List.mem_singleton_self x), hu⟩, h⟩
  | through _ h ih => exact ⟨_, (ih.proper tr).1, h⟩

/-- Whatever passes something on towards a variable has its own adjoint from somewhere, so a way
can be followed up to the result. -/
theorem Differentiable.steers (h : g.Differentiable x leaves) (tr : g.Traced)
    (hk : g.PassedOn x k) (hy : y ∈ leaves) (hd : g.Needed [k] y) : g.Steers x k := by
  -- The user of a node is younger, and none is younger than the result.
  induction ha : g.eldest x - g.eldest k using Nat.strongRecOn generalizing k with
  | _ age ih =>
    obtain ⟨u, hu, hp⟩ := hk
    obtain ⟨n, hn, hnk⟩ := hp.exists_arg
    by_cases hx : g.sameNode u x
    · exact .direct (sameNode_symm tr hx) hp
    · have huy : g.Needed [u] y :=
        needed_iff.2 (.inr ⟨n, hn, hd.congr_root tr (sameNode_symm tr hnk)⟩)
      have ho : g.eldest k < g.eldest u := eldest_eq tr hnk ▸ eldest_lt_of_arg tr hn
      have hb : g.LiesBetween x leaves u := ⟨hu, y, hy, huy, ((h.passedOn y hy).proper tr).2⟩
      have hs : g.PassedOn x u := by
        refine ((h.handles u hb).2.resolve_left fun hi => ?_).resolve_left hx
        simp [hi] at hn
      refine .through (ih _ ?_ hs huy rfl) hp
      rw [← ha]
      exact Nat.sub_lt_sub_left (Nat.lt_of_lt_of_le ho (hu.eldest_le tr)) ho

/-- No adjoint is missing if all nodes that are looked up steer the result. -/
theorem differentiable_iff (tr : g.Traced) (leaves : List NodeId)
    (hr : ∀ k, g.Needed [x] k → g.Ruled k) :
    g.Differentiable x leaves ↔ ∀ k, g.LooksUp x leaves k → g.Steers x k := by
  constructor
  · rintro h k (hk | ⟨hg, hx, hb⟩)
    · exact h.steers tr (h.passedOn k hk) hk (needed_self g k)
    · have hp := ((h.handles k hb).2.resolve_left hg).resolve_left (by simp [hx])
      obtain ⟨y, hy, hn, -⟩ := hb.2
      exact h.steers tr hp hy hn
  · refine fun h => ⟨fun k hk => ⟨hr k hk.1, ?_⟩, fun y hy => (h y (.inl hy)).passedOn tr⟩
    by_cases hg : (g.node k).args = []
    · exact .inl hg
    · by_cases hx : g.sameNode k x
      · exact .inr (.inl hx)
      · exact .inr (.inr ((h k (.inr ⟨hg, Bool.eq_false_iff.2 hx, hk⟩)).passedOn tr))

end Graph

namespace Gradient

variable {g : Graph} {x : Value}

/-- **When a gradient exists**, for a result that is computed by operations that have a rule: if
all nodes that are looked up steer the result, then there is one, with one component for each
value. Otherwise there is none, because an adjoint is missing. That is so for a value that the
result does not depend on, and for one that it depends on through flat operations only. -/
theorem gradient_defined_of_steered (tr : g.Traced) (hx : x.net.source < g.size)
    (hruled : ∀ k, g.Within [x.net.source] k → g.Ruled k) (ys : List Value)
    (hys : ∀ y ∈ ys, y.net.source < g.size) {sets : SetOrder} (hsets : sets.Permutes) :
    ((∀ k, g.LooksUp x.net.source (ys.map fun y => y.net.source) k → g.Steers x.net.source k) →
      (Datum.gradient (.scalar (.traced x)) (.list (ys.map fun y => .scalar (.traced y))) sets).Gives
        g fun d _ => ∃ ds : List Scalar, d = .list (ds.map .scalar) ∧ ds.length = ys.length) ∧
    ((∃ k, g.LooksUp x.net.source (ys.map fun y => y.net.source) k ∧
        ¬ g.Steers x.net.source k) →
      Datum.gradient (.scalar (.traced x)) (.list (ys.map fun y => .scalar (.traced y))) sets g =
        .error .absentKey) := by
  have hn : ∀ k, g.Needed [x.net.source] k → g.Ruled k := by
    rintro k ⟨j, hj, hjk⟩
    exact (hruled j hj).congr tr hjk
  have hi := Graph.differentiable_iff tr (ys.map fun y => y.net.source) hn
  constructor
  · intro h
    refine (gives_gradient (K := ℚ) False tr hx False.elim False.elim hsets
      (hi.2 h)).imp ?_
    rintro d g' - ⟨ds, rfl, hl, -⟩
    exact ⟨ds, rfl, hl⟩
  · rintro ⟨k, hk, hm⟩
    obtain ⟨e, hr, he⟩ := gradient_fails tr hx ys hys hsets fun h => hm (hi.1 h k hk)
    rw [hr, he hn]

/-! ## An example -/

def gatedVariable : Graph :=
  ((((Graph.empty.push (.constant (.float 2.0) false)).push (.constant (.float 3.0) false)).push
    (.constant (.int 0) true)).push (.apply .gt [⟨.float, 0⟩, ⟨.int, 2⟩] false)).push
    (.apply .mul [⟨.int, 3⟩, ⟨.float, 0⟩] true)

theorem gatedVariable_traced : gatedVariable.Traced :=
  Graph.traced_of_checks (· == "mul") (by decide)

theorem gatedVariable_ruled (k : NodeId) : gatedVariable.Ruled k := by
  match k with
  | 0 | 1 | 2 => exact .inl rfl
  | 3 => exact .inr ⟨.gt, _, _, rfl, rfl⟩
  | 4 => exact .inr ⟨.mul, _, _, rfl, rfl⟩
  | k + 5 =>
    refine .inl ?_
    rw [Graph.node_of_size_le (Nat.le_add_left 5 k)]
    rfl

theorem gatedVariable_steers {k : NodeId} (hk : k = 0 ∨ k = 3) : gatedVariable.Steers 4 k := by
  refine .direct (Graph.sameNode_self _ 4) ⟨.mul, _, _, rfl, rfl, ⟨if k = 0 then .float else .int, k⟩,
    ?_, Graph.sameNode_self _ k⟩
  rcases hk with rfl | rfl <;> simp

theorem gatedVariable_not_steers : ¬ gatedVariable.Steers 3 0 := by
  intro h
  obtain ⟨u, ⟨j, hj, hu⟩, hp⟩ := h.passedOn gatedVariable_traced
  have hl : j ≤ 3 := hj.le gatedVariable_traced.wellFormed
  obtain ⟨o, args, c, hd, hf, n, hn, -⟩ := hp.congr gatedVariable_traced
    (Graph.sameNode_symm gatedVariable_traced hu) (Graph.sameNode_self _ 0)
  match j, hl with
  | 0, _ | 1, _ | 2, _ => cases hd
  | 3, _ =>
    cases hd
    cases hf

/-- The gradient of y (y > 0) with respect to y exists, though one of the ways to y leads
through the comparison, and that of y > 0 does not. -/
theorem gatedVariable_gradients :
    (Datum.gradient (.scalar (.traced ⟨⟨.float, 4⟩, .float⟩))
      (.list [.scalar (.traced ⟨⟨.float, 0⟩, .float⟩)])).Gives gatedVariable
        (fun d _ => ∃ s : Scalar, d = .list [.scalar s]) ∧
    Datum.gradient (.scalar (.traced ⟨⟨.int, 3⟩, .bool⟩))
      (.list [.scalar (.traced ⟨⟨.float, 0⟩, .float⟩)]) {} gatedVariable = .error .absentKey := by
  have hp := gradient_defined_of_steered (x := ⟨⟨.float, 4⟩, .float⟩)
    gatedVariable_traced (by decide) (fun k _ => gatedVariable_ruled k) [⟨⟨.float, 0⟩, .float⟩]
    (by decide) SetOrder.permutes_default
  have hc := gradient_defined_of_steered (x := ⟨⟨.int, 3⟩, .bool⟩)
    gatedVariable_traced (by decide) (fun k _ => gatedVariable_ruled k) [⟨⟨.float, 0⟩, .float⟩]
    (by decide) SetOrder.permutes_default
  refine ⟨(hp.1 fun k hk => gatedVariable_steers ?_).imp ?_,
    hc.2 ⟨0, .inl (List.mem_singleton_self 0), gatedVariable_not_steers⟩⟩
  · rcases hk with hk | ⟨ha, hn, -⟩
    · exact .inl (List.mem_singleton.1 hk)
    · match k with
      | 0 => exact .inl rfl
      | 1 | 2 => exact absurd rfl ha
      | 3 => exact .inr rfl
      | 4 => exact absurd hn (by simp)
      | k + 5 => exact absurd (by rw [Graph.node_of_size_le (Nat.le_add_left 5 k)]; rfl) ha
  · rintro d - - ⟨ds, rfl, hl⟩
    obtain ⟨s, rfl⟩ := List.length_eq_one_iff.1 hl
    exact ⟨s, rfl⟩

/-- There is no gradient of y > 0 with respect to y, and none with respect to a variable that it
does not depend on, where all derivatives are zero. -/
theorem gradient_of_comparison_fails :
    Datum.gradient (.scalar (.traced ⟨⟨.int, 3⟩, .bool⟩))
      (.list [.scalar (.traced ⟨⟨.float, 0⟩, .float⟩)]) {} gatedVariable = .error .absentKey ∧
    Datum.gradient (.scalar (.traced ⟨⟨.int, 3⟩, .bool⟩))
      (.list [.scalar (.traced ⟨⟨.float, 1⟩, .float⟩)]) {} gatedVariable = .error .absentKey := by
  refine ⟨?_, rfl⟩
  have hm : ¬ gatedVariable.Differentiable 3 [0] := fun h =>
    gatedVariable_not_steers (h.steers gatedVariable_traced (h.passedOn 0 (by simp))
      (List.mem_singleton_self 0) (Graph.needed_self _ 0))
  obtain ⟨e, hr, he⟩ := gradient_fails (x := ⟨⟨.int, 3⟩, .bool⟩) gatedVariable_traced
    (by decide) [⟨⟨.float, 0⟩, .float⟩] (by decide) SetOrder.permutes_default hm
  exact hr.trans (congrArg _ (he fun k _ => gatedVariable_ruled k))

end Gradient

end Patchwork
