import Patchwork.Proofs.Gradient.ChainRule

/-!
# Gradients of negations

The rule of a negation passes on the negative of its operand, whatever the adjoint of the
negation itself is. So a negation cuts off whatever is above it, and adds something of its own.
What that does to a gradient can be said in terms of the gradient without the negation: if no
other negation is involved, that of the negative of x is the gradient of x, multiplied by the
negative of x itself and not by minus one, and a sum with a negation does not have the gradient
of the difference.
-/

namespace Patchwork

open Finset List

namespace Graph

variable {K : Type*} [Field K] {g : Graph} {r : Reading K} {x x' y k : NodeId} {leaves : List NodeId}

/-! ## Negations that are needed -/

def IsNegation (g : Graph) (k : NodeId) : Prop := ∃ n c, g.node k = .apply .neg [n] c

theorem turned_eq_zero (h : ¬ g.IsNegation k) : g.turned r y k = 0 :=
  turned_of_ne fun n c hk => h ⟨n, c, hk⟩

theorem not_isNegation_of_same (tr : g.Traced) {o : Operation} {args : List Net} {c : Bool}
    (hx : g.node x = .apply o args c) (ho : o ≠ .neg) (hk : g.sameNode x k) : ¬ g.IsNegation k := by
  rintro ⟨n, c', hn⟩
  obtain ⟨args', hk'⟩ := apply_of_same tr hk hx
  cases hn.symm.trans hk'
  exact ho rfl

theorem negated_congr (h : ∀ k, g.IsNegation k → (g.Needed [x'] k ↔ g.Needed [x] k)) :
    g.negated r y x' = g.negated r y x := by
  rw [negated, negated, sum_filter, sum_filter]
  refine sum_congr rfl fun k _ => ?_
  by_cases hn : g.IsNegation k
  · rw [h k hn]
  · rw [turned_eq_zero hn, ite_self, ite_self]

/-- What one more negation adds. -/
theorem negated_eq_add (tr : g.Traced) (hr : r.Exact) (hx' : x' < g.size) (he : g.Regular x')
    (hk : g.Needed [x'] k) (hw : ¬ g.Needed [x] k)
    (h : ∀ j, g.IsNegation j → (g.Needed [x'] j ↔ g.sameNode k j ∨ g.Needed [x] j)) :
    g.negated r y x' = g.turned r y k + g.negated r y x := by
  classical
  have ho : g.sameNode k (g.eldest k) := sameNode_symm tr (sameNode_eldest g k)
  have hm : g.eldest k ∈ Finset.range g.size :=
    Finset.mem_range.2 (Gradient.lt_size_of_needed tr hx' (hk.congr tr ho))
  have hf : g.turned r y k =
      ∑ j ∈ Finset.range g.size, if j = g.eldest k then g.turned r y j else 0 := by
    rw [sum_ite_eq' _ _ _, if_pos hm]
    exact turned_congr tr hr he hk ho
  rw [negated, negated, hf, sum_filter, sum_filter, ← sum_add_distrib]
  refine sum_congr rfl fun j _ => ?_
  by_cases hn : g.IsNegation j
  · rw [h j hn]
    by_cases hj : j = g.eldest k
    · -- The new negation itself: it was not needed before.
      have hb : ¬ g.Needed [x] j := fun hd =>
        hw (hd.congr tr (hj ▸ sameNode_eldest g k))
      have hs : g.eldest j = j := by rw [hj, eldest_eldest tr]
      simp [hb, hs, hj ▸ ho, if_pos hj]
    · have ht : g.eldest j = j → g.sameNode k j = false := fun hs =>
        Bool.eq_false_iff.2 fun hkj => hj (by rw [eldest_eq tr hkj, hs])
      by_cases hs : g.eldest j = j
      · simp [hj, hs, ht hs]
      · simp [hj, hs]
  · simp [turned_eq_zero hn]

/-- No adjoint is missing below another result, if what it needs in addition can pass its
adjoint on, and whatever has an adjoint keeps one. -/
theorem Differentiable.of_passedOn (h : g.Differentiable x leaves) (tr : g.Traced)
    (hp : ∀ k, g.PassedOn x k → g.PassedOn x' k) (hc : ∀ k, g.Needed [x'] k → g.Handles x' k ∨
      g.Needed [x] k ∧ (g.sameNode k x → g.PassedOn x' k)) : g.Differentiable x' leaves where
  passedOn y hy := hp y (h.passedOn y hy)
  handles k hk := by
    rcases hc k hk.1 with hh | ⟨hn, hs⟩
    · exact hh
    · obtain ⟨y, hy, hky, -⟩ := hk.2
      obtain ⟨hr, he⟩ := h.handles k ⟨hn, y, hy, hky, ((h.passedOn y hy).proper tr).2⟩
      refine ⟨hr, he.imp_right fun he => .inr ?_⟩
      exact he.elim hs (hp k)

end Graph

namespace Gradient

open Scalar
open Graph hiding read

variable {K : Type*} [Field K] {g g₁ : Graph} {x : Value} {ys : List Value} {sets : SetOrder}
  {ds : List Scalar}

/-! ## Gradients that exist -/

/-- A gradient exists, with the given components. -/
def HasGradient (g : Graph) (x : Value) (ys : List Value) (sets : SetOrder) (ds : List Scalar)
    (g' : Graph) : Prop :=
  Datum.gradient (.scalar (.traced x)) (.list (ys.map fun y => .scalar (.traced y))) sets g =
    .ok (.list (ds.map .scalar), g')

theorem HasGradient.differentiable (h : HasGradient g x ys sets ds g₁) (tr : g.Traced)
    (hx : x.net.source < g.size) (hy : ∀ y ∈ ys, y.net.source < g.size) (hs : sets.Permutes) :
    g.Differentiable x.net.source (ys.map fun y => y.net.source) := by
  by_contra hm
  obtain ⟨e, hr, -⟩ := gradient_fails tr hx ys hy hs hm
  cases h.symm.trans hr

theorem exists_hasGradient (tr : g.Traced) (ys : List Value) (hx : x.net.source < g.size)
    (hr : g.Regular x.net.source) (hf : ∀ j, g.ways j x.net.source ≤ 2 ^ 53)
    (hs : sets.Permutes) (h : g.Differentiable x.net.source (ys.map fun y => y.net.source)) :
    ∃ ds g', HasGradient g x ys sets ds g' ∧ ∀ r : Reading K, r.Exact →
      ds.map (read g' r) = ys.map fun y =>
        g.slope r y.net.source x.net.source + g.negated r y.net.source x.net.source := by
  obtain ⟨d, g', hu, -, ds, rfl, -, hd⟩ := gives_gradient (K := K) True tr hx
    (fun _ => hr) (fun _ => hf) hs h
  exact ⟨ds, g', hu, hd trivial⟩

theorem HasGradient.read_eq (h : HasGradient g x ys sets ds g₁) (tr : g.Traced)
    (hx : x.net.source < g.size) (hy : ∀ y ∈ ys, y.net.source < g.size) (hs : sets.Permutes)
    (he : g.Regular x.net.source) (hf : ∀ j, g.ways j x.net.source ≤ 2 ^ 53)
    {r : Reading K} (hr : r.Exact) : ds.map (read g₁ r) = ys.map fun y =>
      g.slope r y.net.source x.net.source + g.negated r y.net.source x.net.source := by
  obtain ⟨ds', g', hu, hd⟩ := exists_hasGradient (K := K) tr ys hx he hf hs
    (h.differentiable tr hx hy hs)
  have heq := h.symm.trans hu
  simp only [Except.ok.injEq, Prod.mk.injEq, Datum.list.injEq] at heq
  obtain ⟨hds, rfl⟩ := heq
  rw [map_injective_iff.2 (fun _ _ => Datum.scalar.inj) hds]
  exact hd r hr

/-! ## Negations -/

section Negations

variable {n : Value}

theorem slope_neg (wf : g.WellFormed) {r : Reading K} {k y : NodeId} {m : Net} {c : Bool}
    (hk : g.node k = .apply .neg [m] c) (hy : g.sameNode k y = false) : g.slope r y k = 0 := by
  rw [slope_apply wf hy hk]
  simp [Operation.slope, Operation.weights]

theorem differentiable_neg (tr : g.Traced) {k : NodeId} {m : Net} {c : Bool} {leaves : List NodeId}
    (hk : g.node k = .apply .neg [m] c) (h : g.Differentiable m.source leaves) :
    g.Differentiable k leaves := by
  have hm : m ∈ (g.node k).args := by simp [hk, Node.args]
  have hp : ∀ j, g.sameNode m.source j → g.PassedOn k j := fun j hj =>
    ⟨k, needed_self g k, .neg, _, c, hk, rfl, m, by simp, hj⟩
  refine h.of_passedOn tr ?_ fun j hj => ?_
  · rintro j ⟨u, hu, huj⟩
    exact ⟨u, (hu.proper tr hm).1, huj⟩
  · rcases needed_iff.1 hj with hkj | ⟨i, hi, hn⟩
    · have hkk : g.Handles k k := ⟨.inr ⟨.neg, _, c, hk, rfl⟩, .inr (.inl (sameNode_self g k))⟩
      exact .inl (hkk.congr tr hkj)
    · rw [hk] at hi
      obtain rfl := List.mem_singleton.1 hi
      exact .inr ⟨hn, fun hji => hp j (sameNode_symm tr hji)⟩

/-- The gradient of a negation. A component of the gradient of the negative of x is the one of
x, but for the slope of x, instead of which it has that slope multiplied by the negative of x.
Below a smooth result there is nothing else. -/
theorem gradient_neg (tr : g.Traced) (hys : ∀ y ∈ ys, y.net.source < g.size)
    (hss : sets.Permutes) (hn : g.node n.net.source = .apply .neg [x.net] false)
    (he : g.Regular x.net.source) (hf : ∀ j, g.ways j x.net.source ≤ 2 ^ 53)
    (h : HasGradient g x ys sets ds g₁) :
    ∃ es g₂, HasGradient g n ys sets es g₂ ∧ ∀ r : Reading K, r.Exact →
      (es.map (read g₂ r) = zipWith (fun y c => c -
        (1 + g.read r x.net.source) * g.slope r y.net.source x.net.source) ys
        (ds.map (read g₁ r))) ∧ (g.Smooth x.net.source →
        es.map (read g₂ r) = (ds.map (read g₁ r)).map fun c => -g.read r x.net.source * c) := by
  have hm : x.net ∈ (g.node n.net.source).args := by simp [hn, Node.args]
  have hs : n.net.source < g.size := lt_size_of_ne_blank (by simp [hn])
  have hx := Nat.lt_trans ((tr.wellFormed _).before _ hm) hs
  have he' : g.Regular n.net.source := regular_of_operands hn (by simp) (by simpa)
  have hd := h.differentiable tr hx hys hss
  obtain ⟨es, g₂, hes, hrd⟩ := exists_hasGradient (K := K) tr ys hs he'
    (fun j => (ways_le_one tr.wellFormed hn rfl).trans (by norm_num)) hss
    (differentiable_neg tr hn hd)
  refine ⟨es, g₂, hes, fun r hr => ?_⟩
  -- The negation has no slope, so its component is what negations add, it being one of them.
  have hc : ∀ y ∈ ys, g.slope r y.net.source n.net.source +
      g.negated r y.net.source n.net.source = g.negated r y.net.source x.net.source -
        g.read r x.net.source * g.slope r y.net.source x.net.source := by
    intro y hy
    have hnd := ((hd.passedOn _ (List.mem_map_of_mem hy)).proper tr).1
    have hw : ¬ g.Needed [x.net.source] n.net.source := fun hg =>
      Nat.lt_irrefl _ (Nat.lt_of_le_of_lt (hg.eldest_le tr) (eldest_lt_of_arg tr hm))
    rw [slope_neg tr.wellFormed hn (sameNode_comm tr _ _ ▸ (hnd.proper tr hm).2),
      negated_eq_add (x := x.net.source) tr hr hs he'
        (needed_self g _) hw, turned_neg hn]
    · ring
    · intro j _
      rw [needed_iff, hn]
      simp [Node.args]
  rw [hrd r hr, h.read_eq tr hx hys hss he hf hr, zipWith_map_right, zipWith_self, List.map_map]
  refine ⟨map_congr_left fun y hy => ?_, fun ho => map_congr_left fun y hy => ?_⟩
  · rw [hc y hy]
    ring
  · rw [hc y hy, Function.comp_apply, ho.negated_eq_zero tr]
    ring

end Negations

/-! ## Differences -/

/-- Two ways to compute a difference: `s` is the sum of `a` and the negation `n` of `b`, and
`d` is `a` minus `b`. The operands of a sum may be exchanged. -/
structure TwoDifferences (g : Graph) (a b n s d : Value) : Prop where
  negation : g.node n.net.source = .apply .neg [b.net] false
  sum : g.node s.net.source = .apply .add [a.net, n.net] true ∨
    g.node s.net.source = .apply .add [n.net, a.net] true
  difference : g.node d.net.source = .apply .sub [a.net, b.net] false

namespace TwoDifferences

variable {a b n s d : Value} {y k : NodeId}

section

variable (h : TwoDifferences g a b n s d)

include h

theorem exists_sum :
    ∃ args, g.node s.net.source = .apply .add args true ∧ ∀ m, m ∈ args ↔ m = a.net ∨ m = n.net := by
  rcases h.sum with hs | hs
  · exact ⟨_, hs, by simp⟩
  · exact ⟨_, hs, by simp [or_comm]⟩

theorem mem_sum {m : Net} : m ∈ (g.node s.net.source).args ↔ m = a.net ∨ m = n.net := by
  obtain ⟨args, hs, hm⟩ := h.exists_sum
  rw [hs]
  exact hm m

theorem needed_sum : g.Needed [s.net.source] k ↔
    g.sameNode s.net.source k ∨ g.Needed [a.net.source] k ∨
      g.sameNode n.net.source k ∨ g.Needed [b.net.source] k := by
  have hn : g.Needed [n.net.source] k ↔ g.sameNode n.net.source k ∨ g.Needed [b.net.source] k := by
    rw [needed_iff, h.negation]
    simp [Node.args]
  rw [needed_iff, ← hn]
  simp [h.mem_sum]

theorem needed_difference : g.Needed [d.net.source] k ↔
    g.sameNode d.net.source k ∨ g.Needed [a.net.source] k ∨ g.Needed [b.net.source] k := by
  rw [needed_iff, h.difference]
  simp [Node.args]

theorem proper (tr : g.Traced) (hk : g.Needed [a.net.source] k ∨ g.Needed [b.net.source] k) :
    g.sameNode s.net.source k = false ∧ g.sameNode d.net.source k = false := by
  have hb : b.net ∈ (g.node n.net.source).args := by simp [h.negation, Node.args]
  rw [sameNode_comm tr s.net.source, sameNode_comm tr d.net.source]
  rcases hk with hk | hk
  · exact ⟨(hk.proper tr (h.mem_sum.2 (.inl rfl))).2,
      (hk.proper tr (by simp [h.difference, Node.args])).2⟩
  · exact ⟨((hk.proper tr hb).1.proper tr (h.mem_sum.2 (.inr rfl))).2,
      (hk.proper tr (by simp [h.difference, Node.args])).2⟩

theorem not_needed_negation (tr : g.Traced) : ¬ g.Needed [b.net.source] n.net.source := by
  intro hn
  have hb : b.net ∈ (g.node n.net.source).args := by simp [h.negation, Node.args]
  exact Nat.lt_irrefl _ (Nat.lt_of_le_of_lt (hn.eldest_le tr) (eldest_lt_of_arg tr hb))

theorem not_isNegation (tr : g.Traced)
    (hk : g.sameNode s.net.source k ∨ g.sameNode d.net.source k) : ¬ g.IsNegation k := by
  obtain ⟨args, hs, -⟩ := h.exists_sum
  rcases hk with hk | hk
  · exact not_isNegation_of_same tr hs (by decide) hk
  · exact not_isNegation_of_same tr h.difference (by decide) hk

theorem differentiable (tr : g.Traced) {leaves : List NodeId}
    (hf : g.Differentiable d.net.source leaves) : g.Differentiable s.net.source leaves := by
  obtain ⟨args, hs, hg⟩ := h.exists_sum
  have hsum : ∀ m ∈ args, ∀ k, g.sameNode m.source k → g.PassedOn s.net.source k :=
    fun m hm k hk => ⟨_, needed_self g _, .add, args, true, hs, rfl, m, hm, hk⟩
  have hn : ∀ k, g.sameNode b.net.source k → g.PassedOn s.net.source k := fun k hk =>
    ⟨n.net.source, h.needed_sum.2 (.inr (.inr (.inl (sameNode_self g _)))), .neg, _, false,
      h.negation, rfl, b.net, by simp, hk⟩
  refine hf.of_passedOn tr ?_ fun k hk => ?_
  · rintro k ⟨u, hu, huk⟩
    rcases h.needed_difference.1 hu with hdu | hu | hu
    · obtain ⟨m, hm, hmk⟩ := (huk.congr tr (sameNode_symm tr hdu)
        (sameNode_self g k)).exists_arg
      rw [h.difference] at hm
      rcases mem_pair.1 hm with rfl | rfl
      · exact hsum _ ((hg _).2 (.inl rfl)) k hmk
      · exact hn k hmk
    · exact ⟨u, h.needed_sum.2 (.inr (.inl hu)), huk⟩
    · exact ⟨u, h.needed_sum.2 (.inr (.inr (.inr hu))), huk⟩
  · have he : g.Needed [a.net.source] k ∨ g.Needed [b.net.source] k → g.Needed [d.net.source] k ∧
          (g.sameNode k d.net.source → g.PassedOn s.net.source k) := by
      refine fun hk => ⟨h.needed_difference.2 (.inr hk), fun hd => ?_⟩
      rw [sameNode_comm tr, (h.proper tr hk).2] at hd
      cases hd
    rcases h.needed_sum.1 hk with hsk | hk | hnk | hk
    · have hss : g.Handles s.net.source s.net.source :=
        ⟨.inr ⟨.add, _, _, hs, rfl⟩, .inr (.inl (sameNode_self g _))⟩
      exact .inl (hss.congr tr hsk)
    · exact .inr (he (.inl hk))
    · have hsn : g.Handles s.net.source n.net.source := ⟨.inr ⟨.neg, _, _, h.negation, rfl⟩,
        .inr (.inr (hsum _ ((hg _).2 (.inr rfl)) _ (sameNode_self g _)))⟩
      exact .inl (hsn.congr tr hnk)
    · exact .inr (he (.inr hk))

variable {r : Reading K}

theorem slope_sum (wf : g.WellFormed) (hy : g.sameNode s.net.source y = false) :
    g.slope r y s.net.source = g.slope r y a.net.source + g.slope r y n.net.source := by
  rcases h.sum with hs | hs <;> rw [slope_apply wf hy hs] <;>
    simp [Operation.slope, Operation.weights, tangent_eq, add_comm]

theorem slope_difference (wf : g.WellFormed) (hy : g.sameNode d.net.source y = false) :
    g.slope r y d.net.source = g.slope r y a.net.source - g.slope r y b.net.source := by
  rw [slope_apply wf hy h.difference]
  simp [Operation.slope, Operation.weights, tangent_eq, sub_eq_add_neg]

theorem negated_eq (tr : g.Traced) (hn : g.Needed [a.net.source] n.net.source) :
    g.negated r y s.net.source = g.negated r y d.net.source := by
  refine negated_congr fun k hk => ?_
  have hsk : ¬ g.sameNode s.net.source k := fun hs => h.not_isNegation tr (.inl hs) hk
  have hdk : ¬ g.sameNode d.net.source k := fun hd => h.not_isNegation tr (.inr hd) hk
  have hnk : g.sameNode n.net.source k → g.Needed [a.net.source] k := fun hnk =>
    hn.congr tr hnk
  rw [h.needed_sum, h.needed_difference]
  tauto

theorem negated_eq_add (tr : g.Traced) (hr : r.Exact)
    (hs : s.net.source < g.size) (he : g.Regular s.net.source)
    (hn : ¬ g.Needed [a.net.source] n.net.source) : g.negated r y s.net.source =
      g.negated r y d.net.source - g.read r b.net.source * g.slope r y b.net.source := by
  have hg : g.IsNegation n.net.source := ⟨b.net, false, h.negation⟩
  have hw : ¬ g.Needed [d.net.source] n.net.source := by
    rw [h.needed_difference]
    rintro (hdn | hnd | hnd)
    · exact h.not_isNegation tr (.inr hdn) hg
    · exact hn hnd
    · exact h.not_needed_negation tr hnd
  rw [Graph.negated_eq_add tr hr hs he
    (h.needed_sum.2 (.inr (.inr (.inl (sameNode_self g _))))) hw, turned_neg h.negation]
  · ring
  · intro k hk
    have hsk : ¬ g.sameNode s.net.source k := fun hs => h.not_isNegation tr (.inl hs) hk
    have hdk : ¬ g.sameNode d.net.source k := fun hd => h.not_isNegation tr (.inr hd) hk
    rw [h.needed_sum, h.needed_difference]
    tauto

end

end TwoDifferences

/-- The gradient of a sum with a negation, compared with that of the difference. Where the
difference subtracts the slope of b, the sum has it multiplied by the negative of b, if the
negation is not a part of a already, and otherwise nothing of it. -/
theorem gradient_add_neg (tr : g.Traced) (hys : ∀ y ∈ ys, y.net.source < g.size)
    (hss : sets.Permutes) {a b n s d : Value} (hab : TwoDifferences g a b n s d)
    (ha : g.Regular a.net.source) (hb : g.Regular b.net.source)
    (hf : ∀ j, g.ways j s.net.source ≤ 2 ^ 53 ∧ g.ways j d.net.source ≤ 2 ^ 53)
    (h : HasGradient g d ys sets ds g₁) :
    ∃ es g₂, HasGradient g s ys sets es g₂ ∧ ∀ r : Reading K, r.Exact →
      (¬ g.Needed [a.net.source] n.net.source → es.map (read g₂ r) = zipWith (fun y c => c +
          (1 - g.read r b.net.source) * g.slope r y.net.source b.net.source) ys
          (ds.map (read g₁ r))) ∧ (g.Needed [a.net.source] n.net.source →
        es.map (read g₂ r) = zipWith (fun y c => c +
          g.slope r y.net.source n.net.source + g.slope r y.net.source b.net.source) ys
          (ds.map (read g₁ r))) := by
  obtain ⟨args, hs, hg⟩ := hab.exists_sum
  have hi : s.net.source < g.size := lt_size_of_ne_blank (by simp [hs])
  have hdsi : d.net.source < g.size := lt_size_of_ne_blank (by simp [hab.difference])
  have hn : g.Regular n.net.source := regular_of_operands hab.negation (by simp) (by simpa)
  have he : g.Regular s.net.source := by
    refine regular_of_operands hs (fun _ => rfl) fun m hm => ?_
    rcases (hg m).1 hm with rfl | rfl
    · exact ha
    · exact hn
  have he' : g.Regular d.net.source :=
    regular_of_operands hab.difference (by simp) (by simpa using ⟨ha, hb⟩)
  have hdf := h.differentiable tr hdsi hys hss
  obtain ⟨es, g₂, hes, hrd⟩ := exists_hasGradient (K := K) tr ys hi he
    (fun j => (hf j).1) hss (hab.differentiable tr hdf)
  have hnd : ∀ y ∈ ys, g.Needed [a.net.source] y.net.source ∨
      g.Needed [b.net.source] y.net.source := by
    intro y hy
    obtain ⟨hnd, hp⟩ := (hdf.passedOn _ (List.mem_map_of_mem hy)).proper tr
    refine (hab.needed_difference.1 hnd).resolve_left fun hd => ?_
    rw [sameNode_comm tr, hp] at hd
    cases hd
  refine ⟨es, g₂, hes, fun r hr => ?_⟩
  rw [hrd r hr, h.read_eq tr hdsi hys hss he' (fun j => (hf j).2) hr,
    zipWith_map_right, zipWith_self, zipWith_map_right, zipWith_self]
  refine ⟨fun hw => map_congr_left fun y hy => ?_, fun ho => map_congr_left fun y hy => ?_⟩
  · obtain ⟨hsy, hd⟩ := hab.proper tr (hnd y hy)
    have hny : g.sameNode n.net.source y.net.source = false := by
      refine Bool.eq_false_iff.2 fun hny => ?_
      rcases hnd y hy with hnee | hnee
      · exact hw (hnee.congr tr (sameNode_symm tr hny))
      · exact hab.not_needed_negation tr (hnee.congr tr (sameNode_symm tr hny))
    rw [hab.slope_sum tr.wellFormed hsy, hab.slope_difference tr.wellFormed hd,
      slope_neg tr.wellFormed hab.negation hny, hab.negated_eq_add tr hr hi he hw]
    ring
  · obtain ⟨hsy, hd⟩ := hab.proper tr (hnd y hy)
    rw [hab.slope_sum tr.wellFormed hsy, hab.slope_difference tr.wellFormed hd, hab.negated_eq tr ho]
    ring

/-- **Negations in gradients.** If x has a gradient, then so has its negative, and if the
difference of a and b has one, then so has the sum of a and the negative of b. But the components
are not those that the rules of differentiation say: that of the negative of x has the slope of x
multiplied by the negative of x, and so has the sum for b. -/
theorem gradient_of_negations (tr : g.Traced) (ys : List Value) (hys : ∀ y ∈ ys, y.net.source < g.size)
    (hsets : sets.Permutes) :
    (∀ (x n : Value) (ds : List Scalar) (g₁ : Graph),
      g.node n.net.source = .apply .neg [x.net] false → g.Regular x.net.source →
      (∀ j, g.ways j x.net.source ≤ 2 ^ 53) → HasGradient g x ys sets ds g₁ →
      ∃ es g₂, HasGradient g n ys sets es g₂ ∧ ∀ r : Reading K, r.Exact →
        (es.map (read g₂ r) = List.zipWith (fun y c => c -
          (1 + g.read r x.net.source) * g.slope r y.net.source x.net.source) ys
          (ds.map (read g₁ r))) ∧
        (g.Smooth x.net.source →
          es.map (read g₂ r) = (ds.map (read g₁ r)).map fun c => -g.read r x.net.source * c)) ∧
    ∀ (a b n s d : Value) (ds : List Scalar) (g₁ : Graph),
      TwoDifferences g a b n s d → g.Regular a.net.source → g.Regular b.net.source →
      (∀ j, g.ways j s.net.source ≤ 2 ^ 53 ∧ g.ways j d.net.source ≤ 2 ^ 53) →
      HasGradient g d ys sets ds g₁ →
      ∃ es g₂, HasGradient g s ys sets es g₂ ∧ ∀ r : Reading K, r.Exact →
        (¬ g.Needed [a.net.source] n.net.source →
          es.map (read g₂ r) = List.zipWith (fun y c => c +
            (1 - g.read r b.net.source) * g.slope r y.net.source b.net.source) ys
            (ds.map (read g₁ r))) ∧
        (g.Needed [a.net.source] n.net.source →
          es.map (read g₂ r) = List.zipWith (fun y c => c +
            g.slope r y.net.source n.net.source + g.slope r y.net.source b.net.source) ys
            (ds.map (read g₁ r))) :=
  ⟨fun _ _ _ _ hn hregular hfew h => gradient_neg tr hys hsets hn hregular hfew h,
    fun _ _ _ _ _ _ _ hab ha hb hfew h => gradient_add_neg tr hys hsets hab ha hb hfew h⟩

/-! ## An example -/

/-- A variable y with 2 y, the negative of that, the sum of both, and y minus 2 y. -/
def negatedDouble : Graph :=
  ((((Graph.empty.push (.constant (.float 3.0) false)).push
    (.apply .add [⟨.float, 0⟩, ⟨.float, 0⟩] true)).push (.apply .neg [⟨.float, 1⟩] false)).push
    (.apply .add [⟨.float, 0⟩, ⟨.float, 2⟩] true)).push
    (.apply .sub [⟨.float, 0⟩, ⟨.float, 1⟩] false)

theorem negatedDouble_traced : negatedDouble.Traced :=
  traced_of_checks (· == "add") (by decide)

def negatedDoubleValue (k : NodeId) : Value := ⟨⟨.float, k⟩, .float⟩

theorem negatedDouble_differences : TwoDifferences negatedDouble (negatedDoubleValue 0)
    (negatedDoubleValue 1) (negatedDoubleValue 2) (negatedDoubleValue 3) (negatedDoubleValue 4) :=
  ⟨rfl, .inl rfl, rfl⟩

theorem negatedDouble_rational {x : NodeId} (hx : x = 0 ∨ x = 1 ∨ x = 4) :
    negatedDouble.Rational x := by
  have hs : ∀ x ≤ 1, negatedDouble.Rational x := by
    intro x hx k hk
    have hl : k ≤ 1 := Nat.le_trans (hk.le negatedDouble_traced.wellFormed) hx
    match k, hl with
    | 0, _ => exact .inl rfl
    | 1, _ => exact .inr ⟨.add, _, true, rfl, by simp, fun _ => .inl rfl⟩
  rcases hx with rfl | rfl | rfl
  · exact hs 0 (by decide)
  · exact hs 1 (by decide)
  · intro k hk
    rcases within_cases hk with rfl | ⟨n, hn, hw⟩
    · exact .inr ⟨.sub, _, false, rfl, by simp, by simp⟩
    · rcases mem_pair.1 hn with rfl | rfl
      · exact hs 0 (by decide) k hw
      · exact hs 1 (by decide) k hw

theorem negatedDouble_ways (j : NodeId) : negatedDouble.ways j 1 ≤ 2 ^ 53 ∧
    negatedDouble.ways j 3 ≤ 2 ^ 53 ∧ negatedDouble.ways j 4 ≤ 2 ^ 53 := by
  have wf := negatedDouble_traced.wellFormed
  have hs : ∀ k : NodeId, (if negatedDouble.sameNode k j then 1 else 0) ≤ 1 := by
    intro k
    split <;> simp
  have h0 := ways_leaf (g := negatedDouble) (k := 0) (j := j) rfl
  have ho := ways_apply (k := 1) (j := j) wf rfl
  have hw := ways_le_one (k := 2) (j := j) wf rfl rfl
  have ht := ways_apply (k := 3) (j := j) wf rfl
  have h4 := ways_apply (k := 4) (j := j) wf rfl
  simp only [List.map_cons, map_nil, Operation.handed, Operation.hands, if_true] at ho ht h4
  have := hs 0
  have := hs 1
  have := hs 3
  have := hs 4
  omega

def negatedDoubleValues : Reading ℚ := (Valuation.rational fun _ => 3).reading

theorem negatedDoubleValues_exact : negatedDoubleValues.Exact := (Valuation.rational_exact _).reading

theorem negatedDouble_read : negatedDouble.read negatedDoubleValues 1 = 6 := by
  have h0 : negatedDouble.read negatedDoubleValues 0 = 3 := fold_leaf rfl
  rw [read_apply negatedDouble_traced.wellFormed rfl]
  simp only [List.map_cons, map_nil, negatedDoubleValues_exact.add, h0]
  norm_num

theorem negatedDouble_proper (k : NodeId) (hk : k = 1 ∨ k = 4) :
    negatedDouble.Needed [k] 0 ∧ negatedDouble.sameNode 0 k = false := by
  refine Graph.Needed.proper (n := ⟨.float, 0⟩) negatedDouble_traced ?_ (needed_self _ 0)
  rcases hk with rfl | rfl <;> decide

theorem negatedDouble_slope : negatedDouble.slope negatedDoubleValues 0 1 = 2 ∧
    negatedDouble.slope negatedDoubleValues 0 4 = -1 := by
  have wf := negatedDouble_traced.wellFormed
  have hn : ∀ k, k = 1 ∨ k = 4 → negatedDouble.sameNode k 0 = false := fun k hk => by
    rw [sameNode_comm negatedDouble_traced]
    exact (negatedDouble_proper k hk).2
  have hs := slope_self (r := negatedDoubleValues) wf (sameNode_self negatedDouble 0)
  have ho : negatedDouble.slope negatedDoubleValues 0 1 = 2 := by
    rw [slope_apply wf (hn 1 (.inl rfl)) rfl]
    simp only [List.map_cons, map_nil, Operation.slope, Operation.weights, tangent_eq, hs]
    norm_num
  refine ⟨ho, (negatedDouble_differences.slope_difference wf (hn 4 (.inr rfl))).trans ?_⟩
  change negatedDouble.slope negatedDoubleValues 0 0 - negatedDouble.slope negatedDoubleValues 0 1 = _
  rw [hs, ho]
  norm_num

theorem negatedDouble_hasGradient (k : NodeId) (hk : k = 1 ∨ k = 4) :
    ∃ ds g₁, HasGradient negatedDouble (negatedDoubleValue k) [negatedDoubleValue 0] {} ds g₁ ∧
      ds.map (read g₁ negatedDoubleValues) = [negatedDouble.slope negatedDoubleValues 0 k] := by
  have hr := negatedDouble_rational (.inr hk)
  have hs := smooth_of_rational hr
  have hp := negatedDouble_proper k hk
  have hf : ∀ j, negatedDouble.ways j k ≤ 2 ^ 53 := by
    intro j
    obtain ⟨ho, -, h4⟩ := negatedDouble_ways j
    rcases hk with rfl | rfl
    · exact ho
    · exact h4
  obtain ⟨ds, g₁, hd, hrd⟩ := exists_hasGradient (K := ℚ) (x := negatedDoubleValue k)
    negatedDouble_traced [negatedDoubleValue 0]
    (lt_size_of_isRational (hr k (.inl (List.mem_singleton_self k))))
    (regular_of_rational hr) hf SetOrder.permutes_default
    (hs.differentiable negatedDouble_traced (forall_mem_singleton.2 hp.1)
      (forall_mem_singleton.2 hp.2))
  refine ⟨ds, g₁, hd, (hrd negatedDoubleValues negatedDoubleValues_exact).trans ?_⟩
  simp only [List.map_cons, map_nil]
  rw [show (negatedDoubleValue k).net.source = k from rfl, hs.negated_eq_zero
    negatedDouble_traced, add_zero]
  rfl

theorem negatedDouble_not_needed : ¬ negatedDouble.Needed [0] 2 := by
  rw [needed_iff]
  rintro (hs | ⟨n, hn, -⟩)
  · exact absurd hs (by decide)
  · cases hn

/-- At y = 3 the gradient of 2 y is 2, and that of its negative is -12. The gradient of y - 2 y
is -1, and that of y + (-2 y) is -11. -/
theorem negatedDouble_gradients :
    (∃ ds g₁ es g₂,
      HasGradient negatedDouble (negatedDoubleValue 1) [negatedDoubleValue 0] {} ds g₁ ∧
      HasGradient negatedDouble (negatedDoubleValue 2) [negatedDoubleValue 0] {} es g₂ ∧
      ds.map (read g₁ negatedDoubleValues) = [2] ∧ es.map (read g₂ negatedDoubleValues) = [-12]) ∧
    ∃ ds g₁ es g₂,
      HasGradient negatedDouble (negatedDoubleValue 4) [negatedDoubleValue 0] {} ds g₁ ∧
      HasGradient negatedDouble (negatedDoubleValue 3) [negatedDoubleValue 0] {} es g₂ ∧
      ds.map (read g₁ negatedDoubleValues) = [-1] ∧ es.map (read g₂ negatedDoubleValues) = [-11] := by
  obtain ⟨hn, ha⟩ := gradient_of_negations (K := ℚ) negatedDouble_traced [negatedDoubleValue 0]
    (by decide) SetOrder.permutes_default
  obtain ⟨hs, hs'⟩ := negatedDouble_slope
  constructor
  · obtain ⟨ds, g₁, hd, hr⟩ := negatedDouble_hasGradient 1 (.inl rfl)
    obtain ⟨es, g₂, he, hr'⟩ := hn (negatedDoubleValue 1) (negatedDoubleValue 2) ds g₁ rfl
      (regular_of_rational (negatedDouble_rational (.inr (.inl rfl))))
      (fun j => (negatedDouble_ways j).1) hd
    refine ⟨ds, g₁, es, g₂, hd, he, by rw [hr, hs], ?_⟩
    rw [(hr' negatedDoubleValues negatedDoubleValues_exact).1, hr]
    simp only [List.zipWith_cons_cons, List.zipWith_nil_left]
    change [_ - (1 + negatedDouble.read _ 1) * negatedDouble.slope _ 0 1] = _
    rw [hs, negatedDouble_read]
    norm_num
  · obtain ⟨ds, g₁, hd, hr⟩ := negatedDouble_hasGradient 4 (.inr rfl)
    obtain ⟨es, g₂, he, hr'⟩ := ha (negatedDoubleValue 0) (negatedDoubleValue 1)
      (negatedDoubleValue 2) (negatedDoubleValue 3) (negatedDoubleValue 4) ds g₁
      negatedDouble_differences (regular_of_rational (negatedDouble_rational (.inl rfl)))
      (regular_of_rational (negatedDouble_rational (.inr (.inl rfl))))
      (fun j => (negatedDouble_ways j).2) hd
    refine ⟨ds, g₁, es, g₂, hd, he, by rw [hr, hs'], ?_⟩
    rw [(hr' negatedDoubleValues negatedDoubleValues_exact).1 negatedDouble_not_needed, hr]
    simp only [List.zipWith_cons_cons, List.zipWith_nil_left]
    change [_ + (1 - negatedDouble.read _ 1) * negatedDouble.slope _ 0 1] = _
    rw [hs, hs', negatedDouble_read]
    norm_num

/-- The gradient of the negative of 2 y is not the negative of that of 2 y. -/
theorem negation_gradient_differs : ∃ ds g₁ es g₂,
    HasGradient negatedDouble (negatedDoubleValue 1) [negatedDoubleValue 0] {} ds g₁ ∧
    HasGradient negatedDouble (negatedDoubleValue 2) [negatedDoubleValue 0] {} es g₂ ∧
    es.map (read g₂ negatedDoubleValues) ≠ (ds.map (read g₁ negatedDoubleValues)).map Neg.neg := by
  have hr := negatedDouble_rational (.inr (.inl rfl))
  obtain ⟨ds, g₁, hd, he⟩ := negatedDouble_hasGradient 1 (.inl rfl)
  obtain ⟨es, g₂, hs, he'⟩ := gradient_neg (K := ℚ) (n := negatedDoubleValue 2)
    negatedDouble_traced (by decide) SetOrder.permutes_default rfl
    (regular_of_rational hr) (fun j => (negatedDouble_ways j).1) hd
  refine ⟨ds, g₁, es, g₂, hd, hs, ?_⟩
  rw [(he' negatedDoubleValues negatedDoubleValues_exact).2 (smooth_of_rational hr), he,
    negatedDouble_slope.1]
  change [-negatedDouble.read negatedDoubleValues 1 * 2] ≠ _
  rw [negatedDouble_read]
  norm_num

end Gradient

end Patchwork
