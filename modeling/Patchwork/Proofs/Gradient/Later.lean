import Patchwork.Proofs.Gradient.Negation

/-!
# Gradients later on

A graph only grows. Nodes that are added later do not change what the old ones are computed from,
which of them are the same, or what they are worth. So it does not matter when a gradient is asked
for: it exists in a later graph exactly if it exists now, and its components mean the same. It does
not matter either in which order sets are gone through.
-/

namespace Patchwork

theorem Operation.handed_eq_zero (o : Operation) {xs : List Nat} (h : ∀ a ∈ xs, a = 0) :
    o.handed xs = 0 := by
  fun_cases Operation.handed o xs <;> simp_all

namespace Graph

variable {g g' : Graph} {x y j k : NodeId}

theorem within_iff : g.Within [x] k ↔ k = x ∨ ∃ n ∈ (g.node x).args, g.Within [n.source] k := by
  constructor
  · exact within_cases
  · rintro (rfl | ⟨n, hn, hk⟩)
    · exact .inl (List.mem_singleton_self _)
    · exact .inr (hk.below_of_operand hn)

theorem lt_size_of_within (tr : g.Traced) (hx : x < g.size) (hk : g.Within [x] k) : k < g.size :=
  Nat.lt_of_le_of_lt (hk.le tr.wellFormed) hx

theorem ways_eq_zero (wf : g.WellFormed) (h : ∀ i, g.Within [k] i → g.sameNode i j = false) :
    g.ways j k = 0 := by
  induction k using Nat.strongRecOn with
  | _ k ih =>
    have hk : g.sameNode k j = false := h k (.inl (List.mem_singleton_self k))
    cases hd : g.node k with
    | apply o args c =>
      have hg : ∀ n ∈ args, g.ways j n.source = 0 := by
        intro n hn
        have hn' : n ∈ (g.node k).args := by simpa [hd, Node.args] using hn
        exact ih n.source ((wf k).before n hn') fun i hi => h i (.inr (hi.below_of_operand hn'))
      rw [ways_apply wf hd, hk, o.handed_eq_zero (by simpa using hg)]
      rfl
    | _ =>
      rw [ways, fold, hd]
      simp [hk]

namespace Extends

variable (h : g.Extends g') (tr : g.Traced)

include h tr

/-! ## What old nodes need -/

theorem within (hx : x < g.size) :
    g'.Within [x] k ↔ g.Within [x] k := by
  induction x using Nat.strongRecOn with
  | _ x ih =>
    rw [within_iff, within_iff, h.node x hx]
    refine or_congr_right (exists_congr fun n => and_congr_right fun hn => ?_)
    have hb := (tr.wellFormed x).before n hn
    exact ih n.source hb (Nat.lt_trans hb hx)

theorem needed (hx : x < g.size) (hk : k < g.size) :
    g'.Needed [x] k ↔ g.Needed [x] k := by
  refine exists_congr fun j => ?_
  rw [h.within tr hx]
  refine and_congr_right fun hj => ?_
  rw [h.sameNode tr.wellFormed (lt_size_of_within tr hx hj) hk]

theorem regular (hx : x < g.size) (hr : g.Regular x) :
    g'.Regular x := by
  intro k hk o args hn
  rw [h.within tr hx] at hk
  rw [h.node k (lt_size_of_within tr hx hk)] at hn
  exact hr k hk o args hn

theorem eldest (hk : k < g.size) : g'.eldest k = g.eldest k := by
  have hl : g.eldest k ≤ k := eldest_le (sameNode_self g k)
  have hl' : g'.eldest k ≤ k := eldest_le (sameNode_self g' k)
  refine Nat.le_antisymm (eldest_le ?_) (eldest_le ?_)
  · rw [h.sameNode tr.wellFormed (Nat.lt_of_le_of_lt hl hk) hk]
    exact g.sameNode_eldest k
  · rw [← h.sameNode tr.wellFormed (Nat.lt_of_le_of_lt hl' hk) hk]
    exact g'.sameNode_eldest k

/-! ## What old nodes are worth -/

section Slope

variable {K : Type*} [Field K]

theorem slope (r : Reading K) (hy : y < g.size)
    (hk : k < g.size) : g'.slope r y k = g.slope r y k := by
  refine congrArg Dual.derivative (h.fold (fun j hj => ?_) (fun j hj => ?_) hk)
  · rw [leafValue, leafValue, h.node j hj, h.sameNode tr.wellFormed hj hy]
  · rw [h.sameNode tr.wellFormed hj hy]

theorem turned (r : Reading K) (hy : y < g.size)
    (hk : k < g.size) : g'.turned r y k = g.turned r y k := by
  by_cases he : ∃ n c, g.node k = .apply .neg [n] c
  · obtain ⟨n, c, hd⟩ := he
    have hn : n.source < g.size :=
      Nat.lt_trans ((tr.wellFormed k).before n (by simp [hd, Node.args])) hk
    rw [turned_neg hd, turned_neg ((h.node k hk).trans hd), h.read r hn, h.slope tr r hy hn]
  · have ho : ∀ n c, g.node k ≠ .apply .neg [n] c := fun n c hd => he ⟨n, c, hd⟩
    rw [turned_of_ne ho, turned_of_ne]
    rwa [h.node k hk]

/-- New nodes that are needed are the same as old ones, so they are not the eldest. -/
theorem lt_size_of_eldest (hx : x < g.size)
    (hk : g'.Needed [x] k) (heldest : g'.eldest k = k) : k < g.size := by
  obtain ⟨j, hj, hjk⟩ := hk
  rw [h.within tr hx] at hj
  calc k = g'.eldest k := heldest.symm
    _ ≤ j := eldest_le hjk
    _ < g.size := lt_size_of_within tr hx hj

theorem negated (r : Reading K) (hx : x < g.size)
    (hy : y < g.size) : g'.negated r y x = g.negated r y x := by
  classical
  refine Finset.sum_congr (Finset.ext fun k => ?_) fun k hk => ?_
  · simp only [Finset.mem_filter, Finset.mem_range]
    constructor
    · rintro ⟨-, heldest, hn⟩
      have hk := h.lt_size_of_eldest tr hx hn heldest
      rw [h.eldest tr hk] at heldest
      exact ⟨hk, heldest, (h.needed tr hx hk).1 hn⟩
    · rintro ⟨hk, heldest, hn⟩
      refine ⟨Nat.lt_of_lt_of_le hk h.size, ?_, (h.needed tr hx hk).2 hn⟩
      rw [h.eldest tr hk, heldest]
  · exact h.turned tr r hy (Finset.mem_range.1 (Finset.mem_filter.1 hk).1)

end Slope

/-- A new node is the same as an old one, or nothing old leads to it. -/
theorem ways_le (tr' : g'.Traced) (hx : x < g.size) {m : Nat}
    (hf : ∀ j, g.ways j x ≤ m) (j : NodeId) : g'.ways j x ≤ m := by
  by_cases ho : ∃ i < g.size, g'.sameNode i j
  · obtain ⟨i, hi, hj⟩ := ho
    have hs : ∀ a < g.size, g'.sameNode a j = g.sameNode a i := by
      intro a ha
      rw [sameNode_comm tr', ← sameNode_congr tr' hj, sameNode_comm tr',
        h.sameNode tr.wellFormed ha hi]
    have hw : g'.ways j x = g.ways i x := by
      refine h.fold (fun a ha => ?_) (fun a ha => ?_) hx
      · rw [hs a ha]
      · rw [hs a ha]
    exact hw ▸ hf i
  · rw [ways_eq_zero tr'.wellFormed]
    · exact Nat.zero_le m
    · intro i hi
      rw [h.within tr hx] at hi
      exact Bool.eq_false_iff.2 fun hj => ho ⟨i, lt_size_of_within tr hx hi, hj⟩

/-! ## What is passed on -/

theorem passesTo (hk : k < g.size) (hj : j < g.size) :
    g'.PassesTo k j ↔ g.PassesTo k j := by
  refine exists_congr fun o => exists_congr fun args => exists_congr fun c => ?_
  rw [h.node k hk]
  refine and_congr_right fun hd => and_congr_right fun _ => exists_congr fun n =>
    and_congr_right fun hn => ?_
  have hb := (tr.wellFormed k).before n (by simpa [hd, Node.args] using hn)
  rw [h.sameNode tr.wellFormed (Nat.lt_trans hb hk) hj]

theorem passedOn (tr' : g'.Traced) (hx : x < g.size)
    (hk : k < g.size) : g'.PassedOn x k ↔ g.PassedOn x k := by
  constructor
  · rintro ⟨u, ⟨i, hi, hiu⟩, hp⟩
    rw [h.within tr hx] at hi
    have hp' := hp.congr tr' (sameNode_symm tr' hiu) (sameNode_self g' k)
    exact ⟨i, hi.needed, (h.passesTo tr (lt_size_of_within tr hx hi) hk).1 hp'⟩
  · rintro ⟨u, hu, hp⟩
    have hl := Gradient.lt_size_of_needed tr hx hu
    exact ⟨u, (h.needed tr hx hl).2 hu, (h.passesTo tr hl hk).2 hp⟩

theorem handles (tr' : g'.Traced) (hx : x < g.size)
    (hk : k < g.size) : g'.Handles x k ↔ g.Handles x k := by
  rw [Handles, Handles, Ruled, Ruled, h.node k hk, h.sameNode tr.wellFormed hk hx,
    h.passedOn tr tr' hx hk]

theorem liesBetween (hx : x < g.size) {leaves : List NodeId}
    (hl : ∀ y ∈ leaves, y < g.size) (hk : k < g.size) :
    g'.LiesBetween x leaves k ↔ g.LiesBetween x leaves k := by
  refine and_congr (h.needed tr hx hk) (exists_congr fun y => and_congr_right fun hy => ?_)
  rw [h.needed tr hk (hl y hy), h.sameNode tr.wellFormed (hl y hy) hx]

/-- New nodes neither lose nor find an adjoint. What lies between in the later graph is the same
as an old node. -/
theorem differentiable (tr' : g'.Traced) (hx : x < g.size)
    {leaves : List NodeId} (hl : ∀ y ∈ leaves, y < g.size) :
    g'.Differentiable x leaves ↔ g.Differentiable x leaves := by
  constructor
  · intro hd
    refine ⟨fun k hk => ?_, fun y hy => ?_⟩
    · have ht := Gradient.lt_size_of_needed tr hx hk.1
      exact (h.handles tr tr' hx ht).1 (hd.handles k ((h.liesBetween tr hx hl ht).2 hk))
    · exact (h.passedOn tr tr' hx (hl y hy)).1 (hd.passedOn y hy)
  · intro hd
    refine ⟨fun k hk => ?_, fun y hy => ?_⟩
    · obtain ⟨⟨i, hi, hik⟩, y, hy, hky, hyx⟩ := hk
      have ht := lt_size_of_within tr hx ((h.within tr hx).1 hi)
      have hb : g'.LiesBetween x leaves i :=
        ⟨hi.needed, y, hy, hky.congr_root tr' (sameNode_symm tr' hik), hyx⟩
      have hh := hd.handles i ((h.liesBetween tr hx hl ht).1 hb)
      exact ((h.handles tr tr' hx ht).2 hh).congr tr' hik
    · exact (h.passedOn tr tr' hx (hl y hy)).2 (hd.passedOn y hy)

end Extends

end Graph

namespace Gradient

open Scalar

variable {K : Type*} [Field K] {g g' g₁ g₂ : Graph} {x : Value} {ys : List Value}
  {sets sets' : SetOrder} {ds es : List Scalar}

/-! ## The gradient later on -/

/-- The meaning of a gradient is known: the result and the values are those of a traced graph,
only symmetric operations are marked as such, and plain adjoints stay small. -/
structure Tellable (g : Graph) (x : Value) (ys : List Value) : Prop where
  traced : g.Traced
  result : x.net.source < g.size
  leaves : ∀ y ∈ ys, y.net.source < g.size
  regular : g.Regular x.net.source
  few : ∀ j, g.ways j x.net.source ≤ 2 ^ 53

section

variable (h : Tellable g x ys) (hext : g.Extends g') (tr' : g'.Traced)

include h hext tr'

theorem Tellable.later :
    Tellable g' x ys where
  traced := tr'
  result := Nat.lt_of_lt_of_le h.result hext.size
  leaves y hy := Nat.lt_of_lt_of_le (h.leaves y hy) hext.size
  regular := hext.regular h.traced h.result h.regular
  few := hext.ways_le h.traced tr' h.result h.few

omit h hext tr' in
theorem Tellable.exists_iff (h : Tellable g x ys) (hs : sets.Permutes) :
    (∃ ds g₁, HasGradient g x ys sets ds g₁) ↔
      g.Differentiable x.net.source (ys.map fun y => y.net.source) := by
  constructor
  · rintro ⟨ds, g₁, hr⟩
    exact hr.differentiable h.traced h.result h.leaves hs
  · intro hd
    obtain ⟨ds, g₁, hr, -⟩ := exists_hasGradient (K := ℚ) h.traced ys h.result h.regular h.few hs hd
    exact ⟨ds, g₁, hr⟩

/-- A gradient exists later exactly if it exists now. -/
theorem Tellable.exists_later (hs : sets.Permutes) (hs' : sets'.Permutes) :
    (∃ ds g₁, HasGradient g x ys sets ds g₁) ↔ ∃ es g₂, HasGradient g' x ys sets' es g₂ := by
  rw [h.exists_iff hs, (h.later hext tr').exists_iff hs', hext.differentiable h.traced tr' h.result]
  intro k hk
  obtain ⟨y, hy, rfl⟩ := List.mem_map.1 hk
  exact h.leaves y hy

/-- The components mean the same, whenever and in whatever order they are found. -/
theorem Tellable.read_later
    (hs : sets.Permutes) (hs' : sets'.Permutes) (hd : HasGradient g x ys sets ds g₁)
    (he : HasGradient g' x ys sets' es g₂) {r : Reading K} (hr : r.Exact) :
    ds.map (read g₁ r) = es.map (read g₂ r) := by
  have h' := h.later hext tr'
  rw [hd.read_eq h.traced h.result h.leaves hs h.regular h.few hr,
    he.read_eq tr' h'.result h'.leaves hs' h'.regular h'.few hr]
  refine List.map_congr_left fun y hy => ?_
  rw [hext.slope h.traced r (h.leaves y hy) h.result,
    hext.negated h.traced r h.result (h.leaves y hy)]

end

end Gradient

end Patchwork
