import Patchwork.Datum.Routines
import Patchwork.Proofs.Gradient.Ledger
import Mathlib.Algebra.BigOperators.Group.Finset.Basic

/-!
# The components of a gradient

An adjoint is looked up for every variable, and for every operation that lies between the
result and a variable. It has been entered if some operation that is not flat has passed it on.
So a gradient exists if that is so for all of them, and there is a fault at the first one
without an adjoint. A component is the slope of the result, and what negations have added.
-/

namespace Patchwork

open List

namespace Graph

variable {g : Graph} {x y k : NodeId} {leaves order : List NodeId}

/-! ## What lies between -/

/-- A node lies between a result and some variables, one of which is not the result itself. -/
def LiesBetween (g : Graph) (x : NodeId) (leaves : List NodeId) (k : NodeId) : Prop :=
  g.Needed [x] k ∧ ∃ y ∈ leaves, g.Needed [k] y ∧ g.sameNode y x = false

/-- No adjoint is missing: whatever lies between can pass its adjoint on, and the variables
have one. -/
structure Differentiable (g : Graph) (x : NodeId) (leaves : List NodeId) : Prop where
  handles : ∀ k, g.LiesBetween x leaves k → g.Handles x k
  passedOn : ∀ y ∈ leaves, g.PassedOn x y

theorem PassedOn.proper (tr : g.Traced) (h : g.PassedOn x k) :
    g.Needed [x] k ∧ g.sameNode k x = false := by
  obtain ⟨u, hu, hp⟩ := h
  obtain ⟨n, hn, hk⟩ := hp.exists_arg
  refine ⟨(hu.operand tr hn).congr tr hk, sameNode_eq_false_of_eldest tr ?_⟩
  rw [← eldest_eq tr hk]
  exact Nat.lt_of_lt_of_le (eldest_lt_of_arg tr hn) (hu.eldest_le tr)

theorem Needed.proper (tr : g.Traced) {n : Net} (hn : n ∈ (g.node x).args) (h : g.Needed [n.source] k) :
    g.Needed [x] k ∧ g.sameNode k x = false :=
  ⟨needed_iff.2 (.inr ⟨n, hn, h⟩), sameNode_eq_false_of_eldest tr
    (Nat.lt_of_le_of_lt (h.eldest_le tr) (eldest_lt_of_arg tr hn))⟩

theorem Backward.mem_iff (b : g.Backward x leaves order) (tr : g.Traced) :
    (∃ j ∈ order, g.sameNode k j) ↔ g.LiesBetween x leaves k := by
  constructor
  · rintro ⟨j, hj, hkj⟩
    obtain ⟨y, hy, hd, hx⟩ := b.reaches j hj
    have hjk := sameNode_symm tr hkj
    exact ⟨(b.needed j hj).congr tr hjk, y, hy, hd.congr_root tr hjk, hx⟩
  · rintro ⟨hk, y, hy, hd, hx⟩
    induction k using Nat.strongRecOn with
    | _ k ih =>
      rcases needed_iff.1 hd with hky | ⟨n, hn, hd'⟩
      · obtain ⟨j, hj, hyj⟩ := b.leaf y hy (hk.trans tr hd) hx
        exact ⟨j, hj, sameNode_trans tr hky hyj⟩
      · obtain ⟨j, hj, hnj⟩ := ih n.source ((tr.wellFormed k).before n hn) (hk.operand tr hn) hd'
        exact b.complete k hk n hn j hj hnj

theorem args_eq_nil_of_same (tr : g.Traced) {j : NodeId} (hk : g.sameNode k j)
    (hi : (g.node k).args = []) : (g.node j).args = [] := by
  refine eq_nil_iff_forall_not_mem.2 fun n hn => ?_
  obtain ⟨m, hm, -⟩ := exists_same_arg tr.wellFormed (sameNode_symm tr hk) hn
  simp [hi] at hm

theorem Ruled.congr (tr : g.Traced) {j : NodeId} (h : g.Ruled k) (hkj : g.sameNode k j) :
    g.Ruled j := by
  refine h.imp (args_eq_nil_of_same tr hkj) ?_
  rintro ⟨o, args, c, hk, ho⟩
  obtain ⟨args', hj⟩ := apply_of_same tr hkj hk
  exact ⟨o, args', c, hj, ho⟩

theorem Handles.congr (tr : g.Traced) {j : NodeId} (h : g.Handles x k)
    (hk : g.sameNode k j) : g.Handles x j := by
  refine ⟨h.1.congr tr hk, h.2.imp (args_eq_nil_of_same tr hk) (Or.imp (fun hx => ?_) ?_)⟩
  · exact sameNode_trans tr (sameNode_symm tr hk) hx
  · exact fun hp => hp.congr tr hk

/-! ## What negations add -/

section Negated

variable {K : Type*} [Field K] {r : Reading K}

/-- What does not lie between does not change: a node that nothing in the order is the same
as is computed from nothing in the order. -/
theorem Backward.slope_eq_zero (b : g.Backward x leaves order) (tr : g.Traced)
    (hy : ∃ i ∈ order, g.sameNode y i) (hk : g.Needed [x] k)
    (ho : ∀ i ∈ order, g.sameNode k i = false) : g.slope r y k = 0 := by
  obtain ⟨i, hi, hyi⟩ := hy
  refine Graph.slope_eq_zero tr fun hn => ?_
  obtain ⟨z, hz, hn', hx⟩ := b.reaches i hi
  have hz' := hn'.congr_root tr (sameNode_symm tr hyi)
  obtain ⟨j, hj, hkj⟩ := (b.mem_iff tr).2 ⟨hk, z, hz, hn.trans tr hz', hx⟩
  rw [ho j hj] at hkj
  cases hkj

open Classical in
/-- What negations add to a component: every negation that the result needs, up to equality,
adds the negative of its operand by the slope of that. -/
noncomputable def negated (g : Graph) (r : Reading K) (y x : NodeId) : K :=
  ∑ k ∈ (Finset.range g.size).filter fun k => g.eldest k = k ∧ g.Needed [x] k, g.turned r y k

theorem eldest_eldest (tr : g.Traced) (k : NodeId) : g.eldest (g.eldest k) = g.eldest k :=
  eldest_eq tr (sameNode_eldest g k)

/-- Negations that do not lie between add nothing. -/
theorem Backward.turned_eq_zero (b : g.Backward x leaves order) (tr : g.Traced)
    (hy : ∃ i ∈ order, g.sameNode y i) (hk : g.Needed [x] k)
    (ho : ∀ i ∈ order, g.sameNode k i = false) : g.turned r y k = 0 := by
  by_cases he : ∃ n c, g.node k = .apply .neg [n] c
  · obtain ⟨n, c, hd⟩ := he
    have hn : n ∈ (g.node k).args := by simp [hd, Node.args]
    rw [turned_neg hd, b.slope_eq_zero tr hy (hk.operand tr hn) fun i hi => ?_, mul_zero]
    rw [Bool.eq_false_iff]
    intro hni
    obtain ⟨j, hj, hkj⟩ := b.complete k hk n hn i hi hni
    rw [ho j hj] at hkj
    cases hkj
  · exact turned_of_ne fun n c h => he ⟨n, c, h⟩

/-- What the nodes of the order add is what negations add. -/
theorem Backward.sum_turned (b : g.Backward x leaves order) (tr : g.Traced) (hx : x < g.size)
    (hr : r.Exact) (he : g.Regular x) (hy : ∃ i ∈ order, g.sameNode y i) :
    (order.map (g.turned r y)).sum = g.negated r y x := by
  classical
  have heldest : ∀ k, g.sameNode k (g.eldest k) := fun k =>
    sameNode_symm tr (sameNode_eldest g k)
  have ho : (order.map g.eldest).Nodup := by
    refine pairwise_map.2 (b.distinct.imp fun {j k} hjk heq => ?_)
    have hm := sameNode_trans tr (heldest j) (heq ▸ sameNode_eldest g k)
    rw [hjk] at hm
    cases hm
  have hs : (order.map (g.turned r y)).sum = ((order.map g.eldest).map (g.turned r y)).sum := by
    rw [map_map]
    refine congrArg _ (map_congr_left fun k hk => ?_)
    exact turned_congr tr hr he (b.needed k hk) (heldest k)
  rw [hs, ← sum_toFinset _ ho]
  refine Finset.sum_subset ?_ ?_
  · intro j hj
    obtain ⟨k, hk, rfl⟩ := mem_map.1 (mem_toFinset.1 hj)
    have hn := (b.needed k hk).congr tr (heldest k)
    simpa [eldest_eldest tr, hn] using Gradient.lt_size_of_needed tr hx hn
  · intro j hj hu
    obtain ⟨-, hf, hn⟩ := Finset.mem_filter.1 hj
    refine b.turned_eq_zero tr hy hn fun i hi => Bool.eq_false_iff.2 fun hji => hu ?_
    refine mem_toFinset.2 (mem_map.2 ⟨i, hi, ?_⟩)
    rw [← eldest_eq tr hji, hf]

/-! ## Smooth results -/

/-- A smooth result: every operation that it is computed by passes its adjoint on by the
weights, to all its operands. -/
def Smooth (g : Graph) (x : NodeId) : Prop :=
  ∀ k, g.Within [x] k → (g.node k).args = [] ∨
    ∃ o args c, g.node k = .apply o args c ∧ o.hasRule = true ∧ o.isFlat = false ∧ o ≠ .neg

theorem smooth_of_operands {o : Operation} {args : List Net} {c : Bool}
    (h : g.node x = .apply o args c) (ho : o.hasRule ∧ o.isFlat = false ∧ o ≠ .neg)
    (hg : ∀ n ∈ args, g.Smooth n.source) : g.Smooth x := by
  intro k hk
  rcases within_cases hk with rfl | ⟨n, hn, hw⟩
  · exact .inr ⟨o, args, c, h, ho⟩
  · rw [h] at hn
    exact hg n hn k hw

section

variable (h : g.Smooth x) (tr : g.Traced)

include h tr

theorem Smooth.passedOn (hk : g.Needed [x] k) (hp : g.sameNode k x = false) : g.PassedOn x k := by
  obtain ⟨j, hj | hj, hjk⟩ := hk
  · rw [mem_singleton.1 hj, sameNode_comm tr, hp] at hjk
    cases hjk
  · obtain ⟨u, hu, n, hn, rfl⟩ := hj.exists_user
    rcases h u hu with hi | ⟨o, args, c, hd, -, hf, -⟩
    · simp [hi] at hn
    · rw [hd] at hn
      exact ⟨u, hu.needed, o, args, c, hd, hf, n, hn, hjk⟩

theorem Smooth.handles (hk : g.Needed [x] k) : g.Handles x k := by
  obtain ⟨j, hj, hjk⟩ := hk
  refine Handles.congr tr ⟨?_, .inr ?_⟩ hjk
  · refine (h j hj).imp_right ?_
    rintro ⟨o, args, c, hn, ho, -⟩
    exact ⟨o, args, c, hn, ho⟩
  · by_cases hx : g.sameNode j x
    · exact .inl hx
    · exact .inr (h.passedOn tr hj.needed (Bool.eq_false_iff.2 hx))

theorem Smooth.differentiable (hn : ∀ y ∈ leaves, g.Needed [x] y)
    (hp : ∀ y ∈ leaves, g.sameNode y x = false) : g.Differentiable x leaves where
  handles _ hk := h.handles tr hk.1
  passedOn y hy := h.passedOn tr (hn y hy) (hp y hy)

theorem Smooth.negated_eq_zero (r : Reading K) (y : NodeId) : g.negated r y x = 0 := by
  classical
  refine Finset.sum_eq_zero fun k hk => turned_of_ne fun n c hn => ?_
  obtain ⟨j, hj, hjk⟩ := (Finset.mem_filter.1 hk).2.2
  obtain ⟨args, hn'⟩ := apply_of_same tr (sameNode_symm tr hjk) hn
  rcases h j hj with hi | ⟨o, args', c', hn'', -, -, he⟩
  · simpa [hn, Node.args] using args_eq_nil_of_same tr hjk hi
  · cases hn'.symm.trans hn''
    exact he rfl

end

end Negated

end Graph

namespace Gradient

open Scalar

variable {K : Type*} [Field K] {small : Prop} {g g' : Graph} {x : Value} {found : Adjoints}
  {l done leaves order : List NodeId} {k : NodeId}

/-- The result itself has passed its adjoint on if anything has. -/
theorem mem_order_self {x : NodeId} (b : g.Backward x leaves order) (h : order ≠ []) : x ∈ order := by
  have hs : order = order.dropLast ++ order.getLast h :: [] := (dropLast_append_getLast h).symm
  rcases b.used _ _ _ hs with hx | ⟨j, hj, -⟩
  · exact hx ▸ getLast_mem h
  · cases hj

/-- The books end with the slope: when everything between has passed its adjoint on, that of
a variable is the slope of the result, and what negations add. -/
theorem Ledger.component {x y : NodeId} (h : Ledger K small g g' x order found) (tr : g.Traced)
    (hx : x < g.size) (hs : small) (hg : g.Regular x) (b : g.Backward x leaves order)
    (hy : ∃ i ∈ order, g.sameNode y i) (hp : g.sameNode y x = false) {n : Net}
    (hn : n.source = y) {r : Reading K} (hr : r.Exact) :
    (amount g found n).read g' r = g.slope r y x + g.negated r y x := by
  obtain ⟨k, hk, hyk⟩ := hy
  have hm : x ∈ order := mem_order_self b (ne_nil_of_mem hk)
  -- Of what counts, take off the variable: what is left does not change with it.
  have hrs : total (read g' r) (g.slope r y)
      (fun k => counts g (fun k => g.sameNode k y) order k && !g.sameNode k y) found = 0 := by
    refine sum_eq_zero fun a ha => ?_
    obtain ⟨e, he, rfl⟩ := mem_map.1 ha
    split
    · next hc =>
      have ho : ∀ i ∈ order, g.sameNode e.1.source i = false := by
        simp only [counts, Bool.and_eq_true, Bool.or_eq_true, Bool.not_eq_true'] at hc
        obtain ⟨hor, hne⟩ := hc
        rw [hne] at hor
        simpa using hor
      rw [b.slope_eq_zero tr ⟨k, hk, hyk⟩ (h.books.needed e he) ho, mul_zero]
    · rfl
  have hl : counts g (fun k => g.sameNode k y) order n.source := by
    simp [counts, hn]
  have hdd : counts g (fun k => g.sameNode k y) order x = false := by
    have hany : order.any (g.sameNode x) := any_eq_true.2 ⟨x, hm, Graph.sameNode_self g x⟩
    simp [counts, Graph.sameNode_comm tr x y, hp, hany]
  have ht := total_retire
    (fun k => counts g (fun k => g.sameNode k y) order k && !g.sameNode k y) tr h.books.separate
    (h.books.fair_slope tr hr hg y) hl (read_zero g' hr) fun e _ => by rw [Graph.sameNet, hn]
  have hd := h.read_eq hs r hr y
  rw [balance, hdd, if_neg Bool.false_ne_true, zero_add, ht, hrs, zero_add, hn,
    Graph.slope_self tr.wellFormed (Graph.sameNode_self g y), mul_one,
    b.sum_turned tr hx hr hg ⟨k, hk, hyk⟩] at hd
  exact hd

/-- There is a fault at a node whose adjoint cannot be passed on. -/
theorem Ledger.passOn_fails (h : Ledger K small g g' x.net.source done found) (tr : g.Traced)
    (hx : x.net.source < g.size) (b : g.Backward x.net.source leaves order)
    (hs : order = l ++ k :: done) (hk : ¬ g.Handles x.net.source k) :
    (Gradient.passOn x order found k).Fails g' fun e => g.Ruled k → e = .absentKey := by
  have hg := h.books.grown.node k (lt_size_of_needed tr hx (b.needed k (by simp [hs])))
  refine .get_bind ?_
  dsimp only
  rw [hg]
  cases hgs : (g.node k).args with
  | nil => exact absurd ⟨.inl hgs, .inl hgs⟩ hk
  | cons n rest =>
    obtain ⟨n₀, hn₀, hf, hm⟩ := exists_ownAdjoint tr hx b hs h.books
    by_cases he : k = x.net.source ∨ (at? g found n₀).isSome
    · -- There is an adjoint, so there is no rule.
      have hr : ¬ g.Ruled k := by
        refine fun hr => hk ⟨hr, .inr (he.imp (fun hkx => ?_) fun hso => ?_)⟩
        · rw [hkx, Graph.sameNode_self]
        · obtain ⟨u, hu, hp⟩ := (h.entered n₀).1 hso
          exact ⟨u, b.needed u (by simp [hs, hu]),
            hp.congr tr (Graph.sameNode_self g u) (Graph.sameNode_symm tr hn₀)⟩
      have hw : (ownAdjoint x order found k).Gives g' fun _ _ => True :=
        ⟨_, _, hf he, .refl g', trivial⟩
      refine hw.bind_fails fun s g₂ _ _ => ?_
      cases hd : g.node k with
      | apply o args c =>
        have ho : o.hasRule = false := Bool.eq_false_iff.2 fun ho =>
          hr (.inr ⟨o, args, c, hd, ho⟩)
        refine Trace.Fails.bind ⟨.rejected (.derivative o.stem), ?_, fun h => absurd h hr⟩
        cases o <;> first | rfl | cases ho
      | _ => exact .throw fun h => absurd h hr
    · obtain ⟨hkx, hno⟩ := not_or.1 he
      refine Trace.Fails.bind ⟨_, hm hkx ?_, fun _ => rfl⟩
      simpa using hno

/-- Going backwards through the order fails if an adjoint cannot be passed on. -/
theorem Ledger.run_fails (tr : g.Traced) (hx : x.net.source < g.size)
    (b : g.Backward x.net.source leaves order)
    (todo : List NodeId) (hs : order = todo.reverse ++ done)
    (h : Ledger K False g g' x.net.source done found)
    (hf : ∃ k ∈ todo, ¬ g.Handles x.net.source k) :
    Trace.Fails (todo.foldlM (Gradient.passOn x order) found) g' fun e =>
      (∀ k ∈ order, g.Ruled k) → e = .absentKey := by
  induction todo generalizing done found g' with
  | nil => simp at hf
  | cons k rest ih =>
    have hs' : order = rest.reverse ++ k :: done := by simpa using hs
    by_cases hk : g.Handles x.net.source k
    · refine (h.passOn tr hx False.elim False.elim b hs' hk).bind_fails fun found' g'' _ ht => ?_
      refine ih hs' ht ?_
      obtain ⟨j, hj, hf⟩ := hf
      exact ⟨j, (mem_cons.1 hj).resolve_left fun hjk => hf (hjk ▸ hk), hf⟩
    · obtain ⟨e, hr, he⟩ := h.passOn_fails tr hx b hs' hk
      exact Trace.Fails.bind ⟨e, hr, fun hu => he (hu k (by simp [hs']))⟩

/-- The adjoints that are found: those of what something is passed on to. -/
theorem gives_found (small : Prop) (tr : g.Traced) (hx : x.net.source < g.size)
    (he : small → g.Regular x.net.source)
    (hf : small → ∀ j, g.ways j x.net.source ≤ 2 ^ 53) {sets : SetOrder} (hss : sets.Permutes)
    (hh : ∀ k, g.LiesBetween x.net.source leaves k → g.Handles x.net.source k) :
    (adjoints x leaves sets).Gives g fun found g' => ∀ n : Net, n.source ∈ leaves →
      n.source < g.size → ((at? g' found n).isSome ↔ g.PassedOn x.net.source n.source) ∧
        (small → g.PassedOn x.net.source n.source → ∀ s, at? g' found n = some s →
          ∀ r : Reading K, r.Exact → s.read g' r =
            g.slope r n.source x.net.source + g.negated r n.source x.net.source) := by
  obtain ⟨order, hsr, b⟩ := Graph.exists_backward tr x.net.source leaves hss
  refine .get_bind ?_
  rw [hsr]
  have ha : ∀ k ∈ order, g.Handles x.net.source k := fun k hk =>
    hh k ((b.mem_iff tr).1 ⟨k, hk, Graph.sameNode_self g k⟩)
  refine (Ledger.run tr hx he hf b ha order.reverse (by simp)
    (ledger_start (K := K) small _ _)).imp fun found g' _ h n hn ho => ?_
  rw [h.books.at?_eq tr.wellFormed ho, h.entered]
  have hb : g.PassedOn x.net.source n.source → ∃ i ∈ order, g.sameNode n.source i := fun hp =>
    b.leaf _ hn (hp.proper tr).1 (hp.proper tr).2
  refine ⟨⟨?_, fun hp => ?_⟩, fun hm hp s hs r hr => ?_⟩
  · rintro ⟨u, hu, hpss⟩
    exact ⟨u, b.needed u hu, hpss⟩
  · obtain ⟨i, hi, hni⟩ := hb hp
    obtain ⟨u, hu, hpss⟩ := exists_mem_order tr b hi (hp.congr tr hni)
    exact ⟨u, hu, hpss.congr tr (Graph.sameNode_self g u) (Graph.sameNode_symm tr hni)⟩
  · have hamo : amount g found n = s := by rw [amount, hs, Option.getD_some]
    rw [← hamo]
    exact h.component tr hx hm (he hm) b (hb hp) (hp.proper tr).2 rfl hr

theorem adjoints_fails (tr : g.Traced) (hx : x.net.source < g.size) {sets : SetOrder}
    (hs : sets.Permutes)
    (h : ∃ k, g.LiesBetween x.net.source leaves k ∧ ¬ g.Handles x.net.source k) :
    (adjoints x leaves sets).Fails g fun e =>
      (∀ k, g.Needed [x.net.source] k → g.Ruled k) → e = .absentKey := by
  obtain ⟨order, hsr, b⟩ := Graph.exists_backward tr x.net.source leaves hs
  obtain ⟨k, hk, hf⟩ := h
  obtain ⟨j, hj, hkj⟩ := (b.mem_iff tr).2 hk
  refine .get_bind ?_
  rw [hsr]
  obtain ⟨e, hr, he⟩ := Ledger.run_fails tr hx b order.reverse (by simp)
    (ledger_start (K := ℚ) False _ _)
    ⟨j, by simpa using hj, fun hh => hf (hh.congr tr (Graph.sameNode_symm tr hkj))⟩
  exact ⟨e, hr, fun hu => he fun k hk => hu k (b.needed k hk)⟩

/-! ## Gradients -/

section Values

variable {ys : List Value} {sets : SetOrder}

/-- The components of a list of values, by anything that treats values as a lookup does. -/
theorem mapM_components (found : Adjoints) {f : Datum → Trace Datum}
    (hf : ∀ v, f (.scalar (.traced v)) = Datum.scalar <$> component found v) (ys : List Value) :
    (ys.map fun y => Datum.scalar (.traced y)).mapM f =
      ys.mapM (component found) >>= fun ds => pure (ds.map Datum.scalar) := by
  induction ys with
  | nil => simp
  | cons y rest ih =>
    rw [map_cons, mapM_cons, ih, mapM_cons, hf]
    simp only [map_eq_pure_bind, bind_assoc, pure_bind, map_cons]

theorem all_isHashable (ys : List Value) :
    (ys.map fun y => Datum.scalar (.traced y)).all Datum.isHashable := by
  simp [Datum.isHashable]

theorem filterMap_sources {f : Datum → Option NodeId}
    (hf : ∀ v, f (.scalar (.traced v)) = some v.net.source) (ys : List Value) :
    (ys.map fun y => Datum.scalar (.traced y)).filterMap f = ys.map fun y => y.net.source := by
  simp [filterMap_map, hf]

/-- The gradient with respect to some values: adjoints are found, and then looked up. -/
theorem gradient_eq (x : Value) (ys : List Value) (sets : SetOrder) :
    Datum.gradient (.scalar (.traced x)) (.list (ys.map fun y => .scalar (.traced y))) sets =
      adjoints x (sets.leaves (ys.map fun y => y.net.source)) sets >>= fun found =>
        ys.mapM (component found) >>= fun ds => pure (.list (ds.map .scalar)) := by
  rw [Datum.gradient]
  simp only [pure_bind, Datum.items?, all_isHashable, if_true]
  rw [filterMap_sources fun v => rfl]
  refine congrArg _ (funext fun found => ?_)
  rw [mapM_components found fun v => rfl, map_eq_pure_bind, bind_assoc]
  simp only [pure_bind]

theorem gives_lookup {y : Value} {s : Scalar} (h : at? g' found y.net = some s) :
    (component found y).Gives g' fun d g'' => d = s ∧ g'' = g' := by
  refine .get_bind ?_
  rw [h]
  exact .pure ⟨rfl, rfl⟩

theorem gives_lookups {P : Value → Scalar → Prop}
    (h : ∀ y ∈ ys, ∃ s, at? g' found y.net = some s ∧ P y s) :
    Trace.Gives (ys.mapM (component found)) g' fun ds g'' => g'' = g' ∧ Forall₂ P ys ds := by
  induction ys with
  | nil => exact .pure ⟨rfl, .nil⟩
  | cons y rest ih =>
    obtain ⟨⟨s, hs, hP⟩, hr⟩ := forall_mem_cons.1 h
    rw [mapM_cons]
    refine (gives_lookup hs).bind fun d g₁ _ hd => ?_
    obtain ⟨rfl, rfl⟩ := hd
    refine (ih hr).bind fun ds g₂ _ hds => ?_
    obtain ⟨rfl, hds⟩ := hds
    exact .pure ⟨rfl, .cons hP hds⟩

theorem lookups_fail (h : ∃ y ∈ ys, at? g' found y.net = none) :
    Trace.Fails (ys.mapM (component found)) g' (· = .absentKey) := by
  induction ys with
  | nil => simp at h
  | cons y rest ih =>
    rw [mapM_cons]
    cases hy : at? g' found y.net with
    | none =>
      refine .bind (.get_bind ?_)
      rw [hy]
      exact .throw rfl
    | some s =>
      refine (gives_lookup hy).bind_fails fun d g₁ _ hd => .bind ?_
      obtain ⟨rfl, rfl⟩ := hd
      obtain ⟨z, hz, hn⟩ := h
      refine ih ⟨z, (mem_cons.1 hz).resolve_left fun hzy => ?_, hn⟩
      rw [hzy, hy] at hn
      cases hn

theorem liesBetween_leaves (hs : sets.Permutes) {x : NodeId} :
    g.LiesBetween x (sets.leaves leaves) k ↔ g.LiesBetween x leaves k := by
  simp only [Graph.LiesBetween, (hs.leaves leaves).mem_iff]

/-- A gradient exists if no adjoint is missing: it has one component for each value, and the
component means the slope of the result and what negations add. -/
theorem gives_gradient (small : Prop) (tr : g.Traced) (hx : x.net.source < g.size)
    (hg : small → g.Regular x.net.source)
    (hf : small → ∀ j, g.ways j x.net.source ≤ 2 ^ 53) (hss : sets.Permutes)
    (h : g.Differentiable x.net.source (ys.map fun y => y.net.source)) :
    (Datum.gradient (.scalar (.traced x)) (.list (ys.map fun y => .scalar (.traced y))) sets).Gives g
      fun d g' => ∃ ds : List Scalar, d = .list (ds.map .scalar) ∧ ds.length = ys.length ∧
        (small → ∀ r : Reading K, r.Exact → ds.map (read g' r) = ys.map fun y =>
          g.slope r y.net.source x.net.source + g.negated r y.net.source x.net.source) := by
  rw [gradient_eq]
  refine (gives_found (K := K) small tr hx hg hf hss fun k hk =>
    h.handles k ((liesBetween_leaves hss).1 hk)).bind fun found g' _ hn => ?_
  refine (gives_lookups (P := fun y s => small → ∀ r : Reading K, r.Exact → s.read g' r =
    g.slope r y.net.source x.net.source + g.negated r y.net.source x.net.source)
    fun y hy => ?_).bind fun ds g'' _ hd => ?_
  · have he : y.net.source ∈ ys.map fun y => y.net.source := mem_map.2 ⟨y, hy, rfl⟩
    have hp := h.passedOn _ he
    obtain ⟨ho, hrd⟩ := hn y.net ((hss.leaves _).mem_iff.2 he)
      (lt_size_of_needed tr hx (hp.proper tr).1)
    obtain ⟨s, hs⟩ := Option.isSome_iff_exists.1 (ho.2 hp)
    exact ⟨s, hs, fun hm => hrd hm hp s hs⟩
  · obtain ⟨rfl, hd⟩ := hd
    refine .pure ⟨ds, rfl, hd.length_eq.symm, fun hm r hr => ?_⟩
    rw [← forall₂_eq_eq_eq, forall₂_map_left_iff, forall₂_map_right_iff]
    exact hd.flip.imp fun s y hrd => hrd hm r hr

/-- There is a fault if an adjoint is missing. -/
theorem gradient_fails (tr : g.Traced) (hx : x.net.source < g.size) (ys : List Value)
    (hys : ∀ y ∈ ys, y.net.source < g.size) (hs : sets.Permutes)
    (h : ¬ g.Differentiable x.net.source (ys.map fun y => y.net.source)) :
    (Datum.gradient (.scalar (.traced x)) (.list (ys.map fun y => .scalar (.traced y))) sets).Fails g
      fun e => (∀ k, g.Needed [x.net.source] k → g.Ruled k) → e = .absentKey := by
  rw [gradient_eq]
  by_cases hh : ∀ k, g.LiesBetween x.net.source (ys.map fun y => y.net.source) k →
      g.Handles x.net.source k
  · -- Everything between is fine, so a value itself has no adjoint.
    obtain ⟨k, hk, hm⟩ : ∃ k ∈ ys.map (fun y => y.net.source), ¬ g.PassedOn x.net.source k := by
      by_contra ha
      exact h ⟨hh, fun k hk => by_contra fun hk' => ha ⟨k, hk, hk'⟩⟩
    obtain ⟨y, hy, rfl⟩ := mem_map.1 hk
    refine (gives_found (K := ℚ) False tr hx False.elim False.elim hs fun k hk =>
      hh k ((liesBetween_leaves hs).1 hk)).bind_fails fun found g' _ hf => .bind ?_
    have ho := (hf y.net ((hs.leaves _).mem_iff.2 hk) (hys y hy)).1
    have hn : at? g' found y.net = none := by
      rw [← Option.not_isSome_iff_eq_none, ho]
      exact hm
    obtain ⟨e, hr, rfl⟩ := lookups_fail ⟨y, hy, hn⟩
    exact ⟨_, hr, fun _ => rfl⟩
  · obtain ⟨k, hk⟩ := Classical.not_forall.1 hh
    obtain ⟨hb, hk⟩ := Classical.not_imp.1 hk
    exact (adjoints_fails tr hx hs ⟨k, (liesBetween_leaves hs).2 hb, hk⟩).bind

end Values

end Gradient

end Patchwork
