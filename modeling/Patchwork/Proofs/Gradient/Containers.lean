import Patchwork.Proofs.Gradient.Later
import Patchwork.Proofs.Stream.RoundTrip

/-!
# Gradients and containers

The values with respect to which a gradient is asked for can come in a list or in a vector. Each
has its own way to take them out and to put the components together, with the same adjoints in
between, so the two gradients are the same in the two containers. A single value and a tensor have
no gradient: a value is not taken for a list of one, and the values are taken out of a tensor as
tensors without dimensions, which are then indexed once more.
-/

namespace Patchwork

open Datum List

namespace Trace

variable {α β : Type} {g g' : Graph}

theorem exists_of_bind_ok {t : Trace α} {f : α → Trace β} {b : β}
    (h : (t >>= f) g = .ok (b, g')) : ∃ a g₁, t g = .ok (a, g₁) ∧ f a g₁ = .ok (b, g') := by
  change (t g >>= fun r => f r.1 r.2) = _ at h
  cases hf : t g with
  | error e =>
    rw [hf] at h
    cases h
  | ok r =>
    rw [hf] at h
    exact ⟨r.1, r.2, rfl, h⟩

theorem run_bind_pure (t : Trace α) (f : α → β) (g : Graph) :
    (t >>= fun a => pure (f a)) g = (t g).map fun r => (f r.1, r.2) := by
  change (t g >>= fun r => pure (f r.1, r.2)) = _
  cases t g <;> rfl

theorem length_of_mapM {f : α → Trace β} {xs : List α} {bs : List β}
    (h : xs.mapM f g = .ok (bs, g')) : bs.length = xs.length := by
  induction xs generalizing g bs with
  | nil =>
    cases h
    rfl
  | cons a rest ih =>
    rw [mapM_cons] at h
    obtain ⟨b, g₁, -, h⟩ := exists_of_bind_ok h
    obtain ⟨bs', g₂, hr, h⟩ := exists_of_bind_ok h
    cases h
    simp [ih hr]

end Trace

namespace Gradient

open Scalar

variable {g g' g₁ : Graph} {x : Value} {ys : List Value} {sets : SetOrder} {ds : List Scalar}

/-! ## Lists and vectors -/

def components (x : Value) (ys : List Value) (sets : SetOrder) : Trace (List Scalar) :=
  adjoints x (sets.leaves (ys.map fun y => y.net.source)) sets >>= fun found =>
    ys.mapM (component found)

theorem length_of_components (h : components x ys sets g = .ok (ds, g')) :
    ds.length = ys.length := by
  obtain ⟨found, g₁, -, hd⟩ := Trace.exists_of_bind_ok h
  exact Trace.length_of_mapM hd

theorem gradient_list (x : Value) (ys : List Value) (sets : SetOrder) :
    gradient (.scalar (.traced x)) (.list (ys.map fun y => .scalar (.traced y))) sets =
      components x ys sets >>= fun ds => pure (.list (ds.map .scalar)) := by
  rw [gradient_eq, components, bind_assoc]

theorem gradient_vector (x : Value) (ys : List Value) (sets : SetOrder) :
    Datum.gradient (.scalar (.traced x)) (.vector (ys.map fun y => .scalar (.traced y))) sets =
      components x ys sets >>= fun ds => pure (.vector (ds.map .scalar)) := by
  rw [Datum.gradient]
  simp only [pure_bind, all_isHashable, if_true]
  rw [filterMap_sources fun v => rfl, components, bind_assoc]
  refine congrArg _ (funext fun found => ?_)
  rw [mapM_components found fun v => rfl, map_eq_pure_bind, bind_assoc]
  simp only [pure_bind]

theorem run_components_iff {make : List Datum → Datum} (hm : Function.Injective make) :
    (components x ys sets >>= fun ds => pure (make (ds.map .scalar))) g =
        .ok (make (ds.map .scalar), g₁) ↔ components x ys sets g = .ok (ds, g₁) := by
  have hs : Function.Injective scalar := fun _ _ => scalar.inj
  have hi := hm.comp hs.list_map
  rw [Trace.run_bind_pure]
  cases components x ys sets g with
  | error e => simp [Except.map]
  | ok r =>
    simp only [Except.map, Except.ok.injEq, Prod.ext_iff]
    exact and_congr_left fun _ => hi.eq_iff

/-- A gradient exists in a vector, with the given components. -/
def HasVectorGradient (g : Graph) (x : Value) (ys : List Value) (sets : SetOrder)
    (ds : List Scalar) (g' : Graph) : Prop :=
  Datum.gradient (.scalar (.traced x)) (.vector (ys.map fun y => .scalar (.traced y))) sets g =
    .ok (.vector (ds.map .scalar), g')

theorem hasVectorGradient_iff :
    HasVectorGradient g x ys sets ds g₁ ↔ HasGradient g x ys sets ds g₁ := by
  rw [HasVectorGradient, HasGradient, gradient_list, gradient_vector,
    run_components_iff fun _ _ => list.inj, run_components_iff fun _ _ => vector.inj]

/-! ## Tensors -/

def tensorOfValues (ys : List Value) : Tensor Datum :=
  ⟨[(ys.length : Int)], ys.map fun y => .scalar (.traced y)⟩

theorem build_of_values (hy : ys ≠ []) :
    Tensor.build (ys.map fun y => scalar (.traced y)) [(ys.length : Int)] =
      .ok (tensorOfValues ys) := by
  have hs : (ys.map fun y => scalar (.traced y)).any Element.isScalar := by
    obtain ⟨y, rest, rfl⟩ := exists_cons_of_ne_nil hy
    rfl
  have hk : (ys.map fun y => scalar (.traced y)).filter
      (fun v => !Element.isSequence v) = ys.map fun y => scalar (.traced y) := by
    refine filter_eq_self.2 fun d hd => ?_
    obtain ⟨z, -, rfl⟩ := mem_map.1 hd
    rfl
  rw [Tensor.build, if_pos hs, hk]
  · rfl
  · simp

theorem makeTensor_of_values (hy : ys ≠ []) :
    makeTensor (.list (ys.map fun y => .scalar (.traced y))) (.tuple [int ys.length]) =
        pure (.tensor [(ys.length : Int)] (ys.map fun y => .scalar (.traced y)) []) := by
  rw [makeTensor]
  change rebuilt _ [(ys.length : Int)] [] = _
  rw [rebuilt, build_of_values hy]
  rfl

theorem flatten_tensorOfValues (hy : ys ≠ []) :
    (tensorOfValues ys).flatten = .ok (tensorOfValues ys) := by
  have hs : (tensorOfValues ys).size = ys.length := by
    simp [Tensor.size, tensorOfValues, Shape.size]
  have hc : Tensor.closedShape ys.length [-1] = .ok [(ys.length : Int)] := by
    simp [Tensor.closedShape, Shape.size]
  rw [Tensor.flatten, Tensor.reshape, hs, hc, ← build_of_values hy]
  simp [Shape.size, bind, Except.bind, tensorOfValues]

theorem index_tensorOfValues {k : Nat} (hk : k < ys.length) :
    ∃ row, (tensorOfValues ys).index k = .ok row := by
  have hn : Tensor.normalIndex (k : Int) 0 ys.length = .ok (k : Int) := by
    rw [Tensor.normalIndex, if_pos (by omega), if_neg (by omega)]
  have hb := Sequence.between_natCast (ys.map fun y => scalar (.traced y)) k (k + 1)
    (by rw [length_map]; omega)
  have ha : Sequence.at (((ys.map fun y => scalar (.traced y)).drop k).take (k + 1 - k)) 0 =
        .ok (scalar (.traced (ys.get ⟨k, hk⟩))) := by
    simp [Sequence.at, hk]
  push_cast at hb
  rw [Tensor.index, Tensor.indexBy, tensorOfValues]
  simp only [hn, Shape.size, foldl_nil, mul_one, hb, bind, Except.bind, ha]
  exact ⟨_, rfl⟩

theorem rows_tensorOfValues (hy : ys ≠ []) :
    ∃ rows, (tensorOfValues ys).rows = .ok rows ∧ rows.isEmpty = false := by
  have hp : 0 < ys.length := length_pos_of_ne_nil hy
  have hn : Slice.progression 0 ys.length 1 = (range ys.length).map fun (k : Nat) => (k : Int) := by
    simp [Slice.progression]
  have hr : ∀ i ∈ Slice.progression 0 ys.length 1,
      ∃ row, (tensorOfValues ys).index i = .ok row ∧ True := by
    intro i hi
    rw [hn] at hi
    obtain ⟨k, hk, rfl⟩ := mem_map.1 hi
    obtain ⟨row, hr⟩ := index_tensorOfValues (mem_range.1 hk)
    exact ⟨row, hr, trivial⟩
  have h0 : (0 : Int) ∈ Slice.progression 0 ys.length 1 := by
    rw [hn]
    simpa using hp
  obtain ⟨rows, hw, ha, -⟩ := Graph.exists_mapM_ok _ hr
  obtain ⟨row, hm, -⟩ := ha 0 h0
  exact ⟨rows, hw, isEmpty_eq_false_iff.2 (ne_nil_of_mem hm)⟩

theorem gradient_tensor (x : Value) (hy : ys ≠ []) (sets : SetOrder) (g : Graph) :
    gradient (.scalar (.traced x))
      (.tensor [(ys.length : Int)] (ys.map fun y => .scalar (.traced y)) []) sets g =
        .error (.violated (.indexCount 0 1)) := by
  obtain ⟨rows, hr, hs⟩ := rows_tensorOfValues hy
  have hf : Tensor.flatten ⟨[(ys.length : Int)], ys.map fun y => Datum.scalar (.traced y)⟩ =
      .ok (tensorOfValues ys) := flatten_tensorOfValues hy
  rw [Datum.gradient]
  simp only [pure_bind, hf, Trace.lift_ok_bind, hr, hs, Bool.false_eq_true, if_false]
  rfl

theorem gradient_scalar (x y : Value) (sets : SetOrder) (g : Graph) :
    Datum.gradient (.scalar (.traced x)) (.scalar (.traced y)) sets g =
      .error (.violated .unstated) := rfl

/-- **Gradients and containers.** For some values in a list and in a vector the outcome is one: the
same fault, or the same components, one for each value, and the same graph. That holds of one graph
and of one order of sets; if the graph has grown in between, or sets are gone through in another
order, the two still exist together, and their components mean the same. For the same values in a
tensor, and for a single value, there is no gradient. -/
theorem gradient_of_containers {K : Type*} [Field K] (hys : ys ≠ []) (x y : Value)
    (sets sets' : SetOrder) (g g' : Graph) :
    (∃ outcome : Except Fault (List Scalar × Graph),
      Datum.gradient (.scalar (.traced x)) (.list (ys.map fun y => .scalar (.traced y))) sets g =
        outcome.map (fun r => (.list (r.1.map .scalar), r.2)) ∧
      Datum.gradient (.scalar (.traced x)) (.vector (ys.map fun y => .scalar (.traced y))) sets g =
        outcome.map (fun r => (.vector (r.1.map .scalar), r.2)) ∧
      ∀ r, outcome = .ok r → r.1.length = ys.length) ∧
    (Tellable g x ys → g.Extends g' → g'.Traced → sets.Permutes → sets'.Permutes →
      ((∃ ds g₁, HasGradient g x ys sets ds g₁) ↔
        ∃ es g₂, HasVectorGradient g' x ys sets' es g₂) ∧
      ∀ ds g₁ es g₂, HasGradient g x ys sets ds g₁ → HasVectorGradient g' x ys sets' es g₂ →
        ∀ r : Reading K, r.Exact → ds.map (read g₁ r) = es.map (read g₂ r)) ∧
    (∃ t, Datum.makeTensor (.list (ys.map fun y => .scalar (.traced y)))
        (.tuple [Datum.int ys.length]) g = .ok (t, g) ∧
      Datum.gradient (.scalar (.traced x)) t sets g = .error (.violated (.indexCount 0 1))) ∧
    Datum.gradient (.scalar (.traced x)) (.scalar (.traced y)) sets g =
      .error (.violated .unstated) := by
  refine ⟨⟨components x ys sets g, ?_, ?_, fun r hr => length_of_components hr⟩, ?_,
    ⟨_, by rw [makeTensor_of_values hys]; rfl, gradient_tensor x hys sets g⟩,
    gradient_scalar x y sets g⟩
  · rw [gradient_list, Trace.run_bind_pure]
  · rw [gradient_vector, Trace.run_bind_pure]
  · intro h he tr' hs hs'
    simp only [hasVectorGradient_iff]
    refine ⟨h.exists_later he tr' hs hs', fun ds g₁ es g₂ hd hes r hr => ?_⟩
    exact h.read_later he tr' hs hs' hd hes hr

/-! ## Examples -/

open Schedule (sharedProduct sharedProduct_traced)

def sharedProductLater : Graph := sharedProduct.push (.constant (.float 5.0) false)

theorem sharedProductLater_traced : sharedProductLater.Traced :=
  Graph.traced_of_checks (fun _ => true) (by decide)

def sharedProductValue (k : NodeId) : Value := ⟨⟨.float, k⟩, .float⟩

theorem sharedProduct_tellable : Tellable sharedProduct (sharedProductValue 3)
    [sharedProductValue 0, sharedProductValue 1] where
  traced := sharedProduct_traced
  result := by decide
  leaves := by decide
  regular := regular_of_rational sharedProduct_rational
  few j := by
    change sharedProduct.ways j 3 ≤ 2 ^ 53
    rw [ways_eq_chains sharedProduct_traced.wellFormed sharedProduct_rational]
    exact sharedProduct_chains j

def backwards : SetOrder := ⟨fun _ users => users.reverse, List.reverse⟩

theorem backwards_permutes : backwards.Permutes :=
  ⟨fun _ l => l.reverse_perm, fun l => l.reverse_perm⟩

/-- The gradient of a b + a in a list, and later on in a vector with sets gone through backwards. -/
theorem sharedProduct_gradients_agree : ∃ ds g₁ es g₂,
    HasGradient sharedProduct (sharedProductValue 3)
      [sharedProductValue 0, sharedProductValue 1] {} ds g₁ ∧
    HasVectorGradient sharedProductLater (sharedProductValue 3)
      [sharedProductValue 0, sharedProductValue 1] backwards es g₂ ∧
    ∀ r : Reading ℚ, r.Exact → ds.map (read g₁ r) = es.map (read g₂ r) := by
  obtain ⟨-, hl, -, -⟩ := @gradient_of_containers
    [sharedProductValue 0, sharedProductValue 1] ℚ _ (by simp) (sharedProductValue 3)
    (sharedProductValue 0) {} backwards sharedProduct sharedProductLater
  obtain ⟨he, hr⟩ := hl sharedProduct_tellable (Graph.extends_push _ _)
    sharedProductLater_traced SetOrder.permutes_default backwards_permutes
  have hp : sharedProduct.Below [3] 2 :=
    .root (n := ⟨.float, 2⟩) (List.mem_singleton_self 3) (by decide)
  have hn : ∀ k ∈ [0, 1], sharedProduct.Needed [3] k := by
    rw [List.forall_mem_cons, List.forall_mem_singleton]
    constructor
    · exact Graph.Within.needed (.inr (.operand (n := ⟨.float, 0⟩) hp (by decide)))
    · exact Graph.Within.needed (.inr (.operand (n := ⟨.float, 1⟩) hp (by decide)))
  have hd : sharedProduct.Differentiable 3 [0, 1] :=
    (smooth_of_rational sharedProduct_rational).differentiable sharedProduct_traced hn
      (by decide)
  obtain ⟨ds, g₁, hs⟩ :=
    (sharedProduct_tellable.exists_iff SetOrder.permutes_default).2 hd
  obtain ⟨es, g₂, hes⟩ := he.1 ⟨ds, g₁, hs⟩
  exact ⟨ds, g₁, es, g₂, hs, hes, hr ds g₁ es g₂ hs hes⟩

def shifted : Graph :=
  ((Graph.empty.push (.constant (.float 3.0) false)).push (.constant (.int 1) true)).push
    (.apply .add [⟨.float, 0⟩, ⟨.int, 1⟩] true)

/-- There is a gradient with respect to a list of one value and to a vector of one, but not with
respect to the value itself or to a tensor of it. -/
theorem single_value_without_gradient :
    Datum.gradient (.scalar (.traced ⟨⟨.float, 2⟩, .float⟩))
      (.list [.scalar (.traced ⟨⟨.float, 0⟩, .float⟩)]) {} shifted =
        .ok (.list [.scalar (.plain (.float 1.0))], shifted) ∧
    Datum.gradient (.scalar (.traced ⟨⟨.float, 2⟩, .float⟩))
      (.vector [.scalar (.traced ⟨⟨.float, 0⟩, .float⟩)]) {} shifted =
        .ok (.vector [.scalar (.plain (.float 1.0))], shifted) ∧
    Datum.gradient (.scalar (.traced ⟨⟨.float, 2⟩, .float⟩))
      (.scalar (.traced ⟨⟨.float, 0⟩, .float⟩)) {} shifted = .error (.violated .unstated) ∧
    Datum.gradient (.scalar (.traced ⟨⟨.float, 2⟩, .float⟩))
      (.tensor [1] [.scalar (.traced ⟨⟨.float, 0⟩, .float⟩)] []) {} shifted =
        .error (.violated (.indexCount 0 1)) := by
  refine ⟨?_, ?_, ?_, ?_⟩ <;> with_unfolding_all rfl

end Gradient

end Patchwork
