import Patchwork.Proofs.Datum.Elementwise

/-!
# Sums and products of a value and an array

A value added to a datum that is no number asks first whether the datum equals zero, and a product
asks whether it equals one. An array answers with the array of its elements' answers, which counts
as true unless it is empty. So the value takes itself for the result, and the array is lost. With
the array on the left the operation is applied to every element.
-/

namespace Patchwork

open List

variable {g : Graph}

/-! ## Comparisons of scalars -/

theorem Trace.gives_mapM {α β : Type} {f : α → Trace β} {xs : List α}
    (h : ∀ x ∈ xs, ∀ g, (f x).Gives g fun _ _ => True) :
    Trace.Gives (xs.mapM f) g fun ys _ => ys.length = xs.length := by
  induction xs generalizing g with
  | nil => exact .pure rfl
  | cons x xs ih =>
    obtain ⟨hx, hs⟩ := forall_mem_cons.1 h
    rw [mapM_cons]
    refine (hx g).bind fun y g₁ _ _ => (ih hs).bind fun ys g₂ _ hy => .pure ?_
    rw [length_cons, length_cons, hy]

namespace Scalar

theorem gives_applied (op : Operation) (hr : ∀ a b : Cell, (op.result? [a, b]).isSome)
    (c : Bool) (a b : Scalar) : (operate op [a, b] c).Gives g (fun _ _ => True) ∧
      (comparison op [a, b] c).Gives g fun _ _ => True := by
  have hl : ∀ s ∈ [a, b], ∀ g, (lift s).Gives g fun _ _ => True := by
    intro s _ g
    cases s with
    | plain n => exact ⟨_, _, rfl, Graph.extends_push g _, trivial⟩
    | traced v => exact .pure trivial
  have ha : ∀ {ws : List Value}, ws.length = 2 → ∀ g,
      (Trace.apply op ws c).Gives g fun _ _ => True := by
    refine fun hw g => (Trace.gives_node op _ c fun ws' hp => ?_).imp fun _ _ _ _ => trivial
    obtain ⟨v, w, rfl⟩ := length_eq_two.1 (hp.length_eq.trans hw)
    exact hr _ _
  constructor
  · refine (Trace.gives_mapM hl).bind fun ws g₁ _ hw => ?_
    exact (ha hw g₁).bind fun _ _ _ _ => .pure trivial
  · refine (Trace.gives_mapM hl).bind fun ws g₁ _ hw => ?_
    refine Trace.Gives.bind (p := fun _ _ => True) ?_ fun _ _ _ _ => .pure trivial
    exact (ha hw g₁).bind fun _ _ _ _ => .pure trivial

theorem gives_eq (a b : Scalar) : (binary .eq a b).Gives g fun _ _ => True := by
  have heq : ∀ a b : Scalar, (comparison .eq [a, b] true).Gives g fun _ _ => True :=
    fun a b => (gives_applied .eq (fun _ _ => rfl) true a b).2
  cases a <;> cases b
  · exact .pure trivial
  · exact heq _ _
  · exact heq _ _
  · exact heq _ _

end Scalar

namespace Datum

variable {o : Operator} {a : Datum} {xs : List Scalar} {refill : List Scalar → Datum}
  {f : Datum → Datum → Trace Datum}

/-- The arrays of scalars: vectors and full tensors, with their elements and the array that
results in the place of the elements make up. -/
inductive Spreads : Datum → List Scalar → (List Scalar → Datum) → Prop
  | vector (xs : List Scalar) :
    Spreads (.vector (xs.map .scalar)) xs fun ys => .vector (ys.map .scalar)
  | tensor {t : Tensor Scalar} (ht : t.Full) (truths : List Nat) :
    Spreads (ofScalars t truths) t.values fun ys => ofScalars ⟨laidOut t.shape, ys⟩ truths

theorem truth_ofScalars {s : Shape} (h : ∀ d ∈ s, 0 < d) (ys : List Scalar) (truths : List Nat) :
    (ofScalars ⟨laidOut s, ys⟩ truths).truth = .ok true := by
  obtain _ | ⟨d, s⟩ := s
  · rfl
  · have hd := h d mem_cons_self
    rw [ofScalars, laidOut, truth]
    simp [hd.not_gt, hd.ne']

/-- An array that is not empty counts as equal to every number. -/
theorem gives_equal_true (ha : a.Spreads xs refill) (hn : xs ≠ []) (n : Nat) (i : Int) :
    (dyadicTo (n + 2) (.operator .eq) a (int i)).Gives g fun d _ => d.truth = .ok true := by
  cases ha with
  | vector =>
    change Trace.Gives (Datum.vector <$> (named (int i) >>= fun c => (xs.map Datum.scalar).mapM
      fun x => dyadicTo (n + 1) (.operator .eq) x (if x.isTraced then c else int i))) g _
    rw [← bind_pure_comp]
    refine Trace.Gives.bind (p := fun ys _ => ys.length = (xs.map Datum.scalar).length) ?_
      fun ys g' _ hy => .pure ?_
    · refine Trace.Gives.bind (p := fun c _ => ∃ v, c = traced v)
        ⟨_, _, rfl, Graph.extends_push g _, _, rfl⟩ ?_
      rintro _ g₁ - ⟨v, rfl⟩
      refine Trace.gives_mapM fun x hx g => ?_
      obtain ⟨s, -, rfl⟩ := mem_map.1 hx
      obtain ⟨b, hb⟩ :
          ∃ b, (if (Datum.scalar s).isTraced then traced v else int i) = .scalar b := by
        split <;> exact ⟨_, rfl⟩
      rw [hb, dyadicTo_scalar, ← bind_pure_comp]
      exact (Scalar.gives_eq s b).bind fun _ _ _ _ => .pure trivial
    · have hl := length_pos_iff.2 hn
      rw [length_map] at hy
      rw [truth, isEmpty_eq_false_iff.2 (length_pos_iff.1 (by omega))]
      rfl
  | @tensor t ht truths =>
    change (tensorWith (dyadicTo (n + 1) (.operator .eq)) ⟨t.shape, t.values.map .scalar⟩ truths
      (.scalar (.int i))).Gives g _
    obtain hg | ⟨e, -, y, -, g₁, b', -, -, he⟩ := tensorWith_scalar_outcome (dyadicTo_scalar n .eq)
        (fun h => (Scalar.binary_uniform .eq _ _).appends h) ht truths (.int i) g
    · refine hg.imp ?_
      rintro _ g' - ⟨ys, rfl, -⟩
      exact truth_ofScalars ht.positive ys truths
    · obtain ⟨x, g₂, ho, -⟩ := Scalar.gives_eq y b' (g := g₁)
      rw [he] at ho
      cases ho

/-! ## Sums and products -/

theorem zipShared_traced (v : Value) (xs : List Datum) (made : Shared) :
    zipShared f (xs.map (·, traced v)) made = xs.mapM fun x => f x (traced v) := by
  induction xs with
  | nil => rfl
  | cons x xs ih =>
    have hs : shared x (traced v) made = pure (traced v, made) := if_pos rfl
    rw [map_cons, zipShared, hs, pure_bind, mapM_cons, ← ih]

theorem dyadicTo_value_left (ho : o = .add ∨ o = .mul) (x : Value) (ha : a.Spreads xs refill)
    (n : Nat) : ∃ i rest, dyadicTo (n + 3) (.operator o) (traced x) a =
      (dyadicTo (n + 2) (.operator .eq) a (int i) >>= fun d => Fault.lift d.truth) >>= fun equal =>
        if equal then pure (traced x) else rest := by
  cases ha <;> rcases ho with rfl | rfl <;> exact ⟨_, _, rfl⟩

theorem gives_value_left (ho : o = .add ∨ o = .mul) (x : Value) (ha : a.Spreads xs refill)
    (hn : xs ≠ []) (n : Nat) :
    (dyadicTo (n + 3) (.operator o) (traced x) a).Gives g fun d _ => d = traced x := by
  obtain ⟨i, rest, hd⟩ := dyadicTo_value_left ho x ha n
  rw [hd]
  refine Trace.Gives.bind (p := fun equal _ => equal = true) ?_ ?_
  · refine (gives_equal_true ha hn n i).bind fun d g' _ ht => ?_
    rw [ht]
    exact .pure rfl
  · rintro _ g' - rfl
    exact .pure rfl

theorem binary_vector_left (ho : o = .add ∨ o = .mul) (xs : List Scalar) (x : Value) :
    ∃ n, binary o (vector (xs.map scalar)) (traced x) =
      vector <$> zipShared (dyadicTo (n + 1) (.operator o))
        ((xs.map (·, .traced x)).map fun p => (scalar p.1, scalar p.2)) [] := by
  have hp : (xs.map (·, Scalar.traced x)).map (fun p => (scalar p.1, scalar p.2)) =
      (xs.map scalar).map (·, traced x) := by
    rw [map_map, map_map]
    rfl
  rw [hp]
  simp only [zipShared_traced]
  rcases ho with rfl | rfl <;> exact ⟨_, rfl⟩

/-- **The outcome with a value on the left and on the right of an array.** On the left the value is
the sum and the product. On the right the operation is applied to every element: the results make
up an array, or one of the elements is refused. -/
theorem value_absorbs_array (ho : o = .add ∨ o = .mul) (x : Value) (ha : a.Spreads xs refill)
    (hne : xs ≠ []) (g : Graph) :
    (binary o (traced x) a).Gives g (fun d _ => d = traced x) ∧
    ((binary o a (traced x)).Gives g (fun d g' => ∃ ys, d = refill ys ∧
        List.Forall₂ (fun y z => Scalar.Applied (Scalar.binary o) g g' y (.traced x) z) xs ys) ∨
      (binary o a (traced x)).Fails g fun e =>
        ∃ y ∈ xs, Scalar.Refused (Scalar.binary o) g y (.traced x) e) := by
  refine ⟨gives_value_left ho x ha hne _, ?_⟩
  cases ha with
  | vector =>
    obtain ⟨n, hb⟩ := binary_vector_left ho xs x
    rw [hb, ← bind_pure_comp]
    refine Trace.outcome_bind (zipShared_scalar_outcome (dyadicTo_scalar n o)
      (fun h => (Scalar.binary_uniform o _ _).appends h) xs (.traced x) g) (fun _ he => he) ?_
    rintro _ g' - ⟨ys, rfl, hy⟩
    exact .inl (.pure ⟨ys, rfl, hy⟩)
  | @tensor t ht truths =>
    have hb : ∃ n, binary o (ofScalars t truths) (traced x) =
        tensorWith (dyadicTo (n + 1) (.operator o)) ⟨t.shape, t.values.map .scalar⟩ truths
          (.scalar (.traced x)) := by
      rcases ho with rfl | rfl <;> exact ⟨_, rfl⟩
    obtain ⟨n, hb⟩ := hb
    rw [hb]
    exact tensorWith_scalar_outcome (dyadicTo_scalar n o)
      (fun h => (Scalar.binary_uniform o _ _).appends h) ht truths (.traced x) g

def justTwo : Graph := Graph.empty.push (.constant (.int 2) false)

def two : Value := ⟨⟨.int, 0⟩, .int⟩

/-- Two times a column of four and two itself. -/
theorem two_absorbs_column :
    (binary .mul (traced two) (ofScalars ⟨[2, 1], [.int 4, .traced two]⟩ [])).Gives justTwo
      (fun d _ => d = traced two) ∧
    ((binary .mul (ofScalars ⟨[2, 1], [.int 4, .traced two]⟩ []) (traced two)).Gives justTwo
        (fun d g' => ∃ ys, d = ofScalars ⟨[2, 1], ys⟩ [] ∧
          List.Forall₂ (fun y z => Scalar.Applied (Scalar.binary .mul) justTwo g' y (.traced two) z)
            [.int 4, .traced two] ys) ∨
      (binary .mul (ofScalars ⟨[2, 1], [.int 4, .traced two]⟩ []) (traced two)).Fails justTwo
        fun e => ∃ y ∈ [Scalar.int 4, .traced two],
          Scalar.Refused (Scalar.binary .mul) justTwo y (.traced two) e) :=
  value_absorbs_array (.inr rfl) two (.tensor (t := ⟨[2, 1], [.int 4, .traced two]⟩)
    ⟨by decide, rfl⟩ []) (by simp) justTwo

/-- Two plus the vector of four and three, and two times the tensor of them, are the value two and
no arrays. -/
theorem arrays_lost :
    (∃ g, binary .add (traced two) (vector [.int 4, .int 3]) justTwo = .ok (traced two, g)) ∧
    ∃ g, binary .mul (traced two) (ofScalars ⟨[2], [.int 4, .int 3]⟩ []) justTwo =
      .ok (traced two, g) :=
  ⟨⟨_, rfl⟩, _, rfl⟩

end Datum

end Patchwork
