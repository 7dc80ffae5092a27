import Patchwork.Datum.Routines
import Patchwork.Proofs.Datum.Absorbed

/-!
# The shape of elementwise results

Negation, a function of every element and an operator with a plain number lay out as many results
as there are elements, under the shape of the tensor. A shape without dimensions gives way to that
of the list of the results, and a shape with dimensions needs a result under it.
-/

namespace Patchwork

open List

namespace Number

/-- Two plain numbers can be added: as integers, or as doubles in range. -/
def Adds (m n : Number) : Prop :=
  (m.whole?.isSome ∧ n.whole?.isSome) ∨ ∃ x y, m.toFloat = .ok x ∧ n.toFloat = .ok y

theorem Adds.lift_ok {m n : Number} (h : m.Adds n) (onInts : Int → Int → Number)
    (onFloats : Float → Float → Number) :
    ∃ r, lift (fun i j => .ok (onInts i j)) (fun x y => .ok (onFloats x y)) m n = .ok r := by
  rw [lift]
  split
  · exact ⟨_, rfl⟩
  case _ ho =>
    obtain ⟨hm, hn⟩ | ⟨x, y, hx, hy⟩ := h
    · obtain ⟨i, hi⟩ := Option.isSome_iff_exists.1 hm
      obtain ⟨j, hj⟩ := Option.isSome_iff_exists.1 hn
      exact absurd hj (ho i j hi)
    · rw [hx, hy]
      exact ⟨_, rfl⟩

end Number

namespace Operator

/-- The arithmetic that every tensor has with a plain number. -/
def ring : List Operator := [.add, .sub, .mul]

def comparisons : List Operator := [.gt, .lt, .ge, .le, .eq, .ne]

end Operator

namespace Scalar

variable {o : Operator} {g : Graph}

theorem gives_binary_traced (ho : o ∈ Operator.ring ∨ o ∈ Operator.comparisons) (v w : Value) :
    (binary o (traced v) (traced w)).Gives g fun _ _ => True := by
  obtain ho | ho := ho <;> fin_cases ho
  · exact (gives_applied _ (fun _ _ => rfl) true _ _).1
  · exact (gives_applied _ (fun _ _ => rfl) false _ _).1
  · exact (gives_applied _ (fun _ _ => rfl) true _ _).1
  · exact (gives_applied _ (fun _ _ => rfl) false _ _).2
  · exact (gives_applied _ (fun _ _ => rfl) false _ _).2
  · exact (gives_applied _ (fun _ _ => rfl) false _ _).2
  · exact (gives_applied _ (fun _ _ => rfl) false _ _).2
  · exact (gives_applied .eq (fun _ _ => rfl) true _ _).2
  · exact (gives_applied .ne (fun _ _ => rfl) true _ _).2

theorem binary_plain_ok (ho : o ∈ Operator.ring ∨ o ∈ Operator.comparisons) {m n : Number}
    (h : o ∈ Operator.ring → m.Adds n) (g : Graph) :
    ∃ r, binary o (plain m) (plain n) g = .ok r := by
  obtain ho | ho := ho
  · have ha := h ho
    have hr : ∀ {x : Except Fault Number}, (∃ r, x = .ok r) → ∃ r, arithmetic x g = .ok r := by
      rintro _ ⟨r, rfl⟩
      exact ⟨_, rfl⟩
    fin_cases ho
    · exact hr (ha.lift_ok ..)
    · exact hr (ha.lift_ok ..)
    · exact hr (ha.lift_ok ..)
  · fin_cases ho <;> exact ⟨_, rfl⟩

/-- An element is not refused by a plain number that meets it. -/
theorem not_refused (ho : o ∈ Operator.ring ∨ o ∈ Operator.comparisons) {a : Scalar} {n : Number}
    (h : ∀ m, a = plain m → o ∈ Operator.ring → m.Adds n) {e : Fault} :
    ¬ Refused (binary o) g a (plain n) e := by
  rintro ⟨g₁, b, -, hm, hu⟩
  cases a with
  | plain m =>
    cases hm
    obtain ⟨r, hr⟩ := binary_plain_ok ho (h m rfl) g₁
    cases hr.symm.trans hu
  | traced v =>
    obtain ⟨w, m, rfl, -⟩ := hm
    obtain ⟨r, g₂, hr, -⟩ := gives_binary_traced ho v w (g := g₁)
    cases hr.symm.trans hu

end Scalar

namespace Datum

variable {g : Graph} {s : Shape} {n : Nat} {truths : List Nat}

/-- A trace lays out its results under a shape: as many scalars as there are elements, under the
shape that was given if it has dimensions. -/
structure LaysOut (t : Trace Datum) (g : Graph) (s : Shape) (n : Nat) (truths : List Nat) :
    Prop where
  kept : s ≠ [] → n ≠ 0 → t.Gives g fun d _ => ∃ ys : List Scalar, ys.length = n ∧
    d = tensor s (ys.map scalar) truths
  listed : s = [] → t.Gives g fun d _ => ∃ ys : List Scalar, ys.length = n ∧
    d = tensor [(n : Int)] (ys.map scalar) truths
  refused : s ≠ [] → n = 0 → t.Fails g (· = .violated .scalarSequence)

theorem laysOut_bind {t : Trace (List Datum)} (truths : List Nat)
    (h : t.Gives g fun ds _ => ∃ ys : List Scalar, ys.length = n ∧ ds = ys.map scalar) :
    LaysOut (t >>= fun ds => rebuilt ds s truths) g s n truths := by
  constructor
  · intro hs hn
    refine h.bind ?_
    rintro _ g' - ⟨ys, rfl, rfl⟩
    have hy : ys ≠ [] := by simpa using hn
    rw [rebuilt, build_scalars, if_neg hs, if_neg hy]
    exact .pure ⟨ys, rfl, rfl⟩
  · intro hs
    refine h.bind ?_
    rintro _ g' - ⟨ys, rfl, rfl⟩
    rw [rebuilt, build_scalars, if_pos hs]
    exact .pure ⟨ys, rfl, rfl⟩
  · intro hs hn
    refine h.bind_fails ?_
    rintro _ g' - ⟨ys, hl, rfl⟩
    have hy : ys = [] := length_eq_zero_iff.1 (hl.trans hn)
    rw [rebuilt, build_scalars, if_neg hs, if_pos hy]
    exact ⟨_, rfl, rfl⟩

/-- Results that are scalars, one for each element. -/
theorem gives_scalars {f : Datum → Trace Datum} {xs : List Scalar}
    (h : ∀ x ∈ xs, ∀ g, (f (scalar x)).Gives g fun d _ => ∃ y, d = scalar y) (g : Graph) :
    ((xs.map scalar).mapM f).Gives g fun ds _ => ∃ ys : List Scalar, ys.length = xs.length ∧
      ds = ys.map scalar := by
  induction xs generalizing g with
  | nil => exact .pure ⟨[], rfl, rfl⟩
  | cons x xs ih =>
    obtain ⟨hx, hs⟩ := forall_mem_cons.1 h
    rw [map_cons, mapM_cons]
    refine (hx g).bind ?_
    rintro _ g₁ - ⟨y, rfl⟩
    refine (ih hs g₁).bind ?_
    rintro _ g₂ - ⟨ys, hl, rfl⟩
    exact .pure ⟨y :: ys, by simp [hl], rfl⟩

theorem negAll_eq_mapM (xs : List Datum) : negAll xs = xs.mapM neg := by
  induction xs with
  | nil => rfl
  | cons x xs ih => rw [negAll, mapM_cons, ih]

theorem gives_neg (x : Scalar) (g : Graph) :
    (neg (scalar x)).Gives g fun d _ => ∃ y, d = scalar y := by
  rw [neg, map_eq_pure_bind]
  refine Trace.Gives.bind (p := fun _ _ => True) ?_ fun y _ _ _ => .pure ⟨y, rfl⟩
  cases x with
  | plain n => exact .pure trivial
  | traced v =>
    refine (Trace.gives_node .neg [v] false fun ws hw => ?_).bind fun _ _ _ _ => .pure trivial
    obtain ⟨w, rfl⟩ := length_eq_one_iff.1 hw.length_eq
    rfl

/-- **Elementwise operations lay out their results** under the shape of the tensor: negation, a
function that takes every element to a scalar, and arithmetic or a comparison with a plain number to
which the plain elements can be added. Only with a dimension and an element is the shape kept. -/
theorem elementwise_lays_out (xs : List Scalar) (s : Shape) (truths : List Nat) (g : Graph) :
    LaysOut (neg (tensor s (xs.map scalar) truths)) g s xs.length truths ∧
    (∀ (call : Caller) (as : Arguments) (f : Datum), as.find? 0 "func" = some f →
      (∀ x ∈ xs, ∀ g, (call f [scalar x]).Gives g fun d _ => ∃ y, d = scalar y) →
      LaysOut (callMethod call .map (tensor s (xs.map scalar) truths) as) g s xs.length truths) ∧
    ∀ (o : Operator) (n : Number), o ∈ Operator.ring ∨ o ∈ Operator.comparisons →
      (∀ m, .plain m ∈ xs → o ∈ Operator.ring → m.Adds n) →
      LaysOut (binary o (tensor s (xs.map scalar) truths) (plain n)) g s xs.length truths := by
  refine ⟨?_, fun call as f hi hf => ?_, fun o n ho hp => ?_⟩
  · rw [neg, negAll_eq_mapM]
    exact laysOut_bind truths (gives_scalars (fun x _ => gives_neg x) g)
  · have hmap : callMethod call .map (tensor s (xs.map scalar) truths) as =
        ((xs.map scalar).mapM fun x => call f [x]) >>= fun ds => rebuilt ds s truths := by
      change (as.need 0 "func" >>= fun f => _) = _
      rw [Arguments.need, hi]
      rfl
    rw [hmap]
    exact laysOut_bind truths (gives_scalars hf g)
  · have ha : o.onArrays = true := by
      obtain ho | ho := ho <;> fin_cases ho <;> rfl
    rw [binary_tensor ha, plain, tensorWith_scalar]
    refine laysOut_bind truths ?_
    obtain hg | ⟨e, -, x, hx, hr⟩ := zipShared_scalar_outcome (dyadicTo_scalar _ o)
      (fun h => (Scalar.binary_uniform o _ _).appends h) xs (.plain n) g
    · refine hg.imp ?_
      rintro _ g' - ⟨ys, rfl, hy⟩
      exact ⟨ys, hy.length_eq.symm, rfl⟩
    · exact absurd hr (Scalar.not_refused ho fun m hm => hp m (hm ▸ hx))

/-- A column of a number and a value, element by element and plus one. -/
theorem column_lays_out :
    LaysOut (callMethod (fun _ ds => pure (ds.headD absent)) .map
      (tensor [2, 1] [int 4, traced two] []) ⟨[absent], []⟩) justTwo [2, 1] 2 [] ∧
    LaysOut (binary .add (tensor [2, 1] [int 4, traced two] []) (int 1)) justTwo [2, 1] 2 [] := by
  obtain ⟨-, ha, hb⟩ := elementwise_lays_out [.int 4, .traced two] [2, 1] [] justTwo
  refine ⟨ha _ _ absent rfl fun x _ g => .pure ⟨x, rfl⟩, hb .add (.int 1) (by decide) ?_⟩
  intro m hm _
  obtain hm | hm := mem_pair.1 hm <;> cases hm
  exact .inl ⟨rfl, rfl⟩

/-- Minus three and four, from a tensor without dimensions, have one. There is no negation of an
empty row and no sum with it. -/
theorem shapes_lost :
    neg (tensor [] [int 3] []) .empty = .ok (tensor [1] [int (-3)] [], .empty) ∧
    binary .add (tensor [] [int 3] []) (int 1) .empty = .ok (tensor [1] [int 4] [], .empty) ∧
    neg (tensor [1, 0] [] []) .empty = .error (.violated .scalarSequence) ∧
    binary .add (tensor [1, 0] [] []) (int 1) .empty = .error (.violated .scalarSequence) :=
  ⟨rfl, rfl, rfl, rfl⟩

end Datum

end Patchwork
