import Patchwork.Proofs.Datum.Absorbed
import Patchwork.Proofs.Datum.Products

/-!
# Diagonal matrices

The diagonal matrix of a vector holds its components and named zeros, and its product with a list
is the product of the elements. Going through a tensor gives a tensor without dimensions for every
index, and these stand on the diagonal in the place of numbers: the matrix has no number at all if
there is one index, and otherwise its products are zero.
-/

namespace Patchwork

open List

theorem Trace.gives_flatMapM {α β : Type} {f : α → Trace (List β)} {P : α → List β → Graph → Prop}
    (hP : ∀ {x ys g g'}, g.Extends g' → P x ys g → P x ys g') (hf : ∀ x g, (f x).Gives g (P x))
    (xs : List α) (g : Graph) :
    (xs.flatMapM f).Gives g fun ys g' => ∃ rows, ys = rows.flatten ∧
      Forall₂ (P · · g') xs rows := by
  have hl : ∀ done : List (List β), (List.flatMapM.loop f xs done).Gives g fun ys g' =>
      ∃ rows, ys = done.reverse.flatten ++ rows.flatten ∧ Forall₂ (P · · g') xs rows := by
    induction xs generalizing g with
    | nil => exact fun done => .pure ⟨[], by simp, .nil⟩
    | cons x xs ih =>
      intro done
      refine (hf x g).bind fun row g₁ _ hr => (ih g₁ (row :: done)).imp ?_
      rintro ys g₂ he ⟨rows, rfl, hw⟩
      exact ⟨row :: rows, by simp, .cons (hP he hr) hw⟩
  exact hl []

namespace Datum

open Arithmetic Tensor

variable {g g' : Graph} {n : Nat} {c v : List Int} {xs ys : List Datum}

/-- What stands in a row of a diagonal matrix: its element at the index of the row, and values
that are worth zero elsewhere. -/
def Fills (x : Datum) (i j : Nat) (y : Datum) (g : Graph) : Prop :=
  if i = j then y = x else y.Traces g 0

theorem Fills.mono {x y : Datum} {i j : Nat} (he : g.Extends g') (h : Fills x i j y g) :
    Fills x i j y g' := by
  rw [Fills] at h ⊢
  split_ifs at h ⊢
  · exact h
  · exact h.mono he

/-- The square table of a function on rows and columns. -/
def squareOf (n : Nat) (f : Nat → Nat → Datum) : Tensor Datum :=
  tabulate [(n : Int), (n : Int)] fun is => f (is.getD 0 0).toNat (is.getD 1 0).toNat

/-- The diagonal matrix of a list. -/
def IsDiagonal (xs : List Datum) (t : Tensor Datum) (g : Graph) : Prop :=
  ∃ f, t = squareOf xs.length f ∧
    ∀ (i j : Nat) (hi : i < xs.length), j < xs.length → Fills xs[i] i j (f i j) g

theorem values_squareOf (n : Nat) (f : Nat → Nat → Datum) :
    (squareOf n f).values = (range n).flatMap fun i => (range n).map (f i) := by
  simp [squareOf, tabulate, Shape.places, choices, Slice.progression_zero, map_flatMap,
    Function.comp_def, flatMap_map, ← map_eq_flatMap]

theorem mem_values_squareOf {f : Nat → Nat → Datum} {d : Datum} :
    d ∈ (squareOf n f).values ↔ ∃ i < n, ∃ j < n, f i j = d := by
  simp [values_squareOf]

theorem get_squareOf {i j : Int} (hi : 0 ≤ i ∧ i < n) (hj : 0 ≤ j ∧ j < n)
    (f : Nat → Nat → Datum) : (squareOf n f).get [i, j] = .ok (f i.toNat j.toNat) :=
  get_tabulate (by simp; omega) (mem_places_pair hi hj)

theorem eq_map_range {α : Type} {xs : List α} (h : xs.length = n) (d : α) :
    xs = (range n).map fun k => xs.getD k d := by
  subst h
  exact ext_getElem (by simp) fun k hk _ => by simp [getElem?_eq_getElem hk]

/-- The elements of the diagonal matrix of a list, row by row. -/
theorem gives_square (xs : List Datum) (g : Graph) :
    (xs.zipIdx.flatMapM fun (x, i) => (range xs.length).mapM fun j =>
      if i = j then pure x else constant (.int 0) : Trace (List Datum)).Gives g fun values g' =>
        ∃ t, values = t.values ∧ IsDiagonal xs t g' := by
  have hn : ∀ (p : Datum × Nat) (j k : Nat) (g : Graph), j = k →
      (if p.2 = k then pure p.1 else constant (.int 0) : Trace Datum).Gives g
        (Fills p.1 p.2 j) := by
    rintro p j _ g rfl
    split_ifs with hj
    · refine .pure ?_
      rw [Fills, if_pos hj]
    · refine (scalarwise_dyadic.gives_zero g).imp fun y g' _ hy => ?_
      rwa [Fills, if_neg hj]
  refine (Trace.gives_flatMapM (P := fun p row g' => Forall₂ (Fills p.1 p.2 · · g')
    (range xs.length) row) (fun {p _ _ _} he hr => hr.imp fun _ _ =>
      Fills.mono (i := p.2) he) (fun p g => ?_) _ g).imp ?_
  · exact Trace.gives_mapM_forall₂ (S := Fills p.1 p.2) (fun _ h => h)
      (fun he => Fills.mono he) (hn p) (forall₂_same.2 fun _ _ => rfl)
  · rintro _ g' - ⟨rows, rfl, hrw⟩
    have hl : rows.length = xs.length := by simpa using hrw.length_eq.symm
    have hr : ∀ (k : Nat) (hk : k < xs.length), Forall₂ (Fills xs[k] k · · g')
        (range xs.length) (rows.getD k []) := by
      intro k hk
      have hp := (forall₂_iff_get.1 hrw).2 k (by simpa using hk) (by omega)
      simpa [hl, hk] using hp
    refine ⟨squareOf xs.length fun i j => (rows.getD i []).getD j absent, ?_, _, rfl, ?_⟩
    · rw [values_squareOf]
      conv_lhs => rw [eq_map_range hl []]
      refine congrArg List.flatten (map_congr_left fun k hk => ?_)
      have hk : k < xs.length := mem_range.1 hk
      exact eq_map_range (by simpa using (hr k hk).length_eq.symm) absent
    · intro k j hk hj
      have hw : j < (rows.getD k []).length := by
        rwa [← (hr k hk).length_eq, length_range]
      have hf := (forall₂_iff_get.1 (hr k hk)).2 j (by simpa using hj) hw
      rw [getD_eq_getElem _ _ hw]
      simpa using hf

/-- The diagonal matrix of a list with a number in it, or with two elements. -/
theorem gives_diagonal (hn : (∃ x ∈ xs, x.isNumber) ∨ 1 < xs.length)
    (hits : ∀ x ∈ xs, x.isSequence = false) (g : Graph) :
    (Tensor.diagonal xs : Trace (Tensor Datum)).Gives g (IsDiagonal xs) := by
  refine (gives_square xs g).bind ?_
  rintro _ g' - ⟨_, rfl, f, rfl, hf⟩
  have hb : (squareOf xs.length f).Built := by
    refine ⟨?_, fun d hd => ?_⟩
    · obtain ⟨x, hx, hs⟩ | ht := hn
      · obtain ⟨k, hk, rfl⟩ := mem_iff_getElem.1 hx
        have hl := hf k k hk hk
        rw [Fills, if_pos rfl] at hl
        exact ⟨f k k, mem_values_squareOf.2 ⟨k, hk, k, hk, rfl⟩, hl ▸ hs⟩
      · have hl := hf 0 1 (by omega) ht
        exact ⟨f 0 1, mem_values_squareOf.2 ⟨0, by omega, 1, ht, rfl⟩, hl.isSingle.scalar⟩
    · obtain ⟨i, hi, j, hj, rfl⟩ := mem_values_squareOf.1 hd
      have hl := hf i j hi hj
      rw [Fills] at hl
      split_ifs at hl
      · exact hl ▸ hits _ (getElem_mem hi)
      · exact hl.isSingle.noSequence
  have hu : build (squareOf xs.length f).values [(xs.length : Int), (xs.length : Int)] =
      .ok (squareOf xs.length f) := hb.build_eq (cons_ne_nil _ _)
  rw [hu]
  exact .pure ⟨f, rfl, hf⟩

/-! ## Vectors -/

theorem isNumber_of_amounts {d : Datum} {i : Int} (h : d.Amounts g i) : d.isNumber := by
  obtain ⟨s, rfl, -⟩ := h
  rfl

/-- The products of the elements of two lists, index by index. -/
theorem zipWith_mul_eq (hc : c.length = n) (hv : v.length = n) :
    zipWith (· * ·) c v =
      (upTo n).map fun i => entry ⟨[(n : Int)], c⟩ [i] * entry ⟨[(n : Int)], v⟩ [i] := by
  refine ext_getElem (by simp [upTo, Slice.progression_zero, hc, hv]) fun k hk _ => ?_
  have hk : k < c.length ∧ k < v.length := by simpa using hk
  simp [upTo, Slice.progression_zero, entry, Shape.position, hk]

/-- The product with a diagonal matrix has for every index what the term of the diagonal adds
to a value. -/
theorem gives_terms {t : Tensor Datum} {d : Datum} {p : Int → Int} (ht : IsDiagonal xs t g)
    (hy : Forall₂ (Amounts g) v ys) (hn : xs ≠ []) (hv : v.length = xs.length)
    (hd : Multiplies ⟨[(xs.length : Int)], ys⟩ d)
    (hm : ∀ (n : Nat) (i : Int) (hi : i.toNat < xs.length) (y : Datum), 0 ≤ i →
      y.Amounts g (entry ⟨[(xs.length : Int)], v⟩ [i]) → ∀ g' e j, g.Extends g' → Traces g' j e →
      (dyadicTo (n + 3) (.operator .mul) xs[i.toNat] y >>=
        dyadicTo (n + 3) (.operator .add) e).Gives g' fun e' g'' => e'.Traces g'' (j + p i)) :
    (binary .matmul (ofTensor t) d).Gives g (Column xs.length ((upTo xs.length).map p)) := by
  obtain ⟨f, rfl, hf⟩ := ht
  obtain ⟨n, heq⟩ := binary_matmul (squareOf xs.length f) hd
  let := arithmeticBy (dyadicTo (n + 3))
  have h : Scalarwise this := scalarwise_dyadicTo (n + 2)
  have ho := length_pos_iff.2 hn
  have hu : Full ⟨[(xs.length : Int)], ys⟩ :=
    ⟨by simpa using ho, by simp [size, ← hy.length_eq, hv]⟩
  have hs : (upTo xs.length).map p = (upTo xs.length).map fun i =>
      ((upTo xs.length).map fun l => if i = l then p l else 0).sum :=
    map_congr_left fun i hi => by simp [sum_upTo, mem_upTo.1 hi]
  rw [heq, hs]
  refine h.gives_rows rfl rfl (by omega) fun i l hi hl g' e j hx he => ?_
  have hp : [l] ∈ Shape.places [(xs.length : Int)] := by simpa [Shape.mem_places] using hl
  have ha := entry_of_forall₂ hy (by rw [hv]) hl
  have hfl := hf i.toNat l.toNat (by omega) (by omega)
  rw [Fills] at hfl
  by_cases hil : i = l
  · subst hil
    rw [if_pos rfl] at hfl
    rw [if_pos rfl, term, get_squareOf hi hl f, hu.covered.get_eq hp, Trace.lift_ok_bind,
      Trace.lift_ok_bind, hfl]
    exact hm n i (by omega) _ hi.1 ha g' e j hx he
  · rw [if_neg (by omega)] at hfl
    rw [if_neg hil]
    exact (h.gives_term (get_squareOf hi hl f) (hfl.amounts.mono hx)
      (hu.covered.get_eq hp) (ha.mono hx)).bind fun e' g'' hx' he' => by
        simpa using h.gives_add (he.mono hx') he'

theorem amounts_entry (hx : Forall₂ (Amounts g) c xs) {i : Int} (hi : 0 ≤ i)
    (hl : i.toNat < xs.length) : xs[i.toNat].Amounts g (entry ⟨[(xs.length : Int)], c⟩ [i]) := by
  have hb : 0 ≤ i ∧ i < xs.length := by omega
  have hv := entry_of_forall₂ hx (by rw [hx.length_eq]) hb
  simpa [entry, Shape.position, hl] using hv

/-- A diagonal matrix of integers acts on every element. -/
theorem gives_scaled {t : Tensor Datum} {d : Datum} (ht : IsDiagonal xs t g)
    (hs : Forall₂ (Amounts g) c xs) (hys : Forall₂ (Amounts g) v ys) (hn : xs ≠ [])
    (hv : v.length = xs.length) (hd : Multiplies ⟨[(xs.length : Int)], ys⟩ d) :
    (binary .matmul (ofTensor t) d).Gives g (Column xs.length (zipWith (· * ·) c v)) := by
  rw [zipWith_mul_eq hs.length_eq hv]
  refine gives_terms ht hys hn hv hd fun n i hi y hl hy g' e j hx he => ?_
  let := arithmeticBy (dyadicTo (n + 3))
  have h : Scalarwise this := scalarwise_dyadicTo (n + 2)
  exact (h.gives_mul ((amounts_entry hs hl hi).mono hx) (hy.mono hx)).bind
    fun e' g'' hx' he' => h.gives_add (he.mono hx') he'

/-! ## Tensors -/

theorem index_line {k : Nat} (hk : k < xs.length) :
    (⟨[(xs.length : Int)], xs⟩ : Tensor Datum).index k = Element.asTensor xs[k] := by
  have hp : normalIndex k 0 xs.length = .ok (k : Int) := by
    rw [normalIndex, if_pos (by omega), if_neg (by omega)]
  have hl : Sequence.between xs ((k : Int) * Shape.size [])
      (k * Shape.size [] + Shape.size []) = [xs[k]] := by
    have hb := Sequence.between_natCast xs k (k + 1) (by omega)
    push_cast at hb
    rw [Shape.size_nil, mul_one, hb]
    simp [take_one, hk]
  change (normalIndex k 0 xs.length >>= fun i => Sequence.at (Sequence.between xs
    (i * Shape.size []) (i * Shape.size [] + Shape.size [])) 0 >>= Element.asTensor) = _
  rw [hp]
  change (Sequence.at (Sequence.between xs _ _) 0 >>= Element.asTensor) = _
  rw [hl]
  rfl

/-- Going through a list of numbers gives tensors without dimensions. -/
theorem rows_line (h : ∀ x ∈ xs, x.isNumber) :
    (⟨[(xs.length : Int)], xs⟩ : Tensor Datum).rows = .ok (xs.map fun x => ⟨[], [x]⟩) := by
  rw [rows, mapM_ok_iff, Slice.progression_zero, forall₂_map_left_iff,
    forall₂_map_right_iff, forall₂_iff_get]
  refine ⟨by simp, fun k hk hk' => ?_⟩
  have hn := h xs[k] (getElem_mem hk')
  simp only [get_eq_getElem, getElem_range]
  rw [index_line hk']
  generalize xs[k] = x at hn ⊢
  cases x <;> first | rfl | cases hn

/-- A tensor without dimensions that is multiplied by a number becomes a list. -/
theorem gives_single_mul {s t : Scalar} {i j : Int} (hs : s.Amounts g i) (ht : t.Amounts g j)
    (n : Nat) :
    (dyadicTo (n + 2) (.operator .mul) (tensor [] [scalar s] []) (scalar t)).Gives g fun d _ =>
      ∃ u, d = ofScalars ⟨[1], [u]⟩ [] := by
  have hh : (shared (scalar s) (scalar t) []).Gives g fun r g' =>
      ∃ u, r.1 = scalar u ∧ u.Amounts g' j := by
    cases ht with
    | traced hw => exact .pure ⟨_, rfl, .traced hw⟩
    | plain => cases hs with
      | plain => exact .pure ⟨_, rfl, .plain j⟩
      | traced hw =>
        refine Trace.Gives.get_bind (Trace.Gives.bind (p := fun e g' => e.Traces g' j) ?_ ?_)
        · exact (Value.gives_constant g j).bind fun w g' _ hw => .pure ⟨w, rfl, hw⟩
        · rintro _ g' - ⟨w, rfl, hw⟩
          exact .pure ⟨_, rfl, .traced hw⟩
  refine Trace.Gives.bind (p := fun values _ => ∃ u, values = [scalar u]) ?_ ?_
  · refine hh.bind ?_
    rintro ⟨_, made⟩ g₁ he ⟨u, rfl, hu⟩
    dsimp only
    rw [dyadicTo_scalar, map_eq_pure_bind, bind_assoc]
    exact (Scalar.amounts_mul (hs.mono he) hu).bind fun x g₂ _ _ => .pure ⟨x, rfl⟩
  · rintro _ g' - ⟨u, rfl⟩
    exact .pure ⟨u, rfl⟩

/-- A diagonal of tensors without dimensions is lost in every product. -/
theorem gives_vanished {t : Tensor Datum} {d : Datum}
    (ht : IsDiagonal (xs.map fun x => tensor [] [x] []) t g)
    (hxs : Forall₂ (Amounts g) c xs) (hys : Forall₂ (Amounts g) v ys) (hn : xs ≠ [])
    (hv : v.length = xs.length) (hd : Multiplies ⟨[(xs.length : Int)], ys⟩ d) :
    (binary .matmul (ofTensor t) d).Gives g (Column xs.length (replicate xs.length 0)) := by
  have hl : (xs.map fun x => tensor [] [x] []).length = xs.length := length_map _
  have hz : replicate xs.length (0 : Int) = (upTo xs.length).map fun _ => 0 := by
    simp [upTo, Slice.progression_zero, Function.comp_def]
  rw [hz]
  rw [← hl] at hv hd ⊢
  refine gives_terms ht hys (by simpa using hn) hv hd fun n i hi y ho hy g' e j hext he => ?_
  obtain ⟨s, hx, hs⟩ := amounts_entry hxs ho (by simpa using hi)
  obtain ⟨u, rfl, hu⟩ := hy
  obtain ⟨w, rfl, hw⟩ := he
  rw [getElem_map, hx]
  refine (gives_single_mul (hs.mono hext) (hu.mono hext) (n + 1)).bind ?_
  rintro _ g₁ hext₁ ⟨u, rfl⟩
  refine (gives_value_left (.inl rfl) w (.tensor ⟨by simp, rfl⟩ []) (by simp) n).imp ?_
  rintro _ g₂ hext₂ rfl
  exact ⟨w, rfl, by simpa using hw.mono (hext₁.trans hext₂)⟩

/-- The diagonal matrix of a list of numbers that is gone through. -/
theorem makeDiagonal_tensor (h : ∀ x ∈ xs, x.isNumber) (truths : List Nat) :
    makeDiagonal (tensor [(xs.length : Int)] xs truths) =
      ofTensor <$> Tensor.diagonal (xs.map fun x => tensor [] [x] []) := by
  have hits : (xs.map fun x => (⟨[], [x]⟩ : Tensor Datum)).map ofTensor =
      xs.map fun x => tensor [] [x] [] := by
    rw [map_map]
    rfl
  rw [← hits]
  change (Fault.lift (Tensor.rows ⟨[(xs.length : Int)], xs⟩) >>= fun rows =>
    ofTensor <$> Tensor.diagonal (rows.map ofTensor)) = _
  rw [rows_line h]
  rfl

theorem numbers_of_amounts (h : Forall₂ (Amounts g) c xs) : ∀ x ∈ xs, x.isNumber :=
  ((forall₂_and_left _ _).1 (h.flip.imp fun _ _ hx => ⟨isNumber_of_amounts hx, hx⟩)).1

theorem forall₂_mono (he : g.Extends g') (h : Forall₂ (Amounts g) c xs) :
    Forall₂ (Amounts g') c xs := h.imp fun _ _ hx => hx.mono he

/-- The diagonal matrix of a tensor with two elements or more, and its products. -/
theorem gives_tensorDiagonal {d : Datum} (hx : Forall₂ (Amounts g) c xs)
    (hy : Forall₂ (Amounts g) v ys) (hm : 1 < xs.length) (hv : v.length = xs.length)
    (hd : Multiplies ⟨[(xs.length : Int)], ys⟩ d) (truths : List Nat) :
    (makeDiagonal (tensor [(xs.length : Int)] xs truths)).Gives g fun D g' =>
      ∃ t, D = ofTensor t ∧ IsDiagonal (xs.map fun x => tensor [] [x] []) t g' ∧
        (binary .matmul D d).Gives g' (Column xs.length (replicate xs.length 0)) := by
  have hits : ∀ z ∈ xs.map fun x => tensor [] [x] [], z.isSequence = false :=
    forall_mem_map.2 fun _ _ => rfl
  have hn : xs ≠ [] := length_pos_iff.1 (by omega)
  rw [makeDiagonal_tensor (numbers_of_amounts hx)]
  refine (gives_diagonal (.inr (by simpa using hm)) hits g).bind fun t g' he ht => .pure ?_
  exact ⟨t, rfl, ht, gives_vanished ht (forall₂_mono he hx) (forall₂_mono he hy) hn hv hd⟩

/-- **Products with diagonal matrices.** The diagonal matrix of a vector of integers holds them and
zeros, and its product with a list has the products of the elements. The diagonal matrix of a tensor
with one element is refused. If there are more, tensors without dimensions stand on the diagonal and
the product has zeros. -/
theorem diagonal_products {d : Datum} (hxs : List.Forall₂ (Amounts g) c xs)
    (hys : List.Forall₂ (Amounts g) v ys) (hne : xs ≠ []) (hv : v.length = xs.length)
    (hd : Multiplies ⟨[(xs.length : Int)], ys⟩ d) (truths : List Nat) :
    (makeDiagonal (vector xs)).Gives g (fun D g' => ∃ t, D = ofTensor t ∧ IsDiagonal xs t g' ∧
      (binary .matmul D d).Gives g' (Column xs.length (List.zipWith (· * ·) c v))) ∧
    (xs.length = 1 → (makeDiagonal (tensor [(xs.length : Int)] xs truths)).Fails g
      (· = .violated .scalarSequence)) ∧
    (1 < xs.length → (makeDiagonal (tensor [(xs.length : Int)] xs truths)).Gives g fun D g' =>
      ∃ t, D = ofTensor t ∧ IsDiagonal (xs.map fun x => tensor [] [x] []) t g' ∧
        (binary .matmul D d).Gives g' (Column xs.length (List.replicate xs.length 0))) := by
  have hn := numbers_of_amounts hxs
  refine ⟨?_, fun ho => ?_, fun hm => gives_tensorDiagonal hxs hys hm hv hd truths⟩
  · obtain ⟨x, hx⟩ := exists_mem_of_ne_nil xs hne
    have hi : ∀ x ∈ xs, x.isSequence = false := by
      intro x hx
      have hu := hn x hx
      cases x <;> first | rfl | cases hu
    change Trace.Gives (ofTensor <$> Tensor.diagonal xs) g _
    rw [map_eq_pure_bind]
    refine (gives_diagonal (.inl ⟨x, hx, hn x hx⟩) hi g).bind fun t g' he ht => .pure ?_
    exact ⟨t, rfl, ht, gives_scaled ht (forall₂_mono he hxs) (forall₂_mono he hys) hne hv hd⟩
  · rw [makeDiagonal_tensor hn]
    obtain ⟨x, rfl⟩ := length_eq_one_iff.1 ho
    exact ⟨_, rfl, rfl⟩

/-- Two and three as diagonal, times five and seven. -/
theorem diagonal_twoThree :
    (makeDiagonal (vector [int 2, int 3])).Gives .empty fun D g => ∃ t, D = ofTensor t ∧
      IsDiagonal [int 2, int 3] t g ∧
      (binary .matmul D (vector [int 5, int 7])).Gives g (Column 2 [10, 21]) :=
  (diagonal_products (amounts_ints _ [2, 3]) (amounts_ints _ [5, 7]) (by simp) rfl
    (.inr ⟨rfl, rfl⟩) []).1

/-- With two and three in a tensor, the same products are zero. -/
theorem twoThree_vanished :
    (makeDiagonal (tensor [2] [int 2, int 3] [])).Gives .empty fun D g =>
      (binary .matmul D (vector [int 5, int 7])).Gives g (Column 2 [0, 0]) := by
  have hm := gives_tensorDiagonal (amounts_ints .empty [2, 3]) (amounts_ints .empty [5, 7])
    (by simp) rfl (.inr ⟨rfl, rfl⟩) []
  refine hm.imp ?_
  rintro D g - ⟨t, -, -, hp⟩
  exact hp

end Datum

end Patchwork
