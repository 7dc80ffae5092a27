import Patchwork.Proofs.Datum.Elementwise

/-!
# Functions of scalars on arrays

A function of one scalar is applied to every element of an array, and a function of two scalars to
the elements of two arrays of one form, or to the elements of an array and one scalar. The results
make up an array of the same form. So a function on arrays does what it does on a list of scalars,
one after the other, and this list is all that has to be looked at.
-/

namespace Patchwork

open List

variable {g : Graph}

/-! ## Lists of scalars -/

theorem forall₂_zip_right {α β γ : Type} {R : α → β → Prop} {S : α → γ → Prop} {cs : List α}
    {xs : List β} {ys : List γ} (hxs : Forall₂ R cs xs) (hs : Forall₂ S cs ys) :
    Forall₂ (fun c p => R c p.1 ∧ S c p.2) cs (xs.zip ys) := by
  induction hxs generalizing ys with
  | nil => exact .nil
  | cons hx _ ih =>
    obtain _ | ⟨hy, hs⟩ := hs
    exact .cons ⟨hx, hy⟩ (ih hs)

namespace Datum

theorem mapM_scalar {α : Type} (op : α → Trace Scalar) (xs : List α) :
    (xs.mapM fun x => scalar <$> op x) = List.map scalar <$> xs.mapM op := by
  induction xs with
  | nil => rfl
  | cons x xs ih => simp [ih]

theorem onAll_scalars (f : Scalar → Trace Scalar) (xs : List Scalar) :
    onAll f (xs.map scalar) = List.map scalar <$> xs.mapM f := by
  induction xs with
  | nil => rfl
  | cons x xs ih => simp [onAll, onElements, ih]

end Datum

/-! ## Forms -/

/-- The form of a datum: a scalar, a vector, or a tensor of a given shape. -/
inductive Form where
  | scalar
  | vector
  | tensor (shape : Shape) (truths : List Nat)

namespace Form

/-- A datum has a form and holds given scalars. A tensor has at least one dimension, and one
scalar for every place. -/
inductive Holds : Form → Datum → List Scalar → Prop
  | scalar (x : Scalar) : Holds .scalar (.scalar x) [x]
  | vector (xs : List Scalar) : Holds .vector (.vector (xs.map .scalar)) xs
  | tensor {s : Shape} {xs : List Scalar} (hs : s ≠ []) (hfull : Tensor.Full ⟨s, xs⟩)
    (truths : List Nat) : Holds (.tensor s truths) (Datum.ofScalars ⟨s, xs⟩ truths) xs

/-- The pairs of scalars at which two operands meet: two arrays of one form meet place by
place, and a scalar meets every element. -/
inductive Joins (F : Form) : Datum → Datum → List (Scalar × Scalar) → Prop
  | both {a b : Datum} {xs ys : List Scalar} (hx : F.Holds a xs) (hy : F.Holds b ys) :
    Joins F a b (xs.zip ys)
  | left {a : Datum} {xs : List Scalar} (hx : F.Holds a xs) (y : Scalar) :
    Joins F a (.scalar y) (xs.map (·, y))
  | right {b : Datum} {ys : List Scalar} (x : Scalar) (hy : F.Holds b ys) :
    Joins F (.scalar x) b (ys.map (x, ·))

/-- Puts results in the place of the elements of a datum. -/
def build : Form → List Datum → Trace Datum
  | scalar, [d] => pure d
  | scalar, _ => throw .illTyped
  | vector, ds => pure (.vector ds)
  | tensor s truths, ds => Datum.rebuilt ds s truths

variable {F : Form} {d a b : Datum} {xs : List Scalar} {ps : List (Scalar × Scalar)}
  {p : List Scalar → Graph → Prop}

theorem Holds.exists_build (hd : F.Holds d xs) {ys : List Scalar} (hy : ys.length = xs.length) :
    ∃ d', F.build (ys.map .scalar) = pure d' ∧ F.Holds d' ys := by
  cases hd with
  | scalar x =>
    obtain ⟨y, rfl⟩ := length_eq_one_iff.1 hy
    exact ⟨_, rfl, .scalar y⟩
  | vector => exact ⟨_, rfl, .vector ys⟩
  | @tensor s _ hs hf truths =>
    have hf' : Tensor.Full ⟨s, ys⟩ := ⟨hf.positive, hy ▸ hf.length⟩
    have hr := Datum.rebuilt_scalars hf' truths
    rw [Datum.laidOut_of_ne_nil hs] at hr
    exact ⟨_, hr, .tensor hs hf' truths⟩

theorem Holds.gives_build (hd : F.Holds d xs) {t : Trace (List Scalar)} (ht : t.Gives g p)
    (hl : ∀ ys g', p ys g' → ys.length = xs.length) :
    (List.map Datum.scalar <$> t >>= F.build).Gives g fun d' g' =>
      ∃ ys, F.Holds d' ys ∧ p ys g' := by
  rw [bind_map_left]
  refine ht.bind fun ys g' _ hy => ?_
  obtain ⟨d', hb, hd'⟩ := hd.exists_build (hl ys g' hy)
  rw [hb]
  exact .pure ⟨ys, hd', hy⟩

theorem Holds.onElements_eq (hd : F.Holds d xs) (f : Scalar → Trace Scalar) :
    Datum.onElements f d = List.map Datum.scalar <$> xs.mapM f >>= F.build := by
  cases hd with
  | scalar x => simp [Datum.onElements, build]
  | vector => simp [Datum.onElements, Datum.onAll_scalars, build]
  | tensor hs hf truths =>
    rw [Datum.ofScalars, Datum.onElements, Datum.onAll_scalars]
    rfl

/-- A function of one scalar keeps the form, and does what it does on the list of elements. -/
theorem Holds.gives_onElements {f : Scalar → Trace Scalar} (hd : F.Holds d xs)
    (h : Trace.Gives (xs.mapM f) g p) (hl : ∀ ys g', p ys g' → ys.length = xs.length) :
    (Datum.onElements f d).Gives g fun d' g' => ∃ ys, F.Holds d' ys ∧ p ys g' := by
  rw [hd.onElements_eq f]
  exact hd.gives_build h hl

/-! ## Functions of two scalars -/

theorem Joins.exists_holds (h : F.Joins a b ps) : ∃ d xs, F.Holds d xs ∧ xs.length = ps.length := by
  cases h with
  | @both _ _ xs ys hx hy =>
    cases hx with
    | scalar x =>
      cases hy
      exact ⟨_, _, .scalar x, rfl⟩
    | vector => exact ⟨_, _, .vector ((xs.zip ys).map Prod.fst), length_map _⟩
    | @tensor s _ hs hf truths =>
      cases hy with
      | tensor _ hf' =>
        have hx : (xs.length : Int) = s.size := hf.length
        have hy : (ys.length : Int) = s.size := hf'.length
        refine ⟨_, _, .tensor hs hf truths, ?_⟩
        rw [length_zip]
        omega
  | left hx y => exact ⟨_, _, hx, by simp⟩
  | right x hy => exact ⟨_, _, hy, by simp⟩

section Dyadic

variable {α β : Type} {h : α → β}

theorem vector_mapM (f : β → Trace Datum) (xs : List α) :
    Datum.vector <$> (xs.map h).mapM f = (xs.mapM fun x => f (h x)) >>= vector.build := by
  rw [mapM_map, map_eq_pure_bind]
  rfl

theorem tensor_mapM (s : Shape) (truths : List Nat) (f : β → Trace Datum) (xs : List α) :
    ((xs.map h).mapM f >>= fun ds => Datum.rebuilt ds s truths) =
      (xs.mapM fun x => f (h x)) >>= (tensor s truths).build := by
  rw [mapM_map]
  rfl

variable [Library] {o : Pairwise}

theorem mapM_dyadicTo (n : Nat) (ps : List (Scalar × Scalar)) :
    (ps.mapM fun p => Datum.dyadicTo (n + 1) (.pairwise o) (.scalar p.1) (.scalar p.2)) =
      List.map Datum.scalar <$> ps.mapM fun p => Scalar.pairwise o p.1 p.2 :=
  Datum.mapM_scalar (fun p : Scalar × Scalar => Scalar.pairwise o p.1 p.2) ps

/-- Two data of one form meet place by place. -/
theorem Holds.dyadic_both {ys : List Scalar} (hx : F.Holds a xs) (hy : F.Holds b ys) :
    ∃ n, Datum.dyadic (.pairwise o) a b = ((xs.zip ys).mapM fun p =>
      Datum.dyadicTo (n + 1) (.pairwise o) (.scalar p.1) (.scalar p.2)) >>= F.build := by
  have hz : (xs.map Datum.scalar).zip (ys.map Datum.scalar) =
    (xs.zip ys).map (Prod.map .scalar .scalar) := zip_map ..
  cases hx with
  | scalar x =>
    cases hy with
    | scalar y => exact ⟨3, by simp [build]; rfl⟩
  | vector =>
    cases hy with
    | vector =>
      have hd : ∃ n, Datum.dyadic (.pairwise o) (.vector (xs.map .scalar))
          (.vector (ys.map .scalar)) = Datum.vector <$> ((xs.map Datum.scalar).zip
            (ys.map Datum.scalar)).mapM fun p =>
              Datum.dyadicTo (n + 1) (.pairwise o) p.1 p.2 := ⟨_, rfl⟩
      simpa only [hz, vector_mapM, Prod.map_fst, Prod.map_snd] using hd
  | @tensor s _ hs hf truths =>
    cases hy with
    | tensor _ hf' =>
      have hd : ∃ n, Datum.dyadic (.pairwise o) (Datum.ofScalars ⟨s, xs⟩ truths)
          (Datum.ofScalars ⟨s, ys⟩ truths) = ((xs.map Datum.scalar).zip
            (ys.map Datum.scalar)).mapM (fun p =>
              Datum.dyadicTo (n + 1) (.pairwise o) p.1 p.2) >>= fun ds =>
                Datum.rebuilt ds s truths := ⟨_, if_neg (not_not.2 rfl)⟩
      simpa only [hz, tensor_mapM, Prod.map_fst, Prod.map_snd] using hd

theorem Holds.dyadic_scalar (hx : F.Holds a xs) (y : Scalar) :
    (∃ n, Datum.dyadic (.pairwise o) a (.scalar y) = (xs.mapM fun x =>
      Datum.dyadicTo (n + 1) (.pairwise o) (.scalar x) (.scalar y)) >>= F.build) ∧
    ∃ n, Datum.dyadic (.pairwise o) (.scalar y) a = (xs.mapM fun x =>
      Datum.dyadicTo (n + 1) (.pairwise o) (.scalar y) (.scalar x)) >>= F.build := by
  cases hx with
  | scalar x => exact ⟨⟨3, by simp [build]; rfl⟩, ⟨3, by simp [build]; rfl⟩⟩
  | vector => exact ⟨⟨_, vector_mapM _ xs⟩, ⟨_, vector_mapM _ xs⟩⟩
  | tensor => exact ⟨⟨_, tensor_mapM _ _ _ xs⟩, ⟨_, tensor_mapM _ _ _ xs⟩⟩

theorem Joins.dyadic_eq (h : F.Joins a b ps) :
    Datum.dyadic (.pairwise o) a b =
      List.map Datum.scalar <$> (ps.mapM fun p => Scalar.pairwise o p.1 p.2) >>= F.build := by
  cases h with
  | both hx hy =>
    obtain ⟨n, hd⟩ := hx.dyadic_both hy
    rw [hd, mapM_dyadicTo]
  | left hx y =>
    obtain ⟨n, hd⟩ := (hx.dyadic_scalar y).1
    rw [hd, ← mapM_dyadicTo n, mapM_map]
    rfl
  | right x hy =>
    obtain ⟨n, hd⟩ := (hy.dyadic_scalar x).2
    rw [hd, ← mapM_dyadicTo n, mapM_map]
    rfl

end Dyadic

/-- A function of two scalars keeps the form of its operands, and does what it does on the list
of pairs. -/
theorem Joins.gives_dyadic [Library] {o : Pairwise} (h : F.Joins a b ps)
    (ht : Trace.Gives (ps.mapM fun p => Scalar.pairwise o p.1 p.2) g p)
    (hl : ∀ ys g', p ys g' → ys.length = ps.length) :
    (Datum.dyadic (.pairwise o) a b).Gives g fun d g' => ∃ ys, F.Holds d ys ∧ p ys g' := by
  obtain ⟨d, xs, hd, hx⟩ := h.exists_holds
  rw [h.dyadic_eq]
  exact hd.gives_build ht (hx ▸ hl)

end Form

end Patchwork
