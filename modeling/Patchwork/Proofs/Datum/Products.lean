import Patchwork.Proofs.Datum.Concat
import Patchwork.Proofs.Datum.Sums
import Patchwork.Proofs.Graph.Exact
import Patchwork.Proofs.Tensor.Compatible
import Mathlib.Data.Int.Interval

/-!
# Products of matrices

The product of two tensors of plain integers is the matrix product of their entries, computed at
once. Transposing and regrouping products are then laws of sums, and a vector on the left or on the
right is a row or a column of a matrix. On the right it gives traced elements, which are worth that
column exactly.
-/

namespace Patchwork

open List
open Shape hiding size

/-! ## Sums of products -/

namespace Tensor

theorem mem_upTo {n i : Int} : i ∈ upTo n ↔ 0 ≤ i ∧ i < n := Slice.mem_progression_zero

theorem sum_upTo (n : Int) (f : Int → Int) : ((upTo n).map f).sum = ∑ l ∈ Finset.Ico 0 n, f l := by
  have hn : (upTo n).Nodup := by
    rw [upTo, Slice.progression_zero]
    exact nodup_range.map Nat.cast_injective
  have hm : (upTo n).toFinset = Finset.Ico 0 n := by
    ext i
    simp [mem_upTo]
  rw [← hm, sum_toFinset f hn]

/-- The entries of a matrix product, with `k` terms each. -/
def product (k : Int) (f h : Int → Int → Int) (i j : Int) : Int :=
  ((upTo k).map fun l => f i l * h l j).sum

variable {m k n i j : Int} {f h : Int → Int → Int}

theorem product_eq (k : Int) (f h : Int → Int → Int) (i j : Int) :
    product k f h i j = ∑ l ∈ Finset.Ico 0 k, f i l * h l j := sum_upTo k _

theorem product_congr {f' h' : Int → Int → Int} (hf : ∀ l, 0 ≤ l ∧ l < k → f i l = f' i l)
    (hh : ∀ l, 0 ≤ l ∧ l < k → h l j = h' l j) : product k f h i j = product k f' h' i j := by
  refine congrArg List.sum (map_congr_left fun l hl => ?_)
  have hl := mem_upTo.1 hl
  rw [hf l hl, hh l hl]

theorem product_swap (k : Int) (f h : Int → Int → Int) (i j : Int) :
    product k (fun i l => h l i) (fun l j => f j l) j i = product k f h i j := by
  simp only [product, mul_comm]

theorem product_assoc (k n : Int) (f h e : Int → Int → Int) (i j : Int) :
    product n (product k f h) e i j = product k f (product n h e) i j := by
  simp only [product_eq, Finset.sum_mul, Finset.mul_sum, mul_assoc]
  exact Finset.sum_comm

/-- The matrix of a function on rows and columns. -/
def grid (m n : Int) (f : Int → Int → Int) : Tensor Int :=
  tabulate [m, n] fun is => f (is.getD 0 0) (is.getD 1 0)

def line (n : Int) (f : Int → Int) : Tensor Int := tabulate [n] fun is => f (is.getD 0 0)

theorem values_grid (m n : Int) (f : Int → Int → Int) :
    (grid m n f).values = (upTo m).flatMap fun i => (upTo n).map (f i) := by
  simp [grid, tabulate, Shape.places, choices, upTo, map_flatMap, Function.comp_def,
    ← map_eq_flatMap]

theorem values_line (n : Int) (f : Int → Int) : (line n f).values = (upTo n).map f := by
  simp [line, tabulate, Shape.places, choices, upTo, ← map_eq_flatMap]

theorem values_column (m : Int) (f : Int → Int → Int) :
    (grid m 1 f).values = (line m (f · 0)).values := by
  have ho : upTo 1 = [0] := rfl
  simp [values_grid, values_line, ho, ← map_eq_flatMap]

theorem mem_places_pair (hi : 0 ≤ i ∧ i < m) (hj : 0 ≤ j ∧ j < n) : [i, j] ∈ Shape.places [m, n] := by
  simp [mem_places, hi, hj]

theorem grid_congr {f' : Int → Int → Int}
    (hf : ∀ i j, 0 ≤ i ∧ i < m → 0 ≤ j ∧ j < n → f i j = f' i j) : grid m n f = grid m n f' := by
  refine tabulate_congr fun is his => ?_
  obtain _ | ⟨hi, _ | ⟨hj, _ | _⟩⟩ := mem_places.1 his
  exact hf _ _ hi hj

theorem entry_grid (hi : 0 ≤ i ∧ i < m) (hj : 0 ≤ j ∧ j < n) : (grid m n f).entry [i, j] = f i j := by
  have hp := mem_places_pair hi hj
  exact entry_tabulate (positive_of_mem_places hp) hp

theorem full_line (hn : 0 < n) (f : Int → Int) : (line n f).Full := full_tabulate (by simpa) _

theorem full_grid (hm : 0 < m) (hn : 0 < n) (f : Int → Int → Int) : (grid m n f).Full :=
  full_tabulate (by simp [hm, hn]) _

def entries (t : Tensor Int) (i j : Int) : Int := t.entry [i, j]

/-- The matrix product of a tensor with `m` rows of `k` elements and one with `n` columns. -/
def times (A B : Tensor Int) (m k n : Int) : Tensor Int := grid m n (product k A.entries B.entries)

variable {is : List Int}

theorem entries_row (k l : Int) : entries ⟨[1, k], is⟩ 0 l = entry ⟨[k], is⟩ [l] := by
  simp [entries, entry, Shape.position]

theorem entries_column (k l : Int) : entries ⟨[k, 1], is⟩ l 0 = entry ⟨[k], is⟩ [l] := by
  simp [entries, entry, Shape.position]

end Tensor

/-! ## Products of integers -/

theorem flatMapM_pure {m : Type → Type} [Monad m] [LawfulMonad m] {α β : Type} {xs : List α}
    {f : α → m (List β)} {h : α → List β} (hf : ∀ x ∈ xs, f x = pure (h x)) :
    xs.flatMapM f = pure (xs.flatMap h) := by
  have hl : ∀ done : List (List β),
      List.flatMapM.loop f xs done = pure (done.reverse.flatten ++ xs.flatMap h) := by
    induction xs with
    | nil => simp [List.flatMapM.loop]
    | cons x xs ih =>
      intro done
      obtain ⟨hx, hs⟩ := forall_mem_cons.1 hf
      rw [List.flatMapM.loop, hx, pure_bind, ih hs]
      simp
  exact hl []

namespace Datum

open Arithmetic Tensor

/-- A datum is worth an integer exactly, as a number or as a value. -/
def Amounts (g : Graph) (i : Int) (d : Datum) : Prop := ∃ s, d = scalar s ∧ s.Amounts g i

/-- A datum is a value that is worth an integer exactly. -/
def Traces (g : Graph) (i : Int) (d : Datum) : Prop := ∃ w, d = traced w ∧ w.Amounts g i

/-- A datum is a list of values that are worth given integers exactly. -/
def Column (m : Int) (c : List Int) (d : Datum) (g : Graph) : Prop :=
  ∃ ds, d = tensor [m] ds [] ∧ List.Forall₂ (Traces g) c ds

variable {g g' : Graph} {i : Int} {d : Datum}

theorem amounts_int (g : Graph) (i : Int) : (int i).Amounts g i := ⟨_, rfl, .plain i⟩

theorem Amounts.mono (h : d.Amounts g i) (he : g.Extends g') : d.Amounts g' i := by
  obtain ⟨s, rfl, hs⟩ := h
  exact ⟨s, rfl, hs.mono he⟩

theorem Traces.mono (h : d.Traces g i) (he : g.Extends g') : d.Traces g' i := by
  obtain ⟨w, rfl, hw⟩ := h
  exact ⟨w, rfl, hw.mono he⟩

theorem Traces.amounts (h : d.Traces g i) : d.Amounts g i := by
  obtain ⟨w, rfl, hw⟩ := h
  exact ⟨_, rfl, .traced hw⟩

theorem Traces.isSingle (h : d.Traces g i) : IsSingle d := by
  obtain ⟨w, rfl, -⟩ := h
  exact isSingle_scalar (.traced w)

variable {A B C : Tensor Int} {m k n p : Int} {v : List Int}

theorem positive_pair (hA : A.Covered) (hs : A.shape = [m, k]) : 0 < m ∧ 0 < k := by
  simpa [hs] using hA.positive

theorem get_ints {is : List Int} (hA : A.Covered) (his : is ∈ A.shape.places) :
    (ints A).get is = .ok (int (A.entry is)) := by
  have ht : ints A = tabulateWith A.shape (fun is => int (A.entry is))
      ((A.values.drop A.size.toNat).map int) := by
    conv_lhs => rw [hA.eq_tabulateWith]
    simp [ints, tabulateWith]
  rw [ht]
  exact get_tabulateWith hA.positive his

theorem build_full (hA : A.Full) (hs : A.shape ≠ []) :
    build (A.values.map int) A.shape = .ok (ints A) := build_ints hA.values_ne_nil hs

namespace Scalarwise

variable [arithmetic : Arithmetic Trace Datum] (h : Scalarwise arithmetic)
include h

theorem term_ints {is js : List Int} (hA : A.Covered) (his : is ∈ A.shape.places) (hB : B.Covered)
    (hj : js ∈ B.shape.places) :
    (term (ints A) (ints B) is js : Trace Datum) = pure (int (A.entry is * B.entry js)) := by
  rw [term, get_ints hA his, get_ints hB hj, Trace.lift_ok_bind, Trace.lift_ok_bind, h.mul_int]

theorem total_terms {term : Int → Trace Datum} {x : Int → Int}
    (hm : ∀ l, 0 ≤ l ∧ l < k → term l = pure (int (x l))) :
    ((upTo k).mapM term >>= total) = pure (int ((upTo k).map x).sum) := by
  have ht : (upTo k).mapM term = pure (((upTo k).map x).map int) := by
    rw [mapM_pure_map fun l hl => hm l (mem_upTo.1 hl), map_map]
    rfl
  rw [ht, pure_bind, h.total_int]

theorem gives_zero (g : Graph) :
    (constant (.int 0) : Trace Datum).Gives g fun d g' => d.Traces g' 0 := by
  have hn : (constant (.int 0)) = traced <$> Value.constant (.int 0) :=
    (congrArg Arithmetic.named (h.literal 0)).trans (h.named 0)
  rw [hn]
  exact (Value.gives_constant g 0).bind fun w g' _ hw => .pure ⟨w, rfl, hw⟩

theorem gives_mul {e : Datum} {j : Int} (hd : d.Amounts g i) (he : e.Amounts g j) :
    (mul d e : Trace Datum).Gives g fun d' g' => d'.Amounts g' (i * j) := by
  obtain ⟨s, rfl, hs⟩ := hd
  obtain ⟨t, rfl, ht⟩ := he
  have hm : (mul (scalar s) (scalar t)) = scalar <$> Scalar.mul s t := h.binary .mul _ _
  rw [hm]
  exact (Scalar.amounts_mul hs ht).bind fun u g' _ hu => .pure ⟨u, rfl, hu⟩

theorem gives_term {a b : Tensor Datum} {is js : List Int} {e : Datum} {j : Int}
    (ha : a.get is = .ok d) (hd : d.Amounts g i) (hb : b.get js = .ok e) (he : e.Amounts g j) :
    (term a b is js : Trace Datum).Gives g fun d' g' => d'.Amounts g' (i * j) := by
  rw [term, ha, hb]
  exact h.gives_mul hd he

theorem gives_add {e : Datum} {j : Int} (hd : d.Traces g i) (he : e.Amounts g j) :
    (add d e : Trace Datum).Gives g fun d' g' => d'.Traces g' (i + j) := by
  obtain ⟨w, rfl, hw⟩ := hd
  obtain ⟨s, rfl, hs⟩ := he
  have ha : (add (traced w) (scalar s)) = scalar <$> Scalar.add (.traced w) s := h.binary .add _ _
  rw [ha, map_eq_pure_bind]
  refine (Scalar.amounts_add hw hs).bind fun s' g' _ hs' => ?_
  obtain ⟨u, rfl, hu⟩ := hs'
  exact .pure ⟨u, rfl, hu⟩

omit h in
theorem gives_sum {term : Int → Trace Datum} {x : Int → Int} {ls : List Int}
    (ht : ∀ l ∈ ls, ∀ g' e j, g.Extends g' → Traces g' j e →
      (do add e (← term l) : Trace Datum).Gives g' fun e' g'' => e'.Traces g'' (j + x l))
    (hd : d.Traces g i) :
    (ls.foldlM (fun sum l => do add sum (← term l)) d).Gives g fun d' g' =>
      d'.Traces g' (i + (ls.map x).sum) := by
  induction ls generalizing g d i with
  | nil => exact .pure (by simpa using hd)
  | cons l ls ih =>
    obtain ⟨hl, hs⟩ := forall_mem_cons.1 ht
    rw [foldlM_cons, map_cons, sum_cons, ← Int.add_assoc]
    exact (hl g d i (.refl g) hd).bind fun d' g' he hd' =>
      ih (fun l' hl' g'' e j he' => hs l' hl' g'' e j (he.trans he')) hd'

/-- The product of a matrix with a list adds up the terms of every row on top of a named
zero. -/
theorem gives_rows {a b : Tensor Datum} {x : Int → Int → Int} (ha : a.shape = [m, k])
    (hb : b.shape = [k]) (hm : 0 < m)
    (ht : ∀ i l, 0 ≤ i ∧ i < m → 0 ≤ l ∧ l < k → ∀ g' e j, g.Extends g' → Traces g' j e →
      (do add e (← term a b [i, l] [l]) : Trace Datum).Gives g' fun e' g'' =>
        e'.Traces g'' (j + x i l)) :
    (ofReduced <$> a.matmul b : Trace Datum).Gives g
      (Column m ((upTo m).map fun i => ((upTo k).map (x i)).sum)) := by
  have ho : ∀ (c i : Int) (g' : Graph), g.Extends g' ∧ (0 ≤ i ∧ i < m) ∧
      ((upTo k).map (x i)).sum = c → ((do
        let zero ← constant (.int 0)
        (upTo k).foldlM (fun sum l => do add sum (← term a b [i, l] [l])) zero) :
          Trace Datum).Gives g' fun d g'' => d.Traces g'' c := by
    rintro c i g' ⟨he, hi, rfl⟩
    refine (h.gives_zero g').bind fun d g₁ he₁ hd => ?_
    rw [← Int.zero_add (List.sum _)]
    refine gives_sum (fun l hl g₂ e j he₂ => ?_) hd
    exact ht i l hi (mem_upTo.1 hl) g₂ e j ((he.trans he₁).trans he₂)
  have hs : Forall₂ (fun c i => g.Extends g ∧ (0 ≤ i ∧ i < m) ∧
      ((upTo k).map (x i)).sum = c) ((upTo m).map fun i => ((upTo k).map (x i)).sum) (upTo m) := by
    rw [forall₂_map_left_iff]
    exact forall₂_same.2 fun i hi => ⟨.refl g, mem_upTo.1 hi, rfl⟩
  rw [map_eq_pure_bind]
  simp only [matmul, ha, hb, ne_eq, not_true_eq_false, if_false, bind_assoc]
  refine (Trace.gives_mapM_forall₂ (fun he hr => ⟨hr.1.trans he, hr.2⟩)
    (fun he hd => hd.mono he) ho hs).bind fun cs g' _ hc => ?_
  have hg : ∀ d ∈ cs, IsSingle d :=
    ((forall₂_and_left _ _).1 (hc.flip.imp fun d i hd => ⟨Traces.isSingle hd, hd⟩)).1
  have hne : cs ≠ [] := by
    have hn := hc.length_eq
    rintro rfl
    simp [upTo, Slice.progression_zero] at hn
    omega
  rw [build_of_isSingle hg hne (cons_ne_nil m [])]
  exact .pure ⟨cs, rfl, hc⟩

end Scalarwise

/-- Inner dimensions that differ are refused. -/
theorem matmul_mismatch [Arithmetic Trace Datum] {a b : Tensor Datum} (ha : a.rank ≤ 2) (hb : b.rank ≤ 2)
    (h : a.shape.getLast? ≠ b.shape.head?) (g : Graph) :
    (a.matmul b : Trace (Reduced Datum)).Fails g Fault.IsRefusal := by
  obtain ⟨s, xs⟩ := a
  obtain ⟨s', ys⟩ := b
  simp only [rank] at ha hb h
  rcases s with _ | ⟨i, _ | ⟨j, _ | ⟨_, _⟩⟩⟩ <;> rcases s' with _ | ⟨i', _ | ⟨j', _ | ⟨_, _⟩⟩⟩
  -- a number alone has no product, and other ranks compare one pair of dimensions
  all_goals first
    | exact ⟨_, rfl, trivial⟩
    | exact ⟨_, congrFun (if_pos (mt (congrArg some) h)) g, trivial⟩
    | simp at ha hb

/-! ## Products of data -/

def Multiplies (b : Tensor Datum) (d : Datum) : Prop :=
  d = ofTensor b ∨ d = vector b.values ∧ b.shape = [(b.values.length : Int)]

theorem binary_matmul (a : Tensor Datum) {b : Tensor Datum} {d : Datum} (h : Multiplies b d) :
    ∃ n, binary .matmul (ofTensor a) d =
      letI := arithmeticBy (dyadicTo (n + 3)); ofReduced <$> a.matmul b := by
  obtain ⟨s, ys⟩ := b
  rcases h with rfl | ⟨rfl, hs⟩
  · exact ⟨_, rfl⟩
  · simp only at hs
    subst hs
    exact ⟨_, rfl⟩

theorem exists_matmul {a b : Tensor Datum} {d : Datum} (h : Multiplies b d) :
    ∃ arithmetic : Arithmetic Trace Datum, Scalarwise arithmetic ∧
      binary .matmul (ofTensor a) d = ofReduced <$> a.matmul b := by
  obtain ⟨n, hn⟩ := binary_matmul a h
  exact ⟨_, scalarwise_dyadicTo _, hn⟩

theorem binary_matrix (hA : A.Covered) (hB : B.Covered) (hm : A.shape = [m, k]) (hn : B.shape = [k, n]) :
    binary .matmul (ofInts A) (ofInts B) = pure (ofInts (A.times B m k n)) := by
  obtain ⟨_, h, heq⟩ := exists_matmul (.inl rfl)
  have hv : (upTo m).flatMapM (fun i => (upTo n).mapM fun j =>
      (upTo k).mapM (fun l => term (ints A) (ints B) [i, l] [l, j]) >>= total) =
      (pure ((A.times B m k n).values.map int) : Trace (List Datum)) := by
    rw [times, values_grid, map_flatMap]
    refine flatMapM_pure fun i hi => ?_
    rw [map_map]
    refine mapM_pure_map fun j hj => h.total_terms fun l hl => h.term_ints hA ?_ hB ?_
    · exact hm ▸ mem_places_pair (mem_upTo.1 hi) hl
    · exact hn ▸ mem_places_pair hl (mem_upTo.1 hj)
  have hb : build ((A.times B m k n).values.map int) [m, n] = .ok (ints (A.times B m k n)) :=
    build_full (full_grid (positive_pair hA hm).1 (positive_pair hB hn).2 _) (cons_ne_nil _ _)
  rw [ofInts, ofInts, heq]
  simp only [matmul, ints_shape, hm, hn, ne_eq, not_true_eq_false, if_false, hv, pure_bind, hb]
  rfl

/-- The product of a list with a matrix is the row of a matrix product. -/
theorem binary_row (hB : B.Covered) (hn : B.shape = [k, n]) (hv : v.length = k) :
    binary .matmul (ofInts ⟨[k], v⟩) (ofInts B) =
      pure (ofInts (line n (product k (entries ⟨[1, k], v⟩) B.entries 0))) := by
  obtain ⟨_, h, heq⟩ := exists_matmul (a := ints ⟨[k], v⟩) (.inl rfl : Multiplies (ints B) _)
  obtain ⟨ht, hc⟩ := positive_pair hB hn
  have hf : Full ⟨[k], v⟩ := ⟨by simpa using ht, by simpa [size] using hv⟩
  have hs : (upTo n).mapM (fun j =>
      (upTo k).mapM (fun l => term (ints ⟨[k], v⟩) (ints B) [l] [l, j]) >>= total) =
      (pure ((line n (product k (entries ⟨[1, k], v⟩) B.entries 0)).values.map int) :
        Trace (List Datum)) := by
    rw [values_line, map_map]
    refine mapM_pure_map fun j hj => h.total_terms fun l hl => ?_
    rw [entries_row]
    refine h.term_ints hf.covered ?_ hB (hn ▸ mem_places_pair hl (mem_upTo.1 hj))
    simpa [mem_places] using hl
  have hb : build ((line n (product k (entries ⟨[1, k], v⟩) B.entries 0)).values.map int) [n] =
      .ok (ints (line n (product k (entries ⟨[1, k], v⟩) B.entries 0))) :=
    build_full (full_line hc _) (cons_ne_nil _ _)
  rw [ofInts, ofInts, heq]
  simp only [matmul, ints_shape, hn, ne_eq, not_true_eq_false, if_false, hs, pure_bind, hb]
  rfl

/-- Lists that are related element by element have related entries. -/
theorem entry_of_forall₂ {R : Int → Datum → Prop} {ds : List Datum} {l : Int} (h : Forall₂ R v ds)
    (hv : v.length = k) (hl : 0 ≤ l ∧ l < k) : R (entry ⟨[k], v⟩ [l]) (entry ⟨[k], ds⟩ [l]) := by
  have ht : l.toNat < v.length := by omega
  have hp : Shape.position [k] [l] = l := by simp [Shape.position]
  simp only [entry, hp, getD_eq_getElem _ _ ht, getD_eq_getElem _ _ (h.length_eq ▸ ht)]
  exact (forall₂_iff_get.1 h).2 l.toNat ht _

/-- The product of a matrix with a list has traced elements, worth the column of a matrix
product. -/
theorem gives_column {ds : List Datum} (hA : A.Covered) (hm : A.shape = [m, k]) (hv : v.length = k)
    (hs : Forall₂ (Amounts g) v ds) (hd : Multiplies ⟨[k], ds⟩ d) :
    (binary .matmul (ofInts A) d).Gives g (Column m (A.times ⟨[k, 1], v⟩ m k 1).values) := by
  obtain ⟨_, h, heq⟩ := exists_matmul (a := ints A) hd
  obtain ⟨hr, ht⟩ := positive_pair hA hm
  have hf : Full ⟨[k], ds⟩ := ⟨by simpa using ht, by simpa [size, ← hs.length_eq] using hv⟩
  rw [ofInts, heq, times, values_column, values_line]
  refine h.gives_rows hm rfl hr fun i l hi hl g' e j hx he => ?_
  have hp : [l] ∈ Shape.places [k] := by simpa [mem_places] using hl
  exact (h.gives_term (get_ints hA (hm ▸ mem_places_pair hi hl)) (amounts_int g' _)
    (hf.covered.get_eq hp) ((entry_of_forall₂ hs hv hl).mono hx)).bind
    fun e' g'' hx' he' => h.gives_add (he.mono hx') he'

theorem amounts_ints (g : Graph) (v : List Int) : Forall₂ (Amounts g) v (v.map int) :=
  forall₂_map_right_iff.2 (forall₂_same.2 fun i _ => amounts_int g i)

theorem ints_tabulate (s : Shape) (f : List Int → Int) :
    ints (tabulate s f) = tabulate s fun is => int (f is) := by
  simp [ints, tabulate]

theorem built_ints (hA : A.Full) : (ints A).Built := by
  have hs : ∀ d ∈ (ints A).values, IsSingle d := forall_mem_map.2 fun i _ => isSingle_int i
  obtain ⟨d, hd⟩ := exists_mem_of_ne_nil (ints A).values (by simpa [ints] using hA.values_ne_nil)
  exact ⟨⟨d, hd, (hs d hd).scalar⟩, fun d hd => (hs d hd).noSequence⟩

theorem part_transposed (hA : A.Full) (hs : A.shape = [m, n]) :
    part .transposed (ofInts A) = pure (ofInts (grid n m fun i j => A.entries j i)) := by
  have ht : ints A = tabulate [m, n] fun is => int (A.entry is) := by
    conv_lhs => rw [hA.eq_tabulate, ints_tabulate, hs]
  have hk : (tabulate [m, n] fun is => int (A.entry is)).rank = 2 := rfl
  have hr := transpose_tabulate (s := [m, n]) (σ := Fin.revPerm)
    (hs ▸ hA.positive) hk (by decide) (ht ▸ built_ints hA)
  rw [← transpose_nil hk (by decide), ← ht] at hr
  change (do return ofTensor (← Fault.lift ((ints A).transpose []))) = _
  rw [hr, ofInts, grid, ints_tabulate]
  rfl

theorem ofInts_tabulate (s : Shape) (f : List Int → Int) :
    ofInts (tabulate s f) = ofScalars (tabulate s fun is => .int (f is)) [] := by
  rw [ofInts, ints_tabulate, ofScalars_tabulate]
  rfl

theorem not_exceeds_nil (s : Shape) : ¬ Exceeds s [] := by
  simp [Exceeds]

theorem fits_zero (hn : 0 < n) : Key.Fits n (.index 0) := by
  intro i hi
  cases hi
  omega

theorem item_row (hm : 0 < m) (hn : 0 < n) (f : Int → Int → Int) :
    item (ofInts (grid m n f)) (int 0) = pure (ofInts (line n (f 0))) := by
  have hk : (int 0).keys? = some [.index 0] := rfl
  rw [grid, line, ofInts_tabulate, ofInts_tabulate]
  refine item_table (by simp [hm, hn]) (by simp) (by simpa) (by simp) hk (by simp [Key.Selects])
    (not_exceeds_cons.2 ⟨fits_zero hm, not_exceeds_nil _⟩) rfl fun js hj => ?_
  rfl

theorem item_column (hm : 0 < m) (hn : 0 < n) (f : Int → Int → Int) :
    item (ofInts (grid m n f)) (tuple [slice .whole, int 0]) = pure (ofInts (line m (f · 0))) := by
  have hk : (tuple [slice .whole, int 0]).keys? = some [.slice .whole, .index 0] := rfl
  have hf : ¬ Exceeds [m, n] [.slice .whole, .index 0] :=
    not_exceeds_cons.2 ⟨fun i hi => (by cases hi), not_exceeds_cons.2 ⟨fits_zero hn, not_exceeds_nil _⟩⟩
  have hb : ∀ d ∈ [m], 0 < d := by simpa
  have ho := outline_whole hb [n] [.index 0]
  rw [grid, line, ofInts_tabulate, ofInts_tabulate]
  refine item_table (by simp [hm, hn]) (by simp) (by simpa) (by simp) hk
    (by simp [Key.Selects, Slice.whole]) hf ho fun js hj => ?_
  have hc := composed_whole hj [n] [.index 0] []
  obtain _ | ⟨_, _ | _⟩ := mem_places.1 hj
  exact congrArg (fun is => Scalar.int (f (is.getD 0 0) (is.getD 1 0))) hc

theorem reshape_call (hm : 0 < m) (hn : 0 < n) (hk : m * n = k) (hv : v.length = k) :
    Method.reshape.call (ofInts ⟨[k], v⟩) ⟨[int m, int n], []⟩ = pure (ofInts ⟨[m, n], v⟩) := by
  subst hk
  have ho : count (-1) [m, n] = 0 := count_eq_zero.2 (by simp; omega)
  have hf : Full ⟨[m, n], v⟩ := ⟨by simp [hm, hn], by simpa [size] using hv⟩
  have hr : (ints ⟨[m * n], v⟩).reshape [m, n] = .ok (ints ⟨[m, n], v⟩) := by
    rw [reshape, closedShape, ho]
    simp only [bind, Except.bind]
    rw [if_neg (by simp [size])]
    exact build_full hf (by simp)
  change (Fault.lift ((ints ⟨[m * n], v⟩).reshape [m, n]) >>= fun r =>
    pure (tensor r.shape r.values []) : Trace Datum) = _
  rw [hr]
  rfl

theorem times_assoc (A B C : Tensor Int) (m k n p : Int) :
    (A.times B m k n).times C m n p = A.times (B.times C k n p) m k p := by
  refine grid_congr fun i j hi hj => ?_
  calc product n (A.times B m k n).entries C.entries i j
      = product n (product k A.entries B.entries) C.entries i j :=
        product_congr (fun l hl => entry_grid hi hl) fun _ _ => rfl
    _ = product k A.entries (product n B.entries C.entries) i j := product_assoc ..
    _ = product k A.entries (B.times C k n p).entries i j :=
        product_congr (fun _ _ => rfl) fun l hl => (entry_grid hl hj).symm

theorem times_transposed (A B : Tensor Int) (m k n : Int) :
    (grid n k fun i j => B.entries j i).times (grid k m fun i j => A.entries j i) n k m =
      grid n m fun i j => (A.times B m k n).entries j i := by
  refine grid_congr fun i j hi hj => ?_
  calc product k (grid n k fun i j => B.entries j i).entries
        (grid k m fun i j => A.entries j i).entries i j
      = product k (fun i l => B.entries l i) (fun l j => A.entries j l) i j :=
        product_congr (fun l hl => entry_grid hi hl) fun l hl => entry_grid hl hj
    _ = product k A.entries B.entries j i := product_swap ..
    _ = (A.times B m k n).entries j i := (entry_grid hj hi).symm

/-- **Products of matrices obey their laws.** -/
theorem matmul_laws (hA : A.Covered) (hB : B.Covered) (hC : C.Covered) (hm : A.shape = [m, k])
    (hk : B.shape = [k, n]) (hn : C.shape = [n, p]) (hv : v.length = k) :
    (∃ P : Tensor Int, binary .matmul (ofInts A) (ofInts B) = pure (ofInts P) ∧ P.Full ∧
      P.shape = [m, n] ∧ ∀ i j, 0 ≤ i ∧ i < m → 0 ≤ j ∧ j < n →
        P.get [i, j] = .ok (∑ l ∈ Finset.Ico 0 k, A.entry [i, l] * B.entry [l, j])) ∧
    (A.Full → B.Full → ∃ P : Tensor Int,
      (do part .transposed (← binary .matmul (ofInts A) (ofInts B))) = pure (ofInts P) ∧
      (do binary .matmul (← part .transposed (ofInts B)) (← part .transposed (ofInts A))) =
        pure (ofInts P)) ∧
    (∃ P : Tensor Int,
      (do binary .matmul (← binary .matmul (ofInts A) (ofInts B)) (ofInts C)) = pure (ofInts P) ∧
      (do binary .matmul (ofInts A) (← binary .matmul (ofInts B) (ofInts C))) = pure (ofInts P)) ∧
    (∀ w : List Int, w.length = n → ∃ c, ∀ d, Multiplies (ints ⟨[n], w⟩) d → ∀ g,
      (do binary .matmul (← binary .matmul (ofInts A) (ofInts B)) d).Gives g (Column m c) ∧
      (do binary .matmul (ofInts A) (← binary .matmul (ofInts B) d)).Gives g (Column m c)) ∧
    (∃ r : Tensor Int, binary .matmul (ofInts ⟨[k], v⟩) (ofInts B) = pure (ofInts r) ∧
      (do item (← binary .matmul (← Method.reshape.call (ofInts ⟨[k], v⟩) ⟨[int 1, int k], []⟩)
        (ofInts B)) (int 0)) = pure (ofInts r)) ∧
    (∃ c : List Int,
      (do item (← binary .matmul (ofInts A)
        (← Method.reshape.call (ofInts ⟨[k], v⟩) ⟨[int k, int 1], []⟩)) (tuple [slice .whole, int 0])) =
        pure (ofInts ⟨[m], c⟩) ∧
      ∀ d, Multiplies (ints ⟨[k], v⟩) d → ∀ g, (binary .matmul (ofInts A) d).Gives g (Column m c)) ∧
    ∀ (S T : Tensor Int) (d : Datum), Multiplies (ints T) d → S.rank ≤ 2 → T.rank ≤ 2 →
      S.shape.getLast? ≠ T.shape.head? → ∀ g, (binary .matmul (ofInts S) d).Fails g Fault.IsRefusal := by
  obtain ⟨hr, ht⟩ := positive_pair hA hm
  have hc := (positive_pair hB hk).2
  have hp := binary_matrix hA hB hm hk
  have hf : (A.times B m k n).Full := full_grid hr hc _
  have hrow : Full ⟨[1, k], v⟩ := ⟨by simp [ht], by simpa [size] using hv⟩
  have ho : Full ⟨[k, 1], v⟩ := ⟨by simp [ht], by simpa [size] using hv⟩
  refine ⟨⟨_, hp, hf, rfl, fun i j hi hj => ?_⟩, fun hA' hB' =>
    ⟨grid n m fun i j => (A.times B m k n).entries j i, ?_, ?_⟩,
    ⟨(A.times B m k n).times C m n p, ?_, ?_⟩, fun w hw =>
    ⟨((A.times B m k n).times ⟨[n, 1], w⟩ m n 1).values, fun d hd g => ⟨?_, ?_⟩⟩,
    ⟨_, binary_row hB hk hv, ?_⟩,
    ⟨_, ?_, fun d hd g => gives_column hA hm hv (amounts_ints g v) hd⟩, fun S T d hd hS hT hne g => ?_⟩
  · rw [hf.covered.get_eq (mem_places_pair hi hj), times, entry_grid hi hj, product_eq]
    rfl
  · rw [hp, pure_bind]
    exact part_transposed hf rfl
  · rw [part_transposed hB' hk, part_transposed hA' hm, pure_bind, pure_bind,
      binary_matrix (full_grid hc ht _).covered (full_grid ht hr _).covered rfl rfl,
      times_transposed]
  · rw [hp, pure_bind]
    exact binary_matrix hf.covered hC rfl hn
  · rw [binary_matrix hB hC hk hn, pure_bind, times_assoc]
    exact binary_matrix hA (full_grid ht (positive_pair hC hn).2 _).covered hm rfl
  · rw [hp, pure_bind]
    exact gives_column hf.covered rfl hw (amounts_ints g w) hd
  · have he : Full (B.times ⟨[n, 1], w⟩ k n 1) := full_grid ht one_pos _
    refine (gives_column hB hk hw (amounts_ints g w) hd).bind fun u g' _ hu => ?_
    obtain ⟨ds, rfl, hs⟩ := hu
    rw [times_assoc]
    exact gives_column hA hm (he.length.trans (by simp [times, grid, size]))
      (hs.imp fun _ _ hd => hd.amounts) (.inl rfl)
  · rw [reshape_call one_pos ht (one_mul k) hv, pure_bind,
      binary_matrix hrow.covered hB rfl hk, pure_bind]
    exact item_row one_pos hc _
  · rw [reshape_call ht one_pos (mul_one k) hv, pure_bind,
      binary_matrix hA ho.covered hm rfl, pure_bind, times, values_column]
    exact item_column hr one_pos _
  · obtain ⟨_, -, heq⟩ := exists_matmul (a := ints S) hd
    rw [ofInts, heq, map_eq_pure_bind]
    exact (matmul_mismatch hS hT hne g).bind

/-- A square times a column, and what goes with it. -/
theorem square_products :
    (∃ P : Tensor Int,
      (do part .transposed (← binary .matmul (ofInts square) (ofInts ⟨[2, 1], [5, 6]⟩))) =
        pure (ofInts P) ∧
      (do binary .matmul (← part .transposed (ofInts ⟨[2, 1], [5, 6]⟩))
            (← part .transposed (ofInts square))) = pure (ofInts P)) ∧
    (∃ c : List Int,
      (do item (← binary .matmul (ofInts square)
        (← Method.reshape.call (ofInts ⟨[2], [1, -1]⟩) ⟨[int 2, int 1], []⟩))
            (tuple [slice .whole, int 0])) = pure (ofInts ⟨[2], c⟩) ∧
      ∀ d, Multiplies (ints ⟨[2], [1, -1]⟩) d → ∀ g,
        (binary .matmul (ofInts square) d).Gives g (Column 2 c)) ∧
    ∀ g, (binary .matmul (ofInts square) (vector [int 1])).Fails g Fault.IsRefusal := by
  have hs : square.Full := ⟨by decide, rfl⟩
  have hB : Full (⟨[2, 1], [5, 6]⟩ : Tensor Int) := ⟨by decide, rfl⟩
  have hC : Full (⟨[1, 2], [7, 8]⟩ : Tensor Int) := ⟨by decide, rfl⟩
  obtain ⟨-, ht, -, -, -, hc, hm⟩ :=
    matmul_laws (v := [1, -1]) hs.covered hB.covered hC.covered rfl rfl rfl rfl
  exact ⟨ht hs hB, hc,
    hm square ⟨[1], [1]⟩ _ (.inr ⟨rfl, rfl⟩) (by decide) (by decide) (by decide)⟩

/-- With a surplus element, the product of the transposed matrices is another one. -/
theorem crowded_products :
    (do part .transposed (← binary .matmul (ofInts ⟨[2, 2], [1, 2, 3, 4, 5]⟩)
        (ofInts ⟨[2, 2], [1, 0, 0, 1]⟩))) = pure (ofInts ⟨[2, 2], [1, 3, 2, 4]⟩) ∧
    (do binary .matmul (← part .transposed (ofInts ⟨[2, 2], [1, 0, 0, 1]⟩))
          (← part .transposed (ofInts ⟨[2, 2], [1, 2, 3, 4, 5]⟩))) =
      pure (ofInts ⟨[2, 2], [5, 3, 2, 4]⟩) := ⟨rfl, rfl⟩

end Datum

end Patchwork
