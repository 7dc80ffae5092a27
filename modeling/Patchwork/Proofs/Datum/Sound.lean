import Patchwork.Proofs.Datum.Diagonal
import Patchwork.Proofs.Datum.Shapes
import Patchwork.Proofs.Tensor.Concat

/-!
# Sound tensors

A tensor is sound if no extent is negative, if there is one element for every place, and if all
elements are numbers. Nothing in the type of tensors says so: every operation has to lay out as many
numbers as the new shape has room for, whatever its arguments. Three do not: a reshaped tensor may
have negative extents, a transposed one leaves places empty if an axis is repeated, and the diagonal
matrix of a tensor holds tensors.
-/

namespace Patchwork

open Sequence Tensor List Shape

namespace Shape

variable {s : Shape}

theorem size_append (s t : Shape) : size (s ++ t) = s.size * t.size := by simp [size_eq_prod]

theorem size_nonneg (h : ∀ d ∈ s, 0 ≤ d) : 0 ≤ s.size := by
  rw [size_eq_prod]
  exact prod_nonneg h

end Shape

namespace Sequence

variable {α : Type} {xs : List α} {i n : Int} {x : α}

theorem length_between (xs : List α) (hi : 0 ≤ i) (hn : 0 ≤ n) (h : i + n ≤ xs.length) :
    ((between xs i (i + n)).length : Int) = n := by
  obtain ⟨i, rfl⟩ := Int.eq_ofNat_of_zero_le hi
  obtain ⟨n, rfl⟩ := Int.eq_ofNat_of_zero_le hn
  norm_cast at h ⊢
  rw [between_natCast _ _ _ h, length_take, length_drop]
  omega

theorem between_subset (xs : List α) (i j : Int) : between xs i j ⊆ xs :=
  fun _ h => mem_of_mem_drop (mem_of_mem_take h)

theorem mem_of_at (h : Sequence.at xs i = .ok x) : x ∈ xs := by
  have hm := spares_at xs i
  rwa [h] at hm

end Sequence

namespace Tensor

open Datum (scalar)

/-- A sound tensor: extents that are not negative, one element for every place, and numbers as
elements. -/
structure Sound (t : Tensor Datum) : Prop where
  nonneg : ∀ d ∈ t.shape, 0 ≤ d
  length : (t.values.length : Int) = t.size
  numbers : ∀ v ∈ t.values, v.isNumber

variable {t u : Tensor Datum} {s : Shape} {values : List Datum}

theorem exists_scalars (h : ∀ v ∈ values, v.isNumber) :
    ∃ xs : List Scalar, values = xs.map scalar := by
  induction values with
  | nil => exact ⟨[], rfl⟩
  | cons v values ih =>
    obtain ⟨hv, hl⟩ := forall_mem_cons.1 h
    obtain ⟨xs, rfl⟩ := ih hl
    cases v <;> first | exact ⟨_ :: xs, rfl⟩ | cases hv

theorem sound_single (x : Scalar) : Sound ⟨[], [scalar x]⟩ :=
  ⟨by simp, rfl, by simp [Datum.isNumber]⟩

/-- **Numbers are laid out soundly** under a shape with room for them, unless an extent is
negative. -/
theorem sound_build_iff (hl : (values.length : Int) = s.size)
    (hn : ∀ v ∈ values, v.isNumber) (h : build values s = .ok u) :
    (u.Sound ↔ ∀ d ∈ u.shape, 0 ≤ d) ∧ ((∀ d ∈ s, 0 ≤ d) → u.Sound) := by
  obtain ⟨xs, rfl⟩ := exists_scalars hn
  rw [Datum.build_scalars] at h
  split_ifs at h <;> cases h
  · have ho : Sound ⟨[(xs.length : Int)], xs.map scalar⟩ := ⟨by simp, by simp [size], hn⟩
    exact ⟨⟨Sound.nonneg, fun _ => ho⟩, fun _ => ho⟩
  · exact ⟨⟨Sound.nonneg, fun hs => ⟨hs, hl, hn⟩⟩, fun hs => ⟨hs, hl, hn⟩⟩

theorem Sound.flatten (h : t.Sound) (hu : t.flatten = .ok u) : u.Sound := by
  have hl : closedShape t.size [-1] = .ok [t.size] := by simp [closedShape]
  obtain ⟨c, hc, hb⟩ := bind_ok hu
  cases hl.symm.trans hc
  split_ifs at hb
  · cases hb
  · exact (sound_build_iff (by simpa using h.length) h.numbers hb).2
      (forall_mem_singleton.2 (size_nonneg h.nonneg))

/-! ## Selecting -/

theorem Sound.asTensor {d : Datum} (h : d.isNumber) (hu : Element.asTensor d = .ok u) :
    u.Sound := by
  cases d <;> cases h
  cases hu
  exact sound_single _

theorem length_choices (ls : List (List Int)) :
    ((choices ls).length : Int) = Shape.size (ls.map fun l => (l.length : Int)) := by
  induction ls with
  | nil => rfl
  | cons l ls ih => simp [choices, ← ih]

/-- An index picks one position, so the dimensions that keys keep have room for all choices. -/
theorem size_kept {keys : List Key} {keyed : List (List Int)}
    (h : List.Forall₂ (fun key is => Key.keeps key = false → is.length = 1) keys keyed) :
    Shape.size ((keys.zip keyed).filterMap fun (key, is) =>
      if Key.keeps key then some (is.length : Int) else none) =
      Shape.size (keyed.map fun is => (is.length : Int)) := by
  induction h with
  | nil => rfl
  | @cons key is keys keyed he _ ih =>
    rw [zip_cons_cons, map_cons, size_cons, ← ih]
    cases hk : Key.keeps key with
    | true => simp [hk]
    | false => simp [hk, he hk]

theorem length_keyPositions {key : Key} {k : Nat} {n : Int} {is : List Int}
    (h : keyPositions key k n = .ok is) (hk : Key.keeps key = false) : is.length = 1 := by
  cases key <;> cases hk
  all_goals
    obtain ⟨i, -, hi⟩ := bind_ok h
    cases hi
    rfl

/-- **There are as many choices as the selected shape has room for.** -/
theorem length_selected {keys : List Key} {chosen : List (List Int)} (hs : ∀ d ∈ s, 0 ≤ d)
    (h : selections s keys = .ok chosen) :
    ((choices chosen).length : Int) = Shape.size (selectedShape s keys chosen) := by
  obtain ⟨keyed, hk, hc⟩ := bind_ok h
  cases hc
  have ho : List.Forall₂ (fun key is => Key.keeps key = false → is.length = 1) keys keyed := by
    rw [← zipIdx_map_fst 0 keys, forall₂_map_left_iff]
    refine (mapM_ok_iff.1 hk).imp fun p is his => ?_
    dsimp only at his
    split at his
    · cases his
    · exact length_keyPositions his
  have hw : ((s.drop keys.length).map fun n => Slice.progression 0 n 1).map
      (fun l => (l.length : Int)) = s.drop keys.length := by
    rw [map_map]
    refine (map_congr_left fun d hd => ?_).trans (map_id _)
    simpa [Slice.progression_zero] using hs d (mem_of_mem_drop hd)
  have hz := @zip_append _ _ keys [] _ ((s.drop keys.length).map fun n =>
    Slice.progression 0 n 1) ho.length_eq
  rw [append_nil, zip_nil_left, append_nil] at hz
  rw [length_choices, map_append, hw, Shape.size_append, selectedShape, Shape.size_append,
    ← size_kept ho, hz]

theorem Sound.select (h : t.Sound) {keys : List Key} (hu : t.select keys = .ok u) : u.Sound := by
  rw [Tensor.select] at hu
  split_ifs at hu
  · cases hu
  obtain ⟨chosen, hc, hu⟩ := bind_ok hu
  obtain ⟨picked, hi, hu⟩ := bind_ok hu
  have hl := (congrArg Nat.cast (mapM_ok_iff.1 hi).length_eq.symm).trans
    (length_selected h.nonneg hc)
  have hm := Fault.Spares.mapM fun is (_ : is ∈ choices chosen) =>
    spares_at t.values (t.shape.position is)
  rw [hi] at hm
  have hn : ∀ v ∈ picked, v.isNumber := fun v hv => h.numbers v (hm v hv)
  split at hu
  · obtain ⟨v, hv, hu⟩ := bind_ok hu
    exact .asTensor (hn v (mem_of_at hv)) hu
  · refine (sound_build_iff hl hn hu).2 fun d hd => ?_
    obtain hd | hd := mem_append.1 hd
    · obtain ⟨p, -, hp⟩ := mem_filterMap.1 hd
      dsimp only at hp
      split_ifs at hp
      cases hp
      exact Int.natCast_nonneg _
    · exact h.nonneg d (mem_of_mem_drop hd)

theorem Sound.indexBy (h : t.Sound) {place : Int → Except Fault Int}
    (hp : ∀ n i, place n = .ok i → 0 ≤ i ∧ i < n) (hu : t.indexBy place = .ok u) : u.Sound := by
  obtain ⟨_ | ⟨n, inner⟩, values⟩ := t
  · cases hu
  obtain ⟨i, hi, hu⟩ := bind_ok hu
  obtain ⟨hl, hh⟩ := hp n i hi
  have hn := (forall_mem_cons.1 h.nonneg).2
  have hs := size_nonneg hn
  have hr : (values.length : Int) = n * Shape.size inner := h.length.trans (size_cons n inner)
  have he := length_between values (mul_nonneg hl hs) hs (by nlinarith)
  have hnu : ∀ v ∈ between values (i * Shape.size inner)
      (i * Shape.size inner + Shape.size inner), v.isNumber :=
    fun v hv => h.numbers v (between_subset _ _ _ hv)
  obtain _ | ⟨m, inner⟩ := inner
  · obtain ⟨v, hv, hu⟩ := bind_ok hu
    exact .asTensor (hnu v (mem_of_at hv)) hu
  · exact (sound_build_iff he hnu hu).2 hn

/-! ## Full tensors -/

theorem sound_of_build_nil (h : build ([] : List Datum) s = .ok u) : u.Sound := by
  obtain _ | ⟨d, s⟩ := s
  · cases h
    exact ⟨by simp, rfl, forall_mem_nil _⟩
  · cases h

/-- A sound tensor with elements is full. -/
theorem Sound.full (h : t.Sound) (hv : t.values ≠ []) : t.Full where
  positive := by
    intro d hd
    refine lt_of_le_of_ne (h.nonneg d hd) fun h0 => hv (length_eq_zero_iff.1 ?_)
    have hl := h.length
    rw [size, size_eq_prod, prod_eq_zero (h0 ▸ hd)] at hl
    exact_mod_cast hl
  length := h.length

theorem Sound.isSingle (h : t.Sound) : ∀ v ∈ t.values, IsSingle v := by
  obtain ⟨xs, hx⟩ := exists_scalars h.numbers
  rw [hx]
  exact forall_mem_map.2 fun x _ => Datum.isSingle_scalar x

theorem Sound.entry_isSingle (h : t.Sound) (ht : t.Full) {is : List Int}
    (his : is ∈ t.shape.places) : IsSingle (t.entry is) := by
  refine h.isSingle _ ?_
  rw [congrArg values ht.eq_tabulate]
  exact mem_map_of_mem his

/-- **The pairs of two sound tensors** are pairs of numbers, one for every place of the common
shape. -/
theorem Sound.aligned {a b : Tensor Datum} (ha : a.Sound) (hb : b.Sound)
    {r : Shape × List (Datum × Datum)} (h : a.aligned b = .ok r) :
    (∀ p ∈ r.2, p.1.isNumber ∧ p.2.isNumber) ∧
      (r.2 ≠ [] → (∀ d ∈ r.1, 0 < d) ∧ (r.2.length : Int) = r.1.size) := by
  have hw := h
  rw [aligned_eq_widened] at hw
  obtain ⟨c, hc, hw⟩ := bind_ok hw
  obtain ⟨hac, hbc, ho⟩ := expands_of_broadcast hc
  obtain ⟨u, hu, hw⟩ := bind_ok hw
  obtain ⟨v, hv, hw⟩ := bind_ok hw
  cases hw
  have hua := spares_expand ha.nonneg hac
  have hvb := spares_expand hb.nonneg hbc
  rw [hu] at hua
  rw [hv] at hvb
  have hm : ∀ p ∈ u.values.zip v.values, p.1 ∈ a.values ∧ p.2 ∈ b.values := fun p hp =>
    (of_mem_zip hp).imp (hua.2 ·) (hvb.2 ·)
  refine ⟨fun p hp => (hm p hp).imp (ha.numbers _) (hb.numbers _), fun hn => ?_⟩
  obtain ⟨p, hp⟩ := exists_mem_of_ne_nil _ hn
  have hf := ha.full (ne_nil_of_mem (hm p hp).1)
  have hbfu := hb.full (ne_nil_of_mem (hm p hp).2)
  have ht := aligned_tabulate hc hf.positive hbfu.positive
    (fun _ => ha.entry_isSingle hf) (fun _ => hb.entry_isSingle hbfu)
  rw [← hf.eq_tabulate, ← hbfu.eq_tabulate, h] at ht
  obtain ⟨-, hr⟩ := Prod.mk.inj (Except.ok.inj ht)
  have hs := ho hf.positive hbfu.positive
  refine ⟨hs, ?_⟩
  rw [hr, length_map, length_places hs]
  exact Int.toNat_of_nonneg (size_pos hs).le

/-- Transposing has nothing to lay out without elements. -/
theorem build_of_transpose {axes : List Int} (ht : t.values = []) (h : t.transpose axes = .ok u) :
    ∃ s, build [] s = .ok u := by
  rw [transpose] at h
  generalize (if axes.isEmpty then reversedAxes t.rank else axes) = axes at h
  split at h
  · cases h
  split at h
  · cases h
  obtain ⟨s, -, h⟩ := bind_ok h
  obtain ⟨moved, hm, h⟩ := bind_ok h
  rw [ht] at hm
  cases hm
  exact ⟨s, h⟩

/-- **A tensor transposed by a permutation is sound.** -/
theorem Sound.transpose (h : t.Sound) {n : Nat} (hn : t.rank = n) {axes : List Int}
    (ha : axes = [] ∨ ∃ σ : Equiv.Perm (Fin n), axes = axesOf σ)
    (hu : t.transpose axes = .ok u) : u.Sound := by
  by_cases hl : t.values = []
  · obtain ⟨s, hs⟩ := build_of_transpose hl hu
    exact sound_of_build_nil hs
  have hf := h.full hl
  obtain rfl | hp := n.eq_zero_or_pos
  · obtain ⟨s, values⟩ := t
    cases length_eq_zero_iff.1 hn
    obtain ⟨xs, rfl⟩ := exists_scalars h.numbers
    have ho : xs.length = 1 := by simpa [size] using h.length
    obtain ⟨x, rfl⟩ := length_eq_one_iff.1 ho
    have hno : axes = [] := by
      obtain hno | ⟨σ, rfl⟩ := ha
      · exact hno
      · exact length_eq_zero_iff.1 (length_axesOf σ)
    have hg : (⟨[], [scalar x]⟩ : Tensor Datum).transpose [] = .ok ⟨[1], [scalar x]⟩ := rfl
    cases hg.symm.trans (hno ▸ hu)
    exact ⟨by simp, rfl, h.numbers⟩
  · obtain ⟨v, hv⟩ := exists_mem_of_ne_nil _ hl
    have hb : t.Built := ⟨⟨v, hv, h.numbers v hv⟩, fun v hv => (h.isSingle v hv).noSequence⟩
    obtain ⟨σ, hσ⟩ : ∃ σ : Equiv.Perm (Fin n), t.transpose axes = t.transpose (axesOf σ) := by
      obtain rfl | ⟨σ, rfl⟩ := ha
      · exact ⟨_, transpose_nil hn hp⟩
      · exact ⟨σ, rfl⟩
    rw [hf.eq_tabulate] at hb
    have ht := transpose_tabulate (σ := σ) hf.positive hn hp hb
    rw [← hf.eq_tabulate, ← hσ, hu] at ht
    cases ht
    have hps := rearranged_positive (σ := σ) hn hf.positive
    refine ⟨fun d hd => (hps d hd).le, (full_tabulate hps _).length, fun v hv => ?_⟩
    have hm := (mem_values_rearranged hn).1 hv
    rw [← hf.eq_tabulate] at hm
    exact h.numbers v hm

/-! ## Joining -/

/-- Joining takes an axis in bounds, counted from either end. -/
theorem concat_axis {first : Tensor Datum} {others : List (Tensor Datum)} {axis : Int}
    (h : concat (first :: others) axis = .ok u) :
    ∃ k < first.rank, axis = k ∨ axis = k - first.rank := by
  rw [concat] at h
  generalize hp : (if axis < 0 then axis + first.rank else axis) = place at h
  by_cases hb : 0 ≤ place ∧ place < first.rank
  · refine ⟨place.toNat, by omega, ?_⟩
    split_ifs at hp <;> omega
  · rw [if_neg hb] at h
    cases h

theorem Sound.extent_nonneg (h : t.Sound) (k : Nat) : 0 ≤ t.extent k := by
  rw [extent, getD_eq_getElem?_getD]
  cases hk : t.shape[k]? with
  | none => rfl
  | some d => exact h.nonneg d (mem_of_getElem? hk)

theorem natCast_length_flatMap {α β : Type} {xs : List α} {f : α → List β} {c : α → Int}
    (h : ∀ x ∈ xs, ((f x).length : Int) = c x) :
    ((xs.flatMap f).length : Int) = (xs.map c).sum := by
  rw [length_flatMap, Nat.cast_list_sum, map_map]
  exact congrArg _ (map_congr_left h)

theorem Sound.concat {ts : List (Tensor Datum)} (h : ∀ t ∈ ts, t.Sound) {axis : Int}
    (hu : concat ts axis = .ok u) : u.Sound := by
  obtain _ | ⟨first, others⟩ := ts
  · cases hu
  obtain ⟨k, hk, hx⟩ := concat_axis hu
  rw [concat_eq rfl hk hx] at hu
  split_ifs at hu with ha
  have hf := (h first mem_cons_self).nonneg
  have hout := size_nonneg fun d (hd : d ∈ first.shape.take k) => hf d (mem_of_mem_take hd)
  have hi := size_nonneg fun d (hd : d ∈ first.shape.drop (k + 1)) =>
    hf d (mem_of_mem_drop hd)
  have hs : first.shape.set k (((first :: others).map fun t => t.shape.getD k 0).foldl
      (· + ·) 0) = first.shape.take k ++ ((first :: others).map (extent k)).sum ::
        first.shape.drop (k + 1) := by
    rw [set_eq_take_append_cons_drop, sum_eq_foldl]
    exact if_pos hk
  rw [hs] at hu
  refine (sound_build_iff ?_ ?_ hu).2 ?_
  · refine (natCast_length_flatMap fun o ho => natCast_length_flatMap (c :=
      fun t => extent k t * Shape.size (first.shape.drop (k + 1))) fun t ht => ?_).trans ?_
    · have hb := mul_nonneg ((h t ht).extent_nonneg k) hi
      have hr : (t.values.length : Int) = Shape.size (first.shape.take k) *
          (t.extent k * Shape.size (first.shape.drop (k + 1))) := by
        rw [(h t ht).length, size, (joins_iff.2 (ha t ht)).shape_eq hk, Shape.size_append,
          size_cons]
      obtain ⟨hl, hh⟩ := Slice.mem_progression_zero.1 ho
      have hft : o * (t.extent k * Shape.size (first.shape.drop (k + 1))) +
          t.extent k * Shape.size (first.shape.drop (k + 1)) ≤ t.values.length := by nlinarith
      rw [mul_assoc]
      exact length_between _ (mul_nonneg hl hb) hb hft
    · rw [Shape.size_append, size_cons, sum_map_mul_right, map_const', sum_replicate, upTo,
        Slice.progression_zero]
      simp [hout]
  · intro v hv
    obtain ⟨o, -, hv⟩ := mem_flatMap.1 hv
    obtain ⟨t, ht, hv⟩ := mem_flatMap.1 hv
    exact (h t ht).numbers v (between_subset _ _ _ hv)
  · intro d hd
    obtain hd | hd := mem_append.1 hd
    · exact hf d (mem_of_mem_take hd)
    · obtain rfl | hd := mem_cons.1 hd
      · exact sum_nonneg (forall_mem_map.2 fun t ht => (h t ht).extent_nonneg k)
      · exact hf d (mem_of_mem_drop hd)

/-! ## Summing -/

end Tensor

namespace Trace

variable {α β : Type} {t : Trace α} {p : α → Prop} {q : β → Prop}

/-- Something holds of every result of a trace, if there is one. -/
def Ensures (t : Trace α) (p : α → Prop) : Prop := ∀ ⦃g a g'⦄, t g = .ok (a, g') → p a

theorem Ensures.pure {a : α} (h : p a) : Ensures (Pure.pure a) p := by
  rintro g _ _ ⟨⟩
  exact h

theorem Ensures.throw (e : Fault) : Ensures (MonadExcept.throw e : Trace α) p := by
  rintro g _ _ ⟨⟩

theorem Ensures.bind {f : α → Trace β} (h : Ensures t p) (hf : ∀ a, p a → Ensures (f a) q) :
    Ensures (t >>= f) q := by
  intro g b g' hr
  obtain ⟨⟨a, g₁⟩, ht, hb⟩ := bind_ok hr
  exact hf a (h ht) hb

theorem Ensures.after {f : α → Trace β} (hf : ∀ a, Ensures (f a) q) : Ensures (t >>= f) q :=
  Ensures.bind (fun _ _ _ _ => trivial) fun a _ => hf a

theorem Ensures.map {f : α → β} (h : Ensures t (q <| f ·)) : Ensures (f <$> t) q := by
  exact h.bind fun a ha => .pure ha

theorem Ensures.lift {x : Except Fault α} (h : ∀ a, x = .ok a → p a) :
    Ensures (Fault.lift x : Trace α) p := by
  cases x with
  | error e => exact .throw e
  | ok a => exact .pure (h a rfl)

theorem Ensures.mapM {f : α → Trace β} {xs : List α} (h : ∀ x ∈ xs, Ensures (f x) q) :
    Ensures (xs.mapM f) fun ys => ys.length = xs.length ∧ ∀ y ∈ ys, q y := by
  induction xs with
  | nil => exact .pure ⟨rfl, forall_mem_nil q⟩
  | cons x xs ih =>
    obtain ⟨hx, hxs⟩ := forall_mem_cons.1 h
    rw [mapM_cons]
    exact hx.bind fun y hy => (ih hxs).bind fun ys hs =>
      .pure ⟨congrArg (· + 1) hs.1, forall_mem_cons.2 ⟨hy, hs.2⟩⟩

theorem Ensures.foldlM {f : β → α → Trace β} {xs : List α} {b : β}
    (h : ∀ x ∈ xs, ∀ b, q b → Ensures (f b x) q) (hb : q b) : Ensures (xs.foldlM f b) q := by
  induction xs generalizing b with
  | nil => exact .pure hb
  | cons x xs ih =>
    obtain ⟨hx, hs⟩ := forall_mem_cons.1 h
    exact (hx b hb).bind fun b' hb' => ih hs hb'

end Trace

namespace Datum

open Trace

/-- A sound datum: a number, numbers in a vector or quaternion, or a sound tensor. -/
def Sound : Datum → Prop
  | scalar _ => True
  | vector xs => ∀ x ∈ xs, x.isNumber
  | tensor shape values _ => Tensor.Sound ⟨shape, values⟩
  | quaternion w x y z => ∀ c ∈ [w, x, y, z], c.isNumber
  | _ => False

variable {a b d : Datum} {xs : List Datum} {t : Tensor Datum} {n : Nat} {o : Operator}

/-- An operand that fits a tensor is no quaternion, and the tensor it stands for is sound. -/
def Fits (d : Datum) : Prop :=
  (∀ w x y z, d ≠ quaternion w x y z) ∧ ∀ u, d.tensorOf = .ok u → u.Sound

/-- The extents of a tensor. -/
def extents : Datum → Shape
  | tensor shape _ _ => shape
  | _ => []

end Datum

end Patchwork
