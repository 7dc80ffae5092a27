import Patchwork.Proofs.Tensor.Reduction
import Patchwork.Proofs.Tensor.Selection
import Mathlib.Algebra.Order.BigOperators.Group.List

/-!
# Tensors joined along an axis

Tensors are joined block by block: for every place of the dimensions before the axis, the elements
behind it are taken from one tensor after the other. If the tensors are tables that agree in every
other dimension, the outcome is the table of their functions side by side along the axis.
-/

namespace Patchwork

open List Shape Slice

/-- A condition of the arguments does not hold. -/
def Fault.IsViolation : Fault → Prop
  | .violated _ => True
  | _ => False

/-! ## Places of joined shapes -/

namespace Shape

variable {s : Shape}

theorem places_append (s s' : Shape) :
    places (s ++ s') = s.places.flatMap fun js => s'.places.map (js ++ ·) := by
  induction s with
  | nil => simp [places, Tensor.choices]
  | cons d s ih =>
    rw [cons_append, places_cons, ih, places_cons]
    simp [flatMap_assoc, flatMap_map, map_flatMap, Function.comp_def]

theorem map_placeAt (h : ∀ d ∈ s, 0 < d) :
    (Slice.progression 0 s.size 1).map (fun i => s.placeAt i.toNat) = s.places := by
  rw [progression_zero, ← length_places h, map_map]
  refine ext_getElem (by simp) fun k hk _ => ?_
  have hk : k < s.places.length := by simpa using hk
  simp [placeAt_of_getElem? (getElem?_eq_getElem hk)]

end Shape

namespace Slice

theorem progression_add {m n : Int} (hm : 0 ≤ m) (hn : 0 ≤ n) :
    progression 0 (m + n) 1 = progression 0 m 1 ++ (progression 0 n 1).map (m + ·) := by
  obtain ⟨m, rfl⟩ := Int.eq_ofNat_of_zero_le hm
  obtain ⟨n, rfl⟩ := Int.eq_ofNat_of_zero_le hn
  have hs : ((m : Int) + n).toNat = m + n := by omega
  simp [progression_zero, hs, range_add]

end Slice

/-! ## Functions on places side by side -/

namespace Tensor

section Joined

variable {α : Type} {k : Nat} {d i : Int} {os is : List Int} {before after : Shape}
  {parts : List (Int × (List Int → α))}

/-- One function on places up to an extent along an axis, and another one behind it. -/
def beside (k : Nat) (d : Int) (f f' : List Int → α) (is : List Int) : α :=
  if is.getD k 0 < d then f is else f' (is.set k (is.getD k 0 - d))

theorem beside_of_lt {f f' : List Int → α} (ho : os.length = k) (hi : i < d) :
    beside k d f f' (os ++ i :: is) = f (os ++ i :: is) := by
  simp [beside, ← ho, hi]

theorem beside_add {f f' : List Int → α} (ho : os.length = k) (hi : 0 ≤ i) :
    beside k d f f' (os ++ (d + i) :: is) = f' (os ++ i :: is) := by
  have hb : ¬ d + i < d := by omega
  have hs : d + i - d = i := by omega
  simp [beside, ← ho, hb, hs]

/-- Functions on places side by side along an axis, each with its extent there. -/
def joined [Inhabited α] (k : Nat) (parts : List (Int × (List Int → α))) : List Int → α :=
  parts.foldr (fun p => beside k p.1 p.2) fun _ => default

def span (parts : List (Int × (List Int → α))) : Int := (parts.map Prod.fst).sum

@[simp] theorem span_cons (p : Int × (List Int → α)) (parts : List (Int × (List Int → α))) :
    span (p :: parts) = p.1 + span parts := by simp [span]

@[simp] theorem span_append (pre post : List (Int × (List Int → α))) :
    span (pre ++ post) = span pre + span post := by simp [span]

theorem span_nonneg (h : ∀ p ∈ parts, 0 < p.1) : 0 ≤ span parts :=
  sum_nonneg (forall_mem_map.2 fun p hp => (h p hp).le)

theorem span_pos (hn : parts ≠ []) (h : ∀ p ∈ parts, 0 < p.1) : 0 < span parts := by
  obtain ⟨p, rest, rfl⟩ := exists_cons_of_ne_nil hn
  obtain ⟨hp, hr⟩ := forall_mem_cons.1 h
  rw [span_cons]
  exact Int.add_pos_of_pos_of_nonneg hp (span_nonneg hr)

variable [Inhabited α]

/-- A part is found behind those that precede it. -/
theorem joined_at (ho : os.length = k) {pre post : List (Int × (List Int → α))}
    (hr : ∀ p ∈ pre, 0 < p.1) {f : List Int → α} (hl : 0 ≤ i) (hh : i < d) :
    joined k (pre ++ (d, f) :: post) (os ++ (span pre + i) :: is) = f (os ++ i :: is) := by
  induction pre with
  | nil =>
    simp [joined, span, beside_of_lt ho hh]
  | cons p pre ih =>
    obtain ⟨hp, hr⟩ := forall_mem_cons.1 hr
    have hs := span_nonneg hr
    rw [span_cons, Int.add_assoc]
    exact (beside_add ho (by omega)).trans (ih hr)

/-- The elements of all parts behind a place of the dimensions before the axis. -/
theorem flatMap_joined (ho : os.length = k) (ht : ∀ p ∈ parts, 0 < p.1) (after : Shape) :
    (parts.flatMap fun p => (Shape.places (p.1 :: after)).map fun is => p.2 (os ++ is)) =
      (Shape.places (span parts :: after)).map fun is => joined k parts (os ++ is) := by
  induction parts with
  | nil => simp [span, places_cons, progression_zero]
  | cons p parts ih =>
    obtain ⟨hp, ht⟩ := forall_mem_cons.1 ht
    rw [flatMap_cons, ih ht, span_cons, places_cons, places_cons, places_cons,
      progression_add hp.le (span_nonneg ht)]
    simp only [flatMap_append, map_append, flatMap_map, map_flatMap, map_map]
    congr 1
    · refine flatMap_congr fun i hi => map_congr_left fun is _ => ?_
      exact (beside_of_lt ho (mem_progression_zero.1 hi).2).symm
    · refine flatMap_congr fun i hi => map_congr_left fun is _ => ?_
      exact (beside_add ho (mem_progression_zero.1 hi).1).symm

end Joined

/-! ## Blocks -/

section Blocks

variable {α β : Type} {before rest after : Shape} {f : List Int → α}

/-- The elements of a table at one place of the leading dimensions stand together. -/
theorem between_block (hb : ∀ d ∈ before, 0 < d) (hr : ∀ d ∈ rest, 0 < d) {o : Int}
    (ho : 0 ≤ o ∧ o < before.size) :
    Sequence.between (tabulate (before ++ rest) f).values (o * rest.size)
        (o * rest.size + rest.size) = rest.places.map fun is => f (before.placeAt o.toNat ++ is) := by
  have hv : (tabulate (before ++ rest) f).values = (tabulate (before.size :: rest) fun is =>
      f (before.placeAt (is.headD 0).toNat ++ is.tail)).values := by
    simp only [tabulate, places_append, places_cons]
    rw [← map_placeAt hb]
    simp [flatMap_map, map_flatMap, Function.comp_def]
  rw [hv, between_tabulate (size_pos hb) hr ho]
  rfl

theorem forIn_checks {γ : Type} {P : γ → Prop} [DecidablePred P] {e : Fault} (xs : List γ)
    {step : γ → PUnit → Except Fault (ForInStep PUnit)}
    (hs : ∀ x, step x .unit = if P x then .ok (.yield .unit) else .error e) :
    forIn xs PUnit.unit step = if ∀ x ∈ xs, P x then .ok .unit else .error e := by
  induction xs with
  | nil => simp [pure, Except.pure]
  | cons x xs ih =>
    rw [forIn_cons, hs]
    by_cases hx : P x
    · simp [hx, bind, Except.bind, ih]
    · simp [hx, bind, Except.bind]

theorem blocks_joined [Inhabited β] (g : β → α) {parts : List (Int × (List Int → β))}
    (hb : ∀ d ∈ before, 0 < d) (hf : ∀ d ∈ after, 0 < d) (hp : ∀ q ∈ parts, 0 < q.1) :
    ((upTo before.size).flatMap fun o => parts.flatMap fun q =>
        Sequence.between (tabulate (before ++ q.1 :: after) fun is => g (q.2 is)).values
          (o * q.1 * after.size) (o * q.1 * after.size + q.1 * after.size)) =
      (Shape.places (before ++ span parts :: after)).map fun is =>
        g (joined before.length parts is) := by
  have hl : ∀ o ∈ upTo before.size, (parts.flatMap fun q =>
      Sequence.between (tabulate (before ++ q.1 :: after) fun is => g (q.2 is)).values
        (o * q.1 * after.size) (o * q.1 * after.size + q.1 * after.size)) =
      (Shape.places (span parts :: after)).map fun is =>
        g (joined before.length parts (before.placeAt o.toNat ++ is)) := by
    intro o ho
    have hs : (before.placeAt o.toNat).length = before.length :=
      length_of_mem_places (placeAt_mem hb o.toNat)
    have ha : ∀ q ∈ parts, Sequence.between
        (tabulate (before ++ q.1 :: after) fun is => g (q.2 is)).values
        (o * q.1 * after.size) (o * q.1 * after.size + q.1 * after.size) =
          ((Shape.places (q.1 :: after)).map fun is => q.2 (before.placeAt o.toNat ++ is)).map g := by
      intro q hq
      have hr : ∀ d ∈ q.1 :: after, 0 < d := forall_mem_cons.2 ⟨hp q hq, hf⟩
      rw [Int.mul_assoc, ← size_cons, between_block hb hr (mem_progression_zero.1 ho), map_map]
      rfl
    rw [flatMap_congr ha, ← map_flatMap, flatMap_joined hs hp, map_map]
    rfl
  rw [flatMap_congr hl, places_append, map_flatMap, ← map_placeAt hb, flatMap_map]
  simp [upTo, Function.comp_def]

/-- Tensors that can be joined along an axis: they agree in every other dimension. -/
def Joins (k : Nat) (t u : Tensor α) : Prop :=
  t.rank = u.rank ∧ ∀ m, m ≠ k → t.shape[m]? = u.shape[m]?

theorem joins_iff {k : Nat} {t u : Tensor α} :
    t.Joins k u ↔ t.rank = u.rank ∧ t.shape.eraseIdx k = u.shape.eraseIdx k := by
  refine and_congr_right fun hr => ⟨fun h => ?_, fun h m hm => ?_⟩
  · refine ext_getElem? fun m => ?_
    rw [getElem?_eraseIdx, getElem?_eraseIdx]
    split
    · exact h m (by omega)
    · exact h (m + 1) (by omega)
  · rcases Nat.lt_or_gt_of_ne hm with hm | hm
    · have := congrArg (·[m]?) h
      simpa [getElem?_eraseIdx, hm] using this
    · obtain ⟨m, rfl⟩ : ∃ m', m = m' + 1 := ⟨m - 1, by omega⟩
      have := congrArg (·[m]?) h
      simpa [getElem?_eraseIdx, show ¬ m < k by omega] using this

theorem Joins.symm {k : Nat} {t u : Tensor α} (h : t.Joins k u) : u.Joins k t :=
  ⟨h.1.symm, fun m hm => (h.2 m hm).symm⟩

theorem Joins.trans {k : Nat} {t u v : Tensor α} (h : t.Joins k u) (h' : u.Joins k v) : t.Joins k v :=
  ⟨h.1.trans h'.1, fun m hm => (h.2 m hm).trans (h'.2 m hm)⟩

def extent (k : Nat) (t : Tensor α) : Int := t.shape.getD k 0

/-- Where a tensor begins along the axis: behind those that precede it. -/
def offset (k : Nat) (ts : List (Tensor α)) (i : Nat) : Int := ((ts.take i).map (extent k)).sum

theorem Joins.shape_eq {k : Nat} {t u : Tensor α} (h : t.Joins k u) (hk : k < u.rank) :
    t.shape = u.shape.take k ++ t.extent k :: u.shape.drop (k + 1) := by
  have hk' : k < t.shape.length := by
    have := h.1
    simp only [rank] at this hk
    omega
  have ht : t.shape.take k = u.shape.take k := ext_getElem? fun m => by grind [h.2 m]
  have hd : t.shape.drop (k + 1) = u.shape.drop (k + 1) :=
    ext_getElem? fun m => by simpa using h.2 (k + 1 + m) (by omega)
  rw [← ht, ← hd, extent, getD_eq_getElem _ _ hk', cons_getElem_drop_succ, take_append_drop]

variable [Element α]

/-- The tensors joined along an axis, once the axis has been found. -/
theorem concat_eq {first : Tensor α} {ts : List (Tensor α)} (ht : ts.head? = some first) {k : Nat}
    (hk : k < first.rank) {axis : Int} (ha : axis = k ∨ axis = k - first.rank) :
    concat ts axis =
      if ∀ t ∈ ts, t.rank = first.rank ∧ t.shape.eraseIdx k = first.shape.eraseIdx k then
        build ((upTo (Shape.size (first.shape.take k))).flatMap fun o => ts.flatMap fun t =>
            Sequence.between t.values (o * t.shape.getD k 0 * Shape.size (first.shape.drop (k + 1)))
              (o * t.shape.getD k 0 * Shape.size (first.shape.drop (k + 1)) +
                t.shape.getD k 0 * Shape.size (first.shape.drop (k + 1))))
          (first.shape.set k ((ts.map fun t => t.shape.getD k 0).foldl (· + ·) 0))
      else .error (.violated .unstated) := by
  obtain ⟨others, rfl⟩ : ∃ others, ts = first :: others := head?_eq_some_iff.1 ht
  have hn : (if axis < 0 then axis + first.rank else axis) = k := by
    split <;> omega
  have hb : 0 ≤ (k : Int) ∧ (k : Int) < first.rank := by omega
  rw [concat]
  simp only [hn, Int.toNat_natCast, if_pos hb]
  rw [forIn_checks (e := .violated .unstated)
    (P := fun t => t.rank = first.rank ∧ t.shape.eraseIdx k = first.shape.eraseIdx k)]
  · split <;> rfl
  · intro t
    split <;> rfl

/-- Tensors that do not agree in the other dimensions are refused. -/
theorem concat_violation {first : Tensor α} {ts : List (Tensor α)} (hs : ts.head? = some first)
    {k : Nat} (hk : k < first.rank) {axis : Int} (hx : axis = k ∨ axis = k - first.rank)
    (h : ∃ t ∈ ts, ∃ u ∈ ts, ¬ t.Joins k u) : concat ts axis = .error (.violated .unstated) := by
  rw [concat_eq hs hk hx, if_neg]
  intro ha
  obtain ⟨t, ht, u, hu, hc⟩ := h
  exact hc ((joins_iff.2 (ha t ht)).trans (joins_iff.2 (ha u hu)).symm)

theorem concat_tabulate [Inhabited β] {g : β → α} (hg : ∀ x, IsSingle (g x))
    (hb : ∀ d ∈ before, 0 < d) (ha : ∀ d ∈ after, 0 < d)
    {parts : List (Int × (List Int → β))} (hn : parts ≠ []) (hp : ∀ q ∈ parts, 0 < q.1)
    {axis : Int} (hx : axis = before.length ∨
      axis = before.length - (before ++ span parts :: after).length) :
    concat (parts.map fun q => tabulate (before ++ q.1 :: after) fun is => g (q.2 is)) axis =
      .ok (tabulate (before ++ span parts :: after) fun is => g (joined before.length parts is)) := by
  obtain ⟨p, rest, rfl⟩ := exists_cons_of_ne_nil hn
  have ho : ∀ d ∈ before ++ span (p :: rest) :: after, 0 < d := by
    simpa [or_imp, forall_and] using ⟨hb, span_pos hn hp, ha⟩
  have hs : (before ++ p.1 :: after).set before.length
      (((p :: rest).map Prod.fst).foldl (· + ·) 0) = before ++ span (p :: rest) :: after := by
    rw [span, sum_eq_foldl]
    simp
  have hf : ((p :: rest).map fun q => tabulate (before ++ q.1 :: after) fun is =>
      g (q.2 is)).head? = some (tabulate (before ++ p.1 :: after) fun is => g (p.2 is)) := rfl
  have he : ∀ d : Int, (before ++ d :: after).getD before.length 0 = d := by simp
  have hk : (before ++ p.1 :: after).take before.length = before := by simp
  have hd : (before ++ p.1 :: after).drop (before.length + 1) = after := by simp
  rw [concat_eq (k := before.length) hf (by simp [rank]) (by simpa [rank] using hx), if_pos]
  · simp only [map_map, flatMap_map, shape_tabulate, he, hk, hd, Function.comp_def]
    rw [blocks_joined g hb ha hp, hs]
    exact build_tabulate ho (by simp) fun is _ => hg _
  · intro t ht
    obtain ⟨q, -, rfl⟩ := mem_map.1 ht
    simp [rank, eraseIdx_append_of_length_le]

end Blocks

end Tensor

end Patchwork
