import Patchwork.Proofs.Tensor.Broadcast
import Mathlib.Tactic.Linarith

/-!
# Selecting from tables

Keys select along the leading dimensions of a tensor. An index fixes one position and removes the
dimension, a slice keeps the dimension with the positions of its range, and a dimension without a
key is kept whole. What is selected from a table is a table again: its element at a place is the
element of the whole at the composed place, where the indices along kept dimensions are followed
to the positions that they stand for.
-/

namespace Patchwork

open Key List Shape

/-- An index names no element. -/
def Fault.IsExcess : Fault → Prop
  | .outside _ | .absentIndex => True
  | _ => False

/-! ## Ranges -/

namespace Slice

variable {start stop step i size : Int} {s : Slice}

/-- A progression lies between its ends, and does not reach the second one. -/
theorem mem_progression (h : i ∈ progression start stop step) :
    (0 < step → start ≤ i ∧ i < stop) ∧ (step < 0 → stop < i ∧ i ≤ start) := by
  obtain ⟨k, hk, rfl⟩ := mem_map.1 h
  rw [mem_range] at hk
  constructor
  · intro hs
    have hc := Int.ediv_mul_le (stop - start + step - 1) hs.ne'
    have hl : ((k : Int) + 1) * step ≤ (stop - start + step - 1) / step * step :=
      Int.mul_le_mul_of_nonneg_right (by omega) hs.le
    have ht : 0 ≤ step * k := Int.mul_nonneg hs.le k.cast_nonneg
    constructor <;> linarith
  · intro hs
    rw [if_pos hs] at hk
    have hc := Int.ediv_mul_le (start - stop - step - 1) (neg_ne_zero.2 hs.ne)
    have hl : ((k : Int) + 1) * -step ≤ (start - stop - step - 1) / -step * -step :=
      Int.mul_le_mul_of_nonneg_right (by omega) (by omega)
    have ht : 0 ≤ -step * k := Int.mul_nonneg (by omega) k.cast_nonneg
    constructor <;> linarith

/-- The positions that a slice selects among `size` of them; none if its step is zero. -/
def range (s : Slice) (size : Int) : List Int := (s.positions size).toOption.getD []

theorem positions_eq (ht : s.step ≠ some 0) (hz : 0 ≤ size) :
    s.positions size = .ok (s.range size) := by
  have hn : ¬ (s.step.getD 1 = 0 ∨ size < 0) := by
    rintro (h | h)
    · cases hs : s.step <;> simp_all
    · omega
  simp only [range, positions, if_neg hn]
  rfl

/-- A slice selects positions within the extent. -/
theorem mem_range (h : i ∈ s.range size) : 0 ≤ i ∧ i < size := by
  by_cases h0 : s.step.getD 1 = 0 ∨ size < 0
  · simp [range, positions, if_pos h0, Except.toOption] at h
  · simp only [range, positions, if_neg h0, Except.toOption, Option.getD_some] at h
    obtain ⟨hu, hd⟩ := mem_progression h
    rw [not_or] at h0
    rcases lt_or_gt_of_ne h0.1 with hs | hs
    · have hb := hd hs
      cases ht : s.start <;> cases hp : s.stop <;> simp only [ht, hp] at hb <;>
        omega
    · have hb := hu hs
      simp only [if_neg hs.not_gt] at hb
      cases ht : s.start <;> cases hp : s.stop <;> simp only [ht, hp] at hb <;>
        omega

end Slice

/-! ## Keys -/

namespace Key

variable {key : Key} {d i : Int}

/-- The index that a key names, if it names one. A truth value counts as 0 or 1. -/
def index? : Key → Option Int
  | .index i => some i
  | .flag b => some (if b then 1 else 0)
  | _ => none

/-- A key that can select: an index, or a slice whose step is not zero. -/
def Selects : Key → Prop
  | .slice s => s.step ≠ some 0
  | .foreign _ => False
  | _ => True

/-- The index of a key lies in an extent, counted from either end. -/
def Fits (d : Int) (key : Key) : Prop := ∀ i, key.index? = some i → -d ≤ i ∧ i < d

/-- The position in an extent that a key fixes: its index, counted from the end if negative. -/
def fixed (key : Key) (d : Int) : Int :=
  let i := key.index?.getD 0
  if i < 0 then i + d else i

def picks (d : Int) : Key → List Int
  | .slice s => s.range d
  | key => [key.fixed d]

theorem Selects.cases (h : key.Selects) :
    (∃ s, key = .slice s ∧ s.step ≠ some 0) ∨ ∃ i, key.index? = some i := by
  cases key with
  | index i => exact .inr ⟨i, rfl⟩
  | flag b => exact .inr ⟨_, rfl⟩
  | slice s => exact .inl ⟨s, rfl, h⟩
  | foreign given => exact h.elim

theorem selects_of_index (h : key.index? = some i) : key.Selects := by
  cases key <;> cases h <;> trivial

theorem picks_of_index (h : key.index? = some i) (d : Int) : key.picks d = [key.fixed d] := by
  cases key <;> cases h <;> rfl

theorem keeps_of_index (h : key.index? = some i) : Tensor.Key.keeps key = false := by
  cases key <;> cases h <;> rfl

theorem fixed_mem (h : key.index? = some i) (hf : key.Fits d) :
    0 ≤ key.fixed d ∧ key.fixed d < d := by
  have hi := hf i h
  simp only [fixed, h, Option.getD_some]
  split <;> omega

theorem mem_picks (hk : key.Selects) (hf : key.Fits d) {j : Int} (hj : j ∈ key.picks d) :
    0 ≤ j ∧ j < d := by
  obtain ⟨s, rfl, -⟩ | ⟨i, hi⟩ := hk.cases
  · exact Slice.mem_range hj
  · rw [picks_of_index hi, mem_singleton] at hj
    exact hj ▸ fixed_mem hi hf

open Tensor in
theorem keyPositions_eq (hk : key.Selects) (hf : key.Fits d) (hd : 0 ≤ d) (k : Nat) :
    keyPositions key k d = .ok (key.picks d) := by
  cases key with
  | index i =>
    rw [keyPositions, normalIndex, if_pos (hf i rfl)]
    rfl
  | flag b =>
    rw [keyPositions, flagIndex]
    simp only [if_pos (hf _ rfl)]
    cases b <;> rfl
  | slice s => exact Slice.positions_eq hk hd
  | foreign given => exact hk.elim

open Tensor in
theorem keyPositions_outside (hf : ¬ key.Fits d) (k : Nat) :
    ∃ e, keyPositions key k d = .error (.outside e) := by
  cases key with
  | index i =>
    have hi : ¬ (-d ≤ i ∧ i < d) := fun h => hf fun j hj => by cases hj; exact h
    rw [keyPositions, normalIndex, if_neg hi]
    exact ⟨_, rfl⟩
  | flag b =>
    have hi : ¬ (-d ≤ (if b then 1 else 0 : Int) ∧ (if b then 1 else 0 : Int) < d) :=
      fun h => hf fun j hj => by cases hj; exact h
    rw [keyPositions, flagIndex]
    simp only [if_neg hi]
    exact ⟨_, rfl⟩
  | slice s => exact absurd (fun i hi => by cases hi) hf
  | foreign given => exact absurd (fun i hi => by cases hi) hf

end Key

/-! ## Selections -/

namespace Tensor

variable {shape : Shape} {keys : List Key} {key : Key} {js : List Int} {d : Int}

/-- Keys exceed a shape: there are more keys than dimensions, or a key names an index that lies
outside the extent of its dimension. -/
def Exceeds (shape : Shape) (keys : List Key) : Prop :=
  shape.length < keys.length ∨
    ∃ (k : Nat) (key : Key) (d : Int), keys[k]? = some key ∧ shape[k]? = some d ∧ ¬ key.Fits d

/-- Every slice among the keys selects something. -/
def Catches (shape : Shape) (keys : List Key) : Prop :=
  ∀ (k : Nat) (s : Slice) (d : Int), keys[k]? = some (.slice s) → shape[k]? = some d →
    s.range d ≠ []

/-- The shape of what keys select: the lengths of the ranges of the slices, and then the
dimensions without a key. -/
def outline : Shape → List Key → Shape
  | d :: shape, .slice s :: keys => ((s.range d).length : Int) :: outline shape keys
  | _ :: shape, _ :: keys => outline shape keys
  | shape, _ => shape

/-- The place in the whole that a place of the selection stands for. Along a slice an index is
followed to the position that it has in the range. -/
def composed : Shape → List Key → List Int → List Int
  | d :: shape, .slice s :: keys, js =>
    (s.range d).getD (js.headD 0).toNat 0 :: composed shape keys js.tail
  | d :: shape, key :: keys, js => key.fixed d :: composed shape keys js
  | _, _, js => js

def chosen : Shape → List Key → List (List Int)
  | d :: shape, key :: keys => key.picks d :: chosen shape keys
  | shape, _ => shape.map fun n => Slice.progression 0 n 1

theorem outline_index {i : Int} (h : key.index? = some i) (d : Int) (shape : Shape)
    (keys : List Key) : outline (d :: shape) (key :: keys) = outline shape keys := by
  cases key <;> cases h <;> rfl

theorem composed_index {i : Int} (h : key.index? = some i) (d : Int) (shape : Shape)
    (keys : List Key) (js : List Int) :
    composed (d :: shape) (key :: keys) js = key.fixed d :: composed shape keys js := by
  cases key <;> cases h <;> rfl

theorem outline_nil (shape : Shape) : outline shape [] = shape := by
  cases shape <;> rfl

theorem composed_nil (shape : Shape) (js : List Int) : composed shape [] js = js := by
  cases shape <;> rfl

theorem chosen_nil (shape : Shape) :
    chosen shape [] = shape.map fun n => Slice.progression 0 n 1 := by
  cases shape <;> rfl

theorem not_exceeds_cons :
    ¬ Exceeds (d :: shape) (key :: keys) ↔ key.Fits d ∧ ¬ Exceeds shape keys := by
  constructor
  · intro h
    refine ⟨by_contra fun hf => h (Or.inr ⟨0, key, d, rfl, rfl, hf⟩), fun hr => h ?_⟩
    rcases hr with hl | ⟨k, key', d', hk, hd, hf⟩
    · exact Or.inl (Nat.succ_lt_succ hl)
    · exact Or.inr ⟨k + 1, key', d', hk, hd, hf⟩
  · rintro ⟨he, hr⟩ (hl | ⟨k, key', d', hk, hd, hf⟩)
    · exact hr (Or.inl (Nat.lt_of_succ_lt_succ hl))
    · cases k with
      | zero =>
        cases hk
        cases hd
        exact hf he
      | succ k => exact hr (Or.inr ⟨k, key', d', hk, hd, hf⟩)

theorem exceeds_nil_cons (key : Key) (keys : List Key) : Exceeds [] (key :: keys) :=
  Or.inl (Nat.succ_pos _)

theorem length_le_of_not_exceeds (h : ¬ Exceeds shape keys) : keys.length ≤ shape.length :=
  Nat.not_lt.1 fun hl => h (Or.inl hl)

theorem chosen_eq (h : keys.length ≤ shape.length) :
    chosen shape keys = (keys.zipIdx.map fun p => p.1.picks (shape.getD p.2 0)) ++
      (shape.drop keys.length).map fun n => Slice.progression 0 n 1 := by
  induction keys generalizing shape with
  | nil => exact chosen_nil shape
  | cons key keys ih =>
    obtain _ | ⟨d, shape⟩ := shape
    · cases h
    · rw [chosen, ih (Nat.le_of_succ_le_succ h), zipIdx_cons', map_cons, map_map]
      rfl

section

variable (hkeys : ∀ key ∈ keys, key.Selects)

include hkeys

/-- Keys that do not exceed a shape select their positions. -/
theorem selections_eq (hs : ∀ d ∈ shape, 0 < d)
    (h : ¬ Exceeds shape keys) : selections shape keys = .ok (chosen shape keys) := by
  have hl := length_le_of_not_exceeds h
  rw [selections, mapM_ok_map, chosen_eq hl]
  · rfl
  · rintro ⟨key, k⟩ hm
    have he : keys[k]? = some key := mem_zipIdx_iff_getElem?.1 hm
    have hk : k < shape.length := Nat.lt_of_lt_of_le (List.getElem?_eq_some_iff.1 he).1 hl
    have hd : shape[k]? = some shape[k] := getElem?_eq_getElem hk
    have hf : key.Fits shape[k] := by_contra fun hf => h (Or.inr ⟨k, key, _, he, hd, hf⟩)
    simp only [hd, getD_eq_getElem?_getD, Option.getD_some]
    exact keyPositions_eq (hkeys key (mem_of_getElem? he)) hf (hs _ (getElem_mem hk)).le k

/-- Keys that exceed a shape are refused as outside of it. -/
theorem selections_excess (hs : ∀ d ∈ shape, 0 < d)
    (h : Exceeds shape keys) : ∃ e, selections shape keys = .error e ∧ e.IsExcess := by
  refine error_bind (mapM_error ?_ ?_)
  · rintro ⟨key, k⟩ hm e he
    have hk : keys[k]? = some key := mem_zipIdx_iff_getElem?.1 hm
    cases hd : shape[k]? with
    | none =>
      simp only [hd] at he
      cases he
      trivial
    | some d =>
      simp only [hd] at he
      by_cases hf : key.Fits d
      · rw [keyPositions_eq (hkeys key (mem_of_getElem? hk)) hf
          (hs d (mem_of_getElem? hd)).le] at he
        cases he
      · obtain ⟨x, hx⟩ := keyPositions_outside hf k
        rw [hx] at he
        cases he
        trivial
  · rcases h with hl | ⟨k, key, d, hk, hd, hf⟩
    · -- the first key without a dimension
      refine ⟨(keys[shape.length], shape.length), ?_, fun y hy => ?_⟩
      · exact mem_zipIdx_iff_getElem?.2 (getElem?_eq_getElem hl)
      · simp only [getElem?_eq_none (Nat.le_refl shape.length)] at hy
        cases hy
    · refine ⟨(key, k), mem_zipIdx_iff_getElem?.2 hk, fun y hy => ?_⟩
      obtain ⟨x, hx⟩ := keyPositions_outside hf k
      simp only [hd, hx] at hy
      cases hy

theorem selectedShape_eq (h : keys.length ≤ shape.length) :
    selectedShape shape keys (chosen shape keys) = outline shape keys := by
  induction keys generalizing shape with
  | nil =>
    rw [outline_nil]
    rfl
  | cons key keys ih =>
    obtain ⟨hk, hkeys⟩ := forall_mem_cons.1 hkeys
    obtain _ | ⟨d, shape⟩ := shape
    · cases h
    · have hr := ih hkeys (Nat.le_of_succ_le_succ h)
      obtain ⟨s, rfl, -⟩ | ⟨i, hi⟩ := hk.cases
      · rw [outline, ← hr]
        rfl
      · rw [outline_index hi, ← hr, selectedShape, chosen, zip_cons_cons, filterMap_cons_none]
        · rfl
        · simp [keeps_of_index hi]

/-- The selected positions, in the order of the places of the outline. -/
theorem choices_chosen (h : keys.length ≤ shape.length) :
    choices (chosen shape keys) = (outline shape keys).places.map (composed shape keys) := by
  induction keys generalizing shape with
  | nil =>
    have hf : composed shape [] = id := funext (composed_nil shape)
    rw [chosen_nil, outline_nil, hf, map_id]
    rfl
  | cons key keys ih =>
    obtain ⟨he, hkeys⟩ := forall_mem_cons.1 hkeys
    obtain _ | ⟨d, shape⟩ := shape
    · cases h
    · have hs := ih hkeys (Nat.le_of_succ_le_succ h)
      obtain ⟨s, rfl, -⟩ | ⟨i, hi⟩ := he.cases
      · -- the range, listed by the indices into it
        have hr : s.range d = (range (s.range d).length).map fun k => (s.range d).getD k 0 :=
          ext_getElem (by simp) fun k hk _ => by simp [hk]
        rw [chosen, choices, hs, outline, places_cons, Slice.progression_zero,
          flatMap_map, map_flatMap, Key.picks]
        conv_lhs => rw [hr, flatMap_map]
        refine flatMap_congr fun k _ => ?_
        rw [map_map, map_map]
        rfl
      · have hh : composed (d :: shape) (key :: keys) =
            (key.fixed d :: ·) ∘ composed shape keys := funext (composed_index hi d shape keys)
        rw [chosen, choices, hs, outline_index hi, hh, picks_of_index hi,
          flatMap_singleton, map_map]

omit hkeys in
theorem mem_choices {xss : List (List Int)} {is : List Int} :
    is ∈ choices xss ↔ Forall₂ (fun xs i => i ∈ xs) xss is := by
  induction xss generalizing is with
  | nil => simp [choices]
  | cons xs xss ih =>
    simp only [choices, mem_flatMap, mem_map, ih]
    constructor
    · rintro ⟨i, hi, is, his, rfl⟩
      exact .cons hi his
    · rintro (_ | ⟨hi, his⟩)
      exact ⟨_, hi, _, his, rfl⟩

theorem mem_places_of_mem_choices
    (h : ¬ Exceeds shape keys) {is : List Int} (his : is ∈ choices (chosen shape keys)) :
    is ∈ shape.places := by
  induction keys generalizing shape is with
  | nil => rwa [chosen_nil] at his
  | cons key keys ih =>
    obtain ⟨hk, hkeys⟩ := forall_mem_cons.1 hkeys
    obtain _ | ⟨d, shape⟩ := shape
    · exact absurd (exceeds_nil_cons key keys) h
    · obtain ⟨hf, h⟩ := not_exceeds_cons.1 h
      rw [mem_choices] at his
      obtain _ | ⟨hi, his⟩ := his
      exact mem_places.2 (.cons (mem_picks hk hf hi)
        (mem_places.1 (ih hkeys h (mem_choices.2 his))))

theorem composed_mem (h : ¬ Exceeds shape keys)
    (hj : js ∈ (outline shape keys).places) : composed shape keys js ∈ shape.places := by
  refine mem_places_of_mem_choices hkeys h ?_
  rw [choices_chosen hkeys (length_le_of_not_exceeds h)]
  exact mem_map_of_mem hj

theorem outline_positive (hs : ∀ d ∈ shape, 0 < d)
    (h : Catches shape keys) : ∀ d ∈ outline shape keys, 0 < d := by
  induction keys generalizing shape with
  | nil => rwa [outline_nil]
  | cons key keys ih =>
    obtain ⟨hk, hkeys⟩ := forall_mem_cons.1 hkeys
    obtain _ | ⟨d, shape⟩ := shape
    · exact hs
    · have hr := ih hkeys (forall_mem_cons.1 hs).2 fun k => h (k + 1)
      obtain ⟨s, rfl, -⟩ | ⟨i, hi⟩ := hk.cases
      · have hn : 0 < (s.range d).length := length_pos_iff.2 (h 0 s d rfl rfl)
        exact forall_mem_cons.2 ⟨by omega, hr⟩
      · rwa [outline_index hi]

end

/-! ## Selections from tables -/

variable {α : Type} {f : List Int → α}

theorem picked_tabulate (hkeys : ∀ key ∈ keys, key.Selects) (hs : ∀ d ∈ shape, 0 < d)
    (h : ¬ Exceeds shape keys) :
    ((choices (chosen shape keys)).mapM fun is =>
        Sequence.at (tabulate shape f).values (shape.position is)) =
      .ok ((outline shape keys).places.map fun js => f (composed shape keys js)) := by
  rw [mapM_ok_map fun is his =>
    at_tabulate hs (mem_places_of_mem_choices hkeys h his),
    choices_chosen hkeys (length_le_of_not_exceeds h), map_map]
  rfl

/-- The elements of a table at one index of the first dimension stand together. -/
theorem between_tabulate {i : Int} (hd : 0 < d) (hs : ∀ n ∈ shape, 0 < n) (hi : 0 ≤ i ∧ i < d) :
    Sequence.between (tabulate (d :: shape) f).values (i * shape.size)
        (i * shape.size + shape.size) = shape.places.map fun is => f (i :: is) := by
  have hp : ∀ n ∈ d :: shape, 0 < n := forall_mem_cons.2 ⟨hd, hs⟩
  have hz := size_pos hs
  obtain ⟨m, rfl⟩ := Int.eq_ofNat_of_zero_le hi.1
  obtain ⟨n, hn⟩ := Int.eq_ofNat_of_zero_le hz.le
  have ha : shape.places.length = n := by
    rw [length_places hs, hn, Int.toNat_natCast]
  have hl : (tabulate (d :: shape) f).values.length = d.toNat * n := by
    rw [tabulate, length_map, length_places hp, size_cons,
      Int.toNat_mul hd.le hz.le, hn, Int.toNat_natCast]
  have hin : m * n + n ≤ d.toNat * n := by
    rw [← Nat.succ_mul]
    exact Nat.mul_le_mul_right n (by omega)
  rw [hn]
  norm_cast
  rw [Sequence.between_natCast _ _ _ (by rw [hl]; exact hin)]
  refine ext_getElem ?_ fun k hk hk' => ?_
  · rw [length_take, length_drop, length_map]
    omega
  · -- both sides hold the element at the number of the place
    rw [length_map] at hk'
    have hc : (m : Int) :: shape.places[k] ∈ Shape.places (d :: shape) :=
      mem_places.2 (.cons hi (mem_places.1 (getElem_mem hk')))
    obtain ⟨k', hk', hu⟩ := exists_place hp hc
    rw [position_cons (length_of_mem_places (getElem_mem _)),
      position_of_getElem? hs (getElem?_eq_getElem _), hn] at hu
    have hw : m * n + k = k' := by
      omega
    obtain ⟨ht, heq⟩ := List.getElem?_eq_some_iff.1 hk'
    simp [tabulate, hw, heq]

variable [Element α]

/-- What a selection comes down to once the keys have been followed. -/
theorem select_tabulate (hkeys : ∀ key ∈ keys, key.Selects) (hs : ∀ d ∈ shape, 0 < d)
    (hr : shape ≠ []) (h : ¬ Exceeds shape keys) :
    (outline shape keys = [] →
      (tabulate shape f).select keys = Element.asTensor (f (composed shape keys []))) ∧
    (outline shape keys ≠ [] → (tabulate shape f).select keys =
        build ((outline shape keys).places.map fun js => f (composed shape keys js))
          (outline shape keys)) := by
  have hh := selectedShape_eq hkeys (length_le_of_not_exceeds h)
  have hn : ¬ shape.isEmpty := by simpa using hr
  rw [select, shape_tabulate, if_neg hn, selections_eq hkeys hs h]
  simp only [bind, Except.bind, picked_tabulate hkeys hs h, hh]
  constructor
  · intro hi
    simp only [hi]
    rfl
  · intro he
    split
    · exact absurd ‹_› he
    · rfl

theorem select_excess {t : Tensor α} (hkeys : ∀ key ∈ keys, key.Selects)
    (hs : ∀ d ∈ t.shape, 0 < d) (hr : t.shape ≠ []) (h : Exceeds t.shape keys) :
    ∃ e, t.select keys = .error e ∧ e.IsExcess := by
  have hn : ¬ t.shape.isEmpty := by simpa using hr
  rw [select, if_neg hn]
  exact error_bind (selections_excess hkeys hs h)

/-- One index selects what a list of this one key selects, or fails as it does. -/
theorem indexBy_eq_select {place : Int → Except Fault Int} {i : Int} (hd : 0 < d)
    (hs : ∀ n ∈ shape, 0 < n) (hk : key.index? = some i)
    (hp : keyPositions key 0 d = (fun i => [i]) <$> place d) :
    (tabulate (d :: shape) f).indexBy place = (tabulate (d :: shape) f).select [key] := by
  have ho : ∀ n ∈ d :: shape, 0 < n := forall_mem_cons.2 ⟨hd, hs⟩
  have hb : ∀ i, place d = .ok i → 0 ≤ i ∧ i < d := by
    intro i hi
    rw [hi] at hp
    by_cases hf : key.Fits d
    · rw [keyPositions_eq (selects_of_index hk) hf hd.le] at hp
      refine mem_picks (selects_of_index hk) hf ?_
      rw [Except.ok.inj hp]
      exact mem_singleton_self i
    · obtain ⟨e, he⟩ := keyPositions_outside hf 0
      rw [he] at hp
      cases hp
  have hh : ∀ i : Int, selectedShape (d :: shape) [key]
      ([i] :: shape.map fun n => Slice.progression 0 n 1) = shape := by
    simp [selectedShape, keeps_of_index hk]
  have hl : selections (d :: shape) [key] =
      (fun i => [i] :: shape.map fun n => Slice.progression 0 n 1) <$> place d := by
    simp only [selections, zipIdx_singleton, mapM_cons, mapM_nil, getElem?_cons_zero, hp]
    cases place d <;> rfl
  cases hi : place d with
  | error e =>
    simp only [indexBy, select, shape_tabulate, hl, hi]
    rfl
  | ok i =>
    have hblo := between_tabulate (f := f) hd hs (hb i hi)
    have hc : (choices ([i] :: shape.map fun n => Slice.progression 0 n 1)).mapM (fun is =>
        Sequence.at (tabulate (d :: shape) f).values (Shape.position (d :: shape) is)) =
        .ok (shape.places.map fun is => f (i :: is)) := by
      have hcho : choices ([i] :: shape.map fun n => Slice.progression 0 n 1) =
          shape.places.map (i :: ·) := flatMap_singleton _ _
      rw [hcho, mapM_ok_map, map_map]
      · rfl
      · intro is his
        obtain ⟨js, hj, rfl⟩ := mem_map.1 his
        exact at_tabulate ho (mem_places.2 (.cons (hb i hi) (mem_places.1 hj)))
    have hn : ¬ ((d :: shape).isEmpty) := by simp
    rw [indexBy, select, shape_tabulate, if_neg hn, hl]
    simp only [bind, Except.bind, Functor.map, Except.map, hi, hc, hh, hblo]
    cases shape <;> rfl

end Tensor

end Patchwork
