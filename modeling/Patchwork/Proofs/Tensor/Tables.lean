import Patchwork.Tensor.Index
import Mathlib.Algebra.Order.Ring.Int
import Mathlib.Data.List.Forall2

/-!
# Tensors as tables

A tensor lists its elements in row-major order, in which the last index varies fastest. A full
tensor has one element for every place of its shape. It is then the table of a function on
places, and an operation on tensors can be told by what it does to that function.
-/

namespace Patchwork

open List Shape

/-! ## Positions -/

namespace Sequence

variable {α : Type} {xs : List α} {k : Nat} {x : α}

theorem at_natCast (h : xs[k]? = some x) : Sequence.at xs k = .ok x := by
  have hn : ¬ (k : Int) < 0 := by omega
  simp [Sequence.at, hn, h]

theorem put_natCast (h : k < xs.length) (x : α) : Sequence.put xs k x = .ok (xs.set k x) := by
  have hb : ¬ ((k : Int) < 0 ∨ (xs.length : Int) ≤ k) := by omega
  have hn : ¬ (k : Int) < 0 := by omega
  simp only [Sequence.put, if_neg hn, if_neg hb, Int.toNat_natCast]

end Sequence

namespace Slice

theorem progression_zero (n : Int) :
    progression 0 n 1 = (range n.toNat).map fun (k : Nat) => (k : Int) := by
  simp [progression]

theorem mem_progression_zero {n i : Int} : i ∈ progression 0 n 1 ↔ 0 ≤ i ∧ i < n := by
  rw [progression_zero, mem_map]
  constructor
  · rintro ⟨k, hk, rfl⟩
    rw [mem_range] at hk
    omega
  · rintro ⟨hl, hh⟩
    exact ⟨i.toNat, mem_range.2 (by omega), by omega⟩

end Slice

/-! ## Places -/

namespace Shape

/-- The places of a shape: all lists of indices in bounds, in row-major order. -/
def places (s : Shape) : List (List Int) := Tensor.choices (s.map fun n => Slice.progression 0 n 1)

variable {s : Shape} {is : List Int} {d i : Int}

theorem places_cons (d : Int) (s : Shape) :
    places (d :: s) = (Slice.progression 0 d 1).flatMap fun i => s.places.map (i :: ·) := rfl

/-- A place has an index for every dimension, within its extent. -/
theorem mem_places : is ∈ s.places ↔ Forall₂ (fun d i => 0 ≤ i ∧ i < d) s is := by
  induction s generalizing is with
  | nil => simp [places, Tensor.choices]
  | cons d s ih =>
    simp only [places_cons, mem_flatMap, mem_map, Slice.mem_progression_zero]
    constructor
    · rintro ⟨i, hi, is, his, rfl⟩
      exact .cons hi (ih.1 his)
    · rintro (_ | ⟨hi, his⟩)
      exact ⟨_, hi, _, ih.2 his, rfl⟩

theorem positive_of_mem_places (h : is ∈ s.places) : ∀ d ∈ s, 0 < d := by
  rw [mem_places] at h
  induction h with
  | nil => exact forall_mem_nil _
  | cons hi _ ih => exact forall_mem_cons.2 ⟨by omega, ih⟩

theorem length_of_mem_places (h : is ∈ s.places) : is.length = s.length :=
  (mem_places.1 h).length_eq.symm

/-- A place of a joined shape is a place of the one followed by a place of the other. -/
theorem mem_places_append {s' : Shape} :
    is ∈ places (s ++ s') ↔ ∃ js ∈ s.places, ∃ ks ∈ s'.places, is = js ++ ks := by
  simp only [mem_places]
  constructor
  · intro h
    exact ⟨is.take s.length, (forall₂_take_append is s s' h.flip).flip,
      is.drop s.length, (forall₂_drop_append is s s' h.flip).flip, (take_append_drop ..).symm⟩
  · rintro ⟨js, hj, ks, hk, rfl⟩
    exact rel_append hj hk

theorem mem_places_split {before after : Shape} :
    is ∈ places (before ++ d :: after) ↔
      ∃ js ∈ before.places, ∃ i, (0 ≤ i ∧ i < d) ∧ ∃ ks ∈ after.places, is = js ++ i :: ks := by
  rw [mem_places_append]
  constructor
  · rintro ⟨js, hj, ks, hk, rfl⟩
    obtain ⟨i, ks, hi, hr, rfl⟩ := forall₂_cons_left_iff.1 (mem_places.1 hk)
    exact ⟨js, hj, i, hi, ks, mem_places.2 hr, rfl⟩
  · rintro ⟨js, hj, i, hi, ks, hk, rfl⟩
    exact ⟨js, hj, _, mem_places.2 (.cons hi (mem_places.1 hk)), rfl⟩

theorem foldl_mul_eq (s : Shape) (a : Int) : s.foldl (· * ·) a = a * s.size := by
  rw [size]
  induction s generalizing a with
  | nil => simp
  | cons d s ih => rw [foldl_cons, foldl_cons, ih, ih (1 * d), one_mul, mul_assoc]

@[simp] theorem size_nil : size [] = 1 := rfl

@[simp] theorem size_cons (d : Int) (s : Shape) : size (d :: s) = d * s.size := by
  rw [size, foldl_cons, one_mul, foldl_mul_eq]

theorem size_pos (h : ∀ d ∈ s, 0 < d) : 0 < s.size := by
  induction s with
  | nil => exact one_pos
  | cons d s ih =>
    obtain ⟨hd, hs⟩ := forall_mem_cons.1 h
    rw [size_cons]
    exact mul_pos hd (ih hs)

/-- The walk that numbers a place also multiplies the extents. -/
theorem foldr_eq_position (h : is.length = s.length) :
    (s.zip is).foldr (fun (d, i) (acc : Int × Int) => (acc.1 + i * acc.2, acc.2 * d)) (0, 1) =
      (s.position is, s.size) := by
  induction s generalizing is with
  | nil => rfl
  | cons d s ih =>
    obtain _ | ⟨i, is⟩ := is
    · cases h
    · have hl : is.length = s.length := by simpa using h
      rw [position, zip_cons_cons, foldr_cons, ih hl, size_cons, mul_comm]

theorem position_cons (h : is.length = s.length) (d i : Int) :
    position (d :: s) (i :: is) = s.position is + i * s.size := by
  rw [position, zip_cons_cons, foldr_cons, foldr_eq_position h]

theorem flatMap_range_blocks (m n : Nat) :
    ((range m).flatMap fun i => (range n).map fun k => k + i * n) = range (m * n) := by
  induction m with
  | zero => simp
  | succ m ih =>
    rw [range_succ, flatMap_append, ih, Nat.succ_mul, range_add]
    simp [Nat.add_comm]

theorem map_position (h : ∀ d ∈ s, 0 < d) :
    s.places.map s.position = (range s.size.toNat).map fun (k : Nat) => (k : Int) := by
  induction s with
  | nil => rfl
  | cons d s ih =>
    obtain ⟨hd, hs⟩ := forall_mem_cons.1 h
    have hz := size_pos hs
    have hb : ∀ i : Int, ((places s).map (i :: ·)).map (position (d :: s)) =
        (range (size s).toNat).map fun (k : Nat) => (k : Int) + i * size s := by
      intro i
      have hh := congrArg (List.map (· + i * size s)) (ih hs)
      rw [map_map, map_map] at hh
      rw [map_map, ← Function.comp_def (· + i * size s), ← hh]
      exact map_congr_left fun is his => position_cons (length_of_mem_places his) d i
    have hp : (d * size s).toNat = d.toNat * (size s).toNat := Int.toNat_mul hd.le hz.le
    rw [places_cons, map_flatMap, size_cons, hp, ← flatMap_range_blocks,
      Slice.progression_zero, flatMap_map, map_flatMap]
    refine flatMap_congr fun i _ => ?_
    rw [hb, map_map]
    refine map_congr_left fun k _ => ?_
    simp [Int.toNat_of_nonneg hz.le]

theorem length_places (h : ∀ d ∈ s, 0 < d) : s.places.length = s.size.toNat := by
  have hl := congrArg List.length (map_position h)
  simpa using hl

theorem places_ne_nil (h : ∀ d ∈ s, 0 < d) : s.places ≠ [] := by
  have hs := size_pos h
  rw [← length_pos_iff, length_places h]
  omega

theorem position_of_getElem? (h : ∀ d ∈ s, 0 < d) {k : Nat} (hk : s.places[k]? = some is) :
    s.position is = (k : Int) := by
  have hn := congrArg (fun l => l[k]?) (map_position h)
  obtain ⟨hl, -⟩ := List.getElem?_eq_some_iff.1 hk
  rw [length_places h] at hl
  simpa [hk, getElem?_range hl] using hn

theorem exists_place (h : ∀ d ∈ s, 0 < d) (his : is ∈ s.places) :
    ∃ k : Nat, s.places[k]? = some is ∧ s.position is = (k : Int) := by
  obtain ⟨k, hk⟩ := getElem?_of_mem his
  exact ⟨k, hk, position_of_getElem? h hk⟩

end Shape

/-! ## Tables -/

namespace Tensor

variable {α : Type}

/-- The table of a function on places. -/
def tabulate (s : Shape) (f : List Int → α) : Tensor α := ⟨s, s.places.map f⟩

/-- The table of a function on places, with surplus elements behind it. -/
def tabulateWith (s : Shape) (f : List Int → α) (surplus : List α) : Tensor α :=
  ⟨s, s.places.map f ++ surplus⟩

@[simp] theorem shape_tabulate (s : Shape) (f : List Int → α) : (tabulate s f).shape = s := rfl

@[simp] theorem shape_tabulateWith (s : Shape) (f : List Int → α) (surplus : List α) :
    (tabulateWith s f surplus).shape = s := rfl

theorem tabulateWith_nil (s : Shape) (f : List Int → α) : tabulateWith s f [] = tabulate s f := by
  rw [tabulateWith, append_nil, tabulate]

variable {s : Shape} {is : List Int} {f f' : List Int → α} {surplus : List α}

theorem tabulateWith_congr (h : ∀ is ∈ s.places, f is = f' is) :
    tabulateWith s f surplus = tabulateWith s f' surplus := by
  rw [tabulateWith, tabulateWith, map_congr_left h]

theorem tabulate_congr (h : ∀ is ∈ s.places, f is = f' is) : tabulate s f = tabulate s f' := by
  rw [tabulate, tabulate, map_congr_left h]

theorem at_tabulateWith (h : ∀ d ∈ s, 0 < d) (his : is ∈ s.places) :
    Sequence.at (tabulateWith s f surplus).values (s.position is) = .ok (f is) := by
  obtain ⟨k, hk, hp⟩ := exists_place h his
  have hl := (List.getElem?_eq_some_iff.1 hk).1
  rw [hp]
  refine Sequence.at_natCast ?_
  rw [tabulateWith, getElem?_append_left (by simpa using hl)]
  simp [hk]

theorem at_tabulate (h : ∀ d ∈ s, 0 < d) (his : is ∈ s.places) :
    Sequence.at (tabulate s f).values (s.position is) = .ok (f is) := by
  rw [← tabulateWith_nil]
  exact at_tabulateWith h his

theorem flatIndex_of_mem {t : Tensor α} (his : is ∈ t.shape.places) :
    t.flatIndex is = .ok (t.shape.position is) := by
  have hb := mem_places.1 his
  have he : t.shape.excess? is = none := by
    rw [Shape.excess?, Option.map_eq_none_iff, find?_eq_none]
    rintro ⟨⟨d, i⟩, k⟩ hm
    rw [mem_reverse] at hm
    have hz : (d, i) ∈ t.shape.zip is := by
      have hf := mem_map_of_mem (f := Prod.fst) hm
      simpa using hf
    have hi := (forall₂_iff_zip.1 hb).2 hz
    simp [hi.1.not_gt, hi.2.not_ge]
  rw [flatIndex, if_neg (by simp [rank, length_of_mem_places his])]
  simp [he]

theorem get_tabulateWith (h : ∀ d ∈ s, 0 < d) (his : is ∈ s.places) :
    (tabulateWith s f surplus).get is = .ok (f is) := by
  rw [get, if_neg (by simp [rank, length_of_mem_places his]), flatIndex_of_mem his]
  exact at_tabulateWith h his

theorem get_tabulate (h : ∀ d ∈ s, 0 < d) (his : is ∈ s.places) :
    (tabulate s f).get is = .ok (f is) := by
  rw [← tabulateWith_nil]
  exact get_tabulateWith h his

def entry [Inhabited α] (t : Tensor α) (is : List Int) : α :=
  t.values.getD (t.shape.position is).toNat default

/-- A covered tensor: every dimension has an extent, and there is an element for every
place. -/
structure Covered (t : Tensor α) : Prop where
  positive : ∀ d ∈ t.shape, 0 < d
  length : t.size ≤ t.values.length

/-- A full tensor: every dimension has an extent, and there is one element for every
place. -/
structure Full (t : Tensor α) : Prop where
  positive : ∀ d ∈ t.shape, 0 < d
  length : (t.values.length : Int) = t.size

theorem Full.covered {t : Tensor α} (h : t.Full) : t.Covered := ⟨h.positive, h.length.ge⟩

theorem Full.values_ne_nil {t : Tensor α} (ht : t.Full) : t.values ≠ [] := by
  have hs : 0 < t.size := size_pos ht.positive
  have hl := ht.length
  rw [← length_pos_iff]
  omega

theorem Covered.eq_tabulateWith [Inhabited α] {t : Tensor α} (h : t.Covered) :
    t = tabulateWith t.shape t.entry (t.values.drop t.size.toNat) := by
  obtain ⟨s, values⟩ := t
  obtain ⟨hp, hl⟩ := h
  change s.size ≤ values.length at hl
  refine congrArg (Tensor.mk s) ?_
  have he : s.places.map (Tensor.mk s values).entry =
      (s.places.map s.position).map fun k => values.getD k.toNat default := by
    rw [map_map]
    rfl
  have ht : s.places.map (Tensor.mk s values).entry = values.take s.size.toNat := by
    rw [he, map_position hp, map_map]
    refine ext_getElem (by simp; omega) fun k hk _ => ?_
    have hk : k < values.length := by
      simp at hk
      omega
    simp [hk]
  rw [ht]
  exact (take_append_drop _ _).symm

theorem Full.eq_tabulate [Inhabited α] {t : Tensor α} (h : t.Full) :
    t = tabulate t.shape t.entry := by
  have hl := h.length
  have hs : t.values.drop t.size.toNat = [] := drop_eq_nil_of_le (by omega)
  have ht := h.covered.eq_tabulateWith
  rwa [hs, tabulateWith_nil] at ht

theorem full_tabulate (h : ∀ d ∈ s, 0 < d) (f : List Int → α) : (tabulate s f).Full where
  positive := h
  length := by
    rw [tabulate, length_map, length_places h]
    exact Int.toNat_of_nonneg (size_pos h).le

theorem Covered.get_eq [Inhabited α] {t : Tensor α} (h : t.Covered) (his : is ∈ t.shape.places) :
    t.get is = .ok (t.entry is) := by
  have ht : (tabulateWith t.shape t.entry (t.values.drop t.size.toNat)).get is =
      .ok (t.entry is) := get_tabulateWith h.positive his
  rwa [← h.eq_tabulateWith] at ht

/-! ## Building -/

section Building

variable [Element α]

/-- A number, and no list of further elements. -/
structure IsSingle (x : α) : Prop where
  scalar : Element.isScalar x = true
  noSequence : Element.isSequence x = false

/-- Elements as a tensor is built from them: a number among them, and no lists. -/
structure Built (t : Tensor α) : Prop where
  number : ∃ v ∈ t.values, Element.isScalar v = true
  noSequence : ∀ v ∈ t.values, Element.isSequence v = false

theorem Built.build_eq {t : Tensor α} (h : t.Built) (hs : t.shape ≠ []) :
    build t.values t.shape = .ok t := by
  obtain ⟨_ | ⟨d, s⟩, values⟩ := t
  · exact absurd rfl hs
  · have ha : values.filter (fun v => !Element.isSequence v) = values :=
      filter_eq_self.2 fun v hv => by rw [h.noSequence v hv, Bool.not_false]
    rw [build, if_pos (any_eq_true.2 h.number), ha]
    exact cons_ne_nil d s

theorem build_of_isSingle {values : List α} (h : ∀ v ∈ values, IsSingle v) (hl : values ≠ [])
    (hs : s ≠ []) : build values s = .ok ⟨s, values⟩ := by
  obtain ⟨v, hv⟩ := exists_mem_of_ne_nil values hl
  have hb : (Tensor.mk s values).Built :=
    ⟨⟨v, hv, (h v hv).scalar⟩, fun v hv => (h v hv).noSequence⟩
  exact hb.build_eq hs

theorem build_tabulate (h : ∀ d ∈ s, 0 < d) (hs : s ≠ []) (hf : ∀ is ∈ s.places, IsSingle (f is)) :
    build (s.places.map f) s = .ok (tabulate s f) :=
  build_of_isSingle (forall_mem_map.2 hf) (by simpa using places_ne_nil h) hs

end Building

end Tensor

end Patchwork
