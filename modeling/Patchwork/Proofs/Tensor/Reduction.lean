import Patchwork.Proofs.Tensor.Transpose
import Mathlib.Algebra.BigOperators.Group.Finset.Basic
import Mathlib.Algebra.BigOperators.Group.Finset.Sigma

/-!
# Sums over axes of a shape

A sum over some axes adds up all places that agree on the remaining axes. The axes may come in any
order and more than once: only which of them occur counts. Summing over axes one after the other,
the highest first, is summing over all of them, and the sum of everything stays what it is.
-/

namespace Patchwork

open Finset List Shape

/-! ## Numbers beyond the end -/

namespace Shape

variable {s : Shape} {is : List Int}

theorem nodup_places (h : ∀ d ∈ s, 0 < d) : s.places.Nodup := by
  refine Nodup.of_map s.position ?_
  rw [map_position h]
  exact nodup_range.map Nat.cast_injective

/-- The place of a number, which goes round at the end of the shape. -/
def placeAt (s : Shape) (k : Nat) : List Int := s.places.getD (k % s.places.length) []

theorem placeAt_of_getElem? {k : Nat} (h : s.places[k]? = some is) : s.placeAt k = is := by
  have hk := (List.getElem?_eq_some_iff.1 h).1
  rw [placeAt, Nat.mod_eq_of_lt hk, getD_eq_getElem?_getD, h, Option.getD_some]

theorem placeAt_mem (h : ∀ d ∈ s, 0 < d) (k : Nat) : s.placeAt k ∈ s.places := by
  have hl := Nat.mod_lt k (length_pos_iff.2 (places_ne_nil h))
  rw [placeAt, getD_eq_getElem _ _ hl]
  exact getElem_mem hl

theorem indices_natCast (h : ∀ d ∈ s, 0 < d) (k : Nat) : s.indices k = .ok (s.placeAt k) := by
  have hl := Nat.mod_lt k (length_pos_iff.2 (places_ne_nil h))
  have hp : s.places[k % s.places.length]? = some (s.placeAt k) := by
    rw [placeAt, getD_eq_getElem _ _ hl]
    exact getElem?_eq_getElem hl
  have hs : (s.places.length : Int) = s.size := by
    rw [length_places h, Int.toNat_of_nonneg (size_pos h).le]
  have hn : (k : Int) = s.position (s.placeAt k) + (k / s.places.length : Nat) * s.size := by
    rw [position_of_getElem? h hp, ← hs]
    exact_mod_cast (Nat.mod_add_div' k s.places.length).symm
  have hw := foldrM_indexStep (placeAt_mem h k) (k / s.places.length : Nat)
  rw [← hn] at hw
  change (s.reverse.foldlM (fun acc d => indexStep d acc) ((k : Int), []) >>= fun r => .ok r.2) = _
  rw [foldlM_reverse, hw]
  rfl

end Shape

/-! ## Lists without some positions -/

namespace Tensor

section Dropping

variable {β : Type} {axes axes' : List Nat} {xs : List β} {a k : Nat}

/-- The entries of a list whose positions, counted from `k` on, are none of the given ones. -/
def dropFrom (axes : List Nat) (k : Nat) (xs : List β) : List β :=
  ((xs.zipIdx k).filter fun (_, i) => !axes.contains i).map Prod.fst

theorem dropPositions_eq (xs : List β) (axes : List Nat) :
    dropPositions xs axes = dropFrom axes 0 xs := rfl

theorem dropFrom_cons (axes : List Nat) (k : Nat) (x : β) (xs : List β) :
    dropFrom axes k (x :: xs) =
      if k ∈ axes then dropFrom axes (k + 1) xs else x :: dropFrom axes (k + 1) xs := by
  by_cases h : k ∈ axes
  · simp [dropFrom, zipIdx_cons, h]
  · simp [dropFrom, zipIdx_cons, h]

theorem dropFrom_cons_of_mem (h : k ∈ axes) (x : β) :
    dropFrom axes k (x :: xs) = dropFrom axes (k + 1) xs := by
  rw [dropFrom_cons, if_pos h]

theorem dropFrom_cons_of_notMem (h : k ∉ axes) (x : β) :
    dropFrom axes k (x :: xs) = x :: dropFrom axes (k + 1) xs := by
  rw [dropFrom_cons, if_neg h]

theorem dropFrom_congr (h : ∀ i, i ∈ axes ↔ i ∈ axes') : dropFrom axes k xs = dropFrom axes' k xs := by
  simp only [dropFrom, contains_eq_mem, h]

theorem dropPositions_congr (h : ∀ i, i ∈ axes ↔ i ∈ axes') (xs : List β) :
    dropPositions xs axes = dropPositions xs axes' := dropFrom_congr h

/-- Nothing is dropped behind the last given position. -/
theorem dropFrom_of_lt (h : ∀ i ∈ axes, i < k) : dropFrom axes k xs = xs := by
  induction xs generalizing k with
  | nil => rfl
  | cons x xs ih =>
    have hk : k ∉ axes := fun hm => Nat.lt_irrefl k (h k hm)
    rw [dropFrom_cons_of_notMem hk, ih fun i hi => Nat.lt_succ_of_lt (h i hi)]

/-- The highest position can be dropped first. -/
theorem dropFrom_dropFrom (h : ∀ i ∈ axes, i < a) :
    dropFrom axes k (dropFrom [a] k xs) = dropFrom (a :: axes) k xs := by
  induction xs generalizing k with
  | nil => rfl
  | cons x xs ih =>
    by_cases hk : k = a
    · -- nothing is left to drop behind the high position
      subst hk
      have hr : ∀ i ∈ k :: axes, i < k + 1 :=
        List.forall_mem_cons.2 ⟨Nat.lt_succ_self k, fun i hi => Nat.lt_succ_of_lt (h i hi)⟩
      have hs : ∀ i ∈ [k], i < k + 1 := by simp
      rw [dropFrom_cons_of_mem List.mem_cons_self, dropFrom_cons_of_mem List.mem_cons_self,
        dropFrom_of_lt hr, dropFrom_of_lt hs, dropFrom_of_lt h]
    · have hs : k ∉ [a] := by simpa using hk
      rw [dropFrom_cons_of_notMem hs]
      by_cases hm : k ∈ axes
      · rw [dropFrom_cons_of_mem hm, dropFrom_cons_of_mem (List.mem_cons_of_mem a hm), ih]
      · have hn : k ∉ a :: axes := by simp [hk, hm]
        rw [dropFrom_cons_of_notMem hm, dropFrom_cons_of_notMem hn, ih]

theorem dropPositions_dropPositions (h : ∀ i ∈ axes, i < a) (xs : List β) :
    dropPositions (dropPositions xs [a]) axes = dropPositions xs (a :: axes) := dropFrom_dropFrom h

theorem dropPositions_nil (xs : List β) : dropPositions xs [] = xs :=
  dropFrom_of_lt (forall_mem_nil _)

theorem dropFrom_sublist (axes : List Nat) (k : Nat) (xs : List β) : (dropFrom axes k xs).Sublist xs := by
  induction xs generalizing k with
  | nil => exact .slnil
  | cons x xs ih =>
    rw [dropFrom_cons]
    split
    · exact (ih (k + 1)).cons x
    · exact (ih (k + 1)).cons_cons x

/-- Something remains if a position is not among the given ones. -/
theorem dropFrom_ne_nil_iff :
    dropFrom axes k xs ≠ [] ↔ ∃ i, k ≤ i ∧ i < k + xs.length ∧ i ∉ axes := by
  induction xs generalizing k with
  | nil =>
    refine ⟨fun h => absurd rfl h, ?_⟩
    rintro ⟨i, hl, hh, -⟩
    exact absurd hh (Nat.not_lt.2 hl)
  | cons x xs ih =>
    by_cases hm : k ∈ axes
    · rw [dropFrom_cons_of_mem hm, ih]
      constructor
      · rintro ⟨i, hl, hh, hi⟩
        exact ⟨i, by omega, by rw [length_cons]; omega, hi⟩
      · rintro ⟨i, hl, hh, hi⟩
        have hn : i ≠ k := fun h => hi (h ▸ hm)
        rw [length_cons] at hh
        exact ⟨i, by omega, by omega, hi⟩
    · rw [dropFrom_cons_of_notMem hm]
      exact ⟨fun _ => ⟨k, Nat.le_refl k, by simp, hm⟩, fun _ => cons_ne_nil _ _⟩

theorem dropPositions_ne_nil_iff : dropPositions xs axes ≠ [] ↔ ∃ i < xs.length, i ∉ axes := by
  rw [dropPositions_eq, dropFrom_ne_nil_iff]
  simp

theorem length_dropFrom_single (hl : k ≤ a) (hh : a < k + xs.length) :
    (dropFrom [a] k xs).length + 1 = xs.length := by
  induction xs generalizing k with
  | nil => simp at hh; omega
  | cons x xs ih =>
    by_cases hk : k = a
    · subst hk
      rw [dropFrom_cons_of_mem (List.mem_singleton_self k), dropFrom_of_lt (by simp), length_cons]
    · have hs : k ∉ [a] := by simpa using hk
      rw [dropFrom_cons_of_notMem hs, length_cons, length_cons,
        ih (by omega) (by rw [length_cons] at hh; omega)]

end Dropping

theorem entry_tabulate {α : Type} [Inhabited α] {s : Shape} {f : List Int → α} {is : List Int}
    (h : ∀ d ∈ s, 0 < d) (his : is ∈ s.places) : (tabulate s f).entry is = f is :=
  Except.ok.inj (((full_tabulate h f).covered.get_eq his).symm.trans (get_tabulate h his))

/-! ## Places without some axes -/

section Places

variable {axes : List Nat} {s : Shape} {is js : List Int} {a k : Nat}

theorem dropPositions_positive (h : ∀ d ∈ s, 0 < d) : ∀ d ∈ dropPositions s axes, 0 < d :=
  fun d hd => h d ((dropFrom_sublist axes 0 s).subset hd)

theorem dropFrom_mem (h : is ∈ s.places) :
    dropFrom axes k is ∈ Shape.places (dropFrom axes k s) := by
  rw [mem_places] at h
  induction h generalizing k with
  | nil => exact mem_places.2 .nil
  | @cons d i s is hi _ ih =>
    by_cases hm : k ∈ axes
    · rw [dropFrom_cons_of_mem hm, dropFrom_cons_of_mem hm]
      exact ih
    · rw [dropFrom_cons_of_notMem hm, dropFrom_cons_of_notMem hm]
      exact mem_places.2 (.cons hi (mem_places.1 ih))

/-- A place without some indices is a place of the shape without these axes. -/
theorem dropPositions_mem (h : is ∈ s.places) :
    dropPositions is axes ∈ Shape.places (dropPositions s axes) := dropFrom_mem h

theorem exists_dropFrom (hs : ∀ d ∈ s, 0 < d) (h : js ∈ Shape.places (dropFrom axes k s)) :
    ∃ is ∈ s.places, dropFrom axes k is = js := by
  induction s generalizing k js with
  | nil => exact ⟨js, h, by cases mem_places.1 h; rfl⟩
  | cons d s ih =>
    obtain ⟨hd, hs⟩ := List.forall_mem_cons.1 hs
    by_cases hm : k ∈ axes
    · rw [dropFrom_cons_of_mem hm] at h
      obtain ⟨is, his, rfl⟩ := ih hs h
      refine ⟨0 :: is, mem_places.2 (.cons ⟨le_rfl, hd⟩ (mem_places.1 his)), ?_⟩
      rw [dropFrom_cons_of_mem hm]
    · rw [dropFrom_cons_of_notMem hm, mem_places] at h
      obtain ⟨i, js, hi, hj, rfl⟩ := forall₂_cons_left_iff.1 h
      obtain ⟨is, his, rfl⟩ := ih hs (mem_places.2 hj)
      refine ⟨i :: is, mem_places.2 (.cons hi (mem_places.1 his)), ?_⟩
      rw [dropFrom_cons_of_notMem hm]

/-- Every place of the shape without some axes comes from a place of the shape. -/
theorem exists_dropPositions (hs : ∀ d ∈ s, 0 < d) (h : js ∈ Shape.places (dropPositions s axes)) :
    ∃ is ∈ s.places, dropPositions is axes = js := exists_dropFrom hs h

/-! ## Sums over axes -/

variable {f : List Int → Int}

/-- The sum over axes of a function on places: all places that agree on the remaining axes. -/
def sumOver (axes : List Nat) (s : Shape) (f : List Int → Int) (js : List Int) : Int :=
  ∑ is ∈ s.places.toFinset with dropPositions is axes = js, f is

theorem sumOver_nil (hj : js ∈ s.places) : sumOver [] s f js = f js := by
  have hp : js ∈ s.places.toFinset := mem_toFinset.2 hj
  simp only [sumOver, dropPositions_nil]
  rw [sum_filter, sum_ite_eq' _ js, if_pos hp]

/-- One axis after the other: the highest axis can be summed first. -/
theorem sumOver_sumOver (h : ∀ i ∈ axes, i < a) :
    sumOver axes (dropPositions s [a]) (sumOver [a] s f) js = sumOver (a :: axes) s f js := by
  have hm : ∀ is ∈ s.places.toFinset.filter fun is => dropPositions is (a :: axes) = js,
      dropPositions is [a] ∈ (Shape.places (dropPositions s [a])).toFinset.filter fun is =>
        dropPositions is axes = js := by
    intro is his
    rw [Finset.mem_filter, mem_toFinset] at his ⊢
    exact ⟨dropPositions_mem his.1, (dropPositions_dropPositions h is).trans his.2⟩
  rw [sumOver, sumOver, ← sum_fiberwise_of_maps_to hm]
  refine sum_congr rfl fun ks hk => ?_
  rw [Finset.mem_filter] at hk
  rw [sumOver, Finset.filter_filter]
  refine sum_congr (Finset.filter_congr fun is _ => ?_) fun _ _ => rfl
  rw [← dropPositions_dropPositions h]
  constructor
  · rintro rfl
    exact ⟨hk.2, rfl⟩
  · exact And.right

/-- The sum of everything is the sum of the sums. -/
theorem sum_sumOver :
    ∑ js ∈ (Shape.places (dropPositions s axes)).toFinset, sumOver axes s f js =
      ∑ is ∈ s.places.toFinset, f is := sum_fiberwise_of_maps_to
    (fun _ his => mem_toFinset.2 (dropPositions_mem (mem_toFinset.1 his))) f

theorem sum_places (h : ∀ d ∈ s, 0 < d) (f : List Int → Int) :
    (s.places.map f).sum = ∑ is ∈ s.places.toFinset, f is := (sum_toFinset f (nodup_places h)).symm

end Places

end Tensor

end Patchwork
