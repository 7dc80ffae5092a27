import Patchwork.Datum.Basic
import Patchwork.Proofs.Tensor.Broadcast
import Mathlib.Data.List.GetD

/-!
# Regular nestings

A nesting is regular if all items of a list have the same shape inside, down to the numbers. The
tensor of a regular nesting is the table of the numbers found by walking down an index at a time.
-/

namespace Patchwork

open List

namespace Datum

variable {d : Datum} {s : Shape} {xs : List Datum} {i : Int} {is : List Int}

/-- A datum is a regular nesting of a shape. Lists inside are not empty, and they may be
lists, tuples or sequences of bytes. -/
inductive Nests : Shape → Datum → Prop
  | scalar (x : Scalar) : Nests [] (.scalar x)
  | list {s : Shape} {xs : List Datum} :
    xs ≠ [] → (∀ x ∈ xs, Nests s x) → Nests ((xs.length : Int) :: s) (.list xs)
  | tuple {s : Shape} {xs : List Datum} :
    xs ≠ [] → (∀ x ∈ xs, Nests s x) → Nests ((xs.length : Int) :: s) (.tuple xs)
  | bytes {bs : List UInt8} : bs ≠ [] → Nests [(bs.length : Int)] (.bytes bs)

def entryAt : Datum → List Int → Datum
  | d, [] => d
  | d, i :: is => ((d.items?.getD []).getD i.toNat .absent).entryAt is

theorem entryAt_cons (h : d.items? = some xs) (i : Int) (is : List Int) :
    d.entryAt (i :: is) = (xs.getD i.toNat .absent).entryAt is := by
  rw [entryAt, h, Option.getD_some]

theorem isSingle_scalar (x : Scalar) : Tensor.IsSingle (Datum.scalar x) := ⟨rfl, rfl⟩

theorem Nests.cases_items (h : d.Nests s) :
    (∃ x, d = .scalar x ∧ s = []) ∨
      ∃ xs s', d.items? = some xs ∧ xs ≠ [] ∧ s = (xs.length : Int) :: s' ∧
        ∀ x ∈ xs, x.Nests s' := by
  cases h with
  | scalar x => exact .inl ⟨x, rfl, rfl⟩
  | @list s xs hn hx => exact .inr ⟨xs, s, rfl, hn, rfl, hx⟩
  | @tuple s xs hn hx => exact .inr ⟨xs, s, rfl, hn, rfl, hx⟩
  | @bytes bs hn =>
    refine .inr ⟨bs.map fun b => int b.toNat, [], rfl, by simpa using hn, by simp, ?_⟩
    rw [forall_mem_map]
    exact fun b _ => .scalar _

theorem Nests.positive (h : d.Nests s) : ∀ n ∈ s, 0 < n := by
  induction s generalizing d with
  | nil => simp
  | cons n s ih =>
    obtain ⟨x, -, hs⟩ | ⟨xs, s', -, hn, hs, hxs⟩ := h.cases_items
    · cases hs
    · cases hs
      obtain ⟨x, hx⟩ := exists_mem_of_ne_nil xs hn
      have hl := length_pos_iff.2 hn
      exact forall_mem_cons.2 ⟨by omega, ih (hxs x hx)⟩

theorem haveShape_ok (h : ∀ x ∈ xs, x.shapeOf = .ok s) : haveShape s xs = .ok () := by
  induction xs with
  | nil => rfl
  | cons x xs ih =>
    obtain ⟨hx, hs⟩ := forall_mem_cons.1 h
    rw [haveShape, hx]
    simp only [bind, Except.bind, if_true]
    exact ih hs

theorem nestedShape_ok (hn : xs ≠ []) (h : ∀ x ∈ xs, x.shapeOf = .ok s) :
    nestedShape xs = .ok ((xs.length : Int) :: s) := by
  obtain _ | ⟨x, xs⟩ := xs
  · exact absurd rfl hn
  · obtain ⟨hx, hs⟩ := forall_mem_cons.1 h
    rw [nestedShape, hx]
    simp only [bind, Except.bind, haveShape_ok hs]
    rfl

theorem leavesAll_eq_flatMap (xs : List Datum) : leavesAll xs = xs.flatMap leaves := by
  induction xs with
  | nil => rfl
  | cons x xs ih => rw [leavesAll, ih, flatMap_cons]

/-- Scalars under a shape: a shape without dimensions gives way to that of a list, and one with
dimensions needs a scalar under it. -/
theorem build_scalars (xs : List Scalar) (s : Shape) :
    Tensor.build (xs.map scalar) s = if s = [] then .ok ⟨[(xs.length : Int)], xs.map scalar⟩
      else if xs = [] then .error (.violated .scalarSequence)
      else .ok ⟨s, xs.map scalar⟩ := by
  by_cases hx : xs = []
  · subst hx
    cases s <;> rfl
  · have hv : xs.map scalar ≠ [] := by simpa using hx
    by_cases hs : s = []
    · have hh := nestedShape_ok hv (forall_mem_map.2 fun x _ => rfl)
      have hl : leavesAll (xs.map scalar) = xs.map scalar := by
        rw [leavesAll_eq_flatMap, flatMap_map]
        exact map_eq_flatMap.symm
      rw [if_pos hs, hs]
      change (nestedShape _ >>= fun s => pure (Tensor.mk s (leavesAll _))) = _
      rw [hh, hl, length_map]
      rfl
    · rw [if_neg hs, if_neg hx]
      exact Tensor.build_of_isSingle (forall_mem_map.2 fun x _ => isSingle_scalar x) hv hs

theorem Nests.shapeOf_eq (h : d.Nests s) : d.shapeOf = .ok s := by
  induction h with
  | scalar x => rfl
  | list hn _ ih => exact nestedShape_ok hn ih
  | tuple hn _ ih => exact nestedShape_ok hn ih
  | bytes hn => rfl

theorem flatMap_leaves (hits : d.items? = some xs)
    (h : ∀ x ∈ xs, x.leaves = s.places.map x.entryAt) :
    xs.flatMap leaves = (Shape.places ((xs.length : Int) :: s)).map d.entryAt := by
  have hi : xs.flatMap leaves = (range xs.length).flatMap fun k =>
      s.places.map (xs.getD k .absent).entryAt := by
    have hl : xs = (range xs.length).map fun k => xs.getD k .absent :=
      ext_getElem (by simp) fun k hk _ => by simp [hk]
    rw [flatMap_congr h]
    conv_lhs => rw [hl, flatMap_map]
  rw [hi, Shape.places_cons, Slice.progression_zero, flatMap_map, map_flatMap, Int.toNat_natCast]
  refine flatMap_congr fun k _ => ?_
  rw [map_map]
  refine map_congr_left fun is _ => ?_
  rw [Function.comp_apply, entryAt_cons hits, Int.toNat_natCast]

theorem Nests.leaves_eq (h : d.Nests s) : d.leaves = s.places.map d.entryAt := by
  induction h with
  | scalar x => rfl
  | list _ _ ih => exact (leavesAll_eq_flatMap _).trans (flatMap_leaves rfl ih)
  | tuple _ _ ih => exact (leavesAll_eq_flatMap _).trans (flatMap_leaves rfl ih)
  | @bytes bs hn =>
    have hl : (Datum.bytes bs).leaves = (bs.map fun b => int b.toNat).flatMap leaves := by
      rw [flatMap_map]
      exact map_eq_flatMap
    have hp := flatMap_leaves (d := .bytes bs) (s := []) rfl (forall_mem_map.2 fun b _ => rfl)
    rw [hl, hp, length_map]

/-- The tensor of a regular nesting is the table of its numbers. -/
theorem Nests.tensorOf_eq (h : d.Nests s) : d.tensorOf = .ok (Tensor.tabulate s d.entryAt) := by
  have hs := h.shapeOf_eq
  have hl := h.leaves_eq
  have ht : ∀ xs, nestedShape xs = .ok s → leavesAll xs = s.places.map d.entryAt →
      (do return ⟨← nestedShape xs, leavesAll xs⟩ : Except Fault (Tensor Datum)) =
        .ok (Tensor.tabulate s d.entryAt) := by
    intro xs hx hl
    rw [hx, hl]
    rfl
  cases h with
  | scalar x => rfl
  | @list s xs => exact ht xs hs hl
  | @tuple s xs => exact ht xs hs hl
  | @bytes bs =>
    exact congrArg (fun values => Except.ok (Tensor.mk [(bs.length : Int)] values)) hl

end Datum

end Patchwork
