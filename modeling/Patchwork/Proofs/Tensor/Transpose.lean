import Patchwork.Datum.Basic
import Patchwork.Proofs.Tensor.Broadcast
import Mathlib.Algebra.BigOperators.Fin
import Mathlib.Data.Fin.Rev
import Mathlib.Data.List.GetD
import Mathlib.Logic.Equiv.Fin.Rotate
import Mathlib.Tactic.Ring

/-!
# Transposing tables

Transposing takes the elements of a tensor one after the other and writes each of them to the place
with its indices in the order of the axes. The axes are a permutation, so every place is written:
the transposed table has the element of the rearranged place at every place, and transposing by the
inverse permutation gives the table back.
-/

namespace Patchwork

open List Shape

/-! ## Numbers of places -/

namespace Shape

variable {s : Shape} {is : List Int}

/-- One dimension of the walk from a number to a multi-index. -/
def indexStep (d : Int) (acc : Int × List Int) : Except Fault (Int × List Int) :=
  if d = 0 then .error .divisionByZero
  else .ok (acc.1.fdiv d, acc.1.fmod d :: acc.2)

theorem indexStep_mul_add {d i : Int} (hi : 0 ≤ i ∧ i < d) (q : Int) (is : List Int) :
    indexStep d (q * d + i, is) = .ok (q, i :: is) := by
  have hd : 0 ≤ d := by omega
  have hq : (q * d + i).fdiv d = q := by
    rw [Int.fdiv_eq_ediv_of_nonneg _ hd, Int.add_comm, Int.add_mul_ediv_right _ _ (by omega),
      Int.ediv_eq_zero_of_lt hi.1 hi.2, Int.zero_add]
  have hr : (q * d + i).fmod d = i := by
    rw [Int.fmod_eq_emod_of_nonneg _ hd, Int.add_comm, Int.add_mul_emod_self_right,
      Int.emod_eq_of_lt hi.1 hi.2]
  rw [indexStep, if_neg (by omega), hq, hr]

/-- The walk over the dimensions of a place keeps what lies beyond the number of the place. -/
theorem foldrM_indexStep (his : is ∈ s.places) (q : Int) :
    s.foldrM indexStep (s.position is + q * s.size, []) = .ok (q, is) := by
  rw [mem_places] at his
  induction his generalizing q with
  | nil => simp [position, pure, Except.pure]
  | @cons d i s is hi his ih =>
    have hn : position (d :: s) (i :: is) + q * size (d :: s) =
        position s is + (q * d + i) * size s := by
      rw [position_cons his.length_eq.symm, size_cons]
      ring
    rw [foldrM_cons, hn, ih]
    exact indexStep_mul_add hi q is

/-- The multi-index of the number of a place is the place. -/
theorem indices_position (his : is ∈ s.places) : s.indices (s.position is) = .ok is := by
  have hw := foldrM_indexStep his 0
  rw [zero_mul, add_zero] at hw
  change (s.reverse.foldlM (fun acc d => indexStep d acc) (s.position is, []) >>= fun r =>
    .ok r.2) = _
  rw [foldlM_reverse, hw]
  rfl

/-! ## Rearranged places -/

section Rearranged

variable {n : Nat} {σ : Equiv.Perm (Fin n)}

/-- Indices or extents in the order of a permutation. -/
def rearranged (σ : Equiv.Perm (Fin n)) (xs : List Int) : List Int :=
  List.ofFn fun k => xs.getD (σ k) 0

@[simp] theorem length_rearranged (σ : Equiv.Perm (Fin n)) (xs : List Int) :
    (rearranged σ xs).length = n := length_ofFn

theorem getD_rearranged (σ : Equiv.Perm (Fin n)) (xs : List Int) (k : Fin n) :
    (rearranged σ xs).getD k 0 = xs.getD (σ k) 0 := by
  simp [rearranged]

theorem eq_ofFn {xs : List Int} (h : xs.length = n) : xs = ofFn fun k : Fin n => xs.getD k 0 := by
  subst h
  exact ext_getElem (by simp) fun k _ _ => by simp

theorem rearranged_symm {xs : List Int} (h : xs.length = n) :
    rearranged σ.symm (rearranged σ xs) = xs := by
  conv_rhs => rw [eq_ofFn h]
  rw [rearranged]
  simp only [getD_rearranged, Equiv.apply_symm_apply]

/-- A place has every index within the extent of its dimension. -/
theorem mem_places_iff (hs : s.length = n) (his : is.length = n) :
    is ∈ s.places ↔ ∀ k : Fin n, 0 ≤ is.getD k 0 ∧ is.getD k 0 < s.getD k 0 := by
  rw [mem_places, forall₂_iff_get]
  constructor
  · rintro ⟨-, h⟩ ⟨k, hk⟩
    have hb := h k (hs ▸ hk) (his ▸ hk)
    simpa [getElem?_eq_getElem (hs ▸ hk : k < s.length),
      getElem?_eq_getElem (his ▸ hk : k < is.length)] using hb
  · intro h
    refine ⟨hs.trans his.symm, fun k hk hk' => ?_⟩
    have hb := h ⟨k, hs ▸ hk⟩
    simpa [getElem?_eq_getElem hk, getElem?_eq_getElem hk'] using hb

theorem rearranged_mem (hs : s.length = n) (his : is ∈ s.places) :
    rearranged σ is ∈ places (rearranged σ s) := by
  have hl := (length_of_mem_places his).trans hs
  rw [mem_places_iff (length_rearranged σ s) (length_rearranged σ is)]
  intro k
  rw [getD_rearranged, getD_rearranged]
  exact (mem_places_iff hs hl).1 his (σ k)

theorem rearranged_positive (hs : s.length = n) (h : ∀ d ∈ s, 0 < d) :
    ∀ d ∈ rearranged σ s, 0 < d := by
  rw [rearranged, forall_mem_ofFn_iff]
  intro k
  have hk : (σ k : Nat) < s.length := hs ▸ (σ k).isLt
  rw [getD_eq_getElem _ _ hk]
  exact h _ (getElem_mem hk)

theorem size_eq_prod (s : Shape) : s.size = s.prod := by
  induction s with
  | nil => rfl
  | cons d s ih => rw [size_cons, ih, prod_cons]

theorem size_rearranged (hs : s.length = n) : size (rearranged σ s) = s.size := by
  rw [size_eq_prod, size_eq_prod, rearranged, prod_ofFn,
    Equiv.prod_comp σ fun k => s.getD k 0, ← prod_ofFn, ← eq_ofFn hs]

end Rearranged

end Shape

/-! ## Axes -/

namespace Tensor

variable {α : Type} {n : Nat} {σ : Equiv.Perm (Fin n)} {s : Shape} {f : List Int → α}

/-- A permutation as a list of axes. -/
def axesOf (σ : Equiv.Perm (Fin n)) : List Int := List.ofFn fun k => ((σ k : Nat) : Int)

@[simp] theorem length_axesOf (σ : Equiv.Perm (Fin n)) : (axesOf σ).length = n := length_ofFn

theorem gather_axesOf {xs : List Int} (h : xs.length = n) :
    gather xs (axesOf σ) = .ok (rearranged σ xs) := by
  rw [gather, axesOf, mapM_ok_iff, rearranged, forall₂_iff_get]
  refine ⟨by simp, fun k hk hk' => ?_⟩
  have hk : k < n := by simpa using hk
  have he : ((σ ⟨k, hk⟩ : Fin n) : Nat) < xs.length := h ▸ (σ ⟨k, hk⟩).isLt
  simp only [get_ofFn, Fin.cast_mk]
  refine Sequence.at_natCast ?_
  rw [getD_eq_getElem _ _ he]
  exact getElem?_eq_getElem he

theorem reversedAxes_eq (n : Nat) : reversedAxes n = axesOf (Fin.revPerm : Equiv.Perm (Fin n)) := by
  refine ext_getElem (by simp [reversedAxes]) fun k hk _ => ?_
  have hk : k < n := by simpa [reversedAxes] using hk
  simp [reversedAxes, axesOf, Fin.rev]
  omega

/-- Writing right elements to all positions gives the right list, in whatever order and however
often they are written. -/
theorem foldlM_writes {β : Type} {write : List α → β → Except Fault (List α)}
    {target start : List α} {xs : List β} (number : β → Nat) (hl : start.length = target.length)
    (hw : ∀ x ∈ xs, ∃ y, target[number x]? = some y ∧
      ∀ moved : List α, moved.length = target.length → write moved x = .ok (moved.set (number x) y))
    (ha : ∀ k < target.length, start[k]? = target[k]? ∨ ∃ x ∈ xs, number x = k) :
    xs.foldlM write start = .ok target := by
  induction xs generalizing start with
  | nil =>
    refine congrArg Except.ok (ext_getElem? fun k => ?_)
    by_cases hk : k < target.length
    · simpa using ha k hk
    · rw [getElem?_eq_none (by omega), getElem?_eq_none (by omega)]
  | cons x xs ih =>
    obtain ⟨⟨y, hy, hs⟩, hr⟩ := forall_mem_cons.1 hw
    rw [foldlM_cons, hs start hl]
    refine ih (by simpa using hl) hr fun k hk => ?_
    -- the position that was written is right from here on, and the others are as before
    by_cases hn : number x = k
    · subst hn
      refine .inl ?_
      rw [hy, getElem?_set_self (by omega)]
    · rw [getElem?_set_ne hn]
      refine (ha k hk).imp id ?_
      rintro ⟨x', hm, hx'⟩
      exact ⟨x', (mem_cons.1 hm).resolve_left fun h => hn (h ▸ hx'), hx'⟩

/-! ## Transposed tables -/

theorem rank_rearranged (σ : Equiv.Perm (Fin n)) (s : Shape) (f : List Int → α) :
    (tabulate (rearranged σ s) f).rank = n := length_rearranged σ s

theorem mem_values_rearranged (hs : s.length = n) {v : α} :
    v ∈ (tabulate (rearranged σ s) fun js => f (rearranged σ.symm js)).values ↔
      v ∈ (tabulate s f).values := by
  simp only [tabulate, mem_map]
  constructor
  · rintro ⟨js, hj, rfl⟩
    have hb := rearranged_mem (σ := σ.symm) (length_rearranged σ s) hj
    rw [rearranged_symm hs] at hb
    exact ⟨_, hb, rfl⟩
  · rintro ⟨is, his, rfl⟩
    refine ⟨_, rearranged_mem hs his, ?_⟩
    rw [rearranged_symm ((length_of_mem_places his).trans hs)]

/-- The number of the place to which the element of a place moves. -/
def movedTo (σ : Equiv.Perm (Fin n)) (s : Shape) (k : Nat) : Nat :=
  (Shape.position (Shape.rearranged σ s) (Shape.rearranged σ (s.places.getD k []))).toNat

theorem movedTo_spec (hp : ∀ d ∈ s, 0 < d) (hs : s.length = n) {is : List Int} {k : Nat}
    (hk : s.places[k]? = some is) :
    (places (rearranged σ s))[movedTo σ s k]? = some (rearranged σ is) ∧
      position (rearranged σ s) (rearranged σ is) = (movedTo σ s k : Int) := by
  obtain ⟨k', hl, hn⟩ := exists_place (rearranged_positive (σ := σ) hs hp)
    (rearranged_mem (σ := σ) hs (mem_of_getElem? hk))
  have hm : movedTo σ s k = k' := by
    rw [movedTo, getD_eq_getElem?_getD, hk, Option.getD_some, hn, Int.toNat_natCast]
  rw [hm]
  exact ⟨hl, hn⟩

theorem exists_movedTo (ho : ∀ d ∈ s, 0 < d) (hs : s.length = n) {k : Nat}
    (hk : k < (places (rearranged σ s)).length) :
    ∃ m, ∃ is, s.places[m]? = some is ∧ movedTo σ s m = k := by
  have hp := getElem?_eq_getElem hk
  have hb := rearranged_mem (σ := σ.symm) (length_rearranged σ s) (mem_of_getElem? hp)
  rw [rearranged_symm hs] at hb
  obtain ⟨m, hm⟩ := getElem?_of_mem hb
  refine ⟨m, _, hm, ?_⟩
  have hn := (movedTo_spec (σ := σ) ho hs hm).2
  have hf := rearranged_symm (σ := σ.symm) ((length_of_mem_places (mem_of_getElem? hp)).trans
      (length_rearranged σ s))
  rw [Equiv.symm_symm] at hf
  rw [hf, position_of_getElem? (rearranged_positive hs ho) hp] at hn
  exact (Int.ofNat.inj hn).symm

theorem moved_tabulate (hp : ∀ d ∈ s, 0 < d) (hs : s.length = n) (hole : α) :
    (tabulate s f).values.zipIdx.foldlM (fun (moved : List α) (entry : α × Nat) => do
      let old ← s.indices entry.2
      Sequence.put moved (position (rearranged σ s) (← gather old (axesOf σ))) entry.1)
      (replicate (tabulate s f).values.length hole) =
        .ok (tabulate (rearranged σ s) fun js => f (rearranged σ.symm js)).values := by
  have he : (tabulate (rearranged σ s) fun js =>
      f (rearranged σ.symm js)).values.length = (tabulate s f).values.length := by
    rw [tabulate, length_map, tabulate, length_map, length_places hp,
      length_places (rearranged_positive hs hp), size_rearranged hs]
  refine foldlM_writes (fun entry => movedTo σ s entry.2) ?_ ?_ ?_
  · rw [length_replicate, he]
  · rintro ⟨x, k⟩ hmem
    have hx : (s.places.map f)[k]? = some x := mem_zipIdx_iff_getElem?.1 hmem
    rw [getElem?_map, Option.map_eq_some_iff] at hx
    obtain ⟨is, hk, rfl⟩ := hx
    have his := mem_of_getElem? hk
    have hr : is.length = n := (length_of_mem_places his).trans hs
    obtain ⟨hl, hn⟩ := movedTo_spec (σ := σ) hp hs hk
    refine ⟨f is, ?_, fun moved ho => ?_⟩
    · rw [tabulate, getElem?_map, hl, Option.map_some, rearranged_symm hr]
    · have hin : movedTo σ s k < moved.length := by
        rw [ho, tabulate, length_map]
        exact (List.getElem?_eq_some_iff.1 hl).1
      have hi := indices_position his
      rw [position_of_getElem? hp hk] at hi
      simp only [hi, bind, Except.bind, gather_axesOf hr, hn]
      exact Sequence.put_natCast hin _
  · intro k hk
    rw [tabulate, length_map] at hk
    obtain ⟨m, is, hm, ho⟩ := exists_movedTo hp hs hk
    refine .inr ⟨(f is, m), mem_zipIdx_iff_getElem?.2 ?_, ho⟩
    simp [tabulate, hm]

variable [Element α]

theorem Built.rearranged (hs : s.length = n) (h : (tabulate s f).Built) :
    (tabulate (rearranged σ s) fun js => f (rearranged σ.symm js)).Built := by
  obtain ⟨⟨v, hv, hc⟩, he⟩ := h
  exact ⟨⟨v, (mem_values_rearranged hs).2 hv, hc⟩,
    fun v hv => he v ((mem_values_rearranged hs).1 hv)⟩

/-- The transposed table: at every place stands the element of the rearranged place. -/
theorem transpose_tabulate (hp : ∀ d ∈ s, 0 < d) (hs : s.length = n) (hn : 0 < n)
    (hb : (tabulate s f).Built) :
    (tabulate s f).transpose (axesOf σ) =
      .ok (tabulate (rearranged σ s) fun js => f (rearranged σ.symm js)) := by
  have hx : ¬ (axesOf σ).isEmpty := by
    rw [List.isEmpty_iff, ← length_eq_zero_iff, length_axesOf]
    omega
  have hc : ¬ (axesOf σ).length ≠ (tabulate s f).rank := not_not.2 ((length_axesOf σ).trans hs.symm)
  have hr : ¬ ((axesOf σ).any fun a =>
      decide (a < 0) || decide (((tabulate s f).rank : Int) ≤ a)) := by
    rw [any_eq_true]
    rintro ⟨a, ha, ho⟩
    obtain ⟨k, rfl⟩ := mem_ofFn.1 ha
    have hk : (σ k : Nat) < s.length := hs ▸ (σ k).isLt
    simp [rank] at ho
    omega
  have hrk : rearranged σ s ≠ [] := by
    rw [← length_pos_iff, length_rearranged]
    exact hn
  have hm := moved_tabulate (f := f) (σ := σ) hp hs Element.hole
  rw [transpose, if_neg hx, if_neg hc, if_neg hr, shape_tabulate, gather_axesOf hs]
  simp only [bind, Except.bind] at hm ⊢
  rw [hm]
  exact (hb.rearranged hs).build_eq hrk

theorem transpose_symm (hp : ∀ d ∈ s, 0 < d) (hs : s.length = n) (hn : 0 < n)
    (hb : (tabulate s f).Built) :
    (tabulate (rearranged σ s) fun js => f (rearranged σ.symm js)).transpose
      (axesOf σ.symm) = .ok (tabulate s f) := by
  rw [transpose_tabulate (rearranged_positive hs hp) (length_rearranged σ s) hn
    (hb.rearranged hs), rearranged_symm hs]
  refine congrArg Except.ok (tabulate_congr fun is his => ?_)
  rw [Equiv.symm_symm, rearranged_symm ((length_of_mem_places his).trans hs)]

theorem transpose_nil {t : Tensor α} (hn : t.rank = n) (hp : 0 < n) :
    t.transpose [] = t.transpose (axesOf (Fin.revPerm : Equiv.Perm (Fin n))) := by
  have ha : ¬ (axesOf (Fin.revPerm : Equiv.Perm (Fin n))).isEmpty := by
    rw [List.isEmpty_iff, ← length_eq_zero_iff, length_axesOf]
    omega
  rw [transpose, transpose, if_pos isEmpty_nil, if_neg ha, hn, reversedAxes_eq]

/-- **The transposed tensor.** For every permutation of the axes, the extents are those of the
permuted axes, the element at permuted indices is the element at the indices, transposing by the
inverse permutation gives the tensor back, and so does reversing the axes twice. -/
theorem transpose_rearranges {t : Tensor α} (ht : t.Full) (hbuilt : t.Built) (hn : t.rank = n)
    (hpos : 0 < n) (σ : Equiv.Perm (Fin n)) :
    ∃ u : Tensor α, t.transpose (axesOf σ) = .ok u ∧ u.rank = n ∧
      (∀ k : Fin n, u.shape[(k : Nat)]? = t.shape[(σ k : Nat)]?) ∧
      (∀ i : Fin n → Int, (∀ k, 0 ≤ i k ∧ i k < t.shape.getD k 0) →
        ∃ x, t.get (List.ofFn i) = .ok x ∧ u.get (List.ofFn fun k => i (σ k)) = .ok x) ∧
      u.transpose (axesOf σ.symm) = .ok t ∧
      (t.transpose [] >>= fun v => v.transpose []) = .ok t := by
  obtain ⟨v, -, -⟩ := hbuilt.number
  let _ : Inhabited α := ⟨v⟩
  have ha := ht.eq_tabulate
  have hbuilt' : (tabulate t.shape t.entry).Built := ha ▸ hbuilt
  have hp := Shape.rearranged_positive (σ := σ) hn ht.positive
  refine ⟨tabulate (Shape.rearranged σ t.shape) fun js => t.entry (Shape.rearranged σ.symm js),
    ?_, rank_rearranged σ _ _, ?_, ?_, ?_, ?_⟩
  · conv_lhs => rw [ha]
    exact transpose_tabulate ht.positive hn hpos hbuilt'
  · intro k
    have hk : (σ k : Nat) < t.shape.length := hn ▸ (σ k).isLt
    simp [Shape.rearranged, List.getElem?_eq_getElem hk]
  · intro i hi
    have hl : List.ofFn i ∈ t.shape.places := by
      rw [Shape.mem_places_iff hn List.length_ofFn]
      simpa using hi
    have hm : Shape.rearranged σ (List.ofFn i) = List.ofFn fun k => i (σ k) := by
      simp [Shape.rearranged]
    refine ⟨_, ht.covered.get_eq hl, ?_⟩
    rw [← hm, get_tabulate hp (Shape.rearranged_mem hn hl),
      Shape.rearranged_symm List.length_ofFn]
  · rw [transpose_symm ht.positive hn hpos hbuilt', ← ha]
  · have hf := transpose_tabulate (σ := Fin.revPerm) ht.positive hn hpos hbuilt'
    have hb := transpose_symm (σ := Fin.revPerm) ht.positive hn hpos hbuilt'
    rw [← ha, ← transpose_nil hn hpos] at hf
    rw [← ha, Fin.revPerm_symm, ← transpose_nil (rank_rearranged _ _ _) hpos] at hb
    rw [hf]
    exact hb

def oneLayer : Tensor Datum := ⟨[1, 2, 3], [.int 1, .int 2, .int 3, .int 4, .int 5, .int 6]⟩

/-- The axes moved on by one, and back. -/
theorem oneLayer_rotated :
    ∃ u, oneLayer.transpose [1, 2, 0] = .ok u ∧ u.get [0, 1, 0] = .ok (.int 2) ∧
      u.get [1, 2, 0] = .ok (.int 6) ∧ u.transpose [2, 0, 1] = .ok oneLayer := by
  have hu : oneLayer.Built :=
    ⟨⟨.int 1, List.mem_cons_self, rfl⟩, by simp [oneLayer, Datum.int, Element.isSequence,
      Datum.isSequence, Datum.items?]⟩
  obtain ⟨u, hf, -, -, hg, hb, -⟩ := transpose_rearranges (t := oneLayer) (n := 3)
    ⟨by decide, rfl⟩ hu rfl (by decide) (finRotate 3)
  have ha : axesOf (finRotate 3) = [1, 2, 0] := by decide
  have hi : axesOf (finRotate 3).symm = [2, 0, 1] := by decide
  rw [ha] at hf
  rw [hi] at hb
  obtain ⟨x, hx, hx'⟩ := hg ![0, 0, 1] (by decide)
  obtain ⟨y, hy, hy'⟩ := hg ![0, 1, 2] (by decide)
  refine ⟨u, hf, ?_, ?_, hb⟩
  · exact hx'.trans hx.symm
  · exact hy'.trans hy.symm

def crowded : Tensor Datum := ⟨[2, 2], [.int 1, .int 2, .int 3, .int 4, .int 5]⟩

/-- An element without a place of its own is written over the first one. -/
theorem surplus_overwrites :
    ∃ u, crowded.transpose [1, 0] = .ok u ∧ crowded.get [0, 0] = .ok (.int 1) ∧
      u.get [0, 0] = .ok (.int 5) :=
  ⟨⟨[2, 2], [.int 5, .int 3, .int 2, .int 4, .absent]⟩, rfl, rfl, rfl⟩

end Tensor

end Patchwork
