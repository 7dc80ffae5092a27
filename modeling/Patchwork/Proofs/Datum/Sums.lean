import Patchwork.Proofs.Datum.Integers
import Patchwork.Proofs.Tensor.Reduction

/-!
# Sums over axes of a tensor

The elements of a tensor are taken in the order of the flat list, and each is added to the place it
contributes to, or fills it. What a place holds in between is the sum of the elements so far that
contribute to it, or the first element of the tensor as long as there are none. At the end of a full
tensor every place has been reached, so this is a sum over axes. A surplus element goes round and is
added once more; where elements are missing, some places keep what they were started with.
-/

namespace Patchwork

open List Sequence Shape Trace

namespace Datum

open Tensor

/-! ## Partial sums -/

section Partial

variable {room n k : Nat} {start x : Int} {entries : List (Nat × Int)}

def reached (entries : List (Nat × Int)) (n : Nat) : Bool := entries.any (·.1 == n)

def deposited (entries : List (Nat × Int)) (n : Nat) : Int :=
  (entries.map fun e => if e.1 = n then e.2 else 0).sum

/-- What a place holds after some entries: the sum of those with its number, or what it held at the
start if there are none. -/
def gathered (start : Int) (entries : List (Nat × Int)) (n : Nat) : Int :=
  if reached entries n then deposited entries n else start

/-- The partial sums after some entries, each of them with the number of its place. -/
def gatheredIn (room : Nat) (start : Int) (entries : List (Nat × Int)) : Partial Datum where
  values := (List.range room).map fun n => int (gathered start entries n)
  filled := (List.range room).map (reached entries)

theorem gatheredIn_nil (room : Nat) (start : Int) :
    gatheredIn room start [] = ⟨replicate room (int start), replicate room false⟩ := by
  have hn : reached [] = fun _ => false := rfl
  simp [gatheredIn, gathered, hn, map_const']

theorem reached_append (entries : List (Nat × Int)) (n : Nat) (x : Int) (k : Nat) :
    reached (entries ++ [(n, x)]) k = (reached entries k || n == k) := by
  simp [reached]

theorem deposited_append (entries : List (Nat × Int)) (n : Nat) (x : Int) (k : Nat) :
    deposited (entries ++ [(n, x)]) k = deposited entries k + if n = k then x else 0 := by
  simp [deposited]

theorem deposited_eq_zero (h : reached entries n = false) : deposited entries n = 0 := by
  refine sum_eq_zero ?_
  intro y hy
  obtain ⟨e, he, rfl⟩ := mem_map.1 hy
  rw [reached, any_eq_false] at h
  exact if_neg fun hn => h e he (beq_iff_eq.2 hn)

/-- A new entry is added to what stands at its number, or fills it. -/
theorem gathered_append_self (start : Int) (entries : List (Nat × Int)) (n : Nat) (x : Int) :
    gathered start (entries ++ [(n, x)]) n =
      if reached entries n then gathered start entries n + x else x := by
  cases h : reached entries n with
  | true => simp [gathered, reached_append, deposited_append, h]
  | false => simp [gathered, reached_append, deposited_append, h, deposited_eq_zero h]

theorem gathered_append_of_ne (h : k ≠ n) :
    gathered start (entries ++ [(n, x)]) k = gathered start entries k := by
  simp [gathered, reached_append, deposited_append, h.symm]

theorem set_map_range {β : Type} {f h : Nat → β} (heq : ∀ k, k ≠ n → h k = f k) :
    ((range room).map f).set n (h n) = (range room).map h := by
  refine ext_getElem (by simp) fun k hk _ => ?_
  rw [getElem_set]
  split
  · next hn => simp [← hn]
  · next hn => simp [heq k (Ne.symm hn)]

/-- One more entry is added to its place, or fills it. -/
theorem add_gatheredIn (h : n < room) (start : Int) (entries : List (Nat × Int)) (x : Int) :
    (gatheredIn room start entries).add n (int x) =
      (pure (gatheredIn room start (entries ++ [(n, x)])) : Trace (Partial Datum)) := by
  have ha : Sequence.at (gatheredIn room start entries).values n =
      .ok (int (gathered start entries n)) := at_natCast (by simp [gatheredIn, h])
  have hf : Sequence.at (gatheredIn room start entries).filled n =
      .ok (reached entries n) := at_natCast (by simp [gatheredIn, h])
  have hp : ∀ d : Datum, Sequence.put (gatheredIn room start entries).values n d =
      .ok ((gatheredIn room start entries).values.set n d) := fun d =>
    put_natCast (by simpa [gatheredIn] using h) d
  have hmk : Sequence.put (gatheredIn room start entries).filled n true =
      .ok ((gatheredIn room start entries).filled.set n true) :=
    put_natCast (by simpa [gatheredIn] using h) true
  have hv : ((range room).map fun n => int (gathered start entries n)).set n
      (int (gathered start (entries ++ [(n, x)]) n)) =
        (range room).map fun k => int (gathered start (entries ++ [(n, x)]) k) :=
    set_map_range fun k hk =>
      congrArg int (gathered_append_of_ne hk)
  have hm : ((range room).map (reached entries)).set n
      (reached (entries ++ [(n, x)]) n) = (range room).map (reached (entries ++ [(n, x)])) :=
    set_map_range fun k hk => by simp [reached_append, hk.symm]
  rw [gathered_append_self] at hv
  rw [Partial.add, hf, lift_ok_bind]
  cases hr : reached entries n with
  | true =>
    have hs : (range room).map (reached entries) =
        (range room).map (reached (entries ++ [(n, x)])) := by
      refine map_congr_left fun k _ => ?_
      by_cases hk : n = k
      · simp [reached_append, ← hk, hr]
      · simp [reached_append, hk]
    rw [hr, if_pos rfl] at hv
    rw [if_pos rfl, ha, lift_ok_bind, scalarwise_dyadic.add_int, pure_bind, hp, lift_ok_bind]
    simp only [gatheredIn]
    rw [hv, hs]
  | false =>
    rw [hr, if_neg Bool.false_ne_true] at hv
    rw [reached_append, beq_self_eq_true, Bool.or_true] at hm
    rw [if_neg Bool.false_ne_true, hp, lift_ok_bind, hmk, lift_ok_bind]
    simp only [gatheredIn]
    rw [hv, hm]

/-- Entries are gathered one after the other. -/
theorem foldlM_gatheredIn (hn : ∀ e ∈ entries, e.1 < room) (start : Int)
    (before : List (Nat × Int)) :
    entries.foldlM (fun (p : Partial Datum) e => p.add e.1 (int e.2))
      (gatheredIn room start before) =
        (pure (gatheredIn room start (before ++ entries)) : Trace (Partial Datum)) := by
  induction entries generalizing before with
  | nil => simp
  | cons e entries ih =>
    obtain ⟨he, hn⟩ := forall_mem_cons.1 hn
    rw [foldlM_cons, add_gatheredIn he, pure_bind, ih hn, append_assoc]
    rfl

end Partial

/-! ## Sums over axes -/

section Axes

variable {t : Tensor Int} {as : List Nat} {s : Shape} {is : List Int}

theorem summedAxes_ok {rank : Nat} (h : ∀ a ∈ as, a < rank) :
    ∃ axes, summedAxes rank (as.map fun (a : Nat) => (a : Int)) = .ok axes ∧
      ∀ k, k ∈ axes ↔ k ∈ as := by
  refine ⟨as.eraseDups.mergeSort (· ≥ ·), ?_, fun k => ?_⟩
  · rw [summedAxes, mapM_ok_map (h := Int.toNat)]
    · simp [Function.comp_def, bind, Except.bind, pure, Except.pure]
    · intro i hi
      obtain ⟨a, ha, rfl⟩ := mem_map.1 hi
      exact if_pos ⟨Int.natCast_nonneg a, Int.ofNat_lt.2 (h a ha)⟩
  · rw [mem_mergeSort, mem_eraseDups]

/-- The number of the place to which a place of the whole contributes. -/
def slot (s : Shape) (as : List Nat) (is : List Int) : Nat :=
  (Shape.position (dropPositions s as) (dropPositions is as)).toNat

theorem slot_spec (hs : ∀ d ∈ s, 0 < d) (his : is ∈ s.places) (as : List Nat) :
    (Shape.places (dropPositions s as))[slot s as is]? = some (dropPositions is as) ∧
      Shape.position (dropPositions s as) (dropPositions is as) = (slot s as is : Int) := by
  have hr : ∀ d ∈ dropPositions s as, 0 < d := dropPositions_positive hs
  obtain ⟨k, hk, hn⟩ := exists_place hr (dropPositions_mem his)
  have hl : slot s as is = k := by rw [slot, hn, Int.toNat_natCast]
  rw [hl]
  exact ⟨hk, hn⟩

/-- The elements of a tensor, each with the number of the place to which it contributes. -/
def deposits (t : Tensor Int) (as : List Nat) : List (Nat × Int) :=
  t.values.zipIdx.map fun e => (slot t.shape as (t.shape.placeAt e.2), e.1)

def sums (t : Tensor Int) (as : List Nat) : List Int :=
  (List.range (Shape.size (dropPositions t.shape as)).toNat).map
    (gathered (t.values.headD 0) (deposits t as))

theorem sums_ne_nil (hp : ∀ d ∈ t.shape, 0 < d) (as : List Nat) : sums t as ≠ [] := by
  have hs : 0 < Shape.size (dropPositions t.shape as) := size_pos (dropPositions_positive hp)
  rw [← length_pos_iff, sums, length_map, length_range]
  omega

theorem deposits_lt (hp : ∀ d ∈ t.shape, 0 < d) (as : List Nat) :
    ∀ e ∈ deposits t as, e.1 < (Shape.size (dropPositions t.shape as)).toNat := by
  intro e he
  obtain ⟨f, -, rfl⟩ := mem_map.1 he
  have hl := (slot_spec hp (placeAt_mem hp f.2) as).1
  rw [← length_places (dropPositions_positive hp)]
  exact (List.getElem?_eq_some_iff.1 hl).1

/-- The elements of a tensor are gathered one after the other, each at the place it contributes to. -/
theorem foldlM_deposits (hp : ∀ d ∈ t.shape, 0 < d) (as : List Nat) (start : Int) :
    (ints t).values.zipIdx.foldlM (fun (p : Partial Datum) e => do
        let indices ← Fault.lift (t.shape.indices e.2)
        p.add (Shape.position (dropPositions t.shape as) (dropPositions indices as)) e.1)
      (gatheredIn (Shape.size (dropPositions t.shape as)).toNat start []) =
        (pure (gatheredIn (Shape.size (dropPositions t.shape as)).toNat start (deposits t as)) :
          Trace (Partial Datum)) := by
  have hv : (ints t).values.zipIdx = t.values.zipIdx.map fun e => (int e.1, e.2) := by
    simp [ints, zipIdx_map, Prod.map]
  have hs : ∀ k, Shape.position (dropPositions t.shape as)
      (dropPositions (t.shape.placeAt k) as) = (slot t.shape as (t.shape.placeAt k)) :=
    fun k => (slot_spec hp (placeAt_mem hp k) as).2
  have hf := foldlM_gatheredIn (deposits_lt hp as) start []
  rw [nil_append] at hf
  rw [← hf, hv, foldlM_map, deposits, foldlM_map]
  simp only [indices_natCast hp, lift_ok_bind, hs]

theorem unitPositions_ne_nil (h : s ≠ []) (as : List Nat) : unitPositions s as ≠ [] := by
  simpa [unitPositions] using h

/-- A sum over some axes, not all of them. -/
theorem sum_ints (hp : ∀ d ∈ t.shape, 0 < d) (hv : t.values ≠ [])
    (hb : ∀ a ∈ as, a < t.rank) (ho : ∃ k < t.rank, k ∉ as) (keep : Bool) :
    (ints t).sum (as.map fun (a : Nat) => (a : Int)) keep =
      (pure (.tensor (ints ⟨if keep then unitPositions t.shape as
        else dropPositions t.shape as, sums t as⟩)) : Trace (Reduced Datum)) := by
  obtain ⟨axes, ha, hm⟩ := summedAxes_ok hb
  have hun : unitPositions t.shape axes = unitPositions t.shape as := by
    simp only [unitPositions, contains_eq_mem, hm]
  have hs : dropPositions t.shape as ≠ [] := dropPositions_ne_nil_iff.2 ho
  have hf : Sequence.at (ints t).values 0 = .ok (int (t.values.headD 0)) := by
    refine at_natCast ?_
    cases hvs : t.values with
    | nil => exact absurd hvs hv
    | cons i is => simp [ints, hvs]
  have hn : (dropPositions t.shape as).isEmpty = false := by simpa using hs
  have hu : (gatheredIn (Shape.size (dropPositions t.shape as)).toNat (t.values.headD 0)
      (deposits t as)).values = (sums t as).map int := by
    simp [gatheredIn, sums]
  have hk : (if keep then unitPositions t.shape as
      else dropPositions t.shape as) ≠ [] := by
    split
    · exact unitPositions_ne_nil (fun h => hs (by rw [h]; rfl)) as
    · exact hs
  rw [Tensor.sum, ints_rank, ha, lift_ok_bind, hf, ints_shape]
  simp only [dropPositions_congr hm, hun]
  rw [hn, lift_ok_bind, ← gatheredIn_nil]
  refine (congrArg (· >>= _) (foldlM_deposits hp as (t.values.headD 0))).trans ?_
  rw [pure_bind, hu, build_ints (sums_ne_nil hp as) hk, lift_ok_bind]

/-! ### Full tensors -/

theorem deposits_full (ht : t.Full) (as : List Nat) :
    deposits t as = t.shape.places.map fun is => (slot t.shape as is, t.entry is) := by
  have hv : t.values = t.shape.places.map t.entry := congrArg Tensor.values ht.eq_tabulate
  have hp : ∀ e ∈ t.shape.places.zipIdx,
      (slot t.shape as (t.shape.placeAt e.2), t.entry e.1) = (slot t.shape as e.1, t.entry e.1) := by
    intro e he
    rw [placeAt_of_getElem? (mem_zipIdx_iff_getElem?.1 he)]
  calc deposits t as
      = t.shape.places.zipIdx.map fun e => (slot t.shape as (t.shape.placeAt e.2), t.entry e.1) := by
        rw [deposits, hv, zipIdx_map, map_map]
        rfl
    _ = t.shape.places.zipIdx.map fun e => (slot t.shape as e.1, t.entry e.1) := map_congr_left hp
    _ = t.shape.places.map fun is => (slot t.shape as is, t.entry is) := by
        conv_rhs => rw [← zipIdx_map_fst 0 t.shape.places, map_map]
        rfl

theorem slot_eq_iff (hs : ∀ d ∈ s, 0 < d) (his : is ∈ s.places) {js : List Int} {n : Nat}
    (hj : (Shape.places (dropPositions s as))[n]? = some js) :
    slot s as is = n ↔ dropPositions is as = js := by
  obtain ⟨hl, hp⟩ := slot_spec hs his as
  constructor
  · rintro rfl
    exact Option.some.inj (hl.symm.trans hj)
  · rintro rfl
    have hn := position_of_getElem? (dropPositions_positive hs) hj
    omega

/-- The sums over axes of a full tensor, place by place. -/
theorem sums_full (ht : t.Full) (as : List Nat) :
    sums t as = (Shape.places (dropPositions t.shape as)).map (sumOver as t.shape t.entry) := by
  have hrs : ∀ d ∈ dropPositions t.shape as, 0 < d := dropPositions_positive ht.positive
  refine ext_getElem? fun n => ?_
  rw [sums, ← length_places hrs, getElem?_map, getElem?_map]
  cases hj : (Shape.places (dropPositions t.shape as))[n]? with
  | none => simp [List.getElem?_eq_none_iff.1 hj]
  | some js =>
    have hn := (List.getElem?_eq_some_iff.1 hj).1
    have hm := mem_of_getElem? hj
    have hr : reached (deposits t as) n := by
      obtain ⟨is, his, hd⟩ := exists_dropPositions ht.positive hm
      rw [deposits_full ht, reached, any_map, any_eq_true]
      exact ⟨is, his, beq_iff_eq.2 ((slot_eq_iff ht.positive his hj).2 hd)⟩
    have hs : deposited (deposits t as) n = sumOver as t.shape t.entry js := by
      rw [deposits_full ht, deposited, map_map, sumOver, Finset.sum_filter,
        ← sum_places ht.positive]
      refine congrArg List.sum (map_congr_left fun is his => ?_)
      exact if_congr (slot_eq_iff ht.positive his hj) rfl rfl
    simp [hn, gathered, hr, hs]

/-- The tensor of the sums over axes. -/
def reduced (t : Tensor Int) (as : List Nat) : Tensor Int :=
  tabulate (dropPositions t.shape as) (sumOver as t.shape t.entry)

theorem full_reduced (ht : t.Full) (as : List Nat) : (reduced t as).Full :=
  full_tabulate (dropPositions_positive ht.positive) _

theorem get_reduced (ht : t.Full) {js : List Int} (hj : js ∈ (reduced t as).shape.places) :
    (reduced t as).get js = .ok (sumOver as t.shape t.entry js) :=
  get_tabulate (dropPositions_positive ht.positive) hj

theorem entry_reduced (ht : t.Full) {js : List Int} (hj : js ∈ (reduced t as).shape.places) :
    (reduced t as).entry js = sumOver as t.shape t.entry js :=
  entry_tabulate (dropPositions_positive ht.positive) hj

theorem reduced_nil (ht : t.Full) : reduced t [] = t := by
  rw [reduced, dropPositions_nil]
  exact (tabulate_congr fun is his => sumOver_nil his).trans ht.eq_tabulate.symm

theorem reduced_congr {as' : List Nat} (h : ∀ k, k ∈ as ↔ k ∈ as') : reduced t as = reduced t as' := by
  have ho : sumOver as t.shape t.entry = sumOver as' t.shape t.entry := by
    funext js
    simp only [sumOver, dropPositions_congr h]
  rw [reduced, reduced, ho, dropPositions_congr h]

/-- One axis after the other: the highest axis can be summed first. -/
theorem reduced_reduced (ht : t.Full) {a : Nat} (h : ∀ i ∈ as, i < a) :
    reduced (reduced t [a]) as = reduced t (a :: as) := by
  have hs : dropPositions (reduced t [a]).shape as =
      dropPositions t.shape (a :: as) := dropPositions_dropPositions h t.shape
  rw [reduced, hs]
  refine tabulate_congr fun js _ => ?_
  rw [← sumOver_sumOver h]
  refine Finset.sum_congr rfl fun is his => entry_reduced ht ?_
  exact mem_toFinset.1 (Finset.mem_filter.1 his).1

/-- The sum of everything stays what it is. -/
theorem sum_reduced (ht : t.Full) (as : List Nat) : (reduced t as).values.sum = t.values.sum := by
  have hr : ∀ d ∈ dropPositions t.shape as, 0 < d := dropPositions_positive ht.positive
  calc (reduced t as).values.sum
      = ∑ is ∈ t.shape.places.toFinset, t.entry is := (sum_places hr _).trans sum_sumOver
    _ = (t.shape.places.map t.entry).sum := (sum_places ht.positive _).symm
    _ = t.values.sum := congrArg (·.values.sum) ht.eq_tabulate.symm

end Axes

/-! ## Calls -/

section Calls

variable {t : Tensor Int} {axis : Datum} {as : List Nat}

/-- A datum that names axes: a number, or a tuple or list of numbers. -/
inductive NamesAxes : Datum → List Nat → Prop
  | one (a : Nat) : NamesAxes (int a) [a]
  | tuple (as : List Nat) : NamesAxes (tuple (as.map fun (a : Nat) => int a)) as
  | list (as : List Nat) : NamesAxes (list (as.map fun (a : Nat) => int a)) as

theorem needInts_natCast (as : List Nat) :
    needInts (as.map fun (a : Nat) => int a) = pure (as.map fun (a : Nat) => (a : Int)) := by
  have hr : ∀ d ∈ as.map fun (a : Nat) => int a, needInt d = pure (d.whole?.getD 0) := by
    intro d hd
    obtain ⟨a, -, rfl⟩ := mem_map.1 hd
    rfl
  rw [needInts, mapM_pure_map hr, map_map]
  rfl

theorem NamesAxes.axes_eq (h : NamesAxes axis as) :
    axes axis = pure (as.map fun (a : Nat) => (a : Int)) := by
  cases h with
  | one a => rfl
  | tuple => exact needInts_natCast as
  | list => exact needInts_natCast as

theorem NamesAxes.tensorSum_eq (h : NamesAxes axis as) (t : Tensor Datum) (keep : Bool) :
    tensorSum t axis (bool keep) = ofReduced <$> t.sum (as.map fun (a : Nat) => (a : Int)) keep := by
  have ht : (bool keep).truth = .ok keep := by cases keep <;> rfl
  have hc : tensorSum t axis (bool keep) = axes axis >>= fun is => ofReduced <$> t.sum is keep := by
    rw [tensorSum, ht]
    cases h <;> rfl
  rw [hc, h.axes_eq, pure_bind]

theorem sum_call_some (hp : ∀ d ∈ t.shape, 0 < d) (hv : t.values ≠ [])
    (ha : NamesAxes axis as) (hb : ∀ a ∈ as, a < t.rank) (hs : ∃ k < t.rank, k ∉ as) :
    Method.sum.call (ofInts t) ⟨[axis], []⟩ = pure (ofInts ⟨dropPositions t.shape as, sums t as⟩) ∧
      Method.sum.call (ofInts t) ⟨[axis], [("keepdims", bool true)]⟩ =
        pure (ofInts ⟨unitPositions t.shape as, sums t as⟩) := by
  have hl := sum_ints hp hv hb hs false
  have hk := sum_ints hp hv hb hs true
  constructor
  · refine (ha.tensorSum_eq (ints t) false).trans ?_
    rw [hl]
    rfl
  · refine (ha.tensorSum_eq (ints t) true).trans ?_
    rw [hk]
    rfl

theorem sum_call_full (ht : t.Full) (ha : NamesAxes axis as) (hb : ∀ a ∈ as, a < t.rank)
    (hs : ∃ k < t.rank, k ∉ as) :
    Method.sum.call (ofInts t) ⟨[axis], []⟩ = pure (ofInts (reduced t as)) := by
  rw [(sum_call_some ht.positive ht.values_ne_nil ha hb hs).1, sums_full ht]
  rfl

theorem sum_call_total (t : Tensor Int) :
    Method.sum.call (ofInts t) ⟨[], []⟩ = pure (int t.values.sum) := by
  change (ofReduced <$> (ints t).sumAll false : Trace Datum) = _
  rw [sumAll, mixedTotal_ints]
  rfl

/-- Sums over one axis after the other, the highest first. -/
theorem foldlM_sum_call (ht : t.Full) (ho : as.Pairwise (· > ·)) (hn : ∀ a ∈ as, a < t.rank)
    (hs : ∃ k < t.rank, k ∉ as) :
    as.foldlM (fun d (a : Nat) => Method.sum.call d ⟨[int a], []⟩) (ofInts t) =
      pure (ofInts (reduced t as)) := by
  induction as generalizing t with
  | nil => rw [foldlM_nil, reduced_nil ht]
  | cons a as ih =>
    obtain ⟨hh, ho⟩ := pairwise_cons.1 ho
    obtain ⟨ha, hn⟩ := forall_mem_cons.1 hn
    have he : dropPositions t.shape (a :: as) ≠ [] := dropPositions_ne_nil_iff.2 hs
    have hr : ∃ k < (reduced t [a]).rank, k ∉ as := by
      rw [← dropPositions_dropPositions hh, dropPositions_ne_nil_iff] at he
      exact he
    have hrk : (reduced t [a]).rank + 1 = t.rank :=
      length_dropFrom_single (Nat.zero_le a) (by rwa [Nat.zero_add])
    have hf : ∃ k < t.rank, k ∉ [a] := by
      obtain ⟨k, hk, hno⟩ := hs
      exact ⟨k, hk, fun hm => hno (by simp [mem_singleton.1 hm])⟩
    rw [foldlM_cons, sum_call_full ht (.one a) (by simpa using ha) hf, pure_bind,
      ih (full_reduced ht [a]) ho (fun b hb => by have := hh b hb; omega) hr, reduced_reduced ht hh]

/-- **A sum over some axes is exact.** Its shape is made of the remaining dimensions, and at every
place stands the sum of the elements that agree with it there. The axes may be summed one after the
other, the highest first, and the sum of everything stays what it is. -/
theorem sum_reduces (ht : t.Full) (haxis : NamesAxes axis as) (hbounds : ∀ a ∈ as, a < t.rank)
    (hsome : ∃ k < t.rank, k ∉ as) :
    ∃ u : Tensor Int, Method.sum.call (ofInts t) ⟨[axis], []⟩ = pure (ofInts u) ∧
      u.Full ∧ u.shape = dropPositions t.shape as ∧
      (∀ js ∈ u.shape.places, u.get js =
        .ok (∑ is ∈ t.shape.places.toFinset with dropPositions is as = js, t.entry is)) ∧
      (∀ order : List Nat, order.Pairwise (· > ·) → (∀ k, k ∈ order ↔ k ∈ as) →
        order.foldlM (fun d (a : Nat) => Method.sum.call d ⟨[int a], []⟩) (ofInts t) =
          pure (ofInts u)) ∧
      Method.sum.call (ofInts u) ⟨[], []⟩ = Method.sum.call (ofInts t) ⟨[], []⟩ ∧
      Method.sum.call (ofInts t) ⟨[], []⟩ = pure (int u.values.sum) := by
  refine ⟨reduced t as, sum_call_full ht haxis hbounds hsome, full_reduced ht as, rfl,
    fun js hj => get_reduced ht hj, fun order ho hs => ?_, ?_, ?_⟩
  · obtain ⟨k, hk, hn⟩ := hsome
    rw [foldlM_sum_call ht ho (fun a ha => hbounds a ((hs a).1 ha))
      ⟨k, hk, fun hm => hn ((hs k).1 hm)⟩, reduced_congr hs]
  · rw [sum_call_total, sum_call_total, sum_reduced ht]
  · rw [sum_call_total, sum_reduced ht]

def twoLayers : Tensor Int := ⟨[2, 1, 2], [1, 2, 3, 4]⟩

theorem full_twoLayers : twoLayers.Full := ⟨by decide, rfl⟩

/-- Summing a box over its layers and rows, named in any order and more than once. -/
theorem twoLayers_reduced :
    ∃ u : Tensor Int, Method.sum.call (ofInts twoLayers) ⟨[tuple [int 0, int 1, int 0]], []⟩ =
        pure (ofInts u) ∧
      u.Full ∧ u.shape = dropPositions twoLayers.shape [0, 1, 0] ∧
      (∀ js ∈ u.shape.places, u.get js = .ok (∑ is ∈ twoLayers.shape.places.toFinset with
        dropPositions is [0, 1, 0] = js, twoLayers.entry is)) ∧
      (∀ order : List Nat, order.Pairwise (· > ·) → (∀ k, k ∈ order ↔ k ∈ [0, 1, 0]) →
        order.foldlM (fun d (a : Nat) => Method.sum.call d ⟨[int a], []⟩) (ofInts twoLayers) =
          pure (ofInts u)) ∧
      Method.sum.call (ofInts u) ⟨[], []⟩ = Method.sum.call (ofInts twoLayers) ⟨[], []⟩ ∧
      Method.sum.call (ofInts twoLayers) ⟨[], []⟩ = pure (int u.values.sum) :=
  sum_reduces full_twoLayers (.tuple [0, 1, 0]) (by decide) ⟨2, by decide, by decide⟩

/-- Sums of tensors that are not full. A surplus element goes round and is added to the first place;
where elements are missing, a place that none of them reaches keeps the first element. -/
theorem uneven_sums :
    (Method.sum.call (ofInts ⟨[2, 2], [1, 2, 3, 4, 5]⟩) ⟨[int 0], []⟩ = pure (ofInts ⟨[2], [9, 6]⟩) ∧
      Method.getScalar.call (ofInts ⟨[2, 2], [1, 2, 3, 4, 5]⟩) ⟨[int 0, int 0], []⟩ = pure (int 1) ∧
      Method.getScalar.call (ofInts ⟨[2, 2], [1, 2, 3, 4, 5]⟩) ⟨[int 1, int 0], []⟩ = pure (int 3)) ∧
    Method.sum.call (ofInts ⟨[2, 2], [1]⟩) ⟨[int 0], []⟩ = pure (ofInts ⟨[2], [1, 1]⟩) ∧
      Method.sum.call (ofInts ⟨[2], [1, 1]⟩) ⟨[], []⟩ = pure (int 2) ∧
      Method.sum.call (ofInts ⟨[2, 2], [1]⟩) ⟨[], []⟩ = pure (int 1) := by
  refine ⟨⟨?_, rfl, rfl⟩, ?_, sum_call_total ⟨[2], [1, 1]⟩, sum_call_total ⟨[2, 2], [1]⟩⟩
  · exact (sum_call_some (by decide) (by decide) (.one 0) (by decide) ⟨1, by decide, by decide⟩).1
  · exact (sum_call_some (by decide) (by decide) (.one 0) (by decide) ⟨1, by decide, by decide⟩).1

/-! ## Kept dimensions -/

theorem unitPositions_eq_mapIdx (s : Shape) (as : List Nat) :
    unitPositions s as = s.mapIdx fun k d => if k ∈ as then 1 else d := by
  simp [unitPositions, mapIdx_eq_zipIdx_map]

theorem sum_ints_all (hb : ∀ a ∈ as, a < t.rank) (ha : ∀ k < t.rank, k ∈ as) (keep : Bool) :
    (ints t).sum (as.map fun (a : Nat) => (a : Int)) keep =
      (pure (.scalar (int t.values.sum)) : Trace (Reduced Datum)) := by
  obtain ⟨axes, hx, hm⟩ := summedAxes_ok hb
  have hn : dropPositions t.shape axes = [] := by
    by_contra he
    obtain ⟨k, hk, hp⟩ := dropPositions_ne_nil_iff.1 he
    exact hp ((hm k).2 (ha k hk))
  rw [Tensor.sum, ints_rank, hx, lift_ok_bind, ints_shape, hn, mixedTotal_ints]
  rfl

/-- **Dimensions that are kept.** A sum over some axes has the same elements whether or not the summed
dimensions are kept with extent 1. A sum over all axes is a number in either case: the request to keep
dimensions has no effect there, unlike in a sum over everything that names no axes. -/
theorem kept_dimensions (hpositive : ∀ d ∈ t.shape, 0 < d) (hrank : t.shape ≠ [])
    (hvalues : t.values ≠ []) (haxis : NamesAxes axis as) (hbounds : ∀ a ∈ as, a < t.rank) :
    ((∃ k < t.rank, k ∉ as) → ∃ is : List Int,
      Method.sum.call (ofInts t) ⟨[axis], []⟩ = pure (ofInts ⟨dropPositions t.shape as, is⟩) ∧
      Method.sum.call (ofInts t) ⟨[axis], [("keepdims", bool true)]⟩ =
        pure (ofInts ⟨t.shape.mapIdx fun k d => if k ∈ as then 1 else d, is⟩)) ∧
    ((∀ k < t.rank, k ∈ as) →
      Method.sum.call (ofInts t) ⟨[axis], []⟩ = pure (int t.values.sum) ∧
      Method.sum.call (ofInts t) ⟨[axis], [("keepdims", bool true)]⟩ = pure (int t.values.sum)) ∧
    Method.sum.call (ofInts t) ⟨[], [("keepdims", bool true)]⟩ =
      pure (ofInts ⟨t.shape.map fun _ => 1, [t.values.sum]⟩) := by
  refine ⟨fun hs => ⟨sums t as, ?_⟩, fun ha => ⟨?_, ?_⟩, ?_⟩
  · rw [← unitPositions_eq_mapIdx]
    exact sum_call_some hpositive hvalues haxis hbounds hs
  · refine (haxis.tensorSum_eq (ints t) false).trans ?_
    rw [sum_ints_all hbounds ha]
    rfl
  · refine (haxis.tensorSum_eq (ints t) true).trans ?_
    rw [sum_ints_all hbounds ha]
    rfl
  · have hb : build [int t.values.sum] (t.shape.map fun _ => 1) =
        .ok (ints ⟨t.shape.map fun _ => 1, [t.values.sum]⟩) :=
      build_ints (List.cons_ne_nil t.values.sum []) (by simpa using hrank)
    change (ofReduced <$> (ints t).sumAll true : Trace Datum) = _
    rw [sumAll, mixedTotal_ints, pure_bind, if_pos rfl, ints_shape, hb]
    rfl

def square : Tensor Int := ⟨[2, 2], [1, 2, 3, 4]⟩

/-- The sum of a square over one axis, and over both of them. -/
theorem square_kept :
    (∃ is : List Int,
      Method.sum.call (ofInts square) ⟨[int 0], []⟩ =
        pure (ofInts ⟨dropPositions square.shape [0], is⟩) ∧
      Method.sum.call (ofInts square) ⟨[int 0], [("keepdims", bool true)]⟩ =
        pure (ofInts ⟨square.shape.mapIdx fun k d => if k ∈ [0] then 1 else d, is⟩)) ∧
    Method.sum.call (ofInts square) ⟨[list [int 1, int 0]], []⟩ = pure (int 10) ∧
      Method.sum.call (ofInts square) ⟨[list [int 1, int 0]], [("keepdims", bool true)]⟩ =
        pure (int 10) :=
  ⟨(kept_dimensions (by decide) (by decide) (by decide) (.one 0) (by decide)).1
      ⟨1, by decide, by decide⟩,
    (kept_dimensions (by decide) (by decide) (by decide) (.list [1, 0]) (by decide)).2.1 (by decide)⟩

/-- No dimension is kept in a sum over both axes of a square. -/
theorem square_not_kept :
    Method.sum.call (ofInts square) ⟨[tuple [int 0, int 1]], [("keepdims", bool true)]⟩ =
      pure (int 10) := by
  refine ((NamesAxes.tuple [0, 1]).tensorSum_eq (ints square) true).trans ?_
  rw [sum_ints_all (by decide) (by decide)]
  rfl

end Calls

end Datum

end Patchwork
