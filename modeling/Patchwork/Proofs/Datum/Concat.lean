import Patchwork.Proofs.Datum.Integers
import Patchwork.Proofs.Datum.Items
import Patchwork.Proofs.Tensor.Concat

/-!
# Joined tensors taken apart

Tensors that agree in every dimension but one can be joined along it. The part of the outcome under
the range that a tensor has along the axis, with every other dimension taken whole, is this tensor
again.
-/

namespace Patchwork

open Slice
open List hiding span

/-! ## Windows along an axis -/

namespace Slice

def whole : Slice := ⟨none, none, none⟩

def window (start stop : Int) : Slice := ⟨some start, some stop, none⟩

variable {d start width : Int}

theorem range_whole (hd : 0 ≤ d) : whole.range d = progression 0 d 1 := by
  have h0 : ¬ d < 0 := by omega
  simp [whole, range, positions, Except.toOption, h0]

theorem range_window (hs : 0 ≤ start) (hw : 0 ≤ width) (hd : start + width ≤ d) :
    (window start (start + width)).range d = (progression 0 width 1).map (start + ·) := by
  have h0 : ¬ d < 0 := by omega
  have ho : ¬ start < 0 := by omega
  have hh : ¬ start + width < 0 := by omega
  have hl : max 0 (min d start) = start := by omega
  have hr : max 0 (min d (start + width)) = start + width := by omega
  simp [window, range, positions, progression, Except.toOption, h0, ho, hh, hl, hr]

theorem getD_progression {i : Int} (hi : 0 ≤ i ∧ i < d) : (progression 0 d 1).getD i.toNat 0 = i := by
  have hl : i.toNat < d.toNat := by omega
  simp [progression_zero, hl, Int.toNat_of_nonneg hi.1]

end Slice

namespace Tensor

variable {before after : Shape} {d start width : Int} {os is : List Int}

/-- The keys of a range along one axis, where every other dimension is taken whole. -/
def windowKeys (n k : Nat) (s : Slice) : List Key := (List.replicate n (.slice whole)).set k (.slice s)

theorem windowKeys_split (before after : Shape) (d : Int) (s : Slice) :
    windowKeys (before ++ d :: after).length before.length s =
      replicate before.length (.slice whole) ++
        .slice s :: replicate after.length (.slice whole) := by
  simp [windowKeys, replicate_add, replicate_succ, length_append]

theorem outline_whole (hs : ∀ d ∈ before, 0 < d) (rest : Shape) (keys : List Key) :
    outline (before ++ rest) (replicate before.length (.slice whole) ++ keys) =
      before ++ outline rest keys := by
  induction before with
  | nil => rfl
  | cons d before ih =>
    obtain ⟨hd, hs⟩ := forall_mem_cons.1 hs
    have hw : (((range d.toNat).length : Nat) : Int) = d := by simp; omega
    simp only [length_cons, replicate_succ, cons_append, outline,
      range_whole hd.le, progression_zero, length_map, hw, ih hs]

theorem composed_whole (ho : os ∈ before.places) (rest : Shape) (keys : List Key) (js : List Int) :
    composed (before ++ rest) (replicate before.length (.slice whole) ++ keys) (os ++ js) =
      os ++ composed rest keys js := by
  rw [Shape.mem_places] at ho
  induction ho with
  | nil => rfl
  | cons hi _ ih =>
    simp only [length_cons, replicate_succ, cons_append, composed, headD_cons,
      tail_cons, range_whole (hi.1.trans hi.2.le), getD_progression hi, ih]

/-- The shape of a window is that of the whole, but for its width along the axis. -/
theorem outline_window (hb : ∀ d ∈ before, 0 < d) (ha : ∀ d ∈ after, 0 < d)
    (hs : 0 ≤ start) (hw : 0 ≤ width) (hd : start + width ≤ d) :
    outline (before ++ d :: after)
        (windowKeys (before ++ d :: after).length before.length (window start (start + width))) =
      before ++ width :: after := by
  have hr := outline_whole ha [] []
  rw [append_nil, append_nil, outline_nil, append_nil] at hr
  rw [windowKeys_split, outline_whole hb, outline, hr, range_window hs hw hd]
  simp [progression_zero, hw]

theorem composed_window (ho : os ∈ before.places) (his : is ∈ after.places) {i : Int}
    (hi : 0 ≤ i ∧ i < width) (hs : 0 ≤ start) (hd : start + width ≤ d) :
    composed (before ++ d :: after)
        (windowKeys (before ++ d :: after).length before.length (window start (start + width)))
        (os ++ i :: is) = os ++ (start + i) :: is := by
  have hr := composed_whole his [] [] []
  rw [append_nil, append_nil, append_nil, composed_nil, append_nil] at hr
  have hl : i.toNat < width.toNat := by omega
  rw [windowKeys_split, composed_whole ho, composed, tail_cons, hr,
    range_window hs (hi.1.trans hi.2.le) hd]
  simp [progression_zero, hl, Int.toNat_of_nonneg hi.1]

theorem mem_windowKeys {n k : Nat} {key : Key} (h : key ∈ windowKeys n k (window start width)) :
    key.Selects ∧ key.index? = none := by
  rcases mem_or_eq_of_mem_set h with h | rfl
  · rw [eq_of_mem_replicate h]
    exact ⟨nofun, rfl⟩
  · exact ⟨nofun, rfl⟩

end Tensor

namespace Datum

open Tensor

variable {before after : Shape} {d start width : Int}

/-- A range along one axis, where every other dimension is taken whole. -/
def alongAxis (n k : Nat) (start stop : Int) : Datum :=
  tuple ((List.replicate n (slice .whole)).set k (slice (.window start stop)))

theorem keys?_alongAxis (n k : Nat) (start stop : Int) :
    (alongAxis n k start stop).keys? = some (windowKeys n k (.window start stop)) := by
  refine congrArg some (map_set.trans ?_)
  rw [map_replicate]
  rfl

/-- The part of a table under keys is a table again. -/
theorem item_table {s s' : Shape} {f f' : List Int → Scalar} {key : Datum} {keys : List Key}
    (hs : ∀ d ∈ s, 0 < d) (hn : s ≠ []) (hs' : ∀ d ∈ s', 0 < d) (hn' : s' ≠ [])
    (hk : key.keys? = some keys) (hks : ∀ key ∈ keys, key.Selects) (h : ¬ Exceeds s keys)
    (ho : outline s keys = s') (hf : ∀ js ∈ s'.places, f (composed s keys js) = f' js) :
    item (ofScalars (tabulate s f) []) key = pure (ofScalars (tabulate s' f') []) := by
  subst ho
  rw [item_eq_select (full_tabulate hs f) hn hk, shape_tabulate,
    tabulate_congr fun is his => congrArg scalar (entry_tabulate hs his),
    (select_tabulate hks hs hn h).2 hn', map_congr_left fun js hj => congrArg scalar (hf js hj),
    build_tabulate hs' hn' fun is _ => isSingle_scalar (f' is), ofScalars_tabulate]
  rfl

/-- The part of a table under a window is a table again. -/
theorem item_window {f f' : List Int → Scalar} (hb : ∀ n ∈ before, 0 < n)
    (ha : ∀ n ∈ after, 0 < n) (hs : 0 ≤ start) (hw : 0 < width) (hd : start + width ≤ d)
    (hf : ∀ os ∈ before.places, ∀ i, 0 ≤ i ∧ i < width → ∀ is ∈ after.places,
      f (os ++ (start + i) :: is) = f' (os ++ i :: is)) :
    item (ofScalars (tabulate (before ++ d :: after) f) [])
        (alongAxis (before ++ d :: after).length before.length start (start + width)) =
      pure (ofScalars (tabulate (before ++ width :: after) f') []) := by
  have hh : ∀ n ∈ before ++ d :: after, 0 < n := by
    have : 0 < d := by omega
    simpa [or_imp, forall_and] using ⟨hb, this, ha⟩
  have hp : ∀ n ∈ before ++ width :: after, 0 < n := by
    simpa [or_imp, forall_and] using ⟨hb, hw, ha⟩
  have ht : ¬ Exceeds (before ++ d :: after) (windowKeys (before ++ d :: after).length
      before.length (.window start (start + width))) := by
    rintro (hl | ⟨k, key, n, hk, -, ht⟩)
    · simp [windowKeys] at hl
    · refine ht fun i hi => ?_
      rw [(mem_windowKeys (mem_of_getElem? hk)).2] at hi
      cases hi
  refine item_table hh (by simp) hp (by simp) (keys?_alongAxis ..)
    (fun key hk => (mem_windowKeys hk).1) ht (outline_window hb ha hs hw.le hd) fun is his => ?_
  obtain ⟨os, ho, i, hi, ks, hks, rfl⟩ := Shape.mem_places_split.1 his
  rw [composed_window ho hks hi hs hd, hf os ho i hi ks hks]

/-- The parts of joined tables under their ranges are the tables themselves. -/
theorem item_joined {parts : List (Int × (List Int → Scalar))} (hb : ∀ n ∈ before, 0 < n)
    (ha : ∀ n ∈ after, 0 < n) (ht : ∀ q ∈ parts, 0 < q.1) {i : Nat}
    {q : Int × (List Int → Scalar)} (hi : parts[i]? = some q) :
    item (ofScalars (tabulate (before ++ span parts :: after) (Tensor.joined before.length parts)) [])
        (alongAxis (before ++ span parts :: after).length before.length (span (parts.take i))
          (span (parts.take i) + q.1)) =
      pure (ofScalars (tabulate (before ++ q.1 :: after) q.2) []) := by
  obtain ⟨hl, rfl⟩ := List.getElem?_eq_some_iff.1 hi
  have hs : parts.take i ++ parts[i] :: parts.drop (i + 1) = parts := by simp
  have hk : ∀ p ∈ parts.take i, 0 < p.1 := fun p hp => ht p (mem_of_mem_take hp)
  have hd := span_nonneg fun p hp => ht p (mem_of_mem_drop (i := i + 1) hp)
  have hn : span parts = span (parts.take i) + (parts[i].1 + span (parts.drop (i + 1))) := by
    rw [← span_cons, ← span_append, hs]
  refine item_window hb ha (span_nonneg hk) (ht _ (getElem_mem hl)) (by omega) ?_
  intro os ho j hj is _
  calc Tensor.joined before.length parts (os ++ (span (parts.take i) + j) :: is)
      = Tensor.joined before.length (parts.take i ++ parts[i] :: parts.drop (i + 1))
          (os ++ (span (parts.take i) + j) :: is) := by rw [hs]
    _ = parts[i].2 (os ++ j :: is) := joined_at (Shape.length_of_mem_places ho) hk hj.1 hj.2

/-! ## Calls -/

def scalars (t : Tensor Scalar) : Tensor Datum := ⟨t.shape, t.values.map scalar⟩

theorem concat_call {first : Tensor Scalar} {ts : List (Tensor Scalar)}
    (hs : ts.head? = some first) (axis : Int) :
    Routine.concat.call ⟨[list (ts.map (ofScalars · [])), int axis], []⟩ =
      ofTensor <$> Fault.lift (concat (ts.map scalars) axis) := by
  obtain ⟨others, rfl⟩ := head?_eq_some_iff.1 hs
  have ht : (list ((first :: others).map (ofScalars · []))).truth = .ok true := rfl
  have hits : (list ((first :: others).map (ofScalars · []))).iterate =
      .ok ((first :: others).map (ofScalars · [])) := rfl
  change concatenate (list ((first :: others).map (ofScalars · []))) (int axis) = _
  rw [concatenate, ht, hits, Trace.lift_ok_bind, Trace.lift_ok_bind, mapM_map,
    mapM_pure_map (h := scalars), if_pos rfl, pure_bind]
  · rfl
  · intro t _
    rfl

/-- Tensors that agree in the dimensions before and after an axis are joined, and taken apart. -/
theorem concat_parts {ts : List (Tensor Scalar)} (hn : ts ≠ []) (hf : ∀ t ∈ ts, t.Full)
    {k : Nat} (hk : before.length = k)
    (hs : ∀ t ∈ ts, t.shape = before ++ t.extent k :: after) {axis : Int}
    (hx : axis = k ∨ axis = k - (before ++ (ts.map (Tensor.extent k)).sum :: after).length) :
    ∃ u : Tensor Scalar, ofTensor <$> Fault.lift (concat (ts.map scalars) axis) =
        (pure (ofScalars u []) : Trace Datum) ∧
      u.Full ∧ u.shape = before ++ (ts.map (Tensor.extent k)).sum :: after ∧
      ∀ i t, ts[i]? = some t → item (ofScalars u []) (alongAxis u.rank k (offset k ts i)
        (offset k ts i + t.extent k)) = pure (ofScalars t []) := by
  subst hk
  let parts : List (Int × (List Int → Scalar)) := ts.map fun t => (t.extent before.length, t.entry)
  have hp : ∀ t ∈ ts, ∀ d ∈ before ++ t.extent before.length :: after, 0 < d := fun t ht =>
    hs t ht ▸ (hf t ht).positive
  have hspan : span parts = (ts.map (Tensor.extent before.length)).sum := by
    simp [parts, span, Function.comp_def]
  have hst : ∀ i, span (parts.take i) = offset before.length ts i := by
    intro i
    simp [parts, span, offset, map_take, Function.comp_def]
  have htab : ts.map scalars = parts.map fun q =>
      tabulate (before ++ q.1 :: after) fun is => scalar (q.2 is) := by
    rw [map_map]
    refine map_congr_left fun t ht => (map_scalar_eq_tabulate (hf t ht)).trans ?_
    simp only [Function.comp_apply, ← hs t ht]
  obtain ⟨hb, ha⟩ : (∀ d ∈ before, 0 < d) ∧ ∀ d ∈ after, 0 < d := by
    obtain ⟨t, ht⟩ := exists_mem_of_ne_nil ts hn
    exact ⟨fun d hd => hp t ht d (by simp [hd]), fun d hd => hp t ht d (by simp [hd])⟩
  have hpts : ∀ q ∈ parts, 0 < q.1 := forall_mem_map.2 fun t ht => hp t ht _ (by simp)
  have hn : parts ≠ [] := by simpa [parts] using hn
  rw [← hspan] at hx ⊢
  refine ⟨tabulate (before ++ span parts :: after) (Tensor.joined before.length parts), ?_,
    full_tabulate ?_ _, rfl, fun i t hi => ?_⟩
  · rw [htab, concat_tabulate isSingle_scalar hb ha hn hpts hx, ofScalars_tabulate]
    rfl
  · simpa [or_imp, forall_and] using ⟨hb, span_pos hn hpts, ha⟩
  · have hr : parts[i]? = some (t.extent before.length, t.entry) := by simp [parts, hi]
    have hit := item_joined hb ha hpts hr
    have ht := mem_of_getElem? hi
    rw [hst, ← hs t ht, ← (hf t ht).eq_tabulate] at hit
    exact hit

/-- **Joining is undone by taking parts.** Tensors that differ in another dimension than that of the
axis are refused. All others are joined to a tensor whose extent along the axis is the sum of theirs,
and the part of it under the range of each tensor is this tensor. -/
theorem concat_undone {first : Tensor Scalar} {ts : List (Tensor Scalar)}
    (hts : ts.head? = some first) {k : Nat} (hk : k < first.rank) {axis : Int}
    (haxis : axis = k ∨ axis = k - first.rank) :
    ((∃ t ∈ ts, ∃ u ∈ ts, ¬ t.Joins k u) → ∀ g,
      (Routine.concat.call ⟨[list (ts.map (ofScalars · [])), int axis], []⟩).Fails g
        Fault.IsViolation) ∧
    ((∀ t ∈ ts, ∀ u ∈ ts, t.Joins k u) → (∀ t ∈ ts, t.Full) → ∃ u : Tensor Scalar,
      Routine.concat.call ⟨[list (ts.map (ofScalars · [])), int axis], []⟩ =
        pure (ofScalars u []) ∧
      u.Full ∧ u.shape = first.shape.set k (ts.map (Tensor.extent k)).sum ∧
      ∀ i t, ts[i]? = some t → item (ofScalars u []) (alongAxis u.rank k (offset k ts i)
        (offset k ts i + t.extent k)) = pure (ofScalars t [])) := by
  rw [concat_call hts]
  refine ⟨fun h g => ?_, fun hj hl => ?_⟩
  · obtain ⟨t, ht, u, hu, hc⟩ := h
    have hh : (ts.map scalars).head? = some (scalars first) := by rw [List.head?_map, hts]; rfl
    rw [concat_violation hh hk haxis
      ⟨_, List.mem_map_of_mem ht, _, List.mem_map_of_mem hu, hc⟩]
    exact ⟨_, rfl, trivial⟩
  · have hf : first ∈ ts := List.mem_of_mem_head? hts
    have hs := List.set_eq_take_append_cons_drop (l := first.shape) (i := k)
      (a := (ts.map (Tensor.extent k)).sum)
    rw [if_pos (show k < first.shape.length from hk)] at hs
    rw [hs]
    refine concat_parts (List.ne_nil_of_mem hf) hl (List.length_take_of_le (Nat.le_of_lt hk))
      (fun t ht => (hj t ht first hf).shape_eq hk) ?_
    rwa [← hs, List.length_set]

def thirdRow : Tensor Scalar := ⟨[1, 3], [.int 7, .int 8, .int 9]⟩

/-- Two rows and a third one, joined along the first axis. -/
theorem rows_joined_and_parted :
    ∃ u : Tensor Scalar,
      Routine.concat.call ⟨[list ([twoRows, thirdRow].map (ofScalars · [])), int (-2)], []⟩ =
        pure (ofScalars u []) ∧
      u.Full ∧ u.shape = [3, 3] ∧
      ∀ i t, [twoRows, thirdRow][i]? = some t → item (ofScalars u [])
        (alongAxis u.rank 0 (offset 0 [twoRows, thirdRow] i)
          (offset 0 [twoRows, thirdRow] i + t.extent 0)) = pure (ofScalars t []) := by
  have hf : [twoRows, thirdRow].head? = some twoRows := rfl
  refine (concat_undone (k := 0) hf (by decide) (.inr rfl)).2 ?_ ?_
  · simp only [joins_iff]
    decide
  · simpa using ⟨⟨by decide, rfl⟩, ⟨by decide, rfl⟩⟩

/-- A surplus element is lost when its tensor is joined. -/
theorem surplus_lost :
    Routine.concat.call ⟨[list [ofScalars ⟨[2], [.int 1, .int 2, .int 3]⟩ []], int 0], []⟩ =
        pure (ofScalars ⟨[2], [.int 1, .int 2]⟩ []) ∧
      item (ofScalars ⟨[2], [.int 1, .int 2]⟩ []) (alongAxis 1 0 0 2) =
        pure (ofScalars ⟨[2], [.int 1, .int 2]⟩ []) := ⟨rfl, rfl⟩

end Datum

end Patchwork
