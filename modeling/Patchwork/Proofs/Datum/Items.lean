import Patchwork.Datum.Functions
import Patchwork.Proofs.Datum.Elementwise
import Patchwork.Proofs.Tensor.Selection

/-!
# The part of a tensor under a key

A key is an index, a slice, or a list of indices and slices for the leading dimensions. It is out
of bounds exactly if an index lies outside the extent of its dimension or if there are more keys
than dimensions. Otherwise the part is the tensor of the selected elements, provided that every
slice selects something. A single index gives the same part as a list of this index.
-/

namespace Patchwork

open Tensor

namespace Datum

variable {key : Datum} {keys : List Key} {t : Tensor Scalar}

/-- The keys that a datum stands for: itself if it is an index or a slice, and else the items
of a list. -/
def keys? (key : Datum) : Option (List Key) :=
  match key with
  | scalar (.plain (.int _)) | scalar (.plain (.bool _)) | slice _ => some [key.asKey]
  | key => key.items?.map fun items => items.map asKey

/-- A part is what its keys select. -/
theorem tensorItem_eq_select {d : Int} {shape : Shape} {f : List Int → Datum} (hd : 0 < d)
    (hs : ∀ n ∈ shape, 0 < n) (hk : key.keys? = some keys) :
    tensorItem (.tabulate (d :: shape) f) key = (tabulate (d :: shape) f).select keys := by
  cases key with
  | scalar x =>
    cases x with
    | traced v => cases hk
    | plain n =>
      cases n with
      | int i =>
        cases hk
        exact indexBy_eq_select hd hs rfl rfl
      | bool b =>
        cases hk
        exact indexBy_eq_select hd hs rfl rfl
      | float x => cases hk
  | slice s =>
    cases hk
    rfl
  | list xs =>
    cases hk
    rfl
  | tuple xs =>
    cases hk
    rfl
  | text s =>
    cases hk
    rfl
  | bytes bs =>
    cases hk
    rfl
  | _ => cases hk

theorem ofScalars_tabulate (s : Shape) (f : List Int → Scalar) :
    ofScalars (.tabulate s f) [] = ofTensor (.tabulate s fun is => scalar (f is)) := by
  simp [ofScalars, ofTensor, tabulate]

theorem item_eq_select (ht : t.Full) (hr : t.shape ≠ []) (hk : key.keys? = some keys)
    (truths : List Nat) :
    item (ofScalars t truths) key = Fault.lift (ofTensor <$>
        (tabulate t.shape fun is => scalar (t.entry is)).select keys) := by
  have hv := map_scalar_eq_tabulate ht
  have hp := ht.positive
  change Fault.lift (ofTensor <$> tensorItem ⟨t.shape, t.values.map scalar⟩ key) = _
  rw [hv]
  cases hs : t.shape with
  | nil => exact absurd hs hr
  | cons d shape =>
    rw [hs, List.forall_mem_cons] at hp
    rw [tensorItem_eq_select hp.1 hp.2 hk]

/-- Elements under a shape are laid out, or refused for lack of a number. -/
theorem build_error {values : List Datum} {s : Shape} {e : Fault} (hs : s ≠ [])
    (h : build values s = .error e) : e = .violated .scalarSequence := by
  obtain _ | ⟨d, s⟩ := s
  · exact absurd rfl hs
  · rw [build] at h
    · split at h
      · cases h
      · cases h
        rfl
    · exact List.cons_ne_nil d s

/-- Keys that do not exceed the shape select something, or too little. -/
theorem select_scalars (hk : ∀ k ∈ keys, k.Selects) (ht : t.Full) (hr : t.shape ≠ [])
    (h : ¬ Tensor.Exceeds t.shape keys) :
    (Tensor.Catches t.shape keys →
      (tabulate t.shape fun is => scalar (t.entry is)).select keys =
        .ok (.tabulate (outline t.shape keys) fun js =>
          scalar (t.entry (composed t.shape keys js)))) ∧
    ∀ e, (tabulate t.shape fun is => scalar (t.entry is)).select keys = .error e →
      ¬ e.IsExcess := by
  obtain ⟨hs, hb⟩ := select_tabulate (f := fun is => scalar (t.entry is)) hk ht.positive hr h
  by_cases hn : outline t.shape keys = []
  · rw [hs hn, hn]
    exact ⟨fun _ => rfl, fun e he => by cases he⟩
  · rw [hb hn]
    refine ⟨fun hc => ?_, fun e he => ?_⟩
    · exact build_tabulate (outline_positive hk ht.positive hc) hn
        fun _ _ => isSingle_scalar _
    · rw [build_error hn he]
      exact id

/-- **The part of a tensor under a key.** The key is out of bounds exactly if it exceeds the shape.
Otherwise, if every slice selects something, the part has the outline of the keys as its shape, and
its element at a place is the element of the whole at the composed place. A single index gives the
same part, or fault, as a list of this index. -/
theorem item_composes (ht : t.Full) (hrank : t.shape ≠ []) (hkey : key.keys? = some keys)
    (hkeys : ∀ k ∈ keys, k.Selects) (truths : List Nat) (g : Graph) :
    ((item (ofScalars t truths) key).Fails g Fault.IsExcess ↔ Tensor.Exceeds t.shape keys) ∧
    (¬ Tensor.Exceeds t.shape keys → Tensor.Catches t.shape keys →
      ∃ u : Tensor Scalar, item (ofScalars t truths) key = pure (ofScalars u []) ∧
        u.shape = Tensor.outline t.shape keys ∧ u.Full ∧
        ∀ js ∈ u.shape.places, ∃ x, u.get js = .ok x ∧
          t.get (Tensor.composed t.shape keys js) = .ok x) ∧
    ∀ n : Number, n.whole?.isSome →
      item (ofScalars t truths) (plain n) = item (ofScalars t truths) (tuple [plain n]) := by
  refine ⟨⟨fun hf => ?_, fun h => ?_⟩, fun h hc => ?_, fun n hn => ?_⟩
  · obtain ⟨e, hr, he⟩ := hf
    by_contra h
    rw [item_eq_select ht hrank hkey] at hr
    have hs := (select_scalars hkeys ht hrank h).2
    cases hp : (Tensor.tabulate t.shape fun is => scalar (t.entry is)).select keys with
    | ok u =>
      rw [hp] at hr
      cases hr
    | error e' =>
      rw [hp] at hr
      cases hr
      exact hs e hp he
  · obtain ⟨e, hp, he⟩ := Tensor.select_excess
      (t := .tabulate t.shape fun is => scalar (t.entry is)) hkeys ht.positive hrank h
    refine ⟨e, ?_, he⟩
    rw [item_eq_select ht hrank hkey, hp]
    rfl
  · have hp := (select_scalars hkeys ht hrank h).1 hc
    have ho := Tensor.outline_positive hkeys ht.positive hc
    refine ⟨.tabulate (Tensor.outline t.shape keys) fun js =>
      t.entry (Tensor.composed t.shape keys js), ?_, rfl, Tensor.full_tabulate ho _,
      fun js hj => ⟨_, Tensor.get_tabulate ho hj,
        ht.covered.get_eq (Tensor.composed_mem hkeys h hj)⟩⟩
    rw [item_eq_select ht hrank hkey, hp, ofScalars_tabulate]
    rfl
  · have hl : (tuple [plain n]).keys? = some [(plain n).asKey] := rfl
    have hi : (plain n).keys? = some [(plain n).asKey] := by
      cases n with
      | int i => rfl
      | bool b => rfl
      | float x => cases hn
    rw [item_eq_select ht hrank hi, item_eq_select ht hrank hl]

def twoRows : Tensor Scalar := ⟨[2, 3], [.int 1, .int 2, .int 3, .int 4, .int 5, .int 6]⟩

/-- The last row, every second number from its end on: six and four. -/
theorem lastRow_backwards :
    ∃ u : Tensor Scalar,
      item (ofScalars twoRows []) (tuple [int (-1), slice ⟨none, none, some (-2)⟩]) =
        pure (ofScalars u []) ∧
      u.shape = [2] ∧ u.get [0] = .ok (.int 6) ∧ u.get [1] = .ok (.int 4) := by
  have hf : ¬ Tensor.Exceeds twoRows.shape [.index (-1), .slice ⟨none, none, some (-2)⟩] := by
    refine Tensor.not_exceeds_cons.2 ⟨fun i hi => ?_, Tensor.not_exceeds_cons.2 ⟨?_, ?_⟩⟩
    · cases hi
      decide
    · exact fun i hi => by cases hi
    · rintro (h | ⟨k, key, d, hk, -⟩)
      · exact absurd h (by decide)
      · cases hk
  have hc : Tensor.Catches twoRows.shape
      [.index (-1), .slice ⟨none, none, some (-2)⟩] := by
    intro k s d hk hd
    obtain _ | _ | k := k
    · cases hk
    · cases hk
      cases hd
      decide
    · cases hk
  have he : (tuple [int (-1), slice ⟨none, none, some (-2)⟩]).keys? =
      some [.index (-1), .slice ⟨none, none, some (-2)⟩] := rfl
  obtain ⟨u, ht, hh, -, hg⟩ := (item_composes (t := twoRows) ⟨by decide, rfl⟩ (by decide)
    he (by simp [Key.Selects]) [] .empty).2.1 hf hc
  refine ⟨u, ht, hh, ?_, ?_⟩
  · obtain ⟨x, hx, hs⟩ := hg [0] (by rw [hh]; decide)
    exact hx.trans hs.symm
  · obtain ⟨x, hx, hs⟩ := hg [1] (by rw [hh]; decide)
    exact hx.trans hs.symm

end Datum

end Patchwork
