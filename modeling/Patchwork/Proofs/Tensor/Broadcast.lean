import Patchwork.Tensor.Broadcast
import Patchwork.Proofs.Tensor.Tables

/-!
# Broadcasting tables

A shape expands to another one if, aligned at the last dimension, its extents agree or are 1.
The expanded tensor is a table again. Its element at a place is the element at the place's
origin: the indices of the missing dimensions are dropped, and index 0 is taken along every
dimension of extent 1.
-/

namespace Patchwork

open List Shape

/-! ## Lists of outcomes -/

section Outcomes

variable {α β : Type} {f : α → Except Fault β} {xs : List α}

theorem mapM_ok_iff {ys : List β} :
    xs.mapM f = .ok ys ↔ Forall₂ (fun x y => f x = .ok y) xs ys := by
  induction xs generalizing ys with
  | nil =>
    rw [forall₂_nil_left_iff]
    exact ⟨fun h => by cases h; rfl, fun h => by rw [h]; rfl⟩
  | cons x xs ih =>
    rw [mapM_cons]
    constructor
    · intro h
      cases hx : f x with
      | error e =>
        rw [hx] at h
        cases h
      | ok y =>
        cases hs : xs.mapM f with
        | error e =>
          rw [hx, hs] at h
          cases h
        | ok ys' =>
          rw [hx, hs] at h
          cases h
          exact .cons hx (ih.1 hs)
    · rintro (_ | ⟨hx, hs⟩)
      rw [hx, ih.2 hs]
      rfl

theorem mapM_ok_map {h : α → β} (hf : ∀ x ∈ xs, f x = .ok (h x)) : xs.mapM f = .ok (xs.map h) := by
  rw [mapM_ok_iff, forall₂_map_right_iff, forall₂_same]
  exact hf

/-- Steps of which one fails do not succeed together: the fault is that of one of them. -/
theorem mapM_error {p : Fault → Prop} (hf : ∀ x ∈ xs, ∀ e, f x = .error e → p e)
    (hx : ∃ x ∈ xs, ∀ y, f x ≠ .ok y) : ∃ e, xs.mapM f = .error e ∧ p e := by
  induction xs with
  | nil =>
    obtain ⟨x, hm, -⟩ := hx
    cases hm
  | cons x xs ih =>
    rw [mapM_cons]
    cases hh : f x with
    | error e => exact ⟨e, rfl, hf x mem_cons_self e hh⟩
    | ok y =>
      obtain ⟨x', hm, hl⟩ := hx
      have hr : x' ∈ xs := (mem_cons.1 hm).resolve_left fun h => hl y (h ▸ hh)
      obtain ⟨e, he, hp⟩ := ih (fun x hx => hf x (mem_cons_of_mem _ hx)) ⟨x', hr, hl⟩
      refine ⟨e, ?_, hp⟩
      rw [he]
      rfl

theorem error_bind {x : Except Fault α} {p : Fault → Prop} (h : ∃ e, x = .error e ∧ p e) :
    ∃ e, (x >>= f) = .error e ∧ p e := by
  obtain ⟨e, rfl, hp⟩ := h
  exact ⟨e, rfl, hp⟩

end Outcomes

/-! ## Shapes that expand -/

namespace Shape

variable {s target : Shape} {is : List Int}

/-- A shape expands to another one: with extents of 1 put in front, every extent agrees
or is 1. -/
def Expands (s target : Shape) : Prop :=
  List.Forall₂ (fun d n => d = n ∨ d = 1) (s.padded target.length) target

theorem Expands.length_le (h : s.Expands target) : s.length ≤ target.length := by
  have hl := h.length_eq
  rw [padded, length_append] at hl
  omega

theorem positive_of_forall₂ (h : Forall₂ (fun d n => d = n ∨ d = 1) s target)
    (ht : ∀ d ∈ target, 0 < d) : ∀ d ∈ s, 0 < d := by
  induction h with
  | nil => simp
  | cons hd _ ih =>
    obtain ⟨hn, ht⟩ := forall_mem_cons.1 ht
    exact forall_mem_cons.2 ⟨by omega, ih ht⟩

/-- Index 0 along every dimension of extent 1. -/
def squeezed (s : Shape) (is : List Int) : List Int :=
  List.zipWith (fun d i => if d = 1 then 0 else i) s is

/-- The place whose element a place of an expanded tensor repeats. -/
def origin (s : Shape) (is : List Int) : List Int := s.squeezed (is.drop (is.length - s.length))

@[simp] theorem squeezed_cons (d : Int) (s : Shape) (i : Int) (is : List Int) :
    squeezed (d :: s) (i :: is) = (if d = 1 then 0 else i) :: s.squeezed is := rfl

theorem origin_of_mem (h : is ∈ s.places) : s.origin is = is := by
  rw [origin, length_of_mem_places h, Nat.sub_self, drop_zero]
  rw [mem_places] at h
  induction h with
  | nil => rfl
  | @cons d i s is hi _ ih =>
    have hh : (if d = 1 then 0 else i) = i := by
      split <;> omega
    rw [squeezed_cons, hh, ih]

theorem squeezed_mem {t : Shape} (h : Forall₂ (fun d n => d = n ∨ d = 1) s t)
    (his : is ∈ t.places) : s.squeezed is ∈ s.places := by
  rw [mem_places] at his ⊢
  induction h generalizing is with
  | nil => exact .nil
  | @cons d n s t hd _ ih =>
    obtain _ | ⟨hi, his⟩ := his
    rw [squeezed_cons]
    refine .cons ?_ (ih his)
    split <;> omega

theorem Expands.origin_mem (h : s.Expands target) (his : is ∈ target.places) :
    s.origin is ∈ s.places := by
  rw [origin, length_of_mem_places his]
  have he := forall₂_drop (target.length - s.length) h
  rw [padded, drop_left' length_replicate] at he
  refine squeezed_mem he ?_
  rw [mem_places] at his ⊢
  exact forall₂_drop _ his

theorem length_padded {rank : Nat} (h : s.length ≤ rank) : (s.padded rank).length = rank := by
  rw [padded, length_append, length_replicate]
  omega

theorem common_extents {f : Int × Int → Except Fault Int} {a b c : List Int}
    (hf : ∀ m n d, f (m, n) = .ok d → (m = d ∨ m = 1) ∧ (n = d ∨ n = 1) ∧ (d = m ∨ d = n))
    (hl : a.length = b.length) (h : (a.zip b).mapM f = .ok c) :
    Forall₂ (fun d n => d = n ∨ d = 1) a c ∧ Forall₂ (fun d n => d = n ∨ d = 1) b c ∧
      ∀ d ∈ c, d ∈ a ∨ d ∈ b := by
  rw [mapM_ok_iff] at h
  induction a generalizing b c with
  | nil =>
    obtain rfl := length_eq_zero_iff.1 hl.symm
    cases h
    exact ⟨.nil, .nil, by simp⟩
  | cons m a ih =>
    obtain _ | ⟨n, b⟩ := b
    · cases hl
    · obtain _ | ⟨hh, hr⟩ := h
      obtain ⟨hm, hn, hd⟩ := hf _ _ _ hh
      obtain ⟨ha, hb, he⟩ := ih (Nat.succ.inj hl) hr
      refine ⟨.cons hm ha, .cons hn hb, forall_mem_cons.2 ⟨?_, fun d hd' => ?_⟩⟩
      · rcases hd with rfl | rfl <;> simp
      · rcases he d hd' with h | h <;> simp [h]

/-- Both shapes expand to their common shape, which has an extent along every dimension if
they have. -/
theorem expands_of_broadcast {a b c : Shape} (h : a.broadcast b = .ok c) :
    a.Expands c ∧ b.Expands c ∧ ((∀ d ∈ a, 0 < d) → (∀ d ∈ b, 0 < d) → ∀ d ∈ c, 0 < d) := by
  have ha := length_padded (le_max_left a.length b.length)
  have hb := length_padded (le_max_right a.length b.length)
  obtain ⟨hc, hbc, hm⟩ := common_extents (fun m n d hd => by
    dsimp only at hd
    split_ifs at hd <;> cases hd <;> simp_all) (ha.trans hb.symm) h
  have hl : c.length = max a.length b.length := hc.length_eq.symm.trans ha
  rw [← hl] at hc hbc
  refine ⟨hc, hbc, fun hp ho d hd => ?_⟩
  simp only [padded, mem_append, mem_replicate] at hm
  obtain (⟨-, rfl⟩ | hd) | (⟨-, rfl⟩ | hd) := hm d hd
  · exact one_pos
  · exact hp d hd
  · exact one_pos
  · exact ho d hd

theorem forall₂_zip_left {f : Int × Int → Except Fault Int}
    (hf : ∀ m n, n = m ∨ n = 1 → f (m, n) = .ok m)
    (h : Forall₂ (fun d n => d = n ∨ d = 1) s target) :
    Forall₂ (fun p d => f p = .ok d) (target.zip s) target := by
  induction h with
  | nil => exact .nil
  | cons hd _ ih => exact .cons (hf _ _ hd) ih

theorem Expands.broadcast_eq (h : s.Expands target) : target.broadcast s = .ok target := by
  have hr : max target.length s.length = target.length := max_eq_left h.length_le
  have hp : target.padded target.length = target := by simp [padded]
  rw [broadcast, hr, hp, mapM_ok_iff]
  refine forall₂_zip_left (fun m n hn => ?_) h
  by_cases hs : m = n
  · simp [hs]
  · obtain rfl := hn.resolve_left (Ne.symm hs)
    simp [hs]

theorem broadcast_self (s : Shape) : s.broadcast s = .ok s := by
  refine Expands.broadcast_eq ?_
  rw [Expands, padded, Nat.sub_self]
  exact forall₂_same.2 fun d _ => .inl rfl

end Shape

/-! ## Expanded tables -/

namespace Tensor

variable {α : Type} {s target : Shape} {f : List Int → α} {surplus : List α}

/-- Dimensions of extent 1 in front keep the elements. -/
theorem map_places_ones (n : Nat) (s : Shape) (f : List Int → α) :
    (places (replicate n 1 ++ s)).map (fun is => f (is.drop n)) = s.places.map f := by
  induction n with
  | zero => rfl
  | succ n ih =>
    rw [← ih, replicate_succ]
    simp [places_cons, Slice.progression_zero, Function.comp_def]

variable [Element α]

theorem reshape_one {t : Tensor α} (hs : ∀ d ∈ t.shape, 0 ≤ d) :
    t.reshape (1 :: t.shape) = build t.values (1 :: t.shape) := by
  have hc : closedShape t.size (1 :: t.shape) = .ok (1 :: t.shape) := by
    have hn : List.count (-1) (1 :: t.shape) = 0 := by
      rw [count_eq_zero, mem_cons, not_or]
      exact ⟨by decide, fun h => absurd (hs _ h) (by decide)⟩
    rw [closedShape, hn]
    rfl
  have hz : Shape.size (1 :: t.shape) = t.size := by
    rfl
  rw [reshape, hc]
  simp only [bind, Except.bind, hz, ne_eq, not_true_eq_false, if_false]

theorem addDimensions_eq (n : Nat) {t : Tensor α} (hs : ∀ d ∈ t.shape, 0 < d)
    (hv : t.values ≠ []) (hg : ∀ v ∈ t.values, IsSingle v) :
    t.addDimensions n = .ok ⟨replicate n 1 ++ t.shape, t.values⟩ := by
  induction n generalizing t with
  | zero => rfl
  | succ n ih =>
    have hr := ih (t := ⟨1 :: t.shape, t.values⟩) (by simpa using hs) hv hg
    rw [addDimensions, reshape_one fun d hd => (hs d hd).le,
      build_of_isSingle hg hv (cons_ne_nil 1 t.shape)]
    refine hr.trans ?_
    rw [replicate_succ', append_assoc, singleton_append]

/-- A dimension of extent 1, repeated. Surplus elements are left behind. -/
theorem repeatAlong_tabulateWith {before after : Shape} {n : Int} (hn : 0 < n)
    (hb : ∀ d ∈ before, 0 < d) (ha : ∀ d ∈ after, 0 < d)
    (hf : ∀ is ∈ places (before ++ 1 :: after), IsSingle (f is)) :
    (tabulateWith (before ++ 1 :: after) f surplus).repeatAlong before.length n =
      .ok (tabulate (before ++ n :: after) fun is => f (is.set before.length 0)) := by
  have ho : ∀ d ∈ before ++ n :: after, 0 < d := by
    simpa [or_imp, forall_and] using ⟨hb, hn, ha⟩
  have hg : ∀ d ∈ before ++ 1 :: after, 0 < d := by
    simpa [or_imp, forall_and] using ⟨hb, ha⟩
  have hp : ∀ is ∈ places (before ++ n :: after), before.length < is.length ∧
        is.set before.length 0 ∈ places (before ++ 1 :: after) := by
    intro is his
    obtain ⟨js, hj, i, -, ks, hk, rfl⟩ := mem_places_split.1 his
    have hl := length_of_mem_places hj
    refine ⟨by simp [hl], mem_places_split.2 ⟨js, hj, 0, by decide, ks, hk, ?_⟩⟩
    simp [← hl]
  have he : Sequence.at (before ++ 1 :: after) before.length = .ok 1 :=
    Sequence.at_natCast (by simp)
  have hh : Sequence.put (before ++ 1 :: after) before.length n = .ok (before ++ n :: after) := by
    rw [Sequence.put_natCast (by simp)]
    simp
  have hv : (places (before ++ n :: after)).mapM (fun is => do
      Sequence.at (tabulateWith (before ++ 1 :: after) f surplus).values
        (← (tabulateWith (before ++ 1 :: after) f surplus).flatIndex
          (← Sequence.put is before.length 0))) =
      .ok ((places (before ++ n :: after)).map fun is => f (is.set before.length 0)) := by
    refine mapM_ok_map fun is his => ?_
    obtain ⟨hl, hs⟩ := hp is his
    have hfl := flatIndex_of_mem (t := tabulateWith (before ++ 1 :: after) f surplus) hs
    rw [Sequence.put_natCast hl]
    simp only [bind, Except.bind, hfl, shape_tabulateWith, at_tabulateWith hg hs]
  rw [repeatAlong, shape_tabulateWith, he]
  simp only [bind, Except.bind, ne_eq, not_true_eq_false, if_false, hh]
  simp only [bind, Except.bind] at hv
  rw [← places, hv]
  exact build_tabulate ho (by simp) fun is his => hf _ (hp is his).2

/-- One dimension of an expansion: its extent, the extent wanted, and its number. -/
def widenStep (t : Tensor α) (p : (Int × Int) × Nat) : Except Fault (Tensor α) :=
  if p.1.1 = 1 ∧ p.1.2 ≠ 1 then t.repeatAlong p.2 p.1.2 else .ok t

theorem widenStep_tabulateWith {before after : Shape} {d n : Int} (surplus : List α)
    (hd : d = n ∨ d = 1) (hn : 0 < n) (hb : ∀ d ∈ before, 0 < d) (ha : ∀ d ∈ after, 0 < d)
    (hf : ∀ is ∈ places (before ++ d :: after), IsSingle (f is)) :
    ∃ (f₁ : List Int → α) (surplus₁ : List α), surplus₁ ⊆ surplus ∧
      (tabulateWith (before ++ d :: after) f surplus).widenStep ((d, n), before.length) =
        .ok (tabulateWith (before ++ n :: after) f₁ surplus₁) ∧
      ∀ js ∈ before.places, ∀ i, 0 ≤ i ∧ i < n → ∀ ks,
        f₁ (js ++ i :: ks) = f (js ++ (if d = 1 then 0 else i) :: ks) := by
  by_cases hr : d = 1 ∧ n ≠ 1
  · obtain ⟨rfl, -⟩ := id hr
    refine ⟨fun is => f (is.set before.length 0), [], nil_subset _, ?_, fun js hj i hi ks => ?_⟩
    · rw [widenStep, if_pos hr, tabulateWith_nil]
      exact repeatAlong_tabulateWith hn hb ha hf
    · simp [← length_of_mem_places hj]
  · refine ⟨f, surplus, List.Subset.refl _, ?_, fun js _ i hi ks => ?_⟩
    · rw [widenStep, if_neg hr, show d = n by omega]
    · have hx : (if d = 1 then 0 else i) = i := by
        split <;> omega
      rw [hx]

/-- The dimensions are repeated one after the other: those before the current one have been
brought to the target. -/
theorem foldlM_widenStep (surplus : List α) (before : Shape)
    (hs : Forall₂ (fun d n => d = n ∨ d = 1) s target) (hb : ∀ d ∈ before, 0 < d)
    (ht : ∀ d ∈ target, 0 < d) (hf : ∀ is ∈ places (before ++ s), IsSingle (f is)) :
    ∃ surplus' ⊆ surplus, ((s.zip target).zipIdx before.length).foldlM widenStep
        (tabulateWith (before ++ s) f surplus) = .ok (tabulateWith (before ++ target) (fun is =>
          f (is.take before.length ++ s.squeezed (is.drop before.length))) surplus') := by
  induction hs generalizing before f surplus with
  | nil =>
    refine ⟨surplus, List.Subset.refl _, congrArg Except.ok (tabulateWith_congr fun is his => ?_)⟩
    rw [append_nil] at his
    have hl := length_of_mem_places his
    simp [squeezed, ← hl]
  | @cons d n s target hd hs ih =>
    obtain ⟨hn, ht⟩ := forall_mem_cons.1 ht
    have ho : ∀ m ∈ s, 0 < m := positive_of_forall₂ hs ht
    -- the current dimension counts as done from here on
    obtain ⟨f₁, surplus₁, hu₁, hw, hf₁⟩ := widenStep_tabulateWith surplus hd hn hb ho hf
    have hl : before.length + 1 = (before ++ [n]).length := by simp
    have hp : ∀ t : Shape, before ++ n :: t = (before ++ [n]) ++ t := by simp
    have hinn : ∀ is ∈ places ((before ++ [n]) ++ s), IsSingle (f₁ is) := by
      rw [← hp s]
      intro is his
      obtain ⟨js, hj, i, hi, ks, hk, rfl⟩ := mem_places_split.1 his
      rw [hf₁ js hj i hi]
      refine hf _ (mem_places_split.2 ⟨js, hj, _, ?_, ks, hk, rfl⟩)
      split <;> omega
    obtain ⟨surplus', hu, hr⟩ := ih surplus₁ (before ++ [n])
      (by simpa [or_imp, forall_and] using ⟨hb, hn⟩) ht hinn
    refine ⟨surplus', List.Subset.trans hu hu₁, ?_⟩
    rw [zip_cons_cons, zipIdx_cons, foldlM_cons, hw, hl, hp s]
    refine hr.trans (congrArg Except.ok ?_)
    rw [hp target]
    refine tabulateWith_congr fun is his => ?_
    rw [← hp target, mem_places_split] at his
    obtain ⟨js, hj, i, hi, ks, -, rfl⟩ := his
    have hj' := length_of_mem_places hj
    rw [← hl, ← hj', take_left, drop_left, squeezed_cons, ← hf₁ js hj i hi]
    simp [take_length_add_append, drop_length_add_append]

theorem expand_self (t : Tensor α) : t.expand t.shape = .ok t := by
  rw [expand, if_pos rfl]
  rfl

theorem expand_of_expands {t : Tensor α} (h : t.shape ≠ target) (hs : t.shape.Expands target) :
    t.expand target = (t.addDimensions (target.length - t.shape.length) >>= fun t =>
      (t.shape.zip target).zipIdx.foldlM widenStep t) := by
  have hf : ((t.shape.padded target.length).zip target).any
      (fun p => decide (p.1 ≠ p.2) && decide (p.1 ≠ 1)) = false := by
    rw [any_eq_false]
    intro p hp
    have hp := (forall₂_iff_zip.1 hs).2 hp
    simpa using fun h => hp.resolve_left h
  rw [expand, if_neg h, if_neg (by rw [Bool.not_eq_true]; exact hf)]
  rfl

/-- The expanded table: every place repeats the element of its origin. Surplus elements are
kept as long as nothing is repeated. -/
theorem expand_tabulateWith (hs : s.Expands target) (ht : ∀ d ∈ target, 0 < d)
    (hf : ∀ is ∈ s.places, IsSingle (f is)) (hu : ∀ v ∈ surplus, IsSingle v) :
    ∃ surplus' ⊆ surplus, (tabulateWith s f surplus).expand target =
      .ok (tabulateWith target (fun is => f (s.origin is)) surplus') := by
  by_cases heq : s = target
  · subst heq
    refine ⟨surplus, List.Subset.refl _, (expand_self _).trans (congrArg Except.ok ?_)⟩
    exact tabulateWith_congr fun is his => by rw [origin_of_mem his]
  · have hp := positive_of_forall₂ hs ht
    rw [padded, forall_mem_append] at hp
    have hv : (tabulateWith s f surplus).values ≠ [] :=
      append_ne_nil_of_left_ne_nil (by simpa using places_ne_nil hp.2) _
    have hg : ∀ v ∈ (tabulateWith s f surplus).values, IsSingle v :=
      forall_mem_append.2 ⟨forall_mem_map.2 hf, hu⟩
    have ha : (tabulateWith s f surplus).addDimensions (target.length - s.length) =
        .ok (tabulateWith ([] ++ s.padded target.length)
          (fun is => f (is.drop (target.length - s.length))) surplus) := by
      rw [addDimensions_eq _ hp.2 hv hg, tabulateWith, tabulateWith,
        nil_append, padded, map_places_ones]
    have hi : ∀ is ∈ places ([] ++ s.padded target.length),
        IsSingle (f (is.drop (target.length - s.length))) := by
      intro is his
      rw [nil_append, padded, mem_places_append] at his
      obtain ⟨js, hj, ks, hk, rfl⟩ := his
      have hl := length_of_mem_places hj
      rw [length_replicate] at hl
      rw [drop_left' hl]
      exact hf ks hk
    obtain ⟨surplus', hb, ho⟩ := foldlM_widenStep surplus [] hs (by simp) ht hi
    refine ⟨surplus', hb, ?_⟩
    rw [expand_of_expands heq hs, shape_tabulateWith, ha]
    refine ho.trans (congrArg Except.ok (tabulateWith_congr fun is his => ?_))
    rw [length_nil, take_zero, nil_append, origin,
      squeezed, drop_zipWith, padded, drop_left' length_replicate,
      length_of_mem_places his]
    rfl

/-! ## Paired tables -/

/-- The elements of two tensors, both expanded to the common shape and paired. -/
def widened (a b : Tensor α) : Except Fault (Shape × List (α × α)) := do
  let shape ← Shape.broadcast a.shape b.shape
  let a ← a.expand shape
  let b ← b.expand shape
  return (shape, a.values.zip b.values)

/-- Tensors of one shape are paired as if they were expanded. -/
theorem aligned_eq_widened (a b : Tensor α) : a.aligned b = a.widened b := by
  by_cases heq : a.shape = b.shape
  · have hb : b.expand a.shape = .ok b := heq ▸ expand_self b
    rw [aligned, if_pos heq, widened, ← heq, broadcast_self]
    simp only [bind, Except.bind, expand_self, hb]
  · rw [aligned, if_neg heq, widened]

/-- Two tables with surplus elements are paired by the origins of their common places first. -/
theorem aligned_tabulateWith {a b c : Shape} {h : List Int → α} {surplus' : List α}
    (hc : a.broadcast b = .ok c) (ha : ∀ d ∈ a, 0 < d) (hb : ∀ d ∈ b, 0 < d)
    (hf : ∀ is ∈ a.places, IsSingle (f is)) (hh : ∀ is ∈ b.places, IsSingle (h is))
    (hs : ∀ v ∈ surplus, IsSingle v) (hs' : ∀ v ∈ surplus', IsSingle v) :
    ∃ xs ⊆ surplus, ∃ ys ⊆ surplus',
      (tabulateWith a f surplus).aligned (tabulateWith b h surplus') =
        .ok (c, (c.places.map fun is => (f (a.origin is), h (b.origin is))) ++ xs.zip ys) := by
  obtain ⟨hac, hbc, ho⟩ := expands_of_broadcast hc
  have hp := ho ha hb
  obtain ⟨xs, hx, hl⟩ := expand_tabulateWith hac hp hf hs
  obtain ⟨ys, hy, hr⟩ := expand_tabulateWith hbc hp hh hs'
  refine ⟨xs, hx, ys, hy, ?_⟩
  rw [aligned_eq_widened, widened, shape_tabulateWith, shape_tabulateWith, hc]
  simp only [bind, Except.bind, hl, hr]
  rw [tabulateWith, tabulateWith, zip_append (by simp), zip_map']
  rfl

/-- Two tables are paired by the origins of their common places. -/
theorem aligned_tabulate {a b c : Shape} {h : List Int → α} (hc : a.broadcast b = .ok c)
    (ha : ∀ d ∈ a, 0 < d) (hb : ∀ d ∈ b, 0 < d) (hf : ∀ is ∈ a.places, IsSingle (f is))
    (hh : ∀ is ∈ b.places, IsSingle (h is)) :
    (tabulate a f).aligned (tabulate b h) =
      .ok (c, c.places.map fun is => (f (a.origin is), h (b.origin is))) := by
  obtain ⟨xs, hx, ys, -, hl⟩ := aligned_tabulateWith hc ha hb hf hh
    (forall_mem_nil IsSingle) (forall_mem_nil IsSingle)
  obtain rfl := subset_nil.1 hx
  rwa [zip_nil_left, append_nil, tabulateWith_nil, tabulateWith_nil] at hl

end Tensor

end Patchwork
