import Patchwork.Proofs.Tensor.Broadcast

/-!
# Compatible shapes

Two shapes clash if, aligned at their last dimensions, two extents differ and neither of them is 1.
Shapes that clash have no common shape. All others have one, the larger extent of every dimension,
and bringing tensors to it refuses nothing: it can only run out of elements.
-/

namespace Patchwork

open List

/-! ## Common shapes -/

namespace Shape

variable {a b : Shape}

/-- Two shapes clash: aligned at their last dimensions, two extents differ and neither of them
is 1. -/
def Clash (a b : Shape) : Prop :=
  ∃ (k : Nat) (d e : Int), a.reverse[k]? = some d ∧ b.reverse[k]? = some e ∧ d ≠ e ∧ d ≠ 1 ∧ e ≠ 1

/-- The larger extents of two shapes that are listed from the last dimension on. -/
def largerFrom : List Int → List Int → List Int
  | [], ys => ys
  | x :: xs, [] => x :: xs
  | x :: xs, y :: ys => max x y :: largerFrom xs ys

/-- The larger extent of every dimension, aligned at the last one. -/
def larger (a b : Shape) : Shape := (largerFrom a.reverse b.reverse).reverse

def commonExtent (a b : Shape) (p : Int × Int) : Except Fault Int :=
  if p.1 = p.2 then .ok p.1
  else if p.1 = 1 then .ok p.2
  else if p.2 = 1 then .ok p.1
  else .error (.rejected (.broadcast a b))

theorem commonExtent_ok {x y : Int} (hx : 0 < x) (hy : 0 < y) (h : x = y ∨ x = 1 ∨ y = 1) :
    commonExtent a b (x, y) = .ok (max x y) := by
  rw [commonExtent]
  dsimp only
  split_ifs with hs ho ho'
  · rw [← hs, max_self]
  · rw [max_eq_right (by omega)]
  · rw [max_eq_left (by omega)]
  · omega

theorem commonExtent_error {p : Int × Int} {e : Fault} (h : commonExtent a b p = .error e) :
    e = .rejected (.broadcast a b) := by
  rw [commonExtent] at h
  split_ifs at h
  cases h
  rfl

theorem reverse_padded (s : Shape) (rank : Nat) :
    (s.padded rank).reverse = s.reverse ++ replicate (rank - s.length) 1 := by
  rw [padded, reverse_append, reverse_replicate]

/-- Extents meet in the larger ones, from the last dimension on. Where one shape has ended, the
other one meets extents of 1. -/
theorem forall₂_largerFrom {xs ys : List Int} {m n : Nat} (hl : xs.length + m = ys.length + n)
    (he : m = 0 ∨ n = 0) (hxs : ∀ x ∈ xs, 0 < x) (hs : ∀ y ∈ ys, 0 < y)
    (h : ∀ (k : Nat) (x y : Int), xs[k]? = some x → ys[k]? = some y → x = y ∨ x = 1 ∨ y = 1) :
    Forall₂ (fun p d => commonExtent a b p = .ok d)
      ((xs ++ replicate m 1).zip (ys ++ replicate n 1)) (largerFrom xs ys) := by
  induction xs generalizing ys m n with
  | nil =>
    induction ys generalizing m with
    | nil =>
      obtain ⟨rfl, rfl⟩ : m = 0 ∧ n = 0 := by
        simp at hl
        omega
      exact .nil
    | cons y ys ih =>
      obtain ⟨hy, hs⟩ := forall_mem_cons.1 hs
      obtain ⟨m, rfl⟩ : ∃ m', m = m' + 1 := ⟨m - 1, by simp at hl; omega⟩
      have hr := ih (m := m) (by simp at hl ⊢; omega) (by omega) hs (by simp)
      refine .cons ?_ hr
      rw [commonExtent_ok one_pos hy (.inr (.inl rfl)), max_eq_right (by omega)]
  | cons x xs ih =>
    obtain ⟨hx, hxs⟩ := forall_mem_cons.1 hxs
    obtain _ | ⟨y, ys⟩ := ys
    · obtain ⟨n, rfl⟩ : ∃ n', n = n' + 1 := ⟨n - 1, by simp at hl; omega⟩
      have hr := @ih [] m n (by simp at hl ⊢; omega) (by omega) hxs (by simp) (by simp)
      have hn : largerFrom xs [] = xs := by cases xs <;> rfl
      rw [hn] at hr
      refine .cons ?_ hr
      rw [commonExtent_ok hx one_pos (.inr (.inr rfl)), max_eq_left (by omega)]
    · obtain ⟨hy, hs⟩ := forall_mem_cons.1 hs
      exact .cons (commonExtent_ok hx hy (h 0 x y rfl rfl))
        (ih (by simpa [Nat.add_right_comm] using hl) he hxs hs fun k => h (k + 1))

theorem reverse_zip_padded (a b : Shape) :
    ((a.padded (max a.length b.length)).zip (b.padded (max a.length b.length))).reverse =
      (a.reverse ++ replicate (max a.length b.length - a.length) 1).zip
        (b.reverse ++ replicate (max a.length b.length - b.length) 1) := by
  have hl := (length_padded (le_max_left a.length b.length)).trans
    (length_padded (le_max_right a.length b.length)).symm
  rw [← reverse_padded, ← reverse_padded]
  exact reverse_zipWith hl

/-- Shapes that do not clash meet in their larger extents. -/
theorem broadcast_of_not_clash (ha : ∀ d ∈ a, 0 < d) (hb : ∀ d ∈ b, 0 < d) (h : ¬ Clash a b) :
    a.broadcast b = .ok (larger a b) := by
  change List.mapM (commonExtent a b) _ = _
  rw [mapM_ok_iff, ← forall₂_reverse_iff, reverse_zip_padded, larger, reverse_reverse]
  refine forall₂_largerFrom ?_ (by omega) (by simpa using ha) (by simpa using hb) ?_
  · simp only [length_reverse]
    omega
  · intro k x y hx hy
    by_contra hd
    simp only [not_or] at hd
    exact h ⟨k, x, y, hx, hy, hd⟩

theorem broadcast_of_clash (h : Clash a b) :
    a.broadcast b = .error (.rejected (.broadcast a b)) := by
  obtain ⟨k, x, y, hx, hy, hi, ho, ho'⟩ := h
  have hm : (x, y) ∈ (a.padded (max a.length b.length)).zip (b.padded (max a.length b.length)) := by
    rw [← mem_reverse, reverse_zip_padded]
    refine mem_of_getElem? (i := k) (getElem?_zip_eq_some.2 ⟨?_, ?_⟩)
    · rwa [getElem?_append_left (List.getElem?_eq_some_iff.1 hx).1]
    · rwa [getElem?_append_left (List.getElem?_eq_some_iff.1 hy).1]
  have hf : ∀ d, commonExtent a b (x, y) ≠ .ok d := by
    intro d hd
    rw [commonExtent, if_neg hi, if_neg ho, if_neg ho'] at hd
    cases hd
  obtain ⟨e, he, rfl⟩ := mapM_error (f := commonExtent a b) (fun p _ e => commonExtent_error)
    ⟨_, hm, hf⟩
  exact he

end Shape

/-! ## Computations that refuse nothing -/

/-- An argument is refused. -/
def Fault.IsRefusal : Fault → Prop
  | .rejected _ | .domain => True
  | _ => False

/-- A computation refuses nothing, and something holds of its result. -/
def Fault.Spares {α : Type} (p : α → Prop) : Except Fault α → Prop
  | .ok a => p a
  | .error e => ¬ e.IsRefusal

namespace Fault.Spares

variable {α β : Type} {p p' : α → Prop} {q : β → Prop} {x : Except Fault α}

theorem imp (h : Spares p x) (hp : ∀ a, p a → p' a) : Spares p' x := by
  cases x with
  | error e => exact h
  | ok a => exact hp a h

theorem bind {f : α → Except Fault β} (h : Spares p x) (hf : ∀ a, p a → Spares q (f a)) :
    Spares q (x >>= f) := by
  cases x with
  | error e => exact h
  | ok a => exact hf a h

theorem mapM {f : α → Except Fault β} {xs : List α} (h : ∀ x ∈ xs, Spares q (f x)) :
    Spares (fun ys => ∀ y ∈ ys, q y) (xs.mapM f) := by
  induction xs with
  | nil => exact forall_mem_nil q
  | cons x xs ih =>
    obtain ⟨hx, hs⟩ := forall_mem_cons.1 h
    rw [mapM_cons]
    exact hx.bind fun y hy => (ih hs).bind fun ys hys => forall_mem_cons.2 ⟨hy, hys⟩

end Fault.Spares

theorem Sequence.spares_at {α : Type} (xs : List α) (i : Int) :
    Fault.Spares (· ∈ xs) (Sequence.at xs i) := by
  rw [Sequence.at]
  generalize (if i < 0 then i + (xs.length : Int) else i) = j
  split
  · exact id
  · split
    · exact mem_of_getElem? ‹_›
    · exact id

theorem Sequence.spares_put {α : Type} (xs : List α) (i : Int) (x : α) :
    Fault.Spares (fun _ => True) (Sequence.put xs i x) := by
  rw [Sequence.put]
  generalize (if i < 0 then i + (xs.length : Int) else i) = j
  split
  · exact id
  · exact trivial

namespace Tensor

open Fault (Spares)

variable {α : Type} [Element α] {s target : Shape} {t : Tensor α}

omit [Element α] in
theorem spares_flatIndex (t : Tensor α) (is : List Int) :
    Spares (fun _ => True) (t.flatIndex is) := by
  rw [flatIndex]
  split
  · exact id
  · split
    · exact id
    · exact trivial

theorem spares_build {values : List α} (hs : s ≠ []) :
    Spares (fun u => u.shape = s ∧ u.values ⊆ values) (build values s) := by
  obtain _ | ⟨d, s⟩ := s
  · exact absurd rfl hs
  · rw [build]
    · split
      · exact ⟨rfl, filter_subset_self _⟩
      · exact id
    · exact cons_ne_nil d s

theorem spares_repeatAlong {before after : Shape} (n : Int) (ht : t.shape = before ++ 1 :: after) :
    Spares (fun u => u.shape = before ++ n :: after ∧ u.values ⊆ t.values)
      (t.repeatAlong before.length n) := by
  have he : Sequence.at t.shape before.length = .ok 1 := by
    rw [ht]
    exact Sequence.at_natCast (by simp)
  have hs : Sequence.put t.shape before.length n = .ok (before ++ n :: after) := by
    rw [ht, Sequence.put_natCast (by simp)]
    simp
  have hl : Spares (fun vs => ∀ v ∈ vs, v ∈ t.values)
      ((Shape.places (before ++ n :: after)).mapM fun is => do
        Sequence.at t.values (← t.flatIndex (← Sequence.put is before.length 0))) :=
    Spares.mapM fun is _ => (Sequence.spares_put is _ 0).bind fun js _ =>
      (spares_flatIndex t js).bind fun k _ => Sequence.spares_at t.values k
  have hb := hl.bind fun vs hvs => (spares_build (s := before ++ n :: after)
    (by simp)).imp fun u hu => And.intro hu.1 fun v hv => hvs v (hu.2 hv)
  rw [repeatAlong, he]
  simp only [bind, Except.bind, ne_eq, not_true_eq_false, if_false, hs]
  exact hb

theorem spares_addDimensions (n : Nat) (ht : ∀ d ∈ t.shape, 0 ≤ d) :
    Spares (fun u => u.shape = replicate n 1 ++ t.shape ∧ u.values ⊆ t.values)
      (t.addDimensions n) := by
  induction n generalizing t with
  | zero => exact ⟨rfl, List.Subset.refl _⟩
  | succ n ih =>
    rw [addDimensions, reshape_one ht]
    refine (spares_build (cons_ne_nil 1 t.shape)).bind fun u hu => ?_
    have hn : ∀ d ∈ u.shape, 0 ≤ d := by
      rw [hu.1]
      simpa using ht
    refine (ih hn).imp fun v hv => ⟨?_, List.Subset.trans hv.2 hu.2⟩
    rw [hv.1, hu.1, replicate_succ', append_assoc, singleton_append]

/-- The dimensions are repeated one after the other, and those before the current one have the
extents of the target. -/
theorem spares_foldlM_widenStep (before : Shape) (ht : t.shape = before ++ s)
    (hs : Forall₂ (fun d n => d = n ∨ d = 1) s target) :
    Spares (fun u => u.shape = before ++ target ∧ u.values ⊆ t.values)
      (((s.zip target).zipIdx before.length).foldlM widenStep t) := by
  induction hs generalizing before t with
  | nil => exact ⟨ht, List.Subset.refl _⟩
  | @cons d n s target hd _ ih =>
    have hst : Spares (fun u => u.shape = before ++ n :: s ∧ u.values ⊆ t.values)
        (t.widenStep ((d, n), before.length)) := by
      rw [widenStep]
      split_ifs with hr
      · exact spares_repeatAlong n (hr.1 ▸ ht)
      · refine ⟨?_, List.Subset.refl _⟩
        rw [ht, show d = n by dsimp only at hr; omega]
    have hl : before.length + 1 = (before ++ [n]).length := by simp
    rw [zip_cons_cons, zipIdx_cons, foldlM_cons, hl]
    refine hst.bind fun u hu => ?_
    refine (ih (before ++ [n]) (by simpa using hu.1)).imp fun v hv => ?_
    exact ⟨by simpa using hv.1, List.Subset.trans hv.2 hu.2⟩

/-- Expanding refuses nothing if the shape expands. -/
theorem spares_expand (ht : ∀ d ∈ t.shape, 0 ≤ d) (hs : t.shape.Expands target) :
    Spares (fun u => u.shape = target ∧ u.values ⊆ t.values) (t.expand target) := by
  by_cases heq : t.shape = target
  · subst heq
    rw [expand_self]
    exact ⟨rfl, List.Subset.refl _⟩
  · rw [expand_of_expands heq hs]
    refine (spares_addDimensions _ ht).bind fun u hu => ?_
    have hp : u.shape = t.shape.padded target.length := hu.1
    rw [hp]
    exact (spares_foldlM_widenStep [] hp hs).imp fun v hv =>
      ⟨hv.1, List.Subset.trans hv.2 hu.2⟩

/-- Pairing refuses nothing if the shapes do not clash, and pairs elements of both tensors. -/
theorem spares_aligned {a b : Tensor α} (ha : ∀ d ∈ a.shape, 0 < d) (hb : ∀ d ∈ b.shape, 0 < d)
    (h : ¬ Shape.Clash a.shape b.shape) :
    Spares (fun r => r.1 = Shape.larger a.shape b.shape ∧
      ∀ p ∈ r.2, p.1 ∈ a.values ∧ p.2 ∈ b.values) (a.aligned b) := by
  have hc := Shape.broadcast_of_not_clash ha hb h
  obtain ⟨hac, hbc, -⟩ := Shape.expands_of_broadcast hc
  rw [aligned_eq_widened, widened, hc]
  refine (spares_expand (fun d hd => (ha d hd).le) hac).bind fun u hu =>
    (spares_expand (fun d hd => (hb d hd).le) hbc).bind fun v hv => ?_
  refine ⟨rfl, fun p hp => ?_⟩
  obtain ⟨hl, hr⟩ := of_mem_zip (a := p.1) (b := p.2) hp
  exact ⟨hu.2 hl, hv.2 hr⟩

end Tensor

end Patchwork
