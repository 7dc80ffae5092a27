import Patchwork.Datum.Operators
import Patchwork.Proofs.Datum.Nesting
import Patchwork.Proofs.Uniform

/-!
# Elementwise operations on tensors

A tensor meets a number or a nesting of numbers place by place. A plain number that meets a traced
element is made a named constant first, and equal numbers of one operation share their constant.
Everything else is the operation on scalars: the outcome is a tensor of the results, or the fault
of one of the places.
-/

namespace Patchwork

open List Shape Trace

variable {g g' g'' : Graph}

namespace Trace

variable {α β : Type} {t : Trace α} {f : α → Trace β} {p : α → Graph → Prop} {q : β → Graph → Prop}
  {r s : Fault → Prop}

/-- A trace of two parts ends as one of its parts does. -/
theorem outcome_bind (h : t.Gives g p ∨ t.Fails g s) (hr : ∀ e, s e → r e)
    (hf : ∀ a g', g.Extends g' → p a g' → (f a).Gives g' q ∨ (f a).Fails g' r) :
    (t >>= f).Gives g q ∨ (t >>= f).Fails g r := by
  rcases h with ⟨a, g', ht, hx, ha⟩ | ⟨e, ht, he⟩
  · have hu : t.Gives g fun a₁ g₁ => a₁ = a ∧ g₁ = g' := ⟨a, g', ht, hx, rfl, rfl⟩
    rcases hf a g' hx ha with hg | hl
    · refine .inl (hu.bind ?_)
      rintro _ _ - ⟨rfl, rfl⟩
      exact hg
    · refine .inr (hu.bind_fails ?_)
      rintro _ _ - ⟨rfl, rfl⟩
      exact hl
  · exact .inr (Fails.bind ⟨e, ht, hr e he⟩)

/-- A trace with a function applied to its result ends as the trace does. -/
theorem outcome_map (h : α → β) (ha : ∀ {x g'}, t g = .ok (x, g') → g.Extends g') :
    (h <$> t).Gives g (fun y g' => ∃ x, y = h x ∧ t g = .ok (x, g')) ∨
      (h <$> t).Fails g fun e => t g = .error e := by
  have hr : (h <$> t) g = (t g >>= fun r => pure (h r.1, r.2)) := rfl
  cases ht : t g with
  | error e =>
    refine .inr ⟨e, ?_, rfl⟩
    rw [hr, ht]
    rfl
  | ok r =>
    refine .inl ⟨h r.1, r.2, ?_, ha ht, r.1, rfl, rfl⟩
    rw [hr, ht]
    rfl

end Trace

/-! ## Operands -/

/-- A number takes the constant of another one that is the same, that compares equal, or that
like it is the double which differs from itself. -/
def Number.Shares (m n : Number) : Prop :=
  m = n ∨ m.eq n = true ∨ (Datum.plain m).isNaN = true ∧ (Datum.plain n).isNaN = true

def Graph.Names (g : Graph) (v : Value) (n : Number) : Prop :=
  ∃ g₀ g₁, Value.constant n g₀ = .ok (v, g₁) ∧ g₁.Extends g

theorem Graph.Names.mono {v : Value} {n : Number} (h : g.Names v n) (he : g.Extends g') :
    g'.Names v n := by
  obtain ⟨g₀, g₁, hm, hb⟩ := h
  exact ⟨g₀, g₁, hm, hb.trans he⟩

namespace Scalar

/-- What the second operand is by the time the first one meets it: a named constant if it is a
plain number and the first one is traced, and else itself. -/
def Meets (g : Graph) : Scalar → Scalar → Scalar → Prop
  | traced _, plain n, b => ∃ v m, b = traced v ∧ g.Names v m ∧ m.Shares n
  | _, b, b' => b' = b

variable {op : Scalar → Scalar → Trace Scalar} {a b x : Scalar} {e : Fault}

/-- The operation on scalars gives a result at some graph between two graphs. -/
def Applied (op : Scalar → Scalar → Trace Scalar) (g g' : Graph) (a b x : Scalar) : Prop :=
  ∃ g₁ g₂ b', g.Extends g₁ ∧ Meets g₁ a b b' ∧ op a b' g₁ = .ok (x, g₂) ∧ g₂.Extends g'

/-- The operation on scalars refuses its operands at some graph after a given one. -/
def Refused (op : Scalar → Scalar → Trace Scalar) (g : Graph) (a b : Scalar) (e : Fault) : Prop :=
  ∃ g₁ b', g.Extends g₁ ∧ Meets g₁ a b b' ∧ op a b' g₁ = .error e

theorem Applied.mono (h : Applied op g' g'' a b x) (he : g.Extends g') :
    Applied op g g'' a b x := by
  obtain ⟨g₁, g₂, b', hb, hr⟩ := h
  exact ⟨g₁, g₂, b', he.trans hb, hr⟩

theorem Refused.mono (h : Refused op g' a b e) (he : g.Extends g') : Refused op g a b e := by
  obtain ⟨g₁, b', hb, hr⟩ := h
  exact ⟨g₁, b', he.trans hb, hr⟩

end Scalar

namespace Datum

/-! ## Shared constants -/

/-- The constants made so far are named constants of the numbers they were made for. -/
def Made (g : Graph) (made : Shared) : Prop :=
  ∀ entry ∈ made, ∃ n v, entry = (plain n, traced v) ∧ g.Names v n

theorem made_nil (g : Graph) : Made g [] := forall_mem_nil _

theorem Made.mono {made : Shared} (h : Made g made) (he : g.Extends g') : Made g' made := by
  intro entry hn
  obtain ⟨n, v, heq, hm⟩ := h entry hn
  exact ⟨n, v, heq, hm.mono he⟩

/-- A second operand is always found, and what was made stays made. -/
theorem gives_shared {made : Shared} (h : Made g made) (a b : Scalar) :
    (shared (scalar a) (scalar b) made).Gives g fun r g' =>
      ∃ b', r.1 = scalar b' ∧ Scalar.Meets g' a b b' ∧ Made g' r.2 := by
  cases a with
  | plain m =>
    have hk : shared (scalar (.plain m)) (scalar b) made = pure (scalar b, made) :=
      if_pos (by simp [isTraced, Scalar.isTraced])
    rw [hk]
    exact .pure ⟨b, rfl, rfl, h⟩
  | traced w =>
    cases b with
    | traced v => exact Trace.Gives.pure (a := (traced v, made)) ⟨.traced v, rfl, rfl, h⟩
    | plain n =>
      refine Trace.Gives.bind (t := get) (p := fun g₀ g' => g₀ = g ∧ g' = g)
        ⟨g, g, rfl, .refl g, rfl, rfl⟩ ?_
      rintro _ _ - ⟨rfl, rfl⟩
      split
      case _ entry hf =>
        obtain ⟨m, v, rfl, hn⟩ := h _ (mem_of_find?_eq_some hf)
        refine .pure ⟨.traced v, rfl, ⟨v, m, rfl, hn, ?_⟩, h⟩
        exact .inr (by simpa [plain, same] using find?_some hf)
      case _ ho =>
        refine Trace.Gives.bind (p := fun d g' => ∃ v, d = traced v ∧ g'.Names v n) ?_ ?_
        · exact ⟨_, _, rfl, Graph.extends_push .., _, rfl, _, _, rfl, .refl _⟩
        · rintro _ g' he ⟨v, rfl, hn⟩
          exact .pure ⟨.traced v, rfl, ⟨v, n, rfl, hn, .inl rfl⟩,
            forall_mem_cons.2 ⟨⟨n, v, rfl, hn⟩, h.mono he⟩⟩

/-! ## Pairs -/

theorem dyadicTo_scalar (n : Nat) (o : Operator) (a b : Scalar) :
    dyadicTo (n + 1) (.operator o) (scalar a) (scalar b) = scalar <$> Scalar.binary o a b := rfl

variable {op : Scalar → Scalar → Trace Scalar} {f : Datum → Datum → Trace Datum}

/-- The outcome for a list of pairs: all results, or the fault of one pair. -/
theorem zipShared_outcome (hf : ∀ a b, f (scalar a) (scalar b) = scalar <$> op a b)
    (ha : ∀ {a b g x g'}, op a b g = .ok (x, g') → g.Extends g')
    (pairs : List (Scalar × Scalar)) {made : Shared} (hd : Made g made) :
    (zipShared f (pairs.map fun p => (scalar p.1, scalar p.2)) made).Gives g (fun ds g' =>
        ∃ xs : List Scalar, ds = xs.map scalar ∧
          Forall₂ (fun p x => Scalar.Applied op g g' p.1 p.2 x) pairs xs) ∨
      (zipShared f (pairs.map fun p => (scalar p.1, scalar p.2)) made).Fails g fun e =>
        ∃ p ∈ pairs, Scalar.Refused op g p.1 p.2 e := by
  induction pairs generalizing g made with
  | nil => exact .inl (.pure ⟨[], rfl, .nil⟩)
  | cons p pairs ih =>
    refine outcome_bind (.inl (gives_shared hd p.1 p.2)) (fun _ => False.elim) ?_
    rintro ⟨_, made'⟩ g₁ he₁ ⟨b', rfl, hm, hd'⟩
    refine outcome_bind (p := fun d g₂ => ∃ x, d = scalar x ∧ op p.1 b' g₁ = .ok (x, g₂))
      (s := fun e => op p.1 b' g₁ = .error e) ?_ ?_ ?_
    · rw [hf]
      exact outcome_map scalar ha
    · exact fun e ho => ⟨p, mem_cons_self, g₁, b', he₁, hm, ho⟩
    · rintro _ g₂ he₂ ⟨x, rfl, ho⟩
      refine outcome_bind (ih (hd'.mono he₂)) ?_ ?_
      · rintro e ⟨p', hp', hr⟩
        exact ⟨p', mem_cons_of_mem p hp', hr.mono (he₁.trans he₂)⟩
      · rintro _ g₃ he₃ ⟨xs, rfl, hx⟩
        refine .inl (.pure ⟨x :: xs, rfl, .cons ⟨g₁, g₂, b', he₁, hm, ho, he₃⟩ ?_⟩)
        exact hx.imp fun _ _ h => h.mono (he₁.trans he₂)

theorem zipShared_scalar_outcome (hf : ∀ a b, f (scalar a) (scalar b) = scalar <$> op a b)
    (ha : ∀ {a b g x g'}, op a b g = .ok (x, g') → g.Extends g') (xs : List Scalar)
    (y : Scalar) (g : Graph) :
    (zipShared f ((xs.map (·, y)).map fun p => (scalar p.1, scalar p.2)) []).Gives g (fun ds g' =>
        ∃ zs : List Scalar, ds = zs.map scalar ∧
          Forall₂ (fun x z => Scalar.Applied op g g' x y z) xs zs) ∨
      (zipShared f ((xs.map (·, y)).map fun p => (scalar p.1, scalar p.2)) []).Fails g fun e =>
        ∃ x ∈ xs, Scalar.Refused op g x y e := by
  obtain hg | ⟨e, hr, p, hp, he⟩ := zipShared_outcome hf ha (xs.map (·, y)) (made_nil g)
  · refine .inl (hg.imp ?_)
    rintro _ g' - ⟨zs, rfl, hz⟩
    exact ⟨zs, rfl, forall₂_map_left_iff.1 hz⟩
  · obtain ⟨x, hx, rfl⟩ := mem_map.1 hp
    exact .inr ⟨e, hr, x, hx, he⟩

/-! ## Tensors -/

def ofScalars (t : Tensor Scalar) (truths : List Nat) : Datum :=
  tensor t.shape (t.values.map scalar) truths

/-- The shape under which results are laid out: without dimensions it is that of a list. -/
def laidOut : Shape → Shape
  | [] => [1]
  | d :: s => d :: s

theorem laidOut_of_ne_nil {s : Shape} (h : s ≠ []) : laidOut s = s := by
  obtain _ | ⟨d, s⟩ := s
  · exact absurd rfl h
  · rfl

theorem rebuilt_scalars {t : Tensor Scalar} (ht : t.Full) (truths : List Nat) :
    rebuilt (t.values.map scalar) t.shape truths =
      pure (ofScalars ⟨laidOut t.shape, t.values⟩ truths) := by
  rw [rebuilt, build_scalars, if_neg ht.values_ne_nil]
  by_cases hs : t.shape = []
  · have ho : (t.values.length : Int) = 1 := ht.length.trans (congrArg size hs)
    rw [if_pos hs, ho, hs]
    rfl
  · rw [if_neg hs, laidOut_of_ne_nil hs]
    rfl

theorem binary_tensor {o : Operator} (ho : o.onArrays) (s : Shape) (values : List Datum)
    (truths : List Nat) (d : Datum) :
    binary o (tensor s values truths) d =
      tensorWith (dyadicTo (2 * ((tensor s values truths).depth + d.depth) + 3) (.operator o))
        ⟨s, values⟩ truths d := by
  cases o <;> first | rfl | cases ho

section Outcome

variable {t : Tensor Scalar} {d : Datum} {s c : Shape}

theorem map_scalar_eq_tabulate (ht : t.Full) :
    (⟨t.shape, t.values.map scalar⟩ : Tensor Datum) =
      .tabulate t.shape fun is => scalar (t.entry is) := by
  have hv := congrArg Tensor.values ht.eq_tabulate
  rw [Tensor.tabulate, hv, Tensor.tabulate, map_map]
  rfl

theorem tensorWith_scalar (s : Shape) (xs : List Scalar) (truths : List Nat) (x : Scalar) :
    tensorWith f ⟨s, xs.map scalar⟩ truths (scalar x) =
      zipShared f ((xs.map (·, x)).map fun p => (scalar p.1, scalar p.2)) [] >>= fun ys =>
        rebuilt ys s truths := by
  have hp : (xs.map scalar).map (·, scalar x) =
      (xs.map (·, x)).map fun p => (scalar p.1, scalar p.2) := by
    rw [map_map, map_map]
    rfl
  rw [← hp]
  rfl

theorem tensorWith_scalar_outcome (hf : ∀ a b, f (scalar a) (scalar b) = scalar <$> op a b)
    (ha : ∀ {a b g x g'}, op a b g = .ok (x, g') → g.Extends g') (ht : t.Full)
    (truths : List Nat) (x : Scalar) (g : Graph) :
    (tensorWith f ⟨t.shape, t.values.map scalar⟩ truths (scalar x)).Gives g (fun r g' =>
        ∃ ys, r = ofScalars ⟨laidOut t.shape, ys⟩ truths ∧
          Forall₂ (fun y z => Scalar.Applied op g g' y x z) t.values ys) ∨
      (tensorWith f ⟨t.shape, t.values.map scalar⟩ truths (scalar x)).Fails g fun e =>
        ∃ y ∈ t.values, Scalar.Refused op g y x e := by
  rw [tensorWith_scalar]
  refine outcome_bind (zipShared_scalar_outcome hf ha t.values x g) (fun _ he => he) ?_
  rintro _ g' - ⟨ys, rfl, hy⟩
  have hl : (Tensor.mk t.shape ys).Full := ⟨ht.positive, hy.length_eq ▸ ht.length⟩
  rw [rebuilt_scalars (t := ⟨t.shape, ys⟩) hl]
  exact .inl (.pure ⟨ys, rfl, hy⟩)

end Outcome

end Datum

end Patchwork
