import Patchwork.Proofs.Datum.Elementwise
import Patchwork.Proofs.Tensor.Compatible

/-!
# Operations on tensors of different shapes

An operation on two tensors of plain numbers refuses them exactly if their shapes clash. Otherwise,
if both tensors have an element at every place, the result has the larger extent along every
dimension, and each of its elements is the operation at the origins of its place. Two tensors of
one shape are treated as if they were expanded.
-/

namespace Patchwork

open List Shape Tensor

namespace Datum

variable {f : Datum → Datum → Trace Datum} {o : Number → Number → Number}
  {a b : Tensor Number}

def numbers (t : Tensor Number) : Tensor Datum := ⟨t.shape, t.values.map plain⟩

def ofNumbers (t : Tensor Number) (truths : List Nat) : Datum :=
  tensor t.shape (t.values.map plain) truths

theorem isSingle_plain (n : Number) : Tensor.IsSingle (plain n) := isSingle_scalar (.plain n)

theorem isSingle_of_mem {ns : List Number} {v : Datum} (h : v ∈ ns.map plain) :
    Tensor.IsSingle v := by
  obtain ⟨n, -, rfl⟩ := mem_map.1 h
  exact isSingle_plain n

theorem numbers_eq_tabulateWith {t : Tensor Number} (h : t.Covered) :
    numbers t = .tabulateWith t.shape (fun is => plain (t.entry is))
      ((t.values.drop t.size.toNat).map plain) := by
  have hv : t.values.map plain = (t.shape.places.map t.entry ++
      t.values.drop t.size.toNat).map plain :=
    congrArg (List.map plain) (congrArg Tensor.values h.eq_tabulateWith)
  rw [numbers, hv, map_append, map_map]
  rfl

/-! ## Pairs of numbers -/

theorem exists_numbers {pairs : List (Datum × Datum)} {xs ys : List Number}
    (h : ∀ p ∈ pairs, p.1 ∈ xs.map plain ∧ p.2 ∈ ys.map plain) :
    ∃ ps : List (Number × Number), pairs = ps.map fun p => (plain p.1, plain p.2) := by
  induction pairs with
  | nil => exact ⟨[], rfl⟩
  | cons p pairs ih =>
    obtain ⟨⟨hl, hr⟩, hs⟩ := forall_mem_cons.1 h
    obtain ⟨x, -, hx⟩ := mem_map.1 hl
    obtain ⟨y, -, hy⟩ := mem_map.1 hr
    obtain ⟨ps, rfl⟩ := ih hs
    exact ⟨(x, y) :: ps, by rw [map_cons, hx, hy]⟩

/-- Paired numbers meet one by one, and nothing is shared between them. -/
theorem zipShared_plain (hf : ∀ x y, f (plain x) (plain y) = pure (plain (o x y)))
    (ps : List (Number × Number)) (made : Shared) :
    zipShared f (ps.map fun p => (plain p.1, plain p.2)) made =
      pure ((ps.map fun p => o p.1 p.2).map plain) := by
  induction ps with
  | nil => rfl
  | cons p ps ih =>
    have hs : shared (plain p.1) (plain p.2) made = pure (plain p.2, made) := rfl
    rw [map_cons, zipShared, hs, pure_bind]
    dsimp only
    rw [hf, pure_bind, ih, pure_bind]
    rfl

/-- Both tensors are expanded, also if they have one shape. -/
theorem tensorWith_eq_widened (f : Datum → Datum → Trace Datum) (a b : Tensor Number)
    (truths truths' : List Nat) :
    tensorWith f (numbers a) truths (ofNumbers b truths') =
      Fault.lift ((numbers a).widened (numbers b)) >>= fun r =>
        zipShared f r.2 [] >>= fun values =>
          rebuilt values r.1 (if r.1 = a.shape then truths else []) := by
  rw [← aligned_eq_widened]
  rfl

theorem tensorWith_of_aligned (hf : ∀ x y, f (plain x) (plain y) = pure (plain (o x y)))
    {c : Shape} {ps : List (Number × Number)} (truths truths' : List Nat)
    (h : (numbers a).aligned (numbers b) = .ok (c, ps.map fun p => (plain p.1, plain p.2))) :
    tensorWith f (numbers a) truths (ofNumbers b truths') =
      rebuilt ((ps.map fun p => o p.1 p.2).map plain) c (if c = a.shape then truths else []) := by
  rw [aligned_eq_widened] at h
  have hl : (Fault.lift (Except.ok (c, ps.map fun p => (plain p.1, plain p.2))) :
      Trace (Shape × List (Datum × Datum))) =
        pure (c, ps.map fun p => (plain p.1, plain p.2)) := rfl
  rw [tensorWith_eq_widened, h, hl, pure_bind, zipShared_plain hf, pure_bind]

/-! ## Results -/

theorem larger_ne_nil {s t : Shape} (hs : ∀ d ∈ s, 0 < d) (ht : ∀ d ∈ t, 0 < d)
    (h : ¬ Shape.Clash s t) (hk : s ≠ [] ∨ t ≠ []) : Shape.larger s t ≠ [] := by
  obtain ⟨hl, hr, -⟩ := expands_of_broadcast (broadcast_of_not_clash hs ht h)
  intro hn
  rw [hn] at hl hr
  have hl := hl.length_le
  have hr := hr.length_le
  simp only [length_nil, Nat.le_zero, length_eq_zero_iff] at hl hr
  exact hk.elim (absurd hl) (absurd hr)

theorem fails_of_clash (h : Shape.Clash a.shape b.shape) (truths truths' : List Nat) (g : Graph) :
    (tensorWith f (numbers a) truths (ofNumbers b truths')).Fails g Fault.IsRefusal := by
  have hw : (numbers a).widened (numbers b) = .error (.rejected (.broadcast a.shape b.shape)) := by
    have hn : (numbers a).shape.broadcast (numbers b).shape = _ := broadcast_of_clash h
    rw [Tensor.widened, hn]
    rfl
  rw [tensorWith_eq_widened, hw]
  exact ⟨_, rfl, trivial⟩

/-- Tensors whose shapes do not clash are not refused, however many elements they have. -/
theorem not_fails_of_not_clash (hf : ∀ x y, f (plain x) (plain y) = pure (plain (o x y)))
    (ha : ∀ d ∈ a.shape, 0 < d) (hb : ∀ d ∈ b.shape, 0 < d) (hk : a.shape ≠ [] ∨ b.shape ≠ [])
    (h : ¬ Shape.Clash a.shape b.shape) (truths truths' : List Nat) (g : Graph) :
    ¬ (tensorWith f (numbers a) truths (ofNumbers b truths')).Fails g Fault.IsRefusal := by
  rintro ⟨e, hr, he⟩
  have hs := spares_aligned (a := numbers a) (b := numbers b) ha hb h
  cases hl : (numbers a).aligned (numbers b) with
  | error e' =>
    rw [hl] at hs
    rw [tensorWith_eq_widened, ← aligned_eq_widened, hl] at hr
    cases hr
    exact hs he
  | ok r =>
    obtain ⟨c, pairs⟩ := r
    rw [hl] at hs
    obtain ⟨hc, hp⟩ := hs
    obtain ⟨ps, rfl⟩ := exists_numbers hp
    have hn : c ≠ [] := by
      rw [show c = _ from hc]
      exact larger_ne_nil ha hb h hk
    have ht : Fault.Spares _ (Tensor.build ((ps.map fun p => o p.1 p.2).map plain) c) :=
      spares_build hn
    rw [tensorWith_of_aligned hf truths truths' hl, rebuilt] at hr
    cases hu : Tensor.build ((ps.map fun p => o p.1 p.2).map plain) c with
    | ok u =>
      rw [hu] at hr
      cases hr
    | error e' =>
      rw [hu] at hr ht
      cases hr
      exact ht he

theorem tensorWith_covered (hf : ∀ x y, f (plain x) (plain y) = pure (plain (o x y)))
    (ha : a.Covered) (hb : b.Covered) (hk : a.shape ≠ [] ∨ b.shape ≠ [])
    (h : ¬ Shape.Clash a.shape b.shape) (truths truths' : List Nat) :
    ∃ surplus : List Number, tensorWith f (numbers a) truths (ofNumbers b truths') =
        pure (ofNumbers (.tabulateWith (Shape.larger a.shape b.shape) (fun is =>
          o (a.entry (a.shape.origin is)) (b.entry (b.shape.origin is))) surplus)
          (if Shape.larger a.shape b.shape = a.shape then truths else [])) := by
  have hc := broadcast_of_not_clash ha.positive hb.positive h
  have ho := (expands_of_broadcast hc).2.2 ha.positive hb.positive
  have hs : ∀ t : Tensor Number, ∀ v ∈ (t.values.drop t.size.toNat).map plain,
      Tensor.IsSingle v := fun t v => isSingle_of_mem
  obtain ⟨xs, hx, ys, hy, hi⟩ := aligned_tabulateWith hc ha.positive hb.positive
    (fun is _ => isSingle_plain (a.entry is)) (fun is _ => isSingle_plain (b.entry is))
    (hs a) (hs b)
  have hm : ∀ p ∈ xs.zip ys, p.1 ∈ (a.values.drop a.size.toNat).map plain ∧
      p.2 ∈ (b.values.drop b.size.toNat).map plain := by
    intro p hp
    obtain ⟨hl, hr⟩ := of_mem_zip (a := p.1) (b := p.2) hp
    exact ⟨hx hl, hy hr⟩
  obtain ⟨ps, hps⟩ := exists_numbers hm
  have hprs : ((Shape.larger a.shape b.shape).places.map fun is =>
      (plain (a.entry (a.shape.origin is)), plain (b.entry (b.shape.origin is)))) ++ xs.zip ys =
      (((Shape.larger a.shape b.shape).places.map fun is =>
        (a.entry (a.shape.origin is), b.entry (b.shape.origin is))) ++ ps).map
          fun p => (plain p.1, plain p.2) := by
    rw [hps, map_append, map_map]
    rfl
  rw [← numbers_eq_tabulateWith ha, ← numbers_eq_tabulateWith hb, hprs] at hi
  refine ⟨ps.map fun p => o p.1 p.2, ?_⟩
  have hv : (((Shape.larger a.shape b.shape).places.map fun is =>
      (a.entry (a.shape.origin is), b.entry (b.shape.origin is))) ++ ps).map
        (fun p => o p.1 p.2) = (Tensor.tabulateWith (Shape.larger a.shape b.shape) (fun is =>
          o (a.entry (a.shape.origin is)) (b.entry (b.shape.origin is)))
            (ps.map fun p => o p.1 p.2)).values := by
    rw [map_append, map_map]
    rfl
  have hso : (Tensor.tabulateWith (Shape.larger a.shape b.shape) (fun is =>
      o (a.entry (a.shape.origin is)) (b.entry (b.shape.origin is)))
        (ps.map fun p => o p.1 p.2)).values.map plain ≠ [] := by
    simp [Tensor.tabulateWith, places_ne_nil ho]
  rw [tensorWith_of_aligned hf truths truths' hi, hv, rebuilt,
    build_of_isSingle (fun v => isSingle_of_mem) hso (larger_ne_nil ha.positive hb.positive h hk)]
  rfl

/-- **An operation on two tensors of numbers.** They are refused exactly if their shapes clash.
Otherwise, if both have an element at every place, the result has the larger extents as its shape,
and its element at a place is the operation at the origins of the place. The way over expanded
tensors gives every result. -/
theorem tensorWith_broadcasts (hf : ∀ x y, f (plain x) (plain y) = pure (plain (o x y)))
    (ha : ∀ d ∈ a.shape, 0 < d) (hb : ∀ d ∈ b.shape, 0 < d) (hrank : a.shape ≠ [] ∨ b.shape ≠ [])
    (truths truths' : List Nat) (g : Graph) :
    ((tensorWith f (numbers a) truths (ofNumbers b truths')).Fails g Fault.IsRefusal ↔
      Shape.Clash a.shape b.shape) ∧
    (¬ Shape.Clash a.shape b.shape → a.size ≤ a.values.length → b.size ≤ b.values.length →
      ∃ (c : Tensor Number) (kept : List Nat),
        tensorWith f (numbers a) truths (ofNumbers b truths') = pure (ofNumbers c kept) ∧
        c.shape = Shape.larger a.shape b.shape ∧
        ∀ is ∈ c.shape.places, ∃ x y, a.get (a.shape.origin is) = .ok x ∧
          b.get (b.shape.origin is) = .ok y ∧ c.get is = .ok (o x y)) ∧
    tensorWith f (numbers a) truths (ofNumbers b truths') =
      Fault.lift ((numbers a).widened (numbers b)) >>= fun r =>
        zipShared f r.2 [] >>= fun values =>
          rebuilt values r.1 (if r.1 = a.shape then truths else []) := by
  refine ⟨⟨fun hi => ?_, fun h => fails_of_clash h truths truths' g⟩, fun h hs hs' => ?_,
    tensorWith_eq_widened f a b truths truths'⟩
  · by_contra h
    exact not_fails_of_not_clash hf ha hb hrank h truths truths' g hi
  · have ho : a.Covered := ⟨ha, hs⟩
    have ho' : b.Covered := ⟨hb, hs'⟩
    have hc := Shape.broadcast_of_not_clash ha hb h
    obtain ⟨hl, hg, hp⟩ := Shape.expands_of_broadcast hc
    obtain ⟨surplus, hr⟩ := tensorWith_covered hf ho ho' hrank h truths truths'
    refine ⟨_, _, hr, rfl, fun is his => ⟨_, _, ho.get_eq (hl.origin_mem his),
      ho'.get_eq (hg.origin_mem his), ?_⟩⟩
    exact Tensor.get_tabulateWith (hp ha hb) his

def digits (x y : Number) : Number := .int (10 * x.whole?.getD 0 + y.whole?.getD 0)

def joined (x y : Datum) : Trace Datum :=
  pure (plain (digits (x.number?.getD (.int 0)) (y.number?.getD (.int 0))))

def digitColumn : Tensor Number := ⟨[2, 1], [.int 1, .int 2]⟩

/-- A row of three digits, and a fourth one without a place. -/
def digitRow : Tensor Number := ⟨[3], [.int 3, .int 4, .int 5, .int 6]⟩

/-- A column and a row make a rectangle, and rows of two and of three digits are refused. -/
theorem column_meets_row :
    (∃ (c : Tensor Number) (kept : List Nat),
      tensorWith joined (numbers digitColumn) [] (ofNumbers digitRow []) =
        pure (ofNumbers c kept) ∧
      c.shape = [2, 3] ∧ c.get [0, 2] = .ok (.int 15) ∧ c.get [1, 0] = .ok (.int 23)) ∧
    (tensorWith joined (numbers ⟨[2], [.int 1, .int 2]⟩) [] (ofNumbers digitRow [])).Fails .empty
      Fault.IsRefusal := by
  have hf : ¬ Shape.Clash digitColumn.shape digitRow.shape := by
    rintro ⟨_ | _ | k, d, e, hd, he, hi, ho, -⟩
    · cases hd
      exact ho rfl
    · cases he
    · cases he
  have hc : Shape.Clash [2] digitRow.shape :=
    ⟨0, 2, 3, rfl, rfl, by decide, by decide, by decide⟩
  obtain ⟨c, kept, hr, hs, hg⟩ := (tensorWith_broadcasts (a := digitColumn)
    (b := digitRow) (f := joined) (o := digits) (fun _ _ => rfl) (by decide) (by decide)
    (.inl (by decide)) [] [] .empty).2.1 hf (by decide) (by decide)
  refine ⟨⟨c, kept, hr, hs, ?_, ?_⟩, ?_⟩
  · obtain ⟨x, y, hx, hy, hxy⟩ := hg [0, 2] (by rw [hs]; decide)
    cases hx
    cases hy
    exact hxy
  · obtain ⟨x, y, hx, hy, hxy⟩ := hg [1, 0] (by rw [hs]; decide)
    cases hx
    cases hy
    exact hxy
  · exact (tensorWith_broadcasts (a := ⟨[2], [.int 1, .int 2]⟩) (b := digitRow) (f := joined)
      (o := digits) (fun _ _ => rfl) (by decide) (by decide) (.inl (by decide)) [] []
      .empty).1.2 hc

def shortColumn : Tensor Number := ⟨[2, 1], [.int 1]⟩

/-- Shapes that do not clash are not enough for a result: a place without an element is missed when
the column is repeated. -/
theorem shortColumn_without_result :
    ¬ Shape.Clash shortColumn.shape [1, 2] ∧
      (tensorWith joined (numbers shortColumn) [] (ofNumbers ⟨[1, 2], [.int 1, .int 2]⟩ [])).Fails
        .empty (· = .absentIndex) := by
  refine ⟨?_, .absentIndex, rfl, rfl⟩
  rintro ⟨_ | _ | k, d, e, hd, he, hi, ho, ho'⟩
  · cases hd
    exact ho rfl
  · cases he
    exact ho' rfl
  · cases hd

end Datum

end Patchwork
