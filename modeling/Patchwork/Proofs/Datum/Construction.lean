import Patchwork.Datum.Functions
import Patchwork.Proofs.Datum.Nesting
import Patchwork.Proofs.Graph.Growth
import Patchwork.Proofs.Tensor.Compatible

/-!
# Tensors from nested lists

A nesting of lists and tuples of numbers is rectangular if the items of every list have one shape,
and an empty list has the shape of one dimension without extent. A nesting that is not rectangular
is ragged: somewhere in it two items of one list have different shapes. A tensor is made from every
nesting that is not ragged. Its shape is that of the nesting, and its elements are the numbers that
the indices lead to.
-/

namespace Patchwork

open List

namespace Datum

variable {d x : Datum} {s t : Shape} {xs : List Datum} {is : List Int}

def parts? : Datum → Option (List Datum)
  | list xs | tuple xs => some xs
  | _ => none

/-- A nesting of lists and tuples of numbers. -/
inductive Nested : Datum → Prop
  | scalar (n : Scalar) : Nested (.scalar n)
  | listed {d : Datum} {xs : List Datum} :
    d.parts? = some xs → (∀ x ∈ xs, Nested x) → Nested d

/-- A rectangular nesting and its shape. An empty list has one dimension without extent. -/
inductive Shaped : Shape → Datum → Prop
  | scalar (n : Scalar) : Shaped [] (.scalar n)
  | empty {d : Datum} : d.parts? = some [] → Shaped [0] d
  | listed {d : Datum} {xs : List Datum} {s : Shape} :
    d.parts? = some xs → xs ≠ [] → (∀ x ∈ xs, Shaped s x) → Shaped ((xs.length : Int) :: s) d

/-- A ragged nesting: somewhere in it two items of one list have different shapes. -/
inductive Ragged : Datum → Prop
  | siblings {d x y : Datum} {xs : List Datum} {s t : Shape} :
    d.parts? = some xs → x ∈ xs → y ∈ xs → Shaped s x → Shaped t y → s ≠ t → Ragged d
  | inside {d x : Datum} {xs : List Datum} : d.parts? = some xs → x ∈ xs → Ragged x → Ragged d

/-! ## Lists and tuples -/

section

variable (h : d.parts? = some xs)

include h

theorem eq_of_parts? : d = .list xs ∨ d = .tuple xs := by
  cases d with
  | list ys =>
    cases h
    exact .inl rfl
  | tuple ys =>
    cases h
    exact .inr rfl
  | _ => cases h

theorem items?_of_parts? : d.items? = some xs := by
  obtain rfl | rfl := eq_of_parts? h <;> rfl

theorem shapeOf_of_parts? : d.shapeOf = nestedShape xs := by
  obtain rfl | rfl := eq_of_parts? h <;> rfl

theorem leaves_of_parts? : d.leaves = xs.flatMap leaves := by
  rw [← leavesAll_eq_flatMap]
  obtain rfl | rfl := eq_of_parts? h <;> rfl

theorem depth_of_parts? : d.depth = depthAll xs + 1 := by
  obtain rfl | rfl := eq_of_parts? h <;> rfl

theorem tensorOf_of_parts? : d.tensorOf = (nestedShape xs >>= fun s => .ok ⟨s, d.leaves⟩) := by
  obtain rfl | rfl := eq_of_parts? h <;> rfl

theorem item_of_parts? (i : Int) : d.item (int i) = Fault.lift (Sequence.at xs i) := by
  obtain rfl | rfl := eq_of_parts? h <;> rfl

end

/-! ## The search for a shape -/

theorem haveShape_outcome
    (h : ∀ x ∈ xs, (∃ t, x.shapeOf = .ok t) ∨ x.shapeOf = .error (.rejected .ragged)) :
    (∀ x ∈ xs, x.shapeOf = .ok s) ∨ haveShape s xs = .error (.rejected .ragged) := by
  induction xs with
  | nil => exact .inl (forall_mem_nil _)
  | cons x xs ih =>
    obtain ⟨⟨t, hx⟩ | hx, hs⟩ := forall_mem_cons.1 h
    · rw [haveShape, hx]
      by_cases heq : t = s
      · simp only [bind, Except.bind, heq, if_true]
        exact (ih hs).imp_left fun ha => forall_mem_cons.2 ⟨heq ▸ hx, ha⟩
      · simp only [bind, Except.bind, heq, if_false]
        exact .inr rfl
    · rw [haveShape, hx]
      exact .inr rfl

/-- The search for the shape of a list: all items have one shape, or the list is refused. -/
theorem nestedShape_outcome
    (h : ∀ x ∈ xs, (∃ t, x.shapeOf = .ok t) ∨ x.shapeOf = .error (.rejected .ragged)) :
    (∃ s, ∀ x ∈ xs, x.shapeOf = .ok s) ∨ nestedShape xs = .error (.rejected .ragged) := by
  obtain _ | ⟨x, xs⟩ := xs
  · exact .inl ⟨[], forall_mem_nil _⟩
  · obtain ⟨⟨s, hx⟩ | hx, hs⟩ := forall_mem_cons.1 h
    · obtain ha | hr := haveShape_outcome (s := s) hs
      · exact .inl ⟨s, forall_mem_cons.2 ⟨hx, ha⟩⟩
      · refine .inr ?_
        rw [nestedShape, hx]
        simp only [bind, Except.bind, hr]
    · rw [nestedShape, hx]
      exact .inr rfl

theorem Shaped.shapeOf_eq (h : d.Shaped s) : d.shapeOf = .ok s := by
  induction h with
  | scalar n => rfl
  | empty hp => rw [shapeOf_of_parts? hp, nestedShape]
  | listed hp hn _ ih => rw [shapeOf_of_parts? hp, nestedShape_ok hn ih]

theorem Shaped.unique (h : d.Shaped s) (h' : d.Shaped t) : s = t :=
  Except.ok.inj (h.shapeOf_eq.symm.trans h'.shapeOf_eq)

/-- The search for the shape of a nesting: it is rectangular, or it is refused. -/
theorem Nested.outcome (h : d.Nested) :
    (∃ s, d.Shaped s) ∨ d.shapeOf = .error (.rejected .ragged) := by
  induction h with
  | scalar n => exact .inl ⟨[], .scalar n⟩
  | @listed d xs hp _ ih =>
    have hits : ∀ x ∈ xs, (∃ t, x.shapeOf = .ok t) ∨ x.shapeOf = .error (.rejected .ragged) := by
      intro x hx
      refine (ih x hx).imp_left ?_
      rintro ⟨t, ht⟩
      exact ⟨t, ht.shapeOf_eq⟩
    rw [shapeOf_of_parts? hp]
    refine (nestedShape_outcome hits).imp_left ?_
    rintro ⟨s, hs⟩
    obtain rfl | hn := eq_or_ne xs []
    · exact ⟨[0], .empty hp⟩
    · refine ⟨(xs.length : Int) :: s, .listed hp hn fun x hx => ?_⟩
      obtain ⟨t, ht⟩ | hr := ih x hx
      · cases ht.shapeOf_eq.symm.trans (hs x hx)
        exact ht
      · cases hr.symm.trans (hs x hx)

theorem Nested.shaped (h : d.Nested) (hs : d.shapeOf = .ok s) : d.Shaped s := by
  obtain ⟨t, ht⟩ | hr := h.outcome
  · cases ht.shapeOf_eq.symm.trans hs
    exact ht
  · cases hr.symm.trans hs

/-! ## Rectangular and ragged -/

theorem Shaped.exists_items (h : d.Shaped t) (hp : d.parts? = some xs) :
    ∃ s, ∀ x ∈ xs, x.Shaped s := by
  cases h with
  | scalar n => cases hp
  | empty he =>
    cases he.symm.trans hp
    exact ⟨[], forall_mem_nil _⟩
  | @listed _ _ s hl _ hx =>
    cases hl.symm.trans hp
    exact ⟨s, hx⟩

theorem Ragged.not_shaped (h : d.Ragged) : ¬ d.Shaped s := by
  intro hh
  induction h generalizing s with
  | siblings hp hx hy hs ht hd =>
    obtain ⟨u, hxs⟩ := hh.exists_items hp
    exact hd ((hs.unique (hxs _ hx)).trans ((hxs _ hy).unique ht))
  | inside hp hx _ ih =>
    obtain ⟨u, hxs⟩ := hh.exists_items hp
    exact ih (hxs _ hx)

/-- A nesting is rectangular or ragged. -/
theorem Nested.shaped_or_ragged (h : d.Nested) : (∃ s, d.Shaped s) ∨ d.Ragged := by
  by_cases hr : d.Ragged
  · exact .inr hr
  refine .inl ?_
  induction h with
  | scalar n => exact ⟨[], .scalar n⟩
  | @listed d xs hp _ ih =>
    have hs : ∀ x ∈ xs, ∃ s, x.Shaped s := fun x hx =>
      ih x hx fun hi => hr (.inside hp hx hi)
    obtain _ | ⟨x, xs⟩ := xs
    · exact ⟨[0], .empty hp⟩
    · -- the first item fixes the shape, and another one would make the list ragged
      obtain ⟨s, hx⟩ := hs x mem_cons_self
      refine ⟨((x :: xs).length : Int) :: s, .listed hp (cons_ne_nil x xs) fun y hy => ?_⟩
      obtain ⟨t, ht⟩ := hs y hy
      by_cases heq : s = t
      · exact heq ▸ ht
      · exact absurd (.siblings hp mem_cons_self hy hx ht heq) hr

/-- The search for a shape refuses exactly the ragged nestings. -/
theorem Nested.shapeOf_eq_error_iff (h : d.Nested) :
    d.shapeOf = .error (.rejected .ragged) ↔ d.Ragged := by
  constructor
  · intro he
    refine h.shaped_or_ragged.resolve_left ?_
    rintro ⟨s, hs⟩
    cases he.symm.trans hs.shapeOf_eq
  · intro hr
    refine h.outcome.resolve_left ?_
    rintro ⟨s, hs⟩
    exact hr.not_shaped hs

/-! ## Rectangular nestings -/

theorem depthAll_eq {n : Nat} (hn : xs ≠ []) (h : ∀ x ∈ xs, x.depth = n) : depthAll xs = n := by
  induction xs with
  | nil => exact absurd rfl hn
  | cons x xs ih =>
    obtain ⟨hx, hs⟩ := forall_mem_cons.1 h
    obtain rfl | hr := eq_or_ne xs []
    · rw [depthAll, hx, depthAll, Nat.max_zero]
    · rw [depthAll, hx, ih hr hs, Nat.max_self]

theorem Shaped.length_eq (h : d.Shaped s) : s.length = d.depth := by
  induction h with
  | scalar n => rfl
  | empty hp =>
    rw [depth_of_parts? hp]
    rfl
  | listed hp hn _ ih =>
    rw [depth_of_parts? hp, depthAll_eq hn fun x hx => (ih x hx).symm, length_cons]

theorem Shaped.leaves_eq (h : d.Shaped s) : d.leaves = s.places.map d.entryAt := by
  induction h with
  | scalar n => rfl
  | empty hp =>
    rw [leaves_of_parts? hp]
    rfl
  | listed hp _ _ ih =>
    rw [leaves_of_parts? hp, flatMap_leaves (items?_of_parts? hp) ih]

/-- There are as many numbers inside as the shape has room for. -/
theorem Shaped.length_leaves (h : d.Shaped s) : (d.leaves.length : Int) = s.size := by
  induction h with
  | scalar n => rfl
  | empty hp =>
    rw [leaves_of_parts? hp]
    rfl
  | @listed d xs s hp hn hs ih =>
    obtain ⟨x, hx⟩ := exists_mem_of_ne_nil xs hn
    have hl : ∀ y ∈ xs, y.leaves.length = s.size.toNat := by
      intro y hy
      have hy := ih y hy
      omega
    have hz := ih x hx
    rw [leaves_of_parts? hp, length_flatMap, map_congr_left hl,
      map_const', sum_replicate, Shape.size_cons, smul_eq_mul, Nat.cast_mul,
      Int.toNat_of_nonneg (by omega)]

/-- Indices lead to a number, one list after the other. -/
theorem Shaped.foldlM_item (h : d.Shaped s) (his : is ∈ s.places) :
    ∃ n, d.entryAt is = .scalar n ∧
      is.foldlM (fun d i => item d (int i)) d = (pure (.scalar n) : Trace Datum) := by
  induction h generalizing is with
  | scalar n =>
    cases Shape.mem_places.1 his
    exact ⟨n, rfl, rfl⟩
  | empty hp =>
    obtain ⟨i, is, hi, -, rfl⟩ := forall₂_cons_left_iff.1 (Shape.mem_places.1 his)
    omega
  | @listed d xs s hp _ _ ih =>
    obtain ⟨i, is, hi, hr, rfl⟩ := forall₂_cons_left_iff.1 (Shape.mem_places.1 his)
    obtain ⟨k, rfl⟩ := Int.eq_ofNat_of_zero_le hi.1
    have hk : k < xs.length := by omega
    obtain ⟨n, he, hw⟩ := ih _ (getElem_mem hk) (Shape.mem_places.2 hr)
    refine ⟨n, ?_, ?_⟩
    · rw [entryAt_cons (items?_of_parts? hp), Int.toNat_natCast, getD_eq_getElem _ _ hk]
      exact he
    · have hit : d.item (int k) = pure xs[k] := by
        rw [item_of_parts? hp, Sequence.at_natCast (getElem?_eq_getElem hk)]
        rfl
      rw [foldlM_cons, hit, pure_bind]
      exact hw

/-- The tensor of a rectangular nesting has its shape and its numbers. -/
theorem Shaped.tensorOf_eq (h : d.Shaped s) : d.tensorOf = .ok (.tabulate s d.entryAt) := by
  have hs := h.shapeOf_eq
  have hv := h.leaves_eq
  have hl : ∀ xs, d.parts? = some xs → d.tensorOf = .ok (.tabulate s d.entryAt) := by
    intro xs hp
    rw [shapeOf_of_parts? hp] at hs
    rw [tensorOf_of_parts? hp, hs, hv]
    rfl
  cases h with
  | scalar n => rfl
  | empty hp => exact hl _ hp
  | listed hp => exact hl _ hp

/-! ## Making tensors -/

theorem makeTensor_absent (d : Datum) :
    makeTensor d .absent = Fault.lift d.tensorOf >>= fun t => pure (ofTensor t) := rfl

theorem Ragged.fails (h : d.Nested) (hr : d.Ragged) (g : Graph) :
    (makeTensor d .absent).Fails g Fault.IsRefusal := by
  have hs := h.shapeOf_eq_error_iff.2 hr
  obtain ⟨xs, hp⟩ : ∃ xs, d.parts? = some xs := by
    cases hr with
    | siblings hp => exact ⟨_, hp⟩
    | inside hp => exact ⟨_, hp⟩
  rw [shapeOf_of_parts? hp] at hs
  rw [makeTensor_absent, tensorOf_of_parts? hp, hs]
  exact ⟨_, rfl, trivial⟩

theorem Shaped.makeTensor_eq (h : d.Shaped s) :
    makeTensor d .absent = pure (ofTensor (.tabulate s d.entryAt)) := by
  rw [makeTensor_absent, h.tensorOf_eq]
  rfl

/-- **A tensor is made from exactly the rectangular nestings.** A nesting is refused exactly if it
is ragged. Otherwise the tensor has the shape of the nesting, with as many dimensions as levels and
as many elements as places, and its element at a place is the number that the indices lead to. -/
theorem makeTensor_rectangular (h : x.Nested) (g : Graph) :
    ((makeTensor x .absent).Fails g Fault.IsRefusal ↔ x.Ragged) ∧
    (¬ x.Ragged → ∃ t : Tensor Datum, makeTensor x .absent = pure (ofTensor t) ∧
      x.Shaped t.shape ∧ t.rank = x.depth ∧ (t.values.length : Int) = t.size ∧
      ∀ is ∈ t.shape.places, ∃ n, t.get is = .ok (.scalar n) ∧
        is.foldlM (fun d i => item d (int i)) x = (pure (.scalar n) : Trace Datum)) := by
  refine ⟨⟨fun hf => ?_, fun hr => hr.fails h g⟩, fun hr => ?_⟩
  · refine h.shaped_or_ragged.resolve_left ?_
    rintro ⟨s, hs⟩
    obtain ⟨e, hu, -⟩ := hf
    rw [hs.makeTensor_eq] at hu
    cases hu
  · obtain ⟨s, hs⟩ := h.shaped_or_ragged.resolve_right hr
    refine ⟨.tabulate s x.entryAt, hs.makeTensor_eq, hs, hs.length_eq, ?_, fun is his => ?_⟩
    · rw [Tensor.tabulate, ← hs.leaves_eq]
      exact hs.length_leaves
    · obtain ⟨n, he, hw⟩ := hs.foldlM_item his
      refine ⟨n, ?_, hw⟩
      rw [← he]
      exact Tensor.get_tabulate (Shape.positive_of_mem_places his) his

def mixedRows : Datum := .list [.list [int 1, int 2], .tuple [int 3, int 4]]

def unevenRows : Datum := .tuple [.list [], .list [int 1]]

/-- A tensor is made from rows of one length, and rows of different lengths are refused. -/
theorem rows_of_one_length :
    (∃ t : Tensor Datum, makeTensor mixedRows .absent = pure (ofTensor t) ∧
      t.shape = [2, 2] ∧ t.rank = 2 ∧ t.get [1, 0] = .ok (int 3)) ∧
    (makeTensor unevenRows .absent).Fails .empty Fault.IsRefusal := by
  have hm : mixedRows.Nested :=
    .listed rfl (List.forall_mem_cons.2 ⟨.listed rfl (by simp [int, Nested.scalar]),
      List.forall_mem_singleton.2 (.listed rfl (by simp [int, Nested.scalar]))⟩)
  have ho : (Datum.list [int 1]).Nested := .listed rfl (by simp [int, Nested.scalar])
  have hu : unevenRows.Nested :=
    .listed rfl (List.forall_mem_cons.2 ⟨.listed rfl (List.forall_mem_nil _),
      List.forall_mem_singleton.2 ho⟩)
  have hs : mixedRows.Shaped [2, 2] := hm.shaped rfl
  have hone : (Datum.list [int 1]).Shaped [1] := ho.shaped rfl
  have hr : unevenRows.Ragged := .siblings rfl List.mem_cons_self
    (List.mem_cons_of_mem _ List.mem_cons_self) (.empty rfl) hone (by decide)
  refine ⟨?_, (makeTensor_rectangular hu .empty).1.2 hr⟩
  obtain ⟨t, ha, hh, hk, -, hg⟩ :=
    (makeTensor_rectangular hm .empty).2 fun h => h.not_shaped hs
  have he := hh.unique hs
  obtain ⟨n, hn, hw⟩ := hg [1, 0] (by rw [he]; decide)
  refine ⟨t, ha, he, hk, hn.trans ?_⟩
  cases congrFun hw .empty
  rfl

end Datum

end Patchwork
