import Patchwork.Proofs.Filter.Ranks

/-!
# Medians

A median of a list has at most half of the entries below it and at most half above it. In sorted
order these are the entries between the two middle ones, so a list that is not empty has a median,
and if its length is odd there is one only.

The filter counts for every component how many components are above it and below it, and keeps the
component if both counts are small enough. A later component may replace an earlier one, but only
by another median, so the last median of the vector is what comes out.
-/

namespace Patchwork

open List

open Word (Fits whole)

namespace Filter

variable {g : Graph} {known : Option (NodeId → Word)} {vs : List Int} {m v w : Int}

/-! ## Medians of integers -/

/-- A median of a list: an entry with at most half of the entries below it and at most half of
them above it. -/
structure IsMedian (vs : List Int) (m : Int) : Prop where
  mem : m ∈ vs
  below : vs.countP (· < m) ≤ vs.length / 2
  above : vs.countP (m < ·) ≤ vs.length / 2

/-- Low entries of a sorted list stand in front: an entry is low exactly if its place is less
than the number of low entries. -/
theorem lt_countP_iff {l : List Int} (hl : l.Pairwise (· ≤ ·)) {p : Int → Bool}
    (ho : ∀ a b, a ≤ b → p b → p a) (k : Nat) : k < l.countP p ↔ ∃ h : k < l.length, p l[k] := by
  induction l generalizing k with
  | nil => simp
  | cons a l ih =>
    obtain ⟨ha, hl⟩ := pairwise_cons.1 hl
    by_cases hlow_a : p a
    · rw [countP_cons_of_pos hlow_a]
      cases k with
      | zero => simp [hlow_a]
      | succ k => simpa using ih hl k
    · -- Nothing is low after an entry that is not.
      have hn : ∀ b ∈ a :: l, ¬ p b := by
        intro b hb
        obtain rfl | hb := mem_cons.1 hb
        · exact hlow_a
        · exact fun hlow_b => hlow_a (ho a b (ha b hb) hlow_b)
      rw [countP_eq_zero.2 hn]
      simp only [Nat.not_lt_zero, false_iff, not_exists]
      exact fun hk => hn _ (getElem_mem hk)

theorem countP_above (vs : List Int) (m : Int) :
    vs.countP (m < ·) + vs.countP (· ≤ m) = vs.length := by
  rw [length_eq_countP_add_countP (p := (m < ·)) (l := vs)]
  simp only [Int.not_lt, decide_eq_true_eq]

/-- The medians are the entries between the two middle ones in sorted order. -/
theorem isMedian_iff (hn : vs ≠ []) :
    IsMedian vs m ↔ m ∈ vs ∧ ∃ (hl : (vs.length - 1) / 2 < vs.mergeSort.length)
      (hh : vs.length / 2 < vs.mergeSort.length),
      vs.mergeSort[(vs.length - 1) / 2] ≤ m ∧ m ≤ vs.mergeSort[vs.length / 2] := by
  have hlen : vs.mergeSort.length = vs.length := length_mergeSort vs
  have hs : vs.mergeSort.Pairwise (· ≤ ·) := pairwise_mergeSort' (· ≤ ·) vs
  have ho := length_pos_iff.2 hn
  have hl : (vs.length - 1) / 2 < vs.mergeSort.length := by omega
  have hh : vs.length / 2 < vs.mergeSort.length := by omega
  have hp := mergeSort_perm vs (· ≤ ·)
  have hb := lt_countP_iff hs (p := (· < m))
    (by simpa using fun a b => Int.lt_of_le_of_lt) (vs.length / 2)
  have hu := lt_countP_iff hs (p := (· ≤ m))
    (by simpa using fun a b => Int.le_trans) ((vs.length - 1) / 2)
  have hspl := countP_above vs m
  rw [hp.countP_eq] at hb hu
  simp only [hh, hl, exists_true_left, decide_eq_true_eq] at hb hu
  constructor
  · rintro ⟨hm, hc, hc'⟩
    exact ⟨hm, hl, hh, hu.1 (by omega), by omega⟩
  · rintro ⟨hm, _, _, he, he'⟩
    have hc := hu.2 he
    exact ⟨hm, by omega, by omega⟩

/-- A list that is not empty has a median, the upper one of the two middle entries. -/
theorem exists_isMedian (hn : vs ≠ []) : ∃ m, IsMedian vs m := by
  have hl : vs.mergeSort.length = vs.length := length_mergeSort vs
  have hp := length_pos_iff.2 hn
  have hh : vs.length / 2 < vs.mergeSort.length := by omega
  refine ⟨vs.mergeSort[vs.length / 2], (isMedian_iff hn).2 ⟨?_, by omega, hh, ?_, le_rfl⟩⟩
  · exact (mergeSort_perm vs _).mem_iff.1 (getElem_mem hh)
  · exact sortedLE_mergeSort.getElem_le_getElem_of_le (by omega)

/-- Of an odd number of entries there is one median, the middle one in sorted order. -/
theorem IsMedian.eq_middle (h : IsMedian vs m) (ho : vs.length % 2 = 1) :
    vs.mergeSort[vs.length / 2]? = some m := by
  obtain ⟨_, hw, hh, hl, hl'⟩ := (isMedian_iff (ne_nil_of_mem h.mem)).1 h
  have hs : (vs.length - 1) / 2 = vs.length / 2 := by omega
  simp only [hs] at hl
  rw [getElem?_eq_getElem hh, Int.le_antisymm hl hl']

/-! ## Choosing -/

theorem Stands.fits {i : Int} {d : Datum} (h : Stands known g i d) (hk : known.isSome) :
    Fits i := by
  obtain ⟨s, rfl, hs⟩ := h
  cases s with
  | plain n => exact hs.2 hk
  | traced w =>
    obtain ⟨given, rfl, hw⟩ := hs
    exact hw.fits

/-- A product with a truth value keeps a number or makes it zero. -/
theorem gives_masked {c x : Datum} (p : Prop) [Decidable p]
    (hc : Stands known g (if p then 1 else 0) c) (hx : Stands known g v x) :
    (Datum.binary .mul c x).Gives g fun d g' => Stands known g' (if p then v else 0) d := by
  have hv : Integer.Binary.mul.value (if p then 1 else 0) v = if p then v else 0 := by
    by_cases hp : p <;> simp [Integer.Binary.value, hp]
  have hd := gives_function .mul trivial (fun hk => ?_) hc hx
  · rwa [hv] at hd
  · rw [hv]
    split
    · exact hx.fits hk
    · decide

/-- A choice by a truth value, traced or not: one of two products is zero. -/
theorem gives_select {c x y : Datum} (p : Prop) [Decidable p]
    (hc : Stands known g (if p then 1 else 0) c) (hx : Stands known g v x)
    (hy : Stands known g w y) :
    Trace.Gives (Arithmetic.select c x y) g fun d g' => Stands known g' (if p then v else w) d := by
  have h0 : ∀ g, Stands known g 0 (Arithmetic.int Trace 0) := fun _ =>
    ⟨.int 0, rfl, rfl, fun _ => by decide⟩
  have hs : Integer.Binary.ne.value (if p then 1 else 0) 0 = if p then 1 else 0 := by
    by_cases hp : p <;> simp [Integer.Binary.value, hp]
  have hn : Integer.Binary.eq.value (if p then 1 else 0) 0 = if ¬ p then 1 else 0 := by
    by_cases hp : p <;> simp [Integer.Binary.value, hp]
  have hu : Integer.Binary.add.value (if p then v else 0) (if ¬ p then w else 0) =
      if p then v else w := by
    by_cases hp : p <;> simp [Integer.Binary.value, hp]
  rw [Arithmetic.select]
  refine (gives_function .ne trivial (fun _ => Word.fits_truth _) hc (h0 g)).bind ?_
  intro yes g₁ he₁ hs'
  rw [hs] at hs'
  refine (gives_masked p hs' (hx.mono he₁)).bind ?_
  intro first g₂ he₂ hf
  have he := he₁.trans he₂
  refine (gives_function .eq trivial (fun _ => Word.fits_truth _) (hc.mono he) (h0 g₂)).bind ?_
  intro no g₃ he₃ hn'
  rw [hn] at hn'
  refine (gives_masked (¬ p) hn' (hy.mono (he.trans he₃))).bind ?_
  intro second g₄ he₄ hd
  have hh := gives_function .add trivial (fun hk => ?_) (hf.mono (he₃.trans he₄)) hd
  · rwa [hu] at hh
  · rw [hu]
    split
    · exact hx.fits hk
    · exact hy.fits hk

/-! ## The filter -/

instance (vs : List Int) (m : Int) : Decidable (IsMedian vs m) :=
  decidable_of_iff (m ∈ vs ∧ vs.countP (· < m) ≤ vs.length / 2 ∧ vs.countP (m < ·) ≤ vs.length / 2)
    ⟨fun h => ⟨h.1, h.2.1, h.2.2⟩, fun h => ⟨h.mem, h.below, h.above⟩⟩

theorem gives_countAbove {x : Datum} {ds : List Datum} (hx : Stands known g v x)
    (h : Forall₂ (Stands known g) vs ds) (hc : known.isSome → vs.countP (v < ·) < 2 ^ 31) :
    Trace.Gives (countWhere .lt x ds) g fun d g' => Stands known g' (vs.countP (v < ·)) d :=
  gives_countWhere (v < ·)
    (fun _ _ _ he hd => gives_function .lt trivial (fun _ => Word.fits_truth _) (hx.mono he) hd)
    h hc

/-- One step of the filter keeps a component if it is a median, and else what was found
before. -/
theorem gives_middleOr {x found : Datum} {ds : List Datum} (hv : v ∈ vs) (hx : Stands known g v x)
    (hn : Stands known g w found) (h : Forall₂ (Stands known g) vs ds)
    (hl : known.isSome → vs.length ≤ 2 ^ 31) :
    Trace.Gives (middleOr ds found x) g fun d g' =>
      Stands known g' (if IsMedian vs v then v else w) d := by
  have hw := rank_lt_length hv
  have ha : vs.countP (v < ·) < vs.length := countP_lt_length_iff.2 ⟨v, hv, by simp⟩
  have hh : ∀ g, Stands known g (vs.length / 2 + 1 : Nat)
      (Arithmetic.int Trace (ds.length / 2 + 1 : Nat)) := by
    intro g
    refine ⟨.int _, rfl, by rw [h.length_eq]; rfl, fun hk => ?_⟩
    have := hl hk
    exact ⟨by omega, by omega⟩
  have hb : Integer.Binary.bitAnd.value
      (Integer.Binary.lt.value (vs.countP (v < ·)) (vs.length / 2 + 1 : Nat))
      (Integer.Binary.lt.value (rank vs v) (vs.length / 2 + 1 : Nat)) =
        if IsMedian vs v then 1 else 0 := by
    have hmed : IsMedian vs v ↔
        vs.countP (v < ·) < vs.length / 2 + 1 ∧ rank vs v < vs.length / 2 + 1 := by
      rw [Nat.lt_succ_iff, Nat.lt_succ_iff]
      exact ⟨fun h => ⟨h.above, h.below⟩, fun h => ⟨hv, h.2, h.1⟩⟩
    simp only [Integer.Binary.value, Int.ofNat_lt, hmed]
    by_cases hu : vs.countP (v < ·) < vs.length / 2 + 1 <;>
      by_cases ho : rank vs v < vs.length / 2 + 1 <;> simp only [hu, ho] <;> rfl
  rw [middleOr]
  refine (gives_countAbove hx h ?_).bind ?_
  · intro hk
    have := hl hk
    omega
  intro above g₁ he₁ hc₁
  refine (gives_count hv (hx.mono he₁) (h.imp fun _ _ hd => hd.mono he₁) hl).bind ?_
  intro below g₂ he₂ hc₂
  refine (gives_function .lt trivial (fun _ => Word.fits_truth _) (hc₁.mono he₂) (hh g₂)).bind ?_
  intro fewAbove g₃ he₃ hf₃
  refine (gives_function .lt trivial (fun _ => Word.fits_truth _) (hc₂.mono he₃) (hh g₃)).bind ?_
  intro fewBelow g₄ he₄ hf₄
  refine (gives_function .bitAnd trivial (fun _ => hb ▸ Word.fits_truth _) (hf₃.mono he₄)
    hf₄).bind ?_
  intro middle g₅ he₅ hm
  rw [hb] at hm
  have he := he₁.trans (he₂.trans (he₃.trans (he₄.trans he₅)))
  have hcho := gives_select _ hm (hx.mono he) (hn.mono he)
  obtain ⟨s, rfl, -⟩ := hx
  obtain ⟨t, rfl, -⟩ := hn
  exact hcho

/-- All steps of the filter keep the last median among the components that they have seen. -/
theorem gives_foldlM {found : Datum} {ds ds' : List Datum} {vs' : List Int} (hs : vs' ⊆ vs)
    (hds : Forall₂ (Stands known g) vs' ds') (hf : Stands known g w found)
    (h : Forall₂ (Stands known g) vs ds) (hl : known.isSome → vs.length ≤ 2 ^ 31) :
    Trace.Gives (ds'.foldlM (middleOr ds) found) g fun d g' =>
      Stands known g' (vs'.foldl (fun w v => if IsMedian vs v then v else w) w) d := by
  induction vs' generalizing g w found ds' with
  | nil =>
    cases hds
    exact .pure hf
  | cons v vs' ih =>
    obtain _ | ⟨hd, hr⟩ := hds
    obtain ⟨hv, hs⟩ := cons_subset.1 hs
    rw [foldlM_cons, foldl_cons]
    refine (gives_middleOr hv hd hf h hl).bind fun found' g₁ he hf' => ?_
    exact ih hs (hr.imp fun _ _ hd => hd.mono he) hf' (h.imp fun _ _ hd => hd.mono he)

/-- A later component replaces an earlier one only if it is a median as well. -/
theorem isMedian_foldl {vs' : List Int} (h : IsMedian vs w ∨ ∃ v ∈ vs', IsMedian vs v) :
    IsMedian vs (vs'.foldl (fun w v => if IsMedian vs v then v else w) w) := by
  induction vs' generalizing w with
  | nil => simpa using h
  | cons v vs' ih =>
    refine ih ?_
    by_cases hv : IsMedian vs v
    · simp [hv]
    · simpa [hv] using h

/-- **The filter returns a median.** Let the components of a vector that is not empty stand for
integers, plain or traced; of traced ones there must not be more than a word can count. Then the
result stands for one of them, which has at most half of them below it and at most half above it.
If their number is odd, it is the middle one in sorted order. -/
theorem median_gives_median {ds : List Datum} (hne : vs ≠ [])
    (h : List.Forall₂ (Stands known g) vs ds) (hlength : known.isSome → vs.length ≤ 2 ^ 31) :
    (Routine.median.call ⟨[.vector ds], []⟩).Gives g fun d g' =>
      ∃ m, Stands known g' m d ∧ m ∈ vs ∧ vs.countP (· < m) ≤ vs.length / 2 ∧
        vs.countP (m < ·) ≤ vs.length / 2 ∧
        (vs.length % 2 = 1 → vs.mergeSort[vs.length / 2]? = some m) := by
  obtain ⟨v, vs', rfl⟩ := List.exists_cons_of_ne_nil hne
  obtain _ | ⟨hd, he⟩ := id h
  refine (gives_foldlM (List.Subset.refl _) h hd h hlength).imp ?_
  intro d g' _ hr
  obtain ⟨u, hu⟩ := exists_isMedian hne
  have hm := isMedian_foldl (w := v) (.inr ⟨u, hu.mem, hu⟩)
  exact ⟨_, hr, hm.mem, hm.below, hm.above, hm.eq_middle⟩

/-- The median of 30, 10 and 10, of which two are traced, is 10. -/
theorem thirtyTenTen_median :
    (Routine.median.call ⟨[.vector [.traced ⟨⟨.int, 0⟩, .int⟩, .traced ⟨⟨.int, 1⟩, .int⟩, .int 10]],
      []⟩).Gives thirtyAndTen
      fun d g' => Stands (some fun k => whole (if k = 0 then 30 else 10)) g' 10 d := by
  have hc : List.Forall₂
      (Stands (some fun k => whole (if k = 0 then 30 else 10)) thirtyAndTen) [30, 10, 10]
      [.traced ⟨⟨.int, 0⟩, .int⟩, .traced ⟨⟨.int, 1⟩, .int⟩, .int 10] := by
    refine .cons ⟨_, rfl, _, rfl, ?_⟩ (.cons ⟨_, rfl, _, rfl, ?_⟩ (.cons ?_ .nil))
    · exact Value.holds_constant (n := 30) rfl rfl (by decide)
    · exact Value.holds_constant (n := 10) rfl rfl (by decide)
    · exact ⟨_, rfl, rfl, fun _ => by decide⟩
  refine (median_gives_median (by simp) hc fun _ => by decide).imp ?_
  rintro d g' - ⟨m, hm, he, hb, -⟩
  obtain rfl | rfl : m = 30 ∨ m = 10 := by simpa using he
  · exact absurd hb (by decide)
  · exact hm

end Filter

end Patchwork
