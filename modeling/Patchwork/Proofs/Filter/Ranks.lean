import Patchwork.Proofs.Integer.Terms

/-!
# Ranks and sorting

The rank of a component of a vector is the number of components below it. Ranks are counted by
comparisons, so traced vectors have them as well. They are in the order of the components, and
hence their own ranks: counting a second time changes nothing, and what comes out is the place
that each component has in sorted order. For distinct components that is a permutation, of which
the inverse sorts the vector. The permutation itself does so only if it is its own inverse.
-/

namespace Patchwork

open List

variable {ds : List Datum}

open Word (Fits whole)

variable {g g' : Graph} {known : Option (NodeId → Word)} {given : NodeId → Word} {i j : Int}
  {s t : Scalar} {d : Datum}

/-! ## Scalars that stand for integers of any size -/

/-- A scalar stands for an integer. Without words for the named constants only a plain number
does, and its size does not matter; else the machine computes with it, and it must fit. -/
def Scalar.Stands (known : Option (NodeId → Word)) (g : Graph) (i : Int) : Scalar → Prop
  | .plain n => n.whole? = some i ∧ (known.isSome → Fits i)
  | .traced w => ∃ given, known = some given ∧ w.Holds given g i

theorem Scalar.Holds.stands (h : s.Holds known g i) : s.Stands known g i := by
  cases s with
  | plain n => exact ⟨h.1, fun _ => h.2⟩
  | traced w => exact h

theorem Scalar.Stands.holds (h : s.Stands (some given) g i) : s.Holds (some given) g i := by
  cases s with
  | plain n => exact ⟨h.1, h.2 rfl⟩
  | traced w => exact h

theorem Scalar.Stands.mono (h : s.Stands known g i) (he : g.Extends g') : s.Stands known g' i := by
  cases s with
  | plain n => exact h
  | traced w =>
    obtain ⟨given, rfl, hw⟩ := h
    exact ⟨given, rfl, hw.mono he⟩

theorem Scalar.Stands.exists_plain (h : s.Stands none g i) :
    ∃ n, s = .plain n ∧ n.whole? = some i := by
  cases s with
  | plain n => exact ⟨n, rfl, h.1⟩
  | traced w =>
    obtain ⟨_, hn, _⟩ := h
    cases hn

namespace Filter

def Stands (known : Option (NodeId → Word)) (g : Graph) (i : Int) (d : Datum) : Prop :=
  ∃ s, d = .scalar s ∧ s.Stands known g i

theorem Stands.mono (h : Stands known g i d) (he : g.Extends g') : Stands known g' i d := by
  obtain ⟨s, rfl, hs⟩ := h
  exact ⟨s, rfl, hs.mono he⟩

theorem stands_of_holds (h : Integer.Holds known g i d) : Stands known g i d := by
  obtain ⟨s, rfl, hs⟩ := h
  exact ⟨s, rfl, hs.stands⟩

/-! ## Comparing and adding -/

/-- A function of two integers, traced or not. What fits matters only to the machine. -/
theorem gives_function (o : Integer.Binary) {x y : Datum} (hd : o.Defined i j)
    (hf : known.isSome → Fits (o.value i j)) (hx : Stands known g i x) (hy : Stands known g j y) :
    (o.routine.call ⟨[x, y], []⟩).Gives g fun d g' => Stands known g' (o.value i j) d := by
  obtain ⟨s, rfl, hs⟩ := hx
  obtain ⟨t, rfl, ht⟩ := hy
  cases known with
  | none =>
    obtain ⟨a, rfl, ha⟩ := hs.exists_plain
    obtain ⟨b, rfl, hb⟩ := ht.exists_plain
    obtain ⟨n, hn, hc⟩ := Integer.call_plain o hd ha hb
    change Trace.Gives (o.routine.call ⟨[.plain a, .plain b], []⟩) g _
    rw [hc]
    exact .pure ⟨_, rfl, hn, nofun⟩
  | some given =>
    exact (Integer.gives_binary o hd (hf rfl) hs.holds ht.holds).imp fun _ _ _ => stands_of_holds

/-- The sum of a list whose numbers are not negative: if it fits, so do the sums on the
way. -/
theorem gives_total {js : List Int} {sum : Datum}
    (h : Forall₂ (Stands known g) js ds) (hs : Stands known g i sum) (hi : 0 ≤ i)
    (hjs : ∀ j ∈ js, 0 ≤ j) (hf : known.isSome → i + js.sum < 2 ^ 31) :
    (ds.foldlM (Datum.binary .add) sum).Gives g fun d g' => Stands known g' (i + js.sum) d := by
  induction js generalizing g i sum ds with
  | nil =>
    cases h
    rw [sum_nil, Int.add_zero]
    exact .pure hs
  | cons j js ih =>
    obtain _ | ⟨hd, hr⟩ := h
    obtain ⟨hj, hjs⟩ := forall_mem_cons.1 hjs
    have hp : 0 ≤ js.sum := sum_nonneg hjs
    rw [sum_cons] at hf ⊢
    rw [foldlM_cons, ← Int.add_assoc]
    refine (gives_function .add trivial (fun hk => ?_) hs hd).bind fun sum' g₁ he hs' => ?_
    · have := hf hk
      exact ⟨show _ ≤ i + j by omega, show i + j < _ by omega⟩
    · exact ih (hr.imp fun _ _ h => h.mono he) hs' (by omega) hjs
        fun hk => by rw [Int.add_assoc]; exact hf hk

/-- A function on the components of a vector, one after another. -/
theorem gives_each {f : Datum → Trace Datum} {φ : Int → Int} {js : List Int}
    (hf : ∀ g' j d, g.Extends g' → j ∈ js → Stands known g' j d →
      (f d).Gives g' fun e g'' => Stands known g'' (φ j) e) (h : Forall₂ (Stands known g) js ds) :
    Trace.Gives (ds.mapM f) g fun es g' => Forall₂ (Stands known g') (js.map φ) es := by
  induction js generalizing g ds with
  | nil =>
    cases h
    exact .pure .nil
  | cons j js ih =>
    obtain _ | ⟨hd, hr⟩ := h
    rw [mapM_cons]
    refine (hf g j _ (.refl g) mem_cons_self hd).bind fun e g₁ hx he => ?_
    refine (ih (fun g' j d hx' hj => hf g' j d (hx.trans hx') (mem_cons_of_mem _ hj))
      (hr.imp fun _ _ h => h.mono hx)).bind fun es g₂ hx' hs => ?_
    exact .pure (.cons (he.mono hx') hs)

/-! ## Ranks -/

/-- The number of integers below a given one. -/
def rank (vs : List Int) (v : Int) : Nat := vs.countP (· < v)

variable {vs : List Int} {u v : Int}

theorem sum_eq_countP (p : Int → Prop) [DecidablePred p] (vs : List Int) :
    (vs.map fun u => if p u then (1 : Int) else 0).sum = vs.countP p := by
  induction vs with
  | nil => rfl
  | cons u vs ih =>
    rw [map_cons, sum_cons, ih, countP_cons]
    by_cases h : p u
    · simp [h, Int.add_comm]
    · simp [h]

theorem rank_lt_length (hv : v ∈ vs) : rank vs v < vs.length :=
  countP_lt_length_iff.2 ⟨v, hv, by simp⟩

theorem rank_lt_of_lt (hu : u ∈ vs) (hv : u < v) : rank vs u < rank vs v := by
  have hb : vs.filter (· < u) = (vs.filter (· < v)).filter (· < u) := by
    rw [filter_filter]
    refine filter_congr fun w _ => ?_
    by_cases hw : w < u
    · simp [hw, hw.trans hv]
    · simp [hw]
  rw [rank, rank, countP_eq_length_filter, countP_eq_length_filter, hb]
  exact length_filter_lt_length_iff_exists.2 ⟨u, by simp [hu, hv], by simp⟩

theorem rank_lt_iff (hu : u ∈ vs) (hv : v ∈ vs) : rank vs u < rank vs v ↔ u < v := by
  refine ⟨fun h => ?_, rank_lt_of_lt hu⟩
  by_contra hl
  obtain ht | rfl := Int.lt_or_eq_of_le (Int.not_lt.1 hl)
  · exact Nat.lt_asymm h (rank_lt_of_lt hv ht)
  · exact Nat.lt_irrefl _ h

theorem rank_rank (hv : v ∈ vs) :
    rank (vs.map fun u => (rank vs u : Int)) (rank vs v) = rank vs v := by
  rw [rank, countP_map]
  refine countP_congr fun u hu => ?_
  simp [rank_lt_iff hu hv]

/-- How many components compare so with a given one. -/
theorem gives_countWhere {o : Operator} {x : Datum} (p : Int → Prop) [DecidablePred p]
    (ho : ∀ g' u d, g.Extends g' → Stands known g' u d →
      (Datum.binary o x d).Gives g' fun e g'' => Stands known g'' (if p u then 1 else 0) e)
    (h : Forall₂ (Stands known g) vs ds) (hc : known.isSome → vs.countP p < 2 ^ 31) :
    Trace.Gives (countWhere o x ds) g fun d g' => Stands known g' (vs.countP p) d := by
  rw [countWhere]
  refine (gives_each (φ := fun u => if p u then 1 else 0)
    (fun g' u d he _ hd => ho g' u d he hd) h).bind fun es g₁ _ hs => ?_
  have h0 : Stands known g₁ 0 (Arithmetic.int Trace 0) := ⟨.int 0, rfl, rfl, fun _ => by decide⟩
  have ht := gives_total hs h0 (Int.le_refl 0) ?_ ?_
  · rwa [Int.zero_add, sum_eq_countP] at ht
  · intro j hj
    obtain ⟨u, -, rfl⟩ := mem_map.1 hj
    split <;> decide
  · intro hk
    have := hc hk
    rw [Int.zero_add, sum_eq_countP]
    omega

theorem gives_count {x : Datum} (hv : v ∈ vs) (hx : Stands known g v x)
    (h : Forall₂ (Stands known g) vs ds) (hl : known.isSome → vs.length ≤ 2 ^ 31) :
    Trace.Gives (countWhere .gt x ds) g fun d g' => Stands known g' (rank vs v) d :=
  gives_countWhere (· < v)
    (fun _ _ _ he hd => gives_function .gt trivial (fun _ => Word.fits_truth _) (hx.mono he) hd)
    h fun hk => Nat.lt_of_lt_of_le (rank_lt_length hv) (hl hk)

/-- Ranks are counted as those of integers, traced or not. -/
theorem gives_ranks (h : Forall₂ (Stands known g) vs ds) (hl : known.isSome → vs.length ≤ 2 ^ 31) :
    Trace.Gives (ranks ds) g fun es g' =>
      Forall₂ (Stands known g') (vs.map fun v => (rank vs v : Int)) es :=
  gives_each (φ := fun v => (rank vs v : Int)) (fun _ _ _ he hv hd =>
    gives_count hv hd (h.imp fun _ _ h => h.mono he) hl) h

/-- Counting a second time gives the ranks once more. -/
theorem gives_argsort (h : Forall₂ (Stands known g) vs ds)
    (hl : known.isSome → vs.length ≤ 2 ^ 31) :
    Trace.Gives (argsort ds) g fun es g' =>
      Forall₂ (Stands known g') (vs.map fun v => (rank vs v : Int)) es := by
  rw [argsort]
  refine (gives_ranks h hl).bind fun es g₁ _ he => ?_
  refine (gives_ranks he (by simpa using hl)).imp fun es' g₂ _ he' => ?_
  have ht : ((vs.map fun v => (rank vs v : Int)).map fun r =>
      (rank (vs.map fun v => (rank vs v : Int)) r : Int)) = vs.map fun v => (rank vs v : Int) := by
    rw [map_map]
    exact map_congr_left fun v hv => congrArg Nat.cast (rank_rank hv)
  rwa [ht] at he'

/-! ## Places -/

theorem rank_injective (h : vs.Nodup) :
    Function.Injective fun k : Fin vs.length =>
      (⟨rank vs (vs.get k), rank_lt_length (vs.get_mem k)⟩ : Fin vs.length) := by
  intro k l hk
  have hr : rank vs (vs.get k) = rank vs (vs.get l) := congrArg Fin.val hk
  have hk' := rank_lt_iff (vs.get_mem k) (vs.get_mem l)
  have hl := rank_lt_iff (vs.get_mem l) (vs.get_mem k)
  exact h.injective_get (by omega)

/-- The places of distinct integers in sorted order. -/
noncomputable def placement (vs : List Int) (h : vs.Nodup) : Equiv.Perm (Fin vs.length) :=
  Equiv.ofBijective _ (Finite.injective_iff_bijective.1 (rank_injective h))

theorem placement_apply (h : vs.Nodup) (k : Fin vs.length) :
    (placement vs h k : Nat) = rank vs (vs.get k) := rfl

theorem map_rank_eq (h : vs.Nodup) :
    (vs.map fun v => (rank vs v : Int)) = ofFn fun k => ((placement vs h k : Nat) : Int) := by
  refine ext_getElem (by simp) fun k hk hk' => ?_
  simp [placement_apply]

/-- The inverse of the placement sorts: it says what stands at each place. -/
theorem strictMono_placement_symm (h : vs.Nodup) :
    StrictMono fun k => vs.get ((placement vs h).symm k) := by
  intro k l hk
  refine (rank_lt_iff (get_mem _ _) (get_mem _ _)).1 ?_
  rw [← placement_apply h, ← placement_apply h, Equiv.apply_symm_apply, Equiv.apply_symm_apply]
  exact hk

/-- The placement itself sorts only if it is its own inverse. -/
theorem strictMono_placement_iff (h : vs.Nodup) :
    (StrictMono fun k => vs.get (placement vs h k)) ↔ (placement vs h).symm = placement vs h := by
  constructor
  · intro hm
    -- Both arrange the same integers in rising order, and there is one such arrangement.
    have hr : ∀ p : Equiv.Perm (Fin vs.length),
        Set.range (fun k => vs.get (p k)) = Set.range vs.get := fun p => p.surjective.range_comp _
    have hsm := ((strictMono_placement_symm h).range_inj hm).1 ((hr _).trans (hr _).symm)
    exact Equiv.ext fun k => h.injective_get (congrFun hsm k)
  · intro hs
    rw [← hs]
    exact hs ▸ strictMono_placement_symm h

/-- **Counting twice gives places, and not what stands at them.** For a vector of distinct
integers the result is a permutation of which the inverse sorts the vector. It sorts the vector
itself only if it is its own inverse. -/
theorem argsort_gives_places {ds : List Datum} (hvs : vs.Nodup)
    (h : List.Forall₂ (Stands known g) vs ds) (hlength : known.isSome → vs.length ≤ 2 ^ 31) :
    (Routine.argsort.call ⟨[.vector ds], []⟩).Gives g fun d g' =>
      ∃ (es : List Datum) (p : Equiv.Perm (Fin vs.length)), d = .vector es ∧
        List.Forall₂ (Stands known g') (List.ofFn fun k => ((p k : Nat) : Int)) es ∧
        (StrictMono fun k => vs.get (p.symm k)) ∧
        ((StrictMono fun k => vs.get (p k)) ↔ p.symm = p) := by
  change Trace.Gives (Datum.vector <$> argsort ds) g _
  rw [map_eq_pure_bind]
  refine (gives_argsort h hlength).bind fun es g' _ he =>
    .pure ⟨es, placement vs hvs, rfl, ?_, ?_, ?_⟩
  · rwa [← map_rank_eq hvs]
  · exact strictMono_placement_symm hvs
  · exact strictMono_placement_iff hvs

def thirtyAndTen : Graph :=
  (Graph.empty.push (.constant (.int 30) false)).push (.constant (.int 10) false)

/-- A vector of two traced components and a plain one. -/
def thirtyTenTwenty : List Datum :=
  [.traced ⟨⟨.int, 0⟩, .int⟩, .traced ⟨⟨.int, 1⟩, .int⟩, .int 20]

theorem thirtyTenTwenty_places :
    (Routine.argsort.call ⟨[.vector thirtyTenTwenty], []⟩).Gives thirtyAndTen fun d g' =>
      ∃ (es : List Datum) (p : Equiv.Perm (Fin 3)), d = .vector es ∧
        List.Forall₂ (Stands (some fun k => whole (if k = 0 then 30 else 10)) g')
          (List.ofFn fun k => ((p k : Nat) : Int)) es ∧
        (StrictMono fun k => ([30, 10, 20] : List Int).get (p.symm k)) ∧
        ((StrictMono fun k => ([30, 10, 20] : List Int).get (p k)) ↔ p.symm = p) := by
  have hd : ([30, 10, 20] : List Int).Nodup := by decide
  refine argsort_gives_places hd (.cons ?_ (.cons ?_ (.cons ?_ .nil))) fun _ => by decide
  · exact ⟨_, rfl, _, rfl, Value.holds_constant (n := 30) rfl rfl (by decide)⟩
  · exact ⟨_, rfl, _, rfl, Value.holds_constant (n := 10) rfl rfl (by decide)⟩
  · exact ⟨_, rfl, rfl, fun _ => by decide⟩

/-- The places of 30, 10 and 20 are 2, 0 and 1, but what stands at them is 20, 30 and 10. -/
theorem argsort_unsorted :
    Routine.argsort.call ⟨[.vector [.int 30, .int 10, .int 20]], []⟩ .empty =
      .ok (.vector [.int 2, .int 0, .int 1], .empty) ∧
    ¬ ([2, 0, 1].map fun k => [30, 10, 20].getD k 0).Pairwise (· < ·) :=
  ⟨rfl, by decide⟩

end Filter

end Patchwork
