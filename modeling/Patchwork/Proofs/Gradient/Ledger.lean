import Patchwork.Proofs.Gradient.Scalars
import Patchwork.Proofs.Schedule.Between

/-!
# Keeping the books of adjoints

Adjoints are amounts that are passed down the graph. An operation passes its own adjoint on to
its operands, weighted by the rules, so that the total of all amounts, each times the slope of
its node, stays what it was at the start: the slope of the result. Only negations add to it. In
the end only the adjoint of the variable itself counts.

The same books, with magnitudes for amounts and numbers of ways for weights, say how large plain
adjoints can get. And whether or not they are small, an adjoint has been entered for a node if
something has been passed on to it.
-/

namespace Patchwork

open Graph Number
open List hiding get

variable {e : Net × Scalar} {o : Operation}

namespace Gradient

open Scalar

/-! ## Entries -/

section Entries

variable {g g' : Graph} {found : Adjoints} {n i : Net} {s : Scalar}

def amount (g : Graph) (found : Adjoints) (n : Net) : Scalar := (at? g found n).getD (float 0.0)

/-- Entries of nets that are distinct up to equality. -/
def Separate (g : Graph) (found : Adjoints) : Prop :=
  found.Pairwise fun e e' => g.sameNet e.1 e'.1 = false

theorem at?_cons (e : Net × Scalar) (found : Adjoints) :
    at? g (e :: found) n = if g.sameNet e.1 n then some e.2 else at? g found n := by
  rw [at?, find?_cons]
  cases g.sameNet e.1 n <;> rfl

theorem sameNet_eq_false (tr : g.Traced) {e' : Net × Scalar} (h : Separate g (e :: found))
    (he : g.sameNet e.1 n) (he' : e' ∈ found) : g.sameNet e'.1 n = false := by
  rw [Bool.eq_false_iff]
  intro hs
  have hf := (pairwise_cons.1 h).1 e' he'
  rw [Graph.sameNet, sameNode_trans tr he (sameNode_symm tr hs)] at hf
  cases hf

theorem enter_cons (tr : g.Traced) (h : Separate g (e :: found)) :
    enter g (e :: found) n s =
      if g.sameNet e.1 n then (e.1, s) :: found else e :: enter g found n s := by
  split
  · next he =>
    have hr : (found.map fun e' => if g.sameNet e'.1 n then (e'.1, s) else e') = found :=
      (map_congr_left fun e' he' => by simp [sameNet_eq_false tr h he he']).trans
        (List.map_id found)
    simp [enter, he, hr]
  · next he =>
    by_cases ha : (found.any fun e' => g.sameNet e'.1 n)
    · simp [enter, he, ha]
    · simp [enter, he, ha]

theorem at?_enter (tr : g.Traced) (h : Separate g found) (n i : Net) (s : Scalar) :
    at? g (enter g found n s) i = if g.sameNet n i then some s else at? g found i := by
  induction found with
  | nil => rw [enter, if_neg (by simp), nil_append, at?_cons]
  | cons e rest ih =>
    rw [enter_cons tr h]
    by_cases he : g.sameNet e.1 n
    · have heq : g.sameNet e.1 i = g.sameNet n i := sameNode_congr tr he i.source
      rw [if_pos he, at?_cons, at?_cons, heq]
      split <;> rfl
    · rw [if_neg he, at?_cons, at?_cons, ih (pairwise_cons.1 h).2]
      by_cases hi : g.sameNet e.1 i
      · have hn : ¬ g.sameNet n i := fun hn =>
          he (sameNode_trans tr hi (sameNode_symm tr hn))
        rw [if_pos hi, if_pos hi, if_neg hn]
      · rw [if_neg hi, if_neg hi]

theorem mem_enter (h : e ∈ enter g found n s) :
    e = (n, s) ∨ e ∈ found ∨ ∃ e' ∈ found, e = (e'.1, s) := by
  rw [enter] at h
  split at h
  · obtain ⟨e', he', rfl⟩ := mem_map.1 h
    split
    · exact .inr (.inr ⟨e', he', rfl⟩)
    · exact .inr (.inl he')
  · rcases mem_append.1 h with h | h
    · exact .inr (.inl h)
    · exact .inl (mem_singleton.1 h)

theorem separate_enter (h : Separate g found) (n : Net) (s : Scalar) :
    Separate g (enter g found n s) := by
  rw [enter]
  split
  · refine pairwise_map.2 (h.imp fun {e e'} hd => ?_)
    split <;> split <;> exact hd
  · next ha =>
    refine pairwise_append.2 ⟨h, pairwise_singleton _ _, fun e he e' he' => ?_⟩
    rw [mem_singleton.1 he', Bool.eq_false_iff]
    exact fun hs => ha (any_eq_true.2 ⟨e, he, hs⟩)

end Entries

/-! ## Totals -/

section Total

variable {M : Type*} [CommSemiring M] {g : Graph} {found : Adjoints} {n : Net}
  {amountOf : Scalar → M} {weight : NodeId → M} {live : NodeId → Bool}

/-- The weighted total of the amounts that still count. -/
def total (amountOf : Scalar → M) (weight : NodeId → M) (live : NodeId → Bool)
    (found : Adjoints) : M :=
  (found.map fun e => if live e.1.source then amountOf e.2 * weight e.1.source else 0).sum

theorem total_cons (e : Net × Scalar) (found : Adjoints) :
    total amountOf weight live (e :: found) =
      (if live e.1.source then amountOf e.2 * weight e.1.source else 0) +
        total amountOf weight live found := rfl

theorem amount_cons (e : Net × Scalar) (found : Adjoints) :
    amount g (e :: found) n = if g.sameNet e.1 n then e.2 else amount g found n := by
  rw [amount, at?_cons]
  split <;> rfl

/-- Weights and what counts do not tell the nets of entries from a net that is the same. -/
def Fair (g : Graph) (weight : NodeId → M) (live : NodeId → Bool) (found : Adjoints)
    (n : Net) : Prop :=
  ∀ e ∈ found, g.sameNet e.1 n = true →
    weight e.1.source = weight n.source ∧ live e.1.source = live n.source

theorem total_enter (tr : g.Traced) (h : Separate g found) (hf : Fair g weight live found n)
    (hl : live n.source) (h0 : amountOf (float 0.0) = 0) (s : Scalar) :
    total amountOf weight live (enter g found n s) + amountOf (amount g found n) * weight n.source =
      total amountOf weight live found + amountOf s * weight n.source := by
  induction found with
  | nil => simp [enter, total, amount, at?, hl, h0]
  | cons e rest ih =>
    obtain ⟨hh, hr⟩ := forall_mem_cons.1 hf
    rw [enter_cons tr h, amount_cons]
    by_cases he : g.sameNet e.1 n
    · obtain ⟨hw, hl'⟩ := hh he
      rw [if_pos he, if_pos he, total_cons, total_cons, hl', hl, hw, if_pos rfl, if_pos rfl]
      ring
    · rw [if_neg he, if_neg he, total_cons, total_cons, add_assoc,
        ih (pairwise_cons.1 h).2 hr, add_assoc]

theorem total_retire (live' : NodeId → Bool) (tr : g.Traced) (h : Separate g found)
    (hf : Fair g weight live found n) (hl : live n.source) (h0 : amountOf (float 0.0) = 0)
    (hl' : ∀ e ∈ found, live' e.1.source = (live e.1.source && !g.sameNet e.1 n)) :
    total amountOf weight live found =
      total amountOf weight live' found + amountOf (amount g found n) * weight n.source := by
  induction found with
  | nil => simp [total, amount, at?, h0]
  | cons e rest ih =>
    obtain ⟨hh, hr⟩ := forall_mem_cons.1 hf
    obtain ⟨hd, hd'⟩ := forall_mem_cons.1 hl'
    rw [amount_cons, total_cons, total_cons, hd]
    by_cases he : g.sameNet e.1 n
    · obtain ⟨hw, hc⟩ := hh he
      have hs : total amountOf weight live' rest = total amountOf weight live rest := by
        refine congrArg _ (map_congr_left fun e' he' => ?_)
        simp [hd' e' he', sameNet_eq_false tr h he he']
      rw [he, hc, hl, hw, hs]
      simp [add_comm]
    · rw [ih (pairwise_cons.1 h).2 hr hd', Bool.eq_false_iff.2 he]
      simp [add_assoc]

end Total

/-! ## Contributions -/

section Books

variable {K : Type*} [Field K] {small : Prop} {g g' g'' : Graph} {x : NodeId}
  {found found' : Adjoints} {n : Net} {s : Scalar} {m : Nat} {f : Reading K → K}
  {done : List NodeId}

/-- Entries that are in order: they are about nodes properly below `x` that were there at
the start, one for each, and what they hold can be an adjoint. -/
structure Books (small : Prop) (g g' : Graph) (x : NodeId) (found : Adjoints) : Prop where
  grown : g.Extends g'
  separate : Separate g found
  needed : ∀ e ∈ found, g.Needed [x] e.1.source
  below : ∀ e ∈ found, g.eldest e.1.source < g.eldest x
  old : ∀ e ∈ found, e.1.source < g.size
  adjoint : ∀ e ∈ found, e.2.IsAdjoint small g'

/-- A net that an adjoint can be passed on to: it is properly below the result, and its own
adjoint has not been passed on. -/
structure Open (g : Graph) (x : NodeId) (done : List NodeId) (n : Net) : Prop where
  needed : g.Needed [x] n.source
  below : g.eldest n.source < g.eldest x
  old : n.source < g.size
  fresh : ∀ j ∈ done, g.sameNode n.source j = false

theorem Books.sameNet (h : Books small g g' x found) (wf : g.WellFormed) (hn : n.source < g.size)
    (he : e ∈ found) : g'.sameNet e.1 n = g.sameNet e.1 n :=
  h.grown.sameNode wf (h.old e he) hn

/-- Looking up and entering do not notice that the graph has grown. -/
theorem Books.at?_eq (h : Books small g g' x found) (wf : g.WellFormed) (hn : n.source < g.size) :
    at? g' found n = at? g found n := by
  rw [at?, at?, ← head?_filter, ← head?_filter, filter_congr fun e he => h.sameNet wf hn he]

theorem Books.enter_eq (h : Books small g g' x found) (wf : g.WellFormed) (hn : n.source < g.size)
    (s : Scalar) : enter g' found n s = enter g found n s := by
  have ha : (found.any fun e => g'.sameNet e.1 n) = found.any fun e => g.sameNet e.1 n := by
    rw [Bool.eq_iff_iff, any_eq_true, any_eq_true]
    exact exists_congr fun e => and_congr_right fun he => by rw [h.sameNet wf hn he]
  have hm : (found.map fun e => if g'.sameNet e.1 n then (e.1, s) else e) =
      found.map fun e => if g.sameNet e.1 n then (e.1, s) else e :=
    map_congr_left fun e he => by rw [h.sameNet wf hn he]
  rw [enter, enter, ha, hm]

theorem Books.isAdjoint_amount (h : Books small g g' x found) (n : Net) :
    (amount g found n).IsAdjoint small g' := by
  rw [amount, at?]
  cases hf : found.find? fun e => g.sameNet e.1 n with
  | none => exact isAdjoint_plain standsFor_zero
  | some e => exact h.adjoint e (mem_of_find?_eq_some hf)

theorem Books.mono (h : Books small g g' x found) (hx : g'.Extends g'') :
    Books small g g'' x found :=
  { h with grown := h.grown.trans hx, adjoint := fun e he => (h.adjoint e he).mono hx }

theorem Books.enter (h : Books small g g' x found) (hn : Open g x done n)
    (hs : s.IsAdjoint small g') : Books small g g' x (enter g found n s) := by
  refine ⟨h.grown, separate_enter h.separate n s, ?_, ?_, ?_, ?_⟩ <;> intro e he <;>
    rcases mem_enter he with rfl | he | ⟨e', he', rfl⟩
  exacts [hn.needed, h.needed e he, h.needed e' he', hn.below, h.below e he, h.below e' he', hn.old,
    h.old e he, h.old e' he', hs, h.adjoint e he, hs]

/-- What a contribution does, if one is given: the net has an entry then, other entries are
kept, and a total grows by the contribution, or by no more if plain amounts are counted. -/
structure Credited (small : Prop) (g g' g'' : Graph) (x : NodeId) (found found' : Adjoints) (n : Net)
    (given : Bool) (m : Nat) (f : Reading K → K) : Prop where
  books : Books small g g'' x found'
  entered : ∀ i, (at? g found' i).isSome = ((at? g found i).isSome || (given && g.sameNet n i))
  magnitude_le : small → ∀ weight live, Fair g weight live found n → live n.source = true →
    total magnitude weight live found' ≤ total magnitude weight live found + m * weight n.source
  read_eq : small → ∀ r : Reading K, r.Exact → ∀ weight live, Fair g weight live found n →
    live n.source = true →
    total (read g'' r) weight live found' = total (read g' r) weight live found +
      f r * weight n.source

theorem read_zero (g : Graph) {r : Reading K} (hr : r.Exact) : (float 0.0).read g r = 0 :=
  (hr.valuation.number_eq standsFor_zero).trans Int.cast_zero

theorem magnitude_zero : (float 0.0).magnitude = 0 := magnitude_plain standsFor_zero

theorem Books.total_read_eq (h : Books small g g' x found) (hx : g'.Extends g'') (r : Reading K)
    (weight : NodeId → K) (live : NodeId → Bool) :
    total (read g'' r) weight live found = total (read g' r) weight live found := by
  refine congrArg _ (map_congr_left fun e he => ?_)
  rw [(h.adjoint e he).inside.read_eq hx r]

/-- A contribution that leaves room is credited. -/
theorem Books.contribute (h : Books small g g' x found) (tr : g.Traced) (hn : Open g x done n)
    (hs : s.Means small g' m f) (hrm : small → (amount g found n).magnitude + m ≤ 2 ^ 53) :
    (contribute found n s).Gives g' fun found' g'' =>
      Credited small g g' g'' x found found' n true m f := by
  refine .get_bind ?_
  rw [h.at?_eq tr.wellFormed hn.old]
  refine (gives_add (h.isAdjoint_amount n).means hs hrm).bind fun sum g₁ hx hu => .pure ?_
  rw [h.enter_eq tr.wellFormed hn.old]
  refine ⟨(h.mono hx).enter hn hu.toIsAdjoint, ?_, ?_, ?_⟩
  · intro i
    rw [at?_enter tr h.separate]
    cases g.sameNet n i <;> simp
  · intro hm weight live hf hl
    have he := total_enter tr h.separate hf hl magnitude_zero sum
    have hle := Nat.mul_le_mul_right (weight n.source) (hu.magnitude_le hm)
    rw [Nat.add_mul] at hle
    omega
  · intro hm r hr weight live hf hl
    have he := total_enter tr h.separate hf hl (read_zero g₁ hr) sum
    rw [hu.read_eq hm r hr, (h.isAdjoint_amount n).inside.read_eq hx r, h.total_read_eq hx] at he
    have hp : (read g' r (amount g found n) + f r) * weight n.source =
        f r * weight n.source + read g' r (amount g found n) * weight n.source := by ring
    rw [hp, ← add_assoc] at he
    exact add_right_cancel he

theorem Books.contribute? (h : Books small g g' x found) (tr : g.Traced) (hn : Open g x done n)
    {p : Option Scalar} (hp : Contributes small g' m f p)
    (hr : small → (amount g found n).magnitude + m ≤ 2 ^ 53) :
    (contribute? found n p).Gives g' fun found' g'' =>
      Credited small g g' g'' x found found' n p.isSome m f := by
  cases p with
  | some s => exact h.contribute tr hn hp hr
  | none =>
    refine .pure ⟨h, fun i => by simp, fun _ weight live _ _ => Nat.le_add_right _ _, ?_⟩
    intro _ r _ weight live _ _
    rw [hp r, zero_mul, add_zero]

end Books

/-! ## What counts -/

section Balance

variable {M : Type*} [CommSemiring M] {small : Prop} {g g' : Graph} {x k : NodeId}
  {found : Adjoints} {n : Net} {amountOf : Scalar → M} {weight : NodeId → M}
  {kept : NodeId → Bool} {done : List NodeId}

/-- Whether the adjoint of a node still counts: it has not been passed on, or it is kept. -/
def counts (g : Graph) (kept : NodeId → Bool) (done : List NodeId) (k : NodeId) : Bool :=
  kept k || !done.any (g.sameNode k)

def balance (amountOf : Scalar → M) (weight : NodeId → M) (live : NodeId → Bool) (x : NodeId)
    (found : Adjoints) : M :=
  (if live x then weight x else 0) + total amountOf weight live found

/-- A weight that does not tell equal nodes apart, as far as they are needed. -/
def Even (g : Graph) (x : NodeId) (weight : NodeId → M) : Prop :=
  ∀ a b, g.Needed [x] a → g.sameNode a b = true → weight a = weight b

theorem counts_congr (tr : g.Traced) (hk : ∀ a b, g.sameNode a b → kept a = kept b)
    {a b : NodeId} (h : g.sameNode a b) : counts g kept done a = counts g kept done b := by
  rw [counts, counts, hk a b h, funext (sameNode_congr tr h)]

theorem counts_cons (j : NodeId) :
    counts g kept (k :: done) j = (kept j || (!g.sameNode j k && !done.any (g.sameNode j))) := by
  simp [counts]

theorem counts_of_fresh (kept : NodeId → Bool) (h : ∀ j ∈ done, g.sameNode k j = false) :
    counts g kept done k := by
  have ha : done.any (g.sameNode k) = false := by simpa using h
  simp [counts, ha]

omit [CommSemiring M] in
theorem Books.fair (h : Books small g g' x found) (tr : g.Traced) (hv : Even g x weight)
    (hk : ∀ a b, g.sameNode a b → kept a = kept b) :
    Fair g weight (counts g kept done) found n := fun e he hs =>
  ⟨hv _ _ (h.needed e he) hs, counts_congr tr hk hs⟩

theorem balance_kept (hp : ∀ a b, g.sameNode a b → kept a = kept b) (hk : kept k) :
    balance amountOf weight (counts g kept (k :: done)) x found =
      balance amountOf weight (counts g kept done) x found := by
  have hc : counts g kept (k :: done) = counts g kept done := by
    funext j
    rw [counts_cons, counts]
    by_cases hj : g.sameNode j k
    · simp [hp j k hj, hk]
    · simp [hj]
  rw [hc]

/-- A node that stops to count takes its adjoint off. -/
theorem Books.balance_retire (h : Books small g g' x found) (tr : g.Traced) (hv : Even g x weight)
    (hp : ∀ a b, g.sameNode a b → kept a = kept b) (hk : kept k = false)
    (hf : ∀ j ∈ done, g.sameNode k j = false) (hd : g.Needed [x] k)
    (hx : k = x ∨ g.sameNode k x = false) (hn : g.sameNode k n.source)
    (h0 : amountOf (float 0.0) = 0) (ho : amountOf (float 1.0) = 1) :
    balance amountOf weight (counts g kept done) x found =
      balance amountOf weight (counts g kept (k :: done)) x found +
        amountOf (if k = x then float 1.0 else amount g found n) * weight k := by
  have hlv := counts_of_fresh kept hf
  by_cases hkx : k = x
  · subst hkx
    -- No entry is about the result itself.
    have ht : total amountOf weight (counts g kept (k :: done)) found =
        total amountOf weight (counts g kept done) found := by
      refine congrArg _ (map_congr_left fun e he => ?_)
      rw [counts_cons, sameNode_eq_false_of_eldest tr (h.below e he)]
      rfl
    have hdd : counts g kept (k :: done) k = false := by simp [counts_cons, hk]
    rw [balance, balance, ht, hlv, hdd, if_pos rfl, if_pos rfl, ho]
    simp [add_comm]
  · have hne := hx.resolve_left hkx
    have hc : counts g kept (k :: done) x = counts g kept done x := by
      rw [counts_cons, sameNode_comm tr x k, hne]
      rfl
    have hl : ∀ e ∈ found, counts g kept (k :: done) e.1.source =
        (counts g kept done e.1.source && !g.sameNet e.1 n) := by
      intro e he
      rw [counts_cons, Graph.sameNet, sameNode_comm tr e.1.source n.source,
        ← sameNode_congr tr hn, sameNode_comm tr k, counts]
      by_cases hek : g.sameNode e.1.source k
      · simp [hek, hp _ _ hek, hk]
      · simp [hek]
    have hr := total_retire _ tr h.separate (h.fair tr hv hp) (counts_congr tr hp hn ▸ hlv) h0 hl
    rw [balance, balance, hc, hr, if_neg hkx, ← hv k n.source hd hn, add_assoc]

end Balance

/-! ## Passing on -/

section Spread

variable {K : Type*} [Field K] {small : Prop} {g g' g'' : Graph} {x k : NodeId} {found : Adjoints}
  {n m : Net} {s : Scalar} {c : Nat} {f : Reading K → K} {done : List NodeId}

theorem even_ways (tr : g.Traced) (hx : g.Regular x) (j : NodeId) : Even g x (g.ways j) :=
  fun _ _ ha hb => ways_congr tr hx ha hb

theorem even_slope (tr : g.Traced) {r : Reading K} (hr : r.Exact) (hx : g.Regular x) (y : NodeId) :
    Even g x (g.slope r y) := fun _ _ ha hb => slope_congr tr hr hx ha hb

theorem Books.fair_ways (h : Books small g g' x found) (tr : g.Traced) (hx : g.Regular x)
    (j : NodeId) : Fair g (g.ways j) (counts g (fun _ => false) done) found n :=
  h.fair tr (even_ways tr hx j) fun _ _ _ => rfl

theorem Books.fair_slope (h : Books small g g' x found) (tr : g.Traced) {r : Reading K}
    (hr : r.Exact) (hx : g.Regular x) (y : NodeId) :
    Fair g (g.slope r y) (counts g (fun k => g.sameNode k y) done) found n :=
  h.fair tr (even_slope tr hr hx y) fun _ _ ha => sameNode_congr tr ha y

theorem ways_self_pos (wf : g.WellFormed) (k : NodeId) : 1 ≤ g.ways k k := by
  cases ho : (g.node k).isOperation with
  | false => simp [ways_leaf ho]
  | true =>
    obtain ⟨o, args, c, hk⟩ := wf.exists_apply ho
    simp [ways_apply wf hk]

theorem Books.room (h : Books small g g' x found) (tr : g.Traced) (hx : g.Regular x)
    (hn : Open g x done n) {limit : Nat}
    (hl : total magnitude (g.ways n.source) (counts g (fun _ => false) done) found +
      c * g.ways n.source n.source ≤ limit) : (amount g found n).magnitude + c ≤ limit := by
  have he := total_enter tr h.separate (h.fair_ways tr hx n.source)
    (counts_of_fresh _ hn.fresh) magnitude_zero (float 0.0)
  rw [magnitude_zero, Nat.zero_mul, Nat.add_zero] at he
  have hp := ways_self_pos tr.wellFormed n.source
  have ha := Nat.le_mul_of_pos_right (amount g found n).magnitude hp
  have hc := Nat.le_mul_of_pos_right c hp
  omega

/-- How large a contribution is, given how large the adjoint is. -/
def share (hands : Bool) (c : Nat) : Nat := if hands then c else 0

theorem share_mul_le (wf : g.WellFormed) {rest : List Net} {d : Bool}
    (h : g.node k = .apply o (n :: rest) d) (ho : o.hasRule) (c : Nat) (j : NodeId) :
    share o.hands.1 c * g.ways j n.source + share o.hands.2 c * g.ways j (rest.headD n).source ≤
      c * g.ways j k := by
  have hl := Nat.mul_le_mul_left c (handed_le wf h ho j)
  rw [Nat.mul_add] at hl
  simpa only [share, ite_mul, mul_ite, Nat.zero_mul, Nat.mul_zero] using hl

/-- What an operation has passed on to two nets: which have entries now, and how the totals
have grown. -/
structure Distributed (small : Prop) (g g' g'' : Graph) (x : NodeId) (done : List NodeId)
    (o : Operation) (n m : Net) (c : Nat) (f : Reading K → K) (found found' : Adjoints) : Prop where
  books : Books small g g'' x found'
  entered : ∀ i, (at? g found' i).isSome = (((at? g found i).isSome ||
    (!o.isFlat && g.sameNet n i)) || (o.passesTwo && g.sameNet m i))
  magnitude_le : small → ∀ j,
    total magnitude (g.ways j) (counts g (fun _ => false) done) found' ≤
      total magnitude (g.ways j) (counts g (fun _ => false) done) found +
        (share o.hands.1 c * g.ways j n.source + share o.hands.2 c * g.ways j m.source)
  read_eq : small → ∀ r : Reading K, r.Exact → ∀ y,
    total (read g'' r) (g.slope r y) (counts g (fun k => g.sameNode k y) done) found' =
      total (read g' r) (g.slope r y) (counts g (fun k => g.sameNode k y) done) found +
        ((f r * (o.weights r (g.read r n.source) (g.read r m.source)).1 +
          if o = .neg then -g.read r m.source else 0) * g.slope r y n.source +
        f r * (o.weights r (g.read r n.source) (g.read r m.source)).2 * g.slope r y m.source)

theorem traces_ofNet (he : g.Extends g') (hn : n.source < g.size) :
    (Scalar.traced (.ofNet n)).Traces small g' fun r : Reading K => g.read r n.source where
  inside := Nat.lt_of_lt_of_le hn he.size
  read_eq _ r _ := he.read r hn
  isTraced := rfl

/-- Passing on follows the rules, exactly so if there is room for it. -/
theorem Books.distribute (h : Books small g g' x found) (tr : g.Traced)
    (hx : small → g.Regular x) (ho : o.hasRule) (hn : Open g x done n)
    (hm : Open g x done m) (hs : s.Means small g' c f)
    (hrm : small → ∀ j, total magnitude (g.ways j) (counts g (fun _ => false) done) found +
      (share o.hands.1 c * g.ways j n.source + share o.hands.2 c * g.ways j m.source) ≤ 2 ^ 53) :
    (distribute o n m s found).Gives g' fun found' g'' =>
      Distributed small g g' g'' x done o n m c f found found' := by
  refine (gives_contributions ho (traces_ofNet h.grown hn.old) (traces_ofNet h.grown hm.old) hs).bind
    fun p g₁ he₁ hp => ?_
  obtain ⟨left, right⟩ := p
  obtain ⟨hf, hd, hg, hg'⟩ := hp
  have h₁ := h.mono he₁
  refine (h₁.contribute? tr hn hf fun hl => ?_).bind fun found₁ g₂ he₂ hc => ?_
  · refine h₁.room tr (hx hl) hn (Nat.le_trans ?_ (hrm hl n.source))
    exact Nat.add_le_add_left (Nat.le_add_right _ _) _
  have hd' : Contributes small g₂ (if o.hands.2 then c else 0)
      (fun r => f r * (o.weights r (g.read r n.source) (g.read r m.source)).2) right := by
    cases right with
    | some t => exact Means.mono hd he₂
    | none => exact hd
  refine (hc.books.contribute? tr hm hd' fun hl => ?_).imp
    fun found₂ g₃ he₃ hc' => ⟨hc'.books, ?_, ?_, ?_⟩
  · refine hc.books.room tr (hx hl) hm (Nat.le_trans ?_ (hrm hl m.source))
    rw [← Nat.add_assoc]
    exact Nat.add_le_add_right (hc.magnitude_le hl _ _ (h₁.fair_ways tr (hx hl) m.source)
      (counts_of_fresh (fun _ => false) hn.fresh)) _
  · intro i
    rw [hc'.entered, hc.entered, hg, hg']
  · intro hl j
    have hle₁ := hc.magnitude_le hl _ _ (h₁.fair_ways tr (hx hl) j)
      (counts_of_fresh (fun _ => false) hn.fresh)
    have hle₂ := hc'.magnitude_le hl _ _ (hc.books.fair_ways tr (hx hl) j)
      (counts_of_fresh (fun _ => false) hm.fresh)
    rw [← Nat.add_assoc]
    exact Nat.le_trans hle₂ (Nat.add_le_add_right hle₁ _)
  · intro hl r hr y
    rw [hc'.read_eq hl r hr _ _ (hc.books.fair_slope tr hr (hx hl) y)
        (counts_of_fresh _ hm.fresh), hc.read_eq hl r hr _ _ (h₁.fair_slope tr hr (hx hl) y)
        (counts_of_fresh _ hn.fresh), h.total_read_eq he₁, add_assoc]

end Spread

/-! ## Orders -/

section Orders

variable {g g' : Graph} {x k : NodeId} {l r leaves order : List NodeId} {found : Adjoints}

theorem lt_size_of_needed (tr : g.Traced) (hx : x < g.size) (hk : g.Needed [x] k) : k < g.size := by
  obtain ⟨j, hj, hjk⟩ := hk
  have hl : j < g.size := Nat.lt_of_le_of_lt (hj.le tr.wellFormed) hx
  rcases (sameNode_iff tr.wellFormed).1 hjk with ⟨-, ho, -⟩ | hf
  · exact lt_size_of_ne_blank fun h => by simp [h, Node.isOperation] at ho
  · rcases sameLeaf_iff.1 hf with rfl | ⟨m, n, -, hn, -⟩
    · exact hl
    · exact lt_size_of_ne_blank fun h => by simp [h] at hn

theorem netOf?_eq (he : g.Extends g') (wf : g.WellFormed) {nodes : List NodeId}
    (ho : ∀ j ∈ nodes, j < g.size) (hk : k < g.size) : g'.netOf? nodes k = g.netOf? nodes k := by
  have hg : (nodes.flatMap fun j => (g'.node j).args) = nodes.flatMap fun j => (g.node j).args :=
    flatMap_congr fun j hj => by rw [he.node j (ho j hj)]
  rw [Graph.netOf?, Graph.netOf?, hg, filter_congr fun n hn => ?_]
  obtain ⟨j, hj, hn⟩ := mem_flatMap.1 hn
  exact he.sameNode wf (Nat.lt_trans ((wf j).before n hn) (ho j hj)) hk

section

variable (tr : g.Traced) (b : g.Backward x leaves order)

include tr b

theorem eq_or_not_same (hs : order = l ++ k :: r) : k = x ∨ g.sameNode k x = false := by
  refine (b.used l k r hs).imp_right fun ⟨j, hj, n, hn, hk⟩ => ?_
  refine sameNode_eq_false_of_eldest tr ?_
  rw [← eldest_eq tr hk]
  exact Nat.lt_of_lt_of_le (eldest_lt_of_arg tr hn) ((b.needed j (by simp [hs, hj])).eldest_le tr)

theorem open_of_arg (hs : order = l ++ k :: r) {n : Net} (hn : n ∈ (g.node k).args) :
    Open g x (k :: r) n := by
  have hnd := b.needed k (by simp [hs])
  refine ⟨hnd.operand tr hn, ?_, ?_, ?_⟩
  · exact Nat.lt_of_lt_of_le (eldest_lt_of_arg tr hn) (hnd.eldest_le tr)
  · exact lt_size_of_cell? ((tr.wellFormed k).typed n hn)
  · intro j hj
    rw [Bool.eq_false_iff]
    intro hm
    have hb := b.before l k r hs n hn j (by rw [hs]; exact mem_append_right l hj) hm
    have hd := b.distinct
    rw [hs] at hd
    have hf := (pairwise_append.1 hd).2.2 j hb j hj
    rw [sameNode_self] at hf
    cases hf

omit tr b in
theorem fresh_of_split (b : g.Backward x leaves order) (hs : order = l ++ k :: r) :
    ∀ j ∈ r, g.sameNode k j = false := by
  have hd := b.distinct
  rw [hs] at hd
  exact (pairwise_cons.1 (pairwise_append.1 hd).2.1).1

/-- Whoever passes something on to a node of the order is in it. -/
theorem exists_mem_order (hk : k ∈ order) (h : g.PassedOn x k) : ∃ u ∈ order, g.PassesTo u k := by
  obtain ⟨u, hu, hp⟩ := h
  obtain ⟨n, hn, hnk⟩ := hp.exists_arg
  obtain ⟨j, hj, huj⟩ := b.complete u hu n hn k hk hnk
  exact ⟨j, hj, hp.congr tr huj (sameNode_self g k)⟩

theorem exists_mem_right
    (hs : order = l ++ k :: r) (h : g.PassedOn x k) : ∃ u ∈ r, g.PassesTo u k := by
  have hk : k ∈ order := by simp [hs]
  obtain ⟨u, hu, hp⟩ := exists_mem_order tr b hk h
  refine ⟨u, ?_, hp⟩
  obtain ⟨n, hn, hnk⟩ := hp.exists_arg
  obtain ⟨l', r', hs'⟩ := append_of_mem hu
  have hb := b.before l' u r' hs' n hn k hk hnk
  have hd : order.Nodup := b.distinct.imp fun {a b} ha heq => by simp [heq] at ha
  exact mem_right_of_mem_left (hs ▸ hd) (hs ▸ hs') hb

end

end Orders

/-! ## The invariant -/

section Ledger

variable {K : Type*} [Field K] {small : Prop} {g g' : Graph} {x : Value} {k : NodeId}
  {found : Adjoints} {l done leaves order : List NodeId}

/-- The invariant of passing adjoints on, when the nodes `done` have done so: there are
entries for what they pass on to, the amounts that count make up the slope of `x` with respect
to any node `y` and what negations have added, and plain amounts are not larger than there are
ways. -/
structure Ledger (K : Type*) [Field K] (small : Prop) (g g' : Graph) (x : NodeId)
    (done : List NodeId) (found : Adjoints) : Prop where
  books : Books small g g' x found
  entered : ∀ n, (at? g found n).isSome = true ↔ ∃ k ∈ done, g.PassesTo k n.source
  ways_le : small → ∀ j,
    balance magnitude (g.ways j) (counts g (fun _ => false) done) x found ≤ g.ways j x
  read_eq : small → ∀ r : Reading K, r.Exact → ∀ y,
    balance (read g' r) (g.slope r y) (counts g (fun k => g.sameNode k y) done) x found =
      g.slope r y x + (done.map (g.turned r y)).sum

theorem ledger_start (small : Prop) (g : Graph) (x : NodeId) : Ledger K small g g x [] [] := by
  refine ⟨⟨.refl g, .nil, by simp, by simp, by simp, by simp⟩, by simp [at?], ?_, ?_⟩
  · simp [balance, total, counts]
  · simp [balance, total, counts]

/-- The adjoint of a node: one for the result itself, else its entry. -/
def own (g : Graph) (x : NodeId) (found : Adjoints) (k : NodeId) (n : Net) : Scalar :=
  if k = x then float 1.0 else amount g found n

/-- The adjoint of a node is looked up under a net that is the same. -/
theorem exists_ownAdjoint (tr : g.Traced) (hx : x.net.source < g.size)
    (b : g.Backward x.net.source leaves order) (hp : order = l ++ k :: done)
    (h : Books small g g' x.net.source found) :
    ∃ n : Net, g.sameNode k n.source ∧ (k = x.net.source ∨ (at? g found n).isSome →
        ownAdjoint x order found k g' = .ok (own g x.net.source found k n, g')) ∧
      (k ≠ x.net.source → at? g found n = none →
        ownAdjoint x order found k g' = .error .absentKey) := by
  have hold : ∀ {j}, j ∈ order → j < g.size := fun hj => lt_size_of_needed tr hx (b.needed _ hj)
  by_cases hk : k = x.net.source
  · subst hk
    refine ⟨x.net, sameNode_self g _, fun _ => ?_, fun he => absurd rfl he⟩
    rw [ownAdjoint, if_pos rfl, own, if_pos rfl]
    rfl
  · obtain ⟨j, hj, i, hi, hik⟩ := (b.used l k done hp).resolve_left hk
    obtain ⟨n, hn⟩ := exists_netOf? (show j ∈ order by simp [hp, hj]) hi hik
    obtain ⟨hnk, j', hj', hnj⟩ := mem_of_netOf? hn
    have hl : (g'.netOf? order k).bind (at? g' found) = at? g found n := by
      rw [netOf?_eq h.grown tr.wellFormed (fun j hj => hold hj) (hold (by simp [hp])), hn,
        Option.bind_some,
        h.at?_eq tr.wellFormed (Nat.lt_trans ((tr.wellFormed j').before n hnj) (hold hj'))]
    have hr : ownAdjoint x order found k g' =
        (at? g found n).elim (.error .absentKey) fun s => .ok (s, g') := by
      rw [← hl, ownAdjoint, if_neg hk]
      change (StateT.bind _ _) g' = _
      cases hf : (g'.netOf? order k).bind (at? g' found) <;>
        simp [StateT.bind, get, getThe, MonadStateOf.get, StateT.get, hf] <;> rfl
    refine ⟨n, sameNode_symm tr hnk, fun ho => ?_, fun _ hno => ?_⟩
    · obtain ⟨s, hs⟩ := Option.isSome_iff_exists.1 (ho.resolve_left hk)
      rw [hr, own, if_neg hk, amount, hs]
      rfl
    · rw [hr, hno]
      rfl

theorem magnitude_one : (float 1.0).magnitude = 1 := magnitude_plain standsFor_one

theorem read_one (g : Graph) {r : Reading K} (hr : r.Exact) : (float 1.0).read g r = 1 :=
  (hr.valuation.number_eq standsFor_one).trans Int.cast_one

theorem Books.isAdjoint_own {x : NodeId} (h : Books small g g' x found) (k : NodeId) (n : Net) :
    (own g x found k n).IsAdjoint small g' := by
  rw [own]
  split
  · exact isAdjoint_plain standsFor_one
  · exact h.isAdjoint_amount n

theorem Ledger.ways_retire {x : NodeId} (h : Ledger K small g g' x done found) (tr : g.Traced)
    (hm : small) (hx : g.Regular x) (b : g.Backward x leaves order)
    (hs : order = l ++ k :: done) {n : Net} (hn : g.sameNode k n.source) (j : NodeId) :
    balance magnitude (g.ways j) (counts g (fun _ => false) (k :: done)) x found +
      (own g x found k n).magnitude * g.ways j k ≤ g.ways j x := by
  rw [own, ← h.books.balance_retire tr (even_ways tr hx j) (fun _ _ _ => rfl) rfl
    (fresh_of_split b hs) (b.needed k (by simp [hs])) (eq_or_not_same tr b hs) hn
    magnitude_zero magnitude_one]
  exact h.ways_le hm j

theorem Ledger.read_retire {x : NodeId} (h : Ledger K small g g' x done found) (tr : g.Traced)
    (hm : small) (hx : g.Regular x) (b : g.Backward x leaves order)
    (hs : order = l ++ k :: done) {n : Net} (hn : g.sameNode k n.source) {r : Reading K}
    (hr : r.Exact) (y : NodeId) :
    balance (read g' r) (g.slope r y) (counts g (fun k => g.sameNode k y) (k :: done)) x found +
        (if g.sameNode k y then 0 else (own g x found k n).read g' r * g.slope r y k) =
      g.slope r y x + (done.map (g.turned r y)).sum := by
  have hk : ∀ a b, g.sameNode a b → g.sameNode a y = g.sameNode b y := fun a b ha =>
    sameNode_congr tr ha y
  cases hy : g.sameNode k y with
  | true =>
    rw [balance_kept hk hy, if_pos rfl, add_zero]
    exact h.read_eq hm r hr y
  | false =>
    rw [if_neg Bool.false_ne_true, own, ← h.books.balance_retire tr (even_slope tr hr hx y) hk
      hy (fresh_of_split b hs) (b.needed k (by simp [hs])) (eq_or_not_same tr b hs)
      hn (read_zero g' hr) (read_one g' hr)]
    exact h.read_eq hm r hr y

/-- A node without operands is done without passing anything on. -/
theorem Ledger.leaf {x : NodeId} (h : Ledger K small g g' x done found) (tr : g.Traced)
    (hx : small → g.Regular x) (b : g.Backward x leaves order) (hp : order = l ++ k :: done)
    (hg : (g.node k).args = []) : Ledger K small g g' x (k :: done) found := by
  have ha : ∀ o args c, g.node k = .apply o args c → args = [] := by
    intro o args c hk
    rwa [hk] at hg
  have ho : (g.node k).isOperation = false := by
    rw [Bool.eq_false_iff]
    intro ho
    obtain ⟨o, args, c, hk⟩ := tr.wellFormed.exists_apply ho
    have hc := (tr.wellFormed k).covered o args c hk
    obtain rfl := ha o args c hk
    rcases Operation.length_of_result hc with hl | hl <;> cases hl
  have hf : g.sameNode k (⟨.int, k⟩ : Net).source := sameNode_self g k
  refine ⟨h.books, fun n => ?_, fun hs j => ?_, fun hs r hr y => ?_⟩
  · have hn : ¬ g.PassesTo k n.source := fun hpss => by
      obtain ⟨i, hi, -⟩ := hpss.exists_arg
      simp [hg] at hi
    simp [h.entered, hn]
  · exact Nat.le_trans (Nat.le_add_right _ _) (h.ways_retire tr hs (hx hs) b hp hf j)
  · have he := h.read_retire tr hs (hx hs) b hp hf hr y
    have ht : g.turned r y k = 0 := turned_of_ne fun n c hk => by
      cases ha _ _ _ hk
    rw [map_cons, sum_cons, ht, zero_add, ← he]
    cases hy : g.sameNode k y with
    | true => simp
    | false => simp [slope_leaf hy ho]

/-- An operation is done when it has passed its adjoint on. -/
theorem Ledger.operation {x : NodeId} {g'' : Graph} (h : Ledger K small g g' x done found)
    (tr : g.Traced) (hx : small → g.Regular x) (b : g.Backward x leaves order)
    (hl : order = l ++ k :: done) {n₀ : Net} (hn₀ : g.sameNode k n₀.source) {n : Net}
    {rest : List Net} {c : Bool} (hk : g.node k = .apply o (n :: rest) c)
    (ho : o.hasRule) {found' : Adjoints}
    (hp : Distributed small g g' g'' x (k :: done) o n (rest.headD n)
      (own g x found k n₀).magnitude (fun r : Reading K => (own g x found k n₀).read g' r)
      found found') : Ledger K small g g'' x (k :: done) found' := by
  refine ⟨hp.books, fun i => ?_, fun hs j => ?_, fun hs r hr y => ?_⟩
  · rw [hp.entered, Bool.or_eq_true, Bool.or_eq_true, Bool.and_eq_true, Bool.and_eq_true,
      Bool.not_eq_true', h.entered, exists_mem_cons_iff, passesTo_iff tr.wellFormed hk ho, or_assoc]
    exact or_comm
  · have he := h.ways_retire tr hs (hx hs) b hl hn₀ j
    have hg := hp.magnitude_le hs j
    have hh := share_mul_le tr.wellFormed hk ho (own g x found k n₀).magnitude j
    rw [balance] at he ⊢
    omega
  · rw [map_cons, sum_cons, add_left_comm,
      ← h.read_retire tr hs (hx hs) b hl hn₀ hr y, balance, balance,
      hp.read_eq hs r hr y, passed_mul_slope tr.wellFormed hk ho]
    cases hy : g.sameNode k y with
    | true =>
      -- What is below the variable does not change with it.
      have h0 : o.slope r ((n :: rest).map fun i => g.tangent r y i.source) = 0 := by
        refine o.slope_eq_zero fun d hd => ?_
        obtain ⟨i, hi, rfl⟩ := mem_map.1 hd
        have hold := eldest_lt_of_arg tr (show i ∈ (g.node k).args by rw [hk]; exact hi)
        exact slope_eq_zero tr fun hnd =>
          Nat.not_lt.2 (hnd.eldest_le tr) (eldest_eq tr hy ▸ hold)
      rw [h0, if_pos rfl]
      ring
    | false =>
      rw [if_neg Bool.false_ne_true, slope_apply tr.wellFormed hy hk]
      ring

/-- Passing an adjoint on keeps the invariant, if it can be passed on. -/
theorem Ledger.passOn (h : Ledger K small g g' x.net.source done found) (tr : g.Traced)
    (hx : x.net.source < g.size) (hr : small → g.Regular x.net.source)
    (hf : small → ∀ j, g.ways j x.net.source ≤ 2 ^ 53)
    (b : g.Backward x.net.source leaves order) (hp : order = l ++ k :: done)
    (hk : g.Handles x.net.source k) :
    (passOn x order found k).Gives g' fun found' g'' =>
      Ledger K small g g'' x.net.source (k :: done) found' := by
  have hgro := h.books.grown.node k (lt_size_of_needed tr hx (b.needed k (by simp [hp])))
  refine .get_bind ?_
  dsimp only
  rw [hgro]
  obtain ⟨hl, he⟩ := hk
  cases hg : (g.node k).args with
  | nil => exact .pure (h.leaf tr hr b hp hg)
  | cons n rest =>
    obtain ⟨o, args, c, hnd, ho⟩ := hl.resolve_left (by simp [hg])
    rw [hnd] at hg ⊢
    obtain rfl : args = n :: rest := hg
    obtain ⟨n₀, hn₀, hfnd, -⟩ := exists_ownAdjoint tr hx b hp h.books
    have ht : k = x.net.source ∨ (at? g found n₀).isSome := by
      refine (eq_or_not_same tr b hp).imp_right fun hne => ?_
      have hd := (he.resolve_left (by simp [hnd, Node.args])).resolve_left (by simp [hne])
      obtain ⟨u, hu, hpss⟩ := exists_mem_right tr b hp hd
      exact (h.entered n₀).2 ⟨u, hu, hpss.congr tr (sameNode_self g u) hn₀⟩
    have hw : (ownAdjoint x order found k).Gives g' fun s g'' =>
        s = own g x.net.source found k n₀ ∧ g'' = g' := ⟨_, _, hfnd ht, .refl g', rfl, rfl⟩
    refine hw.bind fun s g₂ _ hs => ?_
    obtain ⟨rfl, rfl⟩ := hs
    have hop : ∀ i ∈ n :: rest, Open g x.net.source (k :: done) i := fun i hi =>
      open_of_arg tr b hp (by rw [hnd]; exact hi)
    have hop' : Open g x.net.source (k :: done) (rest.headD n) := by
      refine hop _ ?_
      cases rest <;> simp
    refine (h.books.distribute tr hr ho (hop n (by simp)) hop'
      (h.books.isAdjoint_own k n₀).means fun hm j => ?_).imp
      fun found' g'' _ hd => h.operation tr hr b hp hn₀ hnd ho hd
    have hret := h.ways_retire tr hm (hr hm) b hp hn₀ j
    have hh := share_mul_le tr.wellFormed hnd ho (own g x.net.source found k n₀).magnitude j
    have hlim := hf hm j
    rw [balance] at hret
    omega

/-- Going backwards through the order keeps the invariant. -/
theorem Ledger.run (tr : g.Traced) (hx : x.net.source < g.size)
    (hr : small → g.Regular x.net.source) (hf : small → ∀ j, g.ways j x.net.source ≤ 2 ^ 53)
    (b : g.Backward x.net.source leaves order) (hh : ∀ k ∈ order, g.Handles x.net.source k)
    (todo : List NodeId) (hs : order = todo.reverse ++ done)
    (h : Ledger K small g g' x.net.source done found) :
    Trace.Gives (todo.foldlM (Gradient.passOn x order) found) g' fun found' g'' =>
      Ledger K small g g'' x.net.source order found' := by
  induction todo generalizing done found g' with
  | nil =>
    exact .pure (hs ▸ h)
  | cons k rest ih =>
    have hs' : order = rest.reverse ++ k :: done := by simpa using hs
    exact (h.passOn tr hx hr hf b hs' (hh k (by simp [hs']))).bind fun found' g'' _ ht => ih hs' ht

end Ledger

end Gradient

end Patchwork
