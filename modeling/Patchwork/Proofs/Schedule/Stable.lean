import Patchwork.Proofs.Schedule.Order
import Mathlib.Data.Set.Card
import Mathlib.Logic.Relation

/-!
# The stable topological order is the first one

A sort fails if and only if the edges run in a circle. Otherwise it always places the node
that appeared first among all nodes that could come next, and so its result is, in the order
of first appearance, the lexicographically smallest of all topological orders.
-/

namespace Patchwork

open List

namespace Edges

open Relation (TransGen)

variable {α : Type} {same : α → α → Bool} {edges : List (α × α)} {order other : List α} {x y z : α}

/-! ## Circles -/

def Leads (same : α → α → Bool) (edges : List (α × α)) (x y : α) : Prop :=
  ∃ e ∈ edges, same x e.1 = true ∧ same e.2 y = true

/-- Some edges lead from a node back to itself. -/
def Cyclic (same : α → α → Bool) (edges : List (α × α)) : Prop :=
  ∃ x, TransGen (Leads same edges) x x

theorem leads_of_mem (eqv : Equality same) {e : α × α} (he : e ∈ edges) :
    Leads same edges e.1 e.2 := ⟨e, he, eqv.refl _, eqv.refl _⟩

theorem transGen_congr_left (eqv : Equality same) (hx : same x y)
    (h : TransGen (Leads same edges) y z) : TransGen (Leads same edges) x z := by
  obtain ⟨w, ⟨e, he, hy, hw⟩, hr⟩ := TransGen.head'_iff.1 h
  exact TransGen.head'_iff.2 ⟨w, ⟨e, he, eqv.trans hx hy, hw⟩, hr⟩

theorem transGen_congr_right (eqv : Equality same) (hz : same y z)
    (h : TransGen (Leads same edges) x y) : TransGen (Leads same edges) x z := by
  obtain ⟨w, hr, ⟨e, he, hw, hy⟩⟩ := TransGen.tail'_iff.1 h
  exact TransGen.tail'_iff.2 ⟨w, hr, ⟨e, he, hw, eqv.trans hy hz⟩⟩

theorem rank_append_lt {l r : List α} (h : ∃ y ∈ l, same x y) :
    rank same (l ++ r) x < l.length := by
  have hl := rank_lt h
  rw [rank] at hl ⊢
  rwa [findIdx_append, if_pos hl]

/-- In a topological order sources stand before targets. -/
theorem Ordered.rank_lt_rank (h : Ordered same edges order) (eqv : Equality same)
    (hxy : Leads same edges x y) : rank same order x < rank same order y := by
  obtain ⟨e, he, hx, hy⟩ := hxy
  obtain ⟨w, hw, hew⟩ := exists_rank (h.covers e he).2
  obtain ⟨hl, hg⟩ := List.getElem?_eq_some_iff.1 hw
  have hs : order =
      order.take (rank same order e.2) ++ w :: order.drop (rank same order e.2 + 1) := by
    rw [← hg, getElem_cons_drop, take_append_drop]
  have hb := rank_append_lt (r := w :: order.drop (rank same order e.2 + 1))
    (h.before e he _ w _ hs hew)
  rw [← hs, length_take_of_le hl.le] at hb
  rwa [rank_eq_of_same eqv order hx, ← rank_eq_of_same eqv order hy]

/-- Where there is a topological order, there is no circle. -/
theorem Ordered.not_cyclic (h : Ordered same edges order) (eqv : Equality same) :
    ¬ Cyclic same edges := by
  rintro ⟨x, hx⟩
  have hl : ∀ y, TransGen (Leads same edges) x y → rank same order x < rank same order y := by
    intro y hy
    induction hy with
    | single hy => exact h.rank_lt_rank eqv hy
    | tail _ hy ih => exact ih.trans (h.rank_lt_rank eqv hy)
  exact Nat.lt_irrefl _ (hl x hx)

/-- The nodes, by rank, from which edges lead to a given one. -/
def above (same : α → α → Bool) (edges : List (α × α)) (x : α) : Set Nat :=
  {k | ∃ y, (nodes same edges)[k]? = some y ∧ TransGen (Leads same edges) y x}

theorem finite_above (same : α → α → Bool) (edges : List (α × α)) (x : α) :
    (above same edges x).Finite := by
  refine (Set.finite_lt_nat (nodes same edges).length).subset ?_
  rintro k ⟨y, hy, -⟩
  exact (List.getElem?_eq_some_iff.1 hy).1

theorem above_eq_of_same (eqv : Equality same) (hx : same x y) :
    above same edges x = above same edges y := by
  have hi : ∀ z, TransGen (Leads same edges) z x ↔ TransGen (Leads same edges) z y := fun z =>
    ⟨transGen_congr_right eqv hx, transGen_congr_right eqv (eqv.symm hx)⟩
  simp only [above, hi]

/-- Without a circle, more nodes lead to the target of an edge than to its source: the source
is one of them. -/
theorem ncard_above_lt (eqv : Equality same) (ha : ¬ Cyclic same edges) {e : α × α}
    (he : e ∈ edges) : (above same edges e.1).ncard < (above same edges e.2).ncard := by
  obtain ⟨y, hy, hey⟩ := exists_rank (exists_nodes eqv he).1
  refine Set.ncard_lt_ncard ?_ (finite_above same edges e.2)
  refine Set.ssubset_iff_of_subset ?_ |>.2 ⟨rank same (nodes same edges) e.1, ?_, ?_⟩
  · rintro k ⟨z, hz, hp⟩
    exact ⟨z, hz, hp.tail (leads_of_mem eqv he)⟩
  · exact ⟨y, hy, transGen_congr_left eqv (eqv.symm hey) (.single (leads_of_mem eqv he))⟩
  · rintro ⟨z, hz, hp⟩
    obtain rfl := Option.some.inj (hy.symm.trans hz)
    exact ha ⟨y, transGen_congr_right eqv hey hp⟩

/-- Where there is no circle, there is a topological order. -/
theorem exists_sort_of_not_cyclic (eqv : Equality same) (ha : ¬ Cyclic same edges) :
    ∃ order, sort same edges = .ok order ∧ Ordered same edges order := by
  have hs : ∀ x y, same x y → (above same edges x).ncard = (above same edges y).ncard := by
    intro x y hx
    rw [above_eq_of_same eqv hx]
  exact exists_sort eqv hs fun e he => ncard_above_lt eqv ha he

/-! ## First appearances -/

/-- Where a node appears first in a list of edges, the source of an edge before its target. -/
def appearance (same : α → α → Bool) (edges : List (α × α)) (x : α) : Nat :=
  (edges.flatMap fun e => [e.1, e.2]).findIdx (same x)

theorem nodes_eq_foldl (same : α → α → Bool) (edges : List (α × α)) :
    nodes same edges = (edges.flatMap fun e => [e.1, e.2]).foldl (insert same) [] := by
  rw [foldl_flatMap]
  rfl

/-- Leaving out what appeared before keeps what is found, and the order in which it is. -/
theorem rank_foldl_insert (eqv : Equality same) (l : List α) :
    (∀ x, rank same (l.foldl (insert same) []) x < (l.foldl (insert same) []).length ↔
      rank same l x < l.length) ∧
    ∀ x y, rank same (l.foldl (insert same) []) x ≤ rank same (l.foldl (insert same) []) y →
      rank same l x ≤ rank same l y := by
  induction l using List.reverseRecOn with
  | nil => simp [rank]
  | append_singleton l z ih =>
    rw [foldl_append, foldl_cons]
    generalize l.foldl (insert same) [] = found at ih ⊢
    obtain ⟨hf, hm⟩ := ih
    have ha : ∀ (l : List α) x, rank same (l ++ [z]) x =
        if rank same l x < l.length then rank same l x
        else l.length + if same x z then 0 else 1 := by
      intro l x
      rw [rank, findIdx_append, findIdx_singleton, Nat.add_comm]
      rfl
    rw [insert]
    split
    · next ho =>
      -- A node that is the same as `z` was there before.
      have hz : ∀ x, same x z → rank same l x < l.length := by
        intro x hx
        obtain ⟨y, hy, hzy⟩ := any_eq_true.1 ho
        exact (hf x).1 (rank_lt ⟨y, hy, eqv.trans hx hzy⟩)
      constructor <;> grind
    · constructor <;> grind

theorem appearance_le (eqv : Equality same)
    (h : rank same (nodes same edges) x ≤ rank same (nodes same edges) y) :
    appearance same edges x ≤ appearance same edges y := by
  rw [nodes_eq_foldl] at h
  exact (rank_foldl_insert eqv _).2 x y h

def Occurs (same : α → α → Bool) (edges : List (α × α)) (x : α) : Prop :=
  ∃ e ∈ edges, same x e.1 = true ∨ same x e.2 = true

theorem Occurs.exists_nodes (eqv : Equality same) (h : Occurs same edges x) :
    ∃ y ∈ nodes same edges, same x y := by
  obtain ⟨e, he, hx | hx⟩ := h
  · obtain ⟨y, hy, hey⟩ := (Edges.exists_nodes eqv he).1
    exact ⟨y, hy, eqv.trans hx hey⟩
  · obtain ⟨y, hy, hey⟩ := (Edges.exists_nodes eqv he).2
    exact ⟨y, hy, eqv.trans hx hey⟩

theorem occurs_of_end (eqv : Equality same) (h : ∃ e ∈ edges, x = e.1 ∨ x = e.2) :
    Occurs same edges x := by
  obtain ⟨e, he, rfl | rfl⟩ := h
  · exact ⟨e, he, .inl (eqv.refl _)⟩
  · exact ⟨e, he, .inr (eqv.refl _)⟩

theorem Ordered.exists_mem (h : Ordered same edges order) (eqv : Equality same)
    (hx : Occurs same edges x) : ∃ y ∈ order, same x y := by
  obtain ⟨e, he, hxe | hxe⟩ := hx
  · obtain ⟨y, hy, hey⟩ := (h.covers e he).1
    exact ⟨y, hy, eqv.trans hxe hey⟩
  · obtain ⟨y, hy, hey⟩ := (h.covers e he).2
    exact ⟨y, hy, eqv.trans hxe hey⟩

theorem same_of_appearance_eq (eqv : Equality same) (hx : Occurs same edges x)
    (hy : Occurs same edges y) (h : appearance same edges x = appearance same edges y) :
    same x y := by
  have hf : ∀ {x}, Occurs same edges x → ∃ z ∈ edges.flatMap fun e => [e.1, e.2], same x z := by
    rintro x ⟨e, he, hx | hx⟩
    · exact ⟨e.1, mem_flatMap.2 ⟨e, he, by simp⟩, hx⟩
    · exact ⟨e.2, mem_flatMap.2 ⟨e, he, by simp⟩, hx⟩
  exact same_of_rank_eq eqv (hf hx) (hf hy) h

/-! ## Taking the first node -/

/-- A node that could come next after some others: it is none of them, and the sources of
all edges into it are. -/
structure Available (same : α → α → Bool) (edges : List (α × α)) (placed : List α) (x : α) :
    Prop where
  occurs : Occurs same edges x
  left : ∀ y ∈ placed, same x y = false
  sources : ∀ e ∈ edges, same e.2 x = true → ∃ y ∈ placed, same e.1 y = true

/-- An order that always takes the first node of those that could come next. -/
def Foremost (same : α → α → Bool) (edges : List (α × α)) (order : List α) : Prop :=
  ∀ l x r, order = l ++ x :: r → ∀ y, Available same edges l y →
    appearance same edges x ≤ appearance same edges y

/-- In a topological order every node could come next when it comes. -/
theorem Ordered.available (h : Ordered same edges order) (eqv : Equality same) {l r : List α}
    (hs : order = l ++ x :: r) : Available same edges l x where
  occurs := occurs_of_end eqv (h.known x (by simp [hs]))
  left := by
    intro y hy
    have hd := h.distinct
    rw [Distinct, hs, pairwise_append] at hd
    rw [Bool.eq_false_iff]
    intro hxy
    have hx := hd.2.2 y hy x mem_cons_self
    rw [eqv.symm hxy] at hx
    cases hx
  sources := fun e he hex => h.before e he l x r hs hex

/-- What could come next does not depend on which of several nodes that are the same have been
placed. -/
theorem Available.congr {placed placed' : List α} (h : Available same edges placed x)
    (eqv : Equality same) (ht : ∀ y ∈ placed, ∃ z ∈ placed', same y z)
    (hf : ∀ z ∈ placed', ∃ y ∈ placed, same z y) : Available same edges placed' x where
  occurs := h.occurs
  left := by
    intro z hz
    obtain ⟨y, hy, hzy⟩ := hf z hz
    rw [Bool.eq_false_iff]
    intro hxz
    have hx := h.left y hy
    rw [eqv.trans hxz hzy] at hx
    cases hx
  sources := by
    intro e he hex
    obtain ⟨y, hy, hey⟩ := h.sources e he hex
    obtain ⟨z, hz, hyz⟩ := ht y hy
    exact ⟨z, hz, eqv.trans hey hyz⟩

/-- Who always takes the first node is smallest: where another topological order differs
for the first time, it takes a node that could come next, and so a later one. -/
theorem Foremost.lex (ht : Foremost same edges order) (eqv : Equality same)
    (h : Ordered same edges order) (h' : Ordered same edges other) :
    order.map (appearance same edges) = other.map (appearance same edges) ∨
      Lex (· < ·) (order.map (appearance same edges)) (other.map (appearance same edges)) := by
  have hrs : ∀ r r' l l', order = l ++ r → other = l' ++ r' →
      (∀ y ∈ l, ∃ z ∈ l', same y z) → (∀ z ∈ l', ∃ y ∈ l, same z y) →
      r.map (appearance same edges) = r'.map (appearance same edges) ∨
        Lex (· < ·) (r.map (appearance same edges)) (r'.map (appearance same edges)) := by
    intro r
    induction r with
    | nil =>
      rintro (_ | ⟨y, r'⟩) _ _ _ _ _ _
      · exact .inl rfl
      · exact .inr .nil
    | cons x r ih =>
      intro r' l l' hs hs' ho hr
      have hx := h.available eqv hs
      cases r' with
      | nil =>
        -- All nodes of the other order have been placed, and `x` is one of them.
        obtain ⟨z, hz, hxz⟩ := h'.exists_mem eqv hx.occurs
        rw [hs', append_nil] at hz
        have hf := (hx.congr eqv ho hr).left z hz
        rw [hxz] at hf
        cases hf
      | cons y r' =>
        have hy := h'.available eqv hs'
        have hl := ht l x r hs y (hy.congr eqv hr ho)
        rw [map_cons]
        obtain hlt | heq := Nat.lt_or_eq_of_le hl
        · exact .inr (.rel hlt)
        have hxy := same_of_appearance_eq eqv hx.occurs hy.occurs heq
        rw [heq]
        refine Or.imp (congrArg _) .cons (ih r' (l ++ [x]) (l' ++ [y]) (by simp [hs])
          (by simp [hs']) ?_ ?_)
        · simp only [mem_append, mem_singleton]
          rintro z (hz | rfl)
          · obtain ⟨w, hw, hzw⟩ := ho z hz
            exact ⟨w, .inl hw, hzw⟩
          · exact ⟨y, .inr rfl, hxy⟩
        · simp only [mem_append, mem_singleton]
          rintro z (hz | rfl)
          · obtain ⟨w, hw, hzw⟩ := hr z hz
            exact ⟨w, .inl hw, hzw⟩
          · exact ⟨x, .inr rfl, eqv.symm hxy⟩
  exact hrs order other [] [] rfl rfl (by simp) (by simp)

/-! ## Placing takes the first node -/

section Placing

variable {E : List (Ranked α)} {n : Nat} {rankOf : α → Nat} {Known : α → Prop} {p : Placement α}

/-- Nodes that were placed, last one first, each of the least rank that could come next. -/
def Least (E : List (Ranked α)) (n : Nat) (rankOf : α → Nat) (placed : List α) : Prop :=
  ∀ l x r, placed = l ++ x :: r → ∀ k < n, k ∉ r.map rankOf →
    (∀ e ∈ E, e.target = k → e.source ∈ r.map rankOf) → rankOf x ≤ k

/-- Nothing is left into a node that could come next, so it is ready, and the first of the ready
nodes has the least rank. -/
theorem Placing.least (h : Placing E n rankOf Known [] p)
    (hs : p.ready.Pairwise fun a b => a.1 ≤ b.1) (he : Least E n rankOf p.placed)
    {k : Nat} {x : α} {rest : List (Nat × α)} (hr : p.ready = (k, x) :: rest) :
    Least E n rankOf (x :: p.placed) := by
  intro l y r hp j hj hl ho
  rcases l with _ | ⟨z, l⟩
  · obtain ⟨rfl, rfl⟩ : x = y ∧ p.placed = r := by simpa using hp
    have hm : p.missing.getD j 0 = 0 := by
      rw [h.missing j hj, waiting_eq_zero.2 ho]
      rfl
    have hmem := ((mem_append.1 ((h.settled j hj).1 hm)).resolve_right hl)
    obtain ⟨q, hq, rfl⟩ := mem_map.1 hmem
    rw [(h.ready (k, x) (by simp [hr])).1]
    rw [hr] at hq hs
    obtain rfl | hq := mem_cons.1 hq
    · exact Nat.le_refl _
    · exact (pairwise_cons.1 hs).1 q hq
  · obtain ⟨rfl, hrs⟩ : x = z ∧ p.placed = l ++ y :: r := by simpa using hp
    exact he l y r hrs j hj hl ho

theorem byRank_sorted (ready : List (Nat × α)) : (byRank ready).Pairwise fun a b => a.1 ≤ b.1 := by
  have h : (byRank ready).Pairwise fun a b => decide (a.1 ≤ b.1) := by
    refine pairwise_mergeSort ?_ ?_ ready
    · simp only [decide_eq_true_eq]
      omega
    · simp only [Bool.or_eq_true, decide_eq_true_eq]
      omega
  simpa using h

/-- Placing takes the first node, step after step. -/
theorem least_place (hE : Fits E n rankOf Known) {outgoing : Nat → List (Ranked α)}
    (ho : ∀ k < n, outgoing k = E.filter (·.source == k)) (steps : Nat)
    (h : Placing E n rankOf Known [] p) (hs : p.ready.Pairwise fun a b => a.1 ≤ b.1)
    (hl : Least E n rankOf p.placed) : Least E n rankOf (place outgoing steps p).placed := by
  induction steps generalizing p with
  | zero => exact hl
  | succ steps ih =>
    cases hr : p.ready with
    | nil =>
      rw [place, hr]
      exact hl
    | cons q rest =>
      rw [place_succ steps hr]
      refine ih (h.next hE ho hr) (byRank_sorted _) ?_
      rw [placed_next]
      exact h.least hs hl hr

end Placing

theorem foremost_of_least (eqv : Equality same) {placed : List α}
    (hk : ∀ x ∈ placed, ∃ e ∈ edges, x = e.1 ∨ x = e.2)
    (h : Least (ranked same (nodes same edges) edges) (nodes same edges).length
      (rank same (nodes same edges)) placed) : Foremost same edges placed.reverse := by
  intro l x r hs y hy
  have hp : placed = r.reverse ++ x :: l.reverse := by
    rw [← reverse_reverse placed, hs]
    simp
  have hf := hy.occurs.exists_nodes eqv
  refine appearance_le eqv (h _ x _ hp _ (rank_lt hf) ?_ ?_)
  · rw [map_reverse, mem_reverse, mem_map]
    rintro ⟨z, hz, hr⟩
    have hz' := occurs_of_end eqv (hk z (by simp [hp, hz]))
    have hyz := same_of_rank_eq eqv hf (hz'.exists_nodes eqv) hr.symm
    rw [hy.left z hz] at hyz
    cases hyz
  · intro e he ht
    obtain ⟨⟨u, v⟩, hu, rfl⟩ := mem_map.1 he
    have hv := same_of_rank_eq eqv (exists_nodes eqv hu).2 hf ht
    obtain ⟨z, hz, huz⟩ := hy.sources (u, v) hu hv
    rw [map_reverse, mem_reverse]
    exact mem_map.2 ⟨z, hz, (rank_eq_of_same eqv _ huz).symm⟩

/-- What a sort comes to: a topological order that always takes the first node, or the
report of a circle. -/
theorem sort_cases (eqv : Equality same) (edges : List (α × α)) :
    (∃ order, sort same edges = .ok order ∧ Ordered same edges order ∧ Foremost same edges order) ∨
      sort same edges = .error (.rejected .cyclic) := by
  have hE := fits_ranked eqv edges
  obtain ⟨outgoing, start, ho, ht, hn, hs, hsr⟩ := exists_run eqv edges
  obtain ⟨hr, -⟩ := ht.place hE ho (nodes same edges).length
  have hl := least_place hE ho (nodes same edges).length ht hs (by simp [hn, Least])
  rw [hsr]
  dsimp only
  split
  · next he =>
    exact .inl ⟨_, rfl, ordered_of_placing eqv hr he,
      foremost_of_least eqv (fun x hx => (hr.placed x hx).2) hl⟩
  · exact .inr rfl

/-- **The stable order.** A sort fails if and only if the edges run in a circle. Otherwise it
gives a topological order, and no topological order is smaller if nodes are compared by where
they appear first. -/
theorem sort_stable (eqv : Equality same) (edges : List (α × α)) :
    (sort same edges = .error (.rejected .cyclic) ↔ Cyclic same edges) ∧
      (¬ Cyclic same edges → ∃ order, sort same edges = .ok order ∧ Ordered same edges order ∧
        ∀ other, Ordered same edges other →
          order.map (appearance same edges) = other.map (appearance same edges) ∨
            List.Lex (· < ·) (order.map (appearance same edges))
              (other.map (appearance same edges))) := by
  obtain ⟨order, hs, ho, hf⟩ | he := sort_cases eqv edges
  · have ha := ho.not_cyclic eqv
    refine ⟨⟨fun h => ?_, fun h => absurd h ha⟩, fun _ =>
      ⟨order, hs, ho, fun other ht => hf.lex eqv ho ht⟩⟩
    rw [hs] at h
    cases h
  · have hc : Cyclic same edges := by
      by_contra ha
      obtain ⟨order, hs, -⟩ := exists_sort_of_not_cyclic eqv ha
      rw [he] at hs
      cases hs
    exact ⟨⟨fun _ => hc, fun _ => he⟩, fun h => absurd hc h⟩

def lastDigit (a b : Nat) : Bool := a % 10 == b % 10

theorem equality_lastDigit : Equality lastDigit := by
  refine ⟨fun x => beq_self_eq_true _, fun h => ?_, fun h h' => ?_⟩
  · exact beq_iff_eq.2 (beq_iff_eq.1 h).symm
  · exact beq_iff_eq.2 ((beq_iff_eq.1 h).trans (beq_iff_eq.1 h'))

/-- Two ways lead from 3 to 1, and both 2 and 1 lead to 0. -/
def repeatedEdges : List (Nat × Nat) := [(3, 1), (12, 11), (13, 21), (1, 10), (2, 30)]

theorem repeatedEdges_stable :
    Equality lastDigit ∧ sort lastDigit repeatedEdges = .ok [3, 12, 11, 10] ∧
      (∀ other, Ordered lastDigit repeatedEdges other →
        [0, 2, 1, 7] = other.map (appearance lastDigit repeatedEdges) ∨
          List.Lex (· < ·) [0, 2, 1, 7] (other.map (appearance lastDigit repeatedEdges))) ∧
      Cyclic lastDigit [(0, 1), (11, 2), (22, 10)] := by
  have hs : sort lastDigit repeatedEdges = .ok [3, 12, 11, 10] := by with_unfolding_all rfl
  have hi : sort lastDigit [(0, 1), (11, 2), (22, 10)] = .error (.rejected .cyclic) := by
    with_unfolding_all rfl
  obtain ⟨hc, ht⟩ := sort_stable equality_lastDigit repeatedEdges
  obtain ⟨order, ho, -, hf⟩ := ht fun h => by
    rw [hs] at hc
    cases hc.2 h
  rw [hs] at ho
  cases ho
  exact ⟨equality_lastDigit, hs, hf, (sort_stable equality_lastDigit _).1.1 hi⟩

end Edges

end Patchwork
