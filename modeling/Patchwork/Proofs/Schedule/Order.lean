import Patchwork.Schedule.Order
import Mathlib.Data.List.Basic
import Mathlib.Data.List.Nodup
import Mathlib.Data.List.Perm.Subperm

/-!
# The stable topological order is one

A node is placed when the last edge into it has been released. The number of edges left
into a node is the number of edges whose source has not been placed, and that is the
invariant behind everything else: a node is ready or placed exactly if no edge is left
into it. So sources stand before targets, and if nothing is ready while a node is left,
then some edge into that node comes from another one that is left; without a cycle this
does not go on, and all nodes are placed.
-/

namespace Patchwork

open Array List

namespace Edges

variable {α : Type} {same : α → α → Bool} {found : List α} {x y : α}

/-- A test that tells nodes apart as an equivalence does. -/
structure Equality (same : α → α → Bool) : Prop where
  refl : ∀ x, same x x = true
  symm : ∀ {x y}, same x y = true → same y x = true
  trans : ∀ {x y z}, same x y = true → same y z = true → same x z = true

/-! ## Nodes in order of first appearance -/

def Distinct (same : α → α → Bool) (l : List α) : Prop := l.Pairwise fun x y => same x y = false

theorem Distinct.eq_of_same (eqv : Equality same) (h : Distinct same found) (hx : x ∈ found)
    (hy : y ∈ found) (hs : same x y) : x = y := by
  induction found with
  | nil => cases hx
  | cons z rest ih =>
    obtain ⟨hz, hr⟩ := pairwise_cons.1 h
    obtain rfl | hx' := mem_cons.1 hx
    · obtain rfl | hy' := mem_cons.1 hy
      · rfl
      · rw [hz y hy'] at hs
        cases hs
    · obtain rfl | hy' := mem_cons.1 hy
      · have hf := hz x hx'
        rw [eqv.symm hs] at hf
        cases hf
      · exact ih hr hx' hy'

theorem distinct_insert (eqv : Equality same) (h : Distinct same found) (x : α) :
    Distinct same (insert same found x) := by
  rw [insert]
  split
  · exact h
  · rename_i hn
    refine pairwise_append.2 ⟨h, List.pairwise_singleton _ _, ?_⟩
    intro y hy z hz
    obtain rfl := mem_singleton.1 hz
    rw [Bool.eq_false_iff]
    exact fun hs => hn (any_eq_true.2 ⟨y, hy, eqv.symm hs⟩)

theorem mem_insert_of_mem (h : y ∈ found) : y ∈ insert same found x := by
  rw [insert]
  split
  · exact h
  · exact mem_append_left _ h

theorem any_insert (eqv : Equality same) (found : List α) (x : α) :
    ∃ y ∈ insert same found x, same x y := by
  rw [insert]
  split
  · rename_i h
    exact any_eq_true.1 h
  · exact ⟨x, by simp, eqv.refl x⟩

theorem eq_or_mem_of_mem_insert (h : y ∈ insert same found x) : y ∈ found ∨ y = x := by
  rw [insert] at h
  split at h
  · exact .inl h
  · simpa using h

theorem nodes_fold (eqv : Equality same) (edges : List (α × α)) (found : List α)
    (h : Distinct same found) :
    let all := edges.foldl (fun found (u, v) => insert same (insert same found u) v) found
    Distinct same all ∧ (∀ y ∈ found, y ∈ all) ∧
      (∀ e ∈ edges, (∃ y ∈ all, same e.1 y) ∧ ∃ y ∈ all, same e.2 y) ∧
      ∀ y ∈ all, y ∈ found ∨ ∃ e ∈ edges, y = e.1 ∨ y = e.2 := by
  induction edges generalizing found with
  | nil => exact ⟨h, fun _ => id, by simp, fun _ => .inl⟩
  | cons e rest ih =>
    obtain ⟨u, v⟩ := e
    have ht := distinct_insert eqv (distinct_insert eqv h u) v
    obtain ⟨hd, hk, hc, hn⟩ := ih _ ht
    refine ⟨hd, fun y hy => hk y (mem_insert_of_mem (mem_insert_of_mem hy)), ?_, ?_⟩
    · refine forall_mem_cons.2 ⟨⟨?_, ?_⟩, hc⟩
      · obtain ⟨y, hy, hs⟩ := any_insert eqv found u
        exact ⟨y, hk y (mem_insert_of_mem hy), hs⟩
      · obtain ⟨y, hy, hs⟩ := any_insert eqv (insert same found u) v
        exact ⟨y, hk y hy, hs⟩
    · intro y hy
      obtain hy | ⟨e, he, hye⟩ := hn y hy
      · obtain hy | rfl := eq_or_mem_of_mem_insert hy
        · obtain hy | rfl := eq_or_mem_of_mem_insert hy
          · exact .inl hy
          · exact .inr ⟨_, mem_cons_self, .inl rfl⟩
        · exact .inr ⟨_, mem_cons_self, .inr rfl⟩
      · exact .inr ⟨e, mem_cons_of_mem _ he, hye⟩

theorem distinct_nodes (eqv : Equality same) (edges : List (α × α)) :
    Distinct same (nodes same edges) := (nodes_fold eqv edges [] .nil).1

theorem exists_nodes (eqv : Equality same) {edges : List (α × α)} {e : α × α} (he : e ∈ edges) :
    (∃ y ∈ nodes same edges, same e.1 y) ∧ ∃ y ∈ nodes same edges, same e.2 y :=
  (nodes_fold eqv edges [] .nil).2.2.1 e he

theorem mem_nodes (eqv : Equality same) {edges : List (α × α)} (h : y ∈ nodes same edges) :
    ∃ e ∈ edges, y = e.1 ∨ y = e.2 := by
  simpa using (nodes_fold eqv edges [] .nil).2.2.2 y h

/-! ## Ranks -/

theorem rank_lt (h : ∃ y ∈ found, same x y) : rank same found x < found.length :=
  findIdx_lt_length.2 h

theorem exists_rank (h : ∃ y ∈ found, same x y) :
    ∃ y, found[rank same found x]? = some y ∧ same x y :=
  ⟨_, getElem?_eq_getElem (rank_lt h), findIdx_getElem⟩

theorem rank_eq_of_same (eqv : Equality same) (found : List α) (h : same x y) :
    rank same found x = rank same found y := by
  have hs : same x = same y := by
    funext z
    rw [Bool.eq_iff_iff]
    exact ⟨eqv.trans (eqv.symm h), eqv.trans h⟩
  rw [rank, rank, hs]

theorem same_of_rank_eq (eqv : Equality same) (hx : ∃ z ∈ found, same x z)
    (hy : ∃ z ∈ found, same y z) (h : rank same found x = rank same found y) : same x y := by
  obtain ⟨z, hz, hxz⟩ := exists_rank hx
  obtain ⟨z', hz', hyz⟩ := exists_rank hy
  rw [h, hz', Option.some.injEq] at hz
  exact eqv.trans hxz (eqv.symm (hz ▸ hyz))

/-- In a list of distinct nodes, a node's rank is its position. -/
theorem rank_of_getElem? (eqv : Equality same) (hd : Distinct same found) {k : Nat}
    (h : found[k]? = some x) : rank same found x = k := by
  have hx : ∃ y ∈ found, same x y := ⟨x, List.mem_of_getElem? h, eqv.refl x⟩
  obtain ⟨y, hy, hxy⟩ := exists_rank hx
  obtain ⟨hk, hkx⟩ := List.getElem?_eq_some_iff.1 h
  obtain ⟨hr, hry⟩ := List.getElem?_eq_some_iff.1 hy
  have hp := List.pairwise_iff_getElem.1 hd
  rcases Nat.lt_trichotomy (rank same found x) k with hl | heq | hgt
  · have := hp _ _ hr hk hl
    rw [hry, hkx, eqv.symm hxy] at this
    cases this
  · exact heq
  · have := hp _ _ hk hr hgt
    rw [hkx, hry, hxy] at this
    cases this

/-! ## Counts and groups -/

theorem size_count (edges : List (Ranked α)) (counts : Array Nat) :
    (edges.foldl (fun c e => c.modify e.target (· + 1)) counts).size = counts.size := by
  induction edges generalizing counts with
  | nil => rfl
  | cons e rest ih => rw [foldl_cons, ih, size_modify]

theorem getD_count (edges : List (Ranked α)) (counts : Array Nat) {k : Nat} (hk : k < counts.size) :
    (edges.foldl (fun c e => c.modify e.target (· + 1)) counts).getD k 0 =
      counts.getD k 0 + indegree edges k := by
  induction edges generalizing counts with
  | nil => simp [indegree]
  | cons e rest ih =>
    rw [foldl_cons, ih _ (by simpa using hk), indegree, indegree]
    by_cases ht : e.target = k
    · subst ht
      simp [Array.getD, hk, getElem_modify_self]
      omega
    · simp [Array.getD, hk, getElem_modify_of_ne ht, ht]

theorem size_grouped (count : Nat) (edges : List (Ranked α)) :
    (grouped count edges).size = count := by
  induction edges with
  | nil => simp [grouped]
  | cons e rest ih =>
    rw [grouped, foldr_cons, size_modify]
    exact ih

theorem getD_grouped {count : Nat} (edges : List (Ranked α)) {k : Nat} (hk : k < count) :
    (grouped count edges).getD k [] = edges.filter (·.source == k) := by
  induction edges with
  | nil => simp [grouped, Array.getD]
  | cons e rest ih =>
    have hz := size_grouped count rest
    have ht : grouped count (e :: rest) = (grouped count rest).modify e.source (e :: ·) := rfl
    rw [ht, filter_cons, ← ih]
    by_cases hs : e.source = k
    · subst hs
      simp [Array.getD, hz, hk, getElem_modify_self]
    · simp [Array.getD, hz, hk, getElem_modify_of_ne hs, hs]

/-! ## Placing nodes -/

section Placing

variable {E due : List (Ranked α)} {n : Nat} {rankOf : α → Nat} {Known : α → Prop}
  {p : Placement α} {e : Ranked α}

/-- The number of edges into a node from sources that are not yet done. -/
def waiting (E : List (Ranked α)) (done : List Nat) (k : Nat) : Nat :=
  E.countP fun e => e.target == k && !done.contains e.source

theorem waiting_cons {done : List Nat} {k : Nat} (hk : k ∉ done) (j : Nat) :
    waiting E done j = waiting E (k :: done) j + indegree (E.filter (·.source == k)) j := by
  induction E with
  | nil => rfl
  | cons e rest ih =>
    simp only [waiting, indegree, countP_cons, filter_cons] at ih ⊢
    rw [ih]
    by_cases hs : e.source = k
    · subst hs
      by_cases ht : e.target = j <;> simp [hk, ht]
      omega
    · by_cases ht : e.target = j <;> by_cases hd : e.source ∈ done <;>
        simp [hs, ht, hd]
      omega

theorem waiting_eq_zero {done : List Nat} {k : Nat} :
    waiting E done k = 0 ↔ ∀ e ∈ E, e.target = k → e.source ∈ done := by
  simp [waiting, List.countP_eq_zero]

/-- Edges by rank below a bound, each leading to a known node of its rank. -/
structure Fits (E : List (Ranked α)) (n : Nat) (rankOf : α → Nat) (Known : α → Prop) : Prop where
  source_lt : ∀ e ∈ E, e.source < n
  target_lt : ∀ e ∈ E, e.target < n
  rank_node : ∀ e ∈ E, rankOf e.node = e.target
  known : ∀ e ∈ E, Known e.node

/-- The invariant of placing nodes, while the edges `due` out of the node placed last
have still to be released. -/
structure Placing (E : List (Ranked α)) (n : Nat) (rankOf : α → Nat) (Known : α → Prop)
    (due : List (Ranked α)) (p : Placement α) : Prop where
  size : p.missing.size = n
  ready : ∀ q ∈ p.ready, rankOf q.2 = q.1 ∧ q.1 < n ∧ Known q.2
  placed : ∀ x ∈ p.placed, rankOf x < n ∧ Known x
  nodup : (p.ready.map Prod.fst ++ p.placed.map rankOf).Nodup
  missing : ∀ k < n, p.missing.getD k 0 = waiting E (p.placed.map rankOf) k + indegree due k
  settled : ∀ k < n,
    p.missing.getD k 0 = 0 ↔ k ∈ p.ready.map Prod.fst ++ p.placed.map rankOf
  closed : ∀ l x r, p.placed = l ++ x :: r → ∀ e ∈ E, e.target = rankOf x →
    e.source ∈ r.map rankOf

theorem getD_setIfInBounds (counts : Array Nat) {t : Nat} (ht : t < counts.size) (k v : Nat) :
    (counts.setIfInBounds t v).getD k 0 = if t = k then v else counts.getD k 0 := by
  by_cases hk : k < counts.size
  · simp [Array.getD, hk, getElem_setIfInBounds]
  · have hn : t ≠ k := fun h => hk (h ▸ ht)
    simp [Array.getD, hk, hn]

theorem Placing.release (h : Placing E n rankOf Known (e :: due) p) (hE : Fits E n rankOf Known)
    (he : e ∈ E) : Placing E n rankOf Known due (p.release e) := by
  have ht := hE.target_lt e he
  have hd : ∀ k, indegree (e :: due) k = indegree due k + if e.target = k then 1 else 0 := by
    intro k
    simp [indegree, countP_cons]
  have hpos : p.missing.getD e.target 0 ≠ 0 := by
    rw [h.missing _ ht, hd]
    simp
  have hn : e.target ∉ p.ready.map Prod.fst ++ p.placed.map rankOf :=
    fun hm => hpos ((h.settled _ ht).2 hm)
  have hs := getD_setIfInBounds p.missing (h.size ▸ ht : e.target < p.missing.size)
  have hi : ∀ k < n, (p.missing.setIfInBounds e.target (p.missing.getD e.target 0 - 1)).getD k 0 =
        waiting E (p.placed.map rankOf) k + indegree due k := by
    intro k hk
    have ho := h.missing k hk
    rw [hd] at ho
    rw [hs]
    split
    · rename_i heq
      subst heq
      simp only [if_true] at ho
      omega
    · rename_i hne
      simpa [hne] using ho
  rw [Placement.release]
  split
  · rename_i hz
    refine ⟨by simpa using h.size, ?_, h.placed, ?_, hi, ?_, h.closed⟩
    · intro q hq
      obtain hq | hq := mem_append.1 hq
      · exact h.ready q hq
      · obtain rfl := mem_singleton.1 hq
        exact ⟨hE.rank_node e he, ht, hE.known e he⟩
    · have hp : ((p.ready ++ [(e.target, e.node)]).map Prod.fst ++ p.placed.map rankOf).Perm
          (e.target :: (p.ready.map Prod.fst ++ p.placed.map rankOf)) := by
        rw [List.map_append, List.append_assoc]
        exact perm_middle
      exact hp.nodup_iff.2 (nodup_cons.2 ⟨hn, h.nodup⟩)
    · intro k hk
      rw [hs]
      split
      · rename_i heq
        subst heq
        exact ⟨fun _ => by simp, fun _ => hz⟩
      · rename_i hne
        rw [h.settled k hk]
        simp [List.mem_append, Ne.symm hne]
  · rename_i hz
    refine ⟨by simpa using h.size, h.ready, h.placed, h.nodup, hi, ?_, h.closed⟩
    intro k hk
    rw [hs]
    split
    · rename_i heq
      subst heq
      exact ⟨fun h0 => absurd h0 hz, fun hm => absurd hm hn⟩
    · exact h.settled k hk

theorem placed_release (p : Placement α) (e : Ranked α) : (p.release e).placed = p.placed := by
  rw [Placement.release]
  split <;> rfl

theorem placed_releaseAll (due : List (Ranked α)) (p : Placement α) :
    (due.foldl Placement.release p).placed = p.placed := by
  induction due generalizing p with
  | nil => rfl
  | cons e rest ih => rw [foldl_cons, ih, placed_release]

theorem Placing.releaseAll (hE : Fits E n rankOf Known) (hd : ∀ e ∈ due, e ∈ E)
    (h : Placing E n rankOf Known due p) :
    Placing E n rankOf Known [] (due.foldl Placement.release p) := by
  induction due generalizing p with
  | nil => exact h
  | cons e rest ih =>
    obtain ⟨he, hr⟩ := forall_mem_cons.1 hd
    exact ih hr (h.release hE he)

theorem Placing.take (h : Placing E n rankOf Known [] p) {k : Nat} {x : α}
    {rest : List (Nat × α)} (hr : p.ready = (k, x) :: rest) :
    Placing E n rankOf Known (E.filter (·.source == k))
      { p with ready := rest, placed := x :: p.placed } := by
  obtain ⟨hk, hl, hn⟩ := h.ready (k, x) (by simp [hr])
  dsimp only at hk hl hn
  have hs : ∀ j, j ∈ p.ready.map Prod.fst ++ p.placed.map rankOf ↔
      j ∈ rest.map Prod.fst ++ (x :: p.placed).map rankOf := by
    intro j
    simp only [hr, map_cons, cons_append, mem_cons, List.mem_append, hk]
    tauto
  have hd := h.nodup
  rw [hr, map_cons, cons_append] at hd
  have hf : k ∉ p.placed.map rankOf := fun hm =>
    (nodup_cons.1 hd).1 (List.mem_append_right _ hm)
  -- Nothing is left into a node that is ready, so all its sources have been placed.
  have ho : ∀ e ∈ E, e.target = k → e.source ∈ p.placed.map rankOf := by
    have h0 := (h.settled k hl).2 (by simp [hr])
    rw [h.missing k hl] at h0
    exact waiting_eq_zero.1 (Nat.add_eq_zero_iff.1 h0).1
  refine ⟨h.size, ?_, ?_, ?_, ?_, ?_, ?_⟩
  · exact fun q hq => h.ready q (by simp [hr, hq])
  · exact forall_mem_cons.2 ⟨⟨hk ▸ hl, hn⟩, h.placed⟩
  · rw [map_cons, hk]
    exact perm_middle.nodup_iff.2 hd
  · intro j hj
    rw [h.missing j hj, map_cons, hk, waiting_cons hf]
    simp [indegree]
  · exact fun j hj => (h.settled j hj).trans (hs j)
  · intro l y r hp e he ht
    rcases l with _ | ⟨z, l⟩
    · obtain ⟨rfl, rfl⟩ : x = y ∧ p.placed = r := by simpa using hp
      exact ho e he (ht.trans hk)
    · obtain ⟨rfl, hrs⟩ : x = z ∧ p.placed = l ++ y :: r := by simpa using hp
      exact h.closed l y r hrs e he ht

theorem Placing.byRank (h : Placing E n rankOf Known due p) :
    Placing E n rankOf Known due { p with ready := byRank p.ready } := by
  have hp : (Edges.byRank p.ready).Perm p.ready := mergeSort_perm _ _
  have ha := (hp.map Prod.fst).append_right (p.placed.map rankOf)
  exact ⟨h.size, fun q hq => h.ready q (hp.mem_iff.1 hq), h.placed, ha.nodup_iff.2 h.nodup,
    h.missing, fun k hk => (h.settled k hk).trans ha.mem_iff.symm, h.closed⟩

/-- The placement after a ready node has been placed. -/
def Placement.next (outgoing : Nat → List (Ranked α)) (p : Placement α) (k : Nat) (x : α)
    (rest : List (Nat × α)) : Placement α :=
  let p := (outgoing k).foldl Placement.release { p with ready := rest, placed := x :: p.placed }
  { p with ready := Edges.byRank p.ready }

section Run

variable {outgoing : Nat → List (Ranked α)} {k : Nat} {x : α} {rest : List (Nat × α)}

theorem place_succ (steps : Nat) (hr : p.ready = (k, x) :: rest) :
    place outgoing (steps + 1) p = place outgoing steps (p.next outgoing k x rest) := by
  rw [Edges.place, hr]
  rfl

@[simp] theorem placed_next : (p.next outgoing k x rest).placed = x :: p.placed :=
  placed_releaseAll _ _

theorem Placing.next (hE : Fits E n rankOf Known)
    (ho : ∀ k < n, outgoing k = E.filter (·.source == k))
    (h : Placing E n rankOf Known [] p) (hr : p.ready = (k, x) :: rest) :
    Placing E n rankOf Known [] (p.next outgoing k x rest) := by
  have hk : k < n := (h.ready (k, x) (by simp [hr])).2.1
  have hd : ∀ e ∈ outgoing k, e ∈ E := by
    rw [ho k hk]
    exact fun e => mem_of_mem_filter
  exact ((ho k hk ▸ h.take hr).releaseAll hE hd).byRank

/-- Placing keeps the invariant, and goes on until nothing is ready or the steps are
used up. -/
theorem Placing.place (hE : Fits E n rankOf Known)
    (ho : ∀ k < n, outgoing k = E.filter (·.source == k)) (steps : Nat)
    (h : Placing E n rankOf Known [] p) :
    Placing E n rankOf Known [] (place outgoing steps p) ∧ ((place outgoing steps p).ready = [] ∨
        (place outgoing steps p).placed.length = p.placed.length + steps) := by
  induction steps generalizing p with
  | zero => exact ⟨h, .inr rfl⟩
  | succ steps ih =>
    cases hr : p.ready with
    | nil =>
      rw [Edges.place, hr]
      exact ⟨h, .inl hr⟩
    | cons q rest =>
      obtain ⟨hu, he⟩ := ih (h.next hE ho hr)
      rw [place_succ steps hr]
      refine ⟨hu, he.imp_right fun hl => hl.trans ?_⟩
      rw [placed_next, length_cons]
      omega

end Run

/-- Without a cycle, nothing is left when nothing is ready. -/
theorem Placing.length_placed (h : Placing E n rankOf Known [] p) (hr : p.ready = [])
    (hE : Fits E n rankOf Known) (age : Nat → Nat) (ha : ∀ e ∈ E, age e.source < age e.target) :
    p.placed.length = n := by
  -- A node that is left waits for an older one that is left as well.
  have hall : ∀ m k, age k = m → k < n → k ∈ p.placed.map rankOf := by
    intro m
    induction m using Nat.strongRecOn with
    | _ m ih =>
      rintro k rfl hk
      by_contra hl
      have hw : waiting E (p.placed.map rankOf) k ≠ 0 := by
        intro h0
        have hm := h.missing k hk
        rw [h0] at hm
        have hmem := (h.settled k hk).1 hm
        rw [hr] at hmem
        exact hl (by simpa using hmem)
      refine hw (waiting_eq_zero.2 fun e he ht => ?_)
      exact ih _ (ht ▸ ha e he) e.source rfl (hE.source_lt e he)
  have hn : (p.placed.map rankOf).Nodup := (nodup_append.1 h.nodup).2.1
  have hp : (p.placed.map rankOf).Perm (range n) := by
    refine (perm_ext_iff_of_nodup hn nodup_range).2 fun k => ?_
    rw [List.mem_range]
    refine ⟨fun hk => ?_, fun hk => hall _ k rfl hk⟩
    obtain ⟨x, hx, rfl⟩ := List.mem_map.1 hk
    exact (h.placed x hx).1
  simpa using hp.length_eq

end Placing

/-! ## The order -/

/-- A topological order of some edges, up to the test by which nodes are told apart. -/
structure Ordered (same : α → α → Bool) (edges : List (α × α)) (order : List α) : Prop where
  known : ∀ x ∈ order, ∃ e ∈ edges, x = e.1 ∨ x = e.2
  covers : ∀ e ∈ edges, (∃ x ∈ order, same e.1 x = true) ∧ ∃ x ∈ order, same e.2 x = true
  distinct : Distinct same order
  before : ∀ e ∈ edges, ∀ l x r, order = l ++ x :: r → same e.2 x = true →
    ∃ y ∈ l, same e.1 y = true

theorem fits_ranked (eqv : Equality same) (edges : List (α × α)) :
    Fits (ranked same (nodes same edges) edges) (nodes same edges).length
      (rank same (nodes same edges)) (fun x => ∃ e ∈ edges, x = e.1 ∨ x = e.2) := by
  constructor <;> intro e he <;> obtain ⟨⟨u, v⟩, hu, rfl⟩ := mem_map.1 he
  · exact rank_lt (exists_nodes eqv hu).1
  · exact rank_lt (exists_nodes eqv hu).2
  · rfl
  · exact ⟨(u, v), hu, .inr rfl⟩

theorem map_fst_ready (l : List (α × Nat)) (free : Nat → Bool) :
    (l.filterMap fun (x, k) => if free k then some (k, x) else none).map Prod.fst =
      (l.map Prod.snd).filter free := by
  induction l with
  | nil => rfl
  | cons q rest ih =>
    by_cases hf : free q.2 <;> simp [hf, ih]

/-- The invariant holds before the first node is placed. -/
theorem placing_start (eqv : Equality same) (edges : List (α × α)) (missing : Array Nat)
    (hs : missing.size = (nodes same edges).length) (hi : ∀ k < (nodes same edges).length,
      missing.getD k 0 = indegree (ranked same (nodes same edges) edges) k) :
    Placing (ranked same (nodes same edges) edges) (nodes same edges).length
      (rank same (nodes same edges)) (fun x => ∃ e ∈ edges, x = e.1 ∨ x = e.2) []
      ⟨(nodes same edges).zipIdx.filterMap fun (x, k) =>
        if missing.getD k 0 = 0 then some (k, x) else none, missing, []⟩ := by
  have hm : ∀ k x, (k, x) ∈ ((nodes same edges).zipIdx.filterMap fun (x, k) =>
      if missing.getD k 0 = 0 then some (k, x) else none) ↔
        (nodes same edges)[k]? = some x ∧ missing.getD k 0 = 0 := by
    intro k x
    simp only [List.mem_filterMap, Prod.exists, List.mk_mem_zipIdx_iff_getElem?]
    constructor
    · rintro ⟨y, j, hj, hy⟩
      split at hy
      · cases hy
        exact ⟨hj, ‹_›⟩
      · cases hy
    · rintro ⟨hk, h0⟩
      exact ⟨x, k, hk, by rw [if_pos h0]⟩
  refine ⟨hs, ?_, by simp, ?_, ?_, ?_, by simp⟩
  · rintro ⟨k, x⟩ hq
    obtain ⟨hk, -⟩ := (hm k x).1 hq
    exact ⟨rank_of_getElem? eqv (distinct_nodes eqv edges) hk,
      (List.getElem?_eq_some_iff.1 hk).1, mem_nodes eqv (List.mem_of_getElem? hk)⟩
  · have hf := map_fst_ready (nodes same edges).zipIdx fun k => decide (missing.getD k 0 = 0)
    simp only [decide_eq_true_eq] at hf
    rw [hf, map_nil, append_nil, List.zipIdx_map_snd]
    exact (nodup_range' ..).filter _
  · intro k hk
    simp [hi k hk, waiting, indegree]
  · intro k hk
    simp only [map_nil, append_nil, List.mem_map, Prod.exists, exists_and_right, exists_eq_right]
    constructor
    · intro h0
      exact ⟨_, (hm k _).2 ⟨List.getElem?_eq_getElem hk, h0⟩⟩
    · rintro ⟨x, hx⟩
      exact ((hm k x).1 hx).2

/-- When as many nodes have been placed as there are, they stand in a topological order,
last one first. -/
theorem ordered_of_placing (eqv : Equality same) {edges : List (α × α)} {p : Placement α}
    (h : Placing (ranked same (nodes same edges) edges) (nodes same edges).length
      (rank same (nodes same edges)) (fun x => ∃ e ∈ edges, x = e.1 ∨ x = e.2) [] p)
    (hn : p.placed.length = (nodes same edges).length) : Ordered same edges p.placed.reverse := by
  have hnd : (p.placed.map (rank same (nodes same edges))).Nodup := (nodup_append.1 h.nodup).2.1
  have hr : ∀ x, (∃ e ∈ edges, x = e.1 ∨ x = e.2) → ∃ y ∈ nodes same edges, same x y := by
    rintro x ⟨e, he, rfl | rfl⟩
    · exact (exists_nodes eqv he).1
    · exact (exists_nodes eqv he).2
  -- Ranks stand for nodes: a known node is the same as any placed node of its rank.
  have hf : ∀ l : List α, (∀ x ∈ l, x ∈ p.placed) → ∀ u, (∃ e ∈ edges, u = e.1 ∨ u = e.2) →
      rank same (nodes same edges) u ∈ l.map (rank same (nodes same edges)) →
      ∃ x ∈ l, same u x := by
    intro l hl u hu hm
    obtain ⟨x, hx, hrk⟩ := mem_map.1 hm
    exact ⟨x, hx, same_of_rank_eq eqv (hr u hu) (hr x (h.placed x (hl x hx)).2) hrk.symm⟩
  have ha : ∀ u, (∃ e ∈ edges, u = e.1 ∨ u = e.2) → ∃ x ∈ p.placed.reverse, same u x := by
    intro u hu
    have hs : p.placed.map (rank same (nodes same edges)) ⊆ range (nodes same edges).length := by
      intro k hk
      obtain ⟨x, hx, rfl⟩ := mem_map.1 hk
      exact mem_range.2 (h.placed x hx).1
    have hp := (subperm_of_subset hnd hs).perm_of_length_le (by simp [hn])
    have hm := hp.mem_iff.2 (mem_range.2 (rank_lt (hr u hu)))
    obtain ⟨x, hx, hux⟩ := hf p.placed (fun _ => id) u hu hm
    exact ⟨x, mem_reverse.2 hx, hux⟩
  refine ⟨fun x hx => (h.placed x (mem_reverse.1 hx)).2, ?_, ?_, ?_⟩
  · exact fun e he => ⟨ha e.1 ⟨e, he, .inl rfl⟩, ha e.2 ⟨e, he, .inr rfl⟩⟩
  · refine pairwise_reverse.2 ((pairwise_map.1 hnd).imp fun {x y} hne => ?_)
    rw [Bool.eq_false_iff]
    exact fun hsm => hne (rank_eq_of_same eqv _ (eqv.symm hsm))
  · intro e he l x r hspl hx
    have hd : p.placed = r.reverse ++ x :: l.reverse := by
      rw [← reverse_reverse p.placed, hspl]
      simp
    have hg : (⟨rank same (nodes same edges) e.1, rank same (nodes same edges) e.2, e.2⟩ :
        Ranked α) ∈ ranked same (nodes same edges) edges := mem_map.2 ⟨e, he, rfl⟩
    have hc := h.closed _ x _ hd _ hg (rank_eq_of_same eqv _ hx)
    obtain ⟨y, hy, hsm⟩ := hf l.reverse (by simp [hd]; tauto) e.1 ⟨e, he, .inl rfl⟩ hc
    exact ⟨y, mem_reverse.1 hy, hsm⟩

theorem start_sorted (found : List α) (missing : Array Nat) :
    (found.zipIdx.filterMap fun (x, k) =>
      if missing.getD k 0 = 0 then some (k, x) else none).Pairwise fun a b => a.1 ≤ b.1 := by
  have hf := map_fst_ready found.zipIdx fun k => decide (missing.getD k 0 = 0)
  simp only [decide_eq_true_eq] at hf
  rw [← pairwise_map, hf, List.zipIdx_map_snd]
  exact (pairwise_le_range' ..).filter _

/-- The run behind a sort: it starts with the nodes that no edge leads to, and the nodes
that it places are the result if they are all. -/
theorem exists_run (eqv : Equality same) (edges : List (α × α)) :
    ∃ (outgoing : Nat → List (Ranked α)) (start : Placement α), (∀ k < (nodes same edges).length,
        outgoing k = (ranked same (nodes same edges) edges).filter (·.source == k)) ∧
      Placing (ranked same (nodes same edges) edges) (nodes same edges).length
        (rank same (nodes same edges)) (fun x => ∃ e ∈ edges, x = e.1 ∨ x = e.2) [] start ∧
      start.placed = [] ∧ (start.ready.Pairwise fun a b => a.1 ≤ b.1) ∧ sort same edges =
        let done := place outgoing (nodes same edges).length start
        if done.placed.length = (nodes same edges).length then .ok done.placed.reverse
        else .error (.rejected .cyclic) := by
  generalize hm : (ranked same (nodes same edges) edges).foldl
    (fun counts e => counts.modify e.target (· + 1)) (Array.replicate (nodes same edges).length 0) =
      missing
  refine ⟨_, _, fun k hk => getD_grouped (ranked same (nodes same edges) edges) hk,
    placing_start eqv edges missing (by simp [← hm, size_count]) ?_, rfl,
    start_sorted _ missing, ?_⟩
  · intro k hk
    rw [← hm, getD_count _ _ (by simpa using hk)]
    simp [Array.getD, hk]
  · rw [← hm]
    rfl

/-- Edges that lead upwards have a topological order. -/
theorem exists_sort (eqv : Equality same) {edges : List (α × α)} {height : α → Nat}
    (hs : ∀ x y, same x y → height x = height y) (hp : ∀ e ∈ edges, height e.1 < height e.2) :
    ∃ order, sort same edges = .ok order ∧ Ordered same edges order := by
  have hE := fits_ranked eqv edges
  -- The age of a rank is the height of the node that has it.
  have ha : ∀ e ∈ ranked same (nodes same edges) edges,
      ((nodes same edges)[e.source]?.map height).getD 0 <
        ((nodes same edges)[e.target]?.map height).getD 0 := by
    intro e he
    obtain ⟨⟨u, v⟩, hu, rfl⟩ := mem_map.1 he
    obtain ⟨y, hy, huy⟩ := exists_rank (exists_nodes eqv hu).1
    obtain ⟨z, hz, hv⟩ := exists_rank (exists_nodes eqv hu).2
    have ht := hp (u, v) hu
    rw [hs _ _ huy, hs _ _ hv] at ht
    simpa [hy, hz] using ht
  obtain ⟨outgoing, start, ho, hst, hno, -, hsr⟩ := exists_run eqv edges
  obtain ⟨hr, hn⟩ := hst.place hE ho (nodes same edges).length
  have hl : (place outgoing (nodes same edges).length start).placed.length =
      (nodes same edges).length := by
    obtain hd | hl := hn
    · exact hr.length_placed hd hE (fun k => ((nodes same edges)[k]?.map height).getD 0) ha
    · simpa [hno] using hl
  rw [hsr]
  dsimp only
  rw [if_pos hl]
  exact ⟨_, rfl, ordered_of_placing eqv hr hl⟩

end Edges

end Patchwork
