import Patchwork.Proofs.Schedule.Edges

/-!
# The edges between leaves and roots

Two walks find them. The first one goes down from the roots and lists the users of every
node it meets; of equal nodes it visits only one, whose operands are those of the others. The
second one climbs from the leaves along these lists and follows an edge only once. It may go
through the users of a node in any order, because what it finds is told by what it has left:
when nothing is pending, every user of a node that was reached has its edge.

In the topological order of these edges every node but the root stands before one that uses
it, and all operands that lie between as well stand before the nodes that use them.
-/

namespace Patchwork

open Bool Function List

/-- Sets are gone through in some order, and nothing is left out or added. -/
structure SetOrder.Permutes (sets : SetOrder) : Prop where
  users : ∀ k l, (sets.users k l).Perm l
  leaves : ∀ l, (sets.leaves l).Perm l

theorem SetOrder.permutes_default : SetOrder.Permutes {} := ⟨fun _ _ => .rfl, fun _ => .rfl⟩

namespace Graph

variable {g : Graph} {roots leaves : List NodeId} {users : Users} {pending : List NodeId}
  {found : List Edge} {current : Option NodeId} {j k u : NodeId}

/-! ## The users of a node -/

def Lists (g : Graph) (users : Users) (k user : NodeId) : Prop :=
  ∃ entry ∈ users, g.sameNode entry.1 k = true ∧ ∃ u ∈ entry.2, g.sameNode user u = true

theorem fst_enlist (entry : NodeId × List NodeId) : (g.enlist k u entry).1 = entry.1 := by
  rw [enlist]
  split <;> rfl

theorem subset_enlist (entry : NodeId × List NodeId) : entry.2 ⊆ (g.enlist k u entry).2 := by
  intro w hw
  rw [enlist]
  split
  · split
    · exact hw
    · exact mem_append_left _ hw
  · exact hw

theorem mem_enlist {entry : NodeId × List NodeId} {w : NodeId} (h : w ∈ (g.enlist k u entry).2) :
    w ∈ entry.2 ∨ w = u ∧ g.sameNode entry.1 k := by
  rw [enlist] at h
  split at h
  · next hs =>
    split at h
    · exact .inl h
    · rcases mem_append.1 h with h | h
      · exact .inl h
      · exact .inr ⟨mem_singleton.1 h, hs⟩
  · exact .inl h

theorem exists_mem_enlist {entry : NodeId × List NodeId} (h : g.sameNode entry.1 k) :
    ∃ w ∈ (g.enlist k u entry).2, g.sameNode u w := by
  rw [enlist, if_pos h]
  split
  · next ha => exact any_eq_true.1 ha
  · exact ⟨u, by simp, sameNode_self g u⟩

/-- What adding a user does: entries are kept, the user is the only new one, and it is listed
afterwards; a node that had no entry gets one. -/
structure AddedUser (g : Graph) (users users' : Users) (k user : NodeId) (isNew : Bool) : Prop where
  kept : ∀ entry ∈ users, ∃ entry' ∈ users', entry'.1 = entry.1 ∧ entry.2 ⊆ entry'.2
  only : ∀ entry' ∈ users', ∀ w ∈ entry'.2,
    (∃ entry ∈ users, entry.1 = entry'.1 ∧ w ∈ entry.2) ∨ w = user ∧ g.sameNode entry'.1 k = true
  listed : g.Lists users' k user
  keys : (isNew = false ∧ users'.map Prod.fst = users.map Prod.fst) ∨
    (isNew = true ∧ users'.map Prod.fst = users.map Prod.fst ++ [k] ∧
      ∀ j ∈ users.map Prod.fst, g.sameNode j k = false)

theorem addedUser (users : Users) (k user : NodeId) :
    AddedUser g users (g.addUser users k user).1 k user (g.addUser users k user).2 := by
  rw [addUser]
  split
  · next ha =>
    obtain ⟨entry, hn, hs⟩ := any_eq_true.1 ha
    refine ⟨?_, ?_, ?_, .inl ⟨rfl, ?_⟩⟩
    · exact fun e he => ⟨_, mem_map_of_mem he, fst_enlist e, subset_enlist e⟩
    · intro e' he' w hw
      obtain ⟨e, he, rfl⟩ := mem_map.1 he'
      rw [fst_enlist]
      exact (mem_enlist hw).imp_left fun hw => ⟨e, he, rfl, hw⟩
    · exact ⟨_, mem_map_of_mem hn, by rwa [fst_enlist], exists_mem_enlist hs⟩
    · simp [comp_def, fst_enlist]
  · next ha =>
    refine ⟨?_, ?_, ?_, .inr ⟨rfl, by simp, ?_⟩⟩
    · exact fun e he => ⟨e, mem_append_left _ he, rfl, Subset.refl _⟩
    · intro e' he' w hw
      rcases mem_append.1 he' with he' | he'
      · exact .inl ⟨e', he', rfl, hw⟩
      · obtain rfl := mem_singleton.1 he'
        exact .inr ⟨mem_singleton.1 hw, sameNode_self g k⟩
    · exact ⟨(k, [user]), by simp, sameNode_self g k, user, by simp, sameNode_self g user⟩
    · intro j hj
      obtain ⟨e, he, rfl⟩ := mem_map.1 hj
      rw [eq_false_iff]
      exact fun hs => ha (any_eq_true.2 ⟨e, he, hs⟩)

theorem AddedUser.lists {users' : Users} {isNew : Bool} (h : AddedUser g users users' k u isNew)
    {i w : NodeId} (hl : g.Lists users i w) : g.Lists users' i w := by
  obtain ⟨entry, he, hm, v, hv, hw⟩ := hl
  obtain ⟨entry', he', hf, hs⟩ := h.kept entry he
  exact ⟨entry', he', hf ▸ hm, v, hs hv, hw⟩

/-! ## The walk down -/

/-- The nodes that the walk down has met: the roots, and the nodes with an entry. -/
def Met (roots : List NodeId) (users : Users) (k : NodeId) : Prop :=
  k ∈ roots ∨ k ∈ users.map Prod.fst

/-- The invariant of the walk down, while it is at the operands of one node. -/
structure Descending (g : Graph) (roots : List NodeId) (current : Option NodeId)
    (pending : List NodeId) (users : Users) : Prop where
  distinct : Edges.Distinct g.sameNode (users.map Prod.fst)
  below : ∀ k ∈ users.map Prod.fst, g.Below roots k
  user : ∀ entry ∈ users, ∀ u ∈ entry.2,
    g.Within roots u ∧ ∃ n ∈ (g.node u).args, g.sameNode n.source entry.1 = true
  visited : ∀ k ∈ pending, Met roots users k
  settled : ∀ k, Met roots users k →
    k ∈ pending ∨ current = some k ∨ ∀ n ∈ (g.node k).args, g.Lists users n.source k

theorem Descending.within (h : Descending g roots current pending users) (hk : Met roots users k) :
    g.Within roots k := hk.imp_right (h.below k)

/-- What the walk down has gained: lists are kept, and there is one more node pending for
each new entry. -/
structure Descended (g : Graph) (roots : List NodeId) (k : NodeId)
    (state state' : List NodeId × Users) : Prop where
  descending : Descending g roots (some k) state'.1 state'.2
  kept : ∀ i w, g.Lists state.2 i w → g.Lists state'.2 i w
  met : Met roots state'.2 k
  balance : state'.1.length + state.2.length = state.1.length + state'.2.length

/-- Meeting an operand keeps the invariant, and the node is listed as its user then. -/
theorem Descending.visit {state : List NodeId × Users} (tr : g.Traced)
    (h : Descending g roots (some k) state.1 state.2) (hk : Met roots state.2 k) {n : Net}
    (hn : n ∈ (g.node k).args) :
    Descended g roots k state (g.visitOperand k state n) ∧
      g.Lists (g.visitOperand k state n).2 n.source k := by
  obtain ⟨pending, users⟩ := state
  have ha := addedUser (g := g) users n.source k
  rw [visitOperand]
  generalize g.addUser users n.source k = added at ha
  obtain ⟨users', isNew⟩ := added
  have hb := (h.within hk).operand hn
  have hr : ∀ entry ∈ users', ∀ u ∈ entry.2,
      g.Within roots u ∧ ∃ n ∈ (g.node u).args, g.sameNode n.source entry.1 := by
    intro entry' ht' u hu
    rcases ha.only entry' ht' u hu with ⟨entry, ht, hf, hu⟩ | ⟨rfl, hsm⟩
    · exact hf ▸ h.user entry ht u hu
    · exact ⟨h.within hk, n, hn, sameNode_symm tr hsm⟩
  refine ⟨?_, ha.listed⟩
  rcases ha.keys with ⟨rfl, hs⟩ | ⟨rfl, hs, hfr⟩
  · have he : ∀ j, Met roots users' j ↔ Met roots users j := by simp [Met, hs]
    have hl : users'.length = users.length := by simpa using congrArg List.length hs
    refine ⟨⟨hs ▸ h.distinct, hs ▸ h.below, hr, ?_, ?_⟩, fun i w => ha.lists,
      (he k).2 hk, by simp [hl]⟩
    · exact fun j hj => (he j).2 (h.visited j hj)
    · intro j hj
      exact (h.settled j ((he j).1 hj)).imp_right (Or.imp_right fun hd m hm => ha.lists (hd m hm))
  · have he : ∀ j, Met roots users' j ↔ j = n.source ∨ Met roots users j := by
      simp only [Met, hs, mem_append, mem_singleton]
      tauto
    have hl : users'.length = users.length + 1 := by simpa using congrArg List.length hs
    refine ⟨⟨?_, ?_, hr, ?_, ?_⟩, fun i w => ha.lists, (he k).2 (.inr hk), ?_⟩
    · rw [hs]
      refine pairwise_append.2 ⟨h.distinct, pairwise_singleton _ _, ?_⟩
      simpa using hfr
    · intro j hj
      rw [hs] at hj
      rcases mem_append.1 hj with hj | hj
      · exact h.below j hj
      · exact mem_singleton.1 hj ▸ hb
    · exact forall_mem_cons.2 ⟨(he _).2 (.inl rfl), fun j hj => (he j).2 (.inr (h.visited j hj))⟩
    · intro j hj
      rcases (he j).1 hj with rfl | hj
      · exact .inl mem_cons_self
      · rcases h.settled j hj with hj | hj | hd
        · exact .inl (mem_cons_of_mem _ hj)
        · exact .inr (.inl hj)
        · exact .inr (.inr fun m hm => ha.lists (hd m hm))
    · simp only [if_true, length_cons]
      omega

theorem Descending.visitAll (tr : g.Traced) (ns : List Net) (state : List NodeId × Users)
    (hs : ∀ n ∈ ns, n ∈ (g.node k).args) (h : Descending g roots (some k) state.1 state.2)
    (hk : Met roots state.2 k) :
    Descended g roots k state (ns.foldl (g.visitOperand k) state) ∧
      ∀ n ∈ ns, g.Lists (ns.foldl (g.visitOperand k) state).2 n.source k := by
  induction ns generalizing state with
  | nil => exact ⟨⟨h, fun _ _ => id, hk, rfl⟩, by simp⟩
  | cons n rest ih =>
    obtain ⟨hn, hr⟩ := forall_mem_cons.1 hs
    obtain ⟨ho, hl⟩ := h.visit tr hk hn
    obtain ⟨hm, ha⟩ := ih _ hr ho.descending ho.met
    have hb := ho.balance
    have hb' := hm.balance
    refine ⟨⟨hm.descending, fun i w hw => hm.kept i w (ho.kept i w hw), hm.met, ?_⟩,
      forall_mem_cons.2 ⟨hm.kept _ _ hl, ha⟩⟩
    rw [foldl_cons]
    omega

theorem Descending.step (tr : g.Traced) (h : Descending g roots none (k :: pending) users) :
    let state := (g.node k).args.foldl (g.visitOperand k) (pending, users)
    Descending g roots none state.1 state.2 ∧
      state.1.length + users.length = pending.length + state.2.length := by
  have hs : Descending g roots (some k) pending users := by
    refine ⟨h.distinct, h.below, h.user, fun j hj => h.visited j (mem_cons_of_mem _ hj), ?_⟩
    intro j hj
    rcases h.settled j hj with hj | hj | hj
    · rcases mem_cons.1 hj with rfl | hj
      · exact .inr (.inl rfl)
      · exact .inl hj
    · cases hj
    · exact .inr (.inr hj)
  obtain ⟨ha, hl⟩ := Descending.visitAll tr (g.node k).args (pending, users)
    (fun _ => id) hs (h.visited k mem_cons_self)
  have he := ha.descending
  refine ⟨⟨he.distinct, he.below, he.user, he.visited, fun j hj => ?_⟩, ha.balance⟩
  rcases he.settled j hj with hj | hj | hj
  · exact .inl hj
  · cases hj
    exact .inr (.inr hl)
  · exact .inr (.inr hj)

theorem Below.lt_size (wf : g.WellFormed) (h : g.Below roots k) : k < g.size := by
  cases h with
  | root _ hn => exact lt_size_of_cell? ((wf _).typed _ hn)
  | operand _ hn => exact lt_size_of_cell? ((wf _).typed _ hn)

theorem Descending.length_users_le (wf : g.WellFormed)
    (h : Descending g roots current pending users) : users.length ≤ g.size := by
  have hn : (users.map Prod.fst).Nodup := h.distinct.imp fun {a b} ha heq => by simp [heq] at ha
  have hs : users.map Prod.fst ⊆ range g.size := fun k hk =>
    mem_range.2 ((h.below k hk).lt_size wf)
  simpa using (subperm_of_subset hn hs).length_le

/-- One step of the walk down: a pending node is visited. -/
def visitNext (g : Graph) : List NodeId × Users → List NodeId × Users
  | ([], users) => ([], users)
  | (node :: rest, users) => (g.node node).args.foldl (g.visitOperand node) (rest, users)

/-- The walk down comes to an end, after no more steps than there are nodes pending and
entries to make. -/
theorem Descending.ends (tr : g.Traced) (steps : Nat) (h : Descending g roots none pending users)
    (hs : pending.length + (g.size - users.length) ≤ steps) :
    ∃ users', g.visitNext^[steps] (pending, users) = ([], users') ∧
      Descending g roots none [] users' := by
  induction steps generalizing pending users with
  | zero =>
    obtain rfl : pending = [] := eq_nil_of_length_eq_zero (by omega)
    exact ⟨users, rfl, h⟩
  | succ steps ih =>
    cases pending with
    | nil => exact ⟨users, iterate_fixed rfl steps, h⟩
    | cons k rest =>
      obtain ⟨ht, hb⟩ := h.step tr
      have ho := ht.length_users_le tr.wellFormed
      rw [length_cons] at hs
      exact ih ht (by omega)

theorem collectUsers_eq (steps : Nat) (pending : List NodeId) (users : Users) :
    g.collectUsers steps pending users = (g.visitNext^[steps] (pending, users)).2 := by
  induction steps generalizing pending users with
  | zero => rfl
  | succ steps ih =>
    rw [iterate_succ_apply]
    cases pending with
    | nil =>
      rw [← ih]
      cases steps <;> rfl
    | cons k rest => exact ih _ _

theorem descending_start (roots : List NodeId) : Descending g roots none roots.reverse [] := by
  refine ⟨.nil, by simp, by simp, fun k hk => .inl (mem_reverse.1 hk), ?_⟩
  rintro k (hk | hk)
  · exact .inl (mem_reverse.2 hk)
  · cases hk

/-- The users of every needed node are listed when nothing is pending. -/
theorem Descending.lists (tr : g.Traced) (h : Descending g roots none [] users)
    (hk : g.Needed roots k) {n : Net} (hn : n ∈ (g.node k).args) : g.Lists users n.source k := by
  have hd : ∀ {j}, Met roots users j → ∀ n ∈ (g.node j).args, g.Lists users n.source j := by
    intro j hj
    rcases h.settled j hj with hj | hj | hj
    · cases hj
    · cases hj
    · exact hj
  -- Of equal nodes one has been met, and it is listed with the operands of all.
  have ht : ∀ {j}, g.Within roots j → ∃ i, Met roots users i ∧ g.sameNode j i := by
    have ho : ∀ {j i : NodeId} {m : Net}, Met roots users i → g.sameNode j i →
        m ∈ (g.node j).args → ∃ i', Met roots users i' ∧ g.sameNode m.source i' := by
      intro j i m hi hji hm
      obtain ⟨m', hm', hmm⟩ := exists_same_arg tr.wellFormed hji hm
      obtain ⟨entry, he, hs, -⟩ := hd hi m' hm'
      exact ⟨entry.1, .inr (mem_map_of_mem he), sameNode_trans tr hmm (sameNode_symm tr hs)⟩
    rintro j (hj | hj)
    · exact ⟨j, .inl hj, sameNode_self g j⟩
    · induction hj with
      | @root r m hr hm => exact ho (.inl hr) (sameNode_self g r) hm
      | operand _ hm ih =>
        obtain ⟨i, hi, hji⟩ := ih
        exact ho hi hji hm
  obtain ⟨j, hj, hjk⟩ := hk
  obtain ⟨i, hi, hji⟩ := ht hj
  have hki := sameNode_trans tr (sameNode_symm tr hjk) hji
  obtain ⟨m, hm, hnm⟩ := exists_same_arg tr.wellFormed hki hn
  obtain ⟨entry, he, hs, u, hu, hiu⟩ := hd hi m hm
  exact ⟨entry, he, sameNode_trans tr hs (sameNode_symm tr hnm), u, hu, sameNode_trans tr hki hiu⟩

/-- The users of every node: they are needed and use it, and no user is left out. -/
structure Ascends (g : Graph) (roots : List NodeId) (next : NodeId → List NodeId) : Prop where
  user : ∀ k, ∀ u ∈ next k, g.Within roots u ∧ ∃ n ∈ (g.node u).args, g.sameNode n.source k = true
  every : ∀ k u, g.Needed roots u → ∀ n ∈ (g.node u).args, g.sameNode n.source k = true →
    ∃ u' ∈ next k, g.sameNode u u' = true

/-- The lists of the walk down, in any order, give the users of every node. -/
theorem Descending.ascends (tr : g.Traced) (h : Descending g roots none [] users)
    {order : SetOrder} (ho : order.Permutes) :
    g.Ascends roots fun k => order.users k ((g.usersOf users k).getD []) := by
  have hm : ∀ k u, u ∈ order.users k ((g.usersOf users k).getD []) ↔
      u ∈ (g.usersOf users k).getD [] := fun k u => (ho.users k _).mem_iff
  constructor
  · intro k u hu
    rw [hm, usersOf] at hu
    cases hf : users.find? fun entry => g.sameNode entry.1 k with
    | none => simp [hf] at hu
    | some entry =>
      rw [hf] at hu
      obtain ⟨hw, n, hn, hs⟩ := h.user entry (mem_of_find?_eq_some hf) u hu
      have hk := find?_some hf
      exact ⟨hw, n, hn, sameNode_trans tr hs hk⟩
  · intro k u hnd n hn hnk
    obtain ⟨entry, he, hs, u', hu', huu⟩ := h.lists tr hnd hn
    have hk : g.sameNode entry.1 k := sameNode_trans tr hs hnk
    refine ⟨u', (hm k u').2 ?_, huu⟩
    cases hf : users.find? fun entry => g.sameNode entry.1 k with
    | none => exact absurd hk (find?_eq_none.1 hf entry he)
    | some entry' =>
      -- Only one entry is about a node.
      have he' := mem_of_find?_eq_some hf
      have hk' := find?_some hf
      have ht := h.distinct.eq_of_same (equality_sameNode tr) (mem_map_of_mem he)
        (mem_map_of_mem he') (sameNode_trans tr hk (sameNode_symm tr hk'))
      have hens : entry = entry' := by
        have hd : (users.map Prod.fst).Nodup :=
          h.distinct.imp fun {a b} ha heq => by simp [heq] at ha
        exact inj_on_of_nodup_map hd he he' ht
      rw [usersOf, hf, ← hens]
      exact hu'

/-! ## The walk up -/

section Climb

variable {next : NodeId → List NodeId}

/-- The nodes that the walk up has reached: the leaves, and the targets of edges. -/
def Reached (leaves : List NodeId) (found : List Edge) (k : NodeId) : Prop :=
  k ∈ leaves ∨ ∃ e ∈ found, e.2 = k

def Joins (g : Graph) (found : List Edge) (k user : NodeId) : Prop :=
  ∃ e ∈ found, g.sameEdge (k, user) e = true

/-- The invariant of the walk up, while it is at the users of one node. -/
structure Climbing (g : Graph) (next : NodeId → List NodeId) (leaves : List NodeId)
    (current : Option NodeId) (pending : List NodeId) (found : List Edge) : Prop where
  edge : ∀ e ∈ found, e.2 ∈ next e.1
  source : ∀ e ∈ found, Reached leaves found e.1
  distinct : Edges.Distinct g.sameEdge found
  visited : ∀ k ∈ pending, Reached leaves found k
  settled : ∀ k, Reached leaves found k →
    k ∈ pending ∨ current = some k ∨ ∀ u ∈ next k, g.Joins found k u

/-- What the walk up has gained: edges are kept, and there is one more node pending for each
new edge. -/
structure Climbed (g : Graph) (next : NodeId → List NodeId) (leaves : List NodeId) (k : NodeId)
    (state state' : List NodeId × List Edge) : Prop where
  climbing : Climbing g next leaves (some k) state'.1 state'.2
  kept : ∀ e ∈ state.2, e ∈ state'.2
  reached : Reached leaves state'.2 k
  balance : state'.1.length + state.2.length = state.1.length + state'.2.length

theorem Joins.mono {found' : List Edge} (h : g.Joins found j k) (hk : ∀ e ∈ found, e ∈ found') :
    g.Joins found' j k := by
  obtain ⟨e, he, hs⟩ := h
  exact ⟨e, hk e he, hs⟩

theorem Reached.mono {found' : List Edge} (h : Reached leaves found k)
    (hk : ∀ e ∈ found, e ∈ found') : Reached leaves found' k :=
  h.imp_right fun ⟨e, he, hek⟩ => ⟨e, hk e he, hek⟩

/-- Climbing to a user keeps the invariant, and there is an edge to it then. -/
theorem Climbing.climbTo {state : List NodeId × List Edge}
    (h : Climbing g next leaves (some k) state.1 state.2) (hk : Reached leaves state.2 k)
    (hu : u ∈ next k) :
    Climbed g next leaves k state (g.climbTo k state u) ∧ g.Joins (g.climbTo k state u).2 k u := by
  obtain ⟨pending, found⟩ := state
  rw [Graph.climbTo]
  split
  · next ha => exact ⟨⟨h, fun _ => id, hk, rfl⟩, any_eq_true.1 ha⟩
  · next ha =>
    have hp : ∀ e ∈ found, e ∈ (k, u) :: found := fun e => mem_cons_of_mem _
    refine ⟨⟨⟨?_, ?_, ?_, ?_, ?_⟩, hp, hk.mono hp, ?_⟩, (k, u), mem_cons_self, by simp [sameEdge]⟩
    · exact forall_mem_cons.2 ⟨hu, h.edge⟩
    · exact forall_mem_cons.2 ⟨hk.mono hp, fun e he => (h.source e he).mono hp⟩
    · refine pairwise_cons.2 ⟨fun e he => ?_, h.distinct⟩
      rw [eq_false_iff]
      exact fun hs => ha (any_eq_true.2 ⟨e, he, hs⟩)
    · refine forall_mem_cons.2 ⟨.inr ⟨(k, u), mem_cons_self, rfl⟩, fun j hj => ?_⟩
      exact (h.visited j hj).mono hp
    · intro j hj
      have hj' : j = u ∨ Reached leaves found j := by
        rcases hj with hj | ⟨e, he, rfl⟩
        · exact .inr (.inl hj)
        · rcases mem_cons.1 he with rfl | he
          · exact .inl rfl
          · exact .inr (.inr ⟨e, he, rfl⟩)
      rcases hj' with rfl | hj'
      · exact .inl mem_cons_self
      · rcases h.settled j hj' with hj | hj | hd
        · exact .inl (mem_cons_of_mem _ hj)
        · exact .inr (.inl hj)
        · exact .inr (.inr fun w hw => (hd w hw).mono hp)
    · simp only [length_cons]
      omega

theorem Climbing.climbAll (us : List NodeId) (state : List NodeId × List Edge)
    (hs : ∀ u ∈ us, u ∈ next k) (h : Climbing g next leaves (some k) state.1 state.2)
    (hk : Reached leaves state.2 k) :
    Climbed g next leaves k state (us.foldl (g.climbTo k) state) ∧
      ∀ u ∈ us, g.Joins (us.foldl (g.climbTo k) state).2 k u := by
  induction us generalizing state with
  | nil => exact ⟨⟨h, fun _ => id, hk, rfl⟩, by simp⟩
  | cons u rest ih =>
    obtain ⟨hu, hr⟩ := forall_mem_cons.1 hs
    obtain ⟨ho, hj⟩ := h.climbTo hk hu
    obtain ⟨hm, ha⟩ := ih _ hr ho.climbing ho.reached
    have hb := ho.balance
    have hb' := hm.balance
    refine ⟨⟨hm.climbing, fun e he => hm.kept e (ho.kept e he), hm.reached, ?_⟩,
      forall_mem_cons.2 ⟨hj.mono hm.kept, ha⟩⟩
    rw [foldl_cons]
    omega

theorem Climbing.step (h : Climbing g next leaves none (k :: pending) found) :
    let state := (next k).foldl (g.climbTo k) (pending, found)
    Climbing g next leaves none state.1 state.2 ∧
      state.1.length + found.length = pending.length + state.2.length := by
  have hs : Climbing g next leaves (some k) pending found := by
    refine ⟨h.edge, h.source, h.distinct, fun j hj => h.visited j (mem_cons_of_mem _ hj), ?_⟩
    intro j hj
    rcases h.settled j hj with hj | hj | hj
    · rcases mem_cons.1 hj with rfl | hj
      · exact .inr (.inl rfl)
      · exact .inl hj
    · cases hj
    · exact .inr (.inr hj)
  obtain ⟨ha, ho⟩ := Climbing.climbAll (next k) (pending, found) (fun _ => id)
    hs (h.visited k mem_cons_self)
  have he := ha.climbing
  refine ⟨⟨he.edge, he.source, he.distinct, he.visited, fun j hj => ?_⟩, ha.balance⟩
  rcases he.settled j hj with hj | hj | hj
  · exact .inl hj
  · cases hj
    exact .inr (.inr ho)
  · exact .inr (.inr hj)

/-- There are no more edges than pairs of nodes: edges stand for pairs of eldest nodes. -/
theorem Climbing.length_found_le (tr : g.Traced) (hx : g.Ascends roots next)
    (h : Climbing g next leaves current pending found) : found.length ≤ g.size * g.size := by
  have hnd : (found.map fun e => (g.eldest e.1, g.eldest e.2)).Nodup := by
    refine pairwise_map.2 (h.distinct.imp fun {e f} hd heq => ?_)
    obtain ⟨hs, ht⟩ := Prod.mk.inj heq
    have hm : ∀ {a b}, g.eldest a = g.eldest b → g.sameNode a b := fun {a b} ha =>
      sameNode_trans tr (sameNode_symm tr (g.sameNode_eldest a)) (ha ▸ g.sameNode_eldest b)
    simp [sameEdge, hm hs, hm ht] at hd
  have hb : (found.map fun e => (g.eldest e.1, g.eldest e.2)) ⊆ range g.size ×ˢ range g.size := by
    intro p hp
    obtain ⟨e, he, rfl⟩ := mem_map.1 hp
    obtain ⟨-, n, hn, hm⟩ := hx.user e.1 e.2 (h.edge e he)
    have hu : e.2 < g.size := by
      by_contra hl
      rw [node_of_size_le (Nat.not_lt.1 hl)] at hn
      cases hn
    have hs : n.source < g.size := lt_size_of_cell? ((tr.wellFormed e.2).typed n hn)
    refine pair_mem_product.2 ⟨mem_range.2 ?_, mem_range.2 ?_⟩
    · exact Nat.lt_of_le_of_lt (eldest_le hm) hs
    · exact Nat.lt_of_le_of_lt (eldest_le (sameNode_self g e.2)) hu
  simpa [length_product] using (subperm_of_subset hnd hb).length_le

def climbNext (g : Graph) (users : Users) (order : SetOrder) :
    List NodeId × List Edge → List NodeId × List Edge
  | ([], found) => ([], found)
  | (child :: rest, found) =>
    (order.users child ((g.usersOf users child).getD [])).foldl (g.climbTo child) (rest, found)

/-- The walk up comes to an end, after no more steps than there are nodes pending and edges
to find. -/
theorem Climbing.ends (tr : g.Traced) {order : SetOrder}
    (hn : g.Ascends roots fun k => order.users k ((g.usersOf users k).getD [])) (steps : Nat)
    (h : Climbing g (fun k => order.users k ((g.usersOf users k).getD [])) leaves none pending found)
    (hs : pending.length + (g.size * g.size - found.length) ≤ steps) :
    ∃ found', (g.climbNext users order)^[steps] (pending, found) = ([], found') ∧
      Climbing g (fun k => order.users k ((g.usersOf users k).getD [])) leaves none [] found' := by
  induction steps generalizing pending found with
  | zero =>
    obtain rfl : pending = [] := eq_nil_of_length_eq_zero (by omega)
    exact ⟨found, rfl, h⟩
  | succ steps ih =>
    cases pending with
    | nil => exact ⟨found, iterate_fixed rfl steps, h⟩
    | cons k rest =>
      obtain ⟨ht, hb⟩ := h.step
      have ho := ht.length_found_le tr hn
      rw [length_cons] at hs
      exact ih ht (by omega)

theorem climb_eq (order : SetOrder) (steps : Nat) (pending : List NodeId) (found : List Edge) :
    g.climb users order steps pending found =
      ((g.climbNext users order)^[steps] (pending, found)).2 := by
  induction steps generalizing pending found with
  | zero => rfl
  | succ steps ih =>
    rw [iterate_succ_apply]
    cases pending with
    | nil =>
      rw [← ih]
      cases steps <;> rfl
    | cons k rest => exact ih _ _

theorem climbing_start (leaves : List NodeId) : Climbing g next leaves none leaves.reverse [] := by
  refine ⟨by simp, by simp, .nil, fun k hk => .inl (mem_reverse.1 hk), ?_⟩
  rintro k (hk | ⟨e, he, -⟩)
  · exact .inl (mem_reverse.2 hk)
  · cases he

end Climb

/-! ## All edges between -/

/-- Edges that leave out no user: they lead from operands to needed nodes, on from there
up to the roots, and from a leaf or a target to every node that uses it. No edge is there
twice. -/
structure Between (g : Graph) (roots leaves : List NodeId) (edges : List Edge) : Prop where
  distinct : Edges.Distinct g.sameEdge edges
  user : ∀ e ∈ edges, g.Within roots e.2
  operand : ∀ e ∈ edges, ∃ n ∈ (g.node e.2).args, g.sameNode n.source e.1 = true
  source : ∀ e ∈ edges, Reached leaves edges e.1
  target : ∀ e ∈ edges, e.2 ∈ roots ∨ ∃ f ∈ edges, g.sameNode f.1 e.2 = true
  every : ∀ k, Reached leaves edges k → ∀ u, g.Needed roots u →
    ∀ n ∈ (g.node u).args, g.sameNode n.source k = true → g.Joins edges k u

theorem Between.exists_leaf {edges : List Edge} (h : g.Between roots leaves edges) (tr : g.Traced)
    {e : Edge} (he : e ∈ edges) : ∃ leaf ∈ leaves, g.Needed [e.1] leaf := by
  -- The edge before leads to the source of this one, from an older node.
  induction ha : g.eldest e.1 using Nat.strongRecOn generalizing e with
  | _ age ih =>
    rcases h.source e he with hl | ⟨f, hf, hfe⟩
    · exact ⟨e.1, hl, needed_self g e.1⟩
    · obtain ⟨n, hn, hnf⟩ := h.operand f hf
      have ho : g.eldest f.1 < age := by
        rw [← ha, ← hfe, ← eldest_eq tr hnf]
        exact eldest_lt_of_arg tr hn
      obtain ⟨leaf, hl, hd⟩ := ih _ ho hf rfl
      refine ⟨leaf, hl, needed_iff.2 (.inr ⟨n, hfe ▸ hn, ?_⟩)⟩
      exact hd.congr_root tr (sameNode_symm tr hnf)

theorem Below.exists_user (h : g.Below roots k) :
    ∃ u, g.Within roots u ∧ ∃ n ∈ (g.node u).args, n.source = k := by
  cases h with
  | root hr hn => exact ⟨_, .inl hr, _, hn, rfl⟩
  | operand hk hn => exact ⟨_, .inr hk, _, hn, rfl⟩

theorem Climbing.between (tr : g.Traced) {next : NodeId → List NodeId}
    (hx : g.Ascends roots next) (h : Climbing g next leaves none [] found) :
    g.Between roots leaves found := by
  have hv : ∀ k, Reached leaves found k → ∀ u, g.Needed roots u →
      ∀ n ∈ (g.node u).args, g.sameNode n.source k → g.Joins found k u := by
    intro k hk u hu n hn hnk
    obtain ⟨u', hu', huu⟩ := hx.every k u hu n hn hnk
    rcases h.settled k hk with hk | hk | hd
    · cases hk
    · cases hk
    · obtain ⟨e, he, hs⟩ := hd u' hu'
      obtain ⟨hr, ht⟩ := and_eq_true_iff.1 hs
      exact ⟨e, he, and_eq_true_iff.2 ⟨hr, sameNode_trans tr huu ht⟩⟩
  refine ⟨h.distinct, ?_, ?_, h.source, ?_, hv⟩
  · exact fun e he => (hx.user e.1 e.2 (h.edge e he)).1
  · exact fun e he => (hx.user e.1 e.2 (h.edge e he)).2
  · intro e he
    refine (hx.user e.1 e.2 (h.edge e he)).1.imp_right fun hb => ?_
    obtain ⟨u, hu, n, hn, hne⟩ := hb.exists_user
    obtain ⟨f, hf, hs⟩ := hv e.2 (.inr ⟨e, he, rfl⟩) u hu.needed n hn (by simp [hne])
    exact ⟨f, hf, sameNode_symm tr (and_eq_true_iff.1 hs).1⟩

/-- The walks find some edges: both come to an end, after as many steps as they may need or
more, and the second one has found the edges then. -/
def Finds (g : Graph) (roots leaves : List NodeId) (order : SetOrder) (edges : List Edge) : Prop :=
  ∃ users, (∀ steps, roots.length + g.size ≤ steps →
      g.visitNext^[steps] (roots.reverse, []) = ([], users)) ∧
    ∀ steps, leaves.length + g.size * g.size ≤ steps →
      (g.climbNext users order)^[steps] (leaves.reverse, []) = ([], edges.reverse)

theorem iterate_of_le {α : Type} {step : List NodeId × α → List NodeId × α}
    (hs : ∀ a, step ([], a) = ([], a)) {state : List NodeId × α} {a : α} {steps more : Nat}
    (he : step^[steps] state = ([], a)) (hl : steps ≤ more) : step^[more] state = ([], a) := by
  obtain ⟨extra, rfl⟩ := Nat.exists_eq_add_of_le' hl
  rw [iterate_add_apply, he]
  exact iterate_fixed (hs a) extra

/-- The edges between leaves and roots are found and leave out no user, in whatever order
sets are gone through. -/
theorem finds_edgesBetween (tr : g.Traced) (roots leaves : List NodeId) {sets : SetOrder}
    (hs : sets.Permutes) : g.Finds roots leaves sets (g.edgesBetween roots leaves sets) ∧
      g.Between roots leaves (g.edgesBetween roots leaves sets) := by
  obtain ⟨users, hd, he⟩ := (descending_start roots).ends tr (roots.length + g.size) (by simp)
  have hn := he.ascends tr hs
  obtain ⟨found, hp, hc⟩ := (climbing_start leaves).ends tr hn
    (leaves.length + g.size * g.size) (by simp)
  have ho : ∀ steps, roots.length + g.size ≤ steps →
      g.visitNext^[steps] (roots.reverse, []) = ([], users) := fun _ =>
    iterate_of_le (fun _ => rfl) hd
  have hu : ∀ steps, leaves.length + g.size * g.size ≤ steps →
      (g.climbNext users sets)^[steps] (leaves.reverse, []) = ([], found) := fun _ =>
    iterate_of_le (fun _ => rfl) hp
  have hg : g.edgesBetween roots leaves sets = found.reverse := by
    rw [edgesBetween, collectUsers_eq, ho _ (Nat.le_succ _), climb_eq, hu _ (Nat.le_succ _)]
  have h := hc.between tr hn
  rw [hg]
  refine ⟨⟨users, ho, by simpa using hu⟩, ?_⟩
  refine ⟨?_, by simpa using h.user, by simpa using h.operand, by simpa [Reached] using h.source,
    by simpa using h.target, by simpa [Joins, Reached] using h.every⟩
  refine pairwise_reverse.2 (h.distinct.imp fun {e f} hf => ?_)
  rw [sameEdge, sameNode_comm tr, sameNode_comm tr f.2]
  exact hf

/-! ## Users before operands -/

section Backward

variable {x : NodeId} {edges : List Edge} {order : List NodeId}

/-- An order to go backwards through from a node `x` to some leaves: every node but `x`
itself stands before one that uses it, and operands that are in the order stand before the
nodes that use them. A node that uses a node of the order is in the order. All nodes of the
order need a leaf, and a leaf that `x` properly needs is in the order. -/
structure Backward (g : Graph) (x : NodeId) (leaves order : List NodeId) : Prop where
  distinct : Edges.Distinct g.sameNode order
  needed : ∀ k ∈ order, g.Needed [x] k
  used : ∀ l k r, order = l ++ k :: r →
    k = x ∨ ∃ j ∈ r, ∃ n ∈ (g.node j).args, g.sameNode n.source k = true
  before : ∀ l k r, order = l ++ k :: r → ∀ n ∈ (g.node k).args, ∀ i ∈ order,
    g.sameNode n.source i = true → i ∈ l
  complete : ∀ k, g.Needed [x] k → ∀ n ∈ (g.node k).args, ∀ i ∈ order,
    g.sameNode n.source i = true → ∃ j ∈ order, g.sameNode k j = true
  leaf : ∀ y ∈ leaves, g.Needed [x] y → g.sameNode y x = false →
    ∃ k ∈ order, g.sameNode y k = true
  reaches : ∀ k ∈ order, ∃ y ∈ leaves, g.Needed [k] y ∧ g.sameNode y x = false

theorem Joins.congr (tr : g.Traced) (h : g.Joins edges j u) (hj : g.sameNode k j) :
    g.Joins edges k u := by
  obtain ⟨e, he, hm⟩ := h
  obtain ⟨hs, ht⟩ := and_eq_true_iff.1 hm
  exact ⟨e, he, and_eq_true_iff.2 ⟨sameNode_trans tr hj hs, ht⟩⟩

theorem Between.joins (h : g.Between [x] leaves edges) (tr : g.Traced)
    (ho : Edges.Ordered g.sameNode edges order) (hk : g.Needed [x] k) {n : Net}
    (hn : n ∈ (g.node k).args) {i : NodeId} (hi : i ∈ order)
    (hni : g.sameNode n.source i) : g.Joins edges n.source k := by
  have hs : ∀ f ∈ edges, g.sameNode f.1 i → g.Joins edges n.source k := by
    intro f hf hfi
    have hnf := sameNode_trans tr hni (sameNode_symm tr hfi)
    exact (h.every f.1 (h.source f hf) k hk n hn hnf).congr tr hnf
  obtain ⟨e, he, rfl | rfl⟩ := ho.known i hi
  · exact hs e he (sameNode_self g e.1)
  · rcases h.target e he with hr | ⟨f, hf, hfe⟩
    · -- No operand is the same as the root.
      have hl := eldest_lt_of_arg tr hn
      have hle := hk.eldest_le tr
      rw [eldest_eq tr hni, mem_singleton.1 hr] at hl
      exact absurd (Nat.lt_of_lt_of_le hl hle) (Nat.lt_irrefl _)
    · exact hs f hf hfe

theorem Between.source_or_root (h : g.Between [x] leaves edges)
    (ho : Edges.Ordered g.sameNode edges order) (hk : k ∈ order) :
    k = x ∨ ∃ f ∈ edges, g.sameNode f.1 k := by
  obtain ⟨e, he, rfl | rfl⟩ := ho.known k hk
  · exact .inr ⟨e, he, sameNode_self g e.1⟩
  · exact (h.target e he).imp_left mem_singleton.1

theorem Between.exists_proper_leaf (h : g.Between [x] leaves edges) (tr : g.Traced) {e : Edge}
    (he : e ∈ edges) : ∃ y ∈ leaves, g.Needed [e.1] y ∧ g.sameNode y x = false := by
  obtain ⟨y, hy, hd⟩ := h.exists_leaf tr he
  refine ⟨y, hy, hd, eq_false_iff.2 fun hx => ?_⟩
  obtain ⟨n, hn, hne⟩ := h.operand e he
  have hl := hd.eldest_le tr
  have ht := eldest_lt_of_arg tr hn
  have hr := (h.user e he).needed.eldest_le tr
  rw [eldest_eq tr hx] at hl
  rw [eldest_eq tr hne] at ht
  exact Nat.lt_irrefl _ (Nat.lt_of_le_of_lt hl (Nat.lt_of_lt_of_le ht hr))

theorem mem_right_of_mem_left {l l' r r' : List NodeId} (hn : (l ++ k :: r).Nodup)
    (h : l ++ k :: r = l' ++ j :: r') (hk : k ∈ l') : j ∈ r := by
  obtain ⟨a, b, rfl⟩ := append_of_mem hk
  have hs : l ++ k :: r = a ++ k :: (b ++ j :: r') := by simpa using h
  obtain ⟨-, hr, hl⟩ := nodup_append.1 hn
  have hf : k ∉ l := fun hkl => hl k hkl k mem_cons_self rfl
  obtain ⟨-, -, rfl⟩ := (append_cons_inj_of_notMem hf (nodup_cons.1 hr).1).1 hs
  simp

theorem Between.backward (h : g.Between [x] leaves edges) (tr : g.Traced)
    (ho : Edges.Ordered g.sameNode edges order) : g.Backward x leaves order := by
  have hd : order.Nodup := ho.distinct.imp fun {a b} ha heq => by simp [heq] at ha
  have hnd : ∀ k ∈ order, g.Needed [x] k := by
    intro k hk
    obtain ⟨e, he, rfl | rfl⟩ := ho.known k hk
    · obtain ⟨n, hn, hsm⟩ := h.operand e he
      exact ((h.user e he).needed.operand tr hn).congr tr hsm
    · exact (h.user e he).needed
  refine ⟨ho.distinct, hnd, ?_, ?_, ?_, ?_, ?_⟩
  · intro l k r hs
    have hk : k ∈ order := by simp [hs]
    refine (h.source_or_root ho hk).imp_right ?_
    rintro ⟨f, hf, hfk⟩
    obtain ⟨j, hj, hfj⟩ := (ho.covers f hf).2
    obtain ⟨l', r', hs'⟩ := append_of_mem hj
    obtain ⟨i, hi, hfi⟩ := ho.before f hf l' j r' hs' hfj
    have hik : i = k := ho.distinct.eq_of_same (equality_sameNode tr)
      (by simp [hs', hi]) hk (sameNode_trans tr (sameNode_symm tr hfi) hfk)
    obtain ⟨n, hn, hnf⟩ := h.operand f hf
    obtain ⟨m, hm, hnm⟩ := exists_same_arg tr.wellFormed hfj hn
    refine ⟨j, mem_right_of_mem_left (hs ▸ hd) (hs ▸ hs') (hik ▸ hi), m, hm, ?_⟩
    exact sameNode_trans tr (sameNode_symm tr hnm) (sameNode_trans tr hnf hfk)
  · intro l k r hs n hn i hi hni
    obtain ⟨f, hf, hsm⟩ := h.joins tr ho (hnd k (by simp [hs])) hn hi hni
    obtain ⟨hr, ht⟩ := and_eq_true_iff.1 hsm
    obtain ⟨y, hy, hfy⟩ := ho.before f hf l k r hs (sameNode_symm tr ht)
    have hiy : i = y := ho.distinct.eq_of_same (equality_sameNode tr) hi (by simp [hs, hy])
      (sameNode_trans tr (sameNode_symm tr hni) (sameNode_trans tr hr hfy))
    exact hiy ▸ hy
  · intro k hk n hn i hi hni
    obtain ⟨f, hf, hsm⟩ := h.joins tr ho hk hn hi hni
    obtain ⟨j, hj, hfj⟩ := (ho.covers f hf).2
    exact ⟨j, hj, sameNode_trans tr (and_eq_true_iff.1 hsm).2 hfj⟩
  · rintro y hy ⟨j, hj, hjy⟩ hx
    rcases hj with hj | hj
    · rw [mem_singleton.1 hj] at hjy
      rw [sameNode_symm tr hjy] at hx
      cases hx
    · obtain ⟨u, hu, n, hn, rfl⟩ := hj.exists_user
      obtain ⟨f, hf, hsm⟩ := h.every y (.inl hy) u hu.needed n hn hjy
      obtain ⟨k, hk, hfk⟩ := (ho.covers f hf).1
      exact ⟨k, hk, sameNode_trans tr (and_eq_true_iff.1 hsm).1 hfk⟩
  · intro k hk
    obtain ⟨e, he, rfl | rfl⟩ := ho.known k hk
    · exact h.exists_proper_leaf tr he
    · obtain ⟨y, hy, hl, hyx⟩ := h.exists_proper_leaf tr he
      obtain ⟨n, hn, hne⟩ := h.operand e he
      exact ⟨y, hy, needed_iff.2 (.inr ⟨n, hn, hl.congr_root tr (sameNode_symm tr hne)⟩), hyx⟩

/-- The nodes between leaves and a root have an order to go backwards through. -/
theorem exists_backward (tr : g.Traced) (x : NodeId) (leaves : List NodeId) {sets : SetOrder}
    (hs : sets.Permutes) :
    ∃ order, g.sortEdges (g.edgesBetween [x] leaves sets) = .ok order ∧
      g.Backward x leaves order := by
  have h := (finds_edgesBetween tr [x] leaves hs).2
  have hu : ∀ e ∈ g.edgesBetween [x] leaves sets, g.eldest e.1 < g.eldest e.2 := by
    intro e he
    obtain ⟨n, hn, hne⟩ := h.operand e he
    exact eldest_eq tr hne ▸ eldest_lt_of_arg tr hn
  obtain ⟨order, hr, ho⟩ := Edges.exists_sort (equality_sameNode tr) (fun x y => eldest_eq tr) hu
  exact ⟨order, hr, h.backward tr ho⟩

end Backward

end Graph

end Patchwork
