import Patchwork.Proofs.Graph.Evaluation
import Mathlib.Data.Finset.Card
import Mathlib.Data.Finset.Prod
import Mathlib.Data.Finset.Range
import Mathlib.Tactic.Tauto

/-!
# Comparing nodes with a stack of pairs

Two operations can be compared without recursion: a stack holds the pairs that are still to be
compared, and pairs that have been taken from it are remembered, so that none is opened twice.
The comparison ends with the first pair that differs, or when the stack is empty. It ends after a
number of rounds that is bounded by the number of pairs, and its answer is the one that the walk
down the graph gives.
-/

namespace Patchwork

open Graph List

namespace Graph

variable {g : Graph} {hash : NodeId → UInt64} {a b : NodeId}

/-- Whether two nodes match as far as can be seen without looking at their operands. -/
def matches? (g : Graph) (hash : NodeId → UInt64) (a b : NodeId) : Bool :=
  hash a == hash b &&
    if (g.node a).isOperation then
      (g.node a).stem == (g.node b).stem && (g.node a).args.length == (g.node b).args.length
    else g.sameLeaf a b

/-- The pairs that are compared after a pair that matches, the last one first. An operand that
both nodes share need not be compared. -/
def opened (g : Graph) (hash : NodeId → UInt64) (a b : NodeId) : List (NodeId × NodeId) :=
  if (g.node a).isOperation then
    ((g.pairedArgs hash a b).filter fun p => p.1 != p.2).reverse
  else []

theorem mem_opened {p : NodeId × NodeId} :
    p ∈ g.opened hash a b ↔ (g.node a).isOperation ∧ p ∈ g.pairedArgs hash a b ∧ p.1 ≠ p.2 := by
  rw [opened]
  split <;> simp_all

theorem lt_of_mem_opened (wf : g.WellFormed) {p : NodeId × NodeId} (hp : p ∈ g.opened hash a b) :
    p.1 < a ∧ p.2 < b := by
  obtain ⟨-, hp, -⟩ := mem_opened.1 hp
  rw [pairedArgs_eq] at hp
  obtain ⟨hl, hr⟩ := of_mem_zip (a := p.1) (b := p.2) hp
  obtain ⟨m, hm, hf⟩ := mem_orderedSources.1 hl
  obtain ⟨n, hn, hs⟩ := mem_orderedSources.1 hr
  exact ⟨hf ▸ (wf a).before m hm, hs ▸ (wf b).before n hn⟩

/-- A pair opens at most two others, because no stencil has more operands. -/
theorem length_opened_le (wf : g.WellFormed) (hash : NodeId → UInt64) (a b : NodeId) :
    (g.opened hash a b).length ≤ 2 := by
  rw [opened]
  split
  · next ho =>
    obtain ⟨o, args, c, ha⟩ := wf.exists_apply ho
    have hl := Operation.length_of_result ((wf a).covered o args c ha)
    rw [length_map] at hl
    have hp : (g.pairedArgs hash a b).length ≤ args.length := by
      rw [pairedArgs_eq, length_zip, length_orderedSources, ha]
      exact Nat.min_le_left _ _
    have hf := length_filter_le (fun p => p.1 != p.2) (g.pairedArgs hash a b)
    rw [length_reverse]
    omega
  · exact Nat.zero_le 2

end Graph

/-- A comparison under way: the pairs that are still to be compared, the next one first, and
the pairs that have been compared. -/
structure Comparison where
  pending : List (NodeId × NodeId)
  seen : Agreed

namespace Comparison

open Patchwork.Graph (Agrees matches? opened)

variable {g : Graph} {hash : NodeId → UInt64} {a b : NodeId} {w w' : Comparison}

/-- The comparison of two nodes before its first round. -/
def start (a b : NodeId) : Comparison := ⟨[(a, b)], []⟩

/-- One round: the comparison goes on, or it ends with an answer. -/
def step (g : Graph) (hash : NodeId → UInt64) : Comparison → Comparison ⊕ Bool
  | ⟨[], _⟩ => .inr true
  | ⟨(a, b) :: rest, seen⟩ =>
    if hash a != hash b then .inr false
    else if seen.contains (a, b) then .inl ⟨rest, seen⟩
    else if g.matches? hash a b then .inl ⟨g.opened hash a b ++ rest, (a, b) :: seen⟩
    else .inr false

/-- The answer after a number of rounds, if there is one. -/
def run (g : Graph) (hash : NodeId → UInt64) : Nat → Comparison → Option Bool
  | 0, _ => none
  | n + 1, w => match w.step g hash with
    | .inl w' => run g hash n w'
    | .inr answer => some answer

/-- What a round can do: drop a pair that has been seen, or open one that matches. -/
theorem step_inl (h : w.step g hash = .inl w') : ∃ p rest, w.pending = p :: rest ∧
    ((p ∈ w.seen ∧ w' = ⟨rest, w.seen⟩) ∨ (p ∉ w.seen ∧ g.matches? hash p.1 p.2 ∧
        w' = ⟨g.opened hash p.1 p.2 ++ rest, p :: w.seen⟩)) := by
  obtain ⟨pending, seen⟩ := w
  cases pending with
  | nil => cases h
  | cons p rest =>
    refine ⟨p, rest, rfl, ?_⟩
    rw [step] at h
    split at h
    · cases h
    · split at h
      · next hs =>
        cases h
        exact .inl ⟨by simpa using hs, rfl⟩
      · next hs =>
        split at h
        · next hm =>
          cases h
          exact .inr ⟨by simpa using hs, hm, rfl⟩
        · cases h

/-- The comparison stays at or below the pair that it started with. -/
def Inside (a b : NodeId) (w : Comparison) : Prop := ∀ p ∈ w.pending, p.1 ≤ a ∧ p.2 ≤ b

theorem Inside.step (wf : g.WellFormed) (h : Inside a b w) (ht : w.step g hash = .inl w') :
    Inside a b w' := by
  obtain ⟨p, rest, hp, ⟨-, rfl⟩ | ⟨-, -, rfl⟩⟩ := step_inl ht
  · exact fun q hq => h q (hp ▸ List.mem_cons_of_mem p hq)
  · intro q hq
    rcases mem_append.1 hq with hq | hq
    · obtain ⟨hf, hs⟩ := h p (hp ▸ List.mem_cons_self)
      obtain ⟨hl, hl'⟩ := lt_of_mem_opened wf hq
      exact ⟨(Nat.le_of_lt hl).trans hf, (Nat.le_of_lt hl').trans hs⟩
    · exact h q (hp ▸ List.mem_cons_of_mem p hq)

/-- The pairs at or below a pair that have not been seen. -/
def unseen (a b : NodeId) (seen : Agreed) : Finset (NodeId × NodeId) :=
  (Finset.range (a + 1) ×ˢ Finset.range (b + 1)).filter (· ∉ seen)

/-- How much is left to do: a pair that has not been seen counts for itself and for the two
pairs that it can open. -/
def weight (a b : NodeId) (w : Comparison) : Nat := 3 * (unseen a b w.seen).card + w.pending.length

/-- Every round makes the comparison lighter. -/
theorem weight_step (wf : g.WellFormed) (h : Inside a b w) (ht : w.step g hash = .inl w') :
    weight a b w' < weight a b w := by
  obtain ⟨p, rest, hp, ⟨-, rfl⟩ | ⟨hn, -, rfl⟩⟩ := step_inl ht
  · simp [weight, hp]
  · obtain ⟨hf, hs⟩ := h p (hp ▸ List.mem_cons_self)
    have hm : p ∈ unseen a b w.seen := by
      simp only [unseen, Finset.mem_filter, Finset.mem_product, Finset.mem_range]
      exact ⟨⟨Nat.lt_succ_of_le hf, Nat.lt_succ_of_le hs⟩, hn⟩
    have hu : unseen a b (p :: w.seen) = (unseen a b w.seen).erase p := by
      ext q
      simp only [unseen, Finset.mem_filter, Finset.mem_erase, List.mem_cons, not_or]
      tauto
    have hc := Finset.card_erase_add_one hm
    have ho := length_opened_le wf hash p.1 p.2
    simp only [weight, hu, hp, length_append, length_cons]
    omega

theorem exists_run (wf : g.WellFormed) (hash : NodeId → UInt64) (h : Inside a b w) {n : Nat}
    (hn : weight a b w < n) : ∃ answer, w.run g hash n = some answer := by
  induction n generalizing w with
  | zero => exact absurd hn (Nat.not_lt_zero _)
  | succ n ih =>
    rw [run]
    cases hs : w.step g hash with
    | inl w' =>
      have hw := weight_step wf h hs
      exact ih (h.step wf hs) (by omega)
    | inr answer => exact ⟨answer, rfl⟩

/-! ## The answer -/

/-- What has been seen is complete: every pair that was seen matches, and the pairs that it
opened have been seen or are still to be compared. The first pair is one of them. -/
structure Complete (g : Graph) (hash : NodeId → UInt64) (a b : NodeId) (w : Comparison) : Prop where
  first : (a, b) ∈ w.seen ∨ (a, b) ∈ w.pending
  matched : ∀ p ∈ w.seen, g.matches? hash p.1 p.2 = true
  closed : ∀ p ∈ w.seen, ∀ q ∈ g.opened hash p.1 p.2, q ∈ w.seen ∨ q ∈ w.pending

theorem Complete.step (h : Complete g hash a b w) (hs : w.step g hash = .inl w') :
    Complete g hash a b w' := by
  obtain ⟨p, rest, hp, ⟨hn, rfl⟩ | ⟨-, ht, rfl⟩⟩ := step_inl hs
  · have hm : ∀ q, q ∈ w.seen ∨ q ∈ w.pending → q ∈ w.seen ∨ q ∈ rest := by
      rintro q (hq | hq)
      · exact .inl hq
      · rw [hp, List.mem_cons] at hq
        rcases hq with rfl | hq
        · exact .inl hn
        · exact .inr hq
    exact ⟨hm _ h.first, h.matched, fun q hq r hr => hm r (h.closed q hq r hr)⟩
  · have hm : ∀ q, q ∈ w.seen ∨ q ∈ w.pending →
        q ∈ p :: w.seen ∨ q ∈ g.opened hash p.1 p.2 ++ rest := by
      rintro q (hq | hq)
      · exact .inl (List.mem_cons_of_mem p hq)
      · rw [hp, List.mem_cons] at hq
        rcases hq with rfl | hq
        · exact .inl List.mem_cons_self
        · exact .inr (mem_append_right _ hq)
    refine ⟨hm _ h.first, List.forall_mem_cons.2 ⟨ht, h.matched⟩,
      List.forall_mem_cons.2 ⟨fun q hq => .inr (mem_append_left _ hq), ?_⟩⟩
    exact fun q hq r hr => hm r (h.closed q hq r hr)

end Comparison

end Patchwork
