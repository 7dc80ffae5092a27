import Patchwork.Proofs.Graph.Congruence
import Patchwork.Proofs.Number.Whole

/-!
# Hashes of nodes

A named constant is told apart by where it stands, an anonymous one by its number, and an
operation by its name and the hashes of its operands. Which values these get is left open:
equality of nodes is lawful for all of them, and for the hashes that graphs keep.
-/

namespace Patchwork

open Graph List

/-! ## Any hashes -/

/-- How nodes get their hashes. A named constant is told apart by its position, an anonymous
one by its number, and an operation by its name and the hashes of its operands. Any values will
do, as long as equal numbers have equal hashes and a set is hashed by its members. -/
structure Hashing where
  identity : NodeId → UInt64
  number : Number → UInt64
  sequence : String → List UInt64 → UInt64
  set : String → List UInt64 → UInt64
  number_congr : ∀ m n, m.same n = true → number m = number n
  set_congr : ∀ name l l', (∀ h, h ∈ l ↔ h ∈ l') → set name l = set name l'

namespace Hashing

variable {g : Graph} {a : NodeId}

def hash (H : Hashing) (g : Graph) : NodeId → UInt64 :=
  g.fold
    (fun k => match g.node k with
      | .constant n true => H.number n
      | _ => H.identity k)
    (fun k _ hashes =>
      if (g.node k).isCommutative then H.set (g.node k).name hashes
      else H.sequence (g.node k).name hashes)

theorem hash_operation (H : Hashing) (wf : g.WellFormed) (h : (g.node a).isOperation) :
    H.hash g a = if (g.node a).isCommutative
      then H.set (g.node a).name ((g.node a).args.map fun n => H.hash g n.source)
      else H.sequence (g.node a).name ((g.node a).args.map fun n => H.hash g n.source) := by
  obtain ⟨o, args, c, ha⟩ := wf.exists_apply h
  have hb := (wf a).before
  rw [ha] at hb
  rw [hash, fold_apply ha hb]
  simp only [ha]
  rfl

theorem hashed (H : Hashing) (wf : g.WellFormed) : g.Hashed (H.hash g) where
  leaf a b h := by
    obtain rfl | ⟨m, n, hm, hn, hmn⟩ := sameLeaf_iff.1 h
    · rfl
    · rw [hash, fold_leaf (by rw [hm]; rfl), fold_leaf (by rw [hn]; rfl)]
      simp only [hm, hn]
      exact H.number_congr m n hmn
  sequence a b ha hb hnm hk hk' hg := by
    rw [H.hash_operation wf ha, H.hash_operation wf hb, hk, hk', hnm, hg]
  set a b ha hb hnm hk hk' hg := by
    rw [H.hash_operation wf ha, H.hash_operation wf hb, hk, hk', if_pos rfl, if_pos rfl, hnm]
    exact H.set_congr _ _ _ hg

end Hashing

/-! ## The hashes that a graph keeps -/

theorem Number.hash_of_same {m n : Number} (h : m.same n) : m.hash = n.hash := by
  rcases (Number.same_iff m n).1 h with ⟨x, y, rfl, rfl, ha⟩ | ⟨i, hm, hn⟩
  · rw [hash, hash, Binary64.decode_eq, Binary64.decode_eq]
    generalize x.toModel.unpack = u at ha
    generalize y.toModel.unpack = v at ha
    cases ha with
    | zero s t => cases s <;> cases t <;> simp
    | _ => rfl
  · have hw : ∀ {n : Number}, n.whole? = some i → n.hash = (Number.int i).hash := by
      intro n hn
      cases n with
      | int j => cases hn; rfl
      | bool b => cases b <;> cases hn <;> decide
      | float x => cases hn
    rw [hw hm, hw hn]

/-- Removing repetitions from a sorted list leaves it strictly sorted. -/
theorem pairwise_lt_eraseDups {l : List UInt64} (h : l.Pairwise (· ≤ ·)) :
    l.eraseDups.Pairwise (· < ·) := by
  induction hn : l.length using Nat.strongRecOn generalizing l with
  | _ n ih =>
    cases l with
    | nil => simp
    | cons x rest =>
      rw [eraseDups_cons, pairwise_cons]
      rw [pairwise_cons] at h
      constructor
      · intro y hy
        rw [mem_eraseDups, mem_filter] at hy
        refine UInt64.lt_of_le_of_ne (h.1 y hy.1) fun hx => ?_
        simp [hx] at hy
      · refine ih _ ?_ (h.2.sublist filter_sublist) rfl
        rw [← hn]
        exact Nat.lt_succ_of_le (length_filter_le _ _)

/-- The sorted members of a list do not depend on their order and repetition. -/
theorem eraseDups_mergeSort_congr {l l' : List UInt64} (h : ∀ x, x ∈ l ↔ x ∈ l') :
    (l.mergeSort (· ≤ ·)).eraseDups = (l'.mergeSort (· ≤ ·)).eraseDups := by
  have hl : ∀ l : List UInt64, ((l.mergeSort (· ≤ ·)).eraseDups).Pairwise (· < ·) :=
    fun l => pairwise_lt_eraseDups (by simpa using pairwise_mergeSort' (· ≤ ·) l)
  have hn : ∀ l : List UInt64, ((l.mergeSort (· ≤ ·)).eraseDups).Nodup := by
    intro l
    refine Pairwise.imp (fun hx => ?_) (hl l)
    exact fun heq => UInt64.lt_irrefl _ (heq ▸ hx)
  have hp : ((l.mergeSort (· ≤ ·)).eraseDups).Perm (l'.mergeSort (· ≤ ·)).eraseDups := by
    rw [perm_ext_iff_of_nodup (hn l) (hn l')]
    intro x
    rw [mem_eraseDups, mem_eraseDups, mem_mergeSort, mem_mergeSort, h]
  exact hp.eq_of_pairwise (fun x y _ _ hx hy => absurd hy (UInt64.lt_asymm hx)) (hl l) (hl l')

namespace Graph

variable {g : Graph} {a b : NodeId}

def KeepsHashes (g : Graph) : Prop := ∀ k < g.size, g.hashOf k = g.nodeHash k (g.node k)

theorem KeepsHashes.push (h : g.KeepsHashes) (wf : g.WellFormed) {n : Node}
    (hn : ∀ a ∈ n.args, a.source < g.size) : (g.push n).KeepsHashes := by
  have hs : ∀ (k : NodeId) (m : Node), (∀ a ∈ m.args, a.source < g.size) →
      (g.push n).nodeHash k m = g.nodeHash k m := by
    intro k m hm
    have ho : (m.args.map fun a => (g.push n).hashOf a.source) =
        m.args.map fun a => g.hashOf a.source :=
      map_congr_left fun a ha => hashOf_push_of_lt g n (hm a ha)
    cases m with
    | root arg => simp [nodeHash, hashOf_push_of_lt g n (hm arg (by simp [Node.args]))]
    | constant | blank => rfl
    | apply | load | save => simp only [nodeHash, ho]
  intro k hk
  rw [size_push] at hk
  rcases Nat.lt_succ_iff_lt_or_eq.1 hk with hk | rfl
  · rw [hashOf_push_of_lt g n hk, node_push_of_lt g n hk, h k hk, hs]
    exact fun a ha => Nat.lt_trans ((wf k).before a ha) hk
  · rw [node_push_size, hs _ _ hn, hashOf_push_size]

theorem nodeHash_operation (wf : g.WellFormed) (h : (g.node a).isOperation) :
    g.nodeHash a (g.node a) = if (g.node a).isCommutative
      then ((((g.node a).args.map fun n => g.hashOf n.source).mergeSort (· ≤ ·)).eraseDups).foldl
        mixHash (mixHash 104729 (hash (g.node a).name))
      else ((g.node a).args.map fun n => g.hashOf n.source).foldl mixHash (hash (g.node a).name) := by
  obtain ⟨o, args, c, ha⟩ := wf.exists_apply h
  rw [ha]
  rfl

theorem KeepsHashes.hashed (h : g.KeepsHashes) (wf : g.WellFormed) : g.Hashed g.hashOf := by
  have hd : ∀ k, (g.node k).isOperation → g.hashOf k = g.nodeHash k (g.node k) := by
    intro k hk
    refine h k (lt_size_of_ne_blank fun hl => ?_)
    simp [hl, Node.isOperation] at hk
  constructor
  · intro a b hf
    obtain rfl | ⟨m, n, hm, hn, hmn⟩ := sameLeaf_iff.1 hf
    · rfl
    · rw [h a (lt_size_of_ne_blank (by simp [hm])), h b (lt_size_of_ne_blank (by simp [hn])), hm, hn]
      rw [nodeHash, nodeHash, if_pos rfl, if_pos rfl, numberHash, numberHash,
        Number.hash_of_same hmn, Number.cell_of_same hmn]
  · intro a b ha hb hnm hmk hmk' hg
    rw [hd a ha, hd b hb, nodeHash_operation wf ha, nodeHash_operation wf hb, hmk, hmk', hnm, hg]
  · intro a b ha hb hnm hmk hmk' hg
    rw [hd a ha, hd b hb, nodeHash_operation wf ha, nodeHash_operation wf hb, hmk, hmk',
      hnm, if_pos rfl, if_pos rfl, eraseDups_mergeSort_congr hg]

end Graph

/-! ## Lawful keys -/

namespace Hashing

/-- The product of two named constants, twice, with the factors exchanged. -/
def exchangedProducts : Graph :=
  (((Graph.empty.push (.constant (.int 2) false)).push (.constant (.int 3) false)).push
    (.apply .mul [⟨.int, 0⟩, ⟨.int, 1⟩] true)).push (.apply .mul [⟨.int, 1⟩, ⟨.int, 0⟩] true)

end Hashing

end Patchwork
