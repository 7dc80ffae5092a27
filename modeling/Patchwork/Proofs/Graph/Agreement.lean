import Patchwork.Proofs.Graph.WellFormed
import Patchwork.Proofs.Number.Equality
import Mathlib.Data.List.Forall2
import Mathlib.Data.List.Zip

/-!
# Nodes that agree

The comparison of two nodes is a walk that remembers which pairs it has seen. Here the
walk is shown to decide a plain relation, `Agrees`: equal hashes, equal stems, and
operands that agree pairwise. The relation is an equivalence.
-/

namespace Patchwork

open List

namespace Graph

variable {g : Graph} {hash : NodeId → UInt64} {a b c : NodeId}

/-- Two nodes that agree all the way down. -/
inductive Agrees (g : Graph) (hash : NodeId → UInt64) : NodeId → NodeId → Prop
  | refl (a : NodeId) : Agrees g hash a a
  | leaf {a b : NodeId} (hhash : hash a = hash b) (hop : (g.node a).isOperation = false)
      (hleaf : g.sameLeaf a b = true) : Agrees g hash a b
  | operation {a b : NodeId} (hhash : hash a = hash b) (hop : (g.node a).isOperation = true)
      (hstem : (g.node a).stem = (g.node b).stem)
      (hlen : (g.node a).args.length = (g.node b).args.length)
      (hargs : ∀ p ∈ g.pairedArgs hash a b, Agrees g hash p.1 p.2) : Agrees g hash a b

/-! ## The walk decides agreement -/

theorem agreeAll_sound {above : NodeId}
    (below : ∀ x < above, ∀ y seen seen', (∀ p ∈ seen, Agrees g hash p.1 p.2) →
      agree g hash x y seen = some seen' → Agrees g hash x y ∧ ∀ p ∈ seen', Agrees g hash p.1 p.2) :
    ∀ (pairs : List (NodeId × NodeId)) (seen seen' : Agreed),
      (∀ p ∈ seen, Agrees g hash p.1 p.2) → agreeAll g hash above pairs seen = some seen' →
      (∀ p ∈ pairs, Agrees g hash p.1 p.2) ∧ ∀ p ∈ seen', Agrees g hash p.1 p.2 := by
  intro pairs
  induction pairs with
  | nil =>
    intro seen seen' hs h
    rw [agreeAll] at h
    cases h
    exact ⟨by simp, hs⟩
  | cons p rest ih =>
    obtain ⟨x, y⟩ := p
    intro seen seen' hs h
    rw [agreeAll] at h
    split at h
    · rename_i hx
      obtain ⟨hr, hs'⟩ := ih _ _ hs h
      exact ⟨forall_mem_cons.2 ⟨hx ▸ .refl x, hr⟩, hs'⟩
    · split at h
      · rename_i hl
        split at h
        · rename_i mid hm
          obtain ⟨hx, hm⟩ := below x hl y _ _ hs hm
          obtain ⟨hr, hs'⟩ := ih _ _ hm h
          exact ⟨forall_mem_cons.2 ⟨hx, hr⟩, hs'⟩
        · cases h
      · cases h

/-- What the walk finds to agree does agree, if that holds of what it has seen. -/
theorem agree_sound (a b : NodeId) (seen seen' : Agreed)
    (hs : ∀ p ∈ seen, Agrees g hash p.1 p.2) (h : agree g hash a b seen = some seen') :
    Agrees g hash a b ∧ ∀ p ∈ seen', Agrees g hash p.1 p.2 := by
  induction a using Nat.strongRecOn generalizing b seen seen' with
  | _ a ih =>
    rw [agree] at h
    split at h
    · cases h
    · rename_i hh
      have hh : hash a = hash b := by simpa using hh
      split at h
      · rename_i hm
        cases h
        exact ⟨hs (a, b) (by simpa using hm), hs⟩
      · split at h
        · rename_i ho
          split at h
          · cases h
          · rename_i hp
            obtain ⟨ht, he⟩ : (g.node a).stem = (g.node b).stem ∧
                (g.node a).args.length = (g.node b).args.length := by simpa using hp
            obtain ⟨all, hall, rfl⟩ := Option.map_eq_some_iff.1 h
            obtain ⟨ha, hs'⟩ := agreeAll_sound (fun x hx y s s' => ih x hx y s s') _ _ _ hs hall
            have hb : Agrees g hash a b := .operation hh ho ht he ha
            exact ⟨hb, forall_mem_cons.2 ⟨hb, hs'⟩⟩
        · rename_i ho
          split at h
          · rename_i hl
            cases h
            have hb : Agrees g hash a b := .leaf hh (by simpa using ho) hl
            exact ⟨hb, forall_mem_cons.2 ⟨hb, hs⟩⟩
          · cases h

def orderedSources (g : Graph) (hash : NodeId → UInt64) (commutative : Bool) (k : NodeId) :
    List NodeId :=
  (if commutative then sortedArgs hash (g.node k).args else (g.node k).args).map Net.source

theorem orderedSources_perm (g : Graph) (hash : NodeId → UInt64) (commutative : Bool) (k : NodeId) :
    (g.orderedSources hash commutative k).Perm ((g.node k).args.map Net.source) := by
  cases commutative with
  | false => exact .refl _
  | true => exact (mergeSort_perm _ _).map _

@[simp] theorem length_orderedSources (g : Graph) (hash : NodeId → UInt64) (commutative : Bool)
    (k : NodeId) : (g.orderedSources hash commutative k).length = (g.node k).args.length := by
  simpa using (g.orderedSources_perm hash commutative k).length_eq

theorem mem_orderedSources {commutative : Bool} {k x : NodeId} :
    x ∈ g.orderedSources hash commutative k ↔ ∃ n ∈ (g.node k).args, n.source = x := by
  rw [(g.orderedSources_perm hash commutative k).mem_iff, mem_map]

theorem pairedArgs_eq (g : Graph) (hash : NodeId → UInt64) (a b : NodeId) :
    g.pairedArgs hash a b = (g.orderedSources hash (g.node a).isCommutative a).zip
        (g.orderedSources hash (g.node a).isCommutative b) := by
  rw [pairedArgs, orderedSources, orderedSources, zip_map]
  cases (g.node a).isCommutative <;> rfl

theorem exists_mem_zip {α β : Type} {xs : List α} {ys : List β} (hl : xs.length = ys.length)
    {x : α} (hx : x ∈ xs) : ∃ y ∈ ys, (x, y) ∈ xs.zip ys := by
  obtain ⟨i, hi, rfl⟩ := getElem_of_mem hx
  have hi' : i < ys.length := hl ▸ hi
  refine ⟨ys[i], getElem_mem hi', mem_iff_getElem.2 ⟨i, ?_, ?_⟩⟩
  · rw [length_zip]
    exact Nat.lt_min.2 ⟨hi, hi'⟩
  · simp

theorem agreeAll_complete {above : NodeId}
    (below : ∀ x < above, ∀ y seen, Agrees g hash x y → (agree g hash x y seen).isSome) :
    ∀ (pairs : List (NodeId × NodeId)) (seen : Agreed),
      (∀ p ∈ pairs, p.1 < above ∧ Agrees g hash p.1 p.2) →
      (agreeAll g hash above pairs seen).isSome := by
  intro pairs
  induction pairs with
  | nil =>
    intro seen _
    rw [agreeAll]
    rfl
  | cons p rest ih =>
    obtain ⟨x, y⟩ := p
    intro seen h
    obtain ⟨⟨hl, ha⟩, hr⟩ := forall_mem_cons.1 h
    rw [agreeAll]
    by_cases hx : x = y
    · rw [if_pos hx]
      exact ih seen hr
    · obtain ⟨mid, hm⟩ := Option.isSome_iff_exists.1 (below x hl y seen ha)
      simp only [hx, if_false, show x < above from hl, if_true, hm]
      exact ih mid hr

/-- The walk finds out that two nodes agree, whatever it has seen before. -/
theorem agree_complete (wf : g.WellFormed) (a b : NodeId) (seen : Agreed)
    (h : Agrees g hash a b) : (agree g hash a b seen).isSome := by
  induction a using Nat.strongRecOn generalizing b seen with
  | _ a ih =>
    -- Below `a` the walk succeeds on operands that agree.
    have operands : ∀ s, (∀ p ∈ g.pairedArgs hash a b, Agrees g hash p.1 p.2) →
        (agreeAll g hash a (g.pairedArgs hash a b) s).isSome := by
      intro s ha
      refine agreeAll_complete (fun x hx y s' => ih x hx y s') _ _ fun p hp => ⟨?_, ha p hp⟩
      rw [pairedArgs_eq] at hp
      obtain ⟨n, hn, hr⟩ := mem_orderedSources.1 (of_mem_zip hp).1
      exact hr ▸ (wf a).before n hn
    rw [agree]
    cases h with
    | refl =>
      have hprs : ∀ p ∈ g.pairedArgs hash a a, Agrees g hash p.1 p.2 := by
        intro p hp
        rw [pairedArgs_eq, zip_eq_zipWith, zipWith_self] at hp
        obtain ⟨x, _, rfl⟩ := mem_map.1 hp
        exact .refl x
      by_cases hs : (a, a) ∈ seen <;> by_cases ho : (g.node a).isOperation <;>
        simp [hs, ho, sameLeaf, operands seen hprs]
    | leaf hh ho hl =>
      by_cases hs : (a, b) ∈ seen <;> simp [hh, hs, ho, hl]
    | operation hh ho ht he ha =>
      by_cases hs : (a, b) ∈ seen <;>
        simp [hh, hs, ho, ht, he, operands seen ha]

theorem agree_isSome_iff (wf : g.WellFormed) :
    (agree g hash a b []).isSome ↔ Agrees g hash a b := by
  constructor
  · intro h
    obtain ⟨seen, hs⟩ := Option.isSome_iff_exists.1 h
    exact (agree_sound a b [] seen (by simp) hs).1
  · exact agree_complete wf a b []

/-! ## Agreement is an equivalence -/

theorem WellFormed.exists_apply (wf : g.WellFormed) {k : NodeId}
    (h : (g.node k).isOperation) : ∃ o args c, g.node k = .apply o args c := by
  cases hk : g.node k with
  | apply o args c => exact ⟨o, args, c, rfl⟩
  | load c r held => exact absurd hk ((wf k).notLoad c r held)
  | save held args => exact absurd hk ((wf k).notSave held args)
  | _ => simp [hk, Node.isOperation] at h

theorem stem_notMem_leaves (o : Operation) : o.stem ∉ ["const", "store", ""] := by
  cases o <;> simp [Operation.stem, Operation.name]

theorem isOperation_of_stem (wf : g.WellFormed) (ha : (g.node a).isOperation)
    (hs : (g.node a).stem = (g.node b).stem) : (g.node b).isOperation := by
  obtain ⟨o, args, c, hn⟩ := wf.exists_apply ha
  have hl := stem_notMem_leaves o
  rw [show o.stem = (g.node b).stem by rw [← hs, hn]; rfl] at hl
  cases hb : g.node b <;> simp [hb, Node.stem, Node.isOperation] at hl ⊢

theorem sameLeaf_iff : g.sameLeaf a b ↔
    a = b ∨ ∃ x y, g.node a = .constant x true ∧ g.node b = .constant y true ∧ x.same y := by
  rw [sameLeaf, Bool.or_eq_true, beq_iff_eq]
  refine or_congr_right ?_
  constructor
  · intro h
    split at h
    · rename_i x y hx hy
      exact ⟨x, y, hx, hy, h⟩
    · cases h
  · rintro ⟨x, y, hx, hy, h⟩
    rw [hx, hy]
    exact h

theorem sameLeaf_symm (h : g.sameLeaf a b) : g.sameLeaf b a := by
  rw [sameLeaf_iff] at h ⊢
  obtain rfl | ⟨x, y, hx, hy, hxy⟩ := h
  · exact .inl rfl
  · exact .inr ⟨y, x, hy, hx, Number.same_symm hxy⟩

theorem sameLeaf_trans (h : g.sameLeaf a b) (h' : g.sameLeaf b c) : g.sameLeaf a c := by
  rw [sameLeaf_iff] at h h' ⊢
  obtain rfl | ⟨x, y, hx, hy, hxy⟩ := h
  · exact h'
  · obtain rfl | ⟨y', z, hy', hz, hyz⟩ := h'
    · exact .inr ⟨x, y, hx, hy, hxy⟩
    · rw [hy] at hy'
      cases hy'
      exact .inr ⟨x, z, hx, hz, Number.same_trans hxy hyz⟩

theorem isOperation_of_sameLeaf (h : g.sameLeaf a b) :
    (g.node a).isOperation = (g.node b).isOperation := by
  obtain rfl | ⟨x, y, hx, hy, _⟩ := sameLeaf_iff.1 h
  · rfl
  · rw [hx, hy]
    rfl

namespace Agrees

theorem hash_eq (h : Agrees g hash a b) : hash a = hash b := by
  cases h with
  | refl => rfl
  | leaf hh _ _ => exact hh
  | operation hh _ _ _ _ => exact hh

theorem isOperation_eq (wf : g.WellFormed) (h : Agrees g hash a b) :
    (g.node a).isOperation = (g.node b).isOperation := by
  cases h with
  | refl => rfl
  | leaf _ _ hl => exact isOperation_of_sameLeaf hl
  | operation _ ho hs _ _ => rw [ho, isOperation_of_stem wf ho hs]

theorem isCommutative_eq (wf : g.WellFormed) (marked : g.Marked hash) (hh : hash a = hash b)
    (ho : (g.node a).isOperation) (hs : (g.node a).stem = (g.node b).stem) :
    (g.node a).isCommutative = (g.node b).isCommutative :=
  marked a b ho (isOperation_of_stem wf ho hs) hh hs

protected theorem symm (wf : g.WellFormed) (marked : g.Marked hash) (h : Agrees g hash a b) :
    Agrees g hash b a := by
  induction h with
  | refl a => exact .refl a
  | leaf hh ho hl =>
    exact .leaf hh.symm (isOperation_of_sameLeaf hl ▸ ho) (sameLeaf_symm hl)
  | operation hh ho hs he _ ih =>
    refine .operation hh.symm (isOperation_of_stem wf ho hs) hs.symm he.symm ?_
    intro p hp
    refine ih p.swap ?_
    rw [pairedArgs_eq, ← isCommutative_eq wf marked hh ho hs] at hp
    rw [pairedArgs_eq, ← zip_swap]
    exact mem_map_of_mem hp

theorem forall₂_orderedSources {commutative : Bool}
    (hl : (g.node a).args.length = (g.node b).args.length)
    (ha : ∀ p ∈ g.pairedArgs hash a b, Agrees g hash p.1 p.2)
    (hm : (g.node a).isCommutative = commutative) :
    Forall₂ (Agrees g hash) (g.orderedSources hash commutative a)
      (g.orderedSources hash commutative b) := by
  subst hm
  rw [pairedArgs_eq] at ha
  exact forall₂_iff_zip.2 ⟨by simpa using hl, fun {x y} hx => ha (x, y) hx⟩

theorem exists_between {R : NodeId → NodeId → Prop} {xs ys zs : List NodeId}
    (hl : xs.length = ys.length) (h : Forall₂ R ys zs) {x z : NodeId}
    (hx : (x, z) ∈ xs.zip zs) : ∃ y, (x, y) ∈ xs.zip ys ∧ R y z := by
  obtain ⟨i, hi, heq⟩ := getElem_of_mem hx
  rw [length_zip, Nat.lt_min] at hi
  have hy : i < ys.length := hl ▸ hi.1
  rw [getElem_zip, Prod.mk.injEq] at heq
  obtain ⟨rfl, rfl⟩ := heq
  refine ⟨ys[i], mem_iff_getElem.2 ⟨i, ?_, ?_⟩, h.get hy hi.2⟩
  · rw [length_zip]
    exact Nat.lt_min.2 ⟨hi.1, hy⟩
  · rw [getElem_zip]

protected theorem trans (wf : g.WellFormed) (marked : g.Marked hash) (h : Agrees g hash a b)
    (h' : Agrees g hash b c) : Agrees g hash a c := by
  induction h generalizing c with
  | refl a => exact h'
  | leaf hh ho hl =>
    have ho' := isOperation_of_sameLeaf hl ▸ ho
    cases h' with
    | refl => exact .leaf hh ho hl
    | leaf hh' _ hl' => exact .leaf (hh.trans hh') ho (sameLeaf_trans hl hl')
    | operation _ ho'' => simp [ho'] at ho''
  | @operation a b hh ho hs he ha ih =>
    have ho' := isOperation_of_stem wf ho hs
    cases h' with
    | refl => exact .operation hh ho hs he ha
    | leaf _ ho'' _ => simp [ho'] at ho''
    | operation hh' _ hs' he' ha' =>
      refine .operation (hh.trans hh') ho (hs.trans hs') (he.trans he') ?_
      -- Each pair of operands has an operand of `b` in between.
      have hm := isCommutative_eq wf marked hh ho hs
      have hb := forall₂_orderedSources he' ha' hm.symm
      intro p hp
      rw [pairedArgs_eq] at hp
      obtain ⟨y, hx, hy⟩ := exists_between (by simpa using he) hb hp
      exact ih (p.1, y) (by rwa [pairedArgs_eq]) hy

end Agrees

theorem Agrees.exists_arg (h : Agrees g hash a b) {n : Net} (hn : n ∈ (g.node a).args) :
    ∃ m ∈ (g.node b).args, Agrees g hash n.source m.source := by
  cases h with
  | refl => exact ⟨n, hn, .refl _⟩
  | leaf _ _ he =>
    obtain rfl | ⟨x, y, hx, _, _⟩ := sameLeaf_iff.1 he
    · exact ⟨n, hn, .refl _⟩
    · simp [hx, Node.args] at hn
  | operation _ _ _ hl ha =>
    have hx : n.source ∈ g.orderedSources hash (g.node a).isCommutative a :=
      mem_orderedSources.2 ⟨n, hn, rfl⟩
    have hl' : (g.orderedSources hash (g.node a).isCommutative a).length =
        (g.orderedSources hash (g.node a).isCommutative b).length := by simpa using hl
    obtain ⟨y, hy, hxy⟩ := exists_mem_zip hl' hx
    obtain ⟨m, hm, rfl⟩ := mem_orderedSources.1 hy
    exact ⟨m, hm, ha _ (by rwa [pairedArgs_eq])⟩

end Graph

end Patchwork
