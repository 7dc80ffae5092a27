import Patchwork.Gradient
import Patchwork.Proofs.Gradient.Rules
import Patchwork.Proofs.Number.Whole
import Mathlib.Tactic.FieldSimp

/-!
# What adjoints mean

Adjoints are scalars: plain numbers for as long as they can, and traced values from then on.
Under an exact reading both have a meaning in a field, and the operators that pass adjoints on
compute what they say.

The plain numbers among adjoints are doubles, or the integer zero. That is enough for every
operator to give a result. They are whole as well, because only ones are ever added and
subtracted, and they are exact as long as they are small. What follows from being small is
stated under a condition, so that the same lemmas say what is computed when it holds, and that
something is computed when it does not.
-/

namespace Patchwork

open Operation Graph List

/-! ## Plain adjoints -/

namespace Number

/-- A double, or the integer zero. -/
inductive IsLight : Number → Prop
  | zero : IsLight (.int 0)
  | float (x : Float) : IsLight (.float x)

variable {m n : Number} {i j : Int}

theorem StandsFor.unique (h : n.StandsFor i) (h' : n.StandsFor j) : i = j :=
  (h.eq_iff j).1 ((h'.eq_iff j).2 rfl)

theorem IsLight.neg (h : n.IsLight) : n.neg.IsLight := by
  cases h with
  | zero => exact .zero
  | float x => exact .float _

theorem IsLight.exists_add (hm : m.IsLight) (hn : n.IsLight) : ∃ k, m.add n = .ok k ∧ k.IsLight := by
  cases hm <;> cases hn
  exacts [⟨_, rfl, .zero⟩, ⟨_, rfl, .float _⟩, ⟨_, rfl, .float _⟩, ⟨_, rfl, .float _⟩]

end Number

section Exact

variable {K : Type*} [Field K] {v : Valuation K}

theorem Valuation.Exact.number_eq (hv : v.Exact) {n : Number} {i : Int} (h : n.StandsFor i) :
    v.number n = i := by
  rw [hv.eq n (.int i) ((h.eq_iff i).2 rfl), hv.int]

/-- The double nearest to a plain adjoint means the same. -/
theorem Valuation.Exact.exists_toFloat {n : Number} (h : n.IsLight) :
    ∃ x, n.toFloat = .ok x ∧ ∀ v : Valuation K, v.Exact → v.number (.float x) = v.number n := by
  cases h with
  | zero =>
    refine ⟨0.0, rfl, fun v hv => ?_⟩
    rw [hv.number_eq Number.standsFor_zero, hv.int]
  | float x => exact ⟨x, rfl, fun v _ => rfl⟩

end Exact

variable {K : Type*} {g g' : Graph}

theorem Graph.Extends.read (h : g.Extends g') (r : Reading K) {k : NodeId} (hk : k < g.size) :
    g'.read r k = g.read r k := by
  refine h.fold (fun j hj => ?_) (fun _ _ => rfl) hk
  rw [Graph.leafValue, Graph.leafValue, h.node j hj]

namespace Scalar

/-! ## Meanings -/

/-- What a scalar means: a plain number itself, and a traced value what its node is worth. -/
def read (g : Graph) (r : Reading K) : Scalar → K
  | plain n => r.number n
  | traced w => g.read r w.net.source

def Inside (g : Graph) : Scalar → Prop
  | plain _ => True
  | traced w => w.net.source < g.size

/-- A plain scalar is a double or the integer zero. -/
def IsLight : Scalar → Prop
  | plain n => n.IsLight
  | traced _ => True

def IsWhole : Scalar → Prop
  | plain n => ∃ i, n.StandsFor i
  | traced _ => True

open Classical in
/-- How large a plain scalar is; traced ones do not count. -/
noncomputable def magnitude : Scalar → Nat
  | plain n => if h : ∃ i, n.StandsFor i then h.choose.natAbs else 0
  | traced _ => 0

theorem magnitude_plain {n : Number} {i : Int} (h : n.StandsFor i) :
    (plain n).magnitude = i.natAbs := by
  have he : ∃ i, n.StandsFor i := ⟨i, h⟩
  rw [magnitude, dif_pos he, he.choose_spec.unique h]

variable {s : Scalar}

theorem Inside.mono (h : s.Inside g) (he : g.Extends g') : s.Inside g' := by
  cases s with
  | plain n => trivial
  | traced w => exact Nat.lt_of_lt_of_le h he.size

theorem Inside.read_eq (h : s.Inside g) (he : g.Extends g') (r : Reading K) :
    s.read g' r = s.read g r := by
  cases s with
  | plain n => rfl
  | traced w => exact he.read r h

/-! ## Appended operations -/

theorem gives_lift (hs : s.Inside g) : s.lift.Gives g fun w g' =>
    w.net.source < g'.size ∧ ∀ r : Reading K, g'.read r w.net.source = s.read g r := by
  cases s with
  | plain n =>
    refine ⟨.ofNet ⟨n.cell, g.size⟩, g.push (.constant n true), rfl, extends_push g _, ?_, ?_⟩
    · simp [Value.ofNet]
    · intro r
      have hn : (g.push (.constant n true)).node g.size = .constant n true := node_push_size g _
      rw [Value.ofNet, Graph.read, fold_leaf (by rw [hn]; rfl), Graph.leafValue, hn]
      rfl
  | traced w => exact .pure ⟨hs, fun r => rfl⟩

theorem gives_lifts (ss : List Scalar) (hss : ∀ s ∈ ss, s.Inside g) :
    Trace.Gives (ss.mapM lift) g fun ws g' => ws.length = ss.length ∧
      (∀ w ∈ ws, w.net.source < g'.size) ∧
      ∀ r : Reading K, (ws.map fun w => g'.read r w.net.source) = ss.map (read g r) := by
  induction ss generalizing g with
  | nil => exact .pure ⟨rfl, by simp, fun r => rfl⟩
  | cons s rest ih =>
    obtain ⟨hs, hrs⟩ := forall_mem_cons.1 hss
    rw [mapM_cons]
    refine (gives_lift (K := K) hs).bind fun w g₁ he ⟨hw, hd⟩ => ?_
    refine (ih fun s hs => (hrs s hs).mono he).bind fun ws g₂ he' ⟨hl, hws, hr⟩ => ?_
    refine .pure ⟨by simp [hl], ?_, fun r => ?_⟩
    · exact forall_mem_cons.2 ⟨Nat.lt_of_lt_of_le hw he'.size, hws⟩
    · rw [map_cons, hr, he'.read r hw, hd]
      exact congrArg _ (map_congr_left fun s hs => (hrs s hs).read_eq he r)

theorem gives_apply {o : Operation} {ws : List Value} (c : Bool)
    (hs : ∀ w ∈ ws, w.net.source < g.size)
    (hr : ∀ cells : List Cell, cells.length = ws.length → (o.result? cells).isSome) :
    (Trace.apply o ws c).Gives g fun w g' => w.net.source < g'.size ∧
      ∃ ws', ws'.Perm ws ∧ (c = false → ws' = ws) ∧ ∀ r : Reading K,
        g'.read r w.net.source = r.operation o (ws'.map fun w => g.read r w.net.source) := by
  refine (Trace.gives_node o ws c fun ws' hp => hr _ (by simp [hp.length_eq])).imp ?_
  rintro w g' - ⟨ws', cell, hp, hm, -, rfl, rfl⟩
  refine ⟨by simp [Value.ofNet], ws', hp, hm, fun r => ?_⟩
  have hb : ∀ n ∈ ws'.map Value.net, n.source < g.size := by
    intro n hn
    obtain ⟨w, hw, rfl⟩ := mem_map.1 hn
    exact hs w (hp.mem_iff.1 hw)
  have hd := node_push_size g (.apply o (ws'.map Value.net) c)
  change Graph.read _ r g.size = _
  rw [Graph.read, fold_apply hd hb]
  refine congrArg (r.operation o) ?_
  rw [List.map_map]
  exact map_congr_left fun w hw =>
    (extends_push g _).read r (hs w (hp.mem_iff.1 hw))

/-- An appended operation means what it computes, and may see its operands in another
order if it is marked as commutative. -/
theorem gives_operate {o : Operation} {ss : List Scalar} (c : Bool) (hs : ∀ s ∈ ss, s.Inside g)
    (he : ∀ cells : List Cell, cells.length = ss.length → (o.result? cells).isSome) :
    (operate o ss c).Gives g fun p g' => p.isTraced ∧ p.Inside g' ∧
      ∀ r : Reading K, ∃ xs : List K, xs.Perm (ss.map (read g r)) ∧
        (c = false → xs = ss.map (read g r)) ∧ p.read g' r = r.operation o xs := by
  refine (gives_lifts (K := K) ss hs).bind fun ws g₁ _ ⟨hl, hws, hr⟩ => ?_
  refine (gives_apply (K := K) c hws (by rwa [hl])).bind fun w g₂ _ ⟨hw, ws', hp, hm, hd⟩ => ?_
  refine .pure ⟨rfl, hw, fun r => ⟨_, ?_, ?_, hd r⟩⟩
  · exact hr r ▸ hp.map _
  · exact fun hc => by rw [hm hc, hr]

/-! ## Scalars with a meaning -/

variable [Field K] {small : Prop} {t : Scalar} {w : Value} {m m' : Nat} {f f' : Reading K → K}

/-- What a scalar means if only the operations of the field have a meaning. -/
def value (g : Graph) (v : Valuation K) : Scalar → K
  | plain n => v.number n
  | traced w => g.value v w.net.source

/-- A scalar has a meaning, which depends on the reading. -/
structure Reads (small : Prop) (g : Graph) (s : Scalar) (f : Reading K → K) : Prop where
  inside : s.Inside g
  read_eq : small → ∀ r : Reading K, r.Exact → s.read g r = f r

/-- A traced scalar has a meaning. -/
structure Traces (small : Prop) (g : Graph) (s : Scalar) (f : Reading K → K) : Prop extends
    Reads small g s f where
  isTraced : s.isTraced = true

/-- A scalar can be an adjoint. -/
structure IsAdjoint (small : Prop) (g : Graph) (s : Scalar) : Prop where
  inside : s.Inside g
  light : s.IsLight
  whole : small → s.IsWhole

/-- An adjoint has a meaning, and is not larger than `m` if it is plain. -/
structure Means (small : Prop) (g : Graph) (s : Scalar) (m : Nat) (f : Reading K → K) : Prop extends
    IsAdjoint small g s where
  magnitude_le : small → s.magnitude ≤ m
  read_eq : small → ∀ r : Reading K, r.Exact → s.read g r = f r

theorem IsAdjoint.mono (h : s.IsAdjoint small g) (he : g.Extends g') : s.IsAdjoint small g' :=
  { h with inside := h.inside.mono he }

theorem IsAdjoint.means (h : s.IsAdjoint small g) :
    s.Means small g s.magnitude fun r : Reading K => s.read g r :=
  { h with magnitude_le := fun _ => Nat.le_refl _, read_eq := fun _ _ _ => rfl }

theorem Means.reads (h : s.Means small g m f) : s.Reads small g f := ⟨h.inside, h.read_eq⟩

theorem Reads.mono (h : s.Reads small g f) (he : g.Extends g') : s.Reads small g' f where
  inside := h.inside.mono he
  read_eq hs r hr := (h.inside.read_eq he r).trans (h.read_eq hs r hr)

theorem Reads.congr (h : s.Reads small g f) (heq : ∀ r : Reading K, r.Exact → f r = f' r) :
    s.Reads small g f' where
  inside := h.inside
  read_eq hs r hr := (h.read_eq hs r hr).trans (heq r hr)

theorem Traces.mono (h : s.Traces small g f) (he : g.Extends g') : s.Traces small g' f :=
  { h with toReads := h.toReads.mono he }

theorem Traces.congr (h : s.Traces small g f) (heq : ∀ r : Reading K, r.Exact → f r = f' r) :
    s.Traces small g f' := { h with toReads := h.toReads.congr heq }

theorem Means.mono (h : s.Means small g m f) (he : g.Extends g') : s.Means small g' m f :=
  { h with toIsAdjoint := h.toIsAdjoint.mono he, read_eq := (h.reads.mono he).read_eq }

theorem Means.congr (h : s.Means small g m f) (heq : ∀ r : Reading K, r.Exact → f r = f' r) :
    s.Means small g m f' := { h with read_eq := (h.reads.congr heq).read_eq }

theorem Traces.means (h : s.Traces small g f) (m : Nat) : s.Means small g m f := by
  obtain ⟨h, ht⟩ := h
  cases s with
  | plain n => cases ht
  | traced w => exact ⟨⟨h.inside, trivial, fun _ => trivial⟩, fun _ => Nat.zero_le m, h.read_eq⟩

theorem Means.of_zero (h : s.Means small g 0 f) (m : Nat) : s.Means small g m f :=
  { h with magnitude_le := fun hs => Nat.le_trans (h.magnitude_le hs) (Nat.zero_le m) }

theorem reads_int (g : Graph) (i : Int) : (int i).Reads small g fun _ : Reading K => (i : K) :=
  ⟨trivial, fun _ _ hr => hr.valuation.int i⟩

theorem isAdjoint_plain {n : Number} {i : Int} (h : n.StandsFor i) : (plain n).IsAdjoint small g where
  inside := trivial
  light := by
    cases h with
    | zero => exact .zero
    | float h => exact .float _
  whole _ := ⟨i, h⟩

theorem gives_pair {o : Operation} {c : Bool} (he : ∀ a b, (o.result? [a, b]).isSome)
    (hc : c → o.isSymmetric) (hs : s.Reads small g f) (ht : t.Reads small g f') :
    (operate o [s, t] c).Gives g fun p g' =>
      p.Traces small g' fun r => r.operation o [f r, f' r] := by
  refine (gives_operate (K := K) c ?_ ?_).imp fun p g' _ ⟨htr, hi, hd⟩ =>
    ⟨⟨hi, fun hm r hr => ?_⟩, htr⟩
  · simpa using ⟨hs.inside, ht.inside⟩
  · intro cells hl
    obtain ⟨a, b, rfl⟩ := length_eq_two.1 hl
    exact he a b
  · obtain ⟨xs, hp, hsm, heq⟩ := hd r
    have ha : [s, t].map (read g r) = [f r, f' r] := by
      simp [hs.read_eq hm r hr, ht.read_eq hm r hr]
    rw [ha] at hp hsm
    rw [heq]
    cases c with
    | false => rw [hsm rfl]
    | true => exact hr.exchange o (hc rfl) _ _ hp

theorem gives_unary {o : Operation} (he : ∀ a, (o.result? [a]).isSome) (hs : s.Reads small g f) :
    (operate o [s] false).Gives g fun p g' => p.Traces small g' fun r => r.operation o [f r] := by
  refine (gives_operate (K := K) false ?_ ?_).imp fun p g' _ ⟨ht, hi, hd⟩ =>
    ⟨⟨hi, fun hm r hr => ?_⟩, ht⟩
  · simpa using hs.inside
  · intro cells hc
    obtain ⟨a, rfl⟩ := length_eq_one_iff.1 hc
    exact he a
  · obtain ⟨xs, -, hsm, heq⟩ := hd r
    rw [heq, hsm rfl, map_singleton, hs.read_eq hm r hr]

/-! ## Operators with a traced operand -/

theorem Traces.exists_eq (h : s.Traces small g f) : ∃ w, s = traced w := by
  obtain ⟨-, ht⟩ := h
  cases s with
  | plain n => cases ht
  | traced w => exact ⟨w, rfl⟩

theorem gives_append_add (hs : s.Reads small g f) (ht : t.Reads small g f') :
    (operate .add [s, t] true).Gives g fun p g' => p.Traces small g' fun r => f r + f' r :=
  (gives_pair (fun _ _ => rfl) (fun _ => rfl) hs ht).imp fun _ _ _ hp =>
    hp.congr fun _ hr => hr.add _ _

theorem gives_append_mul (hs : s.Reads small g f) (ht : t.Reads small g f') :
    (operate .mul [s, t] true).Gives g fun p g' => p.Traces small g' fun r => f r * f' r :=
  (gives_pair (fun _ _ => rfl) (fun _ => rfl) hs ht).imp fun _ _ _ hp =>
    hp.congr fun _ hr => hr.mul _ _

theorem Reads.eq_zero {n : Number} (h : (plain n).Reads small g f) (h0 : n.isZero)
    (hs : small) {r : Reading K} (hr : r.Exact) : f r = 0 := by
  have hd : r.number n = f r := h.read_eq hs r hr
  rw [← hd, hr.valuation.eq n (.int 0) h0, hr.valuation.int, Int.cast_zero]

theorem gives_add_plain {n : Number} (hs : (traced w).Reads small g f)
    (ht : (plain n).Reads small g f') :
    Trace.Gives (if n.isZero then pure (traced w) else operate .add [traced w, plain n] true) g
      fun p g' => p.Traces small g' fun r => f r + f' r := by
  split
  · next h0 =>
    refine .pure ⟨⟨hs.inside, fun hm r hr => ?_⟩, rfl⟩
    rw [hs.read_eq hm r hr, ht.eq_zero h0 hm hr, add_zero]
  · exact gives_append_add hs ht

theorem gives_add_traced (hs : s.Reads small g f) (ht : t.Traces small g f') :
    (add s t).Gives g fun p g' => p.Traces small g' fun r => f r + f' r := by
  obtain ⟨w, rfl⟩ := ht.exists_eq
  cases s with
  | plain n =>
    exact (gives_add_plain ht.toReads hs).imp fun _ _ _ hp => hp.congr fun _ _ => add_comm _ _
  | traced v => exact gives_append_add hs ht.toReads

theorem gives_sub_plain {n : Number} (hs : s.Traces small g f) (ht : (plain n).Reads small g f') :
    (sub s (plain n)).Gives g fun p g' => p.Traces small g' fun r => f r - f' r := by
  obtain ⟨w, rfl⟩ := hs.exists_eq
  rw [sub]
  split
  · next h0 =>
    refine .pure ⟨⟨hs.inside, fun hm r hr => ?_⟩, rfl⟩
    rw [hs.read_eq hm r hr, ht.eq_zero h0 hm hr, sub_zero]
  · exact (gives_pair (fun _ _ => rfl) (by simp) hs.toReads ht).imp fun _ _ _ hp =>
      hp.congr fun _ hr => hr.sub _ _

theorem gives_sub_traced (hs : s.Reads small g f) (ht : t.Traces small g f') :
    (sub s t).Gives g fun p g' => p.Traces small g' fun r => f r - f' r := by
  obtain ⟨w, rfl⟩ := ht.exists_eq
  have heq : sub s (traced w) = operate .sub [s, traced w] false := by cases s <;> rfl
  rw [heq]
  exact (gives_pair (fun _ _ => rfl) (by simp) hs ht.toReads).imp fun _ _ _ hp =>
    hp.congr fun _ hr => hr.sub _ _

theorem gives_neg_traced (hs : s.Traces small g f) :
    s.neg.Gives g fun p g' => p.Traces small g' fun r => -f r := by
  obtain ⟨w, rfl⟩ := hs.exists_eq
  exact (gives_unary (fun _ => rfl) hs.toReads).imp fun _ _ _ hp => hp.congr fun _ hr => hr.neg _

theorem gives_mul_traced (hs : s.Traces small g f) (ht : t.Traces small g f') :
    (mul s t).Gives g fun p g' => p.Traces small g' fun r => f r * f' r := by
  obtain ⟨v, rfl⟩ := hs.exists_eq
  obtain ⟨w, rfl⟩ := ht.exists_eq
  exact gives_append_mul hs.toReads ht.toReads

theorem gives_elementary (e : Elementary) (hs : s.Traces small g f) :
    (elementary e s).Gives g fun p g' =>
      p.Traces small g' fun r => r.operation e.operation [f r] := by
  obtain ⟨w, rfl⟩ := hs.exists_eq
  exact gives_unary (fun _ => by cases e <;> rfl) hs.toReads

theorem gives_sign_traced (hs : s.Traces small g f) :
    (sign s).Gives g fun p g' => p.Traces small g' fun r => r.operation .sign [f r] := by
  obtain ⟨w, rfl⟩ := hs.exists_eq
  exact gives_unary (fun _ => rfl) hs.toReads

theorem gives_power (hs : s.Traces small g f) (ht : t.Traces small g f') :
    (binary .pow s t).Gives g fun p g' =>
      p.Traces small g' fun r => r.operation .pow [f r, f' r] := by
  obtain ⟨v, rfl⟩ := hs.exists_eq
  obtain ⟨w, rfl⟩ := ht.exists_eq
  exact gives_pair (fun _ _ => rfl) (by simp) hs.toReads ht.toReads

/-! ## Operators on adjoints -/

theorem Means.exists_int {n : Number} (h : (plain n).Means small g m f) (hs : small) :
    ∃ i : Int, n.StandsFor i ∧ i.natAbs ≤ m ∧ ∀ r : Reading K, r.Exact → f r = i := by
  obtain ⟨i, hi⟩ := h.whole hs
  refine ⟨i, hi, magnitude_plain hi ▸ h.magnitude_le hs, fun r hr => ?_⟩
  rw [← h.read_eq hs r hr]
  exact hr.valuation.number_eq hi

theorem gives_arithmetic {n : Number} (hn : n.IsLight)
    (h : small → ∃ i : Int, n.StandsFor i ∧ i.natAbs ≤ m ∧ ∀ r : Reading K, r.Exact → f r = i) :
    (arithmetic (.ok n)).Gives g fun p g' => p.Means small g' m f := by
  refine .pure ⟨⟨trivial, hn, fun hs => ?_⟩, fun hs => ?_, fun hs r hr => ?_⟩ <;>
    obtain ⟨i, hi, hl, hf⟩ := h hs
  · exact ⟨i, hi⟩
  · exact magnitude_plain hi ▸ hl
  · exact (hr.valuation.number_eq hi).trans (hf r hr).symm

/-- Sums of adjoints are exact as long as plain ones are small. -/
theorem gives_add (hs : s.Means small g m f) (ht : t.Means small g m' f')
    (he : small → m + m' ≤ 2 ^ 53) :
    (add s t).Gives g fun p g' => p.Means small g' (m + m') fun r => f r + f' r := by
  cases t with
  | traced w => exact (gives_add_traced hs.reads ⟨ht.reads, rfl⟩).imp fun _ _ _ hp => hp.means _
  | plain b =>
    cases s with
    | traced w => exact (gives_add_plain hs.reads ht.reads).imp fun _ _ _ hp => hp.means _
    | plain a =>
      obtain ⟨k, hk, hl⟩ := Number.IsLight.exists_add hs.light ht.light
      rw [add, hk]
      refine gives_arithmetic hl fun hm => ?_
      obtain ⟨i, hi, him, hf⟩ := hs.exists_int hm
      obtain ⟨j, hj, hjm, hf'⟩ := ht.exists_int hm
      have hij : (i + j).natAbs ≤ m + m' := Nat.le_trans (Int.natAbs_add_le i j) (by omega)
      obtain ⟨k', hk', ha⟩ := hi.exists_add hj (Nat.le_trans hij (he hm))
      obtain rfl : k = k' := Except.ok.inj (hk.symm.trans hk')
      exact ⟨i + j, ha, hij, fun r hr => by simp [hf r hr, hf' r hr]⟩

theorem gives_neg (hs : s.Means small g m f) :
    s.neg.Gives g fun p g' => p.Means small g' m fun r => -f r := by
  cases s with
  | plain n =>
    refine gives_arithmetic (Number.IsLight.neg hs.light) fun hm => ?_
    obtain ⟨i, hi, him, hf⟩ := hs.exists_int hm
    exact ⟨-i, hi.neg, by simpa using him, fun r hr => by simp [hf r hr]⟩
  | traced w => exact (gives_neg_traced ⟨hs.reads, rfl⟩).imp fun _ _ _ hp => hp.means m

/-- A product with a plain number: one and zero are left out, so that no plain number but
zero comes out. -/
theorem gives_scale {n : Number} (hw : (traced w).Reads small g f)
    (hn : (plain n).Means small g m f') :
    (scale w n).Gives g fun p g' => p.Means small g' 0 fun r => f r * f' r := by
  have hc : ∀ k : Number, (small → ∀ r : Reading K, r.Exact → r.number k = f' r) → Trace.Gives
      (if k.eq (.int 1) then pure (traced w) else if k.isZero then pure (int 0)
        else operate .mul [traced w, plain k] true) g
        fun p g' => p.Means small g' 0 fun r => f r * f' r := by
    intro k hk
    have he : (plain k).Reads small g f' := ⟨trivial, hk⟩
    split
    · next ho =>
      refine .pure (Traces.means ⟨⟨hw.inside, fun hs r hr => ?_⟩, rfl⟩ 0)
      rw [hw.read_eq hs r hr, ← hk hs r hr, hr.valuation.eq k (.int 1) ho,
        hr.valuation.int, Int.cast_one, mul_one]
    split
    · next h0 =>
      refine gives_arithmetic .zero fun hs => ⟨0, .zero, Nat.le_refl 0, fun r hr => ?_⟩
      rw [he.eq_zero h0 hs hr, mul_zero, Int.cast_zero]
    · exact (gives_append_mul hw he).imp fun _ _ _ hp => hp.means 0
  rw [scale]
  split
  · obtain ⟨x, hx, hu⟩ := Valuation.Exact.exists_toFloat (K := K) hn.light
    rw [hx]
    exact hc _ fun hs r hr => (hu _ hr.valuation).trans (hn.read_eq hs r hr)
  · exact hc n hn.read_eq

theorem gives_mul (hs : s.Traces small g f) (ht : t.Means small g m f') :
    (mul s t).Gives g fun p g' => p.Means small g' 0 fun r => f r * f' r := by
  obtain ⟨w, rfl⟩ := hs.exists_eq
  cases t with
  | plain n => exact gives_scale hs.toReads ht
  | traced w' => exact (gives_append_mul hs.toReads ht.reads).imp fun _ _ _ hp => hp.means 0

theorem gives_mul_right (hs : s.Means small g m f) (ht : t.Traces small g f') :
    (mul s t).Gives g fun p g' => p.Means small g' 0 fun r => f r * f' r := by
  obtain ⟨w, rfl⟩ := ht.exists_eq
  cases s with
  | plain n =>
    exact (gives_scale ht.toReads hs).imp fun _ _ _ hp => hp.congr fun _ _ => mul_comm _ _
  | traced w' => exact (gives_append_mul hs.reads ht.toReads).imp fun _ _ _ hp => hp.means 0

end Scalar

/-! ## What operations pass on -/

namespace Gradient

open Scalar

variable [Field K] {small : Prop} {s t : Scalar} {o : Operation} {m : Nat}
  {f f' fa fb : Reading K → K}

theorem gives_quotient (hs : s.Reads small g f) (ht : t.Traces small g f') :
    (quotient s t).Gives g fun p g' => p.Traces small g' fun r => f r / f' r := by
  obtain ⟨w, rfl⟩ := ht.exists_eq
  have heq : quotient s (.traced w) = operate .div [s, .traced w] false := by
    cases s <;> rfl
  rw [heq]
  exact (gives_pair (fun _ _ => rfl) (by simp) hs ht.toReads).imp fun _ _ _ hp =>
    hp.congr fun _ hr => hr.div _ _

theorem gives_squared (hs : s.Traces small g f) :
    (squared s).Gives g fun p g' => p.Traces small g' fun r => f r * f r := by
  obtain ⟨w, rfl⟩ := hs.exists_eq
  exact gives_append_mul hs.toReads hs.toReads

/-- What an operand gets, if it gets anything. -/
def Contributes (small : Prop) (g : Graph) (m : Nat) (f : Reading K → K) : Option Scalar → Prop
  | some s => s.Means small g m f
  | none => ∀ r : Reading K, f r = 0

/-- What is passed on to two operands, given the adjoint and what the operands are worth. -/
structure Passed (small : Prop) (g : Graph) (o : Operation) (m : Nat) (f fa fb : Reading K → K)
    (p : Option Scalar × Option Scalar) : Prop where
  first : Contributes small g (if o.hands.1 then m else 0)
    (fun r => f r * (o.weights r (fa r) (fb r)).1 + if o = .neg then -fb r else 0) p.1
  second : Contributes small g (if o.hands.2 then m else 0)
    (fun r => f r * (o.weights r (fa r) (fb r)).2) p.2
  first_isSome : p.1.isSome = !o.isFlat
  second_isSome : p.2.isSome = o.passesTwo

theorem gives_nothing (hf : o.isFlat) (ht : o.passesTwo = false) (hn : o ≠ .neg)
    (hw : ∀ (r : Reading K) (a b : K), o.weights r a b = (0, 0)) :
    Trace.Gives (pure (none, none)) g fun p g' => Passed small g' o m f fa fb p :=
  .pure ⟨fun r => by simp [hw, hn], fun r => by simp [hw], by simp [hf], by simp [ht]⟩

theorem gives_first {x : Trace Scalar} (hf : o.isFlat = false) (ht : o.passesTwo = false)
    (hs : ∀ (r : Reading K) (a b : K), (o.weights r a b).2 = 0)
    (h : x.Gives g fun p g' => p.Means small g' 0
      fun r => f r * (o.weights r (fa r) (fb r)).1 + if o = .neg then -fb r else 0) :
    Trace.Gives (do return (some (← x), none)) g fun p g' => Passed small g' o m f fa fb p :=
  h.bind fun _ _ _ hp => .pure ⟨hp.of_zero _, fun r => by simp [hs], by simp [hf], by simp [ht]⟩

theorem gives_weighted (hn : o ≠ .neg) (hs : s.Means small g m f)
    (ht : t.Traces small g fun r => (o.weights r (fa r) (fb r)).1) :
    (mul s t).Gives g fun p g' => p.Means small g' 0
      fun r => f r * (o.weights r (fa r) (fb r)).1 + if o = .neg then -fb r else 0 :=
  (gives_mul_right hs ht).imp fun _ _ _ hp => hp.congr fun r _ => by rw [if_neg hn, add_zero]

theorem gives_over_root {β : Type} {p : β → Graph → Prop} (i : Int) {next : Scalar → Trace β}
    (hs : s.Traces small g f) (hn : ∀ w g', g.Extends g' →
      w.Traces small g' (fun r => i / r.operation .sqrt [1 - f r * f r]) → (next w).Gives g' p) :
    Trace.Gives (do next (← quotient (int i) (← elementary .sqrt (← sub (int 1) (← squared s)))))
      g p := by
  refine (gives_squared hs).bind fun q g₁ hx₁ hq => ?_
  refine (gives_sub_traced (reads_int g₁ 1) hq).bind fun d g₂ hx₂ hd => ?_
  refine (gives_elementary .sqrt hd).bind fun e g₃ hx₃ he => ?_
  refine (gives_quotient (reads_int g₃ i) he).bind fun w g₄ hx₄ hw => ?_
  refine hn w g₄ (hx₁.trans (hx₂.trans (hx₃.trans hx₄))) (hw.congr fun r _ => ?_)
  rw [Int.cast_one]
  rfl

/-- What an operation passes on follows the rules. -/
theorem gives_contributions (ho : o.hasRule) {p q : Scalar} (hp : p.Traces small g fa)
    (hq : q.Traces small g fb) (hs : s.Means small g m f) :
    (contributions o p q s).Gives g fun c g' => Passed small g' o m f fa fb c := by
  cases o with
  | lshift | rshift | min | max | sign | get42 => cases ho
  | cast c => cases ho
  | ge | gt | eq | ne | floordiv | bwand | bwor | bwxor =>
    exact gives_nothing rfl rfl (by simp) fun _ _ _ => rfl
  | add =>
    refine .pure ⟨hs.congr fun r _ => ?_, hs.congr fun r _ => ?_, rfl, rfl⟩
    · simp [weights]
    · simp [weights]
  | sub =>
    refine (gives_neg hs).bind fun t g₁ hx ht => .pure ?_
    refine ⟨(hs.mono hx).congr fun r _ => ?_, ht.congr fun r _ => ?_, rfl, rfl⟩
    · simp [weights]
    · simp [weights]
  | mul =>
    refine (gives_mul hq hs).bind fun u g₁ hx hu => ?_
    refine (gives_mul (hp.mono hx) (hs.mono hx)).bind fun v g₂ hx' hv => .pure ?_
    refine ⟨(hu.mono hx').congr fun r _ => ?_, hv.congr fun r _ => ?_, rfl, rfl⟩
    · simp [weights, mul_comm]
    · simp [weights, mul_comm]
  | div =>
    refine (gives_quotient hs.reads hq).bind fun u g₁ hx hu => ?_
    refine (gives_neg_traced (hp.mono hx)).bind fun n g₂ hx₂ hn => ?_
    have hx₂' := hx.trans hx₂
    refine (gives_mul hn (hs.mono hx₂')).bind fun d g₃ hx₃ hd => ?_
    refine (gives_squared (hq.mono (hx₂'.trans hx₃))).bind fun e g₄ hx₄ he => ?_
    refine (gives_quotient (hd.mono hx₄).reads he).bind fun v g₅ hx₅ hv => .pure ?_
    have ha := hx₂.trans (hx₃.trans (hx₄.trans hx₅))
    refine ⟨((hu.mono ha).congr fun r _ => ?_).means _, (hv.congr fun r _ => ?_).means _, rfl, rfl⟩
    · simp [weights, div_eq_mul_inv]
    · simp only [weights, div_eq_mul_inv]
      ring
  | mod =>
    refine (gives_neg_traced hp).bind fun n g₁ hx hn => ?_
    refine (gives_mul hn (hs.mono hx)).bind fun d g₂ hx₂ hd => ?_
    have hx₂' := hx.trans hx₂
    refine (gives_quotient hd.reads (hq.mono hx₂')).bind fun v g₃ hx₃ hv => .pure ?_
    refine ⟨(hs.mono (hx₂'.trans hx₃)).congr fun r _ => ?_, (hv.congr fun r _ => ?_).means _,
      rfl, rfl⟩
    · simp [weights]
    · simp only [weights, div_eq_mul_inv]
      ring
  | log =>
    refine gives_first rfl rfl (fun _ _ _ => rfl) ((gives_quotient hs.reads hp).imp
      fun _ _ _ hu => (hu.congr fun r _ => ?_).means 0)
    simp [weights, div_eq_mul_inv]
  | exp =>
    refine gives_first rfl rfl (fun _ _ _ => rfl) ?_
    exact (gives_elementary .exp hp).bind fun w g₁ hx hw => gives_weighted (by simp) (hs.mono hx) hw
  | sin =>
    refine gives_first rfl rfl (fun _ _ _ => rfl) ?_
    exact (gives_elementary .cos hp).bind fun w g₁ hx hw => gives_weighted (by simp) (hs.mono hx) hw
  | abs =>
    refine gives_first rfl rfl (fun _ _ _ => rfl) ?_
    exact (gives_sign_traced hp).bind fun w g₁ hx hw => gives_weighted (by simp) (hs.mono hx) hw
  | pow =>
    have hone : (int 1).Reads small g fun _ : Reading K => ((1 : Int)) := reads_int g 1
    refine (gives_sub_plain hq hone).bind fun d g₁ hx₁ hd => ?_
    refine (gives_power (hp.mono hx₁) hd).bind fun e g₂ hx₂ he => ?_
    have hx₂' := hx₁.trans hx₂
    refine (gives_mul_traced (hq.mono hx₂') he).bind fun t g₃ hx₃ ht => ?_
    have hx₃' := hx₂'.trans hx₃
    refine (gives_mul ht (hs.mono hx₃')).bind fun u g₄ hx₄ hu => ?_
    have hx₄' := hx₃'.trans hx₄
    refine (gives_power (hp.mono hx₄') (hq.mono hx₄')).bind fun e' g₅ hx₅ he' => ?_
    have hx₅' := hx₄'.trans hx₅
    refine (gives_elementary .log (hp.mono hx₅')).bind fun l g₆ hx₆ hl => ?_
    refine (gives_mul_traced (he'.mono hx₆) hl).bind fun t' g₇ hx₇ ht' => ?_
    have hx₇' := hx₅'.trans (hx₆.trans hx₇)
    refine (gives_mul ht' (hs.mono hx₇')).bind fun v g₈ hx₈ hv => .pure ?_
    have ha := hx₅.trans (hx₆.trans (hx₇.trans hx₈))
    refine ⟨(hu.mono ha).congr fun r _ => ?_, hv.congr fun r _ => ?_, rfl, rfl⟩
    · simp [weights, mul_comm]
    · simp [weights, mul_comm, Elementary.operation]
  | sqrt =>
    refine gives_first rfl rfl (fun _ _ _ => rfl) ?_
    refine (gives_elementary .sqrt hp).bind fun e g₁ hx₁ he => ?_
    refine (gives_quotient (s := float 0.5) ⟨trivial, fun _ _ _ => rfl⟩ he).bind
      fun w g₂ hx₂ hw => ?_
    exact gives_weighted (by simp) (hs.mono (hx₁.trans hx₂)) hw
  | neg =>
    refine gives_first rfl rfl (fun _ _ _ => rfl) ((gives_neg_traced hq).imp
      fun _ _ _ hu => (hu.congr fun r _ => ?_).means 0)
    simp [weights]
  | cos =>
    refine gives_first rfl rfl (fun _ _ _ => rfl) ?_
    refine (gives_elementary .sin hp).bind fun e g₁ hx₁ he => ?_
    refine (gives_neg_traced he).bind fun w g₂ hx₂ hw => ?_
    exact gives_weighted (by simp) (hs.mono (hx₁.trans hx₂)) hw
  | tan =>
    refine gives_first rfl rfl (fun _ _ _ => rfl) ?_
    refine (gives_elementary .cos hp).bind fun e g₁ hx₁ he => ?_
    refine (gives_squared he).bind fun d g₂ hx₂ hd => ?_
    refine (gives_quotient (reads_int g₂ 1) hd).bind fun w g₃ hx₃ hw => ?_
    refine gives_weighted (by simp) (hs.mono (hx₁.trans (hx₂.trans hx₃))) (hw.congr fun r _ => ?_)
    simp [weights, Elementary.operation]
  | asin =>
    refine gives_first rfl rfl (fun _ _ _ => rfl) (gives_over_root 1 hp fun w g₁ hx hw => ?_)
    refine gives_weighted (by simp) (hs.mono hx) (hw.congr fun r _ => ?_)
    simp [weights]
  | acos =>
    refine gives_first rfl rfl (fun _ _ _ => rfl) (gives_over_root (-1) hp fun w g₁ hx hw => ?_)
    refine gives_weighted (by simp) (hs.mono hx) (hw.congr fun r _ => ?_)
    simp [weights]
  | atan =>
    refine gives_first rfl rfl (fun _ _ _ => rfl) ?_
    refine (gives_squared hp).bind fun d g₁ hx₁ hd => ?_
    refine (gives_add_traced (reads_int g₁ 1) hd).bind fun e g₂ hx₂ he => ?_
    refine (gives_quotient (reads_int g₂ 1) he).bind fun w g₃ hx₃ hw => ?_
    refine gives_weighted (by simp) (hs.mono (hx₁.trans (hx₂.trans hx₃))) (hw.congr fun r _ => ?_)
    simp [weights]
  | atan2 =>
    refine (gives_squared hp).bind fun c g₁ hx₁ hc => ?_
    refine (gives_squared (hq.mono hx₁)).bind fun d g₂ hx₂ hd => ?_
    refine (gives_add_traced (hc.mono hx₂).toReads hd).bind fun e g₃ hx₃ he => ?_
    have hx₃' := hx₁.trans (hx₂.trans hx₃)
    refine (gives_neg_traced (hq.mono hx₃')).bind fun n g₄ hx₄ hn => ?_
    refine (gives_quotient hn.toReads (he.mono hx₄)).bind fun w g₅ hx₅ hw => ?_
    have hx₅' := hx₃'.trans (hx₄.trans hx₅)
    refine (gives_mul_right (hs.mono hx₅') hw).bind fun u g₆ hx₆ hu => ?_
    have hx₆' := hx₅'.trans hx₆
    refine (gives_quotient (hp.mono hx₆').toReads (he.mono (hx₄.trans (hx₅.trans hx₆)))).bind
      fun w' g₇ hx₇ hw' => ?_
    refine (gives_mul_right (hs.mono (hx₆'.trans hx₇)) hw').bind fun v g₈ hx₈ hv => .pure ?_
    refine ⟨(hu.mono (hx₇.trans hx₈)).congr fun r _ => ?_, hv.congr fun r _ => ?_, rfl, rfl⟩
    · simp [weights]
    · simp [weights]

end Gradient

end Patchwork
