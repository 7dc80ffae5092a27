import Patchwork.Proofs.Gradient.Derivative

/-!
# The rules that adjoints are passed on by

An operation passes its adjoint on to its operands, each time multiplied by a weight that
depends on what the operands are worth. Under a reading of all operations in a field the
weights are elements of the field, and they say how a node changes with another one below it:
its slope. For nearly all operations the weight is the partial derivative. There are two that
are not: an arc tangent of two arguments has weights of the opposite sign, and a negation has no
weight at all, because it passes on the negative of its operand, whatever its own adjoint is.

Plain adjoints are handed on as they are by sums, differences and remainders only, so the ways
down through these bound how large plain numbers can get.
-/

namespace Patchwork

open Operation List

variable {args rest : List Net} {c : Bool} {n : Net} {o : Operation}

namespace Operation

/-- The operations whose results are whole: they pass nothing on. -/
def isFlat : Operation → Bool
  | .ge | .gt | .eq | .ne | .floordiv | .bwand | .bwor | .bwxor => true
  | _ => false

def hasRule : Operation → Bool
  | .lshift | .rshift | .min | .max | .sign | .get42 | .cast _ => false
  | _ => true

def passesTwo : Operation → Bool
  | .add | .sub | .mul | .div | .mod | .pow | .atan2 => true
  | _ => false

def isSymmetric : Operation → Bool
  | .add | .mul | .eq | .ne | .bwand | .bwor | .bwxor => true
  | _ => false

/-- What looks at two operands at most, and does not mind their order, minds no order. -/
theorem eq_of_perm {α β : Type*} {f : List α → β} {e : β} (hp : ∀ a b, f [a, b] = f [b, a])
    (hl : ∀ a b c l, f (a :: b :: c :: l) = e) {xs ys : List α} (h : xs.Perm ys) : f xs = f ys := by
  rcases xs with _ | ⟨a, _ | ⟨b, _ | ⟨c, rest⟩⟩⟩
  · rw [← h.nil_eq]
  · rw [singleton_perm.1 h]
  · obtain ⟨c, d, rfl⟩ := length_eq_two.1 h.length_eq.symm
    rcases Graph.pair_of_perm h with ⟨rfl, rfl⟩ | ⟨rfl, rfl⟩
    · rfl
    · exact hp _ _
  · have he := h.length_eq
    rcases ys with _ | ⟨a', _ | ⟨b', _ | ⟨c', rest'⟩⟩⟩
    iterate 3 simp at he
    rw [hl, hl]

/-- The operands that get the adjoint itself or its negative. -/
def hands : Operation → Bool × Bool
  | .add | .sub => (true, true)
  | .mod => (true, false)
  | _ => (false, false)

/-- The sum of what belongs to the operands that get the adjoint itself. -/
def handed (o : Operation) : List Nat → Nat
  | [a] => if o.hands.1 then a else 0
  | [a, b] => (if o.hands.1 then a else 0) + if o.hands.2 then b else 0
  | _ => 0

end Operation

/-! ## Readings -/

/-- What numbers, named constants and operations mean. -/
structure Reading (K : Type*) extends Valuation K where
  operation : Operation → List K → K

section Reading

variable {K : Type*} [Field K]

/-- An exact reading: integers mean themselves, equal numbers mean the same, the operations
of the field are read as such, and operations that take their operands in any order do not mind
it. -/
structure Reading.Exact (r : Reading K) : Prop where
  valuation : r.toValuation.Exact
  add : ∀ a b, r.operation .add [a, b] = a + b
  sub : ∀ a b, r.operation .sub [a, b] = a - b
  mul : ∀ a b, r.operation .mul [a, b] = a * b
  div : ∀ a b, r.operation .div [a, b] = a / b
  neg : ∀ a, r.operation .neg [a] = -a
  exchange : ∀ o : Operation, o.isSymmetric = true → ∀ xs ys : List K, xs.Perm ys →
    r.operation o xs = r.operation o ys

/-- A reading in which the operations of the field mean themselves, and all others mean zero. -/
def Valuation.reading (v : Valuation K) : Reading K := ⟨v, Operation.inField⟩

theorem Valuation.Exact.reading {v : Valuation K} (hv : v.Exact) : v.reading.Exact where
  valuation := hv
  add _ _ := rfl
  sub _ _ := rfl
  mul _ _ := rfl
  div _ _ := rfl
  neg _ := rfl
  exchange o ho xs ys h := by
    refine eq_of_perm (f := inField o) (e := 0) ?_ ?_ h
    · intro a b
      cases o <;> simp [isSymmetric] at ho <;>
        simp [inField, add_comm, mul_comm]
    · intro a b c l
      cases o <;> rfl

namespace Operation

/-- The rules: what two operands get for every unit of the adjoint; an operation with one
operand uses the first weight only. -/
def weights (r : Reading K) (o : Operation) (a b : K) : K × K :=
  match o with
  | .add => (1, 1)
  | .sub => (1, -1)
  | .mul => (b, a)
  | .div => (1 / b, -a / (b * b))
  | .mod => (1, -a / b)
  | .log => (1 / a, 0)
  | .exp => (r.operation .exp [a], 0)
  | .pow => (b * r.operation .pow [a, b - 1], r.operation .pow [a, b] * r.operation .log [a])
  | .sqrt => (r.number (.float 0.5) / r.operation .sqrt [a], 0)
  | .abs => (r.operation .sign [a], 0)
  | .sin => (r.operation .cos [a], 0)
  | .cos => (-r.operation .sin [a], 0)
  | .tan => (1 / (r.operation .cos [a] * r.operation .cos [a]), 0)
  | .asin => (1 / r.operation .sqrt [1 - a * a], 0)
  | .acos => (-1 / r.operation .sqrt [1 - a * a], 0)
  | .atan => (1 / (1 + a * a), 0)
  | .atan2 => (-b / (a * a + b * b), a / (a * a + b * b))
  | _ => (0, 0)

def slope (r : Reading K) (o : Operation) : List (Dual K) → K
  | [a] => (o.weights r a.value a.value).1 * a.derivative
  | [a, b] => (o.weights r a.value b.value).1 * a.derivative +
      (o.weights r a.value b.value).2 * b.derivative
  | _ => 0

def onTangents (r : Reading K) (o : Operation) (xs : List (Dual K)) : Dual K :=
  ⟨r.operation o (xs.map Dual.value), o.slope r xs⟩

theorem slope_eq_zero {r : Reading K} (o : Operation) {xs : List (Dual K)}
    (h : ∀ x ∈ xs, x.derivative = 0) : o.slope r xs = 0 := by
  fun_cases slope r o xs <;> simp_all

/-- Operations that take their operands in any order have slopes that do so. -/
theorem onTangents_perm {r : Reading K} (hr : r.Exact) (ho : o.isSymmetric)
    {xs ys : List (Dual K)} (h : xs.Perm ys) : o.onTangents r xs = o.onTangents r ys := by
  refine Dual.ext (hr.exchange o ho _ _ (h.map _)) (eq_of_perm (f := o.slope r) (e := 0) ?_ ?_ h)
  · intro a b
    cases o <;> simp [isSymmetric] at ho <;> simp [slope, weights, add_comm]
  · exact fun a b c l => rfl

end Operation

end Reading

namespace Graph

/-! ## Marks -/

/-- Below a node only operations that take their operands in any order are marked so. -/
def Regular (g : Graph) (x : NodeId) : Prop :=
  ∀ k, g.Within [x] k → ∀ o args, g.node k = .apply o args true → o.isSymmetric = true

variable {g : Graph} {a b j k x y : NodeId}

/-- Equal nodes are marked alike, so the promise holds up to equality. -/
theorem Regular.needed (h : g.Regular x) (tr : g.Traced) (hk : g.Needed [x] k)
    (hn : g.node k = .apply o args true) : o.isSymmetric := by
  obtain ⟨j, hj, hjk⟩ := hk
  obtain ⟨args', hn'⟩ := apply_of_same tr (sameNode_symm tr hjk) hn
  exact h j hj o args' hn'

theorem within_cases (h : g.Within [x] k) : k = x ∨ ∃ n ∈ (g.node x).args, g.Within [n.source] k :=
  h.imp mem_singleton.1 Below.exists_operand

theorem regular_of_operands (h : g.node x = .apply o args c) (hc : c → o.isSymmetric)
    (hg : ∀ n ∈ args, g.Regular n.source) : g.Regular x := by
  intro k hk o' args' hk'
  rcases within_cases hk with rfl | ⟨n, hn, hw⟩
  · cases h.symm.trans hk'
    exact hc rfl
  · rw [h] at hn
    exact hg n hn k hw o' args' hk'

/-! ## Which nodes pass something on -/

/-- A node that an adjoint can come to: it has no operands, or there is a rule for it. -/
def Ruled (g : Graph) (k : NodeId) : Prop :=
  (g.node k).args = [] ∨ ∃ o args c, g.node k = .apply o args c ∧ o.hasRule = true

/-- A node passes something on to another one: it uses it, and it is not flat. -/
def PassesTo (g : Graph) (k j : NodeId) : Prop :=
  ∃ o args c, g.node k = .apply o args c ∧ o.isFlat = false ∧
    ∃ n ∈ args, g.sameNode n.source j = true

def PassedOn (g : Graph) (x k : NodeId) : Prop := ∃ u, g.Needed [x] u ∧ g.PassesTo u k

/-- The adjoint of a node can be passed on: there are no operands, or there is a rule, and
the node has an adjoint. -/
def Handles (g : Graph) (x k : NodeId) : Prop :=
  g.Ruled k ∧ ((g.node k).args = [] ∨ g.sameNode k x = true ∨ g.PassedOn x k)

theorem PassesTo.exists_arg (h : g.PassesTo k j) :
    ∃ n ∈ (g.node k).args, g.sameNode n.source j := by
  obtain ⟨o, args, c, hk, -, hn⟩ := h
  rw [hk]
  exact hn

theorem PassesTo.congr (tr : g.Traced) (h : g.PassesTo k j) (hka : g.sameNode k a)
    (hj : g.sameNode j b) : g.PassesTo a b := by
  obtain ⟨o, args, c, hk, hf, n, hn, hnj⟩ := h
  obtain ⟨args', ha⟩ := apply_of_same tr hka hk
  obtain ⟨m, hm, hnm⟩ := exists_same_arg tr.wellFormed hka (n := n) (by rw [hk]; exact hn)
  rw [ha] at hm
  exact ⟨o, args', c, ha, hf, m, hm,
    sameNode_trans tr (sameNode_symm tr hnm) (sameNode_trans tr hnj hj)⟩

theorem PassedOn.congr (tr : g.Traced) (h : g.PassedOn x k) (hk : g.sameNode k j) :
    g.PassedOn x j := by
  obtain ⟨u, hu, huk⟩ := h
  exact ⟨u, hu, huk.congr tr (sameNode_self g u) hk⟩

theorem operands_of_hasRule (wf : g.WellFormed) (h : g.node k = .apply o args c) (ho : o.hasRule) :
    (∃ n, args = [n] ∧ o.isFlat = false ∧ o.passesTwo = false ∧ o.hands = (false, false)) ∨
      ∃ n m, args = [n, m] ∧ o ≠ .neg ∧ o.passesTwo = !o.isFlat := by
  have hc := (wf k).covered o args c h
  have hl := length_of_result hc
  rw [length_map] at hl
  rcases hl with hn | ht
  · obtain ⟨n, rfl⟩ := length_eq_one_iff.1 hn
    refine .inl ⟨n, rfl, ?_⟩
    cases o <;> simp_all [result?, hasRule, isFlat,
      passesTwo, hands]
  · obtain ⟨n, m, rfl⟩ := length_eq_two.1 ht
    refine .inr ⟨n, m, rfl, ?_⟩
    cases o <;> simp_all [result?, hasRule, isFlat,
      passesTwo]

theorem passesTo_iff (wf : g.WellFormed)
    (h : g.node k = .apply o (n :: rest) c) (ho : o.hasRule) (j : NodeId) :
    g.PassesTo k j ↔ o.isFlat = false ∧ g.sameNode n.source j ∨
      o.passesTwo ∧ g.sameNode (rest.headD n).source j := by
  have hp : g.PassesTo k j ↔ o.isFlat = false ∧ ∃ i ∈ n :: rest, g.sameNode i.source j := by
    constructor
    · rintro ⟨o', args, c', hk, hs⟩
      cases h.symm.trans hk
      exact hs
    · exact fun hs => ⟨o, _, c, h, hs⟩
  rw [hp]
  rcases operands_of_hasRule wf h ho with ⟨n', hg, hf, ht, -⟩ | ⟨n', m, hg, -, ht⟩
  · obtain ⟨rfl, rfl⟩ := List.cons.inj hg
    simp [hf, ht]
  · obtain ⟨rfl, rfl⟩ := List.cons.inj hg
    cases hf : o.isFlat <;> simp [hf, ht]

/-! ## Values and slopes -/

section Slope

variable {K : Type*} [Field K] {r : Reading K}

/-- What a node is worth under a reading. -/
def read (g : Graph) (r : Reading K) (k : NodeId) : K :=
  g.fold (g.leafValue r.toValuation) (fun _ o xs => r.operation o xs) k

def tangent (g : Graph) (r : Reading K) (y k : NodeId) : Dual K :=
  g.fold (fun j => ⟨g.leafValue r.toValuation j, if g.sameNode j y then 1 else 0⟩)
    (fun j o xs => if g.sameNode j y then ⟨(o.onTangents r xs).value, 1⟩ else o.onTangents r xs) k

/-- The slope of a node with respect to a node `y`: how it changes by the rules. -/
def slope (g : Graph) (r : Reading K) (y k : NodeId) : K := (g.tangent r y k).derivative

/-- What a negation adds to the adjoints by passing on the negative of its operand. -/
def turned (g : Graph) (r : Reading K) (y k : NodeId) : K :=
  match g.node k with
  | .apply .neg [n] _ => -g.read r n.source * g.slope r y n.source
  | _ => 0

/-- The number of ways down from a node to a node `j` along which plain adjoints are handed on. -/
def ways (g : Graph) (j k : NodeId) : Nat :=
  g.fold (fun i => if g.sameNode i j then 1 else 0)
    (fun i o xs => (if g.sameNode i j then 1 else 0) + o.handed xs) k

theorem value_tangent (g : Graph) (r : Reading K) (y k : NodeId) :
    (g.tangent r y k).value = g.read r k := by
  refine fold_map Dual.value (fun j => rfl) (fun j o xs => ?_) k
  split <;> rfl

theorem tangent_eq (g : Graph) (r : Reading K) (y k : NodeId) :
    g.tangent r y k = ⟨g.read r k, g.slope r y k⟩ := Dual.ext (value_tangent g r y k) rfl

/-! ## Equations -/

theorem slope_self (wf : g.WellFormed) (h : g.sameNode k y) : g.slope r y k = 1 := by
  cases ho : (g.node k).isOperation with
  | false => simp [slope, tangent, fold_leaf ho, h]
  | true =>
    obtain ⟨o, args, c, hk⟩ := wf.exists_apply ho
    have hb := (wf k).before
    rw [hk] at hb
    simp [slope, tangent, fold_apply hk hb, h]

theorem slope_apply (wf : g.WellFormed) (hy : g.sameNode k y = false) (h : g.node k = .apply o args c) :
    g.slope r y k = o.slope r (args.map fun n => g.tangent r y n.source) := by
  have hb := (wf k).before
  rw [h] at hb
  simp only [slope, tangent, fold_apply h hb, hy, Bool.false_eq_true, if_false]
  rfl

theorem slope_leaf (hy : g.sameNode k y = false) (h : (g.node k).isOperation = false) :
    g.slope r y k = 0 := by
  simp [slope, tangent, fold_leaf h, hy]

omit [Field K] in
theorem read_apply (wf : g.WellFormed) (h : g.node k = .apply o args c) :
    g.read r k = r.operation o (args.map fun n => g.read r n.source) := by
  have hb := (wf k).before
  rw [h] at hb
  exact fold_apply h hb

theorem turned_neg (h : g.node k = .apply .neg [n] c) :
    g.turned r y k = -g.read r n.source * g.slope r y n.source := by
  rw [turned, h]

theorem turned_of_ne (h : ∀ n c, g.node k ≠ .apply .neg [n] c) : g.turned r y k = 0 := by
  rw [turned]
  split
  · next n c hk => exact absurd hk (h n c)
  · rfl

theorem ways_leaf (h : (g.node k).isOperation = false) :
    g.ways j k = if g.sameNode k j then 1 else 0 := fold_leaf h

theorem ways_apply (wf : g.WellFormed) (h : g.node k = .apply o args c) : g.ways j k =
      (if g.sameNode k j then 1 else 0) + o.handed (args.map fun n => g.ways j n.source) := by
  have hb := (wf k).before
  rw [h] at hb
  exact fold_apply h hb

theorem ways_le_one (wf : g.WellFormed)
    (h : g.node k = .apply o args c) (ho : o.hands = (false, false)) : g.ways j k ≤ 1 := by
  have hn : ∀ l, o.handed l = 0 := by
    intro l
    fun_cases handed o l <;> simp_all
  rw [ways_apply wf h, hn]
  split <;> simp

theorem handed_le (wf : g.WellFormed)
    (h : g.node k = .apply o (n :: rest) c) (ho : o.hasRule) (j : NodeId) :
    (if o.hands.1 then g.ways j n.source else 0) +
      (if o.hands.2 then g.ways j (rest.headD n).source else 0) ≤ g.ways j k := by
  rw [ways_apply wf h]
  rcases operands_of_hasRule wf h ho with ⟨n', hg, -, -, hh⟩ | ⟨n', m, hg, -, -⟩
  · simp [hh]
  · obtain ⟨rfl, rfl⟩ := List.cons.inj hg
    exact Nat.le_add_left _ _

/-- What an operation passes on, each time by the slope of the operand, is its adjoint by its
own slope, and what a negation adds. -/
theorem passed_mul_slope (wf : g.WellFormed)
    (h : g.node k = .apply o (n :: rest) c) (ho : o.hasRule) (f : K) :
    (f * (o.weights r (g.read r n.source) (g.read r (rest.headD n).source)).1 +
        if o = .neg then -g.read r (rest.headD n).source else 0) * g.slope r y n.source +
      f * (o.weights r (g.read r n.source) (g.read r (rest.headD n).source)).2 *
        g.slope r y (rest.headD n).source =
      f * o.slope r ((n :: rest).map fun i => g.tangent r y i.source) + g.turned r y k := by
  rcases operands_of_hasRule wf h ho with ⟨n', hg, -, ht, -⟩ | ⟨n', m, hg, hn, -⟩
  · obtain ⟨rfl, rfl⟩ := List.cons.inj hg
    have hs : ∀ a b : K, (o.weights r a b).2 = 0 := by
      intro a b
      cases o <;> simp [Operation.passesTwo] at ht <;> rfl
    by_cases hn : o = .neg
    · subst hn
      rw [turned_neg h]
      simp [Operation.slope, Operation.weights]
    · rw [turned_of_ne fun i d hk => hn (by cases h.symm.trans hk; rfl)]
      simp [Operation.slope, tangent_eq, hs, hn, mul_assoc]
  · obtain ⟨rfl, rfl⟩ := List.cons.inj hg
    rw [turned_of_ne fun i d hk => hn (by cases h.symm.trans hk)]
    simp [Operation.slope, tangent_eq, hn, mul_add, mul_assoc]

/-! ## Equal nodes -/

section

variable (tr : g.Traced) (hr : r.Exact) (hx : g.Regular x) (ha : g.Needed [x] a)
  (hab : g.sameNode a b = true)

include tr hr hx ha hab

theorem tangent_congr : g.tangent r y a = g.tangent r y b := by
  refine fold_congr (P := g.Needed [x]) tr.wellFormed ⟨?_, ?_, ?_, ?_⟩ hab ha
  · intro i j h
    rw [leafValue_congr hr.valuation h, sameNode_congr tr (sameNode_of_sameLeaf tr.wellFormed h)]
  · intro i j h
    rw [sameNode_congr tr h]
  · intro k o args hk hd xs ys hp
    rw [onTangents_perm hr (hx.needed tr hk hd) hp]
  · exact fun k hk n hn => hk.operand tr hn

theorem slope_congr : g.slope r y a = g.slope r y b := by
  rw [slope, slope, tangent_congr tr hr hx ha hab]

theorem read_congr : g.read r a = g.read r b := by
  rw [← value_tangent g r a, tangent_congr tr hr hx ha hab, value_tangent]

omit tr hr hx ha hab in
theorem exists_neg_of_same (tr : g.Traced) (hab : g.sameNode a b)
    (ha : g.node a = .apply .neg [n] c) :
    ∃ m, g.node b = .apply .neg [m] c ∧ g.sameNode n.source m.source := by
  obtain ⟨args, hb⟩ := apply_of_same tr hab ha
  obtain ⟨m, hm, hnm⟩ := exists_same_arg tr.wellFormed hab (n := n) (by simp [ha, Node.args])
  rcases operands_of_hasRule tr.wellFormed hb rfl with ⟨i, rfl, -⟩ | ⟨i, i', -, hn, -⟩
  · rw [hb] at hm
    obtain rfl := mem_singleton.1 hm
    exact ⟨m, hb, hnm⟩
  · exact absurd rfl hn

theorem turned_congr : g.turned r y a = g.turned r y b := by
  by_cases he : ∃ n c, g.node a = .apply .neg [n] c
  · obtain ⟨n, c, hd⟩ := he
    obtain ⟨m, hd', hm⟩ := exists_neg_of_same tr hab hd
    have hn : g.Needed [x] n.source := ha.operand tr (by simp [hd, Node.args])
    rw [turned_neg hd, turned_neg hd', read_congr tr hr hx hn hm, slope_congr tr hr hx hn hm]
  · rw [turned_of_ne fun n c h => he ⟨n, c, h⟩, turned_of_ne]
    intro n c h
    obtain ⟨m, hd, -⟩ := exists_neg_of_same tr (sameNode_symm tr hab) h
    exact he ⟨m, c, hd⟩

end

theorem ways_congr (tr : g.Traced) (hx : g.Regular x) (ha : g.Needed [x] a)
    (hab : g.sameNode a b) : g.ways j a = g.ways j b := by
  refine fold_congr (P := g.Needed [x]) tr.wellFormed ⟨?_, ?_, ?_, ?_⟩ hab ha
  · intro i k h
    rw [sameNode_congr tr (sameNode_of_sameLeaf tr.wellFormed h)]
  · intro i k h
    rw [sameNode_congr tr h]
  · intro k o args hk hd xs ys hp
    have ho := hx.needed tr hk hd
    refine congrArg _ (eq_of_perm (f := o.handed) (e := 0) ?_ ?_ hp)
    · intro a b
      cases o <;> simp [isSymmetric] at ho <;>
        simp [handed, hands, Nat.add_comm]
    · exact fun a b c l => rfl
  · exact fun k hk n hn => hk.operand tr hn

/-- Nothing changes with a node that it does not need. -/
theorem slope_eq_zero (tr : g.Traced) (h : ¬ g.Needed [k] y) : g.slope r y k = 0 := by
  induction k using Nat.strongRecOn with
  | _ k ih =>
    rw [needed_iff, not_or] at h
    obtain ⟨he, hg⟩ := h
    rw [Bool.not_eq_true] at he
    cases ho : (g.node k).isOperation with
    | false => exact slope_leaf he ho
    | true =>
      obtain ⟨o, args, c, hk⟩ := tr.wellFormed.exists_apply ho
      rw [slope_apply tr.wellFormed he hk]
      refine o.slope_eq_zero fun d hd => ?_
      obtain ⟨n, hn, rfl⟩ := mem_map.1 hd
      have hn' : n ∈ (g.node k).args := by rwa [hk]
      exact ih n.source ((tr.wellFormed k).before n hn') fun hnee => hg ⟨n, hn', hnee⟩

end Slope

end Graph

end Patchwork
