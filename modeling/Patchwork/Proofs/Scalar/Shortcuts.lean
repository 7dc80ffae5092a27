import Patchwork.Scalar.Operators
import Patchwork.Proofs.Graph.Growth
import Patchwork.Proofs.Number.Rational

/-!
# Shortcuts of operators and the kinds of results

Adding or subtracting a plain zero and multiplying by a plain one or zero append no node. A formula
of sums, differences and products can therefore be traced in two ways: by the operators, or with a
node for every application. An appended node holds an integer if both operands do and else a
float. A shortcut hands on the kind of one operand instead, and a product with zero is a plain
number.

So the kind of a result depends on the shortcuts taken below it. What the operators give is
computed from the kinds of the inputs alone, and it has the kind of the appended nodes throughout
the formula exactly if no literal that is left out would have changed a kind.
-/

namespace Patchwork

open List

/-- The operators that take shortcuts. -/
inductive RingOperator where
  | add | sub | mul
  deriving Repr, DecidableEq

namespace RingOperator

def operator : RingOperator → Operator
  | add => .add
  | sub => .sub
  | mul => .mul

def operation : RingOperator → Operation
  | add => .add
  | sub => .sub
  | mul => .mul

def commutes (o : RingOperator) : Bool := o ≠ sub

def onNumbers : RingOperator → Number → Number → Except Fault Number
  | add => Number.add
  | sub => Number.sub
  | mul => Number.mul

/-- Appends a node for an operator. A traced operand stands first if operands may be exchanged. -/
def appended (o : RingOperator) : Scalar → Scalar → Trace Scalar
  | .plain n, .traced v =>
    if o.commutes then Scalar.operate o.operation [.traced v, .plain n] true
    else Scalar.operate o.operation [.plain n, .traced v]
  | s, t => Scalar.operate o.operation [s, t] o.commutes

end RingOperator

/-- A formula over inputs and literals. -/
inductive Formula (ι : Type) where
  | input (k : ι)
  | literal (n : Number)
  | binary (o : RingOperator) (a b : Formula ι)

def Kind.join (j k : Kind) : Kind := .ofCell (j.cell.join k.cell)

def Number.literalKind (n : Number) : Kind := .ofCell n.cell

/-- What a scalar is: a plain number, or a value of some kind. -/
inductive Outcome where
  | number (n : Number)
  | value (k : Kind)

namespace Outcome

def kind : Outcome → Kind
  | number n => n.literalKind
  | value k => k

/-- The outcome of adding a literal to a value, or of subtracting it. -/
def shifted (k : Kind) (n : Number) : Outcome :=
  value (if n.isZero then k else k.join n.literalKind)

/-- The outcome of a product of a value and a literal, which becomes a double first if the value is
one. -/
def scaled (k : Kind) (n : Number) : Except Fault Outcome := do
  let n ← if k = .float then Number.float <$> n.toFloat else pure n
  if n.eq (.int 1) then return value k
  else if n.isZero then return number (.int 0)
  else return value (k.join n.literalKind)

def binary : RingOperator → Outcome → Outcome → Except Fault Outcome
  | o, number a, number b => number <$> o.onNumbers a b
  | .add, value k, number n | .add, number n, value k | .sub, value k, number n =>
    pure (shifted k n)
  | .mul, value k, number n | .mul, number n, value k => scaled k n
  | _, a, b => pure (value (a.kind.join b.kind))

end Outcome

def Scalar.outcome : Scalar → Outcome
  | plain n => .number n
  | traced v => .value v.kind

namespace Formula

variable {ι : Type}

def run (inputs : ι → Value) : Formula ι → Trace Scalar
  | input k => pure (.traced (inputs k))
  | literal n => pure (.plain n)
  | binary o a b => do Scalar.binary o.operator (← a.run inputs) (← b.run inputs)

def appended (inputs : ι → Value) : Formula ι → Trace Scalar
  | input k => pure (.traced (inputs k))
  | literal n => pure (.plain n)
  | binary o a b => do o.appended (← a.appended inputs) (← b.appended inputs)

def kind (kinds : ι → Kind) : Formula ι → Kind
  | input k => kinds k
  | literal n => n.literalKind
  | binary _ a b => (a.kind kinds).join (b.kind kinds)

/-- What appended nodes make of a formula: a literal stays a number. -/
def nominal (kinds : ι → Kind) : Formula ι → Outcome
  | literal n => .number n
  | t => .value (t.kind kinds)

def outcome (kinds : ι → Kind) : Formula ι → Except Fault Outcome
  | input k => pure (.value (kinds k))
  | literal n => pure (.number n)
  | binary o a b => do Outcome.binary o (← a.outcome kinds) (← b.outcome kinds)

def applications : Formula ι → List (Formula ι)
  | binary o a b => binary o a b :: (a.applications ++ b.applications)
  | _ => []

end Formula

/-- A literal can be left out next to a value of some kind: a float absorbs every literal, an
integer absorbs whole ones, and a truth value absorbs none. -/
def Kind.Absorbs (k : Kind) (n : Number) : Prop := k = .float ∨ k = .int ∧ n.cell = .int

/-- A literal next to a value keeps the kind of the node that has both as operands: where it is
left out, it would not have changed the kind, and it is not a factor zero. A literal factor of a
double is read as a double, which must be in range. -/
def RingOperator.KeepsLiteral : RingOperator → Kind → Number → Prop
  | .mul, .float, n => ∃ x, n.toFloat = .ok x ∧ (Number.float x).isZero = false
  | .mul, k, n => n.isZero = false ∧ (n.eq (.int 1) → k.Absorbs n)
  | _, k, n => n.isZero → k.Absorbs n

/-- An operator keeps the kind of its node: one of its operands is a value, and a literal next to it
changes nothing when it is left out. A minuend is never left out. -/
def RingOperator.Keeps : RingOperator → Outcome → Outcome → Prop
  | _, .number _, .number _ => False
  | o, .value k, .number n => o.KeepsLiteral k n
  | o, .number n, .value k => o = sub ∨ o.KeepsLiteral k n
  | _, .value _, .value _ => True

/-- No literal that is left out would have changed a kind, anywhere in a formula. -/
def Formula.Keeps {ι : Type} (kinds : ι → Kind) : Formula ι → Prop
  | .binary o a b =>
    a.Keeps kinds ∧ b.Keeps kinds ∧ o.Keeps (a.nominal kinds) (b.nominal kinds)
  | _ => True

/-! ## Traces with an outcome -/

section Traces

variable {g : Graph}

/-- A trace from a graph has the outcome that was computed, or its fault. -/
structure Trace.Follows (t : Trace Scalar) (g : Graph) (r : Except Fault Outcome) : Prop where
  gives : ∀ c, r = .ok c → t.Gives g fun s _ => s.outcome = c
  fails : ∀ e, r = .error e → t.Fails g (· = e)

theorem Trace.follows_ok {t : Trace Scalar} {c : Outcome}
    (h : t.Gives g fun s _ => s.outcome = c) : t.Follows g (.ok c) := by
  constructor
  · intro c' hc
    cases hc
    exact h
  · simp

theorem Trace.Follows.gives_iff {t : Trace Scalar} {r : Except Fault Outcome} {c : Outcome}
    (h : t.Follows g r) : (t.Gives g fun s _ => s.outcome = c) ↔ r = .ok c := by
  refine ⟨?_, h.gives c⟩
  rintro ⟨s, g', hr, -, hs⟩
  cases r with
  | ok d =>
    obtain ⟨s', g'', hr', -, hs'⟩ := h.gives d rfl
    rw [hr] at hr'
    cases hr'
    rw [← hs, hs']
  | error e =>
    obtain ⟨e', hr', -⟩ := h.fails e rfl
    rw [hr] at hr'
    cases hr'

theorem Trace.Follows.bind {t : Trace Scalar} {r : Except Fault Outcome} {f : Scalar → Trace Scalar}
    {f' : Outcome → Except Fault Outcome} (h : t.Follows g r)
    (hf : ∀ s g', (f s).Follows g' (f' s.outcome)) : (t >>= f).Follows g (r >>= f') := by
  cases r with
  | error e =>
    constructor
    · intro c hc
      cases hc
    · intro e' he
      cases he
      exact (h.fails e rfl).bind
  | ok c =>
    have hg := h.gives c rfl
    constructor
    · intro c' hc
      refine hg.bind fun s g' _ hs => ?_
      exact (hf s g').gives c' (hs ▸ hc)
    · intro e he
      refine hg.bind_fails fun s g' _ hs => ?_
      exact (hf s g').fails e (hs ▸ he)

theorem Kind.join_comm (j k : Kind) : j.join k = k.join j := by
  cases j <;> cases k <;> rfl

theorem Kind.absorbs_iff {k : Kind} {n : Number} : k.Absorbs n ↔ k = k.join n.literalKind := by
  rw [Absorbs, Number.literalKind]
  cases k <;> cases n.cell <;> decide

theorem Kind.float_join (k : Kind) : Kind.join .float k = .float := by
  cases k <;> rfl

namespace Scalar

theorem gives_operand (s : Scalar) : s.lift.Gives g fun w _ => w.kind = s.outcome.kind := by
  cases s with
  | plain n => exact ⟨_, _, rfl, Graph.extends_push g _, rfl⟩
  | traced v => exact .pure rfl

/-- An appended node has the joined kind of its operands. -/
theorem gives_joined (o : RingOperator) (c : Bool) (s t : Scalar) :
    (operate o.operation [s, t] c).Gives g fun r _ =>
      r.outcome = .value (s.outcome.kind.join t.outcome.kind) := by
  have ho : Trace.Gives ([s, t].mapM lift) g fun ws _ =>
      Forall₂ (fun x w => w.kind = x.outcome.kind) [s, t] ws := by
    refine Trace.gives_mapM_forall₂ (R := fun c x _ => c = x) (fun _ h => h) (fun _ h => h) ?_
      (forall₂_same.2 fun _ _ => rfl)
    rintro x _ g₁ rfl
    exact gives_operand x
  have he : ∀ a b : Value, o.operation.result? [a.kind.cell, b.kind.cell] =
      some (a.kind.cell.join b.kind.cell) := by
    intro a b
    cases o <;> rfl
  refine ho.bind ?_
  intro ws g₁ _ hw
  obtain ⟨w, w', rfl⟩ := length_eq_two.1 hw.length_eq.symm
  simp only [forall₂_cons, Forall₂.nil, and_true] at hw
  -- Operands that may be exchanged have the same joined kind in both orders.
  refine Trace.Gives.bind (p := fun r _ => r.kind = w.kind.join w'.kind) ?_ fun r _ _ hr => .pure ?_
  · refine (Trace.gives_node _ _ c fun ws hp => ?_).imp ?_
    · obtain ⟨a, b, rfl⟩ := length_eq_two.1 hp.length_eq
      rw [map_cons, map_cons, map_nil, he]
      rfl
    · rintro _ g₂ - ⟨ws, cell, hp, -, hc, rfl, -⟩
      obtain ⟨a, b, rfl⟩ := length_eq_two.1 hp.length_eq
      rw [map_cons, map_cons, map_nil, he] at hc
      cases hc
      obtain ⟨rfl, rfl⟩ | ⟨rfl, rfl⟩ := Graph.pair_of_perm hp
      · rfl
      · exact Kind.join_comm _ _
  · rw [outcome, hr, hw.1, hw.2]

theorem follows_joined (o : RingOperator) (c : Bool) (s t : Scalar) :
    (operate o.operation [s, t] c).Follows g (.ok (.value (s.outcome.kind.join t.outcome.kind))) :=
  Trace.follows_ok (gives_joined o c s t)

theorem follows_pure (s : Scalar) : Trace.Follows (pure s) g (.ok s.outcome) :=
  Trace.follows_ok (.pure rfl)

theorem follows_arithmetic (r : Except Fault Number) :
    (arithmetic r).Follows g (Outcome.number <$> r) := by
  cases r with
  | ok n => exact follows_pure (plain n)
  | error e =>
    constructor
    · intro c hc
      cases hc
    · intro e' he
      cases he
      exact ⟨e, rfl, rfl⟩

/-- A shortcut of a sum or difference hands on the value. -/
theorem follows_shifted (o : RingOperator) (c : Bool) (v : Value) (n : Number) :
    (if n.isZero then pure (traced v) else operate o.operation [traced v, plain n] c :
      Trace Scalar).Follows g (pure (Outcome.shifted v.kind n)) := by
  by_cases h0 : n.isZero
  · rw [if_pos h0, Outcome.shifted, if_pos h0]
    exact follows_pure (traced v)
  · rw [if_neg h0, Outcome.shifted, if_neg h0]
    exact follows_joined o c (traced v) (plain n)

/-- A product with a literal takes the shortcut that its factor asks for. -/
theorem follows_scaled (v : Value) (n : Number) :
    (scale v n).Follows g (Outcome.scaled v.kind n) := by
  have hc : ∀ n : Number, (if n.eq (.int 1) then pure (traced v)
      else if n.isZero then pure (int 0) else operate .mul [traced v, plain n] true :
        Trace Scalar).Follows g
      (if n.eq (.int 1) then pure (.value v.kind) else if n.isZero then pure (.number (.int 0))
        else pure (.value (v.kind.join n.literalKind))) := by
    intro n
    split
    · exact follows_pure (traced v)
    · split
      · exact follows_pure (int 0)
      · exact follows_joined .mul true (traced v) (plain n)
  rw [scale, Outcome.scaled]
  by_cases hf : v.kind = .float
  · rw [if_pos hf, if_pos hf]
    cases n.toFloat with
    | ok x => exact hc (.float x)
    | error e => exact follows_arithmetic (.error e)
  · rw [if_neg hf, if_neg hf]
    exact hc n

/-- What an operator makes of two scalars depends only on what they are. -/
theorem follows_binary (o : RingOperator) (s t : Scalar) :
    (binary o.operator s t).Follows g (Outcome.binary o s.outcome t.outcome) := by
  cases s with
  | plain a =>
    cases t with
    | plain b => cases o <;> exact follows_arithmetic _
    | traced w =>
      cases o with
      | add => exact follows_shifted .add true w a
      | sub => exact follows_joined .sub false (plain a) (traced w)
      | mul => exact follows_scaled w a
  | traced v =>
    cases t with
    | plain b =>
      cases o with
      | add => exact follows_shifted .add true v b
      | sub => exact follows_shifted .sub false v b
      | mul => exact follows_scaled v b
    | traced w =>
      cases o with
      | add => exact follows_joined .add true (traced v) (traced w)
      | sub => exact follows_joined .sub false (traced v) (traced w)
      | mul => exact follows_joined .mul true (traced v) (traced w)

theorem gives_every_node (o : RingOperator) (s t : Scalar) :
    (o.appended s t).Gives g fun r _ =>
      r.outcome = .value (s.outcome.kind.join t.outcome.kind) := by
  cases s with
  | plain a =>
    cases t with
    | plain b => exact gives_joined o _ (plain a) (plain b)
    | traced w =>
      rw [RingOperator.appended]
      split
      · rw [Kind.join_comm]
        exact gives_joined o true (traced w) (plain a)
      · exact gives_joined o false (plain a) (traced w)
  | traced v => cases t <;> exact gives_joined o _ (traced v) _

end Scalar

end Traces

/-! ## Operators that keep a kind -/

theorem Number.isZero_of_eq_one {n : Number} (h : n.eq (.int 1)) : n.isZero = false := by
  by_contra h0
  have ho := rational_of_eq h
  have hn := rational_of_eq (Bool.not_eq_false _ ▸ h0)
  simp_all [rational]

namespace Outcome

variable {k : Kind} {n : Number}

theorem shifted_iff : shifted k n = value (k.join n.literalKind) ↔ (n.isZero → k.Absorbs n) := by
  by_cases h0 : n.isZero
  · simp [shifted, h0, Kind.absorbs_iff]
  · simp [shifted, h0]

theorem scaled_float_iff :
    scaled .float n = .ok (value .float) ↔
      ∃ x, n.toFloat = .ok x ∧ (Number.float x).isZero = false := by
  rw [scaled]
  cases n.toFloat with
  | error e => simp [bind, Except.bind]
  | ok x =>
    change (if (Number.float x).eq (.int 1) then pure (value .float)
      else if (Number.float x).isZero then pure (number (.int 0))
      else pure (value (Kind.join .float (Number.float x).literalKind)) :
        Except Fault Outcome) = _ ↔ _
    by_cases ho : (Number.float x).eq (.int 1)
    · simp [ho, Number.isZero_of_eq_one ho, pure, Except.pure]
    · by_cases h0 : (Number.float x).isZero <;>
        simp [ho, h0, pure, Except.pure, Kind.float_join]

theorem scaled_iff (hk : k ≠ .float) :
    scaled k n = .ok (value (k.join n.literalKind)) ↔
      n.isZero = false ∧ (n.eq (.int 1) → k.Absorbs n) := by
  rw [scaled, if_neg hk]
  change (if n.eq (.int 1) then pure (value k) else if n.isZero then pure (number (.int 0))
    else pure (value (k.join n.literalKind))) = _ ↔ _
  by_cases ho : n.eq (.int 1)
  · simp [ho, Number.isZero_of_eq_one ho, pure, Except.pure, Kind.absorbs_iff]
  · by_cases h0 : n.isZero <;> simp [ho, h0, pure, Except.pure]

/-- When an operator on a value and a literal keeps the kind of its node. -/
theorem binary_literal_iff (o : RingOperator) :
    binary o (value k) (number n) = .ok (value (k.join n.literalKind)) ↔ o.KeepsLiteral k n := by
  cases o with
  | mul =>
    cases k with
    | float => exact Kind.float_join n.literalKind ▸ scaled_float_iff
    | int => exact scaled_iff (k := .int) (by decide)
    | bool => exact scaled_iff (k := .bool) (by decide)
  | add => exact (iff_of_eq (Except.ok.injEq _ _)).trans shifted_iff
  | sub => exact (iff_of_eq (Except.ok.injEq _ _)).trans shifted_iff

/-- When an operator keeps the kind of its node. -/
theorem binary_iff (o : RingOperator) (a b : Outcome) :
    binary o a b = .ok (value (a.kind.join b.kind)) ↔ o.Keeps a b := by
  cases a with
  | number m =>
    cases b with
    | number n => cases hr : o.onNumbers m n <;> simp [binary, hr, RingOperator.Keeps]
    | value k =>
      cases o with
      | sub => exact iff_of_true rfl (.inl rfl)
      | add =>
        rw [Kind.join_comm, RingOperator.Keeps, or_iff_right (by decide)]
        exact binary_literal_iff .add
      | mul =>
        rw [Kind.join_comm, RingOperator.Keeps, or_iff_right (by decide)]
        exact binary_literal_iff .mul
  | value j =>
    cases b with
    | number n => exact binary_literal_iff o
    | value k => cases o <;> exact iff_of_true rfl trivial

end Outcome

/-! ## Formulas -/

namespace Formula

variable {ι : Type} {kinds : ι → Kind}

@[simp] theorem kind_nominal (t : Formula ι) : (t.nominal kinds).kind = t.kind kinds := by
  cases t <;> rfl

/-- A formula traced by the operators has its outcome. -/
theorem follows_outcome (inputs : ι → Value) (t : Formula ι) (g : Graph) :
    (t.run inputs).Follows g (t.outcome fun k => (inputs k).kind) := by
  induction t generalizing g with
  | input k => exact Scalar.follows_pure _
  | literal n => exact Scalar.follows_pure _
  | binary o a b iha ihb =>
    exact (iha g).bind fun s g₁ => (ihb g₁).bind fun s' g₂ => Scalar.follows_binary o s s'

/-- A formula traced with all its nodes has the kind that they give it. -/
theorem gives_nominal (inputs : ι → Value) (t : Formula ι) (g : Graph) :
    (t.appended inputs).Gives g fun s _ => s.outcome = t.nominal fun k => (inputs k).kind := by
  induction t generalizing g with
  | input k => exact .pure rfl
  | literal n => exact .pure rfl
  | binary o a b iha ihb =>
    refine (iha g).bind fun s g₁ _ hs => (ihb g₁).bind fun s' g₂ _ hs' => ?_
    refine (Scalar.gives_every_node o s s').imp fun r g₃ _ hr => ?_
    rw [hr, hs, hs', kind_nominal, kind_nominal]
    rfl

theorem outcome_of_keeps {t : Formula ι} (h : t.Keeps kinds) :
    t.outcome kinds = .ok (t.nominal kinds) := by
  induction t with
  | input k => rfl
  | literal n => rfl
  | binary o a b iha ihb =>
    obtain ⟨ha, hb, ho⟩ := h
    have hi := (Outcome.binary_iff o _ _).2 ho
    rw [kind_nominal, kind_nominal] at hi
    rw [outcome, iha ha, ihb hb]
    exact hi

/-- When every application has the kind of its appended node: exactly if no literal that is
left out would have changed a kind. -/
theorem keeps_iff (t : Formula ι) :
    (∀ s ∈ t.applications, s.outcome kinds = .ok (.value (s.kind kinds))) ↔ t.Keeps kinds := by
  induction t with
  | input k => simp [applications, Keeps]
  | literal n => simp [applications, Keeps]
  | binary o a b iha ihb =>
    rw [applications, forall_mem_cons, forall_mem_append, iha, ihb]
    -- The operands are nominal, so that the outcome is decided by the operator alone.
    have hi : ∀ _ : a.Keeps kinds, ∀ _ : b.Keeps kinds,
        ((binary o a b).outcome kinds = .ok (.value ((binary o a b).kind kinds)) ↔
          o.Keeps (a.nominal kinds) (b.nominal kinds)) := by
      intro ha hb
      rw [outcome, outcome_of_keeps ha, outcome_of_keeps hb, ← Outcome.binary_iff, kind_nominal,
        kind_nominal]
      rfl
    constructor
    · rintro ⟨ho, ha, hb⟩
      exact ⟨ha, hb, (hi ha hb).1 ho⟩
    · rintro ⟨ha, hb, ho⟩
      exact ⟨(hi ha hb).2 ho, ha, hb⟩

/-- **Shortcuts and kinds.** With a node for every application, a formula has its nominal kind.
Traced by the operators it has that kind exactly if its outcome says so, and every application in
it has the kind of its node exactly if no literal that is left out would have changed a kind. -/
theorem kind_of_shortcuts (inputs : ι → Value) (t : Formula ι) (g : Graph) :
    let kinds := fun k => (inputs k).kind
    ((t.appended inputs).Gives g fun s _ => s.outcome = t.nominal kinds) ∧
    (((t.run inputs).Gives g fun s _ => s.outcome = t.nominal kinds) ↔
      t.outcome kinds = .ok (t.nominal kinds)) ∧
    ((∀ a ∈ t.applications, (a.run inputs).Gives g fun s _ => s.outcome = .value (a.kind kinds)) ↔
      t.Keeps kinds) := by
  intro kinds
  refine ⟨gives_nominal inputs t g, (follows_outcome inputs t g).gives_iff, ?_⟩
  rw [← keeps_iff]
  exact forall₂_congr fun a _ => (follows_outcome inputs a g).gives_iff

/-- **Shortcuts change kinds**: an integer plus the literal 0.0 stays an integer, where a node
would be a float, and an integer times the literal zero is no value at all. -/
theorem zero_changes_kind :
    let inputs : Unit → Value := fun _ => ⟨⟨.int, 0⟩, .int⟩
    let sum : Formula Unit := binary .add (input ()) (literal (.float 0.0))
    let product : Formula Unit := binary .mul (input ()) (literal (.int 0))
    ((sum.run inputs).Gives default fun s _ => s.outcome = .value .int) ∧
    ((sum.appended inputs).Gives default fun s _ => s.outcome = .value .float) ∧
    ((product.run inputs).Gives default fun s _ => s.outcome = .number (.int 0)) ∧
    ((product.appended inputs).Gives default fun s _ => s.outcome = .value .int) := by
  intro inputs sum product
  have hz : (Number.float 0.0).isZero = true := by decide +kernel
  have hs : sum.outcome (fun _ => .int) = .ok (.value .int) := by
    change Except.ok (Outcome.shifted .int (.float 0.0)) = _
    rw [Outcome.shifted, if_pos hz]
  exact ⟨(follows_outcome inputs sum _).gives _ hs, gives_nominal inputs sum _,
    (follows_outcome inputs product _).gives _ rfl, gives_nominal inputs product _⟩

end Formula

end Patchwork
