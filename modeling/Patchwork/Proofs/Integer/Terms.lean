import Patchwork.Proofs.Integer.Scalars

/-!
# Integer programs traced and untraced

An expression over integers can be run twice: on plain integers, where it computes, and on
traced values, where it appends nodes that the machine computes later. Both runs give the same
integer if every result on the way fits in a word, divisors are not zero and shifts are shorter
than a word. Choices and clamps are no operations of the machine; they are built from products
with truth values, and a truth value counts as 0 or 1 in both runs.
-/

namespace Patchwork

open Scalar Word

namespace Integer

inductive Unary where
  | negate | absolute | abs | sign
  deriving Repr, DecidableEq

inductive Binary where
  | add | sub | mul | floorDiv | bitAnd | bitOr | bitXor | shiftLeft | shiftRight
  | gt | lt | ge | le | eq | ne | minimum | maximum
  deriving Repr, DecidableEq

namespace Unary

def value : Unary → Int → Int
  | negate, i => -i
  | absolute, i | abs, i => i.natAbs
  | sign, i => i.sign

def routine : Unary → Routine
  | negate => .negate
  | absolute => .absolute
  | abs => .abs
  | sign => .sign

end Unary

namespace Binary

def value : Binary → Int → Int → Int
  | add, i, j => i + j
  | sub, i, j => i - j
  | mul, i, j => i * j
  | floorDiv, i, j => i.fdiv j
  | bitAnd, i, j => i.land j
  | bitOr, i, j => i.lor j
  | bitXor, i, j => i.xor j
  | shiftLeft, i, j => i * 2 ^ j.toNat
  | shiftRight, i, j => i.fdiv (2 ^ j.toNat)
  | gt, i, j => if j < i then 1 else 0
  | lt, i, j => if i < j then 1 else 0
  | ge, i, j => if j ≤ i then 1 else 0
  | le, i, j => if i ≤ j then 1 else 0
  | eq, i, j => if i = j then 1 else 0
  | ne, i, j => if i ≠ j then 1 else 0
  | minimum, i, j => min i j
  | maximum, i, j => max i j

def Defined : Binary → Int → Int → Prop
  | floorDiv, _, j => j ≠ 0
  | shiftLeft, _, j | shiftRight, _, j => 0 ≤ j ∧ j < 32
  | _, _, _ => True

instance : (o : Binary) → (i j : Int) → Decidable (o.Defined i j)
  | floorDiv, _, j => inferInstanceAs (Decidable (j ≠ 0))
  | shiftLeft, _, j | shiftRight, _, j => inferInstanceAs (Decidable (0 ≤ j ∧ j < 32))
  | add, _, _ | sub, _, _ | mul, _, _ | bitAnd, _, _ | bitOr, _, _ | bitXor, _, _ | gt, _, _
  | lt, _, _ | ge, _, _ | le, _, _ | eq, _, _ | ne, _, _ | minimum, _, _ | maximum, _, _ =>
    inferInstanceAs (Decidable True)

def routine : Binary → Routine
  | add => .operator .add
  | sub => .operator .sub
  | mul => .operator .mul
  | floorDiv => .operator .floorDiv
  | bitAnd => .operator .bitAnd
  | bitOr => .operator .bitOr
  | bitXor => .operator .bitXor
  | shiftLeft => .operator .shiftLeft
  | shiftRight => .operator .shiftRight
  | gt => .operator .gt
  | lt => .operator .lt
  | ge => .operator .ge
  | le => .operator .le
  | eq => .operator .eq
  | ne => .operator .ne
  | minimum => .pairwise .minimum
  | maximum => .pairwise .maximum

end Binary

/-! ## Functions of two integers -/

section Functions

variable {g g' : Graph} {known : Option (NodeId → Word)} {i j : Int} {s t : Scalar}

def Holds (known : Option (NodeId → Word)) (g : Graph) (i : Int) (d : Datum) : Prop :=
  ∃ s, d = .scalar s ∧ s.Holds known g i

theorem Holds.mono {d : Datum} (h : Holds known g i d) (he : g.Extends g') : Holds known g' i d := by
  obtain ⟨s, rfl, hs⟩ := h
  exact ⟨s, rfl, hs.mono he⟩

theorem gives_scalar {f : Trace Scalar} (h : f.Gives g fun r g' => r.Holds known g' i) :
    (Datum.scalar <$> f).Gives g fun d g' => Holds known g' i d := by
  exact h.bind fun r g' _ hr => .pure ⟨r, rfl, hr⟩

/-- A function of two integers gives its value, traced or not. -/
theorem gives_binary (o : Binary) (hd : o.Defined i j) (hf : Word.Fits (o.value i j))
    (hs : s.Holds known g i) (ht : t.Holds known g j) :
    (o.routine.call ⟨[.scalar s, .scalar t], []⟩).Gives g fun d g' =>
      Holds known g' (o.value i j) d := by
  have hi := hs.fits
  have hj := ht.fits
  cases o with
  | add => exact gives_scalar (gives_sum hf hs ht)
  | sub => exact gives_scalar (gives_difference hf hs ht)
  | mul => exact gives_scalar (gives_product hf hs ht)
  | floorDiv =>
    exact gives_scalar (gives_either (Operation.computes_floordiv hi hj hd hf)
      (fun a b ha hb => ⟨_, Number.floorDiv_whole ha hb hd, rfl⟩) hs ht)
  | bitAnd =>
    exact gives_scalar (gives_either (Operation.computes_bwand hf)
      (fun a b => Number.bitAnd_whole) hs ht)
  | bitOr =>
    exact gives_scalar (gives_either (Operation.computes_bwor hf)
      (fun a b => Number.bitOr_whole) hs ht)
  | bitXor =>
    exact gives_scalar (gives_either (Operation.computes_bwxor hf)
      (fun a b => Number.bitXor_whole) hs ht)
  | shiftLeft =>
    obtain ⟨n, rfl⟩ := Int.eq_ofNat_of_zero_le hd.1
    exact gives_scalar (gives_either (Operation.computes_lshift (Int.ofNat_lt.1 hd.2) hf)
      (fun a b ha hb => ⟨_, Number.shiftLeft_whole ha hb, rfl⟩) hs ht)
  | shiftRight =>
    obtain ⟨n, rfl⟩ := Int.eq_ofNat_of_zero_le hd.1
    exact gives_scalar (gives_either (Operation.computes_rshift hi (Int.ofNat_lt.1 hd.2) hf)
      (fun a b ha hb => ⟨_, Number.shiftRight_whole ha hb, rfl⟩) hs ht)
  | gt =>
    exact gives_scalar (gives_compared (j < i) (fun a b ha hb => Number.lt_whole hb ha)
      (fun _ => gives_comparison (Operation.computes_gt hi hj) (truth_cases _)) hs ht)
  | lt =>
    exact gives_scalar (gives_compared (i < j) (fun a b ha hb => Number.lt_whole ha hb)
      (fun _ hs ht =>
        gives_comparison (Operation.computes_gt hj hi) (truth_cases _) ht hs) hs ht)
  | ge =>
    exact gives_scalar (gives_compared (j ≤ i) (fun a b ha hb => Number.le_whole hb ha)
      (fun _ => gives_comparison (Operation.computes_ge hi hj) (truth_cases _)) hs ht)
  | le =>
    exact gives_scalar (gives_compared (i ≤ j) (fun a b ha hb => Number.le_whole ha hb)
      (fun _ hs ht =>
        gives_comparison (Operation.computes_ge hj hi) (truth_cases _) ht hs) hs ht)
  | eq =>
    exact gives_scalar (gives_compared (i = j) (fun a b ha hb => Number.eq_whole_iff ha hb)
      (fun _ => gives_equality _ (Operation.computes_eq hi hj)) hs ht)
  | ne =>
    refine gives_scalar (gives_compared (i ≠ j) (fun a b ha hb => ?_)
      (fun _ => gives_equality _ (Operation.computes_ne hi hj)) hs ht)
    rw [Bool.not_eq_true', ← Bool.not_eq_true, Number.eq_whole_iff ha hb]
  | minimum =>
    have hv : Binary.minimum.value i j = if i < j then i else j := by
      rw [Binary.value]
      omega
    rw [hv]
    refine gives_scalar (gives_either (Operation.computes_min hi hj)
      (fun a b ha hb => ⟨_, rfl, ?_⟩) hs ht)
    simp only [Number.lt_whole ha hb]
    split <;> assumption
  | maximum =>
    have hv : Binary.maximum.value i j = if j < i then i else j := by
      rw [Binary.value]
      omega
    rw [hv]
    refine gives_scalar (gives_either (Operation.computes_max hi hj)
      (fun a b ha hb => ⟨_, rfl, ?_⟩) hs ht)
    simp only [Number.lt_whole hb ha]
    split <;> assumption

theorem exists_number {r : Except Fault Number} (h : ∃ n, r = .ok n ∧ n.whole? = some i) :
    ∃ n, n.whole? = some i ∧ Datum.scalar <$> arithmetic r = pure (.plain n) := by
  obtain ⟨n, rfl, hn⟩ := h
  exact ⟨n, hn, rfl⟩

theorem exists_truth {c : Bool} (p : Prop) [Decidable p] (h : c ↔ p) :
    ∃ n, n.whole? = some (if p then 1 else 0) ∧
      (pure (Datum.bool c) : Trace Datum) = pure (.plain n) := by
  refine ⟨.bool c, ?_, rfl⟩
  simp only [Number.whole?, h]

/-- On plain integers of any size a function computes its value, and appends nothing. -/
theorem call_plain (o : Binary) (hd : o.Defined i j) {a b : Number} (ha : a.whole? = some i)
    (hb : b.whole? = some j) :
    ∃ n, n.whole? = some (o.value i j) ∧
      o.routine.call ⟨[.plain a, .plain b], []⟩ = pure (.plain n) := by
  cases o with
  | add => exact exists_number ⟨_, Number.add_whole ha hb, rfl⟩
  | sub => exact exists_number ⟨_, Number.sub_whole ha hb, rfl⟩
  | mul => exact exists_number ⟨_, Number.mul_whole ha hb, rfl⟩
  | floorDiv => exact exists_number ⟨_, Number.floorDiv_whole ha hb hd, rfl⟩
  | bitAnd => exact exists_number (Number.bitAnd_whole ha hb)
  | bitOr => exact exists_number (Number.bitOr_whole ha hb)
  | bitXor => exact exists_number (Number.bitXor_whole ha hb)
  | shiftLeft =>
    obtain ⟨n, rfl⟩ := Int.eq_ofNat_of_zero_le hd.1
    exact exists_number ⟨_, Number.shiftLeft_whole ha hb, rfl⟩
  | shiftRight =>
    obtain ⟨n, rfl⟩ := Int.eq_ofNat_of_zero_le hd.1
    exact exists_number ⟨_, Number.shiftRight_whole ha hb, rfl⟩
  | gt => exact exists_truth _ (Number.lt_whole hb ha)
  | lt => exact exists_truth _ (Number.lt_whole ha hb)
  | ge => exact exists_truth _ (Number.le_whole hb ha)
  | le => exact exists_truth _ (Number.le_whole ha hb)
  | eq => exact exists_truth _ (Number.eq_whole_iff ha hb)
  | ne =>
    refine exists_truth (i ≠ j) ?_
    rw [Bool.not_eq_true', ← Bool.not_eq_true, Number.eq_whole_iff ha hb]
  | minimum =>
    refine exists_number ⟨_, rfl, ?_⟩
    by_cases hl : i < j
    · rw [if_pos ((Number.lt_whole ha hb).2 hl), ha, Binary.value, min_eq_left hl.le]
    · rw [if_neg fun h => hl ((Number.lt_whole ha hb).1 h), hb, Binary.value,
        min_eq_right (Int.not_lt.1 hl)]
  | maximum =>
    refine exists_number ⟨_, rfl, ?_⟩
    by_cases hl : j < i
    · rw [if_pos ((Number.lt_whole hb ha).2 hl), ha, Binary.value, max_eq_left hl.le]
    · rw [if_neg fun h => hl ((Number.lt_whole hb ha).1 h), hb, Binary.value,
        max_eq_right (Int.not_lt.1 hl)]

/-- A function of one integer gives its value, traced or not. -/
theorem gives_unary (f : Unary) (hf : Word.Fits (f.value i)) (hs : s.Holds known g i) :
    (f.routine.call ⟨[.scalar s], []⟩).Gives g fun d g' => Holds known g' (f.value i) d := by
  cases f with
  | negate => exact gives_scalar (gives_negative hf hs)
  | absolute =>
    cases s with
    | plain n => exact .pure ⟨_, rfl, Number.abs_whole hs.1, hf⟩
    | traced w => exact gives_scalar (gives_abs hf hs)
  | abs => exact gives_scalar (gives_abs hf hs)
  | sign => exact gives_scalar (gives_sign hs)

/-- A small power is computed on plain numbers and multiplied out on traced ones. -/
theorem gives_power {n : Nat} (hn : n < 8) (hf : Word.Fits (i ^ n)) (hs : s.Holds known g i) :
    ((Routine.operator .pow).call ⟨[.scalar s, .int n], []⟩).Gives g fun d g' =>
      Holds known g' (i ^ n) d := by
  refine gives_scalar (f := binary .pow s (.plain (.int n))) ?_
  cases s with
  | plain a =>
    rw [binary, Number.pow_whole hs.1 rfl]
    exact gives_number rfl hf
  | traced w =>
    change (power (.traced w) (.plain (.int n))).Gives g _
    rw [power_small _ hn]
    cases n with
    | zero =>
      rw [Int.pow_zero]
      exact .pure ⟨rfl, by decide⟩
    | succ n => exact gives_multiplied n hs hf

/-! ## Choices -/

/-- A product with a truth value keeps a number or makes it zero. -/
theorem gives_kept (p : Prop) [Decidable p] (hs : s.Holds known g (if p then 1 else 0))
    (ht : t.Holds known g i) :
    (Datum.binary .mul (.scalar s) (.scalar t)).Gives g fun d g' =>
      Holds known g' (if p then i else 0) d := by
  have hv : Binary.mul.value (if p then 1 else 0) i = if p then i else 0 := by
    split
    · exact Int.one_mul i
    · exact Int.zero_mul i
  have hf : Word.Fits (if p then i else 0) := by
    split
    · exact ht.fits
    · decide
  rw [← hv] at hf ⊢
  exact gives_binary .mul trivial hf hs ht

/-- A choice by a condition is the sum of two products with truth values. -/
theorem gives_choice {m : Int} {c : Scalar} (hc : c.Holds known g m) (hs : s.Holds known g i)
    (ht : t.Holds known g j) :
    (Routine.choose.call ⟨[.scalar c, .scalar s, .scalar t], []⟩).Gives g fun d g' =>
      Holds known g' (if m ≠ 0 then i else j) d := by
  have h0 : ∀ g, (plain (.int 0)).Holds known g 0 := fun _ => ⟨rfl, by decide⟩
  change Trace.Gives (Arithmetic.select (Datum.scalar c) (Datum.scalar s) (Datum.scalar t)) g _
  refine (gives_binary .ne trivial (fits_truth _) hc (h0 g)).bind ?_
  rintro _ g₁ he₁ ⟨yes, rfl, hy⟩
  refine (gives_kept (m ≠ 0) hy (hs.mono he₁)).bind ?_
  rintro _ g₂ he₂ ⟨first, rfl, hf⟩
  have he := he₁.trans he₂
  refine (gives_binary .eq trivial (fits_truth _) (hc.mono he) (h0 g₂)).bind ?_
  rintro _ g₃ he₃ ⟨no, rfl, ho⟩
  refine (gives_kept (m = 0) ho (ht.mono (he.trans he₃))).bind ?_
  rintro _ g₄ he₄ ⟨second, rfl, hn⟩
  have hv : Binary.add.value (if m ≠ 0 then i else 0) (if m = 0 then j else 0) =
      if m ≠ 0 then i else j := by
    rw [Binary.value]
    split <;> simp_all
  have hft : Word.Fits (if m ≠ 0 then i else j) := by
    split
    · exact hs.fits
    · exact ht.fits
  rw [← hv] at hft ⊢
  exact gives_binary .add trivial hft (hf.mono (he₃.trans he₄)) hn

/-- What a clamp means: of the lower bound, the upper bound and the number, the sum of those
whose condition holds. If the bounds are in order, that is one of them. -/
def clamped (x lower upper : Int) : Int :=
  (if x < lower then lower else 0) + (if upper < x then upper else 0) +
    (if lower ≤ x ∧ x ≤ upper then x else 0)

/-- A clamp is the sum of three products with truth values. -/
theorem gives_clamp {m : Int} {x : Scalar} (hf : Word.Fits (clamped m i j))
    (hx : x.Holds known g m) (hs : s.Holds known g i) (ht : t.Holds known g j) :
    (Routine.clamp.call ⟨[.scalar x, .scalar s, .scalar t], []⟩).Gives g fun d g' =>
      Holds known g' (clamped m i j) d := by
  change Trace.Gives (Arithmetic.clamp (Datum.scalar x) (Datum.scalar s) (Datum.scalar t)) g _
  refine (gives_binary .lt trivial (fits_truth _) hx hs).bind ?_
  rintro _ g₁ he₁ ⟨isBelow, rfl, hisBelow⟩
  refine (gives_kept (m < i) hisBelow (hs.mono he₁)).bind ?_
  rintro _ g₂ he₂ ⟨below, rfl, hw⟩
  have he := he₁.trans he₂
  refine (gives_binary .gt trivial (fits_truth _) (hx.mono he) (ht.mono he)).bind ?_
  rintro _ g₃ he₃ ⟨isAbove, rfl, hisAbove⟩
  refine (gives_kept (j < m) hisAbove (ht.mono (he.trans he₃))).bind ?_
  rintro _ g₄ he₄ ⟨above, rfl, ha⟩
  have hu := he.trans (he₃.trans he₄)
  -- Both products count only if the bounds are crossed, and then their sum is the result.
  have ho : Word.Fits ((if m < i then i else 0) + if j < m then j else 0) := by
    by_cases hi : i ≤ m ∧ m ≤ j
    · rw [if_neg (by omega), if_neg (by omega)]
      decide
    · rw [clamped, if_neg hi, Int.add_zero] at hf
      exact hf
  refine (gives_binary .add trivial ho (hw.mono (he₃.trans he₄)) ha).bind ?_
  rintro _ g₅ he₅ ⟨outside, rfl, ho⟩
  have hl := hu.trans he₅
  refine (gives_binary .ge trivial (fits_truth _) (hx.mono hl) (hs.mono hl)).bind ?_
  rintro _ g₆ he₆ ⟨isLow, rfl, hisLow⟩
  have hl' := hl.trans he₆
  refine (gives_binary .le trivial (fits_truth _) (hx.mono hl') (ht.mono hl')).bind ?_
  rintro _ g₇ he₇ ⟨isHigh, rfl, hisHigh⟩
  have hb : Binary.bitAnd.value (Binary.ge.value m i) (Binary.le.value m j) =
      if i ≤ m ∧ m ≤ j then 1 else 0 := by
    by_cases hlow : i ≤ m <;> by_cases hh : m ≤ j <;>
      simp only [Binary.value, hlow, hh] <;> rfl
  refine (gives_binary .bitAnd trivial (hb ▸ fits_truth _) (hisLow.mono he₇) hisHigh).bind ?_
  rintro _ g₈ he₈ ⟨isInside, rfl, hisInside⟩
  rw [hb] at hisInside
  refine (gives_kept _ hisInside (hx.mono (hl'.trans (he₇.trans he₈)))).bind ?_
  rintro _ g₉ he₉ ⟨inside, rfl, hi⟩
  exact gives_binary .add trivial hf (ho.mono (he₆.trans (he₇.trans (he₈.trans he₉)))) hi

end Functions

/-! ## Expressions -/

/-- Expressions over integers, with inputs named by a type. An exponent is a literal. -/
inductive Term (ι : Type) where
  | input (k : ι)
  | literal (i : Int)
  | unary (f : Unary) (a : Term ι)
  | binary (o : Binary) (a b : Term ι)
  | power (a : Term ι) (n : Fin 8)
  | choose (condition a b : Term ι)
  | clamp (a lower upper : Term ι)

namespace Term

variable {ι : Type}

def value (env : ι → Int) : Term ι → Int
  | input k => env k
  | literal i => i
  | unary f a => f.value (a.value env)
  | binary o a b => o.value (a.value env) (b.value env)
  | power a n => a.value env ^ n.val
  | choose c a b => if c.value env ≠ 0 then a.value env else b.value env
  | clamp a lower upper => clamped (a.value env) (lower.value env) (upper.value env)

/-- Every result on the way is defined and fits in a word, inputs and literals included. -/
def Fits (env : ι → Int) : Term ι → Prop
  | input k => Word.Fits (env k)
  | literal i => Word.Fits i
  | unary f a => a.Fits env ∧ Word.Fits (f.value (a.value env))
  | binary o a b => a.Fits env ∧ b.Fits env ∧ o.Defined (a.value env) (b.value env) ∧
      Word.Fits (o.value (a.value env) (b.value env))
  | power a n => a.Fits env ∧ Word.Fits (a.value env ^ n.val)
  | choose c a b => c.Fits env ∧ a.Fits env ∧ b.Fits env
  | clamp a lower upper => a.Fits env ∧ lower.Fits env ∧ upper.Fits env ∧
      Word.Fits (clamped (a.value env) (lower.value env) (upper.value env))

def decideFits (env : ι → Int) : (t : Term ι) → Decidable (t.Fits env)
  | input k => inferInstanceAs (Decidable (Word.Fits (env k)))
  | literal i => inferInstanceAs (Decidable (Word.Fits i))
  | unary _ a | power a _ =>
    have := a.decideFits env
    inferInstanceAs (Decidable (_ ∧ _))
  | binary _ a b =>
    have := a.decideFits env
    have := b.decideFits env
    inferInstanceAs (Decidable (_ ∧ _ ∧ _ ∧ _))
  | choose c a b =>
    have := c.decideFits env
    have := a.decideFits env
    have := b.decideFits env
    inferInstanceAs (Decidable (_ ∧ _ ∧ _))
  | clamp a lower upper =>
    have := a.decideFits env
    have := lower.decideFits env
    have := upper.decideFits env
    inferInstanceAs (Decidable (_ ∧ _ ∧ _ ∧ _))

instance (env : ι → Int) (t : Term ι) : Decidable (t.Fits env) := t.decideFits env

/-- Runs an expression on scalars, which may be plain numbers or traced values. -/
def run (inputs : ι → Scalar) : Term ι → Trace Datum
  | input k => pure (.scalar (inputs k))
  | literal i => pure (.int i)
  | unary f a => do f.routine.call ⟨[← a.run inputs], []⟩
  | binary o a b => do o.routine.call ⟨[← a.run inputs, ← b.run inputs], []⟩
  | power a n => do (Routine.operator .pow).call ⟨[← a.run inputs, .int n.val], []⟩
  | choose c a b => do
    Routine.choose.call ⟨[← c.run inputs, ← a.run inputs, ← b.run inputs], []⟩
  | clamp a lower upper => do
    Routine.clamp.call ⟨[← a.run inputs, ← lower.run inputs, ← upper.run inputs], []⟩

variable {g : Graph} {known : Option (NodeId → Word)} {env : ι → Int} {inputs : ι → Scalar}

/-- A run succeeds and gives a scalar that stands for the value of the expression. -/
theorem gives_value (t : Term ι) (h : t.Fits env) (hi : ∀ k, (inputs k).Holds known g (env k)) :
    (t.run inputs).Gives g fun d g' => Holds known g' (t.value env) d := by
  induction t generalizing g with
  | input k => exact .pure ⟨inputs k, rfl, hi k⟩
  | literal i => exact .pure ⟨_, rfl, rfl, h⟩
  | unary f a ih =>
    refine (ih h.1 hi).bind ?_
    rintro _ g₁ _ ⟨s, rfl, hs⟩
    exact gives_unary f h.2 hs
  | binary o a b iha ihb =>
    obtain ⟨ha, hb, hd, hf⟩ := h
    refine (iha ha hi).bind ?_
    rintro _ g₁ he₁ ⟨s, rfl, hs⟩
    refine (ihb hb fun k => (hi k).mono he₁).bind ?_
    rintro _ g₂ he₂ ⟨t, rfl, ht⟩
    exact gives_binary o hd hf (hs.mono he₂) ht
  | power a n ih =>
    refine (ih h.1 hi).bind ?_
    rintro _ g₁ _ ⟨s, rfl, hs⟩
    exact gives_power n.isLt h.2 hs
  | choose c a b ihc iha ihb =>
    obtain ⟨hc, ha, hb⟩ := h
    refine (ihc hc hi).bind ?_
    rintro _ g₁ he₁ ⟨r, rfl, hr⟩
    refine (iha ha fun k => (hi k).mono he₁).bind ?_
    rintro _ g₂ he₂ ⟨s, rfl, hs⟩
    refine (ihb hb fun k => (hi k).mono (he₁.trans he₂)).bind ?_
    rintro _ g₃ he₃ ⟨t, rfl, ht⟩
    exact gives_choice (hr.mono (he₂.trans he₃)) (hs.mono he₃) ht
  | clamp a lower upper iha ihl ihu =>
    obtain ⟨ha, hl, hu, hf⟩ := h
    refine (iha ha hi).bind ?_
    rintro _ g₁ he₁ ⟨r, rfl, hr⟩
    refine (ihl hl fun k => (hi k).mono he₁).bind ?_
    rintro _ g₂ he₂ ⟨s, rfl, hs⟩
    refine (ihu hu fun k => (hi k).mono (he₁.trans he₂)).bind ?_
    rintro _ g₃ he₃ ⟨t, rfl, ht⟩
    exact gives_clamp hf (hr.mono (he₂.trans he₃)) (hs.mono he₃) ht

/-- **A program means the same traced and untraced.** Let every result on the way fit, and let
the inputs be plain or traced integers with known words. Then the run on plain integers succeeds
with a plain number, the traced run succeeds as well, and what is read after the machine has
computed the traced result is the same integer. -/
theorem traced_eq_plain (t : Term ι) (env : ι → Int) (h : t.Fits env) (given : NodeId → Word)
    (inputs : ι → Scalar) (hinputs : ∀ k, (inputs k).Holds (some given) g (env k)) :
    (∀ g₀, (t.run fun k => .int (env k)).Gives g₀ fun d _ =>
      ∃ n, d = .scalar (.plain n) ∧ n.whole? = some (t.value env)) ∧
    (t.run inputs).Gives g fun d g' =>
      ∃ s, d = .scalar s ∧ (s.reading given g').whole? = some (t.value env) := by
  constructor
  · intro g₀
    have hp : ∀ k, (Scalar.int (env k)).Holds none g₀ (env k) := fun k =>
      ⟨rfl, (hinputs k).fits⟩
    refine (t.gives_value h hp).imp ?_
    rintro _ g' _ ⟨s, rfl, hs⟩
    cases s with
    | plain n => exact ⟨n, rfl, hs.1⟩
    | traced w => obtain ⟨_, ⟨⟩, _⟩ := hs
  · refine (t.gives_value h hinputs).imp ?_
    rintro _ g' _ ⟨s, rfl, hs⟩
    exact ⟨s, rfl, hs.whole?_reading⟩

def twoConstants : Graph :=
  (Graph.empty.push (.constant (.int (-7)) false)).push (.constant (.int 2) false)

/-- The quotient of two inputs, clamped to an interval of which one end is the product of a
comparison and a power. -/
def clampedQuotient : Term Bool :=
  .clamp (.binary .floorDiv (.input false) (.input true)) (.literal (-3))
    (.binary .mul (.binary .lt (.input false) (.literal 0)) (.power (.input true) 3))

/-- The quotient of -7 and 2 is -4, which is clamped to -3, with both numbers traced. -/
theorem clampedQuotient_eq_plain :
    (∀ g₀, (clampedQuotient.run fun k => .int (if k then 2 else -7)).Gives g₀ fun d _ =>
      ∃ n, d = .scalar (.plain n) ∧ n.whole? = some (-3)) ∧
    (clampedQuotient.run fun k => .traced ⟨⟨.int, if k then 1 else 0⟩, .int⟩).Gives twoConstants
      fun d g' => ∃ s, d = .scalar s ∧
        (s.reading (fun k => whole (if k = 1 then 2 else -7)) g').whole? = some (-3) := by
  have hf : clampedQuotient.Fits fun k => if k then 2 else -7 := by decide
  refine traced_eq_plain clampedQuotient (fun k => if k then 2 else -7) hf _
    (fun k => .traced ⟨⟨.int, if k then 1 else 0⟩, .int⟩) fun k => ?_
  cases k with
  | false => exact Scalar.holds_traced (Value.holds_constant (n := -7) rfl rfl (by decide))
  | true => exact Scalar.holds_traced (Value.holds_constant (n := 2) rfl rfl (by decide))

end Term

end Integer

end Patchwork
