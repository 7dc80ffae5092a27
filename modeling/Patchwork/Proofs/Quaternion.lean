import Patchwork.Quaternion
import Mathlib.Algebra.Quaternion
import Mathlib.Algebra.Ring.SumsOfSquares
import Mathlib.Analysis.Real.Sqrt
import Mathlib.LinearAlgebra.CrossProduct
import Mathlib.LinearAlgebra.Matrix.Determinant.Basic
import Mathlib.LinearAlgebra.Matrix.Notation
import Mathlib.Tactic.LinearCombination

/-!
# Quaternions in exact arithmetic

Where sums, products, quotients and roots of sums of squares are exact, the formulas of quaternions
compute in the quaternions over a field: the laws of composition are those of this algebra. A unit
quaternion rotates as its matrix does, which is orthogonal with determinant one.
-/

open scoped Quaternion

namespace Patchwork

variable {m : Type → Type} [Monad m] {K : Type} [Field K]

/-! ## Exact arithmetic -/

namespace Arithmetic

/-- Exact arithmetic over a field: the operations are those of the field, nothing but zero
passes for a plain zero, and a sum of squares has a root whose square it is. -/
structure IsExact (m : Type → Type) (K : Type) [Monad m] [Field K] [Arithmetic m K] : Prop where
  int : ∀ i : Int, (int m i : K) = i
  real : ∀ i : Int, (real m i : K) = i
  add : ∀ a b : K, (add a b : m K) = pure (a + b)
  sub : ∀ a b : K, (sub a b : m K) = pure (a - b)
  mul : ∀ a b : K, (mul a b : m K) = pure (a * b)
  div : ∀ a b : K, b ≠ 0 → (div a b : m K) = pure (a / b)
  neg : ∀ a : K, (neg a : m K) = pure (-a)
  square : ∀ a : K, (square a : m K) = pure (a ^ 2)
  isZero : ∀ a : K, isZero m a = true → a = 0
  root : ∀ s : K, IsSumSq s → ∃ r, (elementary .sqrt s : m K) = pure r ∧ r ^ 2 = s

/-- The arithmetic of a field with a function that gives the roots. Two is the only exponent. -/
@[reducible] def ofField (K : Type) [Field K] [DecidableEq K] (root : K → K) :
    Arithmetic (Except Fault) K where
  literal
    | .int i => i
    | .decimal d e => d * 10 ^ e
  named := pure
  isTraced _ := false
  isZero a := decide (a = 0)
  binary
    | .add, a, b => pure (a + b)
    | .sub, a, b => pure (a - b)
    | .mul, a, b => pure (a * b)
    | .trueDiv, a, b => if b = 0 then throw .divisionByZero else pure (a / b)
    | .pow, a, b => if b = 2 then pure (a ^ 2) else throw .illTyped
    | _, _, _ => throw .illTyped
  neg a := pure (-a)
  elementary
    | .sqrt, a => pure (root a)
    | _, _ => throw .illTyped
  atan2 _ _ := throw .illTyped

theorem isExact_ofField [DecidableEq K] {root : K → K} (hr : ∀ s, IsSumSq s → root s ^ 2 = s) :
    letI := ofField K root; IsExact (Except Fault) K := by
  let := ofField K root
  refine ⟨fun _ => rfl, fun i => ?_, fun _ _ => rfl, fun _ _ => rfl, fun _ _ => rfl,
    fun a b hb => if_neg hb, fun _ => rfl, fun a => ?_, fun a => of_decide_eq_true,
    fun s hs => ⟨_, rfl, hr s hs⟩⟩
  · change (i : K) * 10 ^ (0 : Int) = i
    rw [zpow_zero, mul_one]
  · change (if ((2 : Int) : K) = 2 then _ else _) = _
    rw [if_pos (by norm_cast)]

namespace IsExact

variable [LawfulMonad m] [Arithmetic m K] (E : IsExact m K)

include E

theorem total (xs : List K) : (total xs : m K) = pure xs.sum := by
  have hf : ∀ a, xs.foldlM Arithmetic.add a = (pure (a + xs.sum) : m K) := by
    induction xs with
    | nil => simp
    | cons x xs ih =>
      intro a
      rw [List.foldlM_cons, E.add, pure_bind, ih, List.sum_cons, add_assoc]
  rw [Arithmetic.total, E.int, hf, Int.cast_zero, zero_add]

theorem mixedTotal (xs : List K) : (mixedTotal xs : m K) = pure xs.sum := by
  have hp := (List.filter_append_perm (isTraced m) xs).sum_eq
  rw [List.sum_append, add_comm] at hp
  rw [Arithmetic.mixedTotal, E.total, E.total, pure_bind, pure_bind, E.add, hp]

end IsExact

end Arithmetic

/-! ## The algebra of quaternions -/

namespace Quaternion

open Arithmetic

def sumOfSquares (q : Quaternion K) : K := q.w ^ 2 + q.x ^ 2 + q.y ^ 2 + q.z ^ 2

/-- Quaternions are the quaternions over the field. -/
def hamilton : Quaternion K ≃ ℍ[K] where
  toFun q := ⟨q.w, q.x, q.y, q.z⟩
  invFun a := ⟨a.re, a.imI, a.imJ, a.imK⟩

@[simp] theorem hamilton_re (q : Quaternion K) : (hamilton q).re = q.w := rfl

@[simp] theorem hamilton_imI (q : Quaternion K) : (hamilton q).imI = q.x := rfl

@[simp] theorem hamilton_imJ (q : Quaternion K) : (hamilton q).imJ = q.y := rfl

@[simp] theorem hamilton_imK (q : Quaternion K) : (hamilton q).imK = q.z := rfl

theorem eq_hamilton_symm {q : Quaternion K} {a : ℍ[K]} (h : hamilton q = a) :
    q = hamilton.symm a := hamilton.eq_symm_apply.2 h

theorem normSq_hamilton (q : Quaternion K) : Quaternion.normSq (hamilton q) = q.sumOfSquares :=
  Quaternion.normSq_def' _

theorem sumOfSquares_symm (a : ℍ[K]) : (hamilton.symm a).sumOfSquares = Quaternion.normSq a := by
  rw [← normSq_hamilton, Equiv.apply_symm_apply]

/-- The inverse of a quaternion that has one. -/
def inverseOf (a : ℍ[K]) : ℍ[K] := (Quaternion.normSq a)⁻¹ • star a

theorem mul_inverseOf {a : ℍ[K]} (ha : Quaternion.normSq a ≠ 0) : a * inverseOf a = 1 := by
  rw [inverseOf, mul_smul_comm, Quaternion.self_mul_star, ← Quaternion.coe_mul_eq_smul,
    ← Quaternion.coe_mul, inv_mul_cancel₀ ha, Quaternion.coe_one]

theorem inverseOf_mul {a : ℍ[K]} (ha : Quaternion.normSq a ≠ 0) : inverseOf a * a = 1 := by
  rw [inverseOf, smul_mul_assoc, Quaternion.star_mul_self, ← Quaternion.coe_mul_eq_smul,
    ← Quaternion.coe_mul, inv_mul_cancel₀ ha, Quaternion.coe_one]

theorem normSq_inverseOf (a : ℍ[K]) :
    Quaternion.normSq (inverseOf a) = (Quaternion.normSq a)⁻¹ := by
  rw [inverseOf, Quaternion.normSq_smul, Quaternion.normSq_star, sq, mul_assoc]
  by_cases ha : Quaternion.normSq a = 0
  · simp [ha]
  · rw [inv_mul_cancel₀ ha, mul_one]

theorem inverseOf_mul_rev (a b : ℍ[K]) : inverseOf (a * b) = inverseOf b * inverseOf a := by
  rw [inverseOf, inverseOf, inverseOf, map_mul, star_mul, smul_mul_smul_comm, mul_inv, mul_comm]

def coordinates (v : Fin 3 → K) : List K := [v 0, v 1, v 2]

def ofVector (v : Fin 3 → K) : ℍ[K] := ⟨0, v 0, v 1, v 2⟩

@[simp] theorem re_ofVector (v : Fin 3 → K) : (ofVector v).re = 0 := rfl

@[simp] theorem imI_ofVector (v : Fin 3 → K) : (ofVector v).imI = v 0 := rfl

@[simp] theorem imJ_ofVector (v : Fin 3 → K) : (ofVector v).imJ = v 1 := rfl

@[simp] theorem imK_ofVector (v : Fin 3 → K) : (ofVector v).imK = v 2 := rfl

def vectorOf (a : ℍ[K]) : Fin 3 → K := ![a.imI, a.imJ, a.imK]

@[simp] theorem vectorOf_ofVector (v : Fin 3 → K) : vectorOf (ofVector v) = v := by
  ext k
  fin_cases k <;> rfl

theorem ofVector_vectorOf {a : ℍ[K]} (ha : a.re = 0) : ofVector (vectorOf a) = a :=
  Quaternion.ext _ _ ha.symm rfl rfl rfl

/-- The conjugation of a quaternion by another one. -/
def turned (a b : ℍ[K]) : ℍ[K] := a * b * inverseOf a

theorem re_turned (a : ℍ[K]) {b : ℍ[K]} (hb : b.re = 0) : (turned a b).re = 0 := by
  rw [turned, inverseOf, mul_smul_comm, Quaternion.re_smul, smul_eq_mul]
  simp only [Quaternion.re_mul, Quaternion.imI_mul, Quaternion.imJ_mul, Quaternion.imK_mul,
    Quaternion.re_star, Quaternion.imI_star, Quaternion.imJ_star, Quaternion.imK_star, hb]
  ring

theorem turned_one (b : ℍ[K]) : turned 1 b = b := by
  rw [turned, inverseOf, map_one, inv_one, star_one, one_smul, one_mul, mul_one]

theorem turned_turned (a b c : ℍ[K]) : turned a (turned b c) = turned (a * b) c := by
  simp only [turned, inverseOf_mul_rev, mul_assoc]

variable [LawfulMonad m] [Arithmetic m K] (E : IsExact m K) (p q : Quaternion K)

include E

/-! ## What the formulas compute -/

theorem mul_eq : (p.mul q : m (Quaternion K)) = pure (hamilton.symm (hamilton p * hamilton q)) := by
  simp only [mul, E.mul, E.add, E.sub, pure_bind]
  refine congrArg pure (eq_hamilton_symm ?_)
  ext <;> simp

theorem conjugate_eq :
    (q.conjugate : m (Quaternion K)) = pure (hamilton.symm (star (hamilton q))) := by
  simp only [conjugate, E.neg, pure_bind]
  refine congrArg pure (eq_hamilton_symm ?_)
  ext <;> simp

theorem exists_norm : ∃ n, (q.norm : m K) = pure n ∧ n ^ 2 = q.sumOfSquares := by
  have hs : q.sumOfSquares = [q.w ^ 2, q.x ^ 2, q.y ^ 2, q.z ^ 2].sum := by
    simp [sumOfSquares, add_assoc]
  have hr : IsSumSq q.sumOfSquares := by
    simp only [sumOfSquares, sq]
    exact (((IsSumSq.mul_self _).add (.mul_self _)).add (.mul_self _)).add (.mul_self _)
  obtain ⟨n, hn, hq⟩ := E.root _ hr
  refine ⟨n, ?_, hq⟩
  simp only [norm, components, List.mapM_cons, List.mapM_nil, E.square, pure_bind, E.mixedTotal]
  rw [← hs, hn]

theorem inverse_eq (hq : q.sumOfSquares ≠ 0) :
    (q.inverse : m (Quaternion K)) = pure (hamilton.symm (inverseOf (hamilton q))) := by
  obtain ⟨n, hn, hs⟩ := exists_norm E q
  have h0 : isZero m q.sumOfSquares = false := Bool.eq_false_iff.2 fun h => hq (E.isZero _ h)
  simp only [inverse, hn, pure_bind, E.square, hs, h0, Bool.false_eq_true, if_false,
    conjugate, E.neg, mapM, E.div _ _ hq]
  refine congrArg pure (eq_hamilton_symm ?_)
  ext <;> simp [inverseOf, normSq_hamilton, div_eq_inv_mul]

/-- A vector is rotated by conjugation. -/
theorem rotate_eq [MonadExceptOf Fault m] (hq : q.sumOfSquares ≠ 0) (v : Fin 3 → K) :
    (q.rotate (coordinates v) : m (List K)) =
      pure (coordinates (vectorOf (turned (hamilton q) (ofVector v)))) := by
  have hp : hamilton ⟨int m 0, v 0, v 1, v 2⟩ = ofVector v :=
    Quaternion.ext _ _ ((E.int 0).trans Int.cast_zero) rfl rfl rfl
  change (do
    let r ← (← q.mul ⟨int m 0, v 0, v 1, v 2⟩).mul (← q.inverse)
    return [r.x, r.y, r.z] : m (List K)) = _
  simp only [mul_eq E, inverse_eq E q hq, pure_bind, Equiv.apply_symm_apply, hp]
  rfl

/-! ## The rotation matrix -/

omit E

/-- The upper left block of the rotation matrix. -/
def block (q : Quaternion K) : Matrix (Fin 3) (Fin 3) K :=
  !![1 - (q.y * (q.y + q.y) + q.z * (q.z + q.z)), q.x * (q.y + q.y) - q.w * (q.z + q.z),
      q.x * (q.z + q.z) + q.w * (q.y + q.y);
    q.x * (q.y + q.y) + q.w * (q.z + q.z), 1 - (q.x * (q.x + q.x) + q.z * (q.z + q.z)),
      q.y * (q.z + q.z) - q.w * (q.x + q.x);
    q.x * (q.z + q.z) - q.w * (q.y + q.y), q.y * (q.z + q.z) + q.w * (q.x + q.x),
      1 - (q.x * (q.x + q.x) + q.y * (q.y + q.y))]

/-- A block in the frame of a matrix with four rows. -/
def framed (M : Matrix (Fin 3) (Fin 3) K) : List (List K) :=
  [[M 0 0, M 0 1, M 0 2, 0], [M 1 0, M 1 1, M 1 2, 0], [M 2 0, M 2 1, M 2 2, 0], [0, 0, 0, 1]]

include E in
theorem rotationMatrix_eq : (q.rotationMatrix : m (List (List K))) = pure (framed q.block) := by
  have ho : (real m 1 : K) = 1 := (E.real 1).trans Int.cast_one
  have h0 : (real m 0 : K) = 0 := (E.real 0).trans Int.cast_zero
  simp only [rotationMatrix, E.add, E.mul, E.sub, pure_bind, ho, h0]
  rfl

variable {q}

theorem block_mulVec (hq : q.sumOfSquares = 1) (v : Fin 3 → K) :
    q.block.mulVec v = vectorOf (turned (hamilton q) (ofVector v)) := by
  have hi : inverseOf (hamilton q) = star (hamilton q) := by
    rw [inverseOf, normSq_hamilton, hq, inv_one, one_smul]
  rw [sumOfSquares] at hq
  ext k
  fin_cases k
  · simp [block, turned, hi, vectorOf, Matrix.mulVec, dotProduct, Fin.sum_univ_three]
    linear_combination -v 0 * hq
  · simp [block, turned, hi, vectorOf, Matrix.mulVec, dotProduct, Fin.sum_univ_three]
    linear_combination -v 1 * hq
  · simp [block, turned, hi, vectorOf, Matrix.mulVec, dotProduct, Fin.sum_univ_three]
    linear_combination -v 2 * hq

theorem block_mul_transpose (hq : q.sumOfSquares = 1) : q.block * q.block.transpose = 1 := by
  rw [sumOfSquares] at hq
  ext i j
  fin_cases i <;> fin_cases j <;> simp [block, Matrix.mul_apply, Fin.sum_univ_three]
  · linear_combination 4 * (q.y ^ 2 + q.z ^ 2) * hq
  · linear_combination -4 * q.x * q.y * hq
  · linear_combination -4 * q.x * q.z * hq
  · linear_combination -4 * q.x * q.y * hq
  · linear_combination 4 * (q.x ^ 2 + q.z ^ 2) * hq
  · linear_combination -4 * q.y * q.z * hq
  · linear_combination -4 * q.x * q.z * hq
  · linear_combination -4 * q.y * q.z * hq
  · linear_combination 4 * (q.x ^ 2 + q.y ^ 2) * hq

theorem det_block (hq : q.sumOfSquares = 1) : q.block.det = 1 := by
  rw [sumOfSquares] at hq
  rw [Matrix.det_fin_three]
  simp [block]
  linear_combination 4 * (q.x ^ 2 + q.y ^ 2 + q.z ^ 2) * hq

variable [MonadExceptOf Fault m]

/-- **A unit quaternion rotates as its matrix does**, and the matrix is a rotation. -/
theorem rotation_agrees (E : IsExact m K) (hq : q.sumOfSquares = 1) :
    ∃ M : Matrix (Fin 3) (Fin 3) K, (q.rotationMatrix : m (List (List K))) = pure (framed M) ∧
      (∀ v, (q.rotate (coordinates v) : m (List K)) = pure (coordinates (M.mulVec v))) ∧
      M * M.transpose = 1 ∧ M.transpose * M = 1 ∧ M.det = 1 := by
  have ho := block_mul_transpose hq
  refine ⟨q.block, rotationMatrix_eq E q, fun v => ?_, ho,
    mul_eq_one_comm.1 ho, det_block hq⟩
  rw [rotate_eq E q (hq ▸ one_ne_zero), block_mulVec hq]

theorem real_root (s : ℝ) (hs : IsSumSq s) : √s ^ 2 = s := Real.sq_sqrt hs.nonneg

/-- A turn about the first axis, with a rational sine and cosine. -/
theorem turn_agrees :
    letI := ofField ℝ Real.sqrt
    ∃ M : Matrix (Fin 3) (Fin 3) ℝ,
      (rotationMatrix ⟨3 / 5, 4 / 5, 0, 0⟩ : Except Fault (List (List ℝ))) = pure (framed M) ∧
      (∀ v, (rotate ⟨3 / 5, 4 / 5, 0, 0⟩ (coordinates v) : Except Fault (List ℝ)) =
        pure (coordinates (M.mulVec v))) ∧
      M * M.transpose = 1 ∧ M.transpose * M = 1 ∧ M.det = 1 :=
  let := ofField ℝ Real.sqrt
  rotation_agrees (isExact_ofField real_root) (by norm_num [sumOfSquares])

/-! ## Laws -/

section Laws

variable (E : IsExact m K) (p q : Quaternion K)

include E

omit [LawfulMonad m] [MonadExceptOf Fault m] in
theorem identity_eq : (identity m : Quaternion K) = hamilton.symm 1 := by
  have ho : (real m 1 : K) = 1 := (E.real 1).trans Int.cast_one
  have h0 : (real m 0 : K) = 0 := (E.real 0).trans Int.cast_zero
  rw [identity, ho, h0]
  rfl

omit [MonadExceptOf Fault m] in
theorem mul_inverse (hq : q.sumOfSquares ≠ 0) :
    (do q.mul (← q.inverse) : m (Quaternion K)) = pure (identity m) := by
  rw [inverse_eq E q hq, pure_bind, mul_eq E, Equiv.apply_symm_apply,
    mul_inverseOf (normSq_hamilton q ▸ hq), identity_eq E]

theorem rotate_rotate (hp : p.sumOfSquares ≠ 0) (hq : q.sumOfSquares ≠ 0) (v : Fin 3 → K) :
    (do p.rotate (← q.rotate (coordinates v)) : m (List K)) =
      pure (coordinates (vectorOf (turned (hamilton p * hamilton q) (ofVector v)))) := by
  rw [rotate_eq E q hq, pure_bind, rotate_eq E p hp,
    ofVector_vectorOf (re_turned _ (re_ofVector v)), turned_turned]

theorem inverse_rotate (hq : q.sumOfSquares ≠ 0) (v : Fin 3 → K) :
    (do (← q.inverse).rotate (← q.rotate (coordinates v)) : m (List K)) = pure (coordinates v) := by
  have hi : (hamilton.symm (inverseOf (hamilton q))).sumOfSquares ≠ 0 := by
    rw [sumOfSquares_symm, normSq_inverseOf, normSq_hamilton]
    exact inv_ne_zero hq
  rw [inverse_eq E q hq, pure_bind, rotate_rotate E _ q hi hq, Equiv.apply_symm_apply,
    inverseOf_mul (normSq_hamilton q ▸ hq), turned_one, vectorOf_ofVector]

/-- The product of vectors, as quaternions, has both of their products in it. -/
theorem mul_vectors (u v : Fin 3 → K) :
    ∃ d c, (Vector.dot (coordinates u) (coordinates v) : m K) = pure d ∧
      (Vector.cross (coordinates u) (coordinates v) : m (List K)) = pure (coordinates c) ∧
      (mul ⟨0, u 0, u 1, u 2⟩ ⟨0, v 0, v 1, v 2⟩ : m (Quaternion K)) =
        pure ⟨-d, c 0, c 1, c 2⟩ := by
  have hd : (Vector.dot (coordinates u) (coordinates v) : m K) = pure (dotProduct u v) := by
    have hl : (coordinates u).length = (coordinates v).length := rfl
    simp only [Vector.dot, Vector.zipWith, hl, if_true]
    simp only [coordinates, List.zip_cons_cons, List.zip_nil_right, List.mapM_cons, List.mapM_nil,
      E.mul, pure_bind, E.mixedTotal]
    simp [dotProduct, Fin.sum_univ_three, add_assoc]
  have hc : (Vector.cross (coordinates u) (coordinates v) : m (List K)) =
      pure (coordinates (crossProduct u v)) := by
    simp only [coordinates, Vector.cross, E.mul, E.sub, pure_bind, cross_apply]
    rfl
  refine ⟨_, _, hd, hc, (mul_eq E _ _).trans (congrArg pure (eq_hamilton_symm ?_).symm)⟩
  ext <;> simp [dotProduct, Fin.sum_univ_three, cross_apply] <;> ring

/-- **Quaternions compose and invert by the laws of their algebra.** -/
theorem composition_laws (hp : p.sumOfSquares ≠ 0) (hq : q.sumOfSquares ≠ 0) :
    (∃ n, (q.norm : m K) = pure n ∧ n ^ 2 = q.sumOfSquares) ∧
    (∀ r, ∃ s, (do (← p.mul q).mul r : m (Quaternion K)) = pure s ∧
      (do p.mul (← q.mul r) : m (Quaternion K)) = pure s) ∧
    (∃ s, (do (← p.mul q).conjugate : m (Quaternion K)) = pure s ∧
      (do (← q.conjugate).mul (← p.conjugate) : m (Quaternion K)) = pure s) ∧
    (∃ s, (p.mul q : m (Quaternion K)) = pure s ∧
      s.sumOfSquares = p.sumOfSquares * q.sumOfSquares) ∧
    (do q.mul (← q.inverse) : m (Quaternion K)) = pure (identity m) ∧
    (∀ v, ∃ w, (do (← p.mul q).rotate (coordinates v) : m (List K)) = pure (coordinates w) ∧
      (do p.rotate (← q.rotate (coordinates v)) : m (List K)) = pure (coordinates w)) ∧
    (∀ v, (do (← q.inverse).rotate (← q.rotate (coordinates v)) : m (List K)) =
      pure (coordinates v)) ∧
    ∀ u v : Fin 3 → K, ∃ d c, (Vector.dot (coordinates u) (coordinates v) : m K) = pure d ∧
      (Vector.cross (coordinates u) (coordinates v) : m (List K)) = pure (coordinates c) ∧
      (mul ⟨0, u 0, u 1, u 2⟩ ⟨0, v 0, v 1, v 2⟩ : m (Quaternion K)) =
        pure ⟨-d, c 0, c 1, c 2⟩ := by
  have hr : (hamilton.symm (hamilton p * hamilton q)).sumOfSquares =
      p.sumOfSquares * q.sumOfSquares := by
    rw [sumOfSquares_symm, map_mul, normSq_hamilton, normSq_hamilton]
  refine ⟨exists_norm E q, fun r => ?_, ?_, ⟨_, mul_eq E p q, hr⟩, mul_inverse E q hq,
    fun v => ⟨_, ?_, rotate_rotate E p q hp hq v⟩, inverse_rotate E q hq, mul_vectors E⟩
  · simp only [mul_eq E, pure_bind, Equiv.apply_symm_apply, mul_assoc]
    exact ⟨_, rfl, rfl⟩
  · simp only [mul_eq E, conjugate_eq E, pure_bind, Equiv.apply_symm_apply, star_mul]
    exact ⟨_, rfl, rfl⟩
  · rw [mul_eq E, pure_bind, rotate_eq E _ (hr ▸ mul_ne_zero hp hq), Equiv.apply_symm_apply]

end Laws

/-- Two quaternions whose norms are not one. -/
theorem scaled_laws :
    letI := ofField ℝ Real.sqrt
    (do mul ⟨1, -2, 3, 0⟩ (← inverse ⟨1, -2, 3, 0⟩) : Except Fault (Quaternion ℝ)) =
      pure (identity (Except Fault)) ∧
    ∀ v, (do (← inverse ⟨1, -2, 3, 0⟩).rotate (← rotate ⟨1, -2, 3, 0⟩ (coordinates v)) :
      Except Fault (List ℝ)) = pure (coordinates v) := by
  let := ofField ℝ Real.sqrt
  obtain ⟨-, -, -, -, hi, -, hb, -⟩ := composition_laws (isExact_ofField real_root)
    ⟨0, 1, 0, 1⟩ ⟨1, -2, 3, 0⟩ (by norm_num [sumOfSquares]) (by norm_num [sumOfSquares])
  exact ⟨hi, hb⟩

end Quaternion

end Patchwork
