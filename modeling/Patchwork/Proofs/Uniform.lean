import Patchwork.Proofs.Graph.Variant
import Patchwork.Scalar.Functions

/-!
# Operators on scalars are uniform

What is written with the operators and functions on scalars does not look at the numbers of
variables: it only appends nodes, and which ones depends on plain numbers and on the kinds of
values. So a function of scalars is traced to the same nodes whatever numbers it is traced for.
-/

namespace Patchwork

namespace Trace.Uniform

variable {α β : Type}

theorem map {t : Trace α} (ht : Uniform t) (f : α → β) : Uniform (f <$> t) := by
  rw [map_eq_pure_bind]
  exact .bind ht fun x => .pure (f x)

theorem mapM {f : α → Trace β} (hf : ∀ x, Uniform (f x)) (xs : List α) : Uniform (xs.mapM f) := by
  induction xs with
  | nil => exact .pure []
  | cons x xs ih =>
    rw [List.mapM_cons]
    exact .bind (hf x) fun y => .bind ih fun ys => .pure (y :: ys)

theorem lift (r : Except Fault α) : Uniform (Fault.lift r : Trace α) := by
  cases r with
  | ok x => exact .pure x
  | error f => exact .fail f

end Trace.Uniform

namespace Scalar

open Trace (Uniform)

theorem lift_uniform (s : Scalar) : Uniform s.lift := by
  cases s with
  | plain n => exact .literal n
  | traced v => exact .pure v

theorem operate_uniform (o : Operation) (operands : List Scalar) (commutative : Bool) :
    Uniform (operate o operands commutative) :=
  .bind (.mapM lift_uniform operands) fun vs => .bind (.apply o vs commutative) fun v =>
    .pure (traced v)

theorem comparison_uniform (o : Operation) (operands : List Scalar) (commutative : Bool) :
    Uniform (comparison o operands commutative) := .bind (.mapM lift_uniform operands) fun vs =>
    .bind (.bind (.apply o vs commutative) fun _ => .pure _) fun v => .pure (traced v)

theorem arithmetic_uniform (r : Except Fault Number) : Uniform (arithmetic r) :=
  .map (.lift r) plain

/-- What depends on whether a plain number is zero is uniform if both cases are. -/
theorem ite_uniform {p : Prop} [Decidable p] {s t : Trace Scalar} (hs : Uniform s)
    (ht : Uniform t) : Uniform (if p then s else t) := by
  split
  · exact hs
  · exact ht

theorem add_uniform (a b : Scalar) : Uniform (a.add b) := by
  cases a <;> cases b
  · exact arithmetic_uniform _
  · exact ite_uniform (.pure _) (operate_uniform ..)
  · exact ite_uniform (.pure _) (operate_uniform ..)
  · exact operate_uniform ..

theorem sub_uniform (a b : Scalar) : Uniform (a.sub b) := by
  cases a <;> cases b
  · exact arithmetic_uniform _
  · exact operate_uniform ..
  · exact ite_uniform (.pure _) (operate_uniform ..)
  · exact operate_uniform ..

theorem scale_uniform (v : Value) (n : Number) : Uniform (scale v n) := by
  have hs : ∀ n : Number, Uniform (if n.eq (.int 1) then pure (traced v)
      else if n.isZero then pure (int 0) else operate .mul [traced v, plain n] true) :=
    fun n => ite_uniform (.pure _) (ite_uniform (.pure _) (operate_uniform ..))
  unfold scale
  split
  · exact .bind (.map (.lift _) _) hs
  · exact .bind (.pure n) hs

theorem mul_uniform (a b : Scalar) : Uniform (a.mul b) := by
  cases a <;> cases b
  · exact arithmetic_uniform _
  · exact scale_uniform ..
  · exact scale_uniform ..
  · exact operate_uniform ..

theorem either_uniform (f : Number → Number → Except Fault Number) (o : Operation)
    (commutative : Bool) (a b : Scalar) : Uniform (either f o commutative a b) := by
  cases a <;> cases b
  · exact arithmetic_uniform _
  all_goals exact operate_uniform ..

theorem multiplied_uniform (x : Scalar) (n : Nat) : Uniform (multiplied x n) := by
  induction n with
  | zero => exact .pure x
  | succ n ih => exact .bind ih fun y => mul_uniform y x

theorem power_uniform (x y : Scalar) : Uniform (power x y) := by
  delta power
  cases y with
  | plain n =>
    dsimp only
    split
    · exact .pure _
    · exact multiplied_uniform ..
    · cases x with
      | plain m => exact ite_uniform (arithmetic_uniform _) (arithmetic_uniform _)
      | traced v => exact operate_uniform ..
  | traced w => cases x <;> exact operate_uniform ..

theorem compared_uniform (f : Number → Number → Bool) {node : Scalar → Scalar → Trace Scalar}
    (hn : ∀ a b, Uniform (node a b)) (a b : Scalar) : Uniform (compared f node a b) := by
  cases a <;> cases b
  · exact .pure _
  all_goals exact hn ..

theorem equality_uniform (o : Operation) (a b : Scalar) : Uniform (equality o a b) := by
  cases a <;> cases b
  all_goals exact comparison_uniform ..

theorem binary_uniform (o : Operator) (a b : Scalar) : Uniform (binary o a b) := by
  cases o with
  | add => exact add_uniform a b
  | sub => exact sub_uniform a b
  | mul => exact mul_uniform a b
  | trueDiv | floorDiv | modulo | shiftLeft | shiftRight | bitAnd | bitOr | bitXor =>
    exact either_uniform ..
  | pow =>
    cases a with
    | plain m =>
      cases b with
      | plain n => exact arithmetic_uniform _
      | traced w => exact power_uniform (plain m) (traced w)
    | traced v => exact power_uniform (traced v) b
  | matmul => exact .fail _
  | gt | lt | ge | le => exact compared_uniform _ (fun _ _ => comparison_uniform ..) a b
  | eq | ne => exact compared_uniform _ (equality_uniform _) a b

end Scalar

end Patchwork
