import Patchwork.Proofs.Datum.Elementwise

/-!
# Tensors on the right

A number or a list has no rule for an operator with a tensor, so the tensor's rule is taken
wherever the tensor stands. For a difference, a quotient and a power the rule for a tensor on the
right is the rule for a tensor on the left: the element of the tensor comes first, and the operands
are exchanged.
-/

namespace Patchwork

namespace Datum

variable {o : Operator} {d : Datum} {s c : Shape} {t : Tensor Scalar}

/-- The operators that a tensor on the right applies with its element first. -/
def Exchanges (o : Operator) : Prop := o = .sub ∨ o = .trueDiv ∨ o = .pow

theorem Exchanges.onArrays (ho : Exchanges o) : o.onArrays := by
  rcases ho with rfl | rfl | rfl <;> rfl

end Datum

end Patchwork
