import Patchwork.Vector

/-!
# Filters

Statistics of a vector that are computed by counting comparisons, so that they can be
traced without branches.
-/

namespace Patchwork

namespace Filter

variable {α : Type} {m : Type → Type} [Monad m] [MonadExceptOf Fault m] [Arithmetic m α]

open Arithmetic

/-- How many of the numbers compare so with a given one. -/
def countWhere (o : Operator) (x : α) (xs : List α) : m α := do
  total (← xs.mapM fun y => binary o x y)

def ranks (xs : List α) : m (List α) := xs.mapM fun x => countWhere .gt x xs

/-- The ranks of the ranks: for distinct numbers, the positions in sorted order. -/
def argsort (xs : List α) : m (List α) := do ranks (← ranks xs)

/-- A number if it has at most half of the numbers on either side, else the one found so
far. -/
def middleOr [Element α] (xs : List α) (found x : α) : m α := do
  let above ← countWhere .lt x xs
  let below ← countWhere .gt x xs
  let half : α := int m (xs.length / 2 + 1 : Nat)
  let middle ← binary (m := m) .bitAnd (← binary (m := m) .lt above half)
    (← binary (m := m) .lt below half)
  if Element.isScalar x && Element.isScalar found then select middle x found
  else throw (.violated .branchResult)

/-- A number that has at most half of the numbers on either side: the last such number
in the vector. -/
def median [Element α] (xs : List α) : m α := do
  xs.foldlM (middleOr xs) (← Fault.lift (Sequence.at xs 0))

def mean (xs : List α) : m α := do
  div (← mixedTotal (m := m) xs) (int m xs.length)

end Filter

end Patchwork
