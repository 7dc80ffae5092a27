import Patchwork.Fault

/-!
# Positions in sequences

Positions may count from the end. An element at a position beyond the ends is a fault;
a range beyond the ends is cut to the sequence.
-/

namespace Patchwork

/-! ## Signed positions in lists -/

/-- The element at a position, counted from the end if negative. -/
def Sequence.at {α : Type} (xs : List α) (i : Int) : Except Fault α :=
  let j := if i < 0 then i + xs.length else i
  if j < 0 then .error .absentIndex
  else match xs[j.toNat]? with
    | some x => .ok x
    | none => .error .absentIndex

/-- Replaces the element at a position, counted from the end if negative. -/
def Sequence.put {α : Type} (xs : List α) (i : Int) (x : α) : Except Fault (List α) :=
  let j := if i < 0 then i + xs.length else i
  if j < 0 ∨ (xs.length : Int) ≤ j then .error .absentIndex else .ok (xs.set j.toNat x)

/-- The elements from one position to before another; each is counted from the end if
negative and then cut to the list. -/
def Sequence.between {α : Type} (xs : List α) (start stop : Int) : List α :=
  let n : Int := xs.length
  let cut (i : Int) : Nat := (min n (max 0 (if i < 0 then i + n else i))).toNat
  (xs.drop (cut start)).take (cut stop - cut start)

/-- A range inside a list. -/
theorem Sequence.between_natCast {α : Type} (xs : List α) (i j : Nat) (hj : j ≤ xs.length) :
    Sequence.between xs i j = (xs.drop i).take (j - i) := by
  have hc : ∀ k : Nat, (min (xs.length : Int) (max 0 (if (k : Int) < 0 then k + xs.length
      else k))).toNat = min xs.length k := by
    intro k
    rw [if_neg (by omega)]
    omega
  rw [Sequence.between]
  simp only [hc]
  obtain h | h := Nat.le_total i xs.length
  · rw [Nat.min_eq_right h, Nat.min_eq_right hj]
  · rw [Nat.min_eq_left h, List.drop_of_length_le h, List.drop_length]
    simp

/-! ## Ranges -/

/-- A range of positions with optional ends and step. -/
structure Slice where
  start : Option Int
  stop : Option Int
  step : Option Int
  deriving Repr, DecidableEq

namespace Slice

def progression (start stop step : Int) : List Int :=
  let count : Int :=
    if 0 < step then (stop - start + step - 1) / step
    else if step < 0 then (start - stop - step - 1) / (-step)
    else 0
  (List.range count.toNat).map fun (k : Nat) => start + step * (k : Int)

def positions (s : Slice) (size : Int) : Except Fault (List Int) :=
  let step := s.step.getD 1
  if step = 0 ∨ size < 0 then .error .domain
  else
    let lower : Int := if step < 0 then -1 else 0
    let upper : Int := if step < 0 then size - 1 else size
    let cut (i : Int) : Int :=
      let i := if i < 0 then i + size else i
      max lower (min upper i)
    let start := match s.start with
      | some i => cut i
      | none => if step < 0 then upper else lower
    let stop := match s.stop with
      | some i => cut i
      | none => if step < 0 then lower else upper
    .ok (progression start stop step)

def select {α : Type} (s : Slice) (xs : List α) : Except Fault (List α) := do
  (← s.positions xs.length).mapM (Sequence.at xs)

end Slice

end Patchwork
