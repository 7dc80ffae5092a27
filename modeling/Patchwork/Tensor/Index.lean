import Patchwork.Tensor.Basic

/-!
# Indexing and slicing tensors

A key selects along the leading dimensions: an integer picks one index and removes the
dimension, a slice keeps the dimension with the indices it selects. Dimensions without a
key are kept whole. Integers may count from the end.
-/

namespace Patchwork

/-- A selection along one dimension. -/
inductive Key where
  | index (i : Int)
  /-- A truth value, which counts as index 0 or 1. -/
  | flag (b : Bool)
  | slice (s : Slice)
  /-- Something that selects nothing, with the name of its class. -/
  | foreign (given : String)
  deriving Repr, DecidableEq

namespace Tensor

variable {α : Type}

/-- All ways to choose one entry of each list, the last list varying fastest. -/
def choices : List (List Int) → List (List Int)
  | [] => [[]]
  | xs :: rest => xs.flatMap fun x => (choices rest).map (x :: ·)

def normalIndex (i : Int) (dimension : Nat) (size : Int) : Except Fault Int :=
  if -size ≤ i ∧ i < size then .ok (if i < 0 then i + size else i)
  else .error (.outside (.index i dimension size))

def flagIndex (b : Bool) (dimension : Nat) (size : Int) : Except Fault Int :=
  let i : Int := if b then 1 else 0
  if -size ≤ i ∧ i < size then .ok i else .error (.outside (.flag b dimension size))

/-- The indices that a key selects along a dimension of the given extent. -/
def keyPositions (key : Key) (dimension : Nat) (size : Int) : Except Fault (List Int) :=
  match key with
  | .index i => do return [← normalIndex i dimension size]
  | .flag b => do return [← flagIndex b dimension size]
  | .slice s => s.positions size
  | .foreign given => .error (.violated (.keyKind given))

def selections (shape : Shape) (keys : List Key) : Except Fault (List (List Int)) := do
  let keyed ← keys.zipIdx.mapM fun (key, k) =>
    match shape[k]? with
    | none => throw (.outside (.tooMany shape.length))
    | some size => keyPositions key k size
  let whole := (shape.drop keys.length).map fun n => Slice.progression 0 n 1
  return keyed ++ whole

def Key.keeps : Key → Bool
  | .index _ | .flag _ => false
  | _ => true

/-- The shape that keys leave: kept dimensions with the number of selected indices, then
the dimensions without a key. -/
def selectedShape (shape : Shape) (keys : List Key) (chosen : List (List Int)) : Shape :=
  (keys.zip chosen).filterMap (fun (key, is) =>
    if Key.keeps key then some (is.length : Int) else none) ++ shape.drop keys.length

variable [Element α]

/-- The sub-tensor at one place of the first dimension, which `place` finds from the
extent. -/
def indexBy (t : Tensor α) (place : Int → Except Fault Int) : Except Fault (Tensor α) :=
  match t.shape with
  | [] => .error (.rankZero .index)
  | n :: inner => do
    let i ← place n
    let size := Shape.size inner
    let block := Sequence.between t.values (i * size) (i * size + size)
    match inner with
    | [] => Element.asTensor (← Sequence.at block 0)
    | inner => build block inner

def index (t : Tensor α) (i : Int) : Except Fault (Tensor α) := t.indexBy (normalIndex i 0)

def select (t : Tensor α) (keys : List Key) : Except Fault (Tensor α) := do
  if t.shape.isEmpty then throw (.rankZero .index)
  let chosen ← selections t.shape keys
  let picked ← (choices chosen).mapM fun is => Sequence.at t.values (t.shape.position is)
  match selectedShape t.shape keys chosen with
  | [] => Element.asTensor (← Sequence.at picked 0)
  | shape => build picked shape

def rows (t : Tensor α) : Except Fault (List (Tensor α)) :=
  match t.shape with
  | [] => .error (.rankZero .iteration)
  | n :: _ => (Slice.progression 0 n 1).mapM t.index

end Tensor

end Patchwork
