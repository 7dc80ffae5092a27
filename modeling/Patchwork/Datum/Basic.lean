import Patchwork.Quaternion
import Patchwork.Scalar.Functions
import Patchwork.Tensor.Construct
import Patchwork.Filter

/-!
# Data

A datum is anything that a step of a script can take or produce: numbers, arrays of data,
lists, texts, parts of the graph and functions. Arrays may hold any datum, so every
operation looks at what it is given.
-/

namespace Patchwork

/-- A function that a script can name and pass on. -/
inductive Routine where
  | operator (o : Operator)
  | negate
  | absolute
  | index
  | elementary (f : Elementary)
  | pairwise (f : Pairwise)
  | abs
  | sign
  | get42
  | clamp
  | lerp
  | relu
  | sigmoid
  | choose
  | makeValue
  | makeVector
  | makeTensor
  | makeQuaternion
  | distance
  | scalarProjection
  | vectorProjection
  | angleBetween
  | rotateVector
  | crossProduct
  | dotProduct
  | zeros
  | ones
  | arange
  | eye
  | identity
  | diagonal
  | concat
  | gradient
  | length
  | toList
  | toTuple
  | total
  | describe
  | mapVector
  | mapVectors
  | mapTensors
  | argsort
  | ranks
  | median
  | mean
  | homogenized
  | mixedTotal
  | flatten
  | flatIndex
  | multiIndex
  | broadcastShapes
  | expand
  | repeatAlong
  | fromEuler
  | identityRotation
  | storedKind
  | addOperation
  | literal
  | mapBare
  deriving Repr, DecidableEq

inductive Datum where
  | absent
  | undefined
  | scalar (s : Scalar)
  | text (s : String)
  | bytes (data : List UInt8)
  | list (items : List Datum)
  | tuple (items : List Datum)
  | set (items : List Datum)
  | dict (entries : List (Datum × Datum))
  | slice (s : Slice)
  | vector (components : List Datum)
  /-- A tensor, with the dimensions whose extent was given as a truth value. -/
  | tensor (shape : Shape) (values : List Datum) (truths : List Nat)
  | quaternion (w x y z : Datum)
  /-- An array of which only the shape is known. -/
  | bare (shape : Shape)
  | net (n : Net)
  | node (k : NodeId)
  | routine (r : Routine)
  | target (k : Nat)
  /-- A database of stencils; the native one has no number. -/
  | database (k : Option Nat)
  | relocation (fields : List Datum)
  | patch (fields : List Datum)

instance : Inhabited Datum := ⟨.absent⟩

namespace Datum

def int (i : Int) : Datum := scalar (.int i)

def bool (b : Bool) : Datum := scalar (.plain (.bool b))

def plain (n : Number) : Datum := scalar (.plain n)

def traced (v : Value) : Datum := scalar (.traced v)

def ofTensor (t : Tensor Datum) : Datum := tensor t.shape t.values []

def ofReduced : Reduced Datum → Datum
  | .scalar x => x
  | .tensor t => ofTensor t

def ofQuaternion (q : Quaternion Datum) : Datum := quaternion q.w q.x q.y q.z

def numberClass : Number → String
  | .int _ => "int"
  | .bool _ => "bool"
  | .float _ => "float"

def className : Datum → String
  | absent => "NoneType"
  | undefined => "NotImplementedType"
  | scalar (.plain n) => numberClass n
  | scalar (.traced _) => "value"
  | text _ => "str"
  | bytes _ => "bytes"
  | list _ => "list"
  | tuple _ => "tuple"
  | set _ => "set"
  | dict _ => "dict"
  | slice _ => "slice"
  | vector _ => "vector"
  | tensor .. => "tensor"
  | quaternion .. => "quaternion"
  | bare _ => "ArrayType"
  | net _ => "Net"
  | node _ => "Op"
  | routine _ => "function"
  | target _ => "Target"
  | database _ => "stencil_database"
  | relocation _ => "relocation_entry"
  | patch _ => "patch_entry"

def classText (d : Datum) : String :=
  let name := d.className
  let home := match d with
    | scalar (.traced _) | bare _ | net _ | node _ => "copapy._basic_types."
    | vector _ => "copapy._vectors."
    | tensor .. => "copapy._tensors."
    | quaternion .. => "copapy._quaternion."
    | target _ => "copapy._target."
    | database _ | relocation _ | patch _ => "copapy._stencils."
    | _ => ""
  s!"<class '{home}{name}'>"

def isNumber : Datum → Bool
  | scalar _ => true
  | _ => false

def isTraced : Datum → Bool
  | scalar s => s.isTraced
  | _ => false

def number? : Datum → Option Number
  | scalar (.plain n) => some n
  | _ => none

def whole? (d : Datum) : Option Int := d.number?.bind Number.whole?

def items? : Datum → Option (List Datum)
  | list xs | tuple xs => some xs
  | text s => some (s.toList.map fun c => text (String.singleton c))
  | bytes bs => some (bs.map fun b => int b.toNat)
  | _ => none

def isSequence (d : Datum) : Bool := d.items?.isSome

/-! ## Depth -/

mutual

/-- How deeply data are nested; a datum without parts has depth zero. -/
def depth : Datum → Nat
  | list xs | tuple xs | set xs | vector xs | relocation xs | patch xs => depthAll xs + 1
  | tensor _ xs _ => depthAll xs + 1
  | quaternion w x y z => max (max w.depth x.depth) (max y.depth z.depth) + 1
  | dict entries => depthEntries entries + 1
  | _ => 0

def depthAll : List Datum → Nat
  | [] => 0
  | x :: xs => max x.depth (depthAll xs)

def depthEntries : List (Datum × Datum) → Nat
  | [] => 0
  | (k, v) :: rest => max (max k.depth v.depth) (depthEntries rest)

end

/-! ## Tensors of data -/

/-- What a search for the shape of a nesting finds in a tensor: it walks down to the
first element, which has no length. -/
def shapeInTensor : Shape → Except Fault Shape
  | [] => .error (.rankZero .length)
  | 0 :: _ => .ok [0]
  | _ :: 0 :: _ => .error (.violated .scalarSequence)
  | _ :: rest => shapeInTensor rest

mutual

def shapeOf : Datum → Except Fault Shape
  | scalar _ => .ok []
  | absent => .ok [0]
  | text s => if s.isEmpty then .ok [0] else .error .endless
  | bytes bs => .ok [(bs.length : Int)]
  | list xs | tuple xs | vector xs => nestedShape xs
  | tensor shape _ _ => shapeInTensor shape
  | quaternion w x y z => do
    let s ← w.shapeOf
    for t in [← x.shapeOf, ← y.shapeOf, ← z.shapeOf] do
      unless t = s do throw (.rejected .ragged)
    return 4 :: s
  | set [] | dict [] => .ok [0]
  | _ => .error .illTyped

def nestedShape : List Datum → Except Fault Shape
  | [] => .ok [0]
  | x :: xs => do
    let s ← x.shapeOf
    haveShape s xs
    return ((xs.length + 1 : Nat) : Int) :: s

def haveShape (s : Shape) : List Datum → Except Fault Unit
  | [] => .ok ()
  | x :: xs => do
    unless (← x.shapeOf) = s do throw (.rejected .ragged)
    haveShape s xs

end

mutual

/-- The numbers inside a datum, in order. Only lists are searched; an array in a list
contributes nothing. -/
def leaves : Datum → List Datum
  | scalar s => [scalar s]
  | list xs | tuple xs => leavesAll xs
  | bytes bs => bs.map fun b => int b.toNat
  | _ => []

def leavesAll : List Datum → List Datum
  | [] => []
  | x :: xs => x.leaves ++ leavesAll xs

end

def tensorOf : Datum → Except Fault (Tensor Datum)
  | scalar s => .ok ⟨[], [scalar s]⟩
  | vector xs => .ok ⟨[(xs.length : Int)], xs⟩
  | tensor shape values _ => .ok ⟨shape, values⟩
  | list xs | tuple xs => do return ⟨← nestedShape xs, leavesAll xs⟩
  | quaternion w x y z => do
    return ⟨← nestedShape [w, x, y, z], leavesAll [w, x, y, z]⟩
  | text s => if s.isEmpty then .ok ⟨[0], []⟩ else .error .endless
  | bytes bs => .ok ⟨[(bs.length : Int)], bs.map fun b => int b.toNat⟩
  | _ => .error .illTyped

instance : Element Datum where
  isScalar := isNumber
  isSequence := isSequence
  nestedShape := nestedShape
  leaves := leavesAll
  asTensor := tensorOf
  hole := absent

end Datum

end Patchwork
