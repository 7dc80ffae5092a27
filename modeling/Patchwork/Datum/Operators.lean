import Patchwork.Datum.Basic
import Patchwork.Graph.Equality

/-!
# Operators on data

Every kind of datum has rules for the operators in which it stands on the left, and rules
for those in which it stands on the right. An operator takes the rule of its left operand
if there is one, else the rule of its right operand. Arrays apply the operator to their
elements, which may be arrays again.

A vector or quaternion combined with a plain number makes one named constant of it. A
tensor makes one for each distinct plain number that meets a traced element. The rules
for a tensor on the right of `-`, `/` and `**` take the tensor's element first.
-/

namespace Patchwork

/-- A function of two data that works on elements. -/
inductive Dyadic where
  | operator (o : Operator)
  | pairwise (f : Pairwise)
  deriving Repr, DecidableEq

namespace Operator

def swapped : Operator → Operator
  | gt => lt | lt => gt | ge => le | le => ge
  | o => o

def onArrays : Operator → Bool
  | add | sub | mul | trueDiv | pow | gt | lt | ge | le | eq | ne => true
  | _ => false

end Operator

namespace Datum

/-! ## Single data -/

def named : Datum → Trace Datum
  | scalar (.plain n) => return traced (← Value.constant n)
  | net n => pure (traced (.ofNet n))
  | d => throw (.rejected (.dataType d.className))

def truth : Datum → Except Fault Bool
  | absent => .ok false
  | scalar (.plain n) => .ok (!n.isZero)
  | text s => .ok (!s.isEmpty)
  | bytes bs => .ok (!bs.isEmpty)
  | list xs | tuple xs | set xs | vector xs => .ok (!xs.isEmpty)
  | dict es => .ok (!es.isEmpty)
  | tensor shape _ _ =>
    match shape with
    | [] => .error (.rankZero .length)
    | n :: _ => if n < 0 then .error .domain else .ok (n ≠ 0)
  | _ => .ok true

def same (g : Graph) : Datum → Datum → Bool
  | absent, absent | undefined, undefined => true
  | scalar (.plain a), scalar (.plain b) => a.eq b
  | text a, text b => a == b
  | bytes a, bytes b => a == b
  | slice a, slice b => a == b
  | net a, net b => g.sameNet a b
  | node a, node b => g.sameNode a b
  | routine a, routine b => a == b
  | target a, target b => a == b
  | database a, database b => a == b
  | _, _ => false

def isNaN : Datum → Bool
  | scalar (.plain (.float x)) => x.isNaN
  | _ => false

def operand : Datum → Trace Scalar
  | scalar s => pure s
  | d => throw (.rejected (.dataType d.className))

/-! ## Values -/

/-- The rules of a traced value for an operator with a datum that is no number. A sum or
product with an array that is not empty is the value itself, because the array's
comparison with zero or one counts as true. -/
def valueRule (rec : Dyadic → Datum → Datum → Trace Datum) (o : Operator) (v : Value)
    (d : Datum) (valueFirst : Bool) : Option (Trace Datum) :=
  let refused : Trace Datum := throw (.rejected (.dataType d.className))
  let equals (i : Int) : Trace Bool := do
    Fault.lift (← rec (.operator .eq) d (int i)).truth
  match o with
  | .add => some do if ← equals 0 then return traced v else refused
  | .mul => some do
    if ← equals 1 then return traced v
    else if ← equals 0 then return int 0
    else refused
  | .pow => some (if valueFirst then rec (.pairwise .pow) (traced v) d
      else rec (.pairwise .pow) d (traced v))
  | .matmul => none
  | _ => some refused

/-! ## Functions of one datum -/

def rebuilt (values : List Datum) (shape : Shape) (truths : List Nat := []) : Trace Datum := do
  let t ← Fault.lift (Tensor.build values shape)
  return tensor t.shape t.values truths

mutual

def neg : Datum → Trace Datum
  | scalar s => scalar <$> s.neg
  | vector xs => vector <$> negAll xs
  | tensor shape xs truths => do rebuilt (← negAll xs) shape truths
  | quaternion w x y z => return quaternion (← w.neg) (← x.neg) (← y.neg) (← z.neg)
  | _ => throw .illTyped

def negAll : List Datum → Trace (List Datum)
  | [] => pure []
  | x :: xs => return (← x.neg) :: (← negAll xs)

end

mutual

/-- A function of one number, applied to a number or to every element of a vector or
tensor. -/
def onElements (f : Scalar → Trace Scalar) : Datum → Trace Datum
  | scalar s => scalar <$> f s
  | vector xs => vector <$> onAll f xs
  | tensor shape xs truths => do rebuilt (← onAll f xs) shape truths
  | _ => throw .illTyped

def onAll (f : Scalar → Trace Scalar) : List Datum → Trace (List Datum)
  | [] => pure []
  | x :: xs => return (← onElements f x) :: (← onAll f xs)

end

variable [Library]

def elementary (f : Elementary) (d : Datum) : Trace Datum := onElements (Scalar.elementary f) d

def isZero : Datum → Bool
  | scalar (.plain n) => n.isZero
  | _ => false

@[reducible] def arithmeticBy (rec : Dyadic → Datum → Datum → Trace Datum) :
    Arithmetic Trace Datum where
  literal l := plain l.number
  named := named
  isTraced := isTraced
  isZero := isZero
  binary o := rec (.operator o)
  neg := neg
  elementary := elementary
  atan2 := rec (.pairwise .atan2)

/-! ## Vectors and quaternions -/

def elements? : Datum → Option (List Datum)
  | vector xs => some xs
  | tensor _ xs _ => some xs
  | quaternion w x y z => some [w, x, y, z]
  | bare _ => some []
  | _ => none

def vectorForward (rec : Dyadic → Datum → Datum → Trace Datum) (o : Operator)
    (xs : List Datum) (d : Datum) : Option (Trace Datum) :=
  let _ := arithmeticBy rec
  let f := rec (.operator o)
  match o with
  | .matmul => some <| match d.elements? with
    | some ys => Vector.dot xs ys
    | none => throw .absentAttribute
  | _ =>
    if !o.onArrays then none
    else some <| match d with
      | vector ys => vector <$> Vector.zipWith f xs ys
      | d =>
        match o, d.items? with
        | .eq, some ys => vector <$> Vector.zipWith f xs ys
        | _, _ => vector <$> Vector.withScalar f xs d

def vectorReflected (rec : Dyadic → Datum → Datum → Trace Datum) (o : Operator)
    (d : Datum) (xs : List Datum) : Option (Trace Datum) :=
  let _ := arithmeticBy rec
  match o with
  | .add | .mul => vectorForward rec o xs d
  | .sub | .trueDiv | .pow =>
    let f (x y : Datum) := rec (.operator o) y x
    some <| match d with
      | vector ys => vector <$> Vector.zipWith f xs ys
      | d => vector <$> Vector.withScalar f xs d
  | .matmul => none
  | o => vectorForward rec o.swapped xs d

def quaternionForward (rec : Dyadic → Datum → Datum → Trace Datum) (o : Operator)
    (q : Quaternion Datum) (d : Datum) : Option (Trace Datum) :=
  let _ := arithmeticBy rec
  let f := rec (.operator o)
  match o, d with
  | .add, quaternion w x y z | .sub, quaternion w x y z =>
    some (ofQuaternion <$> q.zipWithM f ⟨w, x, y, z⟩)
  | .matmul, quaternion w x y z => some (ofQuaternion <$> q.mul ⟨w, x, y, z⟩)
  | .matmul, _ => some (throw .absentAttribute)
  | .add, d | .sub, d | .mul, d | .trueDiv, d => some (ofQuaternion <$> q.withScalar f d)
  | _, _ => none

/-- The rules of a quaternion on the right. A difference is the sum with the negative. -/
def quaternionReflected (rec : Dyadic → Datum → Datum → Trace Datum) (o : Operator)
    (d : Datum) (q : Quaternion Datum) : Option (Trace Datum) :=
  let _ := arithmeticBy rec
  match o with
  | .add | .mul => quaternionForward rec o q d
  | .sub => some do
    let negative ← q.neg
    match quaternionForward rec .add negative d with
    | some sum => sum
    | none => throw .illTyped
  | _ => none

/-! ## Tensors -/

/-- Named constants made so far during one operation, by the number they hold. -/
abbrev Shared := List (Datum × Datum)

/-- The second operand for an element: a plain number that meets a traced element is made
a named constant, once for all equal numbers of the operation. -/
def shared (a b : Datum) (made : Shared) : Trace (Datum × Shared) :=
  if b.isTraced || !a.isTraced then pure (b, made)
  else match b with
    | vector _ | tensor .. | list _ | set _ | dict _ => throw .illTyped
    | b => do
      let g ← get
      match made.find? fun entry => same g entry.1 b || (entry.1.isNaN && b.isNaN) with
      | some entry => return (entry.2, made)
      | none =>
        let constant ← named b
        return (constant, (b, constant) :: made)

/-- Applies an operation to paired elements, sharing constants between the pairs. -/
def zipShared (f : Datum → Datum → Trace Datum) :
    List (Datum × Datum) → Shared → Trace (List Datum)
  | [], _ => pure []
  | (a, b) :: rest, made => do
    let (b, made) ← shared a b made
    let x ← f a b
    return x :: (← zipShared f rest made)

/-- Applies an operation to the elements of a tensor and a datum: a list, vector or
tensor is brought to one shape with the tensor, anything else meets every element. -/
def tensorWith (f : Datum → Datum → Trace Datum) (t : Tensor Datum) (truths : List Nat)
    (d : Datum) : Trace Datum := do
  let paired (other : Tensor Datum) : Trace Datum := do
    let (shape, pairs) ← Fault.lift (t.aligned other)
    rebuilt (← zipShared f pairs []) shape (if shape = t.shape then truths else [])
  match d with
  | vector ys => paired ⟨[(ys.length : Int)], ys⟩
  | tensor shape values _ => paired ⟨shape, values⟩
  | d =>
    if d.isSequence then paired (← Fault.lift d.tensorOf)
    else
      let values ← zipShared f (t.values.map (·, d)) []
      rebuilt values t.shape truths

def tensorForward (rec : Dyadic → Datum → Datum → Trace Datum) (o : Operator)
    (t : Tensor Datum) (truths : List Nat) (d : Datum) : Option (Trace Datum) :=
  let _ := arithmeticBy rec
  match o with
  | .matmul => some <| match d with
    | vector ys => ofReduced <$> t.matmul ⟨[(ys.length : Int)], ys⟩
    | tensor shape values _ => ofReduced <$> t.matmul ⟨shape, values⟩
    | _ => throw .absentAttribute
  | o => if o.onArrays then some (tensorWith (rec (.operator o)) t truths d) else none

def tensorReflected (rec : Dyadic → Datum → Datum → Trace Datum) (o : Operator)
    (d : Datum) (t : Tensor Datum) (truths : List Nat) : Option (Trace Datum) :=
  let _ := arithmeticBy rec
  match o, d with
  | .matmul, tensor shape values _ =>
    some (ofReduced <$> (⟨shape, values⟩ : Tensor Datum).matmul t)
  | .matmul, _ => none
  | o, d => tensorForward rec o.swapped t truths d

/-! ## Dispatch -/

def forward (rec : Dyadic → Datum → Datum → Trace Datum) (o : Operator) :
    Datum → Datum → Option (Trace Datum)
  | scalar a, scalar b => some (scalar <$> Scalar.binary o a b)
  | scalar (.traced v), d => valueRule rec o v d true
  | vector xs, d => vectorForward rec o xs d
  | tensor shape values truths, d => tensorForward rec o ⟨shape, values⟩ truths d
  | quaternion w x y z, d => quaternionForward rec o ⟨w, x, y, z⟩ d
  | _, _ => none

def reflected (rec : Dyadic → Datum → Datum → Trace Datum) (o : Operator) :
    Datum → Datum → Option (Trace Datum)
  | d, scalar (.traced v) => valueRule rec o v d false
  | d, vector xs => vectorReflected rec o d xs
  | d, tensor shape values truths => tensorReflected rec o d ⟨shape, values⟩ truths
  | d, quaternion w x y z => quaternionReflected rec o d ⟨w, x, y, z⟩
  | _, _ => none

/-- An operator without a rule: data are compared as they are, and nothing else works. -/
def unruled (o : Operator) (a b : Datum) : Trace Datum := do
  match o with
  | .eq => return bool (same (← get) a b)
  | .ne => return bool (!same (← get) a b)
  | _ => throw .illTyped

def vectorAsTensor : Datum → Datum
  | vector xs => tensor [(xs.length : Int)] xs []
  | d => d

/-- Applies a function of two data to the elements of vectors and to other data. Two
vectors are paired up to the shorter one. -/
def onVectors (f : Datum → Datum → Trace Datum) : Datum → Datum → Trace Datum
  | vector xs, vector ys => vector <$> (xs.zip ys).mapM fun (x, y) => f x y
  | vector xs, d => vector <$> xs.mapM fun x => f x d
  | d, vector ys => vector <$> ys.mapM fun y => f d y
  | a, b => return vector [← f a b]

/-- Applies a function of two data to the elements of tensors and to other data. Two
tensors must have one shape. -/
def onTensors (f : Datum → Datum → Trace Datum) (a b : Datum) : Trace Datum := do
  match vectorAsTensor a, vectorAsTensor b with
  | tensor s xs truths, tensor s' ys _ =>
    if s ≠ s' then throw (.violated .sameShape)
    rebuilt (← (xs.zip ys).mapM fun (x, y) => f x y) s truths
  | tensor s xs truths, d => rebuilt (← xs.mapM fun x => f x d) s truths
  | d, tensor s ys truths => rebuilt (← ys.mapM fun y => f d y) s truths
  | a, b => ofTensor <$> Fault.lift (← f a b).tensorOf

/-- A function of two data that are not both numbers and of which none is an array of
the elementwise kinds. -/
def pairedSingles (rec : Dyadic → Datum → Datum → Trace Datum) (f : Pairwise) (a b : Datum) :
    Trace Datum :=
  let rejected : Trace Datum := do
    if a.isTraced || b.isTraced then
      let _ ← operand a
      let _ ← operand b
    throw .illTyped
  match f, b.whole? with
  | .pow, some 0 => pure (int 1)
  | .pow, some y =>
    if 0 < y ∧ y < 8 then
      (List.range (y.toNat - 1)).foldlM (fun product _ => rec (.operator .mul) product a) a
    else rejected
  | _, _ => rejected

/-- A function of two data, where the functions of their elements are computed by
`rec`. -/
def dyadicStep (rec : Dyadic → Datum → Datum → Trace Datum) : Dyadic → Datum → Datum → Trace Datum
  | .operator o, a, b => (forward rec o a b <|> reflected rec o a b).getD (unruled o a b)
  | .pairwise f, scalar a, scalar b => scalar <$> Scalar.pairwise f a b
  | .pairwise f, a, b =>
    let g := rec (.pairwise f)
    match a, b with
    | tensor .., _ | _, tensor .. => onTensors g a b
    | vector _, _ | _, vector _ => onVectors g a b
    | a, b => pairedSingles rec f a b

/-- A function of two data to a given depth of nesting. -/
def dyadicTo : Nat → Dyadic → Datum → Datum → Trace Datum
  | 0 => fun _ _ _ => throw .endless
  | n + 1 => dyadicStep (dyadicTo n)

/-- A function of two data. Every step to elements lowers the depth of one of them, and
at most two steps are taken at one depth. -/
def dyadic (f : Dyadic) (a b : Datum) : Trace Datum :=
  dyadicTo (2 * (a.depth + b.depth) + 4) f a b

instance : Arithmetic Trace Datum := arithmeticBy dyadic

def binary (o : Operator) (a b : Datum) : Trace Datum := dyadic (.operator o) a b

end Datum

end Patchwork
