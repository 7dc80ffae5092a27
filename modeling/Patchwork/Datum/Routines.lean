import Patchwork.Datum.Functions
import Patchwork.Gradient

/-!
# Calling routines and methods

A routine is a function by itself; a method is a function that belongs to its first
argument and that only some kinds of data have; an attribute is a part of a datum that
can be asked for by name.
-/

namespace Patchwork

/-- A function that belongs to a datum. -/
inductive Method where
  | operator (o : Operator)
  | reflected (o : Operator)
  | negate
  | absolute
  | length
  | item
  | describe
  | getScalar
  | reshape
  | trace
  | transpose
  | flatten
  | size
  | matmul
  | sum
  | mean
  | map
  | homogenize
  | dot
  | cross
  | magnitude
  | normalize
  | rotationMatrix
  | eulerAngles
  | axisAngle
  | conjugate
  | inverse
  | norm
  | rotateVector
  deriving Repr, DecidableEq

inductive Attribute where
  | shape | rank | values | transposed | w | x | y | z | kind | net | source | name | args
  deriving Repr, DecidableEq

/-- How a function that was passed as an argument is called. -/
abbrev Caller := Datum → List Datum → Trace Datum

namespace Datum

open Arithmetic

def ofShape (shape : Shape) (truths : List Nat := []) : Datum :=
  tuple (shape.zipIdx.map fun (n, k) => if truths.contains k then bool (n ≠ 0) else int n)

def part (a : Attribute) (d : Datum) : Trace Datum := do
  match a, d with
  | .shape, vector xs => return ofShape [(xs.length : Int)]
  | .shape, tensor shape _ truths => return ofShape shape truths
  | .shape, quaternion .. => return ofShape [4]
  | .shape, bare shape => return ofShape shape
  | .rank, vector _ => return int 1
  | .rank, tensor shape _ _ => return int shape.length
  | .values, d => return tuple (← needElements d)
  | .transposed, tensor shape values _ =>
    return ofTensor (← Fault.lift ((⟨shape, values⟩ : Tensor Datum).transpose []))
  | .w, quaternion w _ _ _ => return w
  | .x, quaternion _ x _ _ => return x
  | .y, quaternion _ _ y _ => return y
  | .z, quaternion _ _ _ z => return z
  | .kind, scalar (.traced v) => return text v.kind.name
  | .kind, Datum.net n => return text n.cell.name
  | .net, scalar (.traced v) => return Datum.net v.net
  | .source, Datum.net n => return node n.source
  | .name, node k => return text ((← get).node k).name
  | .args, node k => return tuple (((← get).node k).args.map Datum.net)
  | _, _ => throw .absentAttribute

/-! ## Methods -/

def needInts (xs : List Datum) : Trace (List Int) := xs.mapM needInt

def axes (d : Datum) : Trace (List Int) :=
  match d.whole? with
  | some i => pure [i]
  | none => do needInts (← Fault.lift d.iterate)

def tensorSum (t : Tensor Datum) (axis keep : Datum) : Trace Datum := do
  let keep ← Fault.lift keep.truth
  match axis with
  | absent => ofReduced <$> t.sumAll keep
  | axis => ofReduced <$> t.sum (← axes axis) keep

def tensorMean (t : Tensor Datum) (axis : Datum) : Trace Datum := do
  match axis with
  | absent => div (← mixedTotal (m := Trace) t.values) (int t.size)
  | axis =>
    let sum ← tensorSum t axis (bool false)
    let extent ← Fault.lift (Sequence.at t.shape (← needInt axis))
    div sum (int extent)

def tensorMethod (call : Caller) (t : Tensor Datum) (truths : List Nat) (m : Method)
    (as : Arguments) : Trace Datum := do
  match m with
  | .getScalar => Fault.lift (t.get (← needInts as.positional))
  | .reshape =>
    let extents ← match as.positional with
      | [d] => if d.whole?.isSome then pure [d] else Fault.lift d.iterate
      | xs => pure xs
    let (shape, truths) ← Fault.lift (readShape extents)
    let r ← Fault.lift (t.reshape shape)
    return tensor r.shape r.values truths
  | .trace => t.trace
  | .transpose => ofTensor <$> Fault.lift (t.transpose (← needInts as.positional))
  | .flatten => ofTensor <$> Fault.lift t.flatten
  | .size => return int t.size
  | .matmul => binary .matmul (tensor t.shape t.values truths) (← as.need 0 "other")
  | .sum => tensorSum t (as.get 0 "axis" absent) (as.get 1 "keepdims" (bool false))
  | .mean => tensorMean t (as.get 0 "axis" absent)
  | .map =>
    let f ← as.need 0 "func"
    rebuilt (← t.values.mapM fun x => call f [x]) t.shape truths
  | .homogenize =>
    if t.values.any isTraced then rebuilt (← Vector.homogenize t.values) t.shape truths
    else return tensor t.shape t.values truths
  | _ => throw .absentAttribute

def vectorMethod (call : Caller) (xs : List Datum) (m : Method) (as : Arguments) :
    Trace Datum := do
  match m with
  | .getScalar => listItem xs tuple (← as.need 0 "index") |> Fault.lift
  | .dot => Vector.dot xs (← needElements (← as.need 0 "other"))
  | .cross => vector <$> Vector.cross xs (← needElements (← as.need 0 "other"))
  | .sum => mixedTotal xs
  | .magnitude => Vector.magnitude xs
  | .normalize => vector <$> Vector.normalize xs
  | .homogenize => vector <$> Vector.homogenize xs
  | .map =>
    let f ← as.need 0 "func"
    vector <$> xs.mapM fun x => call f [x]
  | _ => throw .absentAttribute

def quaternionMethod (call : Caller) (q : Quaternion Datum) (m : Method) (as : Arguments) :
    Trace Datum := do
  match m with
  | .normalize => ofQuaternion <$> q.normalize
  | .rotationMatrix =>
    let rows ← q.rotationMatrix
    ofTensor <$> Fault.lift (list (rows.map list)).tensorOf
  | .eulerAngles => vector <$> q.eulerAngles
  | .axisAngle =>
    let (axis, angle) ← q.axisAngle
    return tuple [vector axis, angle]
  | .conjugate => ofQuaternion <$> q.conjugate
  | .inverse => ofQuaternion <$> q.inverse
  | .norm => q.norm
  | .rotateVector =>
    let v ← Fault.lift (← as.need 0 "vec").iterate
    vector <$> q.rotate v
  | .map =>
    let f ← as.need 0 "func"
    ofQuaternion <$> q.mapM fun x => call f [x]
  | _ => throw .absentAttribute

/-- The rule of one operand alone: undefined if it has the operator but no rule for the
other operand, absent if it lacks the operator. -/
def ownRule (o : Operator) (self other : Datum) (selfFirst : Bool) : Trace Datum :=
  let rule := if selfFirst then forward dyadic o self other else reflected dyadic o other self
  match rule, self, o with
  | some outcome, _, _ => outcome
  | none, tensor .., .matmul => pure undefined
  | none, _, _ => throw .absentAttribute

def callMethod (call : Caller) (m : Method) (self : Datum) (as : Arguments) : Trace Datum := do
  match m with
  | .operator o => ownRule o self (← as.need 0 "other") true
  | .reflected o => ownRule o self (← as.need 0 "other") false
  | .negate => self.neg
  | .absolute => self.absolute
  | .length => int <$> Fault.lift self.length
  | .item => self.item (← as.need 0 "key")
  | .describe => return text (self.describe (← get))
  | m => match self with
    | tensor shape values truths => tensorMethod call ⟨shape, values⟩ truths m as
    | vector xs => vectorMethod call xs m as
    | quaternion w x y z => quaternionMethod call ⟨w, x, y, z⟩ m as
    | bare shape => if m = .map then return bare shape else throw .absentAttribute
    | _ => throw .absentAttribute

def isHashable : Datum → Bool
  | list _ | set _ | dict _ | vector _ | tensor .. => false
  | _ => true

/-- The derivative of a value with respect to each item of a list, vector or
quaternion. -/
def gradient (x y : Datum) (sets : SetOrder := {}) : Trace Datum := do
  let x ← match x with
    | scalar (.traced v) => pure v
    | x => throw (.violated (.tracedSubject x.classText))
  let ys ← match y with
    | vector ys => pure ys
    | quaternion w x y z => pure [w, x, y, z]
    | tensor shape values _ =>
      let flat ← Fault.lift (⟨shape, values⟩ : Tensor Datum).flatten
      let rows ← Fault.lift flat.rows
      if rows.isEmpty then pure [] else throw (.violated (.indexCount 0 1))
    | y => match y.items? with
      | some ys => pure ys
      | none => throw (.violated .unstated)
  unless ys.all isHashable do throw .illTyped
  let leaves := ys.filterMap fun y => match y with
    | scalar (.traced v) => some v.net.source
    | _ => none
  let found ← Gradient.adjoints x (sets.leaves leaves) sets
  let component (y : Datum) : Trace Datum := match y with
    | scalar (.traced v) => scalar <$> Gradient.component found v
    | _ => pure (plain (.float 0.0))
  match y with
  | vector ys => vector <$> ys.mapM component
  | quaternion w x y z => ofQuaternion <$> (⟨w, x, y, z⟩ : Quaternion Datum).mapM component
  | _ => list <$> ys.mapM fun y => if y.isTraced then component y else throw .absentAttribute

/-! ## Routines -/

/-- Applies a function to the components of a vector and a second datum. A plain
component that meets a plain number is added to it, whatever the function. -/
def mapPairs (call : Caller) (v other f : Datum) : Trace Datum := do
  let xs ← needVector v
  let both (a b : Datum) : Trace Datum := call f [a, b]
  match other with
  | vector ys => vector <$> Vector.zipWith both xs ys
  | other =>
    if other.isTraced then vector <$> xs.mapM fun x => both x other
    else
      let shared ← named other
      vector <$> xs.mapM fun x => if x.isTraced then both x shared else binary .add x other

def addOperation (name : String) (operands : List Datum) (commutative : Bool) (kind : Datum) :
    Trace Datum := do
  let values ← operands.mapM fun d => do (← operand d).lift
  match Operation.ofName? name with
  | none =>
    let sorted := if commutative then Trace.sortByKind values else values
    throw (.uncovered (.operation name (sorted.map fun v => v.kind.name)))
  | some o =>
    let v ← Trace.apply o values commutative
    match kind with
    | text "" | absent => return traced v
    | text s => return traced (← Value.ofNetAs v.net s)
    | _ => return traced v

def needText : Datum → Trace String
  | text s => pure s
  | _ => throw .illTyped

def needTensor : Datum → Trace (Tensor Datum)
  | tensor shape values _ => pure ⟨shape, values⟩
  | _ => throw .absentAttribute

def homogenizedList (d : Datum) : Trace Datum := do
  list <$> Vector.homogenize (← Fault.lift d.iterate)

end Datum

namespace Routine

open Datum Arithmetic

def callBy (call : Caller) (r : Routine) (as : Arguments) : Trace Datum := do
  let arg (k : Nat) : Trace Datum := as.need k ""
  match r with
  | .operator o => Datum.binary o (← arg 0) (← arg 1)
  | .negate => (← arg 0).neg
  | .absolute => (← arg 0).absolute
  | .index => (← arg 0).item (← arg 1)
  | .elementary f => Datum.elementary f (← as.need 0 "x")
  | .pairwise f => dyadic (.pairwise f) (← as.need 0 "x") (← as.need 1 "y")
  | .abs => onElements Scalar.abs (← as.need 0 "x")
  | .sign => onElements Scalar.sign (← as.need 0 "x")
  | .get42 => match ← as.need 0 "x" with
    | .scalar s => .scalar <$> s.get42
    | _ => throw .illTyped
  | .clamp => Datum.clamp (← as.need 0 "x") (← as.need 1 "min_value") (← as.need 2 "max_value")
  | .lerp => Datum.lerp (← as.need 0 "v1") (← as.need 1 "v2") (← as.need 2 "t")
  | .relu => Datum.relu (← as.need 0 "x")
  | .sigmoid => Datum.sigmoid (← as.need 0 "x")
  | .choose =>
    Datum.choose (← as.need 0 "expression") (← as.need 1 "true_result") (← as.need 2 "false_result")
  | .makeValue => Datum.makeValue (← as.need 0 "source") (as.get 1 "dtype" .absent)
  | .makeVector => .vector <$> Fault.lift (← as.need 0 "values").iterate
  | .makeTensor => Datum.makeTensor (← as.need 0 "values") (as.get 1 "shape" .absent)
  | .makeQuaternion => Datum.makeQuaternion as
  | .distance => Datum.distance (← as.need 0 "v1") (← as.need 1 "v2")
  | .scalarProjection =>
    Vector.scalarProjection (← needVector (← as.need 0 "v1")) (← needVector (← as.need 1 "v2"))
  | .vectorProjection =>
    .vector <$>
      Vector.vectorProjection (← needVector (← as.need 0 "v1")) (← needVector (← as.need 1 "v2"))
  | .angleBetween =>
    Vector.angleBetween (← needVector (← as.need 0 "v1")) (← needVector (← as.need 1 "v2"))
  | .rotateVector =>
    .vector <$> Vector.rotate (← needVector (← as.need 0 "v")) (← needVector (← as.need 1 "axis"))
      (← as.need 2 "angle")
  | .crossProduct =>
    .vector <$> Vector.cross (← needVector (← as.need 0 "v1")) (← needElements (← as.need 1 "v2"))
  | .dotProduct =>
    Vector.dot (← needVector (← as.need 0 "v1")) (← needElements (← as.need 1 "v2"))
  | .zeros => filled 0 (← as.need 0 "shape")
  | .ones => filled 1 (← as.need 0 "shape")
  | .arange => Datum.arange as
  | .eye =>
    let rows ← as.need 0 "rows"
    match as.get 1 "cols" .absent with
    | .absent => makeEye rows rows
    | columns => makeEye rows columns
  | .identity =>
    let size ← as.need 0 "size"
    makeEye size size
  | .diagonal => makeDiagonal (← as.need 0 "vec")
  | .concat => concatenate (← as.need 0 "tensors") (as.get 1 "axis" (Datum.int 0))
  | .gradient => Datum.gradient (← as.need 0 "x") (← as.need 1 "y")
  | .length => Datum.int <$> Fault.lift (← arg 0).length
  | .toList => .list <$> Fault.lift (← arg 0).iterate
  | .toTuple => .tuple <$> Fault.lift (← arg 0).iterate
  | .total => Arithmetic.total (← Fault.lift (← arg 0).iterate)
  | .describe => return .text ((← arg 0).describe (← get))
  | .mapVector => mapPairs call (← arg 0) (← arg 1) (← arg 2)
  | .mapVectors =>
    let f ← arg 2
    onVectors (fun a b => call f [a, b]) (← arg 0) (← arg 1)
  | .mapTensors =>
    let f ← arg 2
    onTensors (fun a b => call f [a, b]) (← arg 0) (← arg 1)
  | .argsort => .vector <$> Filter.argsort (← Fault.lift (← arg 0).iterate)
  | .ranks => .vector <$> Filter.ranks (← Fault.lift (← arg 0).iterate)
  | .median => Filter.median (← Fault.lift (← arg 0).iterate)
  | .mean =>
    let v ← arg 0
    let sum ← callMethod call .sum v ⟨[], []⟩
    div sum (Datum.int (← Fault.lift v.length))
  | .homogenized => homogenizedList (← arg 0)
  | .mixedTotal => Arithmetic.mixedTotal (← Fault.lift (← arg 0).iterate)
  | .flatten => ofTensor <$> Fault.lift (← needTensor (← arg 0)).flatten
  | .flatIndex =>
    let t ← needTensor (← arg 0)
    let indices ← needInts (← Fault.lift (← arg 1).iterate)
    Datum.int <$> Fault.lift (t.flatIndex indices)
  | .multiIndex =>
    let t ← needTensor (← arg 0)
    ofShape <$> Fault.lift (t.shape.indices (← needInt (← arg 1)))
  | .broadcastShapes =>
    let a ← needInts (← Fault.lift (← arg 1).iterate)
    let b ← needInts (← Fault.lift (← arg 2).iterate)
    ofShape <$> Fault.lift (Shape.broadcast a b)
  | .expand =>
    let t ← needTensor (← arg 0)
    ofTensor <$> Fault.lift (t.expand (← needInts (← Fault.lift (← arg 1).iterate)))
  | .repeatAlong =>
    let t ← needTensor (← arg 0)
    ofTensor <$> Fault.lift (t.repeatAlong (← needInt (← arg 1)) (← needInt (← arg 2)))
  | .fromEuler =>
    ofQuaternion <$>
      Quaternion.ofEuler (← as.need 0 "roll") (← as.need 1 "pitch") (← as.need 2 "yaw")
  | .identityRotation => return ofQuaternion (Quaternion.identity Trace)
  | .storedKind =>
    let name ← needText (← arg 0)
    return .text (if name == "bool" then "int" else name)
  | .addOperation =>
    let commutative ← Fault.lift (as.get 2 "commutative" (Datum.bool false)).truth
    Datum.addOperation (← needText (← arg 0)) (← Fault.lift (← arg 1).iterate) commutative
      (as.get 3 "dtype" .absent)
  | .literal => do
    match ← arg 0 with
    | .scalar (.plain n) => return Datum.traced (← Value.literal n)
    | d => throw (.rejected (.dataType d.className))
  | .mapBare =>
    let (shape, _) ← Fault.lift (readShape (← Fault.lift (← arg 0).iterate))
    return .bare shape

/-- Calls a datum as a function. At most `depth` functions are nested. -/
def callTo : Nat → Caller
  | 0 => fun _ _ => throw .endless
  | depth + 1 => fun f args => match f with
    | .routine r => callBy (callTo depth) r ⟨args, []⟩
    | _ => throw .illTyped

def nesting (as : Arguments) : Nat :=
  depthAll as.positional + depthAll (as.named.map Prod.snd) + 2

def call (r : Routine) (as : Arguments) : Trace Datum := callBy (callTo (nesting as)) r as

end Routine

def Method.call (m : Method) (self : Datum) (as : Arguments) : Trace Datum :=
  self.callMethod (Routine.callTo (Routine.nesting as + self.depth)) m as

end Patchwork
