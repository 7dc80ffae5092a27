import Patchwork.Datum.Text

/-!
# Functions on data

The functions that a script can call: constructors of values and arrays, mathematical
functions, and selections from arrays. Each looks at what it is given and hands the work
to the operation of that kind of datum.
-/

namespace Patchwork

/-- What a function is called with: arguments by position and by name. -/
structure Arguments where
  positional : List Datum
  named : List (String × Datum) := []

namespace Arguments

def find? (as : Arguments) (k : Nat) (name : String) : Option Datum :=
  as.positional[k]? <|> as.named.lookup name

def need (as : Arguments) (k : Nat) (name : String) : Trace Datum :=
  match as.find? k name with
  | some d => pure d
  | none => throw .illTyped

def get (as : Arguments) (k : Nat) (name : String) (fallback : Datum) : Datum :=
  (as.find? k name).getD fallback

end Arguments

namespace Datum

open Arithmetic

/-! ## Parts -/

def iterate : Datum → Except Fault (List Datum)
  | vector xs | set xs => .ok xs
  | quaternion w x y z => .ok [w, x, y, z]
  | tensor shape values _ => do
    return (← (⟨shape, values⟩ : Tensor Datum).rows).map ofTensor
  | dict es => .ok (es.map Prod.fst)
  | d => match d.items? with
    | some xs => .ok xs
    | none => .error .illTyped

def isIterable : Datum → Bool
  | vector _ | set _ | quaternion .. | tensor .. | dict _ => true
  | d => d.isSequence

def length : Datum → Except Fault Int
  | vector xs | set xs => .ok xs.length
  | quaternion .. => .ok 4
  | tensor shape values _ => do
    let n ← (⟨shape, values⟩ : Tensor Datum).length
    if n < 0 then throw .domain else return n
  | dict es => .ok es.length
  | d => match d.items? with
    | some xs => .ok xs.length
    | none => .error .illTyped

def asKey (d : Datum) : Key :=
  match d with
  | scalar (.plain (.int i)) => .index i
  | scalar (.plain (.bool b)) => .flag b
  | slice s => .slice s
  | d => .foreign d.classText

def tensorItem (t : Tensor Datum) (key : Datum) : Except Fault (Tensor Datum) :=
  if t.shape.isEmpty then .error (.rankZero .index)
  else match key with
    | slice s => t.select [.slice s]
    | scalar (.plain (.int i)) => t.index i
    | scalar (.plain (.bool b)) => t.indexBy (Tensor.flagIndex b 0)
    | key => match key.items? with
      | some keys => t.select (keys.map asKey)
      | none => .error (.violated (.indexKind key.classText))

def listItem (xs : List Datum) (wrap : List Datum → Datum) (key : Datum) : Except Fault Datum :=
  match key with
  | slice s => wrap <$> s.select xs
  | key => match key.whole? with
    | some i => Sequence.at xs i
    | none => .error .illTyped

def joinTexts (xs : List Datum) : Datum :=
  text (String.join (xs.map fun x => match x with | text s => s | _ => ""))

def joinBytes (xs : List Datum) : Datum :=
  bytes (xs.filterMap fun x => x.whole?.map fun i => UInt8.ofNat i.toNat)

def item (d key : Datum) : Trace Datum := Fault.lift <|
  match d with
  | tensor shape values _ => ofTensor <$> tensorItem ⟨shape, values⟩ key
  | vector xs => listItem xs vector key
  | quaternion w x y z => listItem [w, x, y, z] vector key
  | list xs => listItem xs list key
  | tuple xs => listItem xs tuple key
  | d@(text _) => listItem (d.items?.getD []) joinTexts key
  | d@(bytes _) => listItem (d.items?.getD []) joinBytes key
  | _ => .error .illTyped

/-! ## Constructors -/

def readInt : Datum → Except Fault Int
  | scalar (.plain n) => n.toInt
  | text s => match Number.readInt? s with
    | some i => .ok i
    | none => .error .domain
  | _ => .error .illTyped

def readFloat : Datum → Except Fault Float
  | scalar (.plain n) => n.toFloat
  | text s => match Number.readFloat? s with
    | some x => .ok x
    | none => .error .domain
  | _ => .error .illTyped

def constantAs (n : Number) (kind : Kind) : Trace Datum := do
  return traced { (← Value.constant n) with kind }

def makeValue (source kind : Datum) : Trace Datum :=
  match source, kind with
  | net n, text "" | net n, absent => pure (traced (.ofNet n))
  | net n, text s => return traced (← Value.ofNetAs n s)
  | source, text "int" => do constantAs (.int (← Fault.lift source.readInt)) .int
  | source, text "bool" => do constantAs (.int (← Fault.lift source.readInt)) .bool
  | source, text "float" => do constantAs (.float (← Fault.lift source.readFloat)) .float
  | source, absent => source.named
  | _, _ => throw (.rejected .typeName)

def readShape (xs : List Datum) : Except Fault (Shape × List Nat) := do
  let shape ← xs.mapM fun x => match x.whole? with
    | some i => .ok i
    | none => .error .illTyped
  let truths := xs.zipIdx.filterMap fun (x, k) => match x with
    | scalar (.plain (.bool _)) => some k
    | _ => none
  return (shape, truths)

def makeTensor (values shape : Datum) : Trace Datum := do
  if ← Fault.lift shape.truth then
    let (shape, truths) ← Fault.lift (do readShape (← shape.iterate))
    match values.items? with
    | some xs => rebuilt xs shape truths
    | none => throw (.violated .scalarSequence)
  else return ofTensor (← Fault.lift values.tensorOf)

/-- A quaternion from four components, or from something that runs through four. -/
def makeQuaternion (as : Arguments) : Trace Datum := do
  if 4 < as.positional.length then throw .illTyped
  let w := as.get 0 "w" (plain (.float 1.0))
  if w.isIterable then
    match ← Fault.lift w.iterate with
    | [a, b, c, d] => return quaternion a b c d
    | _ => throw (.violated .fourComponents)
  else
    let rest (k : Nat) (name : String) := as.get k name (plain (.float 0.0))
    return quaternion w (rest 1 "x") (rest 2 "y") (rest 3 "z")

def filled (n : Int) (shape : Datum) : Trace Datum := do
  let extents ← match shape.whole? with
    | some _ => pure [shape]
    | none => Fault.lift shape.iterate
  let (shape, truths) ← Fault.lift (readShape extents)
  let t ← Fault.lift (Tensor.filled (int n) shape)
  return tensor t.shape t.values (if shape.isEmpty then [] else truths)

def needNumber (d : Datum) : Trace Number :=
  match d.number? with
  | some n => pure n
  | none => throw .illTyped

/-- Refuses anything but a whole number. -/
def needInt (d : Datum) : Trace Int :=
  match d.whole? with
  | some i => pure i
  | none => throw .illTyped

/-- Evenly spaced named constants. Without a second bound, counting starts at zero. -/
def arange (as : Arguments) : Trace Datum := do
  let first ← needNumber (← as.need 0 "start")
  let step ← needNumber (as.get 2 "step" (int 1))
  let (start, stop) ← match as.get 1 "stop" absent with
    | absent => pure (Number.int 0, first)
    | d => pure (first, ← needNumber d)
  let numbers ← Fault.lift (Tensor.evenly start stop step)
  let values ← numbers.mapM fun n => named (plain n)
  rebuilt values [(values.length : Int)]

/-- A matrix with named ones on the diagonal and named zeros elsewhere. -/
def makeEye (rows columns : Datum) : Trace Datum := do
  let t ← Tensor.eye (← needInt rows) (← needInt columns)
  let (_, truths) ← Fault.lift (readShape [rows, columns])
  return tensor t.shape t.values truths

def makeDiagonal (d : Datum) : Trace Datum :=
  match d with
  | vector xs => ofTensor <$> Tensor.diagonal xs
  | tensor shape values _ =>
    if shape.length ≠ 1 then throw (.rejected (.notOneDimensional shape.length))
    else do
      let rows ← Fault.lift (⟨shape, values⟩ : Tensor Datum).rows
      ofTensor <$> Tensor.diagonal (rows.map ofTensor)
  | _ => throw .absentAttribute

/-- Vectors and tensors joined along an axis. Vectors alone give a vector. -/
def concatenate (parts axis : Datum) : Trace Datum := do
  unless ← Fault.lift parts.truth do throw (.violated .someTensor)
  let parts ← Fault.lift parts.iterate
  let tensors ← parts.mapM fun part => match part with
    | vector xs => Fault.lift (Tensor.build xs [(xs.length : Int)])
    | tensor shape values _ => pure ⟨shape, values⟩
    | quaternion w x y z => pure ⟨[4], [w, x, y, z]⟩
    | _ => throw .absentAttribute
  let t ← Fault.lift (Tensor.concat tensors (← needInt axis))
  let allVectors := parts.all fun part => match part with | vector _ => true | _ => false
  return if allVectors && t.rank == 1 then vector t.values else ofTensor t

/-! ## Mathematical functions -/

/-- Keeps a number between bounds, or every component of a vector. -/
def clamp (x lower upper : Datum) : Trace Datum :=
  match x with
  | vector xs => vector <$> xs.mapM fun x => Arithmetic.clamp x lower upper
  | x => Arithmetic.clamp x lower upper

def lerp (a b t : Datum) : Trace Datum := do
  let mix (x y : Datum) : Trace Datum := do
    add (← mul (m := Trace) x (← sub (m := Trace) (int 1) t)) (← mul (m := Trace) y t)
  match a, b with
  | vector xs, vector ys => vector <$> Vector.zipWith mix xs ys .interpolationLength
  | vector _, _ | _, vector _ => throw (.violated .bothVectors)
  | a, b => mix a b

def relu (x : Datum) : Trace Datum := do mul x (← binary .gt x (int 0))

def sigmoid (x : Datum) : Trace Datum := do
  let e ← elementary .exp (← x.neg)
  binary .trueDiv (int 1) (← binary .add (int 1) e)

def choose (condition first second : Datum) : Trace Datum :=
  if first.isNumber && second.isNumber then Arithmetic.select condition first second
  else throw (.violated .branchResult)

def needVector : Datum → Trace (List Datum)
  | vector xs => pure xs
  | _ => throw .absentAttribute

def needElements (d : Datum) : Trace (List Datum) :=
  match d.elements? with
  | some xs => pure xs
  | none => throw .absentAttribute

def distance (a b : Datum) : Trace Datum := do
  Vector.magnitude (← needVector (← binary .sub a b))

/-- The absolute value as an operator: the length of a quaternion, and defined for
numbers but not for other arrays. -/
def absolute : Datum → Trace Datum
  | scalar (.plain n) => pure (plain n.abs)
  | scalar s => scalar <$> s.abs
  | quaternion w x y z => Quaternion.norm ⟨w, x, y, z⟩
  | _ => throw .illTyped

end Datum

end Patchwork
