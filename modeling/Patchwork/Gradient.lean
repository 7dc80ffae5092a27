import Patchwork.Schedule.Edges
import Patchwork.Scalar.Functions

/-!
# Reverse-mode differentiation

The adjoint of a net is the derivative of the result with respect to it. Going from the
result backwards through the nodes that lie between it and the variables, every operation
passes its adjoint on to its operands, multiplied by its own derivative. Adjoints are
scalars, so they stay plain numbers for as long as they can.
-/

namespace Patchwork

abbrev Adjoints := List (Net × Scalar)

namespace Gradient

open Scalar

def float (x : Float) : Scalar := plain (.float x)

def at? (g : Graph) (found : Adjoints) (n : Net) : Option Scalar :=
  (found.find? fun entry => g.sameNet entry.1 n).map Prod.snd

def enter (g : Graph) (found : Adjoints) (n : Net) (x : Scalar) : Adjoints :=
  if found.any fun entry => g.sameNet entry.1 n then
    found.map fun entry => if g.sameNet entry.1 n then (entry.1, x) else entry
  else found ++ [(n, x)]

def contribute (found : Adjoints) (n : Net) (x : Scalar) : Trace Adjoints := do
  let g ← get
  return enter g found n (← add ((at? g found n).getD (float 0.0)) x)

def quotient (a b : Scalar) : Trace Scalar := binary .trueDiv a b

def squared (a : Scalar) : Trace Scalar := binary .pow a (int 2)

/-- What an operation with operands `a` and `b` (the same for one operand) passes on to
each of them, given its own adjoint `g`. Operations with whole results pass on nothing. -/
def contributions (o : Operation) (a b g : Scalar) : Trace (Option Scalar × Option Scalar) := do
  let first (x : Trace Scalar) : Trace (Option Scalar × Option Scalar) := return (some (← x), none)
  match o with
  | .ge | .gt | .eq | .ne | .floordiv | .bwand | .bwor | .bwxor => return (none, none)
  | .add => return (some g, some g)
  | .sub => return (some g, some (← g.neg))
  | .mul => return (some (← mul b g), some (← mul a g))
  | .div =>
    let left ← quotient g b
    let right ← quotient (← mul (← a.neg) g) (← squared b)
    return (some left, some right)
  | .mod => return (some g, some (← quotient (← mul (← a.neg) g) b))
  | .log => first (quotient g a)
  | .exp => first do mul g (← elementary .exp a)
  | .pow =>
    let left ← mul (← mul b (← binary .pow a (← sub b (int 1)))) g
    let right ← mul (← mul (← binary .pow a b) (← elementary .log a)) g
    return (some left, some right)
  | .sqrt => first do mul g (← quotient (float 0.5) (← elementary .sqrt a))
  | .abs => first do mul g (← sign a)
  | .neg => first b.neg
  | .sin => first do mul g (← elementary .cos a)
  | .cos => first do mul g (← (← elementary .sin a).neg)
  | .tan => first do mul g (← quotient (int 1) (← squared (← elementary .cos a)))
  | .asin => first do
    mul g (← quotient (int 1) (← elementary .sqrt (← sub (int 1) (← squared a))))
  | .acos => first do
    mul g (← quotient (int (-1)) (← elementary .sqrt (← sub (int 1) (← squared a))))
  | .atan => first do mul g (← quotient (int 1) (← add (int 1) (← squared a)))
  | .atan2 =>
    let length ← add (← squared a) (← squared b)
    let left ← mul g (← quotient (← b.neg) length)
    let right ← mul g (← quotient a length)
    return (some left, some right)
  | o => throw (.rejected (.derivative o.stem))

/-- The adjoint that a node starts from: one for the result itself, else what its users
have passed on. -/
def ownAdjoint (x : Value) (order : List NodeId) (found : Adjoints) (k : NodeId) :
    Trace Scalar := do
  if k = x.net.source then return float 1.0
  let g ← get
  match (g.netOf? order k).bind (at? g found) with
  | some s => return s
  | none => throw .absentKey

def contribute? (found : Adjoints) (n : Net) : Option Scalar → Trace Adjoints
  | some x => contribute found n x
  | none => pure found

/-- Adds what an operation on two nets (the same for one operand) passes on to them, given
its own adjoint. -/
def distribute (o : Operation) (n m : Net) (own : Scalar) (found : Adjoints) : Trace Adjoints := do
  let (left, right) ← contributions o (traced (.ofNet n)) (traced (.ofNet m)) own
  contribute? (← contribute? found n left) m right

def passOn (x : Value) (order : List NodeId) (found : Adjoints) (k : NodeId) : Trace Adjoints := do
  let node := (← get).node k
  match node.args with
  | [] => return found
  | n :: rest =>
    let own ← ownAdjoint x order found k
    match node with
    | .apply o _ _ => distribute o n (rest.headD n) own found
    | node => throw (.rejected (.derivative node.stem))

def adjoints (x : Value) (leaves : List NodeId) (sets : SetOrder := {}) : Trace Adjoints := do
  let g ← get
  let order ← Fault.lift (g.sortEdges (g.edgesBetween [x.net.source] leaves sets))
  order.reverse.foldlM (passOn x order) []

def component (found : Adjoints) (y : Value) : Trace Scalar := do
  match at? (← get) found y.net with
  | some s => return s
  | none => throw .absentKey

end Gradient

end Patchwork
