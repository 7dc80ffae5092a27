import Patchwork.Machine.Word

/-!
# What stencils compute

A stencil of an operation takes its operands from the two registers and leaves its
result in the first. Its meaning is a function on words, chosen by the types of the
operands. Nothing that arranges stencils depends on what they compute, so the meaning is
a parameter, and the native one is a value of it.
-/

namespace Patchwork

/-- The meaning of the operation stencils: the result for given operand types and
register contents, and what a stencil with one operand leaves in the second register. -/
structure Interpretation where
  result : Operation → List Cell → Word → Word → Word
  residue : Operation → List Cell → Word → Word → Word

namespace Stencil

/-- An operation that is done on integers if both operands are, and else on binary32
numbers. -/
def arithmetic (onInts : Int32 → Int32 → Int32) (onReals : Float32 → Float32 → Float32) :
    List Cell → Word → Word → Word
  | [.int, .int], a, b => .ofSigned (onInts a.signed b.signed)
  | [s, t], a, b => .ofReal (onReals (a.real s) (b.real t))
  | _, a, _ => a

def realArithmetic (f : Float32 → Float32 → Float32) : List Cell → Word → Word → Word
  | [s, t], a, b => .ofReal (f (a.real s) (b.real t))
  | _, a, _ => a

/-- A comparison, done on integers if both operands are, and else on binary32 numbers. -/
def comparison (onInts : Int32 → Int32 → Bool) (onReals : Float32 → Float32 → Bool) :
    List Cell → Word → Word → Word
  | [.int, .int], a, b => .ofBool (onInts a.signed b.signed)
  | [s, t], a, b => .ofBool (onReals (a.real s) (b.real t))
  | _, a, _ => a

def onIntegers (f : Int32 → Int32 → Int32) (a b : Word) : Word := .ofSigned (f a.signed b.signed)

/-- The quotient of integers towards minus infinity. -/
def floorDiv (a b : Int32) : Int32 :=
  let q := a / b
  if a % b != 0 && (a < 0) != (b < 0) then q - 1 else q

/-- A function of one operand, given separately for integers and binary32 numbers. -/
def unary (onInt : Int32 → Word) (onReal : Float32 → Word) : List Cell → Word → Word
  | [.int], a => onInt a.signed
  | [.float], a => onReal (a.real .float)
  | _, a => a

def realSign (x : Float32) : Int32 := if 0 < x then 1 else if x < 0 then -1 else 0

def intSign (x : Int32) : Int32 := if 0 < x then 1 else if x < 0 then -1 else 0

def get42 (x : Float32) : Float32 :=
  (Word.truncate (x * 3.0 + 42.0)).toFloat32 * 5.0 + 21.0

/-- The result of a stencil on the native machine. The functions of a mathematical
library are not part of it, and a program that needs one is not linked. -/
def native (o : Operation) (operands : List Cell) (a b : Word) : Word :=
  match o with
  | .add => arithmetic (· + ·) (· + ·) operands a b
  | .sub => arithmetic (· - ·) (· - ·) operands a b
  | .mul => arithmetic (· * ·) (· * ·) operands a b
  | .div => realArithmetic (· / ·) operands a b
  | .floordiv => arithmetic floorDiv (fun x y => (x / y).floor) operands a b
  | .mod => onIntegers (· % ·) a b
  | .gt => comparison (fun x y => x > y) (fun x y => x > y) operands a b
  | .ge => comparison (fun x y => x ≥ y) (fun x y => x ≥ y) operands a b
  | .eq => comparison (· == ·) (· == ·) operands a b
  | .ne => comparison (· != ·) (· != ·) operands a b
  | .bwand => a &&& b
  | .bwor => a ||| b
  | .bwxor => a ^^^ b
  | .lshift => onIntegers (· <<< ·) a b
  | .rshift => onIntegers (· >>> ·) a b
  | .min => arithmetic (fun x y => if x < y then x else y) (fun x y => if x < y then x else y) operands a b
  | .max => arithmetic (fun x y => if x > y then x else y) (fun x y => if x > y then x else y) operands a b
  | .neg => unary (fun x => .ofSigned (-x)) (fun x => .ofReal (-x)) operands a
  | .abs => unary (fun x => .ofSigned (if x < 0 then -x else x)) (fun x => .ofReal x.abs) operands a
  | .sign => unary (fun x => .ofSigned (intSign x)) (fun x => .ofSigned (realSign x)) operands a
  | .get42 => unary (fun x => .ofReal (get42 x.toFloat32)) (fun x => .ofReal (get42 x)) operands a
  | .cast .float => .ofReal a.signed.toFloat32
  | .cast .int => .ofSigned (Word.truncate (a.real .float))
  | _ => a

end Stencil

/-- Arithmetic on 32-bit integers, which wraps around, and on binary32 numbers. -/
def Interpretation.native : Interpretation where
  result := Stencil.native
  residue _ _ _ b := b

end Patchwork
