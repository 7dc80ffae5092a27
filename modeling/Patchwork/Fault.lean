/-!
# Faults

Everything that can go wrong is named here by its cause, and the wording a user
sees is a function of the cause. A cause belongs to one of five families that carry
a message; the plain faults of arithmetic and look-up carry none.
-/

namespace Patchwork

abbrev Shape := List Int

/-- A shape between parentheses; a single extent is followed by a comma. -/
def Shape.text : Shape → String
  | [] => "()"
  | [n] => s!"({n},)"
  | ns => "(" ++ ", ".intercalate (ns.map toString) ++ ")"

/-- Something that an operation demands of its arguments. -/
inductive Requirement where
  /-- A demand without wording. -/
  | unstated
  | netType (net wanted : String)
  | branchResult
  | scalarSequence
  | indexCount (rank given : Nat)
  | indexKind (given : String)
  | keyKind (given : String)
  | squareMatrix
  | someTensor
  | sameLength
  | threeDimensional
  | bothVectors
  | interpolationLength
  | sameShape
  | fourComponents
  | tracedSubject (given : String)
  | netOrNode (given : String)
  | knownStencil (name : String)
  | netOfRelocation (stencil : String)
  | linkedSymbol (function symbol : String)
  | definedSection (relocation function symbol : String)
  | codeSection (symbol : String)
  | someCall (symbol : String)
  | shortRelocation
  | littleEndian
  | alignedLiteral
  | isFunction (symbol : String)
  | objectFile
  | encodedLength (actual wanted : Nat)
  | compiledValue
  | compiledVariable
  | tracedValue
  | manyValues
  | oneValue
  | knownCommand (name : String)
  | someRelease
  | someAsset
  deriving Repr, DecidableEq

namespace Requirement

def message : Requirement → String
  | unstated => ""
  | netType net wanted => s!"Type of Net ({net}) does not match {wanted}"
  | branchResult => "Result type not supported"
  | scalarSequence => "Values must be a sequence of scalars if shape is provided"
  | indexCount rank given => s!"Expected {rank} indices, got {given}"
  | indexKind given => s!"indices must be integers, slices, or tuples thereof, not {given}"
  | keyKind given => s!"indices must be integers or slices, not {given}"
  | squareMatrix => "Trace is only defined for square matrices"
  | someTensor => "At least one tensor must be provided"
  | sameLength => "Vectors must be of same length."
  | threeDimensional => "Both vectors must be 3-dimensional."
  | bothVectors => "None or both v1 and v2 must be vectors."
  | interpolationLength => "Vectors must be of the same length."
  | sameShape => "Tensors must have the same shape"
  | fourComponents => "Sequence must have exactly 4 elements for quaternion initialization."
  | tracedSubject given => s!"Argument x for grad function must be a copapy value but is {given}."
  | netOrNode given => given
  | knownStencil name => s!"- Warning: {name} stencil not found"
  | netOfRelocation stencil => s!"Relocation found but no net defined for operation {stencil}"
  | linkedSymbol function symbol => s!"- Function or object in {function} missing: {symbol}"
  | definedSection relocation function symbol => s!"('{relocation}', '{function}', '{symbol}')"
  | codeSection symbol => s!"No code section specified for symbol {symbol}"
  | someCall symbol => s!"No call function in stencil function {symbol}."
  | shortRelocation => "Relocation segment might be larger then 32 bit"
  | littleEndian => "Big endian not supported for ARM64"
  | alignedLiteral => "R_ARM_ABS32 patched data like literals needs to be 4 Byte aligned"
  | isFunction symbol => s!"{symbol} is not a function"
  | objectFile => "not an ELF file"
  | encodedLength actual wanted => s!"({actual}, {wanted})"
  | compiledValue => "Value h:# not found. It might not have been compiled for the target."
  | compiledVariable => "Variable h:# not found in data writer variables"
  | tracedValue => "Argument must be a copapy value"
  | manyValues => "If net is iterable, value must be iterable too"
  | oneValue => "If net is not iterable, value must not be iterable"
  | knownCommand name => s!"Unknown command: {name}"
  | someRelease => "No releases found."
  | someAsset => "No assets found."

end Requirement

/-- An argument of the right kind that no operation accepts. -/
inductive Rejection where
  | typeName
  | dataType (given : String)
  | ragged
  | broadcast (left right : Shape)
  | repetition (size : Int)
  | expansion (shape target : Shape)
  | unknownDimensions
  | inferredDimension (size : Int) (shape : Shape)
  | reshape (size : Int) (shape : Shape)
  | axisCount
  | axisRange (rank : Nat)
  | axis (given : Int) (rank : Nat)
  | scalarProduct
  | productShapes (left right : Shape)
  | zeroStep
  | notOneDimensional (rank : Nat)
  | cyclic
  | derivative (operation : String)
  | stencilSymbol (stencil kind symbol : String)
  | auxiliarySymbol (function kind symbol : String) (sectionIndex : Nat)
  | pageOffset (given : Int)
  | readLength
  | readBounds
  | contextHandle
  | targetHandle
  deriving Repr, DecidableEq

namespace Rejection

def message : Rejection → String
  | typeName => "Unknown type: \x7bdtype\x7d"
  | dataType given => s!"Non supported data type: {given}"
  | ragged => "All elements must have consistent shape"
  | broadcast left right =>
    s!"Incompatible shapes for broadcasting: {left.text} vs {right.text}"
  | repetition size => s!"Can only repeat dimensions of size 1, got {size}"
  | expansion shape target => s!"Cannot broadcast shape {shape.text} to {target.text}"
  | unknownDimensions => "Only one dimension can be -1"
  | inferredDimension size shape =>
    s!"Cannot infer dimension from size {size} with shape {shape.text}"
  | reshape size shape => s!"Cannot reshape tensor of size {size} into shape {shape.text}"
  | axisCount => "axes don't match tensor"
  | axisRange rank => s!"Invalid axes for tensor of rank {rank}"
  | axis given rank => s!"Axis {given} is out of bounds for tensor of rank {rank}"
  | scalarProduct => "matmul requires tensors with at least 1 dimension"
  | productShapes left right => s!"Shape mismatch: {left.text} @ {right.text}"
  | zeroStep => "step cannot be zero"
  | notOneDimensional rank => s!"Input must be 1D, got {rank}D"
  | cyclic => "Graph contains a cycle — topological sort not possible"
  | derivative operation => s!"Operation {operation} not yet supported for auto diff."
  | stencilSymbol stencil kind symbol => s!"Unsupported: {stencil} {kind} {symbol}"
  | auxiliarySymbol function kind symbol sectionIndex =>
    s!"Unsupported: name='{function}' reloc.target_symbol_info='{kind}' " ++
      s!"reloc.target_symbol_name='{symbol}' {sectionIndex}"
  | pageOffset given => s!"page_offset {given} out of 21-bit range"
  | readLength => "Length must be positive"
  | readBounds => "Read out of bounds"
  | contextHandle => "Invalid context handle"
  | targetHandle => "Invalid handle"

end Rejection

inductive Excess where
  | indexCount (rank given : Nat)
  | index (given : Int) (dimension : Nat) (size : Int)
  | flag (given : Bool) (dimension : Nat) (size : Int)
  | tooMany (rank : Nat)
  deriving Repr, DecidableEq

def Excess.message : Excess → String
  | .indexCount rank given => s!"Expected {rank} indices, got {given}"
  | .index given dimension size =>
    s!"Index {given} out of bounds for dimension {dimension} with size {size}"
  | .flag given dimension size =>
    let index := if given then "True" else "False"
    s!"Index {index} out of bounds for dimension {dimension} with size {size}"
  | .tooMany rank => s!"Too many indices for tensor of rank {rank}"

/-- Something that is meaningful but that no rule covers. -/
inductive Gap where
  | operation (name : String) (operands : List String)
  | product (left right : Nat)
  | relocation (name targetSection symbol : String)
  | platform (machine : String) (bits : Nat)
  deriving Repr, DecidableEq

def Gap.message : Gap → String
  | .operation name operands =>
    let joined := " and ".intercalate operands
    s!"Operation {name} not implemented for {joined}"
  | .product left right => s!"matmul not implemented for shapes {left}D @ {right}D"
  | .relocation name targetSection symbol =>
    s!"Relocation type {name} in {targetSection} pointing to {symbol} not implemented"
  | .platform machine bits => s!"Platform {machine} with {bits} bits is not supported."

/-- An operation on arrays that an array without dimensions does not have. -/
inductive RankZero where
  | length
  | index
  | iteration
  deriving Repr, DecidableEq

def RankZero.message : RankZero → String
  | .length => "len() of a 0-d tensor"
  | .index => "Cannot index a 0-d tensor"
  | .iteration => "Cannot iterate over a 0-d tensor"

inductive Fault where
  /-- An operation's demand on its arguments is not met. -/
  | violated (requirement : Requirement)
  | rejected (rejection : Rejection)
  /-- An index names no element, and the operation says which. -/
  | outside (excess : Excess)
  | uncovered (gap : Gap)
  /-- An array without dimensions was treated as one with dimensions. -/
  | rankZero (operation : RankZero)
  | divisionByZero
  | overflow
  /-- A number outside a function's domain, or a code outside an enumeration. -/
  | domain
  | absentKey
  | absentIndex
  /-- Operands or arguments of kinds that do not go together. -/
  | illTyped
  | absentAttribute
  /-- Nesting or recursion without an end. -/
  | endless
  /-- A record that does not fit in the bytes at hand. -/
  | truncated
  | absentFile
  /-- A name that no earlier step has bound. -/
  | unbound
  /-- A target without a program was asked to run. -/
  | notRunnable
  deriving Repr, DecidableEq

def Fault.message : Fault → Option String
  | .violated r => some r.message
  | .rejected r => some r.message
  | .outside e => some e.message
  | .uncovered g => some g.message
  | .rankZero o => some o.message
  | _ => none

def Fault.lift {m : Type → Type} [Monad m] [MonadExceptOf Fault m] {α : Type} :
    Except Fault α → m α
  | .ok x => pure x
  | .error e => throw e

/-- A computation that succeeds does so step by step. -/
theorem bind_ok {α β : Type} {x : Except Fault α} {f : α → Except Fault β} {b : β}
    (h : (x >>= f) = .ok b) : ∃ a, x = .ok a ∧ f a = .ok b := by
  cases x with
  | error e => cases h
  | ok a => exact ⟨a, rfl, h⟩

end Patchwork
