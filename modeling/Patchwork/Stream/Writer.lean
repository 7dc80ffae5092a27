import Patchwork.Machine.Word
import Patchwork.Stream.Opcode

/-!
# Writing a stream

A writer collects items. An item is some bytes with a label that says what they are, so
that a stream can be listed in a readable form. An item that cannot be written leaves the
writer as it was.
-/

namespace Patchwork

/-- Some bytes of a stream and what they are. -/
structure StreamItem where
  label : String
  bytes : Bytes
  starts : Bool

structure Writer where
  order : ByteOrder
  items : List StreamItem := []

namespace Writer

def bytes (w : Writer) : Bytes := w.items.flatMap StreamItem.bytes

def append (w : Writer) (i : StreamItem) : Writer := { w with items := w.items ++ [i] }

def opcode (w : Writer) (o : Opcode) : Writer :=
  w.append ⟨o.name, Bytes.ofNat w.order Opcode.width o.code, true⟩

def labelledInt (w : Writer) (text : String) (i : Int) (width : Nat) (isSigned : Bool) :
    Except Fault Writer := do
  return w.append ⟨s!"INT {text}", ← Bytes.ofInt w.order width isSigned i, false⟩

def int (w : Writer) (i : Int) (width : Nat := 4) (isSigned : Bool := false) :
    Except Fault Writer := w.labelledInt (toString i) i width isSigned

def byte (w : Writer) (i : Int) : Except Fault Writer :=
  if 0 ≤ i ∧ i < 256 then .ok (w.append ⟨s!"BYTE {i}", [UInt8.ofNat i.toNat], false⟩)
  else .error .domain

def raw (w : Writer) (bs : Bytes) : Writer := w.append ⟨s!"BYTES {bs.length}", bs, false⟩

/-- Writes a plain number: a double as binary32 or binary64, anything else as a signed
number. -/
def value (w : Writer) (n : Number) (width : Nat := 4) : Except Fault Writer :=
  match n with
  | .int i => w.int i width true
  | .bool b => w.labelledInt (if b then "True" else "False") (if b then 1 else 0) width true
  | .float x =>
    if width = 4 then do return w.raw (Bytes.ofNat w.order 4 (← Word.ofDouble x).toNat)
    else if width = 8 then .ok (w.raw (Bytes.ofNat w.order 8 x.toBits.toNat))
    else .error (.violated (.encodedLength 8 width))

def column (label : String) : String := label ++ String.ofList (List.replicate (18 - label.length) ' ')

def digits (bs : Bytes) : String := " ".intercalate (bs.map fun b => (Bytes.hexDigits b).toUpper)

/-- The stream in readable form: a line for each item and an empty line before each
command. -/
def listing (w : Writer) : String :=
  String.join (w.items.map fun i =>
    (if i.starts then "\n" else "") ++ column i.label ++ digits i.bytes ++ "\n")

@[simp] theorem bytes_append (w : Writer) (i : StreamItem) :
    (w.append i).bytes = w.bytes ++ i.bytes := by
  simp [append, bytes]

end Writer

end Patchwork
