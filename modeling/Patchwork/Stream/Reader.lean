import Patchwork.Stream.Opcode

/-!
# Reading a stream

A reader stands at a position in some bytes. Beyond the end there are no bytes: a number
read there is made of the bytes that are left, and the position moves on all the same.
Only single bytes and operation codes can be missing.
-/

namespace Patchwork

/-- Bytes and a position in them. -/
structure Reader where
  order : ByteOrder
  data : Bytes
  index : Int := 0

namespace Reader

def peek (r : Reader) (count : Int) : Bytes := Sequence.between r.data r.index (r.index + count)

def skip (r : Reader) (count : Int) : Reader := { r with index := r.index + count }

def int (r : Reader) (width : Int := 4) (isSigned : Bool := false) : Int × Reader :=
  (Bytes.toInt r.order isSigned (r.peek width), r.skip width)

def opcode (r : Reader) : Except Fault (Opcode × Reader) :=
  match Opcode.ofCode? (Bytes.toInt r.order false (r.peek Opcode.width)) with
  | some o => .ok (o, r.skip Opcode.width)
  | none => .error .domain

def byte (r : Reader) : Except Fault (UInt8 × Reader) := do
  return (← Sequence.at r.data r.index, r.skip 1)

def raw (r : Reader) (count : Int) : Bytes × Reader := (r.peek count, r.skip count)

end Reader

end Patchwork
