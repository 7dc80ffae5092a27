import Patchwork.Stream.Writer
import Patchwork.Stream.Reader

/-!
# Commands

A command with its operands. Offsets, sizes, masks and scales are written as unsigned
words and patch values as signed ones; a payload declares its size.
-/

namespace Patchwork

inductive Command where
  | allocateData (size : Int)
  | copyData (offset size : Int) (payload : Bytes)
  | allocateCode (size : Int)
  | copyCode (offset size : Int) (payload : Bytes)
  | patch (kind : PatchKind) (offset mask scale value : Int)
  | entryPoint (offset : Int)
  | runProgram
  | readData (offset size : Int)
  | endCommands
  | freeMemory
  | dumpCode
  deriving Repr, DecidableEq

namespace Command

def opcode : Command → Opcode
  | allocateData _ => .allocateData
  | copyData .. => .copyData
  | allocateCode _ => .allocateCode
  | copyCode .. => .copyCode
  | patch kind .. => .patch kind
  | entryPoint _ => .entryPoint
  | runProgram => .runProgram
  | readData .. => .readData
  | endCommands => .endCommands
  | freeMemory => .freeMemory
  | dumpCode => .dumpCode

def writePayload (w : Writer) (offset size : Int) (payload : Bytes) : Except Fault Writer := do
  let w ← w.int offset
  let w ← w.int size
  return w.raw payload

def write (w : Writer) (c : Command) : Except Fault Writer :=
  let w := w.opcode c.opcode
  match c with
  | allocateData size | allocateCode size => w.int size
  | copyData offset size payload | copyCode offset size payload =>
    writePayload w offset size payload
  | patch _ offset mask scale value => do
    let w ← w.int offset
    let w ← w.int mask
    let w ← w.int scale
    w.int value 4 true
  | entryPoint offset => w.int offset
  | readData offset size => do
    let w ← w.int offset
    w.int size
  | runProgram | endCommands | freeMemory | dumpCode => .ok w

def writeAll (w : Writer) (cs : List Command) : Except Fault Writer := cs.foldlM write w

def readOperands (r : Reader) : Opcode → Command × Reader
  | .allocateData =>
    let (size, r) := r.int
    (allocateData size, r)
  | .copyData =>
    let (offset, r) := r.int
    let (size, r) := r.int
    let (payload, r) := r.raw size
    (copyData offset size payload, r)
  | .allocateCode =>
    let (size, r) := r.int
    (allocateCode size, r)
  | .copyCode =>
    let (offset, r) := r.int
    let (size, r) := r.int
    let (payload, r) := r.raw size
    (copyCode offset size payload, r)
  | .patch kind =>
    let (offset, r) := r.int
    let (mask, r) := r.int
    let (scale, r) := r.int
    let (value, r) := r.int 4 true
    (patch kind offset mask scale value, r)
  | .entryPoint =>
    let (offset, r) := r.int
    (entryPoint offset, r)
  | .runProgram => (runProgram, r)
  | .readData =>
    let (offset, r) := r.int
    let (size, r) := r.int
    (readData offset size, r)
  | .endCommands => (endCommands, r)
  | .freeMemory => (freeMemory, r)
  | .dumpCode => (dumpCode, r)

def read (r : Reader) : Except Fault (Command × Reader) := do
  let (o, r) ← r.opcode
  return readOperands r o

def isLast : Command → Bool
  | endCommands | dumpCode => true
  | _ => false

/-- Reads commands up to the one that ends the stream. Every command takes at least one
of `steps` steps. -/
def readUpTo : Nat → Reader → Except Fault (List Command × Reader)
  | 0, _ => .error .domain
  | steps + 1, r => do
    let (c, r) ← read r
    if c.isLast then return ([c], r)
    else
      let (cs, r) ← readUpTo steps r
      return (c :: cs, r)

/-- The commands of a stream up to the one that ends it. Without it the stream ends in a
missing operation code, so there are at most as many commands as bytes. -/
def readAll (r : Reader) : Except Fault (List Command × Reader) := readUpTo (r.data.length + 1) r

end Command

end Patchwork
