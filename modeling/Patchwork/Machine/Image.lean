import Patchwork.Machine.Field
import Patchwork.Machine.Stencil
import Patchwork.Stream.Command

/-!
# Memory images

The runner carries out a stream of commands on two memories, one for data and one for
code. Where they are allocated is a parameter, and a patch towards data depends on it.
-/

namespace Patchwork

open scoped Power

/-- The addresses at which memories are allocated. -/
structure Placement where
  code : Int := 0x7f0000000000
  data : Int := 0x7f0010000000

/-- The memories and the entry point. -/
structure Image where
  data : Option Bytes := none
  code : Option Bytes := none
  /-- The distance from code to data, as it was when one of them was last allocated. -/
  dataOffset : Int32 := 0
  entry : Int := 0

namespace Image

/-- The address of a memory that was allocated at some place. A memory of no bytes cannot be
had, and its address stands for that. -/
def addressOf (place : Int) : Option Bytes → Int
  | none => 0
  | some [] => -1
  | some _ => place

def dataAddress (p : Placement) (i : Image) : Int := addressOf p.data i.data

def codeAddress (p : Placement) (i : Image) : Int := addressOf p.code i.code

def relativeEntry (p : Placement) (i : Image) : Option Int :=
  if i.entry = 0 then none else some (i.entry - i.codeAddress p)

/-- What a command leads to: a new image, perhaps the end of the stream, and a text. -/
structure Outcome where
  image : Image
  result : Option Int := none
  output : String := ""

/-- Sets the distance of the memories, which must not be too far apart. -/
def measured (p : Placement) (i : Image) : Outcome :=
  let distance := i.dataAddress p - i.codeAddress p
  if i.data.isSome && i.code.isSome && 0x7fffffff < distance.natAbs then
    { image := i, result := some (-4) }
  else { image := { i with dataOffset := Int32.ofInt distance } }

def wordAt (bs : Bytes) (offset : Nat) : Word :=
  UInt32.ofNat (Bytes.toNat .little ((bs.drop offset).take 4))

def mapWord (bs : Bytes) (offset : Nat) (f : Word → Word) : Bytes :=
  bs.overwrite offset (Bytes.ofNat .little 4 (f (wordAt bs offset)).toNat)

def wrapped (i : Int) : Word := (Int32.ofInt i).toUInt32

def addressPart (p : Placement) (i : Image) (mask scale value : Int) : Word :=
  let address := ((i.dataAddress p + value) % 2 ^ (64 : Nat)).toNat
  UInt32.ofNat (address &&& (wrapped mask).toNat) / wrapped scale

def patchWord (p : Placement) (i : Image) (kind : PatchKind) (offset mask scale value : Int) :
    Word → Word :=
  let unit := Int32.ofInt scale
  let amount := Int32.ofInt value
  match kind with
  | .function | .objectAbsolute => Field.masked (wrapped mask) (amount / unit).toUInt32
  | .object => Field.masked (wrapped mask) (amount / unit + i.dataOffset / unit).toUInt32
  | .objectPage =>
    Field.page (Stencil.floorDiv (i.dataOffset + amount) unit - Int32.ofInt offset / unit).toUInt32
  | .objectMove => Field.move (addressPart p i mask scale value)
  | .functionThumb => Field.branchThumb amount.toUInt32
  | .objectMoveThumb => Field.moveThumb (addressPart p i mask scale value)
  | .objectRelative => id

/-- The code after a patch. The address of data as a whole takes eight bytes, any other
patch changes one word. -/
def patched (p : Placement) (i : Image) (code : Bytes) (kind : PatchKind)
    (offset mask scale value : Int) : Bytes :=
  match kind with
  | .objectRelative =>
    code.overwrite offset.toNat
      (Bytes.ofNat .little 8 ((i.dataAddress p + value) % 2 ^ (64 : Nat)).toNat)
  | kind => mapWord code offset.toNat (patchWord p i kind offset mask scale value)

def shown (bs : Bytes) : String :=
  String.join (bs.map fun b => (Bytes.hexDigits b).toUpper ++ " ") ++ "\n"

def range (bs : Bytes) (offset size : Nat) : Bytes :=
  let found := (bs.drop offset).take size
  found ++ List.replicate (size - found.length) 0

/-- The effect of one command. A program is not run, because its code is opaque here. Nor is its
code protected when it gets an entry point, after which no stream should write code. -/
def execute (p : Placement) (i : Image) : Command → Outcome
  | .allocateData size => measured p { i with data := some (List.replicate size.toNat 0) }
  | .allocateCode size => measured p { i with code := some (List.replicate size.toNat 0) }
  | .copyData offset _ payload =>
    { image := { i with data := i.data.map fun bs => bs.overwrite offset.toNat payload } }
  | .copyCode offset _ payload =>
    { image := { i with code := i.code.map fun bs => bs.overwrite offset.toNat payload } }
  | .patch kind offset mask scale value =>
    { image := { i with code := i.code.map fun bs => i.patched p bs kind offset mask scale value } }
  | .entryPoint offset => { image := { i with entry := i.codeAddress p + offset } }
  | .runProgram => { image := i }
  | .readData offset size =>
    { image := i, output := shown (range (i.data.getD []) offset.toNat size.toNat) }
  | .freeMemory => { image := {} }
  | .dumpCode => { image := i, result := some 2 }
  | .endCommands => { image := i, result := some 1 }

/-- Carries out commands until one ends the stream; at most `steps` of them. A code that
is not known ends it too. -/
def runUpTo (p : Placement) : Nat → Image → Reader → Outcome
  | 0, i, _ => { image := i, result := some (-1) }
  | steps + 1, i, r =>
    match Command.read r with
    | .error _ => { image := i, result := some (-1) }
    | .ok (c, r) =>
      let outcome := i.execute p c
      match outcome.result with
      | some _ => outcome
      | none =>
        let rest := runUpTo p steps outcome.image r
        { rest with output := outcome.output ++ rest.output }

/-- Carries out a stream. Every command takes at least one byte. -/
def run (p : Placement) (i : Image) (stream : Bytes) : Outcome :=
  runUpTo p (stream.length + 1) i { order := .little, data := stream }

/-- Bytes of the data memory. There must be some, in a memory that exists, and all of them
inside it. Positions wrap around at 64 bits. -/
def read (i : Option Image) (offset length : Int) : Except Fault Bytes :=
  if length = 0 then .error (.rejected .readLength)
  else match i with
    | none => .error (.rejected .contextHandle)
    | some i => match i.data with
      | none => .error (.rejected .readBounds)
      | some bs =>
        if (bs.length : Int) < (offset + length) % 2 ^ (64 : Nat) then
          .error (.rejected .readBounds)
        else .ok ((bs.drop offset.toNat).take length.toNat)

end Image

end Patchwork
