import Patchwork.Machine.Field
import Patchwork.Stream.Command
import Patchwork.Text.Number

/-!
# Patching without a machine

A stream can be carried out without running anything, to get the patched code. The
distance of data from code is given, and every command is reported.
-/

namespace Patchwork

open scoped Power

/-- The code so far and the lines of the report. -/
structure Patcher where
  code : Bytes := []
  report : List String := []

namespace Patcher

/-- What can be set: the distance from code to data, and the byte order. -/
structure Options where
  dataOffset : Int := -0x1000
  order : ByteOrder := .little
  deriving Repr

def say (p : Patcher) (lines : List String) : Patcher := { p with report := p.report ++ lines }

def wordAt (order : ByteOrder) (code : Bytes) (offset : Nat) : Word :=
  UInt32.ofNat (Bytes.toNat order ((code.drop offset).take 4))

def putWord (order : ByteOrder) (code : Bytes) (offset : Nat) (w : Word) : Bytes :=
  code.splice offset (offset + 4) (Bytes.ofNat order 4 w.toNat)

def mapWord (order : ByteOrder) (code : Bytes) (offset : Nat) (f : Word → Word) : Bytes :=
  putWord order code offset (f (wordAt order code offset))

def quotient (a b : Int) : Except Fault Int :=
  if b = 0 then .error .divisionByZero else .ok (a.fdiv b)

def wordOf (i : Int) : Word := UInt32.ofNat (i % 2 ^ (32 : Nat)).toNat

def payloadText (bs : Bytes) : String := " ".intercalate (bs.map fun b => "0x" ++ Text.hexInt b.toNat)

def patchText (name : String) (offset mask scale value : Int) : String :=
  s!"{name} patch_offs=0x" ++ Text.hexInt offset ++ " mask=0x" ++ Text.hexInt mask ++
    " scale=0x" ++ Text.hexInt scale ++ " value=0x" ++ Text.hexInt value

def calculatedText (value : Int) : String := " | calculated value: 0x" ++ Text.hexInt value

def patchPage (o : Options) (p : Patcher) (offset : Nat) (page : Int) : Except Fault Patcher :=
  if -2 ^ (20 : Nat) ≤ page ∧ page < 2 ^ (20 : Nat) then
    let word := Field.page (wordOf page) (wordAt o.order p.code offset)
    let code := putWord o.order p.code offset word
    let low := Field.pageLow (wordOf page)
    let high := Field.pageHigh (wordOf page)
    let line (start : String) (base : Nat) : String :=
      let digits (w : Word) : String := Text.digits base w.toNat
      start ++ " page_offset=0x" ++ Text.hexInt page ++ ", immhi=0x" ++ digits high ++
        ", immlo=0x" ++ digits low ++ ", instr=0x" ++ digits word
    .ok ({ p with code }.say [line "->>>" 16, line "    " 2])
  else .error (.rejected (.pageOffset page))

/-- The effect of a command. Some kinds of patch need a machine and are refused. -/
def execute (o : Options) (p : Patcher) (c : Command) : Except Fault Patcher :=
  let towardsData (value scale : Int) : Except Fault Int := do
    return (← quotient value scale) + (← quotient o.dataOffset scale)
  match c with
  | .allocateData size => .ok (p.say [s!"ALLOCATE_DATA size={size}"])
  | .allocateCode size =>
    .ok ({ p with code := List.replicate size.toNat 0 }.say [s!"ALLOCATE_CODE size={size}"])
  | .copyData offset size payload =>
    .ok (p.say ["COPY_DATA offs=0x" ++ Text.hexInt (offset + o.dataOffset) ++
      s!" size={size} data=" ++ payloadText payload])
  | .copyCode offset size payload =>
    let code := p.code.splice offset.toNat (offset + size).toNat payload
    .ok ({ p with code }.say ["COPY_CODE offs=0x" ++ Text.hexInt offset ++
      s!" size={size} data=" ++ payloadText (payload.take 5) ++ "..."])
  | .patch .function offset mask scale value => do
    let q ← quotient value scale
    let code := mapWord o.order p.code offset.toNat (Field.masked (wordOf mask) (wordOf q))
    return { p with code }.say [patchText "PATCH_FUNC" offset mask scale value]
  | .patch .object offset mask scale value => do
    let q ← towardsData value scale
    let code := mapWord o.order p.code offset.toNat (Field.masked (wordOf mask) (wordOf q))
    return { p with code }.say
      [patchText "PATCH_OBJECT" offset mask scale (value + o.dataOffset), calculatedText q]
  | .patch .objectPage offset mask scale value => do
    let q ← towardsData value scale
    let p ← patchPage o p offset.toNat q
    return p.say
      [patchText "PATCH_OBJECT_HI31" offset mask scale (value + o.dataOffset), calculatedText q]
  | .patch kind .. => .error (.violated (.knownCommand ("Command." ++ (Opcode.patch kind).name)))
  | .entryPoint offset => .ok (p.say ["ENTRY_POINT rel_entr_point=0x" ++ Text.hexInt offset])
  | .runProgram => .ok (p.say ["RUN_PROG"])
  | .readData offset size =>
    .ok (p.say ["READ_DATA offs=0x" ++ Text.hexInt offset ++ s!" size={size}"])
  | .freeMemory => .ok (p.say ["READ_DATA"])
  | .dumpCode => .ok (p.say ["DUMP_CODE"])
  | .endCommands => .ok (p.say ["END_COM"])

/-- Carries out commands until one ends the stream; at most `steps` of them. -/
def executeUpTo (o : Options) : Nat → Patcher → Reader → Except Fault Patcher
  | 0, _, _ => .error .domain
  | steps + 1, p, r => do
    let (c, r) ← Command.read r
    let p ← p.execute o c
    if c.isLast then return p else executeUpTo o steps p r

/-- Carries out a stream. Every command takes at least one byte. -/
def extract (o : Options) (stream : Bytes) : Except Fault Patcher :=
  executeUpTo o (stream.length + 1) {} { order := o.order, data := stream }

def reportText (p : Patcher) (path : String) : String :=
  String.join (p.report.map (· ++ "\n")) ++ s!"Code written to {path}.\n"

/-! ## Command line -/

def orderOf? : String → Option ByteOrder
  | "little" => some .little
  | "big" => some .big
  | _ => none

def setOption (o : Options) (name value : String) : Option Options :=
  match name with
  | "--data_section_offset" => (Number.readInt? value).map fun i => { o with dataOffset := i }
  | "--byteorder" => (orderOf? value).map fun order => { o with order }
  | _ => none

def optionName? (name : String) : Option String :=
  let known := ["--data_section_offset", "--byteorder", "--help"]
  if known.contains name then some name
  else match known.filter fun k => k.startsWith name && 2 < name.length with
    | [k] => some k
    | _ => none

/-- The options of a command line, each as two arguments or as one with an equals sign. -/
def parseOptions (o : Options) : List String → Option Options
  | [] => some o
  | argument :: rest =>
    match argument.splitOn "=" with
    | name :: second :: more => do
      parseOptions (← setOption o (← optionName? name) ("=".intercalate (second :: more))) rest
    | _ => match rest with
      | value :: rest => do parseOptions (← setOption o (← optionName? argument) value) rest
      | [] => none

end Patcher

end Patchwork
