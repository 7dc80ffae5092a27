import Patchwork.Object.Basic

/-!
# Reading object files

The header says where the table of sections is; one section holds the symbols, and some
hold relocations. A record that does not fit in the file makes the file unreadable, and
so does a reference to a section that does not exist. A relocation belongs to the
function whose bytes it patches.
-/

namespace Patchwork

open scoped Power

/-! ## Records -/

namespace Record

def split (order : ByteOrder) : Bytes → List Nat → List Nat
  | _, [] => []
  | bs, width :: widths =>
    Bytes.toNat order (bs.take width) :: split order (bs.drop width) widths

/-- The numbers of a record at an offset. The record must lie in the file, and the offset
must be one that a file can have. -/
def fields (order : ByteOrder) (raw : Bytes) (offset : Nat) (widths : List Nat) :
    Except Fault (List Nat) :=
  let size := widths.foldl (· + ·) 0
  if 2 ^ (63 : Nat) ≤ offset then .error .overflow
  else if raw.length < offset + size then .error .truncated
  else .ok (split order ((raw.drop offset).take size) widths)

def character (b : UInt8) : Char := if b < 128 then Char.ofNat b.toNat else '�'

/-- The text at an offset of a table, up to the byte zero. If there is none, the last
byte of the table does not count. -/
def text (table : Bytes) (offset : Nat) : String :=
  let rest := table.drop offset
  let chars := if rest.contains 0 then rest.takeWhile (· != 0) else rest.dropLast
  String.ofList (chars.map character)

end Record

namespace Object

/-! ## Formats -/

/-- The two formats: addresses of 32 or of 64 bits. -/
inductive Format where
  | bits32
  | bits64
  deriving Repr, DecidableEq

namespace Format

def address : Format → Nat
  | bits32 => 4
  | bits64 => 8

/-- The widths in the file header, after its first 16 bytes. -/
def header (f : Format) : List Nat :=
  [2, 2, 4, f.address, f.address, f.address, 4, 2, 2, 2, 2, 2, 2]

def sectionHeader (f : Format) : List Nat :=
  let a := f.address
  [4, 4, a, a, a, a, 4, 4, a, a]

def symbol : Format → List Nat
  | bits32 => [4, 4, 4, 1, 1, 2]
  | bits64 => [4, 1, 1, 2, 8, 8]

def relocation (f : Format) (hasAddend : Bool) : List Nat :=
  if hasAddend then [f.address, f.address, f.address] else [f.address, f.address]

end Format

structure Header where
  format : Format
  order : ByteOrder
  machine : Nat
  tableOffset : Nat
  entrySize : Nat
  count : Nat
  nameTable : Nat

def readHeader (raw : Bytes) : Except Fault Header := do
  unless raw.take 4 = [0x7f, 0x45, 0x4c, 0x46] do throw (.violated .objectFile)
  let format := if (← Sequence.at raw 4) = 2 then Format.bits64 else .bits32
  let order := if (← Sequence.at raw 5) = 1 then ByteOrder.little else .big
  match ← Record.fields order raw 16 format.header with
  | [_, machine, _, _, _, tableOffset, _, _, _, _, entrySize, count, nameTable] =>
    return { format, order, machine, tableOffset, entrySize, count, nameTable }
  | _ => throw .truncated

def readTable (order : ByteOrder) (raw : Bytes) (base entrySize count : Nat) (widths : List Nat) :
    Except Fault (List (List Nat)) :=
  let readable := if entrySize = 0 then count else min count (raw.length + 1)
  (List.range readable).mapM fun i => Record.fields order raw (base + i * entrySize) widths

/-! ## Sections -/

def sectionOfFields (index : Nat) : List Nat → Section × Nat
  | [name, kind, flags, _, offset, size, link, info, alignment, entrySize] =>
    ({ index, name := "", kind := .ofCode kind, flags, offset, size, link, info, alignment,
       entrySize }, name)
  | _ => ({ index, name := "", kind := .null, flags := 0, offset := 0, size := 0, link := 0,
            info := 0, alignment := 0, entrySize := 0 }, 0)

def readSections (raw : Bytes) (h : Header) : Except Fault (List Section) := do
  let records ← readTable h.order raw h.tableOffset h.entrySize h.count h.format.sectionHeader
  let found := records.zipIdx.map fun (fields, index) => sectionOfFields index fields
  let names := match found[h.nameTable]? with
    | some (s, _) => (raw.drop s.offset).take s.size
    | none => []
  return found.map fun (s, name) => { s with name := Record.text names name }

def recordSize (s : Section) (widths : List Nat) : Nat :=
  if s.entrySize = 0 then widths.foldl (· + ·) 0 else s.entrySize

/-! ## Symbols -/

def thumbMachine : Nat := 0x28

/-- A symbol from its record. A section's symbol without a name has the name of the
section. -/
def symbolOfFields (h : Header) (sections : List Section) (names : Bytes) (index : Nat)
    (fields : List Nat) : Symbol :=
  let (name, info, sectionIndex, value, size) := match h.format, fields with
    | .bits32, [name, value, size, info, _, sectionIndex] => (name, info, sectionIndex, value, size)
    | .bits64, [name, info, _, sectionIndex, value, size] => (name, info, sectionIndex, value, size)
    | _, _ => (0, 0, 0, 0, 0)
  let kind := SymbolKind.ofCode (info % 16)
  let own := Record.text names name
  let sectionName := if sectionIndex = 0 then "" else
    ((sections[sectionIndex]?).map Section.name).getD ""
  { index, kind, sectionIndex, value, size
    name := if own.isEmpty && kind = .«section» then sectionName else own
    isThumb := value % 2 = 1 && h.machine = thumbMachine }

def readSymbols (raw : Bytes) (h : Header) (sections : List Section) :
    Except Fault (List Symbol) := do
  match sections.find? fun s => s.kind = .symtab with
  | none => return []
  | some table =>
    let names ← match sections[table.link]? with
      | some s => pure ((raw.drop s.offset).take s.size)
      | none => throw .absentIndex
    let size := recordSize table h.format.symbol
    let records ←
      readTable h.order raw table.offset size (table.size / size) h.format.symbol
    return records.zipIdx.map fun (fields, index) =>
      symbolOfFields h sections names index fields

/-! ## Relocations -/

def relocationName (machine code : Nat) : String :=
  let known := match machine with
    | 0x3E => match code with
      | 0 => "R_X86_64_NONE" | 1 => "R_X86_64_64" | 2 => "R_X86_64_PC32" | 3 => "R_X86_64_GOT32"
      | 4 => "R_X86_64_PLT32" | 9 => "R_X86_64_GOTPCREL" | 10 => "R_X86_64_32"
      | 11 => "R_X86_64_32S" | _ => ""
    | 0x03 => match code with
      | 0 => "R_386_NONE" | 1 => "R_386_32" | 2 => "R_386_PC32" | 4 => "R_386_PLT32" | _ => ""
    | 0x28 => match code with
      | 0 => "R_ARM_NONE" | 2 => "R_ARM_ABS32" | 10 => "R_ARM_THM_CALL" | 28 => "R_ARM_CALL"
      | 29 => "R_ARM_JUMP24" | 30 => "R_ARM_THM_JUMP24" | 43 => "R_ARM_MOVW_ABS_NC"
      | 44 => "R_ARM_MOVT_ABS" | 47 => "R_ARM_THM_MOVW_ABS_NC" | 48 => "R_ARM_THM_MOVT_ABS"
      | _ => ""
    | 0xB7 => match code with
      | 0 => "R_AARCH64_NONE" | 257 => "R_AARCH64_ABS64" | 258 => "R_AARCH64_ABS32"
      | 275 => "R_AARCH64_ADR_PREL_PG_HI21" | 277 => "R_AARCH64_ADD_ABS_LO12_NC"
      | 282 => "R_AARCH64_JUMP26" | 283 => "R_AARCH64_CALL26"
      | 285 => "R_AARCH64_LDST32_ABS_LO12_NC" | 286 => "R_AARCH64_LDST64_ABS_LO12_NC" | _ => ""
    | _ => ""
  if known.isEmpty then s!"R_UNKNOWN_{code}" else known

def storedAddend (raw : Bytes) (h : Header) (target : Option Section) (offset : Nat) :
    Except Fault Int :=
  match target with
  | none => .ok 0
  | some s => match Record.fields h.order raw (s.offset + offset) [4] with
    | .ok [n] => .ok (Bytes.signed 32 n)
    | .ok _ => .ok 0
    | .error .truncated => .ok 0
    | .error f => .error f

def relocationOfFields (raw : Bytes) (h : Header) (sections : List Section) (symbolCount : Nat)
    (s : Section) (fields : List Nat) : Except Fault Relocation := do
  let (offset, info, addend) := match fields with
    | [offset, info, addend] => (offset, info, some (Bytes.signed (8 * h.format.address) addend))
    | [offset, info] => (offset, info, none)
    | _ => (0, 0, none)
  let shift := match h.format with
    | .bits32 => 2 ^ (8 : Nat)
    | .bits64 => 2 ^ (32 : Nat)
  let target := sections[s.info]?
  let addend ← match addend with
    | some a => pure a
    | none => storedAddend raw h target offset
  let symbol := info / shift
  return { offset, addend, type := relocationName h.machine (info % shift)
           symbol := if symbol < symbolCount then some symbol else none
           target := target.map Section.index }

/-- The function that owns an offset in a section: the last one whose bytes cover it, or
the only one that there is. -/
def owner? (functions : List Symbol) (offset : Nat) : Option Nat :=
  let covers (f : Symbol) : Bool := f.offset ≤ offset && offset < max (f.offset + f.size) (f.offset + 1)
  match (functions.filter covers).getLast? with
  | some f => some f.index
  | none => match functions with
    | [f] => some f.index
    | _ => none

def functionsIn (sections : List Section) (symbols : List Symbol) (index : Nat) : List Symbol :=
  let inside := symbols.filter fun s =>
    s.kind = .function && s.sectionIndex ≠ 0 && s.sectionIndex = index && index < sections.length
  inside.mergeSort fun a b => a.offset ≤ b.offset

def readRelocations (raw : Bytes) (h : Header) (sections : List Section) (symbols : List Symbol)
    (s : Section) : Except Fault (List (Nat × Relocation)) := do
  if s.kind ≠ .rel ∧ s.kind ≠ .rela then return []
  let widths := h.format.relocation (s.kind = .rela)
  let size := recordSize s widths
  let functions := functionsIn sections symbols s.info
  let readable := min (s.size / size) (raw.length + 1)
  let found ← (List.range readable).mapM fun i => do
    let fields ← Record.fields h.order raw (s.offset + i * size) widths
    relocationOfFields raw h sections symbols.length s fields
  return found.filterMap fun r => (owner? functions r.offset).map fun k => (k, r)

def read (raw : Bytes) : Except Fault Object := do
  let h ← readHeader raw
  let sections ← readSections raw h
  let symbols ← readSymbols raw h sections
  let owned := (← sections.mapM (readRelocations raw h sections symbols)).flatten
  let symbols := symbols.map fun s =>
    let own := owned.filterMap fun (k, r) => if k = s.index then some r else none
    { s with relocations := own.mergeSort fun a b => a.offset ≤ b.offset }
  return { raw, order := h.order, sections, symbols }

end Object

end Patchwork
