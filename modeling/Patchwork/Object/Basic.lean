import Patchwork.Bytes

/-!
# Object files

An object file in the executable and linkable format, as far as stencils need it:
sections, symbols, and the relocations of each function.
-/

namespace Patchwork

inductive SectionKind where
  | null | progbits | symtab | strtab | rela | hash | dynamic | note | nobits | rel | shlib
  | dynsym
  | other (code : Nat)
  deriving Repr, DecidableEq

namespace SectionKind

def ofCode : Nat → SectionKind
  | 0 => null | 1 => progbits | 2 => symtab | 3 => strtab | 4 => rela | 5 => hash
  | 6 => dynamic | 7 => note | 8 => nobits | 9 => rel | 10 => shlib | 11 => dynsym
  | n => other n

def name : SectionKind → String
  | null => "SHT_NULL" | progbits => "SHT_PROGBITS" | symtab => "SHT_SYMTAB"
  | strtab => "SHT_STRTAB" | rela => "SHT_RELA" | hash => "SHT_HASH"
  | dynamic => "SHT_DYNAMIC" | note => "SHT_NOTE" | nobits => "SHT_NOBITS"
  | rel => "SHT_REL" | shlib => "SHT_SHLIB" | dynsym => "SHT_DYNSYM"
  | other n => s!"SHT_{n}"

end SectionKind

inductive SymbolKind where
  | noType | object | function | «section» | file | common | threadLocal
  | other (code : Nat)
  deriving Repr, DecidableEq

namespace SymbolKind

def ofCode : Nat → SymbolKind
  | 0 => noType | 1 => object | 2 => function | 3 => «section» | 4 => file | 5 => common
  | 6 => threadLocal
  | n => other n

def name : SymbolKind → String
  | noType => "STT_NOTYPE" | object => "STT_OBJECT" | function => "STT_FUNC"
  | «section» => "STT_SECTION" | file => "STT_FILE" | common => "STT_COMMON"
  | threadLocal => "STT_TLS"
  | other n => s!"STT_{n}"

end SymbolKind

structure Section where
  index : Nat
  name : String
  kind : SectionKind
  flags : Nat
  offset : Nat
  size : Nat
  link : Nat
  info : Nat
  alignment : Nat
  entrySize : Nat
  deriving Repr

/-- A place that has to be patched once addresses are known. -/
structure Relocation where
  offset : Nat
  type : String
  addend : Int
  /-- The position of the symbol that it points to. -/
  symbol : Option Nat
  /-- The section that is patched. -/
  target : Option Nat
  deriving Repr, DecidableEq

/-- A named place in a section. -/
structure Symbol where
  index : Nat
  name : String
  kind : SymbolKind
  sectionIndex : Nat
  value : Nat
  size : Nat
  /-- Whether it is a function in the short encoding of its machine. -/
  isThumb : Bool
  /-- Its relocations by offset, if it is a function. -/
  relocations : List Relocation := []
  deriving Repr

def Relocation.bits (r : Relocation) : Nat :=
  match r.type with
  | "R_X86_64_64" | "R_AARCH64_ABS64" => 64
  | "R_ARM_CALL" | "R_ARM_JUMP24" | "R_ARM_THM_CALL" | "R_ARM_THM_JUMP24" => 24
  | "R_ARM_MOVW_ABS_NC" | "R_ARM_MOVT_ABS" | "R_ARM_THM_MOVW_ABS_NC" | "R_ARM_THM_MOVT_ABS" => 16
  | "R_AARCH64_CALL26" | "R_AARCH64_JUMP26" => 26
  | "R_AARCH64_ADR_PREL_PG_HI21" => 21
  | "R_AARCH64_ADD_ABS_LO12_NC" | "R_AARCH64_LDST32_ABS_LO12_NC"
  | "R_AARCH64_LDST64_ABS_LO12_NC" => 12
  | _ => 32

/-- The offset of a symbol in its section; the lowest bit marks the short encoding and
does not count. -/
def Symbol.offset (s : Symbol) : Nat := if s.isThumb then s.value / 2 * 2 else s.value

structure Object where
  raw : Bytes
  order : ByteOrder
  sections : List Section
  symbols : List Symbol

namespace Object

def bytesAt (o : Object) (offset length : Int) : Bytes :=
  Sequence.between o.raw offset (offset + length)

def sectionData (o : Object) (s : Section) : Bytes := (o.raw.drop s.offset).take s.size

def section? (o : Object) (index : Nat) : Option Section := o.sections[index]?

def sectionOf? (o : Object) (s : Symbol) : Option Section :=
  if s.sectionIndex = 0 then none else o.section? s.sectionIndex

def symbol? (o : Object) (name : String) : Option Symbol :=
  if name.isEmpty then none else o.symbols.find? fun s => s.name == name

def symbol (o : Object) (name : String) : Except Fault Symbol :=
  match o.symbol? name with
  | some s => .ok s
  | none => .error .absentKey

def pointedTo? (o : Object) (r : Relocation) : Option Symbol := r.symbol.bind fun k => o.symbols[k]?

def pointedTo (o : Object) (r : Relocation) : Except Fault Symbol :=
  match o.pointedTo? r with
  | some s => .ok s
  | none => .error .absentAttribute

/-- Where a symbol lies in the file; a symbol without a section lies nowhere. -/
def fileOffset (o : Object) (s : Symbol) : Nat :=
  match o.sectionOf? s with
  | some sec => sec.offset + s.offset
  | none => 0

def code (o : Object) (s : Symbol) : Bytes :=
  match o.sectionOf? s with
  | some _ => (o.raw.drop (o.fileOffset s)).take s.size
  | none => []

end Object

end Patchwork
