import Patchwork.Object.Basic

/-!
# Patches

A relocation says how a word of code depends on the address of a symbol. A patch is that
dependence with the address put in: a value, the unit in which it is stored, the bits of
the word that take it, and how the machine has to complete it.
-/

namespace Patchwork

/-- How a relocation is resolved. -/
inductive PatchRule where
  /-- The distance of the symbol, with a signed addend. -/
  | distance
  /-- The address of data as a whole word. -/
  | dataAddress
  /-- The address of data as a whole word that has to be aligned. -/
  | alignedAddress
  /-- The distance in words, for a field of 24 bits. -/
  | branch24
  /-- The distance in words, for a field of 26 bits. -/
  | branch26
  | page
  /-- The low bits of the address in units of four bytes. -/
  | low12Words
  | low12
  /-- The low bits of the address in units of eight bytes. -/
  | low12Doubles
  | moveLow
  | moveHigh
  /-- The distance, in the short encoding. -/
  | branchThumb
  /-- The low half of the address, in the short encoding. -/
  | moveLowThumb
  /-- The high half of the address, in the short encoding. -/
  | moveHighThumb
  deriving Repr, DecidableEq

namespace PatchRule

/-- The rules by the end of the type's name, the first match counts. -/
def byEnding : List (String × PatchRule) :=
  [("64_PC32", distance), ("64_PLT32", distance), ("_ARM_JUMP24", branch24), ("_ARM_CALL", branch24),
    ("_CALL26", branch26), ("_JUMP26", branch26), ("_ADR_PREL_PG_HI21", page),
    ("_LDST32_ABS_LO12_NC", low12Words), ("_ADD_ABS_LO12_NC", low12),
    ("_LDST64_ABS_LO12_NC", low12Doubles), ("_ABS32", alignedAddress),
    ("_THM_JUMP24", branchThumb), ("_THM_CALL", branchThumb)]

/-- The rule of a relocation type: some types are known by their whole name, all others
by its end. -/
def ofName? (name : String) : Option PatchRule :=
  match name with
  | "R_386_PC32" => some distance
  | "R_386_32" => some dataAddress
  | "R_ARM_MOVW_ABS_NC" => some moveLow
  | "R_ARM_MOVT_ABS" => some moveHigh
  | "R_ARM_THM_MOVW_ABS_NC" => some moveLowThumb
  | "R_ARM_THM_MOVT_ABS" => some moveHighThumb
  | name => (byEnding.find? fun (ending, _) => name.endsWith ending).map Prod.snd

def mask : PatchRule → Int
  | branch24 => 0xffffff
  | branch26 => 0x3ffffff
  | page => 0
  | low12Words => 0xffc00
  | low12 => 0x3ffc00
  | low12Doubles => 0x7fc00
  | moveLow | moveLowThumb => 0xffff
  | moveHigh | moveHighThumb => 0xffff0000
  | _ => 0xffffffff

def scale : PatchRule → Int
  | branch24 | branch26 | low12Words => 4
  | page => 4096
  | low12Doubles => 8
  | moveHigh | moveHighThumb => 0x10000
  | _ => 1

/-- What is added to the code of the plain patch to get the code of the patch that this
rule needs. -/
def variant : PatchRule → Int
  | page => 1
  | low12Words | low12 | low12Doubles => 2
  | dataAddress | alignedAddress => 3
  | moveLow | moveHigh => 4
  | branchThumb => 5
  | moveLowThumb | moveHighThumb => 6
  | _ => 0

end PatchRule

/-- A resolved relocation. -/
structure Patch where
  mask : Int
  address : Int
  value : Int
  scale : Int
  /-- The code of the command that applies it. -/
  command : Int
  deriving Repr, DecidableEq

def signedWord (n : Int) : Int := if 0x7fffffff < n then n - 0x100000000 else n

/-- The addresses that a patch depends on. -/
structure PatchSite where
  symbol : Int
  /-- The address of the first byte to patch. -/
  position : Int
  /-- The code of the command that applies a plain patch. -/
  command : Int

namespace PatchRule

def value (rule : PatchRule) (addend : Int) (s : PatchSite) : Int :=
  match rule with
  | distance => s.symbol + signedWord addend - s.position
  | branch24 | branch26 | branchThumb => s.symbol + addend - s.position
  | _ => s.symbol + addend

def littleOnly : PatchRule → Bool
  | branch26 | page => true
  | _ => false

def patch (rule : PatchRule) (order : ByteOrder) (addend : Int) (s : PatchSite) :
    Except Fault Patch :=
  if rule.littleOnly && order = .big then .error (.violated .littleEndian)
  else if rule = .alignedAddress && s.position % 4 ≠ 0 then .error (.violated .alignedLiteral)
  else .ok { mask := rule.mask, address := s.position, value := rule.value addend s
             scale := rule.scale, command := s.command + rule.variant }

end PatchRule

end Patchwork
