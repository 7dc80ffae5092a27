import Patchwork.Bytes

/-!
# Operation codes of the command stream

A program is sent to a machine as a stream of commands: memory is allocated and filled,
words of the code are patched, and the program is run. A command is an operation code of
four bytes and its operands.
-/

namespace Patchwork

/-- How a word of code is patched: relative to code, or by the position of data, in the
encoding of some instruction. -/
inductive PatchKind where
  | function
  | functionThumb
  | object
  | objectPage
  | objectAbsolute
  | objectRelative
  | objectMove
  | objectMoveThumb
  deriving Repr, DecidableEq, Inhabited

inductive Opcode where
  | allocateData
  | copyData
  | allocateCode
  | copyCode
  | patch (kind : PatchKind)
  | entryPoint
  | runProgram
  | readData
  | endCommands
  | freeMemory
  | dumpCode
  deriving Repr, DecidableEq, Inhabited

namespace Opcode

def code : Opcode → Nat
  | allocateData => 1
  | copyData => 2
  | allocateCode => 3
  | copyCode => 4
  | patch .function => 0x1000
  | patch .functionThumb => 0x1005
  | patch .object => 0x2000
  | patch .objectPage => 0x2001
  | patch .objectAbsolute => 0x2002
  | patch .objectRelative => 0x2003
  | patch .objectMove => 0x2004
  | patch .objectMoveThumb => 0x2006
  | entryPoint => 7
  | runProgram => 64
  | readData => 65
  | endCommands => 256
  | freeMemory => 257
  | dumpCode => 258

def name : Opcode → String
  | allocateData => "ALLOCATE_DATA"
  | copyData => "COPY_DATA"
  | allocateCode => "ALLOCATE_CODE"
  | copyCode => "COPY_CODE"
  | patch .function => "PATCH_FUNC"
  | patch .functionThumb => "PATCH_FUNC_ARM32_THM"
  | patch .object => "PATCH_OBJECT"
  | patch .objectPage => "PATCH_OBJECT_HI21"
  | patch .objectAbsolute => "PATCH_OBJECT_ABS"
  | patch .objectRelative => "PATCH_OBJECT_REL"
  | patch .objectMove => "PATCH_OBJECT_ARM32_ABS"
  | patch .objectMoveThumb => "PATCH_OBJECT_ARM32_ABS_THM"
  | entryPoint => "ENTRY_POINT"
  | runProgram => "RUN_PROG"
  | readData => "READ_DATA"
  | endCommands => "END_COM"
  | freeMemory => "FREE_MEMORY"
  | dumpCode => "DUMP_CODE"

def all : List Opcode :=
  [allocateData, copyData, allocateCode, copyCode, patch .function, patch .functionThumb,
    patch .object, patch .objectPage, patch .objectAbsolute, patch .objectRelative,
    patch .objectMove, patch .objectMoveThumb, entryPoint, runProgram, readData, endCommands,
    freeMemory, dumpCode]

def ofCode? (n : Int) : Option Opcode := all.find? fun o => (o.code : Int) = n

def ofName? (s : String) : Option Opcode := all.find? fun o => o.name == s

@[simp] theorem ofCode?_code (o : Opcode) : ofCode? o.code = some o := by
  rcases o with _ | _ | _ | _ | k | _ | _ | _ | _ | _ | _ <;> try cases k
  all_goals rfl

def width : Nat := 4

end Opcode

end Patchwork
