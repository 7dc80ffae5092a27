import Patchwork.Machine.Word

/-!
# Fields of instructions

Patching an instruction replaces the bits of one immediate operand and keeps all others.
Some machines store an immediate in several pieces.
-/

namespace Patchwork

namespace Field

def replace (mask bits word : Word) : Word := (word &&& ~~~mask) ||| (bits &&& mask)

def lowestBit (mask : Word) : Word := mask &&& (0 - mask)

def masked (mask value word : Word) : Word := replace mask (value * lowestBit mask) word

def pageLow (offset : Word) : Word := offset &&& 0x3

def pageHigh (offset : Word) : Word := (offset >>> 2) &&& 0x7ffff

/-- Puts a page offset into an instruction: its two lowest bits at bit 29 and the 19 bits
above them at bit 5. -/
def page (offset word : Word) : Word :=
  replace 0x60ffffe0 ((pageHigh offset <<< 5) ||| (pageLow offset <<< 29)) word

/-- Puts a 16-bit immediate into a move: its four highest bits at bit 16 and the rest at
bit 0. -/
def move (immediate word : Word) : Word :=
  let high := (immediate >>> 12) &&& 0xf
  let low := immediate &&& 0xfff
  replace 0x000f0fff ((high <<< 16) ||| low) word

/-- Puts a 16-bit immediate into a move of the short encoding, whose first half is the low
half of the word: four bits and one bit there, three and eight bits in the second half. -/
def moveThumb (immediate word : Word) : Word :=
  let four := (immediate >>> 12) &&& 0xf
  let one := (immediate >>> 11) &&& 0x1
  let three := (immediate >>> 8) &&& 0x7
  let eight := immediate &&& 0xff
  replace 0x70ff040f
    (four ||| (one <<< 10) ||| (eight <<< 16) ||| (three <<< 28)) word

/-- Puts an even offset into a branch of the short encoding. The two bits below the sign
are stored as whether they agree with it. -/
def branchThumb (offset word : Word) : Word :=
  let half := (offset.toInt32 >>> 1).toUInt32
  let sign := (half >>> 23) &&& 0x1
  let second := (half >>> 22) &&& 0x1
  let third := (half >>> 21) &&& 0x1
  let ten := (half >>> 11) &&& 0x3ff
  let eleven := half &&& 0x7ff
  let j1 := (~~~(second ^^^ sign)) &&& 0x1
  let j2 := (~~~(third ^^^ sign)) &&& 0x1
  replace 0x2fff07ff
    ((sign <<< 10) ||| ten ||| (j1 <<< 29) ||| (j2 <<< 27) ||| (eleven <<< 16)) word

end Field

end Patchwork
