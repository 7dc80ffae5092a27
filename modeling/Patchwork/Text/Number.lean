import Patchwork.Decimal.Shortest

/-!
# Numbers in other bases
-/

namespace Patchwork

namespace Text

def digits (base n : Nat) : String := String.ofList (Nat.toDigits base n)

/-- The hexadecimal digits of an integer, after its sign. -/
def hexInt (i : Int) : String := (if i < 0 then "-" else "") ++ digits 16 i.natAbs

end Text

end Patchwork
