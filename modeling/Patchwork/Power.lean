/-!
# Powers

Which powers the definitions of this library compute with: those of the natural numbers and
of the integers, and not those that a library of algebra derives from a multiplication.
-/

namespace Patchwork

namespace Power

scoped instance (priority := high) natural : Pow Nat Nat := instPowNat

scoped instance (priority := high) integer : Pow Int Nat := instPowNat

end Power

end Patchwork
