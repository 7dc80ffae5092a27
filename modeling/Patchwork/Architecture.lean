import Patchwork.Fault
import Patchwork.Text.Blank

/-!
# Architectures

Stencils are chosen by the architecture of the machine that runs the program: by its name
and by the width of its addresses, unless it is set by hand.
-/

namespace Patchwork

namespace Architecture

def ofMachine (machine : String) (bits : Nat) : Except Fault String :=
  let has (part : String) : Bool := Text.contains machine part
  let wide := bits == 64
  if ["amd64", "x86_64"].contains machine then .ok (if wide then "x86_64" else "x86")
  else if ["i386", "i686", "x86"].contains machine then .ok "x86"
  else if ["arm64", "aarch64"].contains machine then .ok "arm64"
  else if has "armv7" || has "armv8" then .ok "armv7"
  else if has "armv6" then .ok "armv6"
  else if has "mips" then .ok (if wide then "mips64" else "mips")
  else if has "riscv" then .ok (if wide then "riscv64" else "riscv")
  else .error (.uncovered (.platform machine bits))

/-- The architecture that was set by hand, or else that of a machine, whose name is taken
in lower case. -/
def detect (machine : String) (bits : Nat) (setting : Option String) : Except Fault String :=
  match setting with
  | some name => if name.isEmpty then ofMachine machine.toLower bits else .ok name
  | none => ofMachine machine.toLower bits

end Architecture

end Patchwork
