import Patchwork.Catalogue.Stencils
import Patchwork.Document.Listing
import Patchwork.Program.Patcher

/-!
# Command line

Three tools on files: patched code out of a stream of commands, the source text of all
stencils, and a listing as a page.
-/

namespace Patchwork

namespace CommandLine

def usage : String := "\n".intercalate
  ["usage: extract INPUT OUTPUT [--data_section_offset N] [--byteorder little|big]",
    "       generate OUTPUT [--abi NAME]", "       listing INPUT"]

def report (f : Fault) : IO UInt32 := do
  IO.eprintln (f.message.getD "failed")
  return 1

def extract (input output : String) (o : Patcher.Options) : IO UInt32 := do
  let stream ← IO.FS.readBinFile input
  match Patcher.extract o stream.toList with
  | .error f => report f
  | .ok p =>
    IO.FS.writeBinFile output ⟨p.code.toArray⟩
    IO.print (p.reportText output)
    return 0

/-- Writes the source text of all stencils to a file. -/
def generate (output abi : String) : IO UInt32 :=
  match Catalogue.source abi with
  | .error f => report f
  | .ok s => do
    IO.print (Catalogue.progress output)
    IO.FS.writeFile output s
    return 0

def listing (input : String) : IO UInt32 := do
  IO.print (Document.listing (← IO.FS.readFile input))
  return 0

def run : List String → IO UInt32
  | "extract" :: input :: output :: options => match Patcher.parseOptions {} options with
    | some o => extract input output o
    | none => do
      IO.eprintln usage
      return 2
  | ["generate", output] => generate output ""
  | ["generate", output, "--abi", abi] => generate output abi
  | ["listing", input] => listing input
  | _ => do
    IO.eprintln usage
    return 2

end CommandLine

end Patchwork

def main (arguments : List String) : IO UInt32 := Patchwork.CommandLine.run arguments
