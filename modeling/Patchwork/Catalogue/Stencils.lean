import Patchwork.Catalogue.Template
import Patchwork.Graph.Operation

/-!
# The catalogue of stencils

All stencils with the types they pass on, in the order in which their source is written.
-/

namespace Patchwork

/-- A stencil, the types that it passes on, and its source. -/
structure CatalogueEntry where
  name : String
  passesOn : String
  source : String

namespace Catalogue

def types : List String := Cell.all.map Cell.name

def pairs : List (String × String) := types.flatMap fun s => types.map fun t => (s, t)

def text (t : Template) (arguments : List String) : String := (t.render arguments).toOption.getD ""

def casts : List CatalogueEntry :=
  pairs.map fun (s, t) =>
    let out := if s == "float" then "int" else "float"
    ⟨s!"cast_{out}_{s}_{t}", s!"{out}_{t}", text .cast [s, t, out]⟩

def unary : List CatalogueEntry :=
  let sample := types.map fun t => ⟨s!"get_42_{t}", "float", text .auxiliary1 ["get_42", t]⟩
  let negations := types.map fun t => ⟨s!"neg_{t}", t, text .negation [t]⟩
  let functions := ["sqrt", "exp", "log", "sin", "cos", "tan", "asin", "acos", "atan"].flatMap
    fun f => types.map fun t => ⟨s!"{f}_{t}", "float", text .library1 [f ++ "f", t, f]⟩
  let absolute := [⟨"abs_float", "float", text .library1 ["fabsf", "float", "abs"]⟩,
    ⟨"abs_int", "int", text .custom ["abs_int(int arg1)", "result_int(__builtin_abs(arg1));"]⟩]
  let signs := types.map fun t =>
    ⟨s!"sign_{t}", "int",
      text .custom [s!"sign_{t}({t} arg1)", "result_int((arg1 > 0) - (arg1 < 0));"]⟩
  sample ++ negations ++ functions ++ absolute ++ signs

/-- The type that holds integers only if both operands do. -/
def joined (s t : String) : String := if s == t then s else "float"

def binary : List CatalogueEntry :=
  let functions := ["atan2", "pow"].flatMap fun f => pairs.map fun (s, t) =>
    ⟨s!"{f}_{s}_{t}", s!"float_{t}", text .library2 [f, s, t]⟩
  let extremes := pairs.flatMap fun (s, t) =>
    let out := joined s t
    [⟨s!"min_{s}_{t}", s!"{out}_{t}", text .minimum [s, t]⟩,
      ⟨s!"max_{s}_{t}", s!"{out}_{t}", text .maximum [s, t]⟩]
  let operators := ["add", "sub", "mul", "div", "floordiv", "gt", "ge", "eq", "ne"].flatMap
    fun o => pairs.map fun (s, t) =>
      let join := joined s t
      let (out, source) :=
        if o == "floordiv" then (join, text .floorDivision [o, s, t])
        else if o == "div" then ("float", text .realOperator [o, s, t])
        else if ["gt", "ge", "eq", "ne"].contains o then ("int", text .operator [o, s, t, "int"])
        else (join, text .operator [o, s, t, join])
      ⟨s!"{o}_{s}_{t}", s!"{out}_{t}", source⟩
  functions ++ extremes ++ operators

def integer : List CatalogueEntry :=
  ["bwand", "bwor", "bwxor", "lshift", "rshift", "mod"].map fun o =>
    ⟨s!"{o}_int_int", "int_int", text .operator [o, "int", "int", "int"]⟩

def memory : List CatalogueEntry :=
  let loads := pairs.flatMap fun (s, t) => types.flatMap fun out =>
    [⟨s!"load_{out}_reg0_{s}_{t}", s!"{out}_{t}", text .loadFirst [s, t, out]⟩,
      ⟨s!"load_{out}_reg1_{s}_{t}", s!"{s}_{out}", text .loadSecond [s, t, out]⟩]
  let saves := pairs.map fun (s, t) =>
    ⟨s!"store_{s}_reg0_{s}_{t}", s!"{s}_{t}", text .save [s, t]⟩
  loads ++ saves

def stencils : List CatalogueEntry := casts ++ unary ++ binary ++ integer ++ memory

def definitions : List (String × String) :=
  [("auxsub_get_42", "void"), ("aux_get_42", "void"), ("entry_function_shell", "int")] ++
    stencils.map fun s => (s.name, s.passesOn)

/-! ## Header files -/

def helperHeader : String := "\n".intercalate
  ["#include <math.h>", "", "// Remove function alignment for stencils",
    "#if defined(__GNUC__)", "#define NOINLINE __attribute__((noinline))",
    "#if defined(__aarch64__) || defined(_M_ARM64) || defined(__arm__) || defined(__thumb__) || defined(_M_ARM)",
    "#define STENCIL __attribute__((aligned(4)))", "#else",
    "#define STENCIL __attribute__((aligned(1)))", "#endif", "#else", "#define NOINLINE",
    "#define STENCIL", "#endif"]

def auxiliaryFunctions : String := "\n".intercalate
  ["#include <stdint.h>", "#include \"stencil_helper.h\"", "",
    "volatile extern int dummy_int;", "volatile extern float dummy_float;", "",
    "NOINLINE float auxsub_get_42(int n) \x7b", "    return n * 5.0f + 21.0f;", "\x7d", "",
    "NOINLINE float aux_get_42(float n) \x7b",
    "    return auxsub_get_42(n * 3.0f + 42.0f);", "\x7d"]

def trial : String := "\n".intercalate
  ["#include \"aux_functions.c\"", "", "int main() \x7b", "    // Test aux functions",
    "    float a = 16.0f;", "    float g42 = aux_get_42(0.0f);", "    return 0;", "\x7d", ""]

def file? : String → Option String
  | "stencil_helper.h" => some helperHeader
  | "aux_functions.c" => some auxiliaryFunctions
  | "test.c" => some trial
  | _ => none

def included : List String := ["stencil_helper.h", "aux_functions.c"]

/-- The texts of files, put together: each without blanks and line ends around it, and
without the lines that include another one. -/
def readFiles (names : List String) : Except Fault String := do
  let texts ← names.mapM fun name => match file? name with
    | some s => .ok (String.ofList (Text.trim (fun c => c == ' ' || c == '\n') s.toList) ++ "\n\n")
    | none => .error .absentFile
  return included.foldl (fun s name => Text.replace s ("#include \"" ++ name ++ "\"\n") "")
    (String.join texts)

/-- The text before the entry function that fixes its calling convention. -/
def convention (abi : String) : String :=
  if abi.isEmpty then "" else s!"__attribute__(({abi}_abi)) "

def source (abi : String) : Except Fault String := do
  let headers ← readFiles included
  let results := String.join (types.map fun t => text .result1 [t]) ++
    String.join (pairs.map fun (s, t) => text .result2 [s, t])
  return "// Auto-generated stencils for copapy - Do not edit manually\n\n" ++ headers ++ results ++
    Template.entrySource (convention abi) ++ String.join (stencils.map CatalogueEntry.source)

/-- What is printed while the source is written to a file. -/
def progress (path : String) : String := s!"Write file {path}...\n"

end Catalogue

end Patchwork
