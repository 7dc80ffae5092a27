import Patchwork.Script.Databases
import Patchwork.Script.Graphs
import Patchwork.Script.Targets

/-!
# Requests

Everything that a step of a script can ask for.
-/

namespace Patchwork

inductive Request where
  | routine (r : Routine)
  | method (m : Method)
  | part (a : Attribute)
  | graph (r : GraphRequest)
  | target (r : TargetRequest)
  | database (r : DatabaseRequest)

def Request.call (natives : List (String × String)) (r : Request) (as : Arguments) : Script Datum :=
  match r with
  | .routine r => Script.trace (r.call as)
  | .method m => match as.positional with
    | self :: rest => Script.trace (m.call self { as with positional := rest })
    | [] => throw .illTyped
  | .part a => match as.positional with
    | self :: _ => Script.trace (self.part a)
    | [] => throw .illTyped
  | .graph r => r.call as
  | .target r => r.call as
  | .database r => r.call natives as

end Patchwork
