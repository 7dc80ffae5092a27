import Patchwork.Stream.Command

/-!
# Which bytes a stream touches

Memory is allocated by the stream that uses it. So one can say of a stream alone, without
carrying it out, that it stays inside its memories.
-/

namespace Patchwork

open List

/-- The sizes of the memories that a stream has allocated so far. -/
structure Extent where
  data : Option Int := none
  code : Option Int := none
  deriving DecidableEq

/-- An allocation asks for some bytes. -/
def Command.Allocates : Command → Prop
  | allocateData size | allocateCode size => 0 < size
  | _ => True

instance : DecidablePred Command.Allocates := by
  intro c
  cases c <;> simp only [Command.Allocates] <;> infer_instance

namespace Extent

def after (e : Extent) : Command → Extent
  | .allocateData size => { e with data := some size }
  | .allocateCode size => { e with code := some size }
  | .freeMemory => {}
  | _ => e

/-- A range of bytes lies inside a memory. -/
def Inside (offset size : Int) : Option Int → Prop
  | some length => 0 ≤ offset ∧ 0 ≤ size ∧ offset + size ≤ length
  | none => False

instance (offset size : Int) : DecidablePred (Inside offset size)
  | some length => inferInstanceAs (Decidable (0 ≤ offset ∧ 0 ≤ size ∧ offset + size ≤ length))
  | none => .isFalse not_false

/-- The number of bytes that a patch changes, if an address takes `width` of them. -/
def patchSize (width : Int) : PatchKind → Int
  | .objectRelative => width
  | _ => 4

/-- A command stays inside the memories. They are freed only before the first of them is
allocated. -/
def Admits (width : Int) (e : Extent) : Command → Prop
  | .copyData offset size _ | .readData offset size => Inside offset size e.data
  | .copyCode offset size _ => Inside offset size e.code
  | .patch kind offset .. => Inside offset (patchSize width kind) e.code
  | .freeMemory => e = {}
  | .allocateData _ | .allocateCode _ | .entryPoint _ | .runProgram | .endCommands | .dumpCode =>
    True

/-- Every command of a list stays inside the memories that are there when its turn comes. -/
def AdmitsAll (width : Int) : Extent → List Command → Prop
  | _, [] => True
  | e, c :: cs => Admits width e c ∧ AdmitsAll width (e.after c) cs

instance (width : Int) (e : Extent) : DecidablePred (Admits width e)
  | .copyData offset size _ | .readData offset size =>
    inferInstanceAs (Decidable (Inside offset size e.data))
  | .copyCode offset size _ => inferInstanceAs (Decidable (Inside offset size e.code))
  | .patch kind offset .. =>
    inferInstanceAs (Decidable (Inside offset (patchSize width kind) e.code))
  | .freeMemory => inferInstanceAs (Decidable (e = {}))
  | .allocateData _ | .allocateCode _ | .entryPoint _ | .runProgram | .endCommands | .dumpCode =>
    .isTrue trivial

instance decidableAdmitsAll (width : Int) : (e : Extent) → DecidablePred (AdmitsAll width e)
  | _, [] => .isTrue trivial
  | e, c :: cs =>
    have := decidableAdmitsAll width (e.after c) cs
    inferInstanceAs (Decidable (Admits width e c ∧ AdmitsAll width (e.after c) cs))

variable {width : Int} {e : Extent} {cs ds : List Command}

theorem admitsAll_append :
    AdmitsAll width e (cs ++ ds) ↔
      AdmitsAll width e cs ∧ AdmitsAll width (cs.foldl after e) ds := by
  induction cs generalizing e with
  | nil => simp [AdmitsAll]
  | cons c rest ih => simp [AdmitsAll, ih, and_assoc]

/-- Commands that allocate nothing find the same memories. -/
theorem foldl_after (h : ∀ c ∈ cs, ∀ e : Extent, e.after c = e) : cs.foldl after e = e := by
  induction cs with
  | nil => rfl
  | cons c rest ih =>
    rw [foldl_cons, h c mem_cons_self]
    exact ih fun d hd => h d (mem_cons_of_mem c hd)

theorem admitsAll_of_forall (h : ∀ c ∈ cs, ∀ e : Extent, e.after c = e)
    (hi : ∀ c ∈ cs, Admits width e c) : AdmitsAll width e cs := by
  induction cs with
  | nil => trivial
  | cons c rest ih =>
    refine ⟨hi c mem_cons_self, ?_⟩
    rw [h c mem_cons_self]
    exact ih (fun d hd => h d (mem_cons_of_mem c hd)) fun d hd => hi d (mem_cons_of_mem c hd)

end Extent

end Patchwork
