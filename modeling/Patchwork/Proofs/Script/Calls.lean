import Patchwork.Proofs.Script.Inputs
import Patchwork.Proofs.Uniform

/-!
# Calling a compiled function again

A later call of a compiled function writes its arguments to the variables that the first call
made of its own, and runs the program of the first call. A first call with the later arguments
would trace the same nodes, since a uniform function does not look at the numbers, so it would
compile the same program for other starting values. The two come to the same, except that a
variable which the result does not need has no cell: there the later call fails.
-/

namespace Patchwork

open List Script Target

/-! ## Requests -/

namespace Target

variable {g g' : Graph} {vars : NodeId → Prop} {roots : List NodeId} {t t' : Target}

/-- Appends a request for each of some values, and their positions to a list. -/
def withRoots (values : List Value) (state : List NodeId × Graph) : List NodeId × Graph :=
  values.foldl (fun state v => (state.1 ++ [state.2.size], state.2.push (.root v.net))) state

theorem compile_eq (t : Target) (g : Graph) (data : List Datum) :
    compile t g data = let state := withRoots (data.flatMap requested) ([], g)
      match compileRoots state.2 state.1 with
      | .error f => (.error f, t, state.2)
      | .ok new =>
        if new.program.isNone then (.error (.violated .unstated), new, state.2)
        else (.ok (), new, state.2) := rfl

theorem compile_ok {d : Datum} (h : compile t g [d] = (.ok (), t', g')) :
    compileRoots (withRoots (requested d) ([], g)).2 (withRoots (requested d) ([], g)).1 = .ok t' ∧
      g' = (withRoots (requested d) ([], g)).2 := by
  have hv : [d].flatMap requested = requested d := by simp
  rw [compile_eq, hv] at h
  generalize withRoots (requested d) ([], g) = state at h ⊢
  dsimp only at h
  cases hr : compileRoots state.2 state.1 with
  | error f =>
    rw [hr] at h
    cases h
  | ok new =>
    rw [hr] at h
    dsimp only at h
    split at h
    · cases h
    · cases h
      exact ⟨rfl, rfl⟩

theorem withRoots_spec (values : List Value) (roots : List NodeId) (g : Graph) :
    g.Extends (withRoots values (roots, g)).2 ∧
      ∃ new, (withRoots values (roots, g)).1 = roots ++ new ∧
        new.map (withRoots values (roots, g)).2.node = values.map fun v => .root v.net := by
  induction values generalizing roots g with
  | nil => exact ⟨.refl g, [], by simp [withRoots], rfl⟩
  | cons v values ih =>
    obtain ⟨ha, new, hn, ho⟩ := ih (roots ++ [g.size]) (g.push (.root v.net))
    have hd := (ha.node g.size (by simp)).trans (Graph.node_push_size g _)
    refine ⟨(Graph.extends_push g _).trans ha, g.size :: new, ?_, ?_⟩
    · exact hn.trans (by simp)
    · exact congrArg₂ List.cons hd ho

variable {values : List Value} {k : NodeId}

theorem requests_of_map (h : roots.map g.node = values.map fun v => .root v.net) :
    g.Requests roots := by
  intro r hr
  have hn := mem_map_of_mem (f := g.node) hr
  rw [h] at hn
  obtain ⟨v, -, hv⟩ := mem_map.1 hn
  exact ⟨v.net, hv.symm⟩

end Target

/-! ## Calls -/

namespace Compiled

variable {body : List Datum → Script Datum} {a b : List Datum} {x : Datum} {c : Compiled}
  {s s₁ s₂ : Session} {t : Target}

variable {f : List Datum → Trace Datum} {y : Datum} {c' : Compiled} {s' : Session}

def difference : List Datum → Trace Datum
  | [.tuple [.scalar x, .scalar y]] => do return .scalar (← Scalar.sub x y)
  | _ => Trace.fail .illTyped

end Compiled

end Patchwork
