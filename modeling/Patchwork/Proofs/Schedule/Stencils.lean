import Patchwork.Catalogue.Stencils
import Patchwork.Proofs.Schedule.Plan

/-!
# The stencils of a program are in the catalogue

A step asks for its stencil by name. The name ends in the types of the registers that the
stencil takes, and the catalogue lists under it the types that are passed on.
-/

namespace Patchwork

open Cell List

/-! ## What stencils declare -/

theorem Cell.mem_all (c : Cell) : c ∈ Cell.all := by cases c <;> simp [Cell.all]

namespace Node

/-- The part of the name of a stencil before the types of the registers. -/
def base : Node → String
  | apply o _ _ => o.name
  | load c r _ => s!"load_{c.name}_reg{r.number}"
  | save held _ => s!"store_{held.1.name}_reg0"
  | n => n.name

/-- The types that the name of a stencil declares for the registers that it takes. -/
def declared : Node → List Cell
  | apply _ args _ => args.map Net.cell
  | load _ _ held | save held _ => [held.1, held.2]
  | _ => []

def declares? (n : Node) (r : Register) : Option Cell := n.declared[r.number]?

def passesOn : Node → List Cell
  | apply o args _ => (o.result? (args.map Net.cell)).toList ++ (args.map Net.cell).drop 1
  | load c .first held => [c, held.2]
  | load c .second held => [held.1, c]
  | save held _ => [held.1, held.2]
  | _ => []

def reads : Node → Register → Bool
  | apply _ args _, r => r.number < args.length
  | save .., r => r = .first
  | _, _ => false

def fills : Node → Register → Bool
  | load _ r _, r' => r = r'
  | _, _ => false

/-- A stencil of the catalogue: its name ends in the types that it declares, and the
catalogue has a stencil of that name which passes on its types. -/
structure Catalogued (n : Node) : Prop where
  named : n.name = "_".intercalate (n.base :: n.declared.map Cell.name)
  listed : ∃ e ∈ Catalogue.stencils, e.name = n.name ∧
    e.passesOn = "_".intercalate (n.passesOn.map Cell.name)

theorem listed_operation : ∀ o ∈ Operation.all, ∀ cells ∈
      Cell.all.map (fun c => [c]) ++ Cell.all.flatMap fun c => Cell.all.map fun d => [c, d],
    (o.result? cells).isSome → ∃ e ∈ Catalogue.stencils, e.name = o.typedName cells ∧
      e.passesOn = "_".intercalate (((o.result? cells).toList ++ cells.drop 1).map Cell.name) := by
  decide +kernel

theorem listed_load : ∀ c ∈ Cell.all, ∀ r ∈ [Register.first, .second], ∀ a ∈ Cell.all,
    ∀ b ∈ Cell.all, ∃ e ∈ Catalogue.stencils, e.name = (load c r (a, b)).name ∧
      e.passesOn = "_".intercalate ((load c r (a, b)).passesOn.map Cell.name) := by
  decide +kernel

theorem listed_save : ∀ a ∈ Cell.all, ∀ b ∈ Cell.all,
    ∃ e ∈ Catalogue.stencils, e.name = (save (a, b) []).name ∧
      e.passesOn = "_".intercalate ((save (a, b) []).passesOn.map Cell.name) := by
  decide +kernel

theorem Catalogued.of_operation {o : Operation} {args : List Net} (c : Bool)
    (h : (o.result? (args.map Net.cell)).isSome) : (apply o args c).Catalogued where
  named := rfl
  listed := by
    refine listed_operation o ?_ _ ?_ h
    · cases o with
      | cast t => cases t <;> simp [Operation.all]
      | _ => simp [Operation.all]
    · rcases Operation.length_of_result h with hl | hl
      · obtain ⟨c, hc⟩ := length_eq_one_iff.1 hl
        rw [hc]
        exact mem_append_left _ (mem_map_of_mem (mem_all c))
      · obtain ⟨c, d, hd⟩ := length_eq_two.1 hl
        rw [hd]
        exact mem_append_right _ (mem_flatMap.2 ⟨c, mem_all c, mem_map_of_mem (mem_all d)⟩)

theorem catalogued_load (c : Cell) (r : Register) (held : Cell × Cell) :
    (load c r held).Catalogued where
  named := by
    obtain ⟨a, b⟩ := held
    cases r <;> cases c <;> cases a <;> cases b <;> decide
  listed := listed_load c (mem_all c) r (by cases r <;> simp) held.1 (mem_all _) held.2 (mem_all _)

theorem catalogued_save (held : Cell × Cell) (args : List Net) : (save held args).Catalogued where
  named := by
    obtain ⟨a, b⟩ := held
    cases a <;> cases b <;> rfl
  listed := listed_save held.1 (mem_all _) held.2 (mem_all _)

end Node

namespace Schedule

variable {g : Graph} {roots order : List NodeId} {consts loaded : List Net} {r : Registers}
  {s : Saving} {k : NodeId}

/-! ## Steps -/

theorem mem_emitted {ι σ : Type} (f : ι → σ → List Step × σ) {l : List ι} {x : Step} {st : σ}
    (h : x ∈ (emitted f l st).1) : ∃ y ∈ l, ∃ st', x ∈ (f y st').1 := by
  induction l generalizing st with
  | nil => cases h
  | cons y rest ih =>
    rw [emitted_cons] at h
    obtain h | h := mem_append.1 h
    · exact ⟨y, mem_cons_self, st, h⟩
    · obtain ⟨z, hz, st', hx⟩ := ih h
      exact ⟨z, mem_cons_of_mem _ hz, st', hx⟩

theorem catalogued_nodeSteps (tr : g.Traced) (hr : g.Requests roots)
    (hs : g.Scheduled roots order) (hk : k ∈ order) {x : Step}
    (hx : x ∈ (nodeSteps g (g.netOf? order) k r).1) :
    (content g x.run).Catalogued ∨ ∃ n, content g x.run = .root n := by
  have hl : x ∈ (loadOperands (g.node k).args r).1 → (content g x.run).Catalogued := by
    intro hx
    rw [loadOperands_eq] at hx
    obtain ⟨p, -, r', hx⟩ := mem_emitted _ hx
    rw [loadOperand] at hx
    split at hx
    · cases hx
    · obtain rfl := mem_singleton.1 hx
      exact Node.catalogued_load _ _ _
  have ho : (g.node k).isConstant = false → (g.node k).Catalogued ∨ ∃ n, g.node k = .root n := by
    intro hc
    obtain ht | ⟨⟨cell, hcl⟩, -⟩ := hs.used k hk
    · exact .inr (hr k ht)
    · cases hn : g.node k with
      | apply o args c => exact .inl (.of_operation c ((tr.wellFormed k).covered o args c hn))
      | _ => simp_all [Node.cell?, Node.isConstant]
  rw [nodeSteps] at hx
  split at hx
  · cases hx
  · rename_i hc
    have hm : x ∈ (loadOperands (g.node k).args r).1 ∨ x.run = .existing k := by
      dsimp only at hx
      split at hx
      · exact (mem_append.1 hx).imp_right fun hx => by rw [mem_singleton.1 hx]
      · exact (mem_append.1 hx).imp_right fun hx => by rw [mem_singleton.1 hx]
    obtain hx | hx := hm
    · exact .inl (hl hx)
    · rw [hx]
      exact ho (by simpa using hc)

theorem catalogued_savedStep {x y : Step}
    (h : (content g y.run).Catalogued ∨ ∃ n, content g y.run = .root n)
    (hx : x ∈ (savedStep g loaded y s).1) : (content g x.run).Catalogued := by
  have ho : ∀ regs, (content g (translated g y regs).run).Catalogued := by
    intro regs
    rw [translated]
    split
    · exact Node.catalogued_save _ _
    · rename_i hr
      have hy := h.resolve_right (not_exists.2 hr)
      split <;> exact hy
  rw [savedStep] at hx
  split at hx
  · obtain rfl := mem_singleton.1 hx
    exact ho _
  · dsimp only at hx
    split at hx
    · obtain rfl | hx := mem_cons.1 hx
      · exact ho _
      · obtain rfl := mem_singleton.1 hx
        exact Node.catalogued_save _ _
    · obtain rfl := mem_singleton.1 hx
      exact ho _

/-- Every step of a plan runs a stencil of the catalogue. -/
theorem Plans.catalogued (tr : g.Traced) (hr : g.Requests roots) {plan : Plan}
    (hp : Plans g roots order consts plan) {x : Step} (hx : x ∈ plan.steps) :
    (content g x.run).Catalogued := by
  rw [hp.steps, withSaves_eq, withLoads_eq] at hx
  obtain ⟨y, hy, s, hx⟩ := mem_emitted _ hx
  obtain ⟨k, hk, r, hy⟩ := mem_emitted _ hy
  exact catalogued_savedStep (catalogued_nodeSteps tr hr hp.scheduled hk hy) hx

end Schedule

end Patchwork
