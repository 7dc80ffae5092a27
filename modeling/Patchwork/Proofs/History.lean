import Patchwork.Proofs.Script.Calls
import Patchwork.Proofs.Stream.RoundTrip

/-!
# Histories of targets

A compilation appends a request for each value to the graph, and makes a plan of the requests.
Requests are the same as nothing that carries a value, so they change nothing about what a target
keeps. Between compilations a target is run, read and written, which changes the contents of its
cells and nothing else.
-/

namespace Patchwork

open List

/-! ## Requests -/

namespace Graph

variable {g g' : Graph} {a k : NodeId}

def Carries (g : Graph) (v : Value) : Prop := (g.node v.net.source).cell? = some v.net.cell

theorem sameNode_eq_false (hn : a ≠ k) (ho : (g.node k).isOperation = false)
    (hc : (g.node k).isConstant = false) : g.sameNode a k = false := by
  rw [Graph.sameNode, sameNodeBy, if_neg hn, if_neg (by simp [ho])]
  by_contra hl
  obtain heq | ⟨x, y, -, hy, -⟩ := sameLeaf_iff.1 (by simpa using hl)
  · exact hn heq
  · simp [hy, Node.isConstant] at hc

/-- Only requests have been appended to a graph. -/
structure Requested (g g' : Graph) : Prop where
  extend : g.Extends g'
  operation : ∀ k, g.size ≤ k → (g'.node k).isOperation = false
  constant : ∀ k, g.size ≤ k → (g'.node k).isConstant = false

theorem Requested.refl (g : Graph) : g.Requested g := by
  refine ⟨.refl g, fun k hk => ?_, fun k hk => ?_⟩ <;>
    rw [node_of_size_le hk] <;> rfl

theorem Requested.push (h : g.Requested g') (n : Net) : g.Requested (g'.push (.root n)) := by
  have hn : ∀ k, (g'.push (.root n)).node k = g'.node k ∨ (g'.push (.root n)).node k = .root n := by
    intro k
    rcases Nat.lt_trichotomy k g'.size with hk | rfl | hk
    · exact .inl (node_push_of_lt g' _ hk)
    · exact .inr (node_push_size g' _)
    · rw [node_of_size_le (Nat.le_of_lt hk), node_of_size_le (by rw [size_push]; exact hk)]
      exact .inl rfl
  refine ⟨h.extend.trans (extends_push g' _), fun k hk => ?_, fun k hk => ?_⟩
  · obtain hk' | hk' := hn k <;> rw [hk']
    · exact h.operation k hk
    · rfl
  · obtain hk' | hk' := hn k <;> rw [hk']
    · exact h.constant k hk
    · rfl

/-- Requests are the same as nothing that carries a value, and change nothing about what
else is. -/
theorem Requested.sameNode (h : g.Requested g') (wf : g.WellFormed) (ha : a < g.size)
    (k : NodeId) : g'.sameNode a k = g.sameNode a k := by
  by_cases hk : k < g.size
  · exact h.extend.sameNode wf ha hk
  · have hk : g.size ≤ k := Nat.not_lt.1 hk
    have hn : a ≠ k := Nat.ne_of_lt (Nat.lt_of_lt_of_le ha hk)
    rw [sameNode_eq_false hn (h.operation k hk) (h.constant k hk),
      sameNode_eq_false hn ((Requested.refl g).operation k hk) ((Requested.refl g).constant k hk)]

theorem Traced.push_root (tr : g.Traced) {v : Value} (hv : g.Carries v) :
    (g.push (.root v.net)).Traced := by
  refine ⟨tr.wellFormed.push (Node.fits_root (lt_size_of_cell? hv) hv), ?_⟩
  have ho : ∀ k, ((g.push (.root v.net)).node k).isOperation → k < g.size := by
    intro k hk
    by_contra hl
    rw [((Requested.refl g).push v.net).operation k (Nat.not_lt.1 hl)] at hk
    cases hk
  intro j k hj hk
  have hj' := ho j hj
  have hk' := ho k hk
  rw [node_push_of_lt g _ hj'] at hj ⊢
  rw [node_push_of_lt g _ hk'] at hk ⊢
  rw [hashOf_push_of_lt g _ hj', hashOf_push_of_lt g _ hk']
  exact tr.marked j k hj hk

theorem Carries.extend {v : Value} (hv : g.Carries v) (h : g.Extends g') : g'.Carries v := by
  rw [Carries, h.node _ (lt_size_of_cell? hv)]
  exact hv

end Graph

namespace Target

variable {g g' : Graph} {t t' : Target} {data : List Datum} {values : List Value}
  {roots : List NodeId}

theorem withRoots_traced (tr : g.Traced) (hl : ∀ v ∈ values, g.Carries v)
    (roots : List NodeId) : (withRoots values (roots, g)).2.Traced := by
  induction values generalizing roots g with
  | nil => exact tr
  | cons v rest ih =>
    obtain ⟨hv, hr⟩ := forall_mem_cons.1 hl
    exact ih (tr.push_root hv) (fun w hw => (hr w hw).extend (Graph.extends_push g _)) _

theorem withRoots_requested (values : List Value) (roots : List NodeId) (h : g.Requested g') :
    g.Requested (withRoots values (roots, g')).2 := by
  induction values generalizing roots g' with
  | nil => exact h
  | cons v rest ih => exact ih _ (h.push v.net)

/-! ## Outcomes -/

theorem compileRoots_cells (h : compileRoots g roots = .ok t) :
    ∃ plan, Plan.ofRoots g roots = .ok plan ∧ t.memory.map Prod.fst = plan.slots := by
  obtain ⟨plan, hp, h⟩ := bind_ok h
  obtain ⟨memory, hm, h⟩ := bind_ok h
  obtain ⟨-, -, h⟩ := bind_ok h
  refine ⟨plan, hp, ?_⟩
  split at h
  · next hs =>
    cases h
    exact (isEmpty_iff.1 hs).symm
  · cases h
    exact (startMemory_ok hm).1

theorem exists_plan_slots (tr : g.Traced)
    (ht : roots.map g.node = values.map fun v => .root v.net) (hne : values ≠ []) :
    ∃ plan order consts, Plan.ofRoots g roots = .ok plan ∧
      Schedule.Plans g roots order consts plan ∧ plan.slots ≠ [] := by
  obtain ⟨plan, order, consts, ho, hp⟩ := Schedule.exists_plan tr (requests_of_map ht)
  refine ⟨plan, order, consts, ho, hp, fun he => ?_⟩
  -- The first request has a cell.
  obtain ⟨v, hv⟩ := exists_mem_of_ne_nil values hne
  have hn : .root v.net ∈ roots.map g.node := ht ▸ mem_map.2 ⟨v, hv, rfl⟩
  obtain ⟨r, hr, hn⟩ := mem_map.1 hn
  obtain ⟨m, hm, -⟩ := hp.exists_slot tr hr hn
  rw [he] at hm
  cases hm

/-- Cells that were not there before a compilation have the types of their nodes. -/
theorem compile_cells (tr : g.Traced) (hd : ∀ v ∈ data.flatMap requested, g.Carries v)
    (t : Target) : ∀ c ∈ (compile t g data).2.1.memory, c ∈ t.memory ∨
      ((compile t g data).2.2.node c.1.source).cell? = some c.1.cell := by
  obtain ⟨-, roots, hr, hn⟩ := withRoots_spec (data.flatMap requested) [] g
  have tr' := withRoots_traced tr hd []
  obtain ⟨plan, order, consts, hp, hl⟩ := Schedule.exists_plan tr' (requests_of_map hn)
  rw [compile_eq]
  dsimp only
  rw [hr, nil_append]
  cases ho : compileRoots (withRoots (data.flatMap requested) ([], g)).2 roots with
  | error f => exact fun c hc => .inl hc
  | ok new =>
    obtain ⟨plan', hp', he⟩ := compileRoots_cells ho
    obtain rfl := Except.ok.inj (hp.symm.trans hp')
    dsimp only
    split <;> exact fun c hc => .inr (hl.typed tr' (he ▸ mem_map_of_mem hc))

theorem compile_graph (t : Target) (g : Graph) (data : List Datum) :
    (compile t g data).2.2 = (withRoots (data.flatMap requested) ([], g)).2 := by
  rw [compile_eq]
  dsimp only
  split
  · rfl
  · split <;> rfl

/-! ## Accesses -/

/-- What is done with a compiled target. -/
inductive Access where
  | run
  | read (d : Datum)
  | write (slots data : Datum)

def access (g : Graph) (t : Target) : Access → Except Fault Datum × Target
  | .run => match t.run g with
    | .ok t' => (.ok .absent, t')
    | .error f => (.error f, t)
  | .read d => (t.read g d, t)
  | .write slots data =>
    ((t.write g slots data).1.map fun _ => Datum.absent, (t.write g slots data).2)

/-- Nothing but the contents of cells differs. -/
structure Kept (t t' : Target) : Prop where
  keys : t'.memory.map Prod.fst = t.memory.map Prod.fst
  program : t'.program = t.program

theorem Kept.refl (t : Target) : Kept t t := ⟨rfl, rfl⟩

theorem Kept.trans {t'' : Target} (h : Kept t t') (h' : Kept t' t'') : Kept t t'' :=
  ⟨h'.keys.trans h.keys, h'.program.trans h.program⟩

theorem keys_step (i : Interpretation) (g : Graph) (m : Machine) (s : Step) :
    (Machine.step i g m s).memory.map Prod.fst = m.memory.map Prod.fst := by
  rw [Machine.step]
  unfold Machine.perform
  split
  · rename_i r _ _ _ _
    cases r <;> rfl
  · exact Memory.map_fst_set g m.memory _ _
  · rfl
  · rfl

theorem keys_run (i : Interpretation) (g : Graph) (steps : List Step) (m : Machine) :
    (Machine.run i g steps m).memory.map Prod.fst = m.memory.map Prod.fst := by
  induction steps generalizing m with
  | nil => rfl
  | cons s rest ih => exact (ih (Machine.step i g m s)).trans (keys_step i g m s)

theorem kept_run (h : t.run g = .ok t') : Kept t t' := by
  obtain ⟨steps, hs, rfl⟩ := run_ok h
  exact ⟨keys_run .native g steps _, rfl⟩

theorem kept_writeValue {v : Value} {d : Datum} (h : t.writeValue g v d = .ok t') : Kept t t' := by
  rw [writeValue] at h
  split at h
  · cases h
  · have hs : ∀ number, (do
        return { t with memory := t.memory.set g v.net (← Word.ofNumber number) }) = .ok t' →
          Kept t t' := by
      intro number h
      obtain ⟨w, -, h⟩ := bind_ok h
      cases h
      exact ⟨Memory.map_fst_set g t.memory v.net w, rfl⟩
    split at h
    · obtain ⟨number, -, h⟩ := bind_ok h
      exact hs number h
    · obtain ⟨number, -, h⟩ := bind_ok h
      exact hs number h

theorem kept_foldl_writeItem {depth : Nat}
    (h : ∀ t slots data, Kept t (writeTo g depth t slots data).2) (l : List (Datum × Datum))
    (state : Except Fault Unit × Target) : Kept state.2 (l.foldl (writeItem g depth) state).2 := by
  induction l generalizing state with
  | nil => exact .refl _
  | cons p rest ih =>
    refine Kept.trans ?_ (ih _)
    rw [writeItem]
    split
    · exact h _ _ _
    · exact .refl _

theorem kept_writeTo (depth : Nat) (t : Target) (slots data : Datum) :
    Kept t (writeTo g depth t slots data).2 := by
  induction depth generalizing t slots data with
  | zero => exact .refl t
  | succ depth ih =>
    rw [writeTo_succ]
    split
    · split
      · split
        · exact kept_foldl_writeItem ih _ (.ok (), t)
        · exact .refl t
        · exact .refl t
      · exact .refl t
    · split
      · exact .refl t
      · split
        · split
          · exact kept_writeValue ‹_›
          · exact .refl t
        · exact .refl t

/-- Accesses change the contents of cells only. -/
theorem kept_access (g : Graph) (t : Target) (a : Access) : Kept t (t.access g a).2 := by
  cases a with
  | run =>
    rw [access]
    cases hr : t.run g with
    | ok t' => exact kept_run hr
    | error f => exact .refl t
  | read d => exact .refl t
  | write slots data => exact kept_writeTo _ t slots data

/-! ## Histories -/

/-- Targets with a history, and the graph then: tracing goes on, values are compiled, and
the target is run, read and written, whether that succeeds or not. -/
inductive Reached : Graph → Target → Prop
  | new {g : Graph} (tr : g.Traced) : Reached g {}
  | trace {g g' : Graph} {t : Target} (h : Reached g t) (hext : g.Extends g') (tr : g'.Traced) :
      Reached g' t
  | compile {g : Graph} {t : Target} {data : List Datum} (h : Reached g t)
      (hdata : ∀ v ∈ data.flatMap requested, g.Carries v) :
      Reached (compile t g data).2.2 (compile t g data).2.1
  | access {g : Graph} {t : Target} (h : Reached g t) (a : Access) : Reached g (t.access g a).2

theorem Reached.traced (h : Reached g t) : g.Traced := by
  induction h with
  | new tr => exact tr
  | trace _ _ tr => exact tr
  | compile _ hd ih =>
    rw [compile_graph]
    exact withRoots_traced ih hd []
  | access _ _ ih => exact ih

end Target

end Patchwork
