import Patchwork.Proofs.Database.Callees
import Patchwork.Proofs.Program.Linking

/-!
# Every field holds the distance to its symbol

The runner carries out the commands of a linked program. Each patch of a relocation by
distance overwrites four bytes of code. The fields of relocations lie apart: stencils come
one after the other behind the auxiliary functions, and the sections of those are laid out
apart. So no patch is disturbed by a later one, and what lies outside the fields is what was
copied there.
-/

namespace Patchwork

open Image Layout List

variable {e : RelocationEntry} {f : String × Int} {p : Patch} {q : Placed Int}

namespace Assembly

/-- What is asked of a database: the machine has the least byte first, relocations are by
distance, their fields of four bytes lie inside the functions and do not overlap, functions
lie inside their sections, and the file has the bytes of the sections. Where two functions
share a relocation its field counts once. Functions are placed and found by name, so every
function has to be the first symbol of its name. The entry function begins with some code. -/
structure Linkable (g : Graph) (db : Database) (steps : List Step) (aux : List String)
    (consts : List Nat) : Prop where
  little : db.object.order = .little
  stencilDistance : ∀ s ∈ steps, ∀ e ∈ (db.handout (stencilName g s) true).entries, e.IsDistance
  stencilInside : ∀ s ∈ steps, ∀ e ∈ (db.handout (stencilName g s) true).entries,
    0 ≤ e.position ∧ e.position + 4 ≤ (stencil g db s).length
  stencilApart : ∀ s ∈ steps, ∀ e ∈ (db.handout (stencilName g s) true).entries,
    ∀ e' ∈ (db.handout (stencilName g s) true).entries,
      e = e' ∨ 4 ≤ (e.position - e'.position).natAbs
  functionDistance : ∀ name ∈ aux, ∀ e ∈ (db.handout name false).entries, e.IsDistance
  functionInside : ∀ name ∈ aux, ∀ t, db.object.symbol name = .ok t →
    ∀ e ∈ (db.handout name false).entries, 0 ≤ e.position ∧ e.position + 4 ≤ t.size
  functionApart : ∀ name ∈ aux, ∀ t, db.object.symbol name = .ok t →
    ∀ name' ∈ aux, ∀ t', db.object.symbol name' = .ok t' → t.sectionIndex = t'.sectionIndex →
    ∀ e ∈ (db.handout name false).entries, ∀ e' ∈ (db.handout name' false).entries,
      (e.Alike e' ∧ t.offset + e.position = t'.offset + e'.position) ∨
        4 ≤ (t.offset + e.position - (t'.offset + e'.position)).natAbs
  sectionInside : ∀ name ∈ aux, ∀ t, db.object.symbol name = .ok t →
    ∀ s, db.sectionAt t.sectionIndex = .ok s →
      t.offset + t.size ≤ s.size ∧ (db.object.sectionData s).length = s.size
  constantData : ∀ k ∈ consts, ∀ s, db.sectionAt (k : Int) = .ok s →
    (db.object.sectionData s).length = s.size
  faithful : db.Faithful
  named : db.object.NamesFunctions
  entered : ∀ code, db.functionCode Database.entryFunction .start = .ok code → code ≠ []

variable {g : Graph} {db : Database} {plan : Plan} {aux : List String} {consts : List Nat}
  {a : Assembly} {l : Parts}

theorem Linkable.backed {steps : List Step} (h : Linkable g db steps aux consts) :
    Backed db aux consts :=
  ⟨fun name hn t ht s hs => (h.sectionInside name hn t ht s hs).2, h.constantData⟩

/-! ## Where fields lie -/

theorem stencil_field (hl : Linkable g db plan.steps aux consts)
    {before after : List Step} {s : Step} (hspl : plan.steps = before ++ s :: after)
    (he : e ∈ (db.handout (stencilName g s) true).entries) {start : Int}
    {places : Places}
    (hp : stencilPatch g db.object places s.net (stencilName g s) start (stencil g db s).length e =
      .ok p) :
    ∃ aim, StencilAim g places s.net (start + (stencil g db s).length) e aim ∧
      p = distancePatch e start aim ∧ start ≤ p.address ∧
      p.address + 4 ≤ start + (stencil g db s).length := by
  have hs : s ∈ plan.steps := by simp [hspl]
  obtain ⟨aim, ha, rfl⟩ := stencilPatch_ok (hl.stencilDistance s hs e he) hp
  obtain ⟨ho, hh⟩ := hl.stencilInside s hs e he
  refine ⟨aim, ha, rfl, ?_, ?_⟩ <;> simp only [distancePatch] <;> omega

/-- A function with the place of its section. -/
structure PlacedFunction (db : Database) (l : Parts) (aux : List String) (f : String × Int)
    (t : Symbol) (q : Placed Int) : Prop where
  named : f.1 ∈ aux
  symbol : db.object.symbol f.1 = .ok t
  place : q ∈ l.functions.sections
  index : q.content = (t.sectionIndex : Int)
  address : f.2 = q.start + t.offset
  inside : t.offset + t.size ≤ q.length

theorem function_field (hl : Linkable g db plan.steps aux consts)
    {t : Symbol} (hf : PlacedFunction db l aux f t q)
    (he : e ∈ (db.handout f.1 false).entries) {places : Places}
    (hp : auxiliaryPatch db.object places f.1 f.2 e = .ok (some p)) :
    ∃ aim, FunctionAim places e aim ∧ p = distancePatch e f.2 aim ∧ q.start ≤ p.address ∧
      p.address + 4 ≤ q.start + q.length := by
  obtain ⟨aim, ha, ht⟩ := auxiliaryPatch_ok (hl.functionDistance f.1 hf.named e he) hp
  obtain rfl := Option.some.inj ht
  obtain ⟨ho, hh⟩ := hl.functionInside f.1 hf.named t hf.symbol e he
  have hi := hf.inside
  refine ⟨aim, ha, rfl, ?_, ?_⟩ <;> simp only [distancePatch, hf.address] <;> omega

def Parts.size (l : Parts) (g : Graph) (db : Database) (steps : List Step) : Int :=
  l.functions.stop + (l.code g db steps).length

theorem functions_bounds (h : Links g db plan aux consts a l) :
    0 ≤ l.functions.stop ∧ ∀ q ∈ l.functions.sections,
      0 ≤ q.start ∧ q.start + q.length ≤ l.functions.stop := by
  have hd := (functions_laid h.functions).laid
  exact ⟨hd.le, fun q hq => ⟨(hd.inside q hq).1, (hd.inside q hq).2.2⟩⟩

section

variable (hl : Linkable g db plan.steps aux consts)
  (h : Links g db plan aux consts a l)

include hl h

theorem exists_placedFunction
    (hf : f ∈ l.functions.addresses) : ∃ t q, PlacedFunction db l aux f t q := by
  have hd := functions_laid h.functions
  obtain ⟨hn, t, ht, q, hq, hi, ha⟩ := hd.address f hf
  obtain ⟨s, hs, hft⟩ := hd.fits q hq
  obtain ⟨hin, -⟩ := hl.sectionInside f.1 hn t ht s (hi ▸ hs)
  exact ⟨t, q, hn, ht, hq, hi, ha, by rw [hft.length]; exact_mod_cast hin⟩

/-- What a patch writes, if data lies `distance` behind code. -/
def patchWrite (distance : Int) (p : Patch) : Nat × Bytes :=
  (p.address.toNat, Command.word .little (p.value + if p.command = towardsData then distance else 0))

theorem exists_distancePatch (hp : p ∈ l.patches) :
    ∃ e start aim, p = distancePatch e start aim := by
  cases h.relocated p hp with
  | stencil hs he ht =>
    obtain ⟨aim, -, heq, -⟩ := stencil_field hl hs he ht
    exact ⟨_, _, aim, heq⟩
  | function hf he ht =>
    obtain ⟨t, q, hd⟩ := exists_placedFunction hl h hf
    obtain ⟨aim, -, heq, -⟩ := function_field hl hd he ht
    exact ⟨_, _, aim, heq⟩

def Parts.codeWrites (l : Parts) (g : Graph) (db : Database) (steps : List Step) (distance : Int) :
    List (Nat × Bytes) :=
  l.functions.sections.map (fun q => (q.start.toNat, sectionBytes db q)) ++
    ((l.functions.stop.toNat, l.code g db steps) :: l.patches.map (patchWrite distance))

def Parts.dataWrites (l : Parts) (db : Database) : List (Int × Int × Bytes) :=
  l.sections.map (fun q => (q.start, q.length, sectionBytes db q)) ++ l.cells

def Parts.image (l : Parts) (g : Graph) (db : Database) (steps : List Step) (distance : Int) : Bytes :=
  Bytes.overwriteAll (List.replicate (l.size g db steps).toNat 0) (l.codeWrites g db steps distance)

def Parts.data (l : Parts) (db : Database) : Bytes :=
  Bytes.overwriteAll (List.replicate l.stop.toNat 0)
    ((l.dataWrites db).map fun w => (w.1.toNat, w.2.2))

theorem commands_sized : ∀ c ∈ l.commands g db plan.steps, c.Sized := by
  refine Parts.commands_sized (fun q hq => length_constantBytes hl.backed h.sections hq)
    (fun c hc => cellCommand_sized h.slots (h.cells c hc))
    (fun q hq => length_functionBytes hl.backed h.functions hq) fun p hp => ?_
  obtain ⟨e, start, ⟨isData, address⟩, rfl⟩ := exists_distancePatch hl h hp
  cases isData <;> trivial

theorem size_pos : 0 < l.size g db plan.steps := by
  have ht := (functions_bounds h).1
  have hs := length_pos_of_ne_nil (hl.entered l.start h.start)
  simp only [Parts.size, Parts.code, length_append]
  omega

omit hl h in
theorem stop_pos (h : Emits g db plan aux consts a l) (ha : plan.slots ≠ []) :
    0 < l.stop := by
  obtain ⟨hc, hs⟩ := slots_laid h.slots
  have hm := (sections_laid h.sections).2.le
  obtain ⟨v, hv⟩ := exists_mem_of_ne_nil l.slots fun hn => by
    rw [hn, forall₂_nil_right_iff] at hc
    exact ha hc
  obtain ⟨n, -, -, he, -⟩ := exists_mem_of_forall₂_right hc hv
  have hp := hs.inside v hv
  omega

omit hl h in
/-- The commands up to the allocation of code leave the data. -/
theorem executeAll_data (l : Parts) (db : Database) (p : Placement) (i : Image) :
    ∃ d, i.executeAll p ([.freeMemory, .allocateData l.stop] ++ l.dataCommands db) =
      some { data := some (l.data db), dataOffset := d } := by
  have hw : l.dataCommands db = (l.dataWrites db).map fun w => .copyData w.1 w.2.1 w.2.2 := by
    simp [Parts.dataCommands, Parts.dataWrites, Function.comp_def, cellCommand]
  rw [hw]
  exact ⟨_, executeAll_append rfl (executeAll_copyData _)⟩

omit hl h in
theorem execute_allocateCode {p : Placement} {j : Image} {data : Bytes} (hj : j.data = some data)
    (size : Int) : j.execute p (.allocateCode size) =
      let distance :=
        addressOf p.data (some data) - addressOf p.code (some (replicate size.toNat 0))
      if 0x7fffffff < distance.natAbs then
        { image := { j with code := some (replicate size.toNat 0) }, result := some (-4) }
      else { image := { j with
        code := some (replicate size.toNat 0), dataOffset := Int32.ofInt distance } } := by
  simp [Image.execute, Image.measured, Image.dataAddress, Image.codeAddress, hj]

/-- What a symbol stands for in an auxiliary function: a function for its place in the code,
behind the beginning of its own section, and anything else for its place in a constant section. -/
inductive Stands (l : Parts) (s : Symbol) : Aim → Prop
  | function {q : Placed Int} (hkind : s.kind = .function) (hq : q ∈ l.functions.sections)
      (hsection : q.content = (s.sectionIndex : Int)) : Stands l s ⟨false, q.start + s.offset⟩
  | constant {q : Placed Int} (hkind : isData s.kind = true) (hq : q ∈ l.sections)
      (hsection : q.content = (s.sectionIndex : Int)) : Stands l s ⟨true, q.start + s.value⟩

/-- What a symbol stands for in a stencil: a variable for the one of the step, the result for
what comes next, and anything else for what it stands for in a function. -/
inductive StandsIn (g : Graph) (l : Parts) (net : Option Net) (next : Int) (s : Symbol) :
    Aim → Prop
  | cell {n : Net} {v : Placed Net} (hkind : isData s.kind = true)
      (hname : s.name.startsWith "dummy_" = true) (hnet : net = some n) (hv : v ∈ l.slots)
      (hsame : g.sameNet v.content n = true) : StandsIn g l net next s ⟨true, v.start⟩
  | next (hkind : isData s.kind = true) (hdummy : s.name.startsWith "dummy_" = false)
      (hname : s.name.startsWith "result_" = true) : StandsIn g l net next s ⟨false, next⟩
  | other {aim : Aim} (hname : s.kind = .function ∨ s.name.startsWith "dummy_" = false ∧
      s.name.startsWith "result_" = false) (h : Stands l s aim) : StandsIn g l net next s aim

theorem stands_function {s : Symbol} (hs : e.Describes db.object s) {address : Int}
    (hk : e.symbolKind = .function) (hf : (e.symbolName, address) ∈ l.functions.addresses) :
    Stands l s ⟨false, address⟩ := by
  obtain ⟨t, q, hp⟩ := exists_placedFunction hl h hf
  rw [hs.kind] at hk
  have hts : t = s := by
    have ht := hp.symbol
    simp only [hs.name, Object.symbol,
      hl.named s (Object.mem_symbols_of_pointedTo? hs.pointed) hk] at ht
    exact (Except.ok.inj ht).symm
  obtain rfl : address = q.start + t.offset := hp.address
  subst hts
  exact .function hk hp.place hp.index

omit hl h in
theorem stands_constant {s : Symbol} (hs : e.Describes db.object s)
    (hk : isData e.symbolKind) (hq : q ∈ l.sections) (he : q.content = (e.sectionIndex : Int)) :
    Stands l s ⟨true, e.symbolOffset + q.start⟩ := by
  rw [hs.offset, Int.add_comm]
  exact .constant (hs.kind ▸ hk) hq (hs.sectionIndex ▸ he)

theorem FunctionAim.stands {s : Symbol} (hs : e.Describes db.object s) {aim : Aim}
    (hi : FunctionAim l.toPlaces e aim) : Stands l s aim := by
  cases hi with
  | function hk ha => exact stands_function hl h hs hk ha
  | constant hk hq he => exact stands_constant hs hk hq he

theorem StencilAim.stands {s : Symbol} (hs : e.Describes db.object s) {net : Option Net}
    {next : Int} {aim : Aim} (hi : StencilAim g l.toPlaces net next e aim) :
    StandsIn g l net next s aim := by
  cases hi with
  | function hk ha => exact .other (.inl (hs.kind ▸ hk)) (stands_function hl h hs hk ha)
  | cell hk hn ht hv hm =>
    exact .cell (hs.kind ▸ hk) (hs.name ▸ hn) ht hv hm
  | next hk hd hn =>
    exact .next (hs.kind ▸ hk) (hs.name ▸ hd) (hs.name ▸ hn)
  | constant hk hd hr hq he =>
    exact .other (.inr ⟨hs.name ▸ hd, hs.name ▸ hr⟩) (stands_constant hs hk hq he)

/-- Assembling, whatever the order of the layouts: the plan of some roots, with its
variables, the functions that its stencils call and the constant sections in some order. -/
structure Assembles (g : Graph) (roots : List NodeId) (db : Database) (plan : Plan)
    (aux : List String) (consts : List Nat) (a : Assembly) : Prop where
  planned : ∃ plan', Plan.ofRoots g roots = .ok plan' ∧ plan.steps = plan'.steps ∧
    plan.slots.Perm plan'.slots
  called : ∃ names, db.callees (stencilNames g plan.steps) = .ok names ∧ aux.Perm names
  referred : ∃ indices, db.constantSections
    (Database.addNames aux (stencilNames g plan.steps)) = .ok indices ∧ consts.Perm indices
  linked : ∃ db', Gives (link g plan aux consts) db a db'

omit hl h in
theorem assembles_of_assemble {roots : List NodeId} {db' : Database}
    (h : Gives (assemble g roots) db a db') :
    ∃ plan aux consts, Assembles g roots db plan aux consts a := by
  rw [assemble] at h
  obtain ⟨db₀, db₁, hg, h⟩ := gives_bind h
  cases hg
  obtain ⟨plan, hp, h⟩ := gives_check h
  obtain ⟨names, hn, h⟩ := gives_check h
  obtain ⟨consts, hc, h⟩ := gives_check h
  exact ⟨plan, names.mergeSort (· ≤ ·), consts, ⟨plan, hp, rfl, .refl _⟩,
    ⟨names, hn, mergeSort_perm names _⟩, ⟨consts, hc, .refl _⟩, ⟨db', h⟩⟩

end

def sine : Graph :=
  ((Graph.empty.push (.constant (.float 2.0) false)).push (.apply .sin [⟨.float, 0⟩] false)).push
    (.root ⟨.float, 1⟩)

/-- Loads the constant, takes its sine and saves that. -/
def sinePlan : Plan where
  steps := [⟨some ⟨.float, 0⟩, .fresh (.load .float .first (.int, .int))⟩, ⟨none, .existing 1⟩,
    ⟨some ⟨.float, 1⟩, .fresh (.save (.float, .int) [⟨.float, 1⟩])⟩]
  slots := [⟨.float, 0⟩, ⟨.float, 1⟩]

/-- A small machine. Its sine calls an auxiliary function and may jump to the next stencil
before its end; the auxiliary function reads a constant. -/
def sineObject : Object where
  raw := [0x90, 0xe8, 0, 0, 0, 0, 0xc3,
    0x8b, 0x05, 0, 0, 0, 0, 0xe9, 0, 0, 0, 0,
    0xe8, 0, 0, 0, 0, 0x0f, 0x84, 0, 0, 0, 0, 0xe9, 0, 0, 0, 0,
    0x89, 0x05, 0, 0, 0, 0, 0xe9, 0, 0, 0, 0,
    0x8b, 0x05, 0, 0, 0, 0, 0xc3,
    1, 2, 3, 4]
  order := .little
  sections := [⟨0, "", .null, 0, 0, 0, 0, 0, 0, 0⟩,
    ⟨1, ".text.entry", .progbits, 6, 0, 7, 0, 0, 16, 0⟩,
    ⟨2, ".text.load", .progbits, 6, 7, 11, 0, 0, 16, 0⟩,
    ⟨3, ".text.sin", .progbits, 6, 18, 16, 0, 0, 16, 0⟩,
    ⟨4, ".text.save", .progbits, 6, 34, 11, 0, 0, 16, 0⟩,
    ⟨5, ".text.aux", .progbits, 6, 45, 7, 0, 0, 16, 0⟩,
    ⟨6, ".rodata", .progbits, 2, 52, 4, 0, 0, 4, 0⟩]
  symbols := [
    ⟨0, "entry_function_shell", .function, 1, 0, 7, false,
      [⟨2, "R_X86_64_PLT32", -4, some 5, some 1⟩]⟩,
    ⟨1, "load_float_reg0_int_int", .function, 2, 0, 11, false,
      [⟨2, "R_X86_64_PC32", -4, some 6, some 2⟩, ⟨7, "R_X86_64_PLT32", -4, some 5, some 2⟩]⟩,
    ⟨2, "sin_float", .function, 3, 0, 16, false,
      [⟨1, "R_X86_64_PLT32", -4, some 4, some 3⟩, ⟨7, "R_X86_64_PLT32", -4, some 5, some 3⟩,
       ⟨12, "R_X86_64_PLT32", -4, some 5, some 3⟩]⟩,
    ⟨3, "store_float_reg0_float_int", .function, 4, 0, 11, false,
      [⟨2, "R_X86_64_PC32", -4, some 6, some 4⟩, ⟨7, "R_X86_64_PLT32", -4, some 5, some 4⟩]⟩,
    ⟨4, "aux_sin", .function, 5, 0, 7, false, [⟨2, "R_X86_64_PC32", -4, some 7, some 5⟩]⟩,
    ⟨5, "result_float", .noType, 0, 0, 0, false, []⟩,
    ⟨6, "dummy_float", .noType, 0, 0, 0, false, []⟩,
    ⟨7, "", .«section», 6, 0, 0, false, []⟩]

def sineDatabase : Database where
  object := sineObject
  definitions := [("entry_function_shell", "float"), ("load_float_reg0_int_int", "float"),
    ("sin_float", "float"), ("store_float_reg0_float_int", "float"), ("aux_sin", "void")]
  isThumb := false

theorem sine_linkable : Linkable sine sineDatabase sinePlan.steps ["aux_sin"] [6] where
  little := rfl
  stencilDistance := by decide +kernel
  stencilInside := by decide +kernel
  stencilApart := by decide +kernel
  functionDistance := by decide +kernel
  functionInside := by
    intro name hn t ht
    obtain rfl := mem_singleton.1 hn
    cases ht
    decide +kernel
  functionApart := by
    intro name hn t ht name' hn' t' ht' _ e he e' he'
    obtain rfl := mem_singleton.1 hn
    obtain rfl := mem_singleton.1 hn'
    cases ht
    cases ht'
    have ho : ∀ e ∈ (sineDatabase.handout "aux_sin" false).entries,
        ∀ e' ∈ (sineDatabase.handout "aux_sin" false).entries, e = e' := by
      decide +kernel
    obtain rfl := ho e he e' he'
    exact .inl ⟨⟨rfl, rfl, rfl, rfl, rfl, rfl⟩, rfl⟩
  sectionInside := by
    intro name hn t ht s hs
    obtain rfl := mem_singleton.1 hn
    cases ht
    cases hs
    decide +kernel
  constantData := by
    intro k hk s hs
    obtain rfl := mem_singleton.1 hk
    cases hs
    decide +kernel
  faithful := by simp [Database.Faithful, sineDatabase]
  named := by simp [Object.NamesFunctions, sineDatabase, sineObject, Object.symbol?]
  entered := by
    have ha : sineDatabase.functionCode Database.entryFunction .start = .ok [0x90] := by
      decide +kernel
    rw [ha]
    rintro _ ⟨⟩
    simp

theorem sine_plan : Plan.ofRoots sine [2] = .ok sinePlan := by with_unfolding_all rfl

theorem exists_assembles {roots : List NodeId} (hp : Plan.ofRoots g roots = .ok plan)
    (ha : db.callees (stencilNames g plan.steps) = .ok aux)
    (hc : db.constantSections (Database.addNames aux (stencilNames g plan.steps)) =
      .ok consts) (hi : ((link g plan aux consts).run db).1.toBool) :
    ∃ a, Assembles g roots db plan aux consts a := by
  cases hr : (link g plan aux consts).run db with
  | mk outcome db' =>
    rw [hr] at hi
    cases outcome with
    | error f => cases hi
    | ok a =>
      exact ⟨a, ⟨plan, hp, rfl, .refl _⟩, ⟨_, ha, .refl _⟩, ⟨_, hc, .refl _⟩, ⟨db', hr⟩⟩

theorem sine_stencilNames : stencilNames sine sinePlan.steps =
    ["load_float_reg0_int_int", "sin_float", "store_float_reg0_float_int"] := by
  decide +kernel

theorem sine_assembles : ∃ a, Assembles sine [2] sineDatabase sinePlan ["aux_sin"] [6] a := by
  refine exists_assembles sine_plan ?_ (by decide +kernel) (by decide +kernel)
  rw [sine_stencilNames]
  simp [Database.callees, Database.calleesOf, Database.calledBy, sineDatabase, sineObject,
    Object.symbol, Object.symbol?, Object.pointedTo, Object.pointedTo?, Database.addNames, bind,
    Except.bind, pure, Except.pure]

end Assembly

end Patchwork
