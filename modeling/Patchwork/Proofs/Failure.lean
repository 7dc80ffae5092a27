import Patchwork.Proofs.Database.Remembered
import Patchwork.Proofs.Variables

/-!
# Compilations that fail

A device keeps a database, the table of the variables that were compiled last, and the memories of
its runner. To compile values it appends a request for each of them to the graph and assembles a
program. If that fails, table and memories are what they were. Otherwise the table is replaced, and
the runner frees its memories before it loads the program; if it cannot have memories that are near
enough, the device is left with the new table and without a program.

Requests are never compared with what a device keeps. So a device whose program could not be
assembled also answers in the larger graph as it did in the smaller one.
-/

namespace Patchwork

open List Assembly
open Target (withRoots)

/-- What a device keeps between compilations. -/
structure Device where
  db : Database
  table : List (Placed Net) := []
  image : Image := {}

namespace Device

variable {cpu : Image → Image} {p : Placement} {g g' : Graph} {d d' : Device}
  {values : List Value} {roots : List NodeId} {a : Assembly} {db db' : Database}
  {plan : Plan} {aux : List String} {consts : List Nat} {l : Parts}

/-! ## Compiling -/

/-- What comes of assembling a program for values. -/
abbrev assembled (db : Database) (g : Graph) (values : List Value) :
    Except Fault Assembly × Database :=
  (assemble (withRoots values ([], g)).2 (withRoots values ([], g)).1).run db

/-- Loads a program to memories at some addresses. -/
abbrev load (p : Placement) (i : Image) (a : Assembly) : Image.Outcome :=
  Image.run p i (a.stream.opcode .endCommands).bytes

/-- Compiles values to a program that is loaded to memories at some addresses. -/
def compile (p : Placement) (d : Device) (g : Graph) (values : List Value) :
    Except Fault Unit × Device × Graph :=
  let g' := (withRoots values ([], g)).2
  match assembled d.db g values with
  | (.error f, db) => (.error f, { d with db }, g')
  | (.ok a, db) =>
    let outcome := load p d.image a
    (if outcome.result.any (0 < ·) then .ok () else .error (.violated .unstated),
      { db, table := a.slots, image := outcome.image }, g')

/-! ## Accesses -/

/-- What is done with a device between compilations. -/
inductive Access where
  | run
  | read (n : Net)
  | write (n : Net) (x : Number)

def place? (g : Graph) (d : Device) (n : Net) : Option (Placed Net) :=
  d.table.find? fun v => g.sameNet v.content n

/-- The answer to an access, and the device after it. What a program does is up to the processor,
which knows the memories only. -/
def access (cpu : Image → Image) (p : Placement) (g : Graph) (d : Device) :
    Access → Except Fault Bytes × Device
  | .run => (.ok [], { d with image := cpu d.image })
  | .read n => match d.place? g n with
    | none => (.error (.violated .compiledValue), d)
    | some v => (Image.read (some d.image) v.start v.length, d)
  | .write n x => match d.place? g n with
    | none => (.error (.violated .compiledValue), d)
    | some v => match writing d.db.object.order v x with
      | .error f => (.error f, d)
      | .ok stream => (.ok [], { d with image := (Image.run p d.image stream).image })

def answers (cpu : Image → Image) (p : Placement) (g : Graph) :
    Device → List Access → List (Except Fault Bytes)
  | _, [] => []
  | d, a :: rest => (d.access cpu p g a).1 :: answers cpu p g (d.access cpu p g a).2 rest

theorem access_table (cpu : Image → Image) (p : Placement) (g : Graph) (d : Device) (a : Access) :
    (d.access cpu p g a).2.table = d.table ∧ (d.access cpu p g a).2.db = d.db := by
  cases a with
  | run => exact ⟨rfl, rfl⟩
  | read n =>
    rw [access]
    split <;> exact ⟨rfl, rfl⟩
  | write n x =>
    rw [access]
    split
    · exact ⟨rfl, rfl⟩
    · split <;> exact ⟨rfl, rfl⟩

/-- A device answers the same in a graph that compares its variables in the same way. -/
theorem answers_congr (hs : ∀ v ∈ d.table, ∀ n, g'.sameNet v.content n = g.sameNet v.content n)
    (ho : db.object.order = d.db.object.order) (l : List Access) :
    answers cpu p g' { d with db } l = answers cpu p g d l := by
  induction l generalizing d with
  | nil => rfl
  | cons a rest ih =>
    have hp : ∀ n, place? g' { d with db } n = place? g d n := by
      intro n
      exact find?_congr fun v hv => hs v hv n
    have ha : access cpu p g' { d with db } a =
        ((access cpu p g d a).1, { (access cpu p g d a).2 with db }) := by
      cases a with
      | run => rfl
      | read n =>
        rw [access, access, hp]
        split <;> rfl
      | write n x =>
        simp only [access, hp, ho]
        split
        · rfl
        · split <;> rfl
    obtain ⟨ht, hd⟩ := access_table cpu p g d a
    rw [answers, answers, ha]
    refine congrArg _ (ih ?_ ?_)
    · rw [ht]
      exact hs
    · rw [hd]
      exact ho

/-! ## Histories -/

/-- Devices with a history, and the graph then: tracing goes on, values are compiled, and the
device is run, read and written, whether that succeeds or not. -/
inductive Reached (cpu : Image → Image) : Graph → Device → Prop
  | new {g : Graph} (tr : g.Traced) (db : Database) : Reached cpu g { db }
  | trace {g g' : Graph} {d : Device} (h : Reached cpu g d) (hext : g.Extends g')
      (tr : g'.Traced) : Reached cpu g' d
  | compile {g : Graph} {d : Device} {values : List Value} (h : Reached cpu g d)
      (hvalues : ∀ v ∈ values, g.Carries v) (p : Placement) :
      Reached cpu (d.compile p g values).2.2 (d.compile p g values).2.1
  | access {g : Graph} {d : Device} (h : Reached cpu g d) (p : Placement) (a : Access) :
      Reached cpu g (d.access cpu p g a).2

theorem assembled_slots (tr : g.Traced) (hr : g.Requests roots)
    (h : Gives (assemble g roots) db a db') :
    ∀ v ∈ a.slots, v.content.source < g.size := by
  obtain ⟨plan, aux, consts, ha⟩ := assembles_of_assemble h
  obtain ⟨plan', hp', -, hs⟩ := ha.planned
  obtain ⟨plan'', order, kept, hp, hn⟩ := Schedule.exists_plan tr hr
  obtain rfl := Except.ok.inj (hp'.symm.trans hp)
  obtain ⟨db'', hi⟩ := ha.linked
  obtain ⟨l, hl⟩ := exists_emits hi
  intro v hv
  rw [hl.returned] at hv
  have hm : v.content ∈ plan.slots :=
    map_content_slots hl ▸ mem_map_of_mem (f := Placed.content) hv
  exact Graph.lt_size_of_cell? (hn.typed tr (hs.mem_iff.1 hm))

theorem compile_error {f : Fault} (h : assembled d.db g values = (.error f, db)) :
    d.compile p g values = (.error f, { d with db }, (withRoots values ([], g)).2) := by
  rw [compile, h]

theorem compile_ok (h : assembled d.db g values = (.ok a, db)) :
    d.compile p g values =
      (if (load p d.image a).result.any (0 < ·) then .ok () else .error (.violated .unstated),
        { db, table := a.slots, image := (load p d.image a).image },
        (withRoots values ([], g)).2) := by
  rw [compile, h]

/-- The variables of a device stand in the graph. -/
theorem Reached.settled (h : Reached cpu g d) :
    g.Traced ∧ ∀ v ∈ d.table, v.content.source < g.size := by
  induction h with
  | new tr => exact ⟨tr, by simp⟩
  | trace _ he tr ih => exact ⟨tr, fun v hv => Nat.lt_of_lt_of_le (ih.2 v hv) he.size⟩
  | @compile g d values _ ha p ih =>
    have tr' := Target.withRoots_traced ih.1 ha []
    obtain ⟨he, roots, ho, hn⟩ := Target.withRoots_spec values [] g
    rcases hr : assembled d.db g values with ⟨_ | a, db⟩
    · rw [compile_error hr]
      exact ⟨tr', fun v hv => Nat.lt_of_lt_of_le (ih.2 v hv) he.size⟩
    · rw [compile_ok hr]
      rw [assembled, ho, nil_append] at hr
      exact ⟨tr', assembled_slots tr' (Target.requests_of_map hn) hr⟩
  | @access g d _ p a ih =>
    rw [(access_table _ p g d a).1]
    exact ih

/-! ## Failures -/

/-- Table and memories of a device are what they were, because no program could be assembled, and
it answers every access as before. -/
structure Keeps (cpu : Image → Image) (g g' : Graph) (roots : List NodeId) (d d' : Device)
    (f : Fault) : Prop where
  refused : (assemble g' roots).run d.db = (.error f, d'.db)
  table : d'.table = d.table
  image : d'.image = d.image
  answers : ∀ p accesses, answers cpu p g' d' accesses = Device.answers cpu p g d accesses

/-- A program was assembled and not loaded: its variables are those of the device, which has
nothing to run. -/
structure Loses (g' : Graph) (roots : List NodeId) (d d' : Device) : Prop where
  assembled : ∃ a, (assemble g' roots).run d.db = (.ok a, d'.db) ∧ d'.table = a.slots
  entry : d'.image.entry = 0

/-- What is asked of a database: the machine has the least byte first, the file has the bytes of
the sections, and the entry function begins with some code. -/
structure Loadable (db : Database) : Prop where
  little : db.object.order = .little
  backed : ∀ s ∈ db.object.sections, (db.object.sectionData s).length = s.size
  entered : ∀ code, db.functionCode Database.entryFunction .start = .ok code → code ≠ []

theorem object_assembled (db : Database) (g : Graph) (values : List Value) :
    (assembled db g values).2.object = db.object := by
  obtain ⟨history, hr⟩ := leaves_assemble (withRoots values ([], g)).2 _ db
  rw [hr, Database.object_afterAll]

theorem Reached.keeps (h : Reached cpu g d) {f : Fault}
    (hr : assembled d.db g values = (.error f, db)) :
    Keeps cpu g (withRoots values ([], g)).2 (withRoots values ([], g)).1 d
      { d with db } f := by
  obtain ⟨tr, hs⟩ := h.settled
  refine ⟨hr, rfl, rfl, fun p accesses => answers_congr (fun v hv n => ?_) ?_ accesses⟩
  · exact (Target.withRoots_requested values [] (.refl g)).sameNode tr.wellFormed (hs v hv) n.source
  · have ho := object_assembled d.db g values
    rw [hr] at ho
    rw [← ho]

/-- The runner loads an assembled program, unless its memories are too far apart. Then nothing is
left to run. -/
theorem Loadable.run (hd : Loadable db)
    (h : Gives (assemble g roots) db a db') (p : Placement) (i : Image) :
    ∃ plan aux consts l, Assembles g roots db plan aux consts a ∧
      Emits g db plan aux consts a l ∧ 0 < l.size g db plan.steps ∧
      (Far p g db plan.steps l →
        (load p i a).result = some (-4) ∧ (load p i a).image.entry = 0) ∧
      (¬ Far p g db plan.steps l → (load p i a).result = some 1) := by
  obtain ⟨plan, aux, consts, ha⟩ := assembles_of_assemble h
  obtain ⟨db'', hi⟩ := ha.linked
  obtain ⟨l, hl⟩ := exists_emits hi
  obtain ⟨hf, hr⟩ := obey_commands hl p i
  have hu := run_emits hd.little (backed_of_sections hd.backed) hl p i
  refine ⟨plan, aux, consts, l, ha, hl, ?_, ?_, fun hn => ?_⟩
  · have ht := (Layout.functions_laid hl.functions).laid.le
    have hs := length_pos_iff.2 (hd.entered l.start hl.start)
    simp only [Parts.size, Parts.code, length_append]
    omega
  · rw [load, hu]
    exact hf
  · obtain ⟨i', hall⟩ := hr hn
    obtain ⟨output, ho⟩ := Image.obey_of_executeAll hall
    rw [load, hu, ho]

/-- The program of no values has no data, which cannot be allocated near to its code. -/
theorem far_of_nothing (h : Assembles g [] db plan aux consts a)
    (hl : Emits g db plan aux consts a l) (hz : 0 < l.size g db plan.steps)
    (hh : 0x7fffffff ≤ p.code) : a.slots = [] ∧ Far p g db plan.steps l := by
  obtain ⟨plan', hp, ht, ho⟩ := h.planned
  obtain rfl : plan' = { steps := [], slots := [] } := (Except.ok.inj hp).symm
  obtain ⟨names, hn, ha⟩ := h.called
  obtain ⟨indices, hi, hc⟩ := h.referred
  rw [ht] at hn hi
  obtain rfl : names = [] := (Except.ok.inj hn).symm
  rw [ha.eq_nil] at hi
  obtain rfl : indices = [] := (Except.ok.inj hi).symm.trans mergeSort_nil
  have hs := hl.sections
  rw [hc.eq_nil] at hs
  have hm : l.middle = 0 := (congrArg Prod.snd (Except.ok.inj hs)).symm
  have he := hl.slots
  rw [ho.eq_nil, hm] at he
  have hnone : l.slots = [] := (congrArg Prod.fst (Except.ok.inj he)).symm
  have hstop : l.stop = 0 := (congrArg Prod.snd (Except.ok.inj he)).symm
  refine ⟨hl.returned.trans hnone, ?_⟩
  have hd : l.data db = [] := by
    rw [← length_eq_zero_iff, Parts.data, Bytes.length_overwriteAll, hstop]
    rfl
  rw [Far, hd, show Image.addressOf p.data (some []) = -1 from rfl,
    Image.addressOf_some (by simpa)]
  omega

theorem compile_nothing (hd : Loadable d.db) (hh : 0x7fffffff ≤ p.code)
    (hu : (assemble g []).run d.db = (.ok a, db)) :
    ∃ d', d.compile p g [] = (.error (.violated .unstated), d', g) ∧ d'.table = [] ∧
      d'.image.entry = 0 := by
  obtain ⟨plan, aux, consts, l, ha, hl, hi, hf, -⟩ := hd.run hu p d.image
  obtain ⟨hs, hfar⟩ := far_of_nothing ha hl hi hh
  obtain ⟨hr, he⟩ := hf hfar
  refine ⟨{ db, table := a.slots, image := (load p d.image a).image },
    (show d.compile p g [] = _ from compile_ok hu).trans ?_, hs, he⟩
  rw [hr]
  rfl

/-- A device has the variables of a target that compiles the same requests. -/
theorem slots_perm_memory (h : Gives (assemble g roots) db a db') {t : Target}
    (ht : Target.compileRoots g roots = .ok t) :
    (a.slots.map Placed.content).Perm (t.memory.map Prod.fst) := by
  obtain ⟨plan, aux, consts, ha⟩ := assembles_of_assemble h
  obtain ⟨plan', hp', -, hs⟩ := ha.planned
  obtain ⟨plan'', hp, hc⟩ := Target.compileRoots_cells ht
  obtain rfl := Except.ok.inj (hp'.symm.trans hp)
  obtain ⟨db'', hi⟩ := ha.linked
  obtain ⟨l, hl⟩ := exists_emits hi
  rw [hl.returned, map_content_slots hl, hc]
  exact hs

/-- **A compilation that fails leaves the device as it was**, if it was asked for some value and
memories can be had near each other: then no program could be assembled, and from there on the
device answers every access as if there had been no compilation. In any case the device is as it
was, or it is left without a program. A compilation of nothing always fails, and if its program can
be assembled the device is left without variables, too. -/
theorem failed_compile_keeps (h : Reached cpu g d) (hvalues : ∀ v ∈ values, g.Carries v)
    (hdb : Loadable d.db) (p : Placement) :
    (∀ f d' g', d.compile p g values = (.error f, d', g') →
      ∃ roots, roots.map g'.node = values.map (fun v => .root v.net) ∧
        (Keeps cpu g g' roots d d' f ∨ Loses g' roots d d') ∧
        (values ≠ [] → (p.data - p.code).natAbs ≤ 0x7fffffff → Keeps cpu g g' roots d d' f)) ∧
    (values = [] → 0x7fffffff ≤ p.code → ∃ f d', d.compile p g values = (.error f, d', g) ∧
      (Keeps cpu g g [] d d' f ∨ d'.table = [] ∧ d'.image.entry = 0)) := by
  have tr' := Target.withRoots_traced h.settled.1 hvalues []
  obtain ⟨-, roots, hr, hn⟩ := Target.withRoots_spec values [] g
  rw [nil_append] at hr
  rcases hu : assembled d.db g values with ⟨f | a, db⟩
  · have hk := h.keeps hu
    rw [compile_error hu]
    refine ⟨?_, ?_⟩
    · rintro _ _ _ ⟨⟩
      exact ⟨_, hr ▸ hn, .inl hk, fun _ _ => hk⟩
    · rintro rfl -
      exact ⟨f, _, rfl, .inl hk⟩
  · rw [compile_ok hu]
    obtain ⟨plan, aux, consts, l, ha, hl, hz, hi, hruns⟩ := hdb.run hu p d.image
    refine ⟨?_, ?_⟩
    · intro f d' g' hf
      have hfar : Far p (withRoots values ([], g)).2 d.db plan.steps l := by
        by_contra hnear
        rw [hruns hnear] at hf
        cases hf
      obtain ⟨-, he⟩ := hi hfar
      simp only [Prod.mk.injEq] at hf
      obtain ⟨-, rfl, rfl⟩ := hf
      refine ⟨_, hr ▸ hn, .inr ⟨⟨a, hu, rfl⟩, he⟩, fun hne hnear => absurd hfar ?_⟩
      obtain ⟨plan', hp', -, hs⟩ := ha.planned
      obtain ⟨plan'', -, -, hp, -, hcells⟩ := Target.exists_plan_slots tr' hn hne
      rw [hr] at hp'
      obtain rfl := Except.ok.inj (hp'.symm.trans hp)
      refine not_far (stop_pos hl fun hnil => hcells ?_) hz hnear
      exact (hnil ▸ hs).symm.eq_nil
    · rintro rfl hh
      obtain ⟨d', hc, ht, he⟩ := compile_nothing hdb hh hu
      exact ⟨_, d', (compile_ok hu).symm.trans hc, .inr ⟨ht, he⟩⟩

/-! ## Example -/

open Variables (negation negated negationDatabase negationPlan negation_callees)

theorem compile_snd (p : Placement) (d : Device) (g : Graph) (values : List Value) :
    (d.compile p g values).2.1.db.object = d.db.object ∧
      (d.compile p g values).2.2 = (withRoots values ([], g)).2 := by
  have ho := object_assembled d.db g values
  rcases hr : assembled d.db g values with ⟨f | a, db⟩
  · rw [hr] at ho
    rw [compile_error hr]
    exact ⟨ho, rfl⟩
  · rw [hr] at ho
    rw [compile_ok hr]
    exact ⟨ho, rfl⟩

theorem Loadable.of_object (h : Loadable db) (ho : db'.object = db.object) : Loadable db' := by
  refine ⟨ho ▸ h.little, ho ▸ h.backed, fun code hc => h.entered code ?_⟩
  rw [← hc, Database.functionCode, Database.functionCode, ho]

theorem negationDatabase_loadable : Loadable negationDatabase := by
  refine ⟨rfl, by decide +kernel, fun code hc => ?_⟩
  have hs : negationDatabase.functionCode Database.entryFunction .start = .ok [0x90] := by
    decide +kernel
  rw [← Except.ok.inj (hs.symm.trans hc)]
  simp

/-- A number with its negation and its absolute value. -/
def signs : Graph := negation.push (.apply .abs [⟨.int, 0⟩] false)

def absolute : Value := ⟨⟨.int, 2⟩, .int⟩

/-- The device that has compiled the negation, and the graph then. -/
def negatedDevice : Device × Graph :=
  (compile {} { db := negationDatabase } signs [negated]).2

/-- The signs with the request for the negation. -/
def negatedSigns : Graph := signs.push (.root negated.net)

theorem negatedDevice_reached : Reached id negatedDevice.2 negatedDevice.1 := by
  have tr : signs.Traced := Graph.traced_of_checks (fun _ => false) (by decide)
  refine (Reached.new tr negationDatabase).compile (fun v hv => ?_) {}
  obtain rfl := mem_singleton.1 hv
  rfl

theorem negatedDevice_loadable : Loadable negatedDevice.1.db :=
  negationDatabase_loadable.of_object (compile_snd _ _ _ _).1

theorem negatedDevice_graph : negatedDevice.2 = negatedSigns :=
  (compile_snd _ _ _ _).2

theorem assemble_error {f : Fault} (plan : Plan) (hp : Plan.ofRoots g roots = .ok plan)
    (hc : db.callees (stencilNames g plan.steps) = .error f) :
    (assemble g roots).run db = (.error f, db) := by
  rw [assemble]
  refine (run_get_bind db _).trans ?_
  refine (run_check_bind hp _).trans ?_
  dsimp only
  rw [hc]
  rfl

/-- Loads the constant, takes its absolute value and saves that. -/
def absolutePlan : Plan where
  steps := [⟨some ⟨.int, 0⟩, .fresh (.load .int .first (.int, .int))⟩, ⟨none, .existing 2⟩,
    ⟨some ⟨.int, 2⟩, .fresh (.save (.int, .int) [⟨.int, 2⟩])⟩]
  slots := [⟨.int, 0⟩, ⟨.int, 2⟩]

theorem absolute_refused : assembled negatedDevice.1.db negatedDevice.2 [absolute] =
      (.error .absentKey, negatedDevice.1.db) := by
  rw [negatedDevice_graph]
  have hn : stencilNames (negatedSigns.push (.root absolute.net))
      absolutePlan.steps = ["load_int_reg0_int_int", "abs_int", "store_int_reg0_int_int"] := by
    decide +kernel
  refine assemble_error absolutePlan (by with_unfolding_all rfl) ?_
  refine (congrArg negatedDevice.1.db.callees hn).trans ?_
  rw [Database.callees_eq, show negatedDevice.1.db.object = negationDatabase.object from
    (compile_snd _ _ _ _).1, ← Database.callees_eq]
  simp [Database.callees, Database.calleesOf, Database.calledBy, negationDatabase, Object.symbol,
    Object.symbol?, Object.pointedTo, Object.pointedTo?, Database.addNames, bind, Except.bind,
    pure, Except.pure]

/-- The absolute value cannot be compiled, because there is no stencil for it. The device still
has the negation. -/
theorem absolute_compile_keeps :
    Reached id negatedDevice.2 negatedDevice.1 ∧ negatedDevice.2.Carries absolute ∧
      Loadable negatedDevice.1.db ∧
      ∃ roots d' g', negatedDevice.1.compile {} negatedDevice.2 [absolute] =
          (.error .absentKey, d', g') ∧
        Keeps id negatedDevice.2 g' roots negatedDevice.1 d' .absentKey := by
  have hc : negatedDevice.2.Carries absolute := by
    rw [negatedDevice_graph]
    rfl
  have ho := compile_error (p := {}) absolute_refused
  obtain ⟨roots, -, -, hk⟩ := (failed_compile_keeps negatedDevice_reached
    (List.forall_mem_singleton.2 hc) negatedDevice_loadable {}).1 _ _ _ ho
  exact ⟨negatedDevice_reached, hc, negatedDevice_loadable, roots, _, _, ho,
    hk (List.cons_ne_nil _ _) (by decide)⟩

theorem negated_assembled :
    ∃ a db a' db', assembled negationDatabase signs [negated] = (.ok a, db) ∧
      (a.slots.find? fun v =>
        negatedSigns.sameNet v.content negated.net).isSome ∧
      (assemble negatedSigns []).run db = (.ok a', db') := by
  have hm : stencilNames negatedSigns negationPlan.steps =
      ["load_int_reg0_int_int", "neg_int", "store_int_reg0_int_int"] := by decide +kernel
  have ha : (assemble negatedSigns [3]).run negationDatabase =
      (link negatedSigns negationPlan [] []).run negationDatabase := by
    refine (@assemble_run _ _ _ negationPlan [] [] (by with_unfolding_all rfl) ?_
      (by decide +kernel)).trans (by rw [mergeSort_nil])
    rw [hm, negation_callees]
  have hf : ((link negatedSigns negationPlan [] []).run
      negationDatabase).1.toOption.any (fun a => (a.slots.find? fun v =>
        negatedSigns.sameNet v.content negated.net).isSome) := by
    decide +kernel
  have hn : ((assemble negatedSigns []).run
      ((link negatedSigns negationPlan [] []).run
        negationDatabase).2).1.toBool := by
    decide +kernel
  rw [← ha] at hf hn
  rcases hr : (assemble negatedSigns [3]).run negationDatabase with
    ⟨_ | a, db⟩
  · rw [hr] at hf
    cases hf
  · rw [hr] at hf hn
    rcases hr' : (assemble negatedSigns []).run db with ⟨_ | a', db'⟩
    · rw [hr'] at hn
      cases hn
    · exact ⟨a, db, a', db', hr, hf, hr'⟩

/-- **A compilation of nothing empties the device.** What could be read before it cannot be read
after it. -/
theorem nothing_compiled_empties :
    Reached id negatedDevice.2 negatedDevice.1 ∧
      (negatedDevice.1.place? negatedDevice.2 negated.net).isSome ∧
      ∃ f d', negatedDevice.1.compile {} negatedDevice.2 [] = (.error f, d', negatedDevice.2) ∧
        d'.place? negatedDevice.2 negated.net = none ∧ d'.image.entry = 0 := by
  obtain ⟨a, db, a', db', hr, hf, hn⟩ := negated_assembled
  have hd : negatedDevice.1.table = a.slots ∧ negatedDevice.1.db = db := by
    have hc := compile_ok (p := {}) (d := { db := negationDatabase }) hr
    rw [negatedDevice, hc]
    exact ⟨rfl, rfl⟩
  rw [← hd.2, ← negatedDevice_graph] at hn
  obtain ⟨d', hc, ht, he⟩ :=
    compile_nothing negatedDevice_loadable (p := {}) (by decide) hn
  refine ⟨negatedDevice_reached, ?_, _, d', hc, ?_, he⟩
  · rw [place?, hd.1, negatedDevice_graph]
    exact hf
  · rw [place?, ht]
    rfl

end Device

end Patchwork
