import Patchwork.Proofs.History
import Patchwork.Proofs.Program.Emission
import Patchwork.Proofs.Program.Patcher
import Patchwork.Proofs.Schedule.Typing

/-!
# Variables are read as they were written

A variable of a target is a cell, which it shares with the variables that carry the same
computation. In memory it is four bytes, whose place is looked up under its net, and it is
written by a stream with one command. Both ways a whole number that fits is read back, all
other variables keep their values, and a number that does not fit is refused before anything
is written. This holds after any history: cells keep the nets that they were made for, and the
data memory keeps its size.
-/

namespace Patchwork

open Bytes Graph Image List

/-! ## Cells -/

namespace Memory

variable {g : Graph} {m : Memory} {n k : Net} {w : Word}

theorem exists_find? (h : (m.get? g n).isSome) :
    ∃ c, (m.find? fun c => g.sameNet c.1 n) = some c ∧ g.sameNet c.1 n := by
  rw [get?, Option.isSome_map] at h
  obtain ⟨c, hc⟩ := Option.isSome_iff_exists.1 h
  exact ⟨c, hc, by simpa using find?_some hc⟩

theorem find?_set (g : Graph) (m : Memory) (n k : Net) (w : Word) :
    ((m.set g n w).find? fun c => g.sameNet c.1 k) =
      (m.find? fun c => g.sameNet c.1 k).map fun c => if g.sameNet c.1 n then (c.1, w) else c := by
  rw [set, find?_map]
  congr 2
  funext c
  simp only [Function.comp_apply]
  split <;> rfl

theorem get?_set_self (h : (m.get? g n).isSome) : (m.set g n w).get? g n = some w := by
  obtain ⟨c, hc, hs⟩ := exists_find? h
  rw [get?, find?_set, hc]
  simp [hs]

theorem get?_set_of_ne (tr : g.Traced) (h : g.sameNet k n = false) :
    (m.set g n w).get? g k = m.get? g k := by
  rw [get?, get?, find?_set]
  cases hf : m.find? fun c => g.sameNet c.1 k with
  | none => rfl
  | some c =>
    have hk : g.sameNet c.1 k := by simpa using find?_some hf
    have hc : g.sameNet c.1 n = false := by
      rw [Bool.eq_false_iff]
      intro hc
      rw [(equality_sameNet tr).trans ((equality_sameNet tr).symm hk) hc] at h
      cases h
    simp [hc]

end Memory

namespace Target

variable {g : Graph} {t : Target} {v : Value}

/-- What a write to a variable does: a whole number that fits is read back, and other
variables keep what they had; a number that does not fit is refused, and the target stays as it
was. -/
structure Overwrites (g : Graph) (t : Target) (v : Value) : Prop where
  stored : ∀ x, Word.Fits x → ∃ t', t.write g (.traced v) (.plain (.int x)) = (.ok (), t') ∧
    t'.read g (.traced v) = .ok (.plain (.int x)) ∧
    ∀ w : Value, g.sameNet w.net v.net = false → t'.read g (.traced w) = t.read g (.traced w)
  refused : ∀ x, ¬ Word.Fits x → t.write g (.traced v) (.plain (.int x)) = (.error .overflow, t)

/-- The cells of a target have the types of their nodes, after any history. -/
theorem Reached.typed (h : Reached g t) :
    ∀ c ∈ t.memory, (g.node c.1.source).cell? = some c.1.cell := by
  induction h with
  | new => simp
  | trace _ he _ ih =>
    intro c hc
    have hl := ih c hc
    rwa [he.node _ (lt_size_of_cell? hl)]
  | @compile g t data h hd ih =>
    intro c hc
    obtain hc | hc := compile_cells h.traced hd t c hc
    · rw [compile_graph,
        (withRoots_requested _ [] (.refl g)).extend.node _ (lt_size_of_cell? (ih c hc))]
      exact ih c hc
    · exact hc
  | access _ a ih => exact typed_of_keys (kept_access _ _ a).keys ih

/-- Writing a whole number to a variable stores its word, if there is one. -/
theorem writeValue_int (tr : g.Traced)
    (ht : ∀ c ∈ t.memory, (g.node c.1.source).cell? = some c.1.cell) (hv : g.Carries v)
    (hl : v.net.cell = .int) (hp : (t.memory.get? g v.net).isSome) (x : Int) :
    t.writeValue g v (.plain (.int x)) = do
      return { t with memory := t.memory.set g v.net (← Word.ofInt x) } := by
  obtain ⟨⟨n, w⟩, hc, hs⟩ := Memory.exists_find? hp
  have hn : n.cell = .int := by
    have hk := ht _ (mem_of_find?_eq_some hc)
    rw [cell?_of_sameNode tr.wellFormed hs, hv, hl] at hk
    exact (Option.some.inj hk).symm
  rw [writeValue, hc]
  simp only [hn]
  rfl

theorem write_traced (g : Graph) (t : Target) (v : Value) (n : Number) :
    t.write g (.traced v) (.plain n) = match t.writeValue g v (.plain n) with
      | .ok t' => (.ok (), t')
      | .error f => (.error f, t) := by
  rfl

theorem Reached.overwrites (h : Reached g t) (hv : g.Carries v) (hk : v.kind = .int)
    (hl : v.net.cell = .int) (hc : (t.memory.get? g v.net).isSome) : Overwrites g t v := by
  have tr := h.traced
  have hr := writeValue_int tr h.typed hv hl hc
  refine ⟨fun x hx =>
    ⟨{ t with memory := t.memory.set g v.net (.whole x) }, ?_, ?_, fun w hw => ?_⟩, fun x hx => ?_⟩
  · rw [write_traced, hr, Word.ofInt_of_fits hx]
    rfl
  · have hd : (Word.whole x).number .int = .int x := by
      rw [Word.number, Word.signed_whole, Word.toInt_ofInt hx]
    simp only [Datum.traced, read, readValue, Memory.get?_set_self hc, hk, hd]
    rfl
  · simp only [Datum.traced, read, readValue, Memory.get?_set_of_ne tr hw]
  · have hn : Word.ofInt x = .error .overflow := by
      rw [Word.ofInt]
      simpa [Word.fits, Word.Fits] using hx
    rw [write_traced, hr, hn]
    rfl

end Target

/-! ## Sizes of memories -/

namespace Image

variable {p : Placement} {i i' : Image}

def extent (i : Image) : Extent := ⟨i.data.map (·.length), i.code.map (·.length)⟩

theorem extent_measured (p : Placement) (i : Image) : (measured p i).image.extent = i.extent := by
  rw [measured]
  split <;> rfl

theorem extent_execute {c : Command} (h : c.Encodable) :
    (i.execute p c).image.extent = i.extent.after c := by
  cases c with
  | allocateData size | allocateCode size =>
    have hs : 0 ≤ size := (inRange_unsigned.1 (h _ mem_cons_self)).1
    rw [execute, extent_measured]
    simp [extent, Extent.after, hs]
  | copyData offset size payload | copyCode offset size payload =>
    simp [execute, extent, Extent.after, Function.comp_def, length_overwrite]
  | patch kind offset mask scale value =>
    simp [execute, extent, Extent.after, Function.comp_def, length_patched]
  | _ => rfl

/-- Commands allocate what they say and nothing else. -/
theorem extent_executeAll {cs : List Command} (he : ∀ c ∈ cs, c.Encodable)
    (h : i.executeAll p cs = some i') : i'.extent = cs.foldl Extent.after i.extent := by
  induction cs generalizing i with
  | nil =>
    cases h
    rfl
  | cons c rest ih =>
    obtain ⟨hc, hr⟩ := forall_mem_cons.1 he
    obtain ⟨i₁, hs, h⟩ := Option.bind_eq_some_iff.1 h
    obtain ⟨-, rfl⟩ : (i.execute p c).result = none ∧ (i.execute p c).image = i₁ := by
      simpa [step?] using hs
    rw [ih hr h, extent_execute hc, foldl_cons]

theorem executeAll_of_obey {cs : List Command} (hs : ∀ c ∈ cs, c.isLast = false) {output : String}
    (h : obey p i (cs ++ [.endCommands]) = { image := i', result := some 1, output }) :
    i.executeAll p cs = some i' := by
  induction cs generalizing i output with
  | nil =>
    cases h
    rfl
  | cons c rest ih =>
    obtain ⟨hc, hrs⟩ := forall_mem_cons.1 hs
    rw [cons_append, obey] at h
    cases hr : (i.execute p c).result with
    | none =>
      simp only [hr, Outcome.mk.injEq] at h
      rw [executeAll, foldlM_cons, step?, hr]
      have ho : obey p (i.execute p c).image (rest ++ [.endCommands]) =
          { image := i', result := some 1,
            output := (obey p (i.execute p c).image (rest ++ [.endCommands])).output } := by
        rw [← h.1, ← h.2.1]
      exact ih hrs ho
    | some r =>
      -- Only memories that are too far apart end a stream before its end.
      simp only [hr] at h
      cases c with
      | allocateData size | allocateCode size =>
        simp only [execute, measured] at h
        split at h <;> cases h
      | endCommands | dumpCode => cases hc
      | _ => cases hr

end Image

/-! ## Places -/

namespace Assembly

variable {g : Graph} {roots : List NodeId} {db : Database} {plan : Plan} {aux : List String}
  {consts : List Nat} {a : Assembly} {l : Parts} {p : Placement} {i i' : Image} {n : Net}
  {v : Placed Net}

def place? (g : Graph) (a : Assembly) (n : Net) : Option (Placed Net) :=
  a.slots.find? fun v => g.sameNet v.content n

def writing (order : ByteOrder) (v : Placed Net) (x : Number) : Except Fault Bytes := do
  let w ← (do
    let w ← (({ order } : Writer).opcode .copyData).int v.start
    let w ← w.int v.length
    w.value x v.length.toNat)
  return (w.opcode .endCommands).bytes

/-- Images with a history: the program is loaded, variables are written, and the program is
run, which may change its data in any way but does not resize them. -/
inductive Loaded (p : Placement) (g : Graph) (a : Assembly) : Image → Prop
  | load {i i' : Image} {output : String}
      (h : Image.run p i (a.stream.opcode .endCommands).bytes =
        { image := i', result := some 1, output }) : Loaded p g a i'
  | write {i i' : Image} {n : Net} {v : Placed Net} {x : Number} {stream : Bytes} {output : String}
      (h : Loaded p g a i) (hv : a.place? g n = some v) (hx : writing .little v x = .ok stream)
      (hrun : Image.run p i stream = { image := i', result := some 1, output }) : Loaded p g a i'
  | run {i : Image} {data data' : Bytes} (h : Loaded p g a i) (hdata : i.data = some data)
      (hsize : data'.length = data.length) : Loaded p g a { i with data := some data' }

/-- What a write to the place of a variable does: the stream of a whole number that fits is
carried out, the number is read back, and the bytes of other variables are those that were there;
for a number that does not fit there is no stream. -/
structure Overwrites (p : Placement) (g : Graph) (a : Assembly) (i : Image) (n : Net)
    (v : Placed Net) : Prop where
  stored : ∀ x, Word.Fits x → ∃ stream i' output, writing .little v (.int x) = .ok stream ∧
    Image.run p i stream = { image := i', result := some 1, output } ∧
    (Image.read (some i') v.start v.length).map (Bytes.toInt .little true) = .ok x ∧
    ∀ m u, a.place? g m = some u → g.sameNet m n = false →
      ∃ bs, Image.read (some i) u.start u.length = .ok bs ∧
        Image.read (some i') u.start u.length = .ok bs
  refused : ∀ x, ¬ Word.Fits x → writing .little v (.int x) = .error .overflow

theorem place_inside (hl : Emits g db plan aux consts a l) (hv : a.place? g n = some v) :
    v ∈ l.slots ∧ g.sameNet v.content n ∧ v.length = 4 ∧ 0 ≤ v.start ∧
      v.start + 4 ≤ l.stop ∧ l.stop < 2 ^ 32 := by
  have hm : v ∈ l.slots := hl.returned ▸ mem_of_find?_eq_some hv
  obtain ⟨hc, hs⟩ := Layout.slots_laid hl.slots
  obtain ⟨m, -, -, he, -⟩ := exists_mem_of_forall₂_right hc hm
  have hi := (Layout.sections_laid hl.sections).2.le
  have hp := hs.inside v hm
  have hsp : (Command.allocateData l.stop).Encodable :=
    hl.wrote.encodable _ (by simp [Parts.commands])
  have hr := inRange_unsigned.1 (hsp _ mem_cons_self)
  refine ⟨hm, by simpa using find?_some hv, he, by omega, by omega, hr.2⟩

theorem places_apart (tr : g.Traced) (hl : Emits g db plan aux consts a l)
    (hv : a.place? g n = some v) {m : Net} {u : Placed Net} (hu : a.place? g m = some u)
    (hn : g.sameNet m n = false) : u.start + u.length ≤ v.start ∨ v.start + v.length ≤ u.start := by
  obtain ⟨hm, hvn, -⟩ := place_inside hl hv
  obtain ⟨hm', hum, -⟩ := place_inside hl hu
  refine (Layout.slots_laid hl.slots).2.disjoint hm' hm ?_
  rintro rfl
  rw [(equality_sameNet tr).trans ((equality_sameNet tr).symm hum) hvn] at hn
  cases hn

theorem after_commands (hl : Emits g db plan aux consts a l) (x : Extent) :
    (l.commands g db plan.steps).foldl Extent.after x =
      ⟨some l.stop, some (l.size g db plan.steps)⟩ := by
  simp only [Parts.commands, foldl_append, foldl_cons, foldl_nil, Extent.after,
    Extent.foldl_after (after_dataCommands l db), Extent.foldl_after (after_codeCommands hl)]
  rfl

theorem run_writing (hv : v.length = 4) {x : Number} {stream : Bytes}
    (hx : writing .little v x = .ok stream) :
    ∃ payload : Bytes, payload.length = 4 ∧ (∀ y, x = .int y → payload = Command.word .little y) ∧
      ∀ p i, ∃ output, Image.run p i stream =
        { image := { i with data := i.data.map fun bs => bs.overwrite v.start.toNat payload }
          result := some 1, output } := by
  obtain ⟨w, hw, hs⟩ := bind_ok hx
  cases hs
  obtain ⟨payload, hr, hl, hh⟩ := wrote_cell hv hw
  refine ⟨payload, hl, hh, fun p i => ?_⟩
  rw [hr.bytes_closed]
  refine run_commands hr.encodable ?_ rfl
  simp [cellCommand, Command.Sized, hv, hl]

theorem writing_int (hv : v.length = 4) (ho : 0 ≤ v.start) (hh : v.start < 2 ^ 32) (x : Int) :
    (Word.Fits x → ∃ stream, writing .little v (.int x) = .ok stream) ∧
      (¬ Word.Fits x → writing .little v (.int x) = .error .overflow) := by
  obtain ⟨w₁, hs⟩ := (Writer.int_ok_iff (({ order := .little } : Writer).opcode .copyData)
    v.start 4 false).2 (inRange_unsigned.2 ⟨ho, hh⟩)
  obtain ⟨w₂, hl⟩ := (Writer.int_ok_iff w₁ v.length 4 false).2 (inRange_unsigned.2 (by omega))
  have hw : writing .little v (.int x) = do
      let w ← w₂.int x 4 true
      return (w.opcode .endCommands).bytes := by
    rw [writing, hs, hv]
    rw [hv] at hl
    simp only [bind, Except.bind, hl]
    rfl
  rw [hw]
  refine ⟨fun hx => ?_, fun hx => ?_⟩
  · obtain ⟨w₃, ha⟩ := (Writer.int_ok_iff w₂ x 4 true).2 (inRange_signed.2 hx)
    rw [ha]
    exact ⟨_, rfl⟩
  · have hr : ¬ Bytes.inRange 4 true x := fun h => hx (inRange_signed.1 h)
    rw [(Writer.int_error hr).1]
    rfl

/-- The data memory keeps its size, after any history. -/
theorem Loaded.exists_data (hle : db.object.order = .little)
    (hb : Backed db aux consts) (hl : Emits g db plan aux consts a l)
    (h : Loaded p g a i) : ∃ data, i.data = some data ∧ (data.length : Int) = l.stop := by
  induction h with
  | @load i i' output h =>
    rw [run_emits hle hb hl p i] at h
    have he := extent_executeAll hl.wrote.encodable (executeAll_of_obey (commands_unended hl) h)
    rw [after_commands hl] at he
    exact Option.map_eq_some_iff.1 (congrArg Extent.data he)
  | @write i i' n v x stream output h hv hx hr ih =>
    obtain ⟨data, hd, hs⟩ := ih
    obtain ⟨payload, -, -, hw⟩ := run_writing (place_inside hl hv).2.2.1 hx
    obtain ⟨output', hr'⟩ := hw p i
    cases hr.symm.trans hr'
    exact ⟨data.overwrite v.start.toNat payload, by simp [hd], by rw [length_overwrite, hs]⟩
  | @run i data data' h hd hs ih =>
    obtain ⟨data'', hd'', hs''⟩ := ih
    cases hd.symm.trans hd''
    exact ⟨data', rfl, by rw [hs, hs'']⟩

theorem read_inside {data : Bytes} (hd : i.data = some data) {start length : Int}
    (hl : 0 ≤ start) (hp : 0 < length) (hi : start + length ≤ data.length)
    (hs : start + length < 2 ^ 64) :
    Image.read (some i) start length = .ok ((data.drop start.toNat).take length.toNat) := by
  rw [Image.read, if_neg (by omega)]
  simp only [hd]
  rw [if_neg (by omega)]

theorem Loaded.overwrites (tr : g.Traced) (hle : db.object.order = .little)
    (hb : Backed db aux consts) (hl : Emits g db plan aux consts a l)
    (h : Loaded p g a i) (hv : a.place? g n = some v) : Overwrites p g a i n v := by
  obtain ⟨-, -, he, ho, hh, hsp⟩ := place_inside hl hv
  obtain ⟨data, hd, hs⟩ := h.exists_data hle hb hl
  refine ⟨fun x hx => ?_, fun x hx => (writing_int he ho (by omega) x).2 hx⟩
  obtain ⟨stream, ht⟩ := (writing_int he ho (by omega) x).1 hx
  obtain ⟨payload, hp, hw, hn⟩ := run_writing he ht
  obtain ⟨output, hr⟩ := hn p i
  rw [hd, Option.map_some] at hr
  have hs' := length_overwrite data v.start.toNat payload
  refine ⟨stream, _, output, ht, hr, ?_, fun m u hu hne => ?_⟩
  · have hk : ((data.overwrite v.start.toNat payload).drop v.start.toNat).take v.length.toNat =
        payload := by
      have h4 : v.length.toNat = payload.length := by omega
      rw [h4]
      exact take_drop_overwrite_self (by omega)
    rw [read_inside rfl ho (by omega) (by omega) (by omega), hk, hw x rfl, Except.map,
      Command.word, toInt_ofNat (inRange_signed.2 hx)]
  · have ha := places_apart tr hl hv hu hne
    obtain ⟨-, -, he', ho', hh', -⟩ := place_inside hl hu
    refine ⟨_, read_inside hd ho' (by omega) (by omega) (by omega), ?_⟩
    rw [read_inside rfl ho' (by omega) (by omega) (by omega),
      take_drop_overwrite_of_apart (by omega) (by omega)]

theorem backed_of_sections
    (h : ∀ s ∈ db.object.sections, (db.object.sectionData s).length = s.size) :
    Backed db aux consts := by
  have ha : ∀ {k : Int} {s : Section}, db.sectionAt k = .ok s → s ∈ db.object.sections := by
    intro k s hs
    rw [Database.sectionAt, Sequence.at] at hs
    generalize (if k < 0 then _ else _) = j at hs
    split at hs
    · cases hs
    · split at hs
      · next hf =>
        cases hs
        exact mem_of_getElem? hf
      · cases hs
  exact ⟨fun _ _ _ _ s hs => h s (ha hs), fun _ _ s hs => h s (ha hs)⟩

/-- A program is loaded wherever its memories are near enough. -/
theorem exists_loaded (he : db.object.order = .little) (hb : Backed db aux consts)
    (hl : Emits g db plan aux consts a l) (hn : ¬ Far p g db plan.steps l) :
    ∃ i, Loaded p g a i := by
  obtain ⟨i', ha⟩ := (obey_commands hl p {}).2 hn
  obtain ⟨output, hr⟩ := obey_of_executeAll ha
  exact ⟨i', .load ((run_emits he hb hl p {}).trans hr)⟩

end Assembly

/-! ## Variables -/

namespace Variables

/-- **Variables are read as they were written, and writes touch nothing else.** Take a whole
variable that was compiled. After any history a whole number that fits is read back from its cell,
and from its place in the data memory; what other variables hold stays as it was, in cells and in
bytes. A number that does not fit is refused, and nothing is written. -/
theorem written_is_read {v : Value} (hkind : v.kind = .int) (hcell : v.net.cell = .int) :
    (∀ g t, Target.Reached g t → g.Carries v → (t.memory.get? g v.net).isSome →
      Target.Overwrites g t v) ∧
    ∀ g roots db plan aux consts a, g.Traced →
      Assembly.Assembles g roots db plan aux consts a →
      Assembly.Backed db aux consts → db.object.order = .little →
      ∀ p i place, Assembly.Loaded p g a i → a.place? g v.net = some place →
        Assembly.Overwrites p g a i v.net place := by
  refine ⟨fun g t h hv hc => h.overwrites hv hkind hcell hc, ?_⟩
  intro g roots db plan aux consts a tr ha hb hi p i place h hp
  obtain ⟨db', hn⟩ := ha.linked
  obtain ⟨l, hl⟩ := Assembly.exists_emits hn
  exact h.overwrites tr hi hb hl hp

def negation : Graph :=
  (Graph.empty.push (.constant (.int 7) false)).push (.apply .neg [⟨.int, 0⟩] false)

def operand : Value := ⟨⟨.int, 0⟩, .int⟩

def negated : Value := ⟨⟨.int, 1⟩, .int⟩

def negationCompiled : Except Fault Unit × Target × Graph :=
  Target.compile {} negation [.traced negated]

def negationKept : Graph := negation.push (.root negated.net)

/-- Loads the constant, negates it and saves that. -/
def negationPlan : Plan where
  steps := [⟨some ⟨.int, 0⟩, .fresh (.load .int .first (.int, .int))⟩, ⟨none, .existing 1⟩,
    ⟨some ⟨.int, 1⟩, .fresh (.save (.int, .int) [⟨.int, 1⟩])⟩]
  slots := [⟨.int, 0⟩, ⟨.int, 1⟩]

/-- A small machine that loads, negates and stores whole numbers. -/
def negationDatabase : Database where
  object := {
    raw := [0x90, 0xe8, 0, 0, 0, 0, 0xc3,
      0x8b, 0x05, 0, 0, 0, 0, 0xe9, 0, 0, 0, 0,
      0xf7, 0xd8, 0xe9, 0, 0, 0, 0,
      0x89, 0x05, 0, 0, 0, 0, 0xe9, 0, 0, 0, 0]
    order := .little
    sections := [⟨0, "", .null, 0, 0, 0, 0, 0, 0, 0⟩,
      ⟨1, ".text.entry", .progbits, 6, 0, 7, 0, 0, 16, 0⟩,
      ⟨2, ".text.load", .progbits, 6, 7, 11, 0, 0, 16, 0⟩,
      ⟨3, ".text.neg", .progbits, 6, 18, 7, 0, 0, 16, 0⟩,
      ⟨4, ".text.save", .progbits, 6, 25, 11, 0, 0, 16, 0⟩]
    symbols := [
      ⟨0, "entry_function_shell", .function, 1, 0, 7, false,
        [⟨2, "R_X86_64_PLT32", -4, some 4, some 1⟩]⟩,
      ⟨1, "load_int_reg0_int_int", .function, 2, 0, 11, false,
        [⟨2, "R_X86_64_PC32", -4, some 5, some 2⟩, ⟨7, "R_X86_64_PLT32", -4, some 4, some 2⟩]⟩,
      ⟨2, "neg_int", .function, 3, 0, 7, false,
        [⟨3, "R_X86_64_PLT32", -4, some 4, some 3⟩]⟩,
      ⟨3, "store_int_reg0_int_int", .function, 4, 0, 11, false,
        [⟨2, "R_X86_64_PC32", -4, some 5, some 4⟩, ⟨7, "R_X86_64_PLT32", -4, some 4, some 4⟩]⟩,
      ⟨4, "result_int", .noType, 0, 0, 0, false, []⟩,
      ⟨5, "dummy_int", .noType, 0, 0, 0, false, []⟩] }
  definitions := [("entry_function_shell", "int"), ("load_int_reg0_int_int", "int"),
    ("neg_int", "int"), ("store_int_reg0_int_int", "int")]
  isThumb := false

theorem negation_traced : negation.Traced := traced_of_checks (fun _ => false) (by decide)

theorem negationCompiled_reached : Target.Reached negationCompiled.2.2 negationCompiled.2.1 := by
  refine (Target.Reached.new negation_traced).compile fun v hv => ?_
  obtain rfl := mem_singleton.1 (show v ∈ [negated] from hv)
  rfl

theorem negation_callees : negationDatabase.callees
    ["load_int_reg0_int_int", "neg_int", "store_int_reg0_int_int"] = .ok [] := by
  simp [Database.callees, Database.calleesOf, Database.calledBy, negationDatabase, Object.symbol,
    Object.symbol?, Object.pointedTo, Object.pointedTo?, Database.addNames, bind, Except.bind,
    pure, Except.pure]

theorem negation_assembles :
    ∃ a, Assembly.Assembles negationKept [2] negationDatabase negationPlan [] [] a ∧
      (a.place? negationKept operand.net).isSome := by
  have hp : Plan.ofRoots negationKept [2] = .ok negationPlan := by with_unfolding_all rfl
  have hn : Assembly.stencilNames negationKept negationPlan.steps =
      ["load_int_reg0_int_int", "neg_int", "store_int_reg0_int_int"] := by decide +kernel
  have hc : negationDatabase.callees
      (Assembly.stencilNames negationKept negationPlan.steps) = .ok [] := by
    rw [hn, negation_callees]
  have hs : negationDatabase.constantSections (Database.addNames []
      (Assembly.stencilNames negationKept negationPlan.steps)) = .ok [] := by
    decide +kernel
  have hl : ((Assembly.link negationKept negationPlan [] []).run negationDatabase).1.toOption.any
      (fun a => (a.place? negationKept operand.net).isSome) := by
    decide +kernel
  rcases hr : (Assembly.link negationKept negationPlan [] []).run negationDatabase with
    ⟨_ | a, db'⟩
  · rw [hr] at hl
    cases hl
  · rw [hr] at hl
    exact ⟨a, ⟨⟨negationPlan, hp, rfl, .refl _⟩, ⟨_, hc, .refl _⟩, ⟨_, hs, .refl _⟩, ⟨db', hr⟩⟩, hl⟩

theorem operand_written :
    Target.Reached negationCompiled.2.2 negationCompiled.2.1 ∧
      (negationCompiled.2.1.memory.get? negationCompiled.2.2 operand.net).isSome ∧
      Target.Overwrites negationCompiled.2.2 negationCompiled.2.1 operand ∧
      ∃ a i place, Assembly.Assembles negationKept [2] negationDatabase negationPlan [] [] a ∧
        Assembly.Loaded {} negationKept a i ∧ a.place? negationKept operand.net = some place ∧
        Assembly.Overwrites {} negationKept a i operand.net place := by
  have hc : (negationCompiled.2.1.memory.get? negationCompiled.2.2 operand.net).isSome := by
    with_unfolding_all rfl
  have hr : negationCompiled.2.2.Carries operand := by with_unfolding_all rfl
  obtain ⟨hs, he⟩ := written_is_read (v := operand) rfl rfl
  refine ⟨negationCompiled_reached, hc,
    hs _ _ negationCompiled_reached hr hc, ?_⟩
  obtain ⟨a, ha, hp⟩ := negation_assembles
  obtain ⟨place, hp⟩ := Option.isSome_iff_exists.1 hp
  obtain ⟨db', hn⟩ := ha.linked
  obtain ⟨l, hl⟩ := Assembly.exists_emits hn
  have hb : Assembly.Backed negationDatabase [] [] :=
    Assembly.backed_of_sections (by decide +kernel)
  have hnear : ¬ Assembly.Far {} negationKept negationDatabase negationPlan.steps l := by
    have ht : negationDatabase.functionCode Database.entryFunction .start = .ok [0x90] := by
      decide +kernel
    refine Assembly.not_far (Assembly.stop_pos hl (by decide)) ?_ (by decide)
    have ho := (Layout.functions_laid hl.functions).laid.le
    simp only [Assembly.Parts.size, Assembly.Parts.code,
      ← Except.ok.inj (ht.symm.trans hl.start), List.length_append, List.length_cons]
    omega
  obtain ⟨i, hi⟩ := Assembly.exists_loaded (p := {}) rfl hb hl hnear
  exact ⟨a, i, place, ha, hi, hp,
    he _ _ _ _ _ _ _ (negation_traced.push_root (v := negated) rfl) ha hb rfl _ _ _ hi hp⟩

end Variables

end Patchwork
