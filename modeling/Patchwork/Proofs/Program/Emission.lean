import Patchwork.Proofs.Program.Resolution
import Patchwork.Proofs.Schedule.Plan
import Patchwork.Proofs.Stream.Extent
import Patchwork.Proofs.Stream.Format

/-!
# Emitted programs stay inside their memories

A program that was assembled is a stream of commands. It frees what was there, allocates and
fills data, allocates and fills code, patches the code, and names its entry point. Sections
and variables have places of their own in the data, sections with auxiliary functions and the
entry function have places of their own in the code, and every patch lies inside the code.
-/

namespace Patchwork

open Layout List

variable {e : RelocationEntry} {o : Object} {p : Patch} {x : Extent}

/-- The number of bytes that a relocation changes, if an address takes `width` of them. -/
def RelocationEntry.fieldSize (width : Int) (e : RelocationEntry) : Int :=
  match PatchRule.ofName? e.relocation.type with
  | some .dataAddress | some .alignedAddress => width
  | _ => 4

namespace Assembly

variable {g : Graph} {db : Database} {plan : Plan} {aux : List String} {consts : List Nat}
  {a : Assembly} {l : Parts} {width : Int} {roots : List NodeId}

/-! ## Fields -/

/-- A patch at the field of a relocation, in a function at an address. -/
structure AtField (width : Int) (e : RelocationEntry) (start : Int) (p : Patch) : Prop where
  address : p.address = e.position + start
  size : ∀ kind, Opcode.ofCode? p.command = some (.patch kind) →
    Extent.patchSize width kind = e.fieldSize width

/-- Where a patch is allowed, it changes as many bytes as its relocation has. -/
theorem patchSize_eq (rule : PatchRule) {command : Int}
    (hc : command = towardsData ∨ command = towardsCode) {kind : PatchKind}
    (hk : Opcode.ofCode? (command + rule.variant) = some (.patch kind)) :
    Extent.patchSize width kind = match some rule with
      | some .dataAddress | some .alignedAddress => width
      | _ => 4 := by
  obtain rfl | rfl := hc <;> cases rule <;>
    simp [towardsData, towardsCode, PatchRule.variant, Opcode.ofCode?, Opcode.all,
      Opcode.code] at hk <;>
    subst hk <;> rfl

theorem patch_atField {symbol start command : Int}
    (h : Database.patch o e symbol start command = .ok p)
    (hc : command = towardsData ∨ command = towardsCode) : AtField width e start p := by
  unfold Database.patch at h
  dsimp only at h
  split at h
  · next rule hr =>
    have hp : p.address = e.position + start ∧ p.command = command + rule.variant := by
      rw [PatchRule.patch] at h
      split at h
      · cases h
      · split at h
        · cases h
        · cases h
          exact ⟨rfl, rfl⟩
    refine ⟨hp.1, fun kind hk => ?_⟩
    rw [hp.2] at hk
    rw [RelocationEntry.fieldSize, hr]
    exact patchSize_eq rule hc hk
  · split at h <;> cases h

theorem stencilPatch_atField {places : Places} {net : Option Net} {name : String}
    {offset length : Int}
    (h : stencilPatch g o places net name offset length e = .ok p) : AtField width e offset p := by
  unfold stencilPatch at h
  split at h
  · split at h
    · split at h
      · cases h
      · obtain ⟨address, -, h⟩ := bind_ok h
        exact patch_atField h (.inl rfl)
    · split at h
      · exact patch_atField h (.inr rfl)
      · obtain ⟨address, -, h⟩ := bind_ok h
        exact patch_atField h (.inl rfl)
  · split at h
    · obtain ⟨address, -, h⟩ := bind_ok h
      exact patch_atField h (.inr rfl)
    · cases h

theorem auxiliaryPatch_atField {places : Places} {name : String} {start : Int}
    (h : auxiliaryPatch o places name start e = .ok (some p)) :
    AtField width e start p := by
  unfold auxiliaryPatch at h
  split at h
  · split at h <;> cases h
  · split at h
    · obtain ⟨address, -, h⟩ := bind_ok h
      obtain ⟨p', hp', h⟩ := bind_ok h
      cases h
      exact patch_atField hp' (.inl rfl)
    · split at h
      · obtain ⟨address, -, h⟩ := bind_ok h
        obtain ⟨p', hp', h⟩ := bind_ok h
        cases h
        exact patch_atField hp' (.inr rfl)
      · cases h

/-! ## Databases that contain their fields -/

/-- What is asked of a database: relocations change bytes of their stencils, or of the
sections of their functions, functions begin inside their sections, and the file has the
bytes of the sections. -/
structure Contained (width : Int) (g : Graph) (db : Database) (steps : List Step)
    (aux : List String) (consts : List Nat) : Prop where
  wide : 0 ≤ width
  stencil : ∀ s ∈ steps, ∀ e ∈ (db.handout (stencilName g s) true).entries,
    0 ≤ e.position ∧ e.position + e.fieldSize width ≤ (stencil g db s).length
  function : ∀ name ∈ aux, ∀ t, db.object.symbol name = .ok t →
    ∀ s, db.sectionAt t.sectionIndex = .ok s → t.offset < s.size ∧
      ∀ e ∈ (db.handout name false).entries, 0 ≤ t.offset + e.position ∧
        t.offset + e.position + e.fieldSize width ≤ s.size
  backed : Backed db aux consts

section

variable (hc : Contained width g db plan.steps aux consts) (h : Emits g db plan aux consts a l)

include hc h

theorem address_inside {f : String × Int}
    (hf : f ∈ l.functions.addresses) :
    ∃ t, db.object.symbol f.1 = .ok t ∧ ∃ q ∈ l.functions.sections,
      q.content = (t.sectionIndex : Int) ∧ (q.start ≤ f.2 ∧ f.2 < q.start + q.length) ∧
      ∀ e ∈ (db.handout f.1 false).entries, q.start ≤ e.position + f.2 ∧
        e.position + f.2 + e.fieldSize width ≤ q.start + q.length := by
  have hl := functions_laid h.functions
  obtain ⟨hn, t, ht, q, hq, hi, ha⟩ := hl.address f hf
  obtain ⟨s, hs, hft⟩ := hl.fits q hq
  obtain ⟨hb, hfie⟩ := hc.function f.1 hn t ht s (hi ▸ hs)
  have hlen := hft.length
  refine ⟨t, ht, q, hq, hi, by omega, fun e he => ?_⟩
  have hfiel := hfie e he
  omega

theorem exists_field (hp : p ∈ l.patches) :
    ∃ e start, AtField width e start p ∧ 0 ≤ e.position + start ∧
      e.position + start + e.fieldSize width ≤ l.size g db plan.steps := by
  have hd := (functions_laid h.functions).laid
  have hsp := hd.le
  cases h.relocated p hp with
  | @stencil before after s e _ hs he ht =>
    obtain ⟨hl, hh⟩ := hc.stencil s (by simp [hs]) e he
    refine ⟨e, _, stencilPatch_atField ht, ?_, ?_⟩
    · simp only [Parts.first]
      omega
    · simp only [Parts.size, Parts.code, Parts.first, hs, stencils, flatMap_append,
        flatMap_cons, length_append]
      omega
  | @function f e _ hf he ht =>
    obtain ⟨t, -, q, hq, -, -, hi⟩ := address_inside hc h hf
    obtain ⟨hl, hh⟩ := hi e he
    have hplc := hd.inside q hq
    refine ⟨e, f.2, auxiliaryPatch_atField ht, by omega, ?_⟩
    simp only [Parts.size]
    omega

theorem patch_inside (hp : p ∈ l.patches)
    (hx : x.code = some (l.size g db plan.steps)) : x.Admits width (patchOf p) := by
  obtain ⟨kind, hk, hm⟩ := patchCommand_ok (h.command p hp)
  obtain ⟨e, start, hf, hl, hh⟩ := exists_field hc h hp
  have hs := hf.size kind hk
  have ha := hf.address
  have ho : 0 ≤ Extent.patchSize width kind := by
    have := hc.wide
    cases kind <;> simp [Extent.patchSize, this]
  rw [hm]
  simp only [Extent.Admits, hx, Extent.Inside]
  omega

end

/-! ## Streams -/

theorem patchOf_eq (h : Emits g db plan aux consts a l) (hp : p ∈ l.patches) :
    ∃ kind, patchOf p = .patch kind p.address p.mask p.scale p.value := by
  obtain ⟨kind, -, hc⟩ := patchCommand_ok (h.command p hp)
  exact ⟨kind, hc⟩

theorem commands_unended (h : Emits g db plan aux consts a l) :
    ∀ c ∈ l.commands g db plan.steps, c.isLast = false := by
  refine Parts.forall_commands rfl rfl (fun _ _ => rfl) (fun _ _ => rfl) rfl (fun _ _ => rfl) rfl
    (fun p hp => ?_) rfl
  obtain ⟨kind, ht⟩ := patchOf_eq h hp
  rw [ht]
  rfl

theorem emits_sized (hb : Backed db aux consts) (h : Emits g db plan aux consts a l) :
    ∀ c ∈ l.commands g db plan.steps, c.Sized := by
  refine Parts.commands_sized (fun q hq => length_constantBytes hb h.sections hq)
    (fun c hc => cellCommand_sized h.slots (h.cells c hc))
    (fun q hq => length_functionBytes hb h.functions hq) fun p hp => ?_
  obtain ⟨kind, ht⟩ := patchOf_eq h hp
  rw [ht]
  trivial

/-- The runner carries the stream out command by command. -/
theorem run_emits (hl : db.object.order = .little) (hb : Backed db aux consts)
    (h : Emits g db plan aux consts a l) (p : Placement) (i : Image) :
    Image.run p i (a.stream.opcode .endCommands).bytes =
      Image.obey p i (l.commands g db plan.steps ++ [.endCommands]) := by
  obtain ⟨hencEnd, hsizedEnd⟩ := Command.encodable_of_isLast (c := .endCommands) rfl
  have hs : (a.stream.opcode .endCommands).bytes =
      (l.commands g db plan.steps ++ [Command.endCommands]).flatMap (Command.bytes .little) := by
    rw [h.wrote.bytes_closed, hl]
    simp
  rw [hs]
  exact Image.run_bytes p i (forall_mem_append.2 ⟨h.wrote.encodable, by simpa using hencEnd⟩)
    (forall_mem_append.2 ⟨emits_sized hb h, by simpa using hsizedEnd⟩)

theorem after_dataCommands (l : Parts) (db : Database) :
    ∀ c ∈ l.dataCommands db, ∀ x : Extent, x.after c = x := by
  simp only [Parts.dataCommands, mem_append, mem_map]
  rintro c (⟨q, -, rfl⟩ | ⟨w, -, rfl⟩) x <;> rfl

theorem after_codeCommands (h : Emits g db plan aux consts a l) :
    ∀ c ∈ l.codeCommands g db plan.steps, ∀ x : Extent, x.after c = x := by
  simp only [Parts.codeCommands, mem_append, mem_cons, mem_map]
  rintro c (⟨q, -, rfl⟩ | rfl | ⟨p, hp, rfl⟩) x
  · rfl
  · rfl
  · obtain ⟨kind, ht⟩ := patchOf_eq h hp
    rw [ht]
    rfl

/-- The memories of a program are too far apart for its runner. -/
def Far (p : Placement) (g : Graph) (db : Database) (steps : List Step) (l : Parts) : Prop :=
  0x7fffffff < (Image.addressOf p.data (some (l.data db)) -
    Image.addressOf p.code (some (replicate (l.size g db steps).toNat 0))).natAbs

instance (p : Placement) (steps : List Step) : Decidable (Far p g db steps l) :=
  inferInstanceAs (Decidable (_ < _))

/-- The only command of a program that can fail is the allocation of code. If it does, no entry
point is left. -/
theorem obey_commands (h : Emits g db plan aux consts a l) (p : Placement) (i : Image) :
    (Far p g db plan.steps l →
      (Image.obey p i (l.commands g db plan.steps ++ [.endCommands])).result = some (-4) ∧
      (Image.obey p i (l.commands g db plan.steps ++ [.endCommands])).image.entry = 0) ∧
    (¬ Far p g db plan.steps l → ∃ i', i.executeAll p (l.commands g db plan.steps) = some i') := by
  obtain ⟨d, hd⟩ := executeAll_data l db p i
  have ho := execute_allocateCode (p := p) (j := { data := some (l.data db), dataOffset := d })
    rfl (l.size g db plan.steps)
  dsimp only at ho
  refine ⟨fun hf => ?_, fun hn => ?_⟩
  · rw [if_pos (by simpa [Far] using hf)] at ho
    have hs : l.commands g db plan.steps ++ [.endCommands] =
        ([.freeMemory, .allocateData l.stop] ++ l.dataCommands db) ++
          (.allocateCode (l.size g db plan.steps) :: (l.codeCommands g db plan.steps ++
            [.entryPoint (l.functions.stop + if db.isThumb then 1 else 0), .endCommands])) := by
      simp [Parts.commands, Parts.size]
    obtain ⟨hm, hr⟩ := Image.obey_append hd
      (.allocateCode (l.size g db plan.steps) :: (l.codeCommands g db plan.steps ++
        [.entryPoint (l.functions.stop + if db.isThumb then 1 else 0), .endCommands]))
    rw [hs, hm, hr, Image.obey, ho]
    exact ⟨rfl, rfl⟩
  · rw [if_neg (by simpa [Far] using hn)] at ho
    have ha := Image.executeAll_append hd (Image.executeAll_cons ho [])
    have he : ∀ c ∈ l.codeCommands g db plan.steps ++
        [.entryPoint (l.functions.stop + if db.isThumb then 1 else 0)],
        c.isLast = false ∧ ∀ x : Extent, x.after c = x := by
      refine forall_mem_append.2 ⟨fun c hc => ⟨commands_unended h c ?_, after_codeCommands h c hc⟩,
        by simp [Command.isLast, Extent.after]⟩
      simp [Parts.commands, hc]
    obtain ⟨i', hi'⟩ := Image.exists_executeAll (p := p) he _
    refine ⟨i', ?_⟩
    have hend := Image.executeAll_append ha hi'
    simpa [Parts.commands, Parts.size] using hend

theorem not_far {p : Placement} {steps : List Step} (hs : 0 < l.stop)
    (hi : 0 < l.size g db steps) (hn : (p.data - p.code).natAbs ≤ 0x7fffffff) :
    ¬ Far p g db steps l := by
  rw [Far, Image.addressOf_some (by simpa [Parts.data]), Image.addressOf_some (by simpa)]
  omega

theorem dataCommands_admitted (h : Emits g db plan aux consts a l)
    (hx : x.data = some l.stop) : x.AdmitsAll width (l.dataCommands db) := by
  have hs := (sections_laid h.sections).2
  have hl := (slots_laid h.slots).2
  have hm := hs.le
  have hsp := hl.le
  refine Extent.admitsAll_of_forall (after_dataCommands l db) ?_
  simp only [Parts.dataCommands, mem_append, mem_map]
  rintro c (⟨q, hq, rfl⟩ | ⟨w, hw, rfl⟩)
  · have hp := hs.inside q hq
    simp only [Extent.Admits, Extent.Inside, hx]
    omega
  · obtain ⟨-, v, hv, ht, he⟩ := h.cells w hw
    have hp := hl.inside v hv
    simp only [Extent.Admits, Extent.Inside, hx, cellCommand]
    omega

theorem codeCommands_admitted (hc : Contained width g db plan.steps aux consts)
    (h : Emits g db plan aux consts a l) (hx : x.code = some (l.size g db plan.steps)) :
    x.AdmitsAll width (l.codeCommands g db plan.steps) := by
  have hl := (functions_laid h.functions).laid
  have hs := hl.le
  refine Extent.admitsAll_of_forall (after_codeCommands h) ?_
  simp only [Parts.codeCommands, mem_append, mem_cons, mem_map]
  rintro c (⟨q, hq, rfl⟩ | rfl | ⟨p, hp, rfl⟩)
  · have hplc := hl.inside q hq
    simp only [Extent.Admits, Extent.Inside, hx, Parts.size]
    omega
  · simp only [Extent.Admits, Extent.Inside, hx, Parts.size]
    omega
  · exact patch_inside hc h hp hx

theorem size_nonneg (h : Emits g db plan aux consts a l) : 0 ≤ l.size g db plan.steps := by
  have hl := (functions_laid h.functions).laid.le
  simp only [Parts.size]
  omega

/-- Every command stays inside the memories. -/
theorem commands_admitted (hc : Contained width g db plan.steps aux consts)
    (h : Emits g db plan aux consts a l) :
    Extent.AdmitsAll width {} (l.commands g db plan.steps) := by
  have hd : (l.dataCommands db).foldl Extent.after { data := some l.stop } =
      { data := some l.stop } := Extent.foldl_after (after_dataCommands l db)
  simp only [Parts.commands, Extent.admitsAll_append, foldl_append, foldl_cons,
    foldl_nil, Extent.after, hd, Extent.foldl_after (after_codeCommands h)]
  refine ⟨⟨⟨⟨?_, dataCommands_admitted h rfl⟩, ?_⟩, codeCommands_admitted hc h rfl⟩, ?_⟩
  · exact ⟨rfl, trivial, trivial⟩
  · exact ⟨trivial, trivial⟩
  · exact ⟨trivial, trivial⟩

/-! ## Places -/

theorem nodup_eraseDups (l : List Nat) : l.eraseDups.Nodup := by
  induction hn : l.length using Nat.strongRecOn generalizing l with
  | _ n ih =>
    cases l with
    | nil => simp
    | cons x rest =>
      rw [eraseDups_cons, nodup_cons]
      refine ⟨by simp, ih _ ?_ _ rfl⟩
      rw [← hn]
      exact Nat.lt_succ_of_le (length_filter_le _ _)

theorem constants_nodup (h : Assembles g roots db plan aux consts a) : consts.Nodup := by
  obtain ⟨indices, hi, hp⟩ := h.referred
  obtain ⟨found, -, hi⟩ := bind_ok hi
  cases hi
  rw [hp.nodup_iff, (mergeSort_perm _ _).nodup_iff]
  exact nodup_eraseDups _

theorem map_content_eq {α : Type} {xs : List α} {ps : List (Placed α)} {R : α → Placed α → Prop}
    (h : Forall₂ R xs ps) (hR : ∀ x p, R x p → p.content = x) : ps.map Placed.content = xs := by
  induction h with
  | nil => rfl
  | cons hx _ ih => simp [hR _ _ hx, ih]

theorem map_content_sections (h : Emits g db plan aux consts a l) :
    l.sections.map Placed.content = consts.map Int.ofNat := by
  refine map_content_eq (sections_laid h.sections).1 ?_
  rintro index q ⟨s, -, hc, -⟩
  exact hc

theorem map_content_slots (h : Emits g db plan aux consts a l) :
    l.slots.map Placed.content = plan.slots :=
  map_content_eq (slots_laid h.slots).1 fun _ _ hR => hR.1

/-- One cell for each net: the nets of variables differ, and every net that a step or a
request refers to is among them. -/
theorem plan_slots (tr : g.Traced) (ht : g.Requests roots)
    (h : Assembles g roots db plan aux consts a) :
    Edges.Distinct g.sameNet plan.slots ∧
      (∀ s ∈ plan.steps, ∀ n, s.net = some n → ∃ m ∈ plan.slots, g.sameNet n m) ∧
      ∀ r ∈ roots, ∀ n, g.node r = .root n → ∃ m ∈ plan.slots, g.sameNet n m := by
  obtain ⟨plan', hpl', hstp, hp⟩ := h.planned
  obtain ⟨plan'', order, kept, hpl'', hl⟩ := Schedule.exists_plan tr ht
  obtain rfl : plan' = plan'' := Except.ok.inj (hpl'.symm.trans hpl'')
  refine ⟨?_, ?_, ?_⟩
  · have hy : ∀ {m n : Net}, g.sameNet m n = false → g.sameNet n m = false := by
      intro m n hmn
      by_contra hnm
      have := Graph.sameNode_symm tr (by simpa [Graph.sameNet] using hnm)
      simp [Graph.sameNet, this] at hmn
    have hd := Graph.distinct_distinctNets tr (kept ++ plan'.steps.filterMap Step.net)
    rw [Edges.Distinct, hp.pairwise_iff hy, hl.slots]
    exact hd
  · intro s hs n hn
    have he : n ∈ kept ++ plan'.steps.filterMap Step.net :=
      mem_append_right _ (mem_filterMap.2 ⟨s, hstp ▸ hs, hn⟩)
    obtain ⟨m, hm, hsm⟩ := Graph.exists_distinctNets tr he
    exact ⟨m, hp.mem_iff.2 (hl.slots ▸ hm), hsm⟩
  · intro r hr n hn
    obtain ⟨m, hm, hsm⟩ := hl.exists_slot tr hr hn
    exact ⟨m, hp.mem_iff.2 hm, hsm⟩

/-- Places in the data: constant sections and behind them variables, apart from each other,
at multiples of their alignment or size, one for each section and one for each net that a step
or a request refers to. -/
structure DataPlaced (g : Graph) (roots : List NodeId) (db : Database) (steps : List Step)
    (consts : List Nat) (l : Parts) : Prop where
  sections : Layout.Laid 0 l.sections l.middle
  slots : Layout.Laid l.middle l.slots l.stop
  nonempty : 0 < l.stop
  contents : l.sections.map Placed.content = consts.map Int.ofNat
  once : consts.Nodup
  fits : ∀ q ∈ l.sections, ∃ s, db.sectionAt q.content = .ok s ∧ Layout.FitsSection q s
  aligned : ∀ v ∈ l.slots, 0 < v.length ∧ v.length ∣ v.start
  distinct : l.slots.Pairwise fun v w => g.sameNet v.content w.content = false
  step : ∀ s ∈ steps, ∀ n, s.net = some n → ∃ v ∈ l.slots, g.sameNet n v.content = true
  request : ∀ r ∈ roots, ∀ n, g.node r = .root n → ∃ v ∈ l.slots, g.sameNet n v.content = true

/-- Places in the code: sections with auxiliary functions, apart from each other and each
once, and behind them the entry function up to the end, which the last command names. Every
function begins inside its section. -/
structure CodePlaced (g : Graph) (db : Database) (steps : List Step) (aux : List String)
    (l : Parts) : Prop where
  sections : Layout.Laid 0 l.functions.sections l.functions.stop
  entry : ∃ start tail, db.functionCode Database.entryFunction .start = .ok start ∧
    db.functionCode Database.entryFunction .«end» = .ok tail ∧
    l.code g db steps = start ++ stencils g db steps ++ tail ∧
    l.size g db steps = l.functions.stop + (l.code g db steps).length
  named : (l.commands g db steps).getLast? =
    some (.entryPoint (l.functions.stop + if db.isThumb then 1 else 0))
  once : (l.functions.sections.map Placed.content).Nodup
  fits : ∀ q ∈ l.functions.sections, ∃ s, db.sectionAt q.content = .ok s ∧ Layout.FitsSection q s
  placed : ∀ name ∈ aux, ∃ address, (name, address) ∈ l.functions.addresses
  inside : ∀ f ∈ l.functions.addresses, ∃ t, db.object.symbol f.1 = .ok t ∧
    ∃ q ∈ l.functions.sections, q.content = (t.sectionIndex : Int) ∧
      q.start ≤ f.2 ∧ f.2 < q.start + q.length

theorem dataPlaced (tr : g.Traced) (ht : g.Requests roots) (hne : roots ≠ [])
    (h : Assembles g roots db plan aux consts a)
    (hl : Emits g db plan aux consts a l) :
    DataPlaced g roots db plan.steps consts l := by
  obtain ⟨hft, he⟩ := sections_laid hl.sections
  obtain ⟨hcls, hslt⟩ := slots_laid hl.slots
  obtain ⟨hd, hp, hu⟩ := plan_slots tr ht h
  have hc := map_content_slots hl
  have hx : ∀ n, (∃ m ∈ plan.slots, g.sameNet n m) → ∃ v ∈ l.slots, g.sameNet n v.content := by
    rw [← hc]
    simp
  have hcl : ∀ v ∈ l.slots, v.length = 4 ∧ v.length ∣ v.start := by
    intro v hv
    obtain ⟨n, -, -, hcl⟩ := exists_mem_of_forall₂_right hcls hv
    exact hcl
  have hreq : ∀ r ∈ roots, ∀ n, g.node r = .root n → ∃ v ∈ l.slots, g.sameNet n v.content :=
    fun r hr n hn => hx n (hu r hr n hn)
  refine ⟨he, hslt, ?_, map_content_sections hl, constants_nodup h, ?_, ?_, ?_, ?_, hreq⟩
  · -- The first request has a cell, and cells take four bytes.
    obtain ⟨r, hr⟩ := exists_mem_of_ne_nil roots hne
    obtain ⟨n, hn⟩ := ht r hr
    obtain ⟨v, hv, -⟩ := hreq r hr n hn
    have hplc := hslt.inside v hv
    have hlen := (hcl v hv).1
    have hm := he.le
    omega
  · intro q hq
    obtain ⟨index, -, s, hs, ho, hf⟩ := exists_mem_of_forall₂_right hft hq
    exact ⟨s, ho ▸ hs, hf⟩
  · intro v hv
    have hlen := hcl v hv
    exact ⟨by omega, hlen.2⟩
  · rw [Edges.Distinct, ← hc] at hd
    exact pairwise_map.1 hd
  · exact fun s hs n hn => hx n (hp s hs n hn)

theorem codePlaced (hc : Contained width g db plan.steps aux consts)
    (hl : Emits g db plan aux consts a l) : CodePlaced g db plan.steps aux l := by
  have hd := functions_laid hl.functions
  refine ⟨hd.laid, ⟨l.start, l.tail, hl.start, hl.tail, rfl, rfl⟩, getLast?_concat,
    hd.once, hd.fits, hd.placed, ?_⟩
  intro f hf
  obtain ⟨t, ht, q, hq, hi, hn, -⟩ := address_inside hc hl hf
  exact ⟨t, ht, q, hq, hi, hn⟩

/-! ## Programs -/

/-- A stream that stays inside its memories. It has the commands of the parts, ends with
its last byte, and runs to its end on memories that are near enough. Those that could be allocated
near each other are, unless there is no code to allocate memory for. -/
structure Emitted (width : Int) (g : Graph) (roots : List NodeId) (db : Database) (plan : Plan)
    (aux : List String) (consts : List Nat) (a : Assembly) (l : Parts) (stream : Bytes) :
    Prop where
  parsed : Command.readAll { order := db.object.order, data := stream } =
    .ok (l.commands g db plan.steps ++ [.endCommands],
      { order := db.object.order, data := stream, index := stream.length })
  run : db.object.order = .little → ∀ p i,
    Image.run p i stream = Image.obey p i (l.commands g db plan.steps ++ [.endCommands]) ∧
      (Image.run p i stream).result = (if Far p g db plan.steps l then some (-4) else some 1) ∧
      ((p.data - p.code).natAbs ≤ 0x7fffffff → Far p g db plan.steps l →
        l.size g db plan.steps = 0)
  sized : ∀ c ∈ l.commands g db plan.steps, c.Sized
  admitted : Extent.AdmitsAll width {} (l.commands g db plan.steps)
  returned : a.slots = l.slots
  data : DataPlaced g roots db plan.steps consts l
  code : CodePlaced g db plan.steps aux l

/-- **Assembled programs stay inside their memories.** Take a graph, at least one request and a
database whose fields lie inside its functions. Whatever the order of the layouts, the stream
of an assembled program, with its end, stays inside its memories. -/
theorem emitted_program_contained (tr : g.Traced) (hroots : g.Requests roots) (hne : roots ≠ [])
    (h : Assembles g roots db plan aux consts a)
    (hc : Contained width g db plan.steps aux consts) :
    ∃ l, Emitted width g roots db plan aux consts a l
      (a.stream.opcode .endCommands).bytes := by
  obtain ⟨db', hn⟩ := h.linked
  obtain ⟨l, hl⟩ := exists_emits hn
  have hs := emits_sized hc.backed hl
  have hu := commands_unended hl
  obtain ⟨hencEnd, hsizedEnd⟩ := Command.encodable_of_isLast (c := .endCommands) rfl
  have henc : ∀ c ∈ l.commands g db plan.steps ++ [.endCommands], c.Encodable :=
    List.forall_mem_append.2 ⟨hl.wrote.encodable, by simpa using hencEnd⟩
  have ha : ∀ c ∈ l.commands g db plan.steps ++ [.endCommands], c.Sized :=
    List.forall_mem_append.2 ⟨hs, by simpa using hsizedEnd⟩
  have ht : (a.stream.opcode .endCommands).bytes =
      (l.commands g db plan.steps ++ [Command.endCommands]).flatMap (Command.bytes db.object.order) := by
    rw [hl.wrote.bytes_closed]
    simp
  refine ⟨l, Command.readAll_bytes henc ha hu rfl ht, ?_, hs,
    commands_admitted hc hl, hl.returned, dataPlaced tr hroots hne h hl, codePlaced hc hl⟩
  intro hi p i
  have hr := run_emits hi hc.backed hl p i
  refine ⟨hr, ?_, fun he hf => ?_⟩
  · obtain ⟨hfails, hruns⟩ := obey_commands hl p i
    by_cases hf : Far p g db plan.steps l
    · rw [if_pos hf, hr, (hfails hf).1]
    · obtain ⟨i', ha⟩ := hruns hf
      obtain ⟨output, ho⟩ := Image.obey_of_executeAll ha
      rw [if_neg hf, hr, ho]
  · by_contra hz
    have hp := size_nonneg hl
    exact not_far (dataPlaced tr hroots hne h hl).nonempty (by omega) he hf

theorem sine_traced : sine.Traced := Graph.traced_of_checks (fun _ => false) (by decide)

theorem sine_requests : sine.Requests [2] := by
  simp [Graph.Requests, sine, Graph.node, Graph.push, Graph.empty]

theorem sine_contained : Contained 8 sine sineDatabase sinePlan.steps ["aux_sin"] [6] where
  wide := by decide
  stencil := by decide +kernel
  function := by
    intro name hn t ht s hs
    obtain rfl := mem_singleton.1 hn
    cases ht
    cases hs
    decide +kernel
  backed := sine_linkable.backed

theorem sine_emitted :
    sine.Traced ∧ sine.Requests [2] ∧
      Contained 8 sine sineDatabase sinePlan.steps ["aux_sin"] [6] ∧
      ∃ a, Assembles sine [2] sineDatabase sinePlan ["aux_sin"] [6] a ∧
        ∃ l, Emitted 8 sine [2] sineDatabase sinePlan ["aux_sin"] [6] a l
          (a.stream.opcode .endCommands).bytes := by
  obtain ⟨a, h⟩ := sine_assembles
  exact ⟨sine_traced, sine_requests, sine_contained, a, h,
    emitted_program_contained sine_traced sine_requests (by decide) h sine_contained⟩

end Assembly

end Patchwork
