import Patchwork.Proofs.Machine.Image
import Patchwork.Proofs.Program.Layout
import Patchwork.Proofs.Program.Patches

/-!
# What linking puts together

Linking lays out the data, puts the stencils one after the other, resolves the relocations
and writes all of it as commands. This module says which parts a program is made of once
linking has succeeded: the layouts, the code of the stencils, the patches, and the commands
in their order.
-/

namespace Patchwork

open Command List Writer

namespace Assembly

variable {α β : Type} {g : Graph} {db db' db'' : Database} {places : Places}

/-! ## Computations that succeed -/

/-- A computation on a database succeeds with a result, and leaves a database. -/
def Gives (x : Build α) (db : Database) (a : α) (db' : Database) : Prop := x.run db = (.ok a, db')

theorem gives_bind {x : Build α} {f : α → Build β} {b : β} (h : Gives (x >>= f) db b db'') :
    ∃ a db', Gives x db a db' ∧ Gives (f a) db' b db'' := by
  change ExceptT.bindCont f (x.run db).1 (x.run db).2 = (.ok b, db'') at h
  cases hx : x.run db with
  | mk outcome db₁ =>
    rw [hx] at h
    cases outcome with
    | error e => cases h
    | ok a => exact ⟨a, db₁, hx, h⟩

theorem gives_pure {a b : α} (h : Gives (pure a) db b db') : b = a ∧ db = db' := by
  cases h
  exact ⟨rfl, rfl⟩

theorem gives_check {r : Except Fault α} {f : α → Build β} {b : β}
    (h : Gives (check r >>= f) db b db') : ∃ a, r = .ok a ∧ Gives (f a) db b db' := by
  cases r with
  | error e => cases h
  | ok a => exact ⟨a, rfl, h⟩

theorem check_bind (r : Except Fault α) (f : α → Except Fault β) :
    (check r >>= fun a => check (f a)) = check (r >>= f) := by
  cases r <;> rfl

theorem foldlM_check (f : α → β → Except Fault α) (xs : List β) (a : α) :
    xs.foldlM (fun a x => check (f a x)) a = check (xs.foldlM f a) := by
  induction xs generalizing a with
  | nil => rfl
  | cons x rest ih =>
    rw [foldlM_cons, foldlM_cons, ← check_bind]
    exact bind_congr ih

theorem gives_eachRelocation {σ : Type} {name : String} {stencil : Bool} {s s' : σ}
    {act : σ → RelocationEntry → Except Fault σ}
    (h : Gives (eachRelocation name stencil s act) db s' db') :
    (db.handout name stencil).entries.foldlM act s = .ok s' ∧ db.HandsOut db' :=
  Database.eachRelocation_ok h

/-! ## Patches one after the other -/

theorem exists_mem_of_forall₂_left {R : α → β → Prop} {xs : List α} {ys : List β}
    (h : Forall₂ R xs ys) {x : α} (hx : x ∈ xs) : ∃ y ∈ ys, R x y := by
  induction h with
  | nil => cases hx
  | cons hR _ ih =>
    obtain rfl | hx := mem_cons.1 hx
    · exact ⟨_, mem_cons_self, hR⟩
    · obtain ⟨y, hy, hR'⟩ := ih hx
      exact ⟨y, mem_cons_of_mem _ hy, hR'⟩

theorem exists_mem_of_forall₂_right {R : α → β → Prop} {xs : List α} {ys : List β}
    (h : Forall₂ R xs ys) {y : β} (hy : y ∈ ys) : ∃ x ∈ xs, R x y :=
  exists_mem_of_forall₂_left h.flip hy

theorem patches_foldlM {act : List Patch → RelocationEntry → Except Fault (List Patch)}
    {R : RelocationEntry → Option Patch → Prop} {es : List RelocationEntry}
    (ha : ∀ e ps ps', act ps e = .ok ps' → ∃ r, R e r ∧ ps' = ps ++ r.toList)
    {ps ps' : List Patch} (h : es.foldlM act ps = .ok ps') :
    ∃ new, ps' = ps ++ new ∧ (∀ p ∈ new, ∃ e ∈ es, R e (some p)) ∧
      ∀ e ∈ es, ∃ r, R e r ∧ ∀ p ∈ r, p ∈ new := by
  induction es generalizing ps with
  | nil =>
    cases h
    exact ⟨[], by simp, by simp, by simp⟩
  | cons e rest ih =>
    obtain ⟨ps₁, he, h⟩ := bind_ok h
    obtain ⟨r, hR, rfl⟩ := ha e ps ps₁ he
    obtain ⟨new, rfl, hs, hc⟩ := ih h
    refine ⟨r.toList ++ new, by simp, ?_, ?_⟩
    · intro p hp
      obtain hp | hp := mem_append.1 hp
      · obtain rfl := Option.mem_toList.1 hp
        exact ⟨e, mem_cons_self, hR⟩
      · obtain ⟨e', he', hR'⟩ := hs p hp
        exact ⟨e', mem_cons_of_mem e he', hR'⟩
    · intro e' he'
      obtain rfl | he' := mem_cons.1 he'
      · exact ⟨r, hR, fun p hp => mem_append_left _ (Option.mem_toList.2 hp)⟩
      · obtain ⟨r', hR', hm⟩ := hc e' he'
        exact ⟨r', hR', fun p hp => mem_append_right _ (hm p hp)⟩

def stencilName (g : Graph) (s : Step) : String := (Schedule.content g s.run).name

def stencil (g : Graph) (db : Database) (s : Step) : Bytes :=
  (db.stencilCode (stencilName g s)).toOption.getD []

def stencils (g : Graph) (db : Database) (steps : List Step) : Bytes := steps.flatMap (stencil g db)

theorem addStep_ok {c c' : Code} {s : Step} {db₁ db₂ : Database}
    (h : Gives (addStep g db places c s) db₁ c' db₂) :
    c'.bytes = c.bytes ++ stencil g db s ∧ c'.offset = c.offset + (stencil g db s).length ∧
      db₁.HandsOut db₂ ∧ ∃ new, c'.patches = c.patches ++ new ∧
        (∀ p ∈ new, ∃ e ∈ (db₁.handout (stencilName g s) true).entries,
          stencilPatch g db.object places s.net (stencilName g s) c.offset
            (stencil g db s).length e = .ok p) ∧
        ∀ e ∈ (db₁.handout (stencilName g s) true).entries, ∃ p ∈ new,
          stencilPatch g db.object places s.net (stencilName g s) c.offset
            (stencil g db s).length e = .ok p := by
  rw [addStep] at h
  split at h
  · obtain ⟨data, hd, h⟩ := gives_check h
    obtain ⟨patches, db₂', hl, h⟩ := gives_bind h
    obtain ⟨ht, ho⟩ := gives_eachRelocation hl
    obtain ⟨rfl, rfl⟩ := gives_pure h
    have hs : stencil g db s = data := by
      rw [stencil, stencilName, hd]
      rfl
    rw [hs]
    obtain ⟨new, hn, hu, hc⟩ := patches_foldlM
      (R := fun e r => ∃ p, r = some p ∧ stencilPatch g db.object places s.net
        (stencilName g s) c.offset data.length e = .ok p) (fun e ps ps' hst => by
        obtain ⟨p, hp, hst⟩ := bind_ok hst
        cases hst
        exact ⟨some p, ⟨p, rfl, hp⟩, rfl⟩) ht
    refine ⟨rfl, rfl, ho, new, hn, fun p hp => ?_, fun e he => ?_⟩
    · obtain ⟨e, he, p', hp', hpt⟩ := hu p hp
      cases hp'
      exact ⟨e, he, hpt⟩
    · obtain ⟨r, ⟨p, rfl, hpt⟩, hm⟩ := hc e he
      exact ⟨p, hm p rfl, hpt⟩
  · obtain ⟨_, _, hh, _⟩ := gives_bind h
    cases hh

/-- A patch that a relocation has: in the stencil of a step, or in an auxiliary function. The
first stencil lies at `first`. -/
inductive Relocated (g : Graph) (db : Database) (places : Places) (first : Int) (steps : List Step) :
    Patch → Prop
  | stencil {before after : List Step} {s : Step} {e : RelocationEntry} {p : Patch}
      (hsplit : steps = before ++ s :: after)
      (he : e ∈ (db.handout (stencilName g s) true).entries)
      (hp : stencilPatch g db.object places s.net (stencilName g s)
        (first + (stencils g db before).length) (stencil g db s).length e = .ok p) :
      Relocated g db places first steps p
  | function {f : String × Int} {e : RelocationEntry} {p : Patch} (hf : f ∈ places.functions)
      (he : e ∈ (db.handout f.1 false).entries)
      (hp : auxiliaryPatch db.object places f.1 f.2 e = .ok (some p)) :
      Relocated g db places first steps p

/-- Every relocation of every stencil has its patch, and the stencils come one after the
other. -/
theorem addSteps_ok {steps : List Step} {c c' : Code} {db₁ db₂ : Database}
    (hd : db.HandsOut db₁) (h : Gives (steps.foldlM (addStep g db places) c) db₁ c' db₂) :
    c'.bytes = c.bytes ++ stencils g db steps ∧
      c'.offset = c.offset + (stencils g db steps).length ∧ db.HandsOut db₂ ∧
      ∃ new, c'.patches = c.patches ++ new ∧
        (∀ p ∈ new, ∃ before s after, steps = before ++ s :: after ∧
          ∃ e ∈ (db.handout (stencilName g s) true).entries,
            stencilPatch g db.object places s.net (stencilName g s)
              (c.offset + (stencils g db before).length) (stencil g db s).length e = .ok p) ∧
        ∀ before s after, steps = before ++ s :: after →
          ∀ e ∈ (db.handout (stencilName g s) true).entries, ∃ p ∈ new,
            stencilPatch g db.object places s.net (stencilName g s)
              (c.offset + (stencils g db before).length) (stencil g db s).length e = .ok p := by
  induction steps generalizing c db₁ with
  | nil =>
    obtain ⟨rfl, rfl⟩ := gives_pure h
    exact ⟨by simp [stencils], by simp [stencils], hd, [], by simp, by simp, by simp⟩
  | cons s rest ih =>
    obtain ⟨c₁, db₁', hst, h⟩ := gives_bind h
    obtain ⟨hb, ho, hu, new, hs, hf, hf'⟩ := addStep_ok hst
    obtain ⟨hb', ho', hu', new', hs', hsou, hc⟩ := ih (hd.trans hu) h
    rw [hd.handout] at hf hf'
    have hl : ∀ before, c₁.offset + ((stencils g db before).length) =
        c.offset + (stencils g db (s :: before)).length := by
      simp only [ho, stencils, flatMap_cons, length_append]
      omega
    refine ⟨by simp [hb', hb, stencils], by rw [ho', hl], hu', new ++ new',
      by simp [hs', hs], ?_, ?_⟩
    · intro p hp
      obtain hp | hp := mem_append.1 hp
      · obtain ⟨e, he, ht⟩ := hf p hp
        exact ⟨[], s, rest, rfl, e, he, by simpa [stencils] using ht⟩
      · obtain ⟨before, s', after, rfl, e, he, ht⟩ := hsou p hp
        rw [hl] at ht
        exact ⟨s :: before, s', after, rfl, e, he, ht⟩
    · intro before s' after hi e he
      obtain ⟨rfl, rfl, rfl⟩ | ⟨before, rfl, rfl⟩ :
          (before = [] ∧ s' = s ∧ after = rest) ∨ ∃ before', before = s :: before' ∧
            rest = before' ++ s' :: after := by
        cases before with
        | nil => exact .inl ⟨rfl, by simp_all, by simp_all⟩
        | cons x before => exact .inr ⟨before, by simp_all, by simp_all⟩
      · obtain ⟨p, hp, ht⟩ := hf' e he
        exact ⟨p, mem_append_left _ hp, by simpa [stencils] using ht⟩
      · obtain ⟨p, hp, ht⟩ := hc before s' after rfl e he
        rw [hl] at ht
        exact ⟨p, mem_append_right _ hp, ht⟩

/-- Every relocation of every auxiliary function has its patch, if it needs one. -/
theorem addFunctionsPatches_ok {fs : List (String × Int)} {ps ps' : List Patch} {db₁ db₂ : Database}
    (hd : db.HandsOut db₁) (h : Gives (fs.foldlM (addFunctionPatches db places) ps) db₁ ps' db₂) :
    ∃ new, ps' = ps ++ new ∧ (∀ p ∈ new, ∃ f ∈ fs, ∃ e ∈ (db.handout f.1 false).entries,
        auxiliaryPatch db.object places f.1 f.2 e = .ok (some p)) ∧
      ∀ f ∈ fs, ∀ e ∈ (db.handout f.1 false).entries, ∃ r,
        auxiliaryPatch db.object places f.1 f.2 e = .ok r ∧ ∀ p ∈ r, p ∈ new := by
  induction fs generalizing ps db₁ with
  | nil =>
    obtain ⟨rfl, rfl⟩ := gives_pure h
    exact ⟨[], by simp, by simp, by simp⟩
  | cons f rest ih =>
    obtain ⟨ps₁, db₁', ht, h⟩ := gives_bind h
    obtain ⟨hl, ho⟩ := gives_eachRelocation ht
    rw [hd.handout] at hl
    obtain ⟨new, rfl, hs, hs'⟩ := patches_foldlM (fun e ps ps' ht => by
        obtain ⟨r, hr, ht⟩ := bind_ok ht
        cases ht
        exact ⟨r, hr, by cases r <;> simp⟩) hl
    obtain ⟨new', rfl, hu, hc⟩ := ih (hd.trans ho) h
    refine ⟨new ++ new', by simp, ?_, ?_⟩
    · intro p hp
      obtain hp | hp := mem_append.1 hp
      · obtain ⟨e, he, hpt⟩ := hs p hp
        exact ⟨f, mem_cons_self, e, he, hpt⟩
      · obtain ⟨f', hf', hrs⟩ := hu p hp
        exact ⟨f', mem_cons_of_mem f hf', hrs⟩
    · intro f' hf' e he
      obtain rfl | hf' := mem_cons.1 hf'
      · obtain ⟨r, hr, hm⟩ := hs' e he
        exact ⟨r, hr, fun p hp => mem_append_left _ (hm p hp)⟩
      · obtain ⟨r, hr, hm⟩ := hc f' hf' e he
        exact ⟨r, hr, fun p hp => mem_append_right _ (hm p hp)⟩

/-! ## Commands -/

def sectionBytes (db : Database) (q : Placed Int) : Bytes :=
  ((db.sectionAt q.content).toOption.map db.object.sectionData).getD []

def patchOf (p : Patch) : Command := (patchCommand p).toOption.getD .freeMemory

theorem flatten_of_forall₂ {F : α → β} {xs : List α} {css : List (List β)}
    (h : Forall₂ (fun x cs => cs = [F x]) xs css) : css.flatten = xs.map F := by
  induction h with
  | nil => rfl
  | cons hx _ ih => simp [hx, ih]

theorem copySections_ok {isCode : Bool} {qs : List (Placed Int)} {w w' : Writer}
    (h : qs.foldlM (fun w s => do (← copySection db isCode s).write w) w = .ok w') :
    w.Wrote (qs.map fun q => if isCode then .copyCode q.start q.length (sectionBytes db q)
      else .copyData q.start q.length (sectionBytes db q)) w' := by
  have ht : ∀ (q : Placed Int) (w w' : Writer), (do (← copySection db isCode q).write w) = .ok w' →
      ∃ cs, cs = [if isCode then .copyCode q.start q.length (sectionBytes db q)
        else .copyData q.start q.length (sectionBytes db q)] ∧ w.Wrote cs w' := by
    intro q w w' ht
    obtain ⟨c, hc, hr⟩ := bind_ok ht
    obtain ⟨s, hs, hc⟩ := bind_ok hc
    have hb : sectionBytes db q = db.object.sectionData s := by
      rw [sectionBytes, hs]
      rfl
    cases hc
    exact ⟨_, by rw [hb], write_ok hr⟩
  obtain ⟨css, hcss, hw⟩ := wrote_foldlM ht h
  rwa [flatten_of_forall₂ hcss] at hw

theorem patchCommand_ok {p : Patch} {c : Command} (h : patchCommand p = .ok c) :
    ∃ kind, Opcode.ofCode? p.command = some (.patch kind) ∧
      c = .patch kind p.address p.mask p.scale p.value := by
  unfold patchCommand at h
  split at h
  · next kind hc =>
    cases h
    exact ⟨kind, hc, rfl⟩
  · cases h

theorem writePatches_ok {ps : List Patch} {w w' : Writer}
    (h : ps.foldlM (fun w p => do (← patchCommand p).write w) w = .ok w') :
    w.Wrote (ps.map patchOf) w' ∧ ∀ p ∈ ps, patchCommand p = .ok (patchOf p) := by
  have hst : ∀ (p : Patch) (w w' : Writer), (do (← patchCommand p).write w) = .ok w' →
      ∃ cs, (cs = [patchOf p] ∧ patchCommand p = .ok (patchOf p)) ∧ w.Wrote cs w' := by
    intro p w w' hst
    obtain ⟨c, hc, hr⟩ := bind_ok hst
    have ht : patchOf p = c := by
      rw [patchOf, hc]
      rfl
    exact ⟨_, ⟨rfl, ht ▸ hc⟩, ht ▸ write_ok hr⟩
  obtain ⟨css, hs, hw⟩ := wrote_foldlM hst h
  rw [flatten_of_forall₂ (hs.imp fun _ _ h => h.1)] at hw
  refine ⟨hw, fun p hp => ?_⟩
  obtain ⟨cs, -, -, ht⟩ := exists_mem_of_forall₂_left hs hp
  exact ht

theorem value_ok {w w' : Writer} {n : Number} (h : w.value n 4 = .ok w') :
    w'.order = w.order ∧ ∃ payload : Bytes, w'.bytes = w.bytes ++ payload ∧ payload.length = 4 ∧
      ∀ i, n = .int i → payload = Command.word w.order i := by
  have hint : ∀ {text : String} {i : Int}, w.labelledInt text i 4 true = .ok w' →
      w'.order = w.order ∧ w'.bytes = w.bytes ++ Command.word w.order i := by
    intro text i hi
    obtain ⟨bs, hb, hi⟩ := bind_ok hi
    obtain ⟨-, rfl⟩ := Bytes.ofInt_ok.1 hb
    cases hi
    exact ⟨rfl, bytes_append w _⟩
  cases n with
  | int i =>
    obtain ⟨ho, hb⟩ := hint h
    refine ⟨ho, _, hb, by simp, ?_⟩
    rintro _ ⟨⟩
    rfl
  | bool b =>
    obtain ⟨ho, hb⟩ := hint h
    exact ⟨ho, _, hb, by simp, by simp⟩
  | float x =>
    obtain ⟨word, -, h⟩ := bind_ok h
    cases h
    exact ⟨rfl, _, bytes_raw w _, by simp, by simp⟩

def cellCommand (w : Int × Int × Bytes) : Command := .copyData w.1 w.2.1 w.2.2

theorem wrote_cell {v : Placed Net} (hv : v.length = 4) {n : Number} {w w' : Writer} (h : (do
      let w ← (w.opcode .copyData).int v.start
      let w ← w.int v.length
      w.value n v.length.toNat) = .ok w') :
    ∃ payload : Bytes, w.Wrote [cellCommand (v.start, v.length, payload)] w' ∧
      payload.length = 4 ∧ ∀ i, n = .int i → payload = Command.word w.order i := by
  obtain ⟨w₂, hs, h⟩ := bind_ok h
  obtain ⟨w₃, hl, h⟩ := bind_ok h
  rw [hv] at h
  obtain ⟨hstartRange, hstartOrder, hstartBytes⟩ := int_ok hs
  obtain ⟨hlengthRange, hlengthOrder, hlengthBytes⟩ := int_ok hl
  obtain ⟨hvalueOrder, payload, hvalueBytes, hp, hw⟩ := value_ok h
  have ho : w₃.order = w.order := by rw [hlengthOrder, hstartOrder, order_opcode]
  refine ⟨payload, wrote_one (hvalueOrder.trans ho) ?_ ?_, hp, ho ▸ hw⟩
  · rw [hvalueBytes, hlengthBytes, hstartBytes, hstartOrder]
    simp [Command.bytes, Command.opcode, Command.operands, Command.payload, cellCommand]
  · simpa [Command.Encodable, Command.operands, cellCommand] using ⟨hstartRange, hlengthRange⟩

theorem writeConstants_ok {vs : List (Placed Net)} (hs : ∀ v ∈ vs, v.length = 4) {w w' : Writer}
    (h : vs.foldlM (writeConstant g) w = .ok w') :
    ∃ cells : List (Int × Int × Bytes), w.Wrote (cells.map cellCommand) w' ∧
      ∀ c ∈ cells, c.2.2.length = 4 ∧ ∃ v ∈ vs, c.1 = v.start ∧ c.2.1 = v.length := by
  induction vs generalizing w with
  | nil =>
    cases h
    exact ⟨[], .refl _, by simp⟩
  | cons v rest ih =>
    obtain ⟨w₁, hv, h⟩ := bind_ok h
    obtain ⟨cells, hw, hl⟩ := ih (fun v' hv' => hs v' (mem_cons_of_mem v hv')) h
    have hr : ∀ c ∈ cells, c.2.2.length = 4 ∧ ∃ v' ∈ v :: rest, c.1 = v'.start ∧
        c.2.1 = v'.length := by
      intro c hc
      obtain ⟨he, v', hv', hp⟩ := hl c hc
      exact ⟨he, v', mem_cons_of_mem v hv', hp⟩
    unfold writeConstant at hv
    split at hv
    · obtain ⟨payload, ho, ha, -⟩ := wrote_cell (hs v mem_cons_self) hv
      refine ⟨(v.start, v.length, payload) :: cells, ho.trans hw, ?_⟩
      exact forall_mem_cons.2 ⟨⟨ha, v, mem_cons_self, rfl, rfl⟩, hr⟩
    · cases hv
      exact ⟨cells, hw, hr⟩

/-! ## A linked program -/

/-- The parts that a program is linked from. -/
structure Parts where
  sections : List (Placed Int)
  /-- Where the constant sections end. -/
  middle : Int
  slots : List (Placed Net)
  /-- Where the variables end. -/
  stop : Int
  /-- The starting values that are written. -/
  cells : List (Int × Int × Bytes)
  functions : Layout.Functions
  start : Bytes
  tail : Bytes
  patches : List Patch

namespace Parts

/-- Where everything that a relocation can point to lies. -/
def toPlaces (l : Parts) : Places :=
  { slots := l.slots, sections := l.sections, functions := l.functions.addresses }

def first (l : Parts) : Int := l.functions.stop + l.start.length

def code (l : Parts) (g : Graph) (db : Database) (steps : List Step) : Bytes :=
  l.start ++ stencils g db steps ++ l.tail

def dataCommands (l : Parts) (db : Database) : List Command :=
  l.sections.map (fun q => .copyData q.start q.length (sectionBytes db q)) ++ l.cells.map cellCommand

def codeCommands (l : Parts) (g : Graph) (db : Database) (steps : List Step) : List Command :=
  l.functions.sections.map (fun q => .copyCode q.start q.length (sectionBytes db q)) ++
    (.copyCode l.functions.stop (l.code g db steps).length (l.code g db steps) ::
      l.patches.map patchOf)

def commands (l : Parts) (g : Graph) (db : Database) (steps : List Step) : List Command :=
  [.freeMemory, .allocateData l.stop] ++ l.dataCommands db ++
    [.allocateCode (l.functions.stop + (l.code g db steps).length)] ++ l.codeCommands g db steps ++
    [.entryPoint (l.functions.stop + if db.isThumb then 1 else 0)]

end Parts

/-- The parts of an emitted program, whatever its relocations ask for. -/
structure Emits (g : Graph) (db : Database) (plan : Plan) (aux : List String)
    (consts : List Nat) (a : Assembly) (l : Parts) : Prop where
  sections : Layout.sections db (consts.map Int.ofNat) 0 = .ok (l.sections, l.middle)
  slots : Layout.slots plan.slots l.middle = .ok (l.slots, l.stop)
  returned : a.slots = l.slots
  cells : ∀ c ∈ l.cells, c.2.2.length = 4 ∧ ∃ v ∈ l.slots, c.1 = v.start ∧ c.2.1 = v.length
  functions : Layout.functions db aux 0 = .ok l.functions
  start : db.functionCode Database.entryFunction .start = .ok l.start
  tail : db.functionCode Database.entryFunction .«end» = .ok l.tail
  relocated : ∀ p ∈ l.patches, Relocated g db l.toPlaces l.first plan.steps p
  stencil : ∀ before s after, plan.steps = before ++ s :: after →
    ∀ e ∈ (db.handout (stencilName g s) true).entries, ∃ p ∈ l.patches,
      stencilPatch g db.object l.toPlaces s.net (stencilName g s)
        (l.first + (stencils g db before).length) (stencil g db s).length e = .ok p
  function : ∀ f ∈ l.functions.addresses, ∀ e ∈ (db.handout f.1 false).entries, ∃ r,
    auxiliaryPatch db.object l.toPlaces f.1 f.2 e = .ok r ∧ ∀ p ∈ r, p ∈ l.patches
  command : ∀ p ∈ l.patches, patchCommand p = .ok (patchOf p)
  wrote : (⟨db.object.order, []⟩ : Writer).Wrote (l.commands g db plan.steps) a.stream

/-- The parts of a linked program: every relocation of a function has its patch. -/
structure Links (g : Graph) (db : Database) (plan : Plan) (aux : List String)
    (consts : List Nat) (a : Assembly) (l : Parts) : Prop
    extends Emits g db plan aux consts a l where
  patched : ∀ f ∈ l.functions.addresses, ∀ e ∈ (db.handout f.1 false).entries, ∃ p ∈ l.patches,
    auxiliaryPatch db.object l.toPlaces f.1 f.2 e = .ok (some p)

theorem exists_emits {plan : Plan} {aux : List String} {consts : List Nat} {a : Assembly}
    (h : Gives (link g plan aux consts) db a db') :
    ∃ l, Emits g db plan aux consts a l := by
  obtain ⟨db₀, db₁, hg, h⟩ := gives_bind h
  cases hg
  obtain ⟨w₁, hfe, h⟩ := gives_check h
  obtain ⟨⟨sections, middle⟩, hsec, h⟩ := gives_check h
  obtain ⟨⟨slots, stop⟩, hl, h⟩ := gives_check h
  obtain ⟨w₂, hd, h⟩ := gives_check h
  simp only [emit, check_bind, foldlM_check] at h
  obtain ⟨w₃, hcop, h⟩ := gives_check h
  obtain ⟨w₄, hcs, h⟩ := gives_check h
  obtain ⟨functions, hu, h⟩ := gives_check h
  obtain ⟨start, hst, h⟩ := gives_check h
  obtain ⟨code, db₁, hstp, h⟩ := gives_bind h
  obtain ⟨tail, htl, h⟩ := gives_check h
  obtain ⟨w₅, hcd, h⟩ := gives_check h
  obtain ⟨w₆, hcopiedCode, h⟩ := gives_check h
  obtain ⟨patches, db₂, hpts, h⟩ := gives_bind h
  obtain ⟨w₇, hent, h⟩ := gives_check h
  obtain ⟨w₈, hpat, h⟩ := gives_check h
  obtain ⟨w₉, hi, h⟩ := gives_check h
  obtain ⟨rfl, -⟩ := gives_pure h
  obtain ⟨hb, hoff, hout, new, hn, ho, hc⟩ := addSteps_ok (.refl db) hstp
  obtain ⟨new', hn', ho', hc'⟩ := addFunctionsPatches_ok hout hpts
  have h4 : ∀ v ∈ slots, v.length = 4 := by
    intro v hv
    obtain ⟨n, -, -, hlen, -⟩ := exists_mem_of_forall₂_right (Layout.slots_laid hl).1 hv
    exact hlen
  obtain ⟨cells, hcls, hcellsIn⟩ := writeConstants_ok h4 hcs
  obtain ⟨hpatchesWrote, hm⟩ := writePatches_ok hpat
  have ha : patches = new ++ new' := by simpa [hn] using hn'
  refine ⟨⟨sections, middle, slots, stop, cells, functions, start, tail, patches⟩, hsec, hl,
    rfl, hcellsIn, hu, hst, htl, ?_, ?_, ?_, hm, ?_⟩
  · intro p hp
    rw [ha] at hp
    obtain hp | hp := mem_append.1 hp
    · obtain ⟨before, s, after, hs, e, he, ht⟩ := ho p hp
      exact .stencil hs he ht
    · obtain ⟨f, hf, e, he, ht⟩ := ho' p hp
      exact .function hf he ht
  · intro before s after hs e he
    obtain ⟨p, hp, ht⟩ := hc before s after hs e he
    exact ⟨p, by rw [ha]; exact mem_append_left _ hp, ht⟩
  · intro f hf e he
    obtain ⟨r, hr, hmem⟩ := hc' f hf e he
    exact ⟨r, hr, fun p hp => by rw [ha]; exact mem_append_right _ (hmem p hp)⟩
  · have hw := ((((((((write_ok hfe).trans (write_ok hd)).trans
      (copySections_ok hcop)).trans hcls).trans (write_ok hcd)).trans
      (copySections_ok hcopiedCode)).trans (write_ok hent)).trans hpatchesWrote).trans (write_ok hi)
    have hz : code.offset + tail.length =
        functions.stop + (start ++ stencils g db plan.steps ++ tail).length := by
      simp only [hoff, length_append]
      omega
    have hy : code.bytes ++ tail = start ++ stencils g db plan.steps ++ tail := by rw [hb]
    rw [hz, hy] at hw
    simpa [Parts.commands, Parts.dataCommands, Parts.codeCommands, Parts.code] using hw

/-- The file has all bytes of the sections that a program copies. -/
structure Backed (db : Database) (aux : List String) (consts : List Nat) : Prop where
  function : ∀ name ∈ aux, ∀ t, db.object.symbol name = .ok t →
    ∀ s, db.sectionAt t.sectionIndex = .ok s → (db.object.sectionData s).length = s.size
  constant : ∀ k ∈ consts, ∀ s, db.sectionAt (k : Int) = .ok s →
    (db.object.sectionData s).length = s.size

variable {aux : List String} {consts : List Nat}

theorem length_functionBytes (hb : Backed db aux consts) {f : Layout.Functions}
    (h : Layout.functions db aux 0 = .ok f) {q : Placed Int} (hq : q ∈ f.sections) :
    q.length = ((sectionBytes db q).length : Int) := by
  have hl := Layout.functions_laid h
  obtain ⟨name, hn, t, ht, hi⟩ := hl.used q hq
  obtain ⟨s, hs, hf⟩ := hl.fits q hq
  have hd := hb.function name hn t ht s (hi ▸ hs)
  rw [sectionBytes, hs, hf.length]
  exact_mod_cast hd.symm

theorem length_constantBytes (hb : Backed db aux consts) {ps : List (Placed Int)}
    {stop : Int} (h : Layout.sections db (consts.map Int.ofNat) 0 = .ok (ps, stop))
    {q : Placed Int} (hq : q ∈ ps) : q.length = ((sectionBytes db q).length : Int) := by
  obtain ⟨index, hi, s, hs, hc, hf⟩ := exists_mem_of_forall₂_right (Layout.sections_laid h).1 hq
  obtain ⟨k, hk, rfl⟩ := mem_map.1 hi
  have hd := hb.constant k hk s hs
  rw [sectionBytes, hc, hs, hf.length]
  exact_mod_cast hd.symm

theorem cellCommand_sized {nets : List Net} {offset stop : Int} {vs : List (Placed Net)}
    (hs : Layout.slots nets offset = .ok (vs, stop)) {c : Int × Int × Bytes}
    (hc : c.2.2.length = 4 ∧ ∃ v ∈ vs, c.1 = v.start ∧ c.2.1 = v.length) :
    (cellCommand c).Sized := by
  obtain ⟨hp, v, hv, -, hl⟩ := hc
  obtain ⟨n, -, -, h4, -⟩ := exists_mem_of_forall₂_right (Layout.slots_laid hs).1 hv
  change c.2.1 = c.2.2.length
  rw [hl, h4, hp]
  rfl

theorem Parts.forall_commands {l : Parts} {steps : List Step} {P : Command → Prop}
    (hfe : P .freeMemory) (hd : P (.allocateData l.stop))
    (hs : ∀ q ∈ l.sections, P (.copyData q.start q.length (sectionBytes db q)))
    (hc : ∀ c ∈ l.cells, P (cellCommand c))
    (hcd : P (.allocateCode (l.functions.stop + (l.code g db steps).length)))
    (hf : ∀ q ∈ l.functions.sections, P (.copyCode q.start q.length (sectionBytes db q)))
    (he : P (.copyCode l.functions.stop (l.code g db steps).length (l.code g db steps)))
    (ht : ∀ p ∈ l.patches, P (patchOf p))
    (ho : P (.entryPoint (l.functions.stop + if db.isThumb then 1 else 0))) :
    ∀ c ∈ l.commands g db steps, P c := by
  simp only [Parts.commands, Parts.dataCommands, Parts.codeCommands, mem_append, mem_cons,
    mem_map, not_mem_nil, or_false]
  rintro c (((((rfl | rfl) | (⟨q, hq, rfl⟩ | ⟨w, hw, rfl⟩)) | rfl) |
    (⟨q, hq, rfl⟩ | rfl | ⟨p, hp, rfl⟩)) | rfl)
  · exact hfe
  · exact hd
  · exact hs q hq
  · exact hc w hw
  · exact hcd
  · exact hf q hq
  · exact he
  · exact ht p hp
  · exact ho

theorem Parts.commands_sized {l : Parts} {steps : List Step}
    (hs : ∀ q ∈ l.sections, q.length = ((sectionBytes db q).length : Int))
    (hc : ∀ c ∈ l.cells, (cellCommand c).Sized)
    (hf : ∀ q ∈ l.functions.sections, q.length = ((sectionBytes db q).length : Int))
    (hp : ∀ p ∈ l.patches, (patchOf p).Sized) : ∀ c ∈ l.commands g db steps, c.Sized :=
  Parts.forall_commands trivial trivial hs hc trivial hf rfl hp trivial

end Assembly

end Patchwork
