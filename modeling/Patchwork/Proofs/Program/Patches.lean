import Patchwork.Machine.Image
import Patchwork.Program.Assemble
import Patchwork.Proofs.Stream.RoundTrip
import Mathlib.Data.List.Forall2

/-!
# The patches of relocations

A relocation by distance asks for the distance from its field to a symbol. What the symbol
stands for depends on where it is used: a stencil has a variable and a next stencil, an
auxiliary function has neither. The address may lie in data or in code, and the patch is
the distance as if both began at zero.
-/

namespace Patchwork

open List

variable {a start : Int} {name : String} {patch : Option Patch}

/-! ## Relocations by distance -/

namespace RelocationEntry

/-- Where the field of a relocation begins, from the first byte of its function. -/
def position (e : RelocationEntry) : Int :=
  (e.relocation.offset : Int) - e.functionOffset - e.start

def IsDistance (e : RelocationEntry) : Prop :=
  e.relocation.type = "R_X86_64_PC32" ∨ e.relocation.type = "R_X86_64_PLT32"

instance (e : RelocationEntry) : Decidable e.IsDistance := inferInstanceAs (Decidable (_ ∨ _))

/-- Two relocations that ask for the same: the same symbol with the same addend. -/
structure Alike (e e' : RelocationEntry) : Prop where
  symbolName : e.symbolName = e'.symbolName
  symbolKind : e.symbolKind = e'.symbolKind
  symbolOffset : e.symbolOffset = e'.symbolOffset
  sectionIndex : e.sectionIndex = e'.sectionIndex
  type : e.relocation.type = e'.relocation.type
  addend : e.relocation.addend = e'.relocation.addend

theorem IsDistance.rule {e : RelocationEntry} (h : e.IsDistance) :
    PatchRule.ofName? e.relocation.type = some .distance := by
  obtain h | h := h <;> rw [h] <;> decide +kernel

end RelocationEntry

namespace Assembly

variable {g : Graph} {o : Object} {places : Places} {e : RelocationEntry}

/-- An address in data or in code. -/
structure Aim where
  isData : Bool
  address : Int

/-- The address itself, where memories are allocated. -/
def Aim.absolute (p : Placement) (a : Aim) : Int := (if a.isData then p.data else p.code) + a.address

def distancePatch (e : RelocationEntry) (start : Int) (a : Aim) : Patch where
  mask := 0xffffffff
  address := e.position + start
  value := a.address + signedWord e.relocation.addend - (e.position + start)
  scale := 1
  command := if a.isData then towardsData else towardsCode

theorem patch_distance (h : e.IsDistance) (start : Int) (a : Aim) :
    Database.patch o e a.address start (if a.isData then towardsData else towardsCode) =
      .ok (distancePatch e start a) := by
  rw [Database.patch, h.rule]
  simp [PatchRule.patch, PatchRule.littleOnly, PatchRule.mask, PatchRule.scale, PatchRule.variant,
    PatchRule.value, distancePatch, RelocationEntry.position]

/-! ## What a symbol stands for -/

/-- What a symbol stands for in a stencil: a function for itself, a variable for the one of
the step, the result for the next stencil, and anything else for a place in a constant
section. -/
inductive StencilAim (g : Graph) (places : Places) (net : Option Net) (next : Int)
    (e : RelocationEntry) : Aim → Prop
  | function {a : Int} (hkind : e.symbolKind = .function)
      (ha : (e.symbolName, a) ∈ places.functions) : StencilAim g places net next e ⟨false, a⟩
  | cell {n : Net} {v : Placed Net} (hkind : isData e.symbolKind = true)
      (hname : e.symbolName.startsWith "dummy_" = true) (hnet : net = some n)
      (hv : v ∈ places.slots) (hsame : g.sameNet v.content n = true) :
      StencilAim g places net next e ⟨true, v.start⟩
  | next (hkind : isData e.symbolKind = true) (hdummy : e.symbolName.startsWith "dummy_" = false)
      (hname : e.symbolName.startsWith "result_" = true) : StencilAim g places net next e ⟨false, next⟩
  | constant {s : Placed Int} (hkind : isData e.symbolKind = true)
      (hdummy : e.symbolName.startsWith "dummy_" = false)
      (hresult : e.symbolName.startsWith "result_" = false) (hs : s ∈ places.sections)
      (hsection : s.content = (e.sectionIndex : Int)) :
      StencilAim g places net next e ⟨true, e.symbolOffset + s.start⟩

/-- What a symbol stands for in an auxiliary function: a function for itself, and
anything else for a place in a constant section. -/
inductive FunctionAim (places : Places) (e : RelocationEntry) : Aim → Prop
  | function {a : Int} (hkind : e.symbolKind = .function)
      (ha : (e.symbolName, a) ∈ places.functions) : FunctionAim places e ⟨false, a⟩
  | constant {s : Placed Int} (hkind : isData e.symbolKind = true) (hs : s ∈ places.sections)
      (hsection : s.content = (e.sectionIndex : Int)) :
      FunctionAim places e ⟨true, e.symbolOffset + s.start⟩

theorem variableAddress_ok {n : Net} (h : variableAddress g places n = .ok a) :
    ∃ v ∈ places.slots, g.sameNet v.content n ∧ a = v.start := by
  rw [variableAddress] at h
  split at h
  · next v hf =>
    cases h
    exact ⟨v, mem_of_find?_eq_some hf, by simpa using find?_some hf, rfl⟩
  · cases h

theorem constantAddress_ok (h : constantAddress places name e = .ok a) :
    ∃ s ∈ places.sections, s.content = (e.sectionIndex : Int) ∧ a = e.symbolOffset + s.start := by
  rw [constantAddress] at h
  split at h
  · next s hf =>
    cases h
    exact ⟨s, mem_of_find?_eq_some hf, by simpa using find?_some hf, rfl⟩
  · cases h

theorem functionAddress_ok (h : functionAddress places name = .ok a) :
    (name, a) ∈ places.functions := by
  rw [functionAddress] at h
  split at h
  · next b hl =>
    cases h
    obtain ⟨l₁, l₂, hs, -⟩ := lookup_eq_some_iff.1 hl
    simp [hs]
  · cases h

/-- The patch in a stencil aims at what the symbol stands for. -/
theorem stencilPatch_ok {net : Option Net} {offset length : Int} {patch : Patch}
    (hds : e.IsDistance) (h : stencilPatch g o places net name offset length e = .ok patch) :
    ∃ aim, StencilAim g places net (offset + length) e aim ∧ patch = distancePatch e offset aim := by
  have hres : ∀ aim : Aim,
      Database.patch o e aim.address offset (if aim.isData then towardsData else towardsCode) =
        .ok patch → patch = distancePatch e offset aim := by
    intro aim hi
    rw [patch_distance hds] at hi
    exact (Except.ok.inj hi).symm
  unfold stencilPatch at h
  split at h
  · next hk =>
    split at h
    · next hd =>
      split at h
      · cases h
      · next n =>
        obtain ⟨a, ha, h⟩ := bind_ok h
        obtain ⟨v, hv, hm, rfl⟩ := variableAddress_ok ha
        exact ⟨_, .cell hk hd rfl hv hm, hres ⟨true, v.start⟩ h⟩
    · next hd =>
      split at h
      · next hr =>
        exact ⟨_, .next hk (by simpa using hd) hr, hres ⟨false, _⟩ h⟩
      · next hr =>
        obtain ⟨a, ha, h⟩ := bind_ok h
        obtain ⟨s, hs, he, rfl⟩ := constantAddress_ok ha
        exact ⟨_, .constant hk (by simpa using hd) (by simpa using hr) hs he, hres ⟨true, _⟩ h⟩
  · split at h
    · next hk =>
      obtain ⟨a, ha, h⟩ := bind_ok h
      exact ⟨_, .function hk (functionAddress_ok ha), hres ⟨false, a⟩ h⟩
    · cases h

theorem auxiliaryPatch_cases
    (hs : e.IsDistance) (h : auxiliaryPatch o places name start e = .ok patch) :
    (isData e.symbolKind ∧ ∃ a, constantAddress places name e = .ok a ∧
      patch = some (distancePatch e start ⟨true, a⟩)) ∨
    (e.symbolKind = .function ∧ ∃ a, functionAddress places e.symbolName = .ok a ∧
      patch = some (distancePatch e start ⟨false, a⟩)) := by
  have hr : ∀ aim : Aim, (some <$> Database.patch o e aim.address start
        (if aim.isData then towardsData else towardsCode)) = .ok patch →
      patch = some (distancePatch e start aim) := by
    intro aim hi
    rw [patch_distance hs] at hi
    exact (Except.ok.inj hi).symm
  rw [auxiliaryPatch] at h
  split at h
  · split at h
    · next ht =>
      obtain hd | hd := hs <;> rw [hd] at ht <;> exact absurd ht (by decide)
    · cases h
  · split at h
    · next hk =>
      obtain ⟨a, ha, h⟩ := bind_ok h
      exact .inl ⟨hk, a, ha, hr ⟨true, a⟩ h⟩
    · split at h
      · next hk =>
        obtain ⟨a, ha, h⟩ := bind_ok h
        exact .inr ⟨hk, a, ha, hr ⟨false, a⟩ h⟩
      · cases h

/-- The patch in an auxiliary function aims at what the symbol stands for. -/
theorem auxiliaryPatch_ok
    (hd : e.IsDistance) (h : auxiliaryPatch o places name start e = .ok patch) :
    ∃ aim, FunctionAim places e aim ∧ patch = some (distancePatch e start aim) := by
  obtain ⟨hk, a, ha, hp⟩ | ⟨hk, a, ha, hp⟩ := auxiliaryPatch_cases hd h
  · obtain ⟨s, hs, he, rfl⟩ := constantAddress_ok ha
    exact ⟨_, .constant hk hs he, hp⟩
  · exact ⟨_, .function hk (functionAddress_ok ha), hp⟩

end Assembly

/-! ## Relocations that were handed out -/

/-- What is known of a relocation is what the symbol says that it points to. -/
structure RelocationEntry.Describes (o : Object) (e : RelocationEntry) (s : Symbol) : Prop where
  pointed : o.pointedTo? e.relocation = some s
  name : e.symbolName = s.name
  kind : e.symbolKind = s.kind
  offset : e.symbolOffset = s.value
  sectionIndex : e.sectionIndex = s.sectionIndex

namespace Database

/-- What a database remembers describes symbols, as what it finds in the object file does. -/
def Faithful (db : Database) : Prop :=
  ∀ p ∈ db.handedOut, ∀ e ∈ p.2, ∃ s, e.Describes db.object s

/-- A database that hands out the same relocations as another one, from the same object
file. -/
structure HandsOut (db db' : Database) : Prop where
  object : db'.object = db.object
  handout : ∀ name stencil, db'.handout name stencil = db.handout name stencil

theorem HandsOut.refl (db : Database) : db.HandsOut db := ⟨rfl, fun _ _ => rfl⟩

theorem HandsOut.trans {db db' db'' : Database} (h : db.HandsOut db') (h' : db'.HandsOut db'') :
    db.HandsOut db'' := ⟨h'.object.trans h.object, fun name stencil =>
    (h'.handout name stencil).trans (h.handout name stencil)⟩

theorem walk_ok {σ : Type} {act : σ → RelocationEntry → Except Fault σ} {s s' : σ}
    {es : List RelocationEntry} {taken : Nat} (h : walk act s es = (.ok s', taken)) :
    taken = es.length ∧ es.foldlM act s = .ok s' := by
  induction es generalizing s taken with
  | nil =>
    cases h
    exact ⟨rfl, rfl⟩
  | cons e rest ih =>
    rw [walk] at h
    rw [foldlM_cons]
    cases ha : act s e with
    | error f =>
      rw [ha] at h
      cases h
    | ok s₁ =>
      rw [ha] at h
      obtain ⟨ho, ht⟩ := Prod.ext_iff.1 h
      have hr : walk act s₁ rest = (.ok s', (walk act s₁ rest).2) := Prod.ext ho rfl
      obtain ⟨hl, hf⟩ := ih hr
      exact ⟨ht.symm.trans (congrArg (· + 1) hl), hf⟩

theorem handsOut_remember {db : Database} {stencil : Bool}
    {entries : List RelocationEntry} (h : db.handout name stencil = ⟨entries, none⟩) :
    db.HandsOut (db.remember name stencil entries) := by
  rw [remember]
  split
  · exact .refl db
  · refine ⟨rfl, fun name' stencil' => ?_⟩
    by_cases hk : (name', stencil') = (name, stencil)
    · obtain ⟨rfl, rfl⟩ := Prod.ext_iff.1 hk
      rw [h]
      simp [handout]
    · have hl : (((name, stencil), entries) :: db.handedOut).lookup (name', stencil') =
          db.handedOut.lookup (name', stencil') := by
        rw [lookup_cons, beq_false_of_ne hk]
      simp only [handout, hl]

theorem eachRelocation_ok {σ : Type} {db db' : Database} {stencil : Bool} {s s' : σ}
    {act : σ → RelocationEntry → Except Fault σ}
    (h : db.eachRelocation name stencil s act = (.ok s', db')) :
    (db.handout name stencil).entries.foldlM act s = .ok s' ∧ db.HandsOut db' := by
  rw [eachRelocation] at h
  cases hw : walk act s (db.handout name stencil).entries with
  | mk outcome taken =>
    cases hh : db.handout name stencil with
    | mk entries fault =>
      rw [hh] at h hw
      simp only [hw] at h
      cases outcome with
      | error f => cases h
      | ok s₁ =>
        cases fault with
        | some f => cases h
        | none =>
          cases h
          obtain ⟨rfl, hf⟩ := walk_ok hw
          rw [take_length]
          exact ⟨hf, handsOut_remember hh⟩

end Database

end Patchwork
