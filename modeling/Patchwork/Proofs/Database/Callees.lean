import Patchwork.Database.Basic
import Mathlib.Data.Set.Card
import Mathlib.Logic.Relation

/-!
# The functions that are called

The functions that some functions call are found by going through their relocations, and through
those of the functions that they point to. A name of the list that was found on the way is not
looked at again, but the search from a callee begins anew: nothing is known there of the functions
that it was reached through. So the search ends exactly if no recursion is reached, and then it
finds what is reached, functions that are called from several places included.

Functions are found by name, and a name stands for the first symbol that has it. What is reached
by names is what is reached by symbols if every function is the first symbol of its name.
-/

namespace Patchwork

open Relation List Object

variable {r : Relocation} {s t : Symbol}

namespace Object

variable {o : Object} {a b m : String} {depth : Nat}

/-! ## Calls -/

def Targets (o : Object) (r : Relocation) (b : String) : Prop :=
  ∃ t, o.pointedTo? r = some t ∧ t.kind = .function ∧ t.name = b

/-- A function calls another one: a relocation of the first of that name points to it. -/
def Calls (o : Object) (a b : String) : Prop :=
  ∃ s, o.symbol? a = some s ∧ ∃ r ∈ s.relocations, o.Targets r b

/-- There is a symbol of that name, and its relocations point to symbols. -/
def Known (o : Object) (a : String) : Prop :=
  ∃ s, o.symbol? a = some s ∧ ∀ r ∈ s.relocations, (o.pointedTo? r).isSome = true

/-- Everything that is reached from a name, with itself, is known. -/
def Complete (o : Object) (a : String) : Prop := ∀ m, ReflTransGen o.Calls a m → o.Known m

/-- Everything that is reached from a name is known, and none of it is recursive. -/
structure Grounded (o : Object) (a : String) : Prop where
  complete : o.Complete a
  acyclic : ∀ m, ReflTransGen o.Calls a m → ¬ TransGen o.Calls m m

/-- The name is known, and so is all that is called, down to a depth where nothing is. -/
def Settles (o : Object) : Nat → String → Prop
  | 0, a => o.Known a ∧ ∀ b, ¬ o.Calls a b
  | depth + 1, a => o.Known a ∧ ∀ b, o.Calls a b → o.Settles depth b

theorem targets_iff (ht : o.pointedTo? r = some t) :
    o.Targets r b ↔ t.kind = .function ∧ t.name = b := by
  simp [Targets, ht]

theorem calls_iff (hs : o.symbol? a = some s) :
    o.Calls a b ↔ ∃ r ∈ s.relocations, o.Targets r b := by
  simp [Calls, hs]

theorem known_iff (hs : o.symbol? a = some s) :
    o.Known a ↔ ∀ r ∈ s.relocations, (o.pointedTo? r).isSome := by
  simp [Known, hs]

theorem Complete.call (h : o.Complete a) (hc : o.Calls a b) : o.Complete b :=
  fun m hm => h m (hm.head hc)

theorem Grounded.call (h : o.Grounded a) (hc : o.Calls a b) : o.Grounded b :=
  ⟨h.complete.call hc, fun m hm => h.acyclic m (hm.head hc)⟩

theorem Grounded.reach (h : o.Grounded a) (ha : TransGen o.Calls a m) : o.Grounded m := by
  induction ha with
  | single hc => exact h.call hc
  | tail _ hc ih => exact ih.call hc

/-! ## Settled functions -/

theorem Settles.known (h : o.Settles depth a) : o.Known a := by
  cases depth <;> exact h.1

theorem Settles.reaches (h : o.Settles depth a) (ha : ReflTransGen o.Calls a m) :
    ∃ depth' ≤ depth, o.Settles depth' m := by
  induction ha with
  | refl => exact ⟨depth, Nat.le_refl _, h⟩
  | tail _ hc ih =>
    obtain ⟨depth', hl, he⟩ := ih
    cases depth' with
    | zero => exact absurd hc (he.2 _)
    | succ k => exact ⟨k, by omega, he.2 _ hc⟩

theorem Settles.not_cyclic (h : o.Settles depth a) : ¬ TransGen o.Calls a a := by
  induction depth using Nat.strongRecOn generalizing a with
  | _ depth ih =>
    intro hc
    obtain ⟨b, ha, hb⟩ := TransGen.head'_iff.1 hc
    cases depth with
    | zero => exact h.2 b ha
    | succ k =>
      obtain ⟨depth', hl, he⟩ := (h.2 b ha).reaches hb
      exact ih depth' (by omega) he hc

theorem Settles.grounded (h : o.Settles depth a) : o.Grounded a := by
  constructor
  · intro m ha
    obtain ⟨_, _, he⟩ := h.reaches ha
    exact he.known
  · intro m ha
    obtain ⟨_, _, he⟩ := h.reaches ha
    exact he.not_cyclic

/-- The functions that are called from a name, directly or through others. -/
def reached (o : Object) (a : String) : Set String := {m | TransGen o.Calls a m}

theorem mem_symbols_of_pointedTo? (h : o.pointedTo? r = some t) : t ∈ o.symbols := by
  rw [pointedTo?, Option.bind_eq_some_iff] at h
  obtain ⟨k, -, hk⟩ := h
  exact mem_of_getElem? hk

theorem mem_symbols_of_calls (h : TransGen o.Calls a m) : m ∈ o.symbols.map Symbol.name := by
  obtain ⟨b, -, s, -, r, -, t, ht, -, rfl⟩ := TransGen.tail'_iff.1 h
  exact mem_map_of_mem (mem_symbols_of_pointedTo? ht)

theorem reached_finite (o : Object) (a : String) : (o.reached a).Finite :=
  (finite_toSet (o.symbols.map Symbol.name)).subset fun _ hm => mem_symbols_of_calls hm

theorem ncard_reached_le (o : Object) (a : String) : (o.reached a).ncard ≤ o.symbols.length := by
  have he : ∀ m ∈ o.reached a, m ∈ ((o.symbols.map Symbol.name).toFinset : Set String) := by
    intro m hm
    simpa using mem_symbols_of_calls hm
  calc (o.reached a).ncard ≤ ((o.symbols.map Symbol.name).toFinset : Set String).ncard :=
        Set.ncard_le_ncard he (Finset.finite_toSet _)
    _ = (o.symbols.map Symbol.name).toFinset.card := Set.ncard_coe_finset _
    _ ≤ (o.symbols.map Symbol.name).length := toFinset_card_le _
    _ = o.symbols.length := length_map _

theorem ncard_reached_lt (hc : o.Calls a b) (hb : ¬ TransGen o.Calls b b) :
    (o.reached b).ncard < (o.reached a).ncard := by
  refine Set.ncard_lt_ncard ⟨fun m hm => ?_, fun hu => ?_⟩ (reached_finite o a)
  · exact TransGen.head hc hm
  · exact hb (hu (TransGen.single hc))

theorem Grounded.settles (h : o.Grounded a) (hd : (o.reached a).ncard ≤ depth) :
    o.Settles depth a := by
  have hl : ∀ b, o.Calls a b → (o.reached b).ncard < (o.reached a).ncard := fun b ha =>
    ncard_reached_lt ha (h.acyclic b (.single ha))
  induction depth generalizing a with
  | zero =>
    refine ⟨h.complete a .refl, fun b ha => ?_⟩
    have := hl b ha
    omega
  | succ k ih =>
    refine ⟨h.complete a .refl, fun b ha => ?_⟩
    have := hl b ha
    refine ih (h.call ha) (by omega) fun c hc => ?_
    exact ncard_reached_lt hc ((h.call ha).acyclic c (.single hc))

/-- Without recursion no chain of calls is longer than the list of symbols. -/
theorem settles_iff (hd : o.symbols.length ≤ depth) : o.Settles depth a ↔ o.Grounded a :=
  ⟨Settles.grounded, fun h => h.settles ((ncard_reached_le o a).trans hd)⟩

/-- A relocation points to a symbol, and if that is a function it settles at a smaller depth. -/
structure Ends (o : Object) (depth : Nat) (r : Relocation) : Prop where
  pointed : (o.pointedTo? r).isSome = true
  settles : ∀ b, o.Targets r b → ∃ k, depth = k + 1 ∧ o.Settles k b

theorem settles_iff_ends (hs : o.symbol? a = some s) :
    o.Settles depth a ↔ ∀ r ∈ s.relocations, o.Ends depth r := by
  have hc : o.Settles depth a ↔
      o.Known a ∧ ∀ b, o.Calls a b → ∃ k, depth = k + 1 ∧ o.Settles k b := by
    cases depth <;> simp [Settles]
  rw [hc, known_iff hs]
  simp only [calls_iff hs]
  constructor
  · intro h r hr
    exact ⟨h.1 r hr, fun b hb => h.2 b ⟨r, hr, hb⟩⟩
  · intro h
    refine ⟨fun r hr => (h r hr).pointed, fun b hb => ?_⟩
    obtain ⟨r, hr, hb⟩ := hb
    exact (h r hr).settles b hb

/-! ## Symbols and their names -/

/-- A symbol refers to a function: one of its relocations points to it. -/
def Refers (o : Object) (s t : Symbol) : Prop :=
  t.kind = .function ∧ ∃ r ∈ s.relocations, o.pointedTo? r = some t

/-- Every function is the first symbol of its name. -/
def NamesFunctions (o : Object) : Prop :=
  ∀ s ∈ o.symbols, s.kind = .function → o.symbol? s.name = some s

/-- The functions that the symbol of a name refers to, directly or through others. -/
def Reaches (o : Object) (a : String) (t : Symbol) : Prop :=
  ∃ s, o.symbol? a = some s ∧ TransGen o.Refers s t

/-- A name has a symbol, and the relocations of all that it refers to, and its own, point to
symbols. -/
def Whole (o : Object) (a : String) : Prop :=
  ∃ s, o.symbol? a = some s ∧
    ∀ t, ReflTransGen o.Refers s t → ∀ r ∈ t.relocations, (o.pointedTo? r).isSome = true

/-- Nothing that the symbol of a name refers to, and not the symbol, refers to itself through
others. -/
def NonRecursive (o : Object) (a : String) : Prop :=
  ∀ s, o.symbol? a = some s → ∀ t, ReflTransGen o.Refers s t → ¬ TransGen o.Refers t t

theorem name_of_symbol? (h : o.symbol? a = some s) : s.name = a := by
  rw [symbol?] at h
  split at h
  · cases h
  · simpa using find?_some h

theorem calls_iff_refers (hs : o.symbol? s.name = some s) :
    o.Calls s.name b ↔ ∃ t, o.Refers s t ∧ t.name = b := by
  rw [calls_iff hs]
  constructor
  · rintro ⟨r, hr, t, ht, hk, rfl⟩
    exact ⟨t, ⟨hk, r, hr, ht⟩, rfl⟩
  · rintro ⟨t, ⟨hk, r, hr, ht⟩, rfl⟩
    exact ⟨r, hr, t, ht, hk, rfl⟩

namespace NamesFunctions

variable (named : o.NamesFunctions) (hs : o.symbol? s.name = some s)

include named

theorem symbol?_of_refers (h : o.Refers s t) : o.symbol? t.name = some t := by
  obtain ⟨hk, r, -, ht⟩ := h
  exact named t (mem_symbols_of_pointedTo? ht) hk

include hs

theorem symbol?_of_reflTransGen (h : ReflTransGen o.Refers s t) : o.symbol? t.name = some t := by
  cases h with
  | refl => exact hs
  | tail _ h => exact named.symbol?_of_refers h

/-- What is reached by names is what is reached by symbols. -/
theorem reflTransGen_iff :
    ReflTransGen o.Calls s.name m ↔ ∃ t, ReflTransGen o.Refers s t ∧ t.name = m := by
  constructor
  · intro h
    induction h with
    | refl => exact ⟨s, .refl, rfl⟩
    | tail _ hc ih =>
      obtain ⟨t, ht, rfl⟩ := ih
      obtain ⟨u, hu, rfl⟩ := (calls_iff_refers (named.symbol?_of_reflTransGen hs ht)).1 hc
      exact ⟨u, ht.tail hu, rfl⟩
  · rintro ⟨t, ht, rfl⟩
    induction ht with
    | refl => exact .refl
    | tail ht hu ih =>
      exact ih.tail ((calls_iff_refers (named.symbol?_of_reflTransGen hs ht)).2 ⟨_, hu, rfl⟩)

theorem transGen_iff : TransGen o.Calls s.name m ↔ ∃ t, TransGen o.Refers s t ∧ t.name = m := by
  rw [TransGen.head'_iff]
  constructor
  · rintro ⟨b, hc, hb⟩
    obtain ⟨t, ht, rfl⟩ := (calls_iff_refers hs).1 hc
    obtain ⟨u, hu, rfl⟩ := (named.reflTransGen_iff (named.symbol?_of_refers ht)).1 hb
    exact ⟨u, .head' ht hu, rfl⟩
  · rintro ⟨u, hsu, rfl⟩
    obtain ⟨t, ht, hu⟩ := TransGen.head'_iff.1 hsu
    exact ⟨t.name, (calls_iff_refers hs).2 ⟨t, ht, rfl⟩,
      (named.reflTransGen_iff (named.symbol?_of_refers ht)).2 ⟨u, hu, rfl⟩⟩

theorem transGen_self_iff : TransGen o.Calls s.name s.name ↔ TransGen o.Refers s s := by
  rw [named.transGen_iff hs]
  refine ⟨fun h => ?_, fun h => ⟨s, h, rfl⟩⟩
  obtain ⟨t, hst, hn⟩ := h
  have ht := named.symbol?_of_reflTransGen hs hst.to_reflTransGen
  rw [hn, hs, Option.some_inj] at ht
  exact ht ▸ hst

omit hs

theorem reaches_iff : TransGen o.Calls a m ↔ ∃ t, o.Reaches a t ∧ t.name = m := by
  constructor
  · intro h
    obtain ⟨b, ⟨s, hs, -⟩, -⟩ := TransGen.head'_iff.1 h
    obtain rfl := name_of_symbol? hs
    obtain ⟨t, ht, rfl⟩ := (named.transGen_iff hs).1 h
    exact ⟨t, ⟨s, hs, ht⟩, rfl⟩
  · rintro ⟨t, ⟨s, hs, ht⟩, rfl⟩
    obtain rfl := name_of_symbol? hs
    exact (named.transGen_iff hs).2 ⟨t, ht, rfl⟩

theorem complete_iff : o.Complete a ↔ o.Whole a := by
  constructor
  · intro h
    obtain ⟨s, hs, -⟩ := h a .refl
    obtain rfl := name_of_symbol? hs
    refine ⟨s, hs, fun t ht => (known_iff (named.symbol?_of_reflTransGen hs ht)).1 ?_⟩
    exact h t.name ((named.reflTransGen_iff hs).2 ⟨t, ht, rfl⟩)
  · rintro ⟨s, hs, h⟩ m ha
    obtain rfl := name_of_symbol? hs
    obtain ⟨t, ht, rfl⟩ := (named.reflTransGen_iff hs).1 ha
    exact (known_iff (named.symbol?_of_reflTransGen hs ht)).2 (h t ht)

theorem grounded_iff : o.Grounded a ↔ o.Whole a ∧ o.NonRecursive a := by
  constructor
  · intro h
    refine ⟨named.complete_iff.1 h.complete, fun s hs t ht hc => ?_⟩
    obtain rfl := name_of_symbol? hs
    refine h.acyclic t.name ((named.reflTransGen_iff hs).2 ⟨t, ht, rfl⟩) ?_
    exact (named.transGen_self_iff (named.symbol?_of_reflTransGen hs ht)).2 hc
  · rintro ⟨hw, ha⟩
    refine ⟨named.complete_iff.2 hw, fun m hm hc => ?_⟩
    obtain ⟨s, hs, -⟩ := hw
    obtain rfl := name_of_symbol? hs
    obtain ⟨t, ht, rfl⟩ := (named.reflTransGen_iff hs).1 hm
    exact ha s hs t ht ((named.transGen_self_iff (named.symbol?_of_reflTransGen hs ht)).1 hc)

end NamesFunctions

end Object

namespace Database

variable {o : Object} {a m : String} {names more found : List String} {depth : Nat}

@[simp] theorem mem_addNames : m ∈ addNames names more ↔ m ∈ names ∨ m ∈ more := by
  rw [addNames]
  induction more generalizing names with
  | nil => simp
  | cons n rest ih =>
    rw [foldl_cons, ih]
    by_cases hn : names.contains n
    · have hm : n ∈ names := by simpa using hn
      rw [if_pos hn]
      grind
    · rw [if_neg hn]
      simp [or_assoc]

theorem nodup_addNames (h : names.Nodup) (more : List String) : (addNames names more).Nodup := by
  rw [addNames]
  induction more generalizing names with
  | nil => exact h
  | cons n rest ih =>
    rw [foldl_cons]
    by_cases hn : names.contains n
    · rw [if_pos hn]
      exact ih h
    · rw [if_neg hn]
      refine ih (nodup_append.2 ⟨h, nodup_singleton n, ?_⟩)
      intro x hx y hy hxy
      rw [hxy, mem_singleton.1 hy] at hx
      exact hn (by simpa using hx)

/-! ## The search, one relocation at a time -/

theorem calleesOf_eq (hs : o.symbol? a = some s) :
    calleesOf o depth a = calledBy o depth s.relocations [] := by
  rw [calleesOf, Object.symbol, hs]
  rfl

theorem calledBy_dangling (hr : o.pointedTo? r = none) (rs : List Relocation)
    (found : List String) : calledBy o depth (r :: rs) found = .error .absentAttribute := by
  rw [calledBy, Object.pointedTo, hr]
  rfl

theorem calledBy_other (ht : o.pointedTo? r = some t)
    (hk : t.kind ≠ .function) (rs : List Relocation) (found : List String) :
    calledBy o depth (r :: rs) found = calledBy o depth rs found := by
  rw [calledBy, Object.pointedTo, ht]
  exact if_neg hk

theorem calledBy_zero (ht : o.pointedTo? r = some t)
    (hk : t.kind = .function) (rs : List Relocation) (found : List String) :
    calledBy o 0 (r :: rs) found = .error .endless := by
  rw [calledBy, Object.pointedTo, ht]
  exact if_pos hk

theorem calledBy_succ (ht : o.pointedTo? r = some t)
    (hk : t.kind = .function) (rs : List Relocation) (found : List String) :
    calledBy o (depth + 1) (r :: rs) found = calleesOf o depth t.name >>= fun further =>
      calledBy o (depth + 1) rs (addNames (addNames found [t.name]) further) := by
  rw [calledBy, Object.pointedTo, ht]
  exact if_pos hk

/-! ## What is found -/

/-- The search from a function ends and finds what is reached. -/
def Finds (o : Object) (depth : Nat) (a : String) : Prop :=
  ∃ found, calleesOf o depth a = .ok found ∧ found.Nodup ∧ ∀ m, m ∈ found ↔ TransGen o.Calls a m

theorem calledBy_step (he : ∀ k b, depth = k + 1 → o.Settles k b → Finds o k b)
    (hr : o.Ends depth r) (rs : List Relocation) (found : List String) :
    ∃ found', calledBy o depth (r :: rs) found = calledBy o depth rs found' ∧
      (found.Nodup → found'.Nodup) ∧
      ∀ m, m ∈ found' ↔ m ∈ found ∨ ∃ b, o.Targets r b ∧ ReflTransGen o.Calls b m := by
  obtain ⟨t, ht⟩ := Option.isSome_iff_exists.1 hr.pointed
  by_cases hk : t.kind = .function
  · obtain ⟨k, rfl, hset⟩ := hr.settles t.name ⟨t, ht, hk, rfl⟩
    obtain ⟨further, hf, -, hm⟩ := he k t.name rfl hset
    rw [calledBy_succ ht hk, hf]
    refine ⟨addNames (addNames found [t.name]) further, rfl,
      fun h => nodup_addNames (nodup_addNames h _) _, fun m => ?_⟩
    simp only [mem_addNames, mem_singleton, hm, or_assoc, targets_iff ht, hk,
      true_and, exists_eq_left', reflTransGen_iff_eq_or_transGen]
  · rw [calledBy_other ht hk]
    refine ⟨found, rfl, id, fun m => ?_⟩
    simp [targets_iff ht, hk]

theorem calledBy_ok (hc : ∀ k b, depth = k + 1 → o.Settles k b → Finds o k b)
    {rs : List Relocation} (hrs : ∀ r ∈ rs, o.Ends depth r) (hn : found.Nodup) :
    ∃ found', calledBy o depth rs found = .ok found' ∧ found'.Nodup ∧ ∀ m, m ∈ found' ↔
      m ∈ found ∨ ∃ r ∈ rs, ∃ b, o.Targets r b ∧ ReflTransGen o.Calls b m := by
  induction rs generalizing found with
  | nil => exact ⟨found, by rw [calledBy], hn, by simp⟩
  | cons r rest ih =>
    obtain ⟨hr, he⟩ := forall_mem_cons.1 hrs
    obtain ⟨found₁, ht, hn₁, hm₁⟩ := calledBy_step hc hr rest found
    obtain ⟨found₂, hu, hn₂, hm₂⟩ := ih he (hn₁ hn)
    refine ⟨found₂, ht.trans hu, hn₂, fun m => ?_⟩
    rw [hm₂, hm₁, or_assoc, exists_mem_cons_iff]

/-- The search from a function that settles finds what is reached. The induction is on the depth,
since the search from a callee is another search. -/
theorem calleesOf_ok (h : o.Settles depth a) : Finds o depth a := by
  induction depth using Nat.strongRecOn generalizing a with
  | _ depth ih =>
    obtain ⟨s, hs, -⟩ := h.known
    have he : ∀ k b, depth = k + 1 → o.Settles k b → Finds o k b := fun k b hk =>
      ih k (by omega)
    obtain ⟨found, hf, hn, hmem⟩ := calledBy_ok he ((settles_iff_ends hs).1 h) nodup_nil
    refine ⟨found, (calleesOf_eq hs).trans hf, hn, fun m => ?_⟩
    rw [hmem, TransGen.head'_iff]
    simp only [calls_iff hs, not_mem_nil, false_or]
    constructor
    · rintro ⟨r, hr, b, hb, hm⟩
      exact ⟨b, ⟨r, hr, hb⟩, hm⟩
    · rintro ⟨b, ⟨r, hr, hb⟩, hm⟩
      exact ⟨r, hr, b, hb, hm⟩

/-! ## Searches that fail -/

/-- The search from a function fails; if all is known, because it does not end. -/
def Fails (o : Object) (depth : Nat) (a : String) : Prop :=
  ∃ e, calleesOf o depth a = .error e ∧ (o.Complete a → e = .endless)

theorem calledBy_stop (hc : ∀ k b, depth = k + 1 → ¬ o.Settles k b → Fails o k b)
    (hr : ¬ o.Ends depth r) (rs : List Relocation) (found : List String) :
    ∃ e, calledBy o depth (r :: rs) found = .error e ∧ ((o.pointedTo? r).isSome →
      (∀ b, o.Targets r b → o.Complete b) → e = .endless) := by
  cases ht : o.pointedTo? r with
  | none => exact ⟨_, calledBy_dangling ht rs found, by simp⟩
  | some t =>
    have hk : t.kind = .function := by
      by_contra hk
      exact hr ⟨by simp [ht], fun b hb => absurd ((targets_iff ht).1 hb).1 hk⟩
    cases depth with
    | zero => exact ⟨_, calledBy_zero ht hk rs found, fun _ _ => rfl⟩
    | succ k =>
      have hset : ¬ o.Settles k t.name := by
        intro hset
        refine hr ⟨by simp [ht], fun b hb => ⟨k, rfl, ?_⟩⟩
        rwa [← ((targets_iff ht).1 hb).2]
      obtain ⟨e, ha, he⟩ := hc k t.name rfl hset
      refine ⟨e, ?_, fun _ hl => he (hl t.name ⟨t, ht, hk, rfl⟩)⟩
      rw [calledBy_succ ht hk, ha]
      rfl

theorem calledBy_error (hrec : ∀ k b, depth = k + 1 → ¬ o.Settles k b → Fails o k b)
    {rs : List Relocation} (hrs : ¬ ∀ r ∈ rs, o.Ends depth r) (found : List String) :
    ∃ e, calledBy o depth rs found = .error e ∧ ((∀ r ∈ rs, (o.pointedTo? r).isSome) →
      (∀ r ∈ rs, ∀ b, o.Targets r b → o.Complete b) → e = .endless) := by
  induction rs generalizing found with
  | nil => simp at hrs
  | cons r rest ih =>
    by_cases hr : o.Ends depth r
    · have ht : ¬ ∀ r ∈ rest, o.Ends depth r := fun ht =>
        hrs (forall_mem_cons.2 ⟨hr, ht⟩)
      obtain ⟨found', hst, -, -⟩ := calledBy_step (fun _ _ _ => calleesOf_ok) hr rest found
      obtain ⟨e, hu, he⟩ := ih ht found'
      refine ⟨e, hst.trans hu, fun hp hc => ?_⟩
      exact he (forall_mem_cons.1 hp).2 (forall_mem_cons.1 hc).2
    · obtain ⟨e, hsp, he⟩ := calledBy_stop hrec hr rest found
      refine ⟨e, hsp, fun hp hc => ?_⟩
      exact he (hp r mem_cons_self) (hc r mem_cons_self)

theorem calleesOf_error (h : ¬ o.Settles depth a) : Fails o depth a := by
  induction depth using Nat.strongRecOn generalizing a with
  | _ depth ih =>
    cases hs : o.symbol? a with
    | none =>
      refine ⟨.absentKey, ?_, fun hc => ?_⟩
      · rw [calleesOf, Object.symbol, hs]
        rfl
      · obtain ⟨s, hs', -⟩ := hc a .refl
        rw [hs] at hs'
        cases hs'
    | some s =>
      rw [settles_iff_ends hs] at h
      obtain ⟨e, hu, he⟩ := calledBy_error (fun k b hk => ih k (by omega)) h []
      refine ⟨e, (calleesOf_eq hs).trans hu, fun hc => he ?_ fun r hr b hb => ?_⟩
      · exact (known_iff hs).1 (hc a .refl)
      · exact hc.call ((calls_iff hs).2 ⟨r, hr, hb⟩)

theorem settles_of_calleesOf (h : calleesOf o depth a = .ok found) : o.Settles depth a := by
  by_contra ht
  obtain ⟨e, he, -⟩ := calleesOf_error ht
  rw [h] at he
  cases he

/-! ## The search from some functions -/

def addCallees (o : Object) (depth : Nat) (found : List String) (name : String) :
    Except Fault (List String) := do
  if found.contains name then return found
  else return addNames found (← calleesOf o depth name)

theorem callees_eq (db : Database) (names : List String) :
    db.callees names = names.foldlM (addCallees db.object (db.object.symbols.length + 1)) [] := rfl

/-- Names without repetition, with all that is reached from them. -/
structure Collected (o : Object) (found : List String) : Prop where
  nodup : found.Nodup
  closed : ∀ n ∈ found, ∀ m, TransGen o.Calls n m → m ∈ found

theorem collected_nil (o : Object) : Collected o [] := ⟨nodup_nil, by simp⟩

/-- A name that was found is skipped. Nothing is lost by that: what is reached from it was found,
too. -/
theorem addCallees_ok (h : o.Settles depth a) (hf : Collected o found) :
    ∃ found', addCallees o depth found a = .ok found' ∧ Collected o found' ∧
      ∀ m, m ∈ found' ↔ m ∈ found ∨ TransGen o.Calls a m := by
  rw [addCallees]
  by_cases hk : found.contains a
  · have he : a ∈ found := by simpa using hk
    rw [if_pos hk]
    refine ⟨found, rfl, hf, fun m => ?_⟩
    exact (or_iff_left_of_imp (hf.closed a he m)).symm
  · obtain ⟨further, hu, -, he⟩ := calleesOf_ok h
    rw [if_neg hk, hu]
    refine ⟨addNames found further, rfl, ⟨nodup_addNames hf.nodup _, fun n hn m hm => ?_⟩,
      fun m => ?_⟩
    · rw [mem_addNames, he] at hn ⊢
      exact hn.imp (fun ho => hf.closed n ho m hm) (fun hw => hw.trans hm)
    · rw [mem_addNames, he]

theorem foldlM_addCallees_ok (hnms : ∀ n ∈ names, o.Settles depth n) (hf : Collected o found) :
    ∃ found', names.foldlM (addCallees o depth) found = .ok found' ∧ Collected o found' ∧
      ∀ m, m ∈ found' ↔ m ∈ found ∨ ∃ n ∈ names, TransGen o.Calls n m := by
  induction names generalizing found with
  | nil => exact ⟨found, rfl, hf, by simp⟩
  | cons n rest ih =>
    obtain ⟨hn, hrs⟩ := forall_mem_cons.1 hnms
    obtain ⟨found₁, ht, hf₁, hm₁⟩ := addCallees_ok hn hf
    obtain ⟨found₂, hr, hf₂, hm₂⟩ := ih hrs hf₁
    refine ⟨found₂, ?_, hf₂, fun m => ?_⟩
    · rw [foldlM_cons, ht]
      exact hr
    · rw [hm₂, hm₁, or_assoc, exists_mem_cons_iff]

theorem foldlM_addCallees_error (hd : o.symbols.length ≤ depth)
    (hnms : ¬ ∀ n ∈ names, o.Grounded n) (hf : Collected o found) (hg : ∀ n ∈ found, o.Grounded n) :
    ∃ e, names.foldlM (addCallees o depth) found = .error e ∧
      ((∀ n ∈ names, o.Complete n) → e = .endless) := by
  induction names generalizing found with
  | nil => simp at hnms
  | cons n rest ih =>
    rw [foldlM_cons]
    by_cases hn : o.Grounded n
    · have hr : ¬ ∀ n ∈ rest, o.Grounded n := fun hr =>
        hnms (forall_mem_cons.2 ⟨hn, hr⟩)
      obtain ⟨found', hst, hf', hmem⟩ := addCallees_ok ((settles_iff hd).2 hn) hf
      have hg' : ∀ m ∈ found', o.Grounded m := fun m hm =>
        ((hmem m).1 hm).elim (hg m) hn.reach
      obtain ⟨e, hu, he⟩ := ih hr hf' hg'
      rw [hst]
      exact ⟨e, hu, fun hc => he (forall_mem_cons.1 hc).2⟩
    · have hk : ¬ found.contains n := fun hk => hn (hg n (by simpa using hk))
      have ht : ¬ o.Settles depth n := fun ht => hn ht.grounded
      obtain ⟨e, ha, he⟩ := calleesOf_error ht
      rw [addCallees, if_neg hk, ha]
      exact ⟨e, rfl, fun hc => he (hc n mem_cons_self)⟩

theorem callees_grounded (db : Database) (names : List String) :
    ((∀ n ∈ names, db.object.Grounded n) → ∃ found, db.callees names = .ok found ∧ found.Nodup ∧
      ∀ m, m ∈ found ↔ ∃ n ∈ names, TransGen db.object.Calls n m) ∧
    ((¬ ∀ n ∈ names, db.object.Grounded n) → ∃ e, db.callees names = .error e ∧
      ((∀ n ∈ names, db.object.Complete n) → e = .endless ∧
        ∃ n ∈ names, ∀ depth, calleesOf db.object depth n = .error .endless)) := by
  rw [callees_eq]
  have hd : db.object.symbols.length ≤ db.object.symbols.length + 1 := by omega
  constructor
  · intro ha
    have ht : ∀ n ∈ names, db.object.Settles (db.object.symbols.length + 1) n :=
      fun n hn => (Object.settles_iff hd).2 (ha n hn)
    obtain ⟨found, hr, hf, hm⟩ := foldlM_addCallees_ok ht (collected_nil db.object)
    exact ⟨found, hr, hf.nodup, by simpa using hm⟩
  · intro ha
    obtain ⟨e, hr, he⟩ := foldlM_addCallees_error hd ha (collected_nil db.object) (by simp)
    refine ⟨e, hr, fun hc => ⟨he hc, ?_⟩⟩
    obtain ⟨n, hn, hg⟩ : ∃ n ∈ names, ¬ db.object.Grounded n := by simpa using ha
    refine ⟨n, hn, fun depth => ?_⟩
    obtain ⟨e', hl, he'⟩ := calleesOf_error fun h : db.object.Settles depth n =>
      hg h.grounded
    rw [hl, he' (hc n hn)]

/-- **What is referred to is found, unless there is recursion.** Let every function be the first
symbol of its name. If the relocations of everything that is reached from some names point to
symbols and nothing of it is recursive, the functions that are found are exactly those that are
reached by one or more references, each of them once. Otherwise the search fails. If nothing is
missing it is the recursion that it fails for, and from one of the names it does not end at any
depth. -/
theorem callees_exact_iff_grounded (db : Database) (named : db.object.NamesFunctions)
    (names : List String) :
    ((∀ n ∈ names, db.object.Whole n ∧ db.object.NonRecursive n) →
      ∃ found, db.callees names = .ok found ∧ found.Nodup ∧
        ∀ m, m ∈ found ↔ ∃ n ∈ names, ∃ t, db.object.Reaches n t ∧ t.name = m) ∧
    ((¬ ∀ n ∈ names, db.object.Whole n ∧ db.object.NonRecursive n) →
      ∃ e, db.callees names = .error e ∧ ((∀ n ∈ names, db.object.Whole n) → e = .endless ∧
        ∃ n ∈ names, ∀ depth, calleesOf db.object depth n = .error .endless)) := by
  simp only [← named.grounded_iff, ← named.reaches_iff]
  simp only [← named.complete_iff]
  exact callees_grounded db names

/-! ## Examples -/

/-- Two functions call a third one, and a fourth calls both. -/
def sharedCallee : Database where
  object := {
    raw := [], order := .little, sections := []
    symbols := [
      ⟨0, "main", .function, 1, 0, 12, false,
        [⟨1, "R_X86_64_PLT32", -4, some 1, some 1⟩, ⟨6, "R_X86_64_PLT32", -4, some 2, some 1⟩]⟩,
      ⟨1, "left", .function, 2, 0, 6, false, [⟨1, "R_X86_64_PLT32", -4, some 3, some 2⟩]⟩,
      ⟨2, "right", .function, 3, 0, 6, false, [⟨1, "R_X86_64_PLT32", -4, some 3, some 3⟩]⟩,
      ⟨3, "shared", .function, 4, 0, 1, false, []⟩] }
  definitions := []
  isThumb := false

theorem sharedCallee_named : sharedCallee.object.NamesFunctions := by
  simp [NamesFunctions, sharedCallee, Object.symbol?]

theorem sharedCallee_calls : TransGen sharedCallee.object.Calls "main" "shared" :=
  .head (b := "left") ⟨_, rfl, _, mem_cons_self, _, rfl, rfl, rfl⟩
    (.single ⟨_, rfl, _, mem_cons_self, _, rfl, rfl, rfl⟩)

/-- What is called from both sides is found once, and a name that was found is skipped. -/
theorem sharedCallee_callees : sharedCallee.object.NamesFunctions ∧
    ∃ found, sharedCallee.callees ["main", "left"] = .ok found ∧ found.Nodup ∧
      "shared" ∈ found := by
  have hm : ∃ found, calleesOf sharedCallee.object 2 "main" = .ok found := by
    simp [calleesOf, calledBy, sharedCallee, Object.symbol, Object.symbol?, Object.pointedTo,
      Object.pointedTo?, bind, Except.bind]
  have hg : sharedCallee.object.Grounded "main" := by
    obtain ⟨found, hf⟩ := hm
    exact (settles_of_calleesOf hf).grounded
  have hl : sharedCallee.object.Grounded "left" :=
    hg.call ⟨_, rfl, _, List.mem_cons_self, _, rfl, rfl, rfl⟩
  obtain ⟨found, hf, hn, he⟩ :=
    (callees_exact_iff_grounded sharedCallee sharedCallee_named ["main", "left"]).1
      (List.forall_mem_cons.2 ⟨sharedCallee_named.grounded_iff.1 hg,
        List.forall_mem_singleton.2 (sharedCallee_named.grounded_iff.1 hl)⟩)
  exact ⟨sharedCallee_named, found, hf, hn, (he "shared").2
    ⟨"main", List.mem_cons_self, sharedCallee_named.reaches_iff.1 sharedCallee_calls⟩⟩

def even : Symbol :=
  ⟨0, "even", .function, 1, 0, 6, false, [⟨1, "R_X86_64_PLT32", -4, some 1, some 1⟩]⟩

def odd : Symbol :=
  ⟨1, "odd", .function, 2, 0, 6, false, [⟨1, "R_X86_64_PLT32", -4, some 0, some 2⟩]⟩

/-- Two functions that call each other. -/
def mutualCallees : Database where
  object := { raw := [], order := .little, sections := [], symbols := [even, odd] }
  definitions := []
  isThumb := false

/-- Both functions are reached, and neither is found. -/
theorem mutual_recursion_endless : mutualCallees.object.NamesFunctions ∧
    mutualCallees.object.Reaches "even" odd ∧ mutualCallees.object.Reaches "even" even ∧
    mutualCallees.callees ["even"] = .error .endless := by
  have ho : mutualCallees.object.Refers even odd := ⟨rfl, _, List.mem_cons_self, rfl⟩
  have he : mutualCallees.object.Refers odd even := ⟨rfl, _, List.mem_cons_self, rfl⟩
  refine ⟨?_, ⟨even, rfl, .single ho⟩, ⟨even, rfl, .head ho (.single he)⟩, ?_⟩
  · simp [NamesFunctions, mutualCallees, even, odd, Object.symbol?]
  · simp [callees, calleesOf, calledBy, mutualCallees, even, odd, Object.symbol, Object.symbol?,
      Object.pointedTo, Object.pointedTo?, bind, Except.bind, throw, throwThe,
      MonadExceptOf.throw]

end Database

end Patchwork
