import Patchwork.Proofs.Program.Resolution

/-!
# What a database remembers

A database hands the relocations of a function out one by one and remembers those that were
taken. Whoever asks later is given what is remembered. So what a later reader sees depends on
who asked first, and on how far they came: those who took everything leave everything, those
who gave up or failed half way leave the entries that they had taken, the last one included.
-/

namespace Patchwork

open List

namespace Database

variable {db : Database} {name : String} {stencil : Bool} {entries : List RelocationEntry}

/-! ## Reading everything -/

def Handout.all (h : Handout) : Except Fault (List RelocationEntry) :=
  match h.fault with
  | none => .ok h.entries
  | some f => .error f

theorem walk_append (found entries : List RelocationEntry) :
    walk (fun found e => .ok (found ++ [e])) found entries =
      (.ok (found ++ entries), entries.length) := by
  induction entries generalizing found with
  | nil => simp [walk]
  | cons e rest ih => simp [walk, ih]

theorem relocations_fst (db : Database) (name : String) (stencil : Bool) :
    (db.relocations name stencil).1 = (db.handout name stencil).all := by
  rw [relocations, eachRelocation, walk_append, Handout.all]
  cases (db.handout name stencil).fault <;> rfl

/-! ## Remembering -/

theorem handout_of_lookup (h : db.handedOut.lookup (name, stencil) = some entries) :
    db.handout name stencil = ⟨entries, none⟩ := by
  rw [handout, h]

theorem handout_of_lookup_none (h : db.handedOut.lookup (name, stencil) = none) :
    db.handout name stencil = look db.object name stencil := by
  rw [handout, h]

@[simp] theorem object_remember (db : Database) (name : String) (stencil : Bool)
    (entries : List RelocationEntry) : (db.remember name stencil entries).object = db.object := by
  rw [remember]
  split <;> rfl

theorem lookup_remember (db : Database) (name : String) (stencil : Bool)
    (entries : List RelocationEntry) (key : String × Bool) :
    (db.remember name stencil entries).handedOut.lookup key =
      (db.handedOut.lookup key).or (if key == (name, stencil) then some entries else none) := by
  rw [remember]
  cases ho : db.handedOut.lookup (name, stencil) with
  | some old =>
    by_cases hk : key = (name, stencil)
    · simp [hk, ho]
    · simp [hk]
  | none =>
    by_cases hk : key = (name, stencil)
    · simp [hk, ho]
    · simp [lookup_cons, beq_false_of_ne hk]

/-! ## Consumers -/

/-- Somebody who goes through the relocations of a function and does something with each of
them, until it fails. -/
structure Consumer where
  name : String
  stencil : Bool
  {σ : Type}
  start : σ
  act : σ → RelocationEntry → Except Fault σ

namespace Consumer

def complete (name : String) (stencil : Bool) : Consumer :=
  ⟨name, stencil, [], fun found e => .ok (found ++ [e])⟩

/-- Whether a consumer goes through the relocations of a function. -/
def asks (c : Consumer) (name : String) (stencil : Bool) : Bool :=
  (name, stencil) == (c.name, c.stencil)

/-- How many of some entries a consumer takes: all up to the one that it fails at. -/
def taken (c : Consumer) (entries : List RelocationEntry) : Nat := (walk c.act c.start entries).2

def left (c : Consumer) (h : Handout) : List RelocationEntry := h.entries.take (c.taken h.entries)

end Consumer

/-- The database after somebody went through the relocations of a function. -/
def after (db : Database) (c : Consumer) : Database :=
  (db.eachRelocation c.name c.stencil c.start c.act).2

def afterAll (db : Database) (history : List Consumer) : Database := history.foldl after db

def fresh (db : Database) : Database := { db with handedOut := [] }

theorem afterAll_append (db : Database) (history more : List Consumer) :
    db.afterAll (history ++ more) = (db.afterAll history).afterAll more := foldl_append

theorem walk_taken_le {σ : Type} (act : σ → RelocationEntry → Except Fault σ) (state : σ)
    (entries : List RelocationEntry) : (walk act state entries).2 ≤ entries.length := by
  induction entries generalizing state with
  | nil => exact Nat.le_refl 0
  | cons e rest ih =>
    rw [walk]
    split
    · simp
    · exact Nat.succ_le_succ (ih _)

theorem Consumer.taken_le (c : Consumer) (entries : List RelocationEntry) :
    c.taken entries ≤ entries.length := walk_taken_le c.act c.start entries

theorem after_eq (db : Database) (c : Consumer) :
    db.after c = db.remember c.name c.stencil (c.left (db.handout c.name c.stencil)) := by
  rw [after, eachRelocation, Consumer.left, Consumer.taken]
  dsimp only
  split <;> rfl

@[simp] theorem object_after (db : Database) (c : Consumer) : (db.after c).object = db.object := by
  rw [after_eq, object_remember]

@[simp] theorem object_afterAll (db : Database) (history : List Consumer) :
    (db.afterAll history).object = db.object := by
  induction history generalizing db with
  | nil => rfl
  | cons c rest ih => rw [afterAll, foldl_cons, ← afterAll, ih, object_after]

theorem lookup_after (db : Database) (c : Consumer) (name : String) (stencil : Bool) :
    (db.after c).handedOut.lookup (name, stencil) = (db.handedOut.lookup (name, stencil)).or
      (if c.asks name stencil then some (c.left (look db.object name stencil)) else none) := by
  rw [after_eq, lookup_remember, Consumer.asks]
  cases ho : db.handedOut.lookup (name, stencil) with
  | some old => rfl
  | none =>
    by_cases hk : (name, stencil) = (c.name, c.stencil)
    · obtain ⟨rfl, rfl⟩ := Prod.ext_iff.1 hk
      rw [handout_of_lookup_none ho]
    · simp [hk]

theorem lookup_afterAll (db : Database) (history : List Consumer) (name : String) (stencil : Bool) :
    (db.afterAll history).handedOut.lookup (name, stencil) =
      (db.handedOut.lookup (name, stencil)).or ((history.find? (·.asks name stencil)).map fun c =>
        c.left (look db.object name stencil)) := by
  induction history generalizing db with
  | nil => simp [afterAll]
  | cons c rest ih =>
    rw [afterAll, foldl_cons, ← afterAll, ih, lookup_after, object_after, find?_cons]
    cases db.handedOut.lookup (name, stencil) <;> cases c.asks name stencil <;> simp

end Database

/-! ## Assembling a program -/

namespace Assembly

variable {α β : Type}

/-- Whether it fails or not, a computation leaves the database as some consumers would. -/
def Leaves (x : Build α) : Prop := ∀ db : Database, ∃ history, (x.run db).2 = db.afterAll history

theorem leaves_pure (a : α) : Leaves (pure a) := fun _ => ⟨[], rfl⟩

theorem leaves_check (r : Except Fault α) : Leaves (check r) := fun _ => ⟨[], rfl⟩

theorem leaves_throw (f : Fault) : Leaves (throw f : Build α) := fun _ => ⟨[], rfl⟩

theorem leaves_get : Leaves (get : Build Database) := fun _ => ⟨[], rfl⟩

theorem leaves_eachRelocation {σ : Type} (name : String) (stencil : Bool) (start : σ)
    (act : σ → RelocationEntry → Except Fault σ) :
    Leaves (eachRelocation name stencil start act) := fun _ => ⟨[⟨name, stencil, start, act⟩], rfl⟩

theorem Leaves.bind {x : Build α} {f : α → Build β} (hx : Leaves x) (hf : ∀ a, Leaves (f a)) :
    Leaves (x >>= f) := by
  intro db
  obtain ⟨history, hh⟩ := hx db
  change ∃ history, (ExceptT.bindCont f (x.run db).1 (x.run db).2).2 = db.afterAll history
  rw [hh]
  cases (x.run db).1 with
  | error e => exact ⟨history, rfl⟩
  | ok a =>
    obtain ⟨more, hm⟩ := hf a (db.afterAll history)
    exact ⟨history ++ more, hm.trans (Database.afterAll_append ..).symm⟩

theorem Leaves.foldlM {f : α → β → Build α} (hf : ∀ a b, Leaves (f a b)) (xs : List β) (a : α) :
    Leaves (xs.foldlM f a) := by
  induction xs generalizing a with
  | nil => exact leaves_pure a
  | cons x rest ih =>
    rw [foldlM_cons]
    exact (hf a x).bind ih

theorem leaves_addStep (g : Graph) (db : Database) (p : Places) (c : Code) (s : Step) :
    Leaves (addStep g db p c s) := by
  rw [addStep]
  dsimp only
  split
  · exact (leaves_check _).bind fun _ => (leaves_eachRelocation _ _ _ _).bind fun _ => leaves_pure _
  · exact (leaves_throw _).bind fun _ => (leaves_check _).bind fun _ =>
      (leaves_eachRelocation _ _ _ _).bind fun _ => leaves_pure _

theorem leaves_link (g : Graph) (plan : Plan) (aux : List String) (consts : List Nat) :
    Leaves (link g plan aux consts) := by
  have he : ∀ w c, Leaves (emit w c) := fun w c => leaves_check _
  rw [link]
  -- the cells, the constants and where the code begins
  refine leaves_get.bind fun db => (he _ _).bind fun w => (leaves_check _).bind fun sections =>
    (leaves_check _).bind fun slots => (he _ _).bind fun w => ?_
  refine (Leaves.foldlM (fun w s => (leaves_check _).bind fun _ => he _ _) _ _).bind fun w => ?_
  refine (leaves_check _).bind fun w => (leaves_check _).bind fun functions =>
    (leaves_check _).bind fun start => ?_
  -- the stencils and the functions that they call
  refine (Leaves.foldlM (leaves_addStep g db _) _ _).bind fun code => ?_
  refine (leaves_check _).bind fun stop => (he _ _).bind fun w => ?_
  refine (Leaves.foldlM (fun w s => (leaves_check _).bind fun _ => he _ _) _ _).bind fun w => ?_
  refine (Leaves.foldlM (fun ps f => leaves_eachRelocation _ _ _ _) _ _).bind fun patches => ?_
  -- the patches
  refine (he _ _).bind fun w => ?_
  exact (Leaves.foldlM (fun w p => (leaves_check _).bind fun _ => he _ _) _ _).bind fun w =>
    (he _ _).bind fun w => leaves_pure _

theorem leaves_assemble (g : Graph) (roots : List NodeId) : Leaves (assemble g roots) := by
  rw [assemble]
  exact leaves_get.bind fun db => (leaves_check _).bind fun plan => (leaves_check _).bind fun _ =>
    (leaves_check _).bind fun consts => leaves_link g plan _ consts

end Assembly

/-! ## A later reader -/

namespace Database

/-- A handout that was not gone through to its end is never seen whole again. -/
theorem Consumer.left_eq_all_iff (c : Consumer) (h : Handout) :
    .ok (c.left h) = h.all ↔ h.fault = none ∧ c.taken h.entries = h.entries.length := by
  rw [Handout.all, Consumer.left]
  cases h.fault with
  | some f => simp
  | none =>
    have he := c.taken_le h.entries
    simp only [Except.ok.injEq, true_and]
    constructor
    · intro heq
      have hl := congrArg List.length heq
      rw [length_take] at hl
      omega
    · intro ha
      rw [ha, take_length]

/-- **A reader sees what the first consumer left.** After any history of consumers, somebody who
takes all relocations of a function is given what somebody is given who asks a database from
which nothing was handed out, unless a consumer asked for them before. If one did, the reader is
given the entries that the first of these took, and no fault. That is the same exactly if nothing
was at fault and they took all entries. Assembling a program, whether it fails or not, is such a
history. -/
theorem relocations_after_history (db : Database) (history : List Consumer) (name : String)
    (stencil : Bool) :
    let h := look db.object name stencil
    let later := ((db.fresh.afterAll history).relocations name stencil).1
    let first := (db.fresh.relocations name stencil).1
    (history.find? (·.asks name stencil) = none → later = first) ∧
    (∀ c, history.find? (·.asks name stencil) = some c → later = .ok (c.left h) ∧
      (later = first ↔ h.fault = none ∧ c.taken h.entries = h.entries.length)) ∧
    ∀ g roots, ∃ more, ((Assembly.assemble g roots).run (db.fresh.afterAll history)).2 =
      db.fresh.afterAll (history ++ more) := by
  intro h later first
  have hf : first = h.all := relocations_fst ..
  have hl := lookup_afterAll db.fresh history name stencil
  refine ⟨fun hn => ?_, fun c hc => ?_, fun g roots => ?_⟩
  · rw [hn] at hl
    have hh := handout_of_lookup_none hl
    rw [object_afterAll] at hh
    calc later = _ := relocations_fst ..
      _ = h.all := congrArg Handout.all hh
      _ = first := hf.symm
  · rw [hc] at hl
    have ha : later = .ok (c.left h) :=
      (relocations_fst ..).trans (congrArg Handout.all (handout_of_lookup hl))
    refine ⟨ha, ?_⟩
    rw [ha, hf]
    exact c.left_eq_all_iff h
  · obtain ⟨more, hm⟩ := Assembly.leaves_assemble g roots (db.fresh.afterAll history)
    exact ⟨more, hm.trans (afterAll_append ..).symm⟩

/-- After somebody took all relocations of another function and somebody all of this one. -/
theorem relocations_after_complete_history :
    ((Assembly.sineDatabase.fresh.afterAll [.complete "store_float_reg0_float_int" true,
      .complete "sin_float" true]).relocations "sin_float" true).1 =
        (Assembly.sineDatabase.fresh.relocations "sin_float" true).1 :=
  ((relocations_after_history Assembly.sineDatabase _ "sin_float" true).2.1
    (.complete "sin_float" true) rfl).2.2 ⟨by decide +kernel, by decide +kernel⟩

end Database

/-! ## A failed assembly -/

namespace Assembly

def sineMissing : Database :=
  { sineDatabase with object := { sineObject with
      symbols := sineObject.symbols.set 4 ⟨4, "sinf", .noType, 0, 0, 0, false, []⟩ } }

theorem run_get_bind {α : Type} (db : Database) (f : Database → Build α) :
    (get >>= f : Build α).run db = (f db).run db := rfl

theorem run_check_bind {α β : Type} {db : Database} {r : Except Fault α} {a : α} (h : r = .ok a)
    (f : α → Build β) : (check r >>= f).run db = (f a).run db := by
  rw [h]
  rfl

theorem assemble_run {g : Graph} {roots : List NodeId} {db : Database} {plan : Plan}
    {names : List String} {consts : List Nat} (hp : Plan.ofRoots g roots = .ok plan)
    (hn : db.callees (stencilNames g plan.steps) = .ok names)
    (hc : db.constantSections (Database.addNames (names.mergeSort (· ≤ ·))
      (stencilNames g plan.steps)) = .ok consts) :
    (assemble g roots).run db = (link g plan (names.mergeSort (· ≤ ·)) consts).run db := by
  rw [assemble]
  refine (run_get_bind db _).trans ?_
  refine (run_check_bind hp _).trans ?_
  refine (run_check_bind hn _).trans ?_
  exact run_check_bind hc _

theorem sineMissing_run :
    (assemble sine [2]).run sineMissing = (link sine sinePlan [] []).run sineMissing := by
  have hn : stencilNames sine sinePlan.steps =
      ["load_float_reg0_int_int", "sin_float", "store_float_reg0_float_int"] := by
    decide +kernel
  refine (@assemble_run sine [2] sineMissing sinePlan [] [] sine_plan ?_ ?_).trans
    (by rw [mergeSort_nil])
  · rw [hn]
    simp [Database.callees, Database.calleesOf, Database.calledBy, sineMissing, sineObject,
      Object.symbol, Object.symbol?, Object.pointedTo, Object.pointedTo?, Database.addNames, bind,
      Except.bind, pure, Except.pure]
  · decide +kernel

/-- The sine cannot be linked. Its stencil has two relocations, and the first of them is at
fault; afterwards the database knows of no other. -/
theorem failed_assembly_forgets :
    ((assemble sine [2]).run sineMissing).1.map (fun _ => ()) =
      .error (.violated (.linkedSymbol "sin_float" "sinf")) ∧
    ((((assemble sine [2]).run sineMissing).2.relocations "sin_float" true).1.map
      fun es => es.map (·.symbolName)) = .ok ["sinf"] ∧
    ((sineMissing.relocations "sin_float" true).1.map fun es => es.map (·.symbolName)) =
      .ok ["sinf", "result_float"] := by
  rw [sineMissing_run]
  refine ⟨?_, ?_, ?_⟩ <;> decide +kernel

end Assembly

end Patchwork
