import Patchwork.Machine.Image
import Patchwork.Proofs.Stream.Extent
import Patchwork.Proofs.Stream.RoundTrip

/-!
# What a stream leaves in memory

The runner reads back the commands that were written and carries them out one after the
other. Copies overwrite bytes of a memory. So does a patch of a whole word, because it keeps
no bit of what was there. What a memory holds in the end is then a matter of which writes
come after which.
-/

namespace Patchwork

open Command List

variable {bs : Bytes} {cs : List Command} {k start : Nat}

/-! ## Overwriting -/

namespace Bytes

theorem length_overwrite (bs : Bytes) (start : Nat) (r : Bytes) :
    (bs.overwrite start r).length = bs.length := by
  simp [overwrite, splice]
  omega

theorem getElem?_overwrite (bs : Bytes) (start : Nat) (r : Bytes) (hk : k < bs.length) :
    (bs.overwrite start r)[k]? = if start ≤ k ∧ k < start + r.length then r[k - start]? else bs[k]? := by
  have hm : max start (start + r.length) = start + r.length := by omega
  rw [overwrite, splice, getElem?_take_of_lt hk, hm, append_assoc]
  by_cases hb : k < start
  · rw [if_neg (by omega), getElem?_append_left (by simp; omega), getElem?_take_of_lt hb]
  · have ht : (bs.take start).length = start := by simp; omega
    rw [getElem?_append_right (by omega), ht]
    by_cases hi : k < start + r.length
    · rw [if_pos (by omega), getElem?_append_left (by omega)]
    · rw [if_neg (by omega), getElem?_append_right (by omega), getElem?_drop]
      congr 1
      omega

def overwriteAll (bs : Bytes) (writes : List (Nat × Bytes)) : Bytes :=
  writes.foldl (fun bs w => bs.overwrite w.1 w.2) bs

@[simp] theorem length_overwriteAll (bs : Bytes) (writes : List (Nat × Bytes)) :
    (bs.overwriteAll writes).length = bs.length := by
  induction writes generalizing bs with
  | nil => rfl
  | cons w rest ih => exact (ih _).trans (length_overwrite bs w.1 w.2)

/-- Bytes lie at a place of a memory, apart from some positions of it. -/
def Holds (bs : Bytes) (start : Nat) (content : Bytes) (changed : Nat → Prop) : Prop :=
  ∀ j < content.length, ¬ changed (start + j) → bs[start + j]? = content[j]?

theorem Holds.drop_take {content : Bytes} (h : bs.Holds start content fun _ => False) :
    (bs.drop start).take content.length = content := by
  refine ext_getElem? fun j => ?_
  by_cases hj : j < content.length
  · rw [getElem?_take_of_lt hj, getElem?_drop]
    exact h j hj not_false
  · rw [getElem?_eq_none (by simp; omega), getElem?_eq_none (by omega)]

theorem take_drop_overwrite_self {r : Bytes} (h : start + r.length ≤ bs.length) :
    ((bs.overwrite start r).drop start).take r.length = r := by
  refine Holds.drop_take fun j hj _ => ?_
  rw [getElem?_overwrite bs start r (by omega), if_pos (by omega), Nat.add_sub_cancel_left]

theorem take_drop_overwrite_of_apart {r : Bytes} {n : Nat} (hi : k + n ≤ bs.length)
    (h : k + n ≤ start ∨ start + r.length ≤ k) :
    ((bs.overwrite start r).drop k).take n = (bs.drop k).take n := by
  refine ext_getElem? fun j => ?_
  by_cases hj : j < n
  · rw [getElem?_take_of_lt hj, getElem?_take_of_lt hj, getElem?_drop,
      getElem?_drop, getElem?_overwrite bs start r (by omega), if_neg (by omega)]
  · rw [getElem?_eq_none (by simp; omega), getElem?_eq_none (by simp; omega)]

end Bytes

/-! ## Whole words -/

namespace Image

variable {p : Placement} {i i' : Image}

theorem toNat_wrapped (v : Int) : (wrapped v).toNat = (v % 2 ^ 32).toNat := by
  rw [wrapped, ← UInt32.toNat_toBitVec]
  exact BitVec.toNat_ofInt v

/-- The effect of a command that does not end the stream. -/
def step? (p : Placement) (i : Image) (c : Command) : Option Image :=
  if (i.execute p c).result.isNone then some (i.execute p c).image else none

/-- The effect of commands none of which ends the stream. -/
def executeAll (p : Placement) (i : Image) (cs : List Command) : Option Image := cs.foldlM (step? p) i

theorem executeAll_append {ds : List Command} {i'' : Image} (h : i.executeAll p cs = some i')
    (h' : i'.executeAll p ds = some i'') : i.executeAll p (cs ++ ds) = some i'' := by
  rw [executeAll] at h
  rw [executeAll, foldlM_append, h]
  exact h'

theorem step?_of_execute {c : Command} (h : i.execute p c = { image := i' }) :
    step? p i c = some i' := by
  rw [step?, h]
  rfl

theorem executeAll_cons {c : Command} (h : i.execute p c = { image := i' }) (cs : List Command) :
    i.executeAll p (c :: cs) = i'.executeAll p cs := by
  rw [executeAll, foldlM_cons, step?_of_execute h]
  rfl

theorem length_patched (bs : Bytes) (kind : PatchKind) (offset mask scale value : Int) :
    (i.patched p bs kind offset mask scale value).length = bs.length := by
  cases kind <;> exact Bytes.length_overwrite _ _ _

/-- No memory is empty. -/
structure Mapped (i : Image) : Prop where
  data : i.data ≠ some []
  code : i.code ≠ some []

theorem addressOf_some {bs : Bytes} (h : 0 < bs.length) (place : Int) :
    addressOf place (some bs) = place := by
  cases bs with
  | nil => cases h
  | cons => rfl

/-- Memories that are not too far apart get a distance. -/
theorem measured_near (h : (p.data - p.code).natAbs ≤ 0x7fffffff) (hi : i.Mapped) :
    measured p i =
      { image := { i with dataOffset := Int32.ofInt (i.dataAddress p - i.codeAddress p) } } := by
  rw [measured, if_neg]
  rintro hf
  simp only [Bool.and_eq_true, decide_eq_true_eq, Option.isSome_iff_exists] at hf
  obtain ⟨⟨⟨data, hd⟩, ⟨code, hc⟩⟩, hf⟩ := hf
  rw [dataAddress, codeAddress, hd, hc, addressOf_some (length_pos_iff.2 fun h => hi.data (h ▸ hd)),
    addressOf_some (length_pos_iff.2 fun h => hi.code (h ▸ hc))] at hf
  omega

theorem mapped_measured : (measured p i).image.Mapped ↔ i.Mapped := by
  rw [measured]
  split <;> exact ⟨fun h => ⟨h.data, h.code⟩, fun h => ⟨h.data, h.code⟩⟩

theorem map_ne_some_nil {m : Option Bytes} {f : Bytes → Bytes} (hm : m ≠ some [])
    (hf : ∀ bs, (f bs).length = bs.length) : m.map f ≠ some [] := by
  intro h
  obtain ⟨bs, rfl, hb⟩ := Option.map_eq_some_iff.1 h
  have hl := hf bs
  rw [hb] at hl
  exact hm (congrArg some (length_eq_zero_iff.1 hl.symm))

theorem Mapped.execute {c : Command} (h : i.Mapped) (hc : c.Allocates) :
    (i.execute p c).image.Mapped := by
  have hn : ∀ size : Int, 0 < size → some (replicate size.toNat (0 : UInt8)) ≠ some [] := by
    intro size hs hi
    have := congrArg length (Option.some.inj hi)
    simp at this
    omega
  cases c with
  | allocateData size => exact mapped_measured.2 ⟨hn size hc, h.code⟩
  | allocateCode size => exact mapped_measured.2 ⟨h.data, hn size hc⟩
  | copyData => exact ⟨map_ne_some_nil h.data fun _ => Bytes.length_overwrite .., h.code⟩
  | copyCode => exact ⟨h.data, map_ne_some_nil h.code fun _ => Bytes.length_overwrite ..⟩
  | patch => exact ⟨h.data, map_ne_some_nil h.code fun _ => length_patched ..⟩
  | freeMemory => exact ⟨nofun, nofun⟩
  | _ => exact ⟨h.data, h.code⟩

/-- Every command is carried out that does not end a stream and allocates nothing. -/
theorem exists_executeAll
    (h : ∀ c ∈ cs, c.isLast = false ∧ ∀ e : Extent, e.after c = e) (i : Image) :
    ∃ i', i.executeAll p cs = some i' := by
  induction cs generalizing i with
  | nil => exact ⟨i, rfl⟩
  | cons c rest ih =>
    obtain ⟨⟨hl, ha⟩, hr⟩ := forall_mem_cons.1 h
    have he : (i.execute p c).result = none := by
      cases c with
      | allocateData size | allocateCode size => cases ha {}
      | endCommands | dumpCode => cases hl
      | _ => rfl
    obtain ⟨i', hs⟩ := ih hr (i.execute p c).image
    rw [executeAll, foldlM_cons, step?, he]
    exact ⟨i', hs⟩

theorem executeAll_copyData (writes : List (Int × Int × Bytes)) :
    i.executeAll p (writes.map fun w => .copyData w.1 w.2.1 w.2.2) =
      some { i with data := i.data.map fun bs =>
        bs.overwriteAll (writes.map fun w => (w.1.toNat, w.2.2)) } := by
  induction writes generalizing i with
  | nil =>
    have hd : (i.data.map fun bs => bs.overwriteAll []) = i.data := by simp [Bytes.overwriteAll]
    rw [map_nil, map_nil, hd]
    rfl
  | cons w rest ih =>
    rw [map_cons, executeAll_cons rfl, ih]
    simp [Bytes.overwriteAll, Function.comp_def]

/-- Carries out commands until one of them ends the stream. A list that no command ends is
followed by a code that is not known. -/
def obey (p : Placement) : Image → List Command → Outcome
  | i, [] => { image := i, result := some (-1) }
  | i, c :: cs =>
    let outcome := i.execute p c
    match outcome.result with
    | some _ => outcome
    | none =>
      let rest := obey p outcome.image cs
      { rest with output := outcome.output ++ rest.output }

theorem runUpTo_bytes (he : ∀ c ∈ cs, c.Encodable)
    (hz : ∀ c ∈ cs, c.Sized) {steps : Nat} (hs : cs.length < steps) (behind : Bytes) :
    runUpTo p steps i (.between .little behind (cs.flatMap (bytes .little))) =
      obey p i cs := by
  obtain ⟨steps, rfl⟩ : ∃ n, steps = n + 1 := ⟨steps - 1, by omega⟩
  induction cs generalizing i steps behind with
  | nil =>
    rw [flatMap_nil, runUpTo, read_between_nil]
    rfl
  | cons c rest ih =>
    have hrd := read_bytes .little (he c mem_cons_self)
      (hz c mem_cons_self) behind (rest.flatMap (bytes .little))
    obtain ⟨n, rfl⟩ : ∃ n, steps = n + 1 := ⟨steps - 1, by simp at hs; omega⟩
    have hrs := fun i' => @ih i' (fun d hd => he d (mem_cons_of_mem c hd))
      (fun d hd => hz d (mem_cons_of_mem c hd)) (behind ++ bytes .little c) n
      (by simpa using hs)
    rw [flatMap_cons, runUpTo, hrd, obey]
    cases hr : (i.execute p c).result with
    | some r => simp only [hr]
    | none => simp only [hr, hrs]

theorem length_le_flatMap_bytes (order : ByteOrder) (cs : List Command) :
    cs.length ≤ (cs.flatMap (bytes order)).length := by
  induction cs with
  | nil => simp
  | cons c rest ih =>
    have hc := length_bytes order c
    simp only [length_cons, flatMap_cons, length_append]
    omega

/-- A stream is carried out command by command. -/
theorem run_bytes (p : Placement) (i : Image) (he : ∀ c ∈ cs, c.Encodable)
    (hs : ∀ c ∈ cs, c.Sized) : run p i (cs.flatMap (bytes .little)) = obey p i cs :=
  runUpTo_bytes he hs (Nat.lt_succ_of_le (length_le_flatMap_bytes .little cs)) []

/-- What comes behind commands that are carried out is obeyed in the image that they leave. -/
theorem obey_append (h : i.executeAll p cs = some i') (ds : List Command) :
    (obey p i (cs ++ ds)).image = (obey p i' ds).image ∧
      (obey p i (cs ++ ds)).result = (obey p i' ds).result := by
  induction cs generalizing i with
  | nil =>
    cases h
    exact ⟨rfl, rfl⟩
  | cons c rest ih =>
    obtain ⟨i₁, hs, hrs⟩ : ∃ i₁, step? p i c = some i₁ ∧ i₁.executeAll p rest = some i' := by
      rw [executeAll, foldlM_cons] at h
      exact Option.bind_eq_some_iff.1 h
    obtain ⟨hr, hi⟩ : (i.execute p c).result = none ∧ (i.execute p c).image = i₁ := by
      simpa [step?] using hs
    rw [cons_append, obey]
    simp only [hr, hi]
    exact ih hrs

theorem obey_of_executeAll (h : i.executeAll p cs = some i') :
    ∃ output, obey p i (cs ++ [.endCommands]) = { image := i', result := some 1, output } := by
  obtain ⟨hi, hr⟩ := obey_append h [.endCommands]
  refine ⟨(obey p i (cs ++ [.endCommands])).output, ?_⟩
  rw [← show (obey p i' [.endCommands]).image = i' from rfl, ← hi]
  exact congrArg (Outcome.mk _ · _) hr

/-- A stream has the effect of its commands. -/
theorem run_commands (he : ∀ c ∈ cs, c.Encodable)
    (hs : ∀ c ∈ cs, c.Sized) (h : i.executeAll p cs = some i') :
    ∃ output, run p i (cs.flatMap (bytes .little) ++ bytes .little .endCommands) =
      { image := i', result := some 1, output } := by
  have hb : cs.flatMap (bytes .little) ++ bytes .little .endCommands =
      (cs ++ [endCommands]).flatMap (bytes .little) := by simp
  obtain ⟨hencEnd, hsizedEnd⟩ := encodable_of_isLast (c := .endCommands) rfl
  rw [hb, run_bytes p i (forall_mem_append.2 ⟨he, by simpa using hencEnd⟩)
    (forall_mem_append.2 ⟨hs, by simpa using hsizedEnd⟩)]
  exact obey_of_executeAll h

end Image

end Patchwork
