import Patchwork.Program.Patcher
import Patchwork.Proofs.Integer.Words
import Patchwork.Proofs.Stream.Extent
import Patchwork.Proofs.Stream.Format

/-!
# Patching without a machine and on one

The patcher and the runner carry out the same commands on the same code. They differ in how
they divide: the patcher takes every quotient towards minus infinity and the runner takes
quotients towards zero. For a page the runner also subtracts the page that is patched. Where
the amounts are the same, so is the code.
-/

namespace Patchwork

open Command Bytes Image Int Int32 List

variable {c : Command} {cs : List Command} {kind : PatchKind} {offset scale : Int}

/-! ## Amounts -/

def PatchKind.put : PatchKind → Word → Word → Word → Word
  | .objectPage, _, amount => Field.page amount
  | _, mask, amount => Field.masked mask amount

/-- What the patcher puts into a field, if the distance to data is `d`. -/
def Patcher.amount (d : Int) (kind : PatchKind) (scale value : Int) : Int :=
  match kind with
  | .object | .objectPage => value.fdiv scale + d.fdiv scale
  | _ => value.fdiv scale

/-- What the runner puts into a field, if the distance to data is `d`. -/
def Image.amount (d : Int) (kind : PatchKind) (offset scale value : Int) : Int :=
  let unit := Bytes.signed 32 scale.toNat
  match kind with
  | .object => value.tdiv unit + d.tdiv unit
  | .objectPage => (d + value).fdiv unit - (Bytes.signed 32 offset.toNat).tdiv unit
  | _ => value.tdiv unit

namespace Command

/-- The commands that the patcher and the runner carry out, apart from those that end a
stream. -/
def isShared : Command → Bool
  | allocateData _ | copyData .. | allocateCode _ | copyCode .. | entryPoint _ | freeMemory |
    patch .function .. | patch .object .. | patch .objectPage .. => true
  | _ => false

def isEntryPoint : Command → Bool
  | entryPoint _ => true
  | _ => false

def isTowardsData : Command → Bool
  | patch .object .. | patch .objectPage .. => true
  | _ => false

/-- A command whose amounts are the same. A page must have 21 bits. -/
def Alike (d : Int) : Command → Prop
  | patch kind offset _ scale value =>
    scale ≠ 0 ∧ Patcher.amount d kind scale value = Image.amount d kind offset scale value ∧
      (kind = .objectPage → Word.Fits (d + value) ∧
        -2 ^ 20 ≤ Patcher.amount d kind scale value ∧ Patcher.amount d kind scale value < 2 ^ 20)
  | _ => True

instance (d : Int) : DecidablePred (Alike d)
  | patch .. => inferInstanceAs (Decidable (_ ∧ _ ∧ (_ → _)))
  | allocateData _ | copyData .. | allocateCode _ | copyCode .. | entryPoint _ | runProgram |
    readData .. | endCommands | freeMemory | dumpCode => .isTrue trivial

/-- The position and the scale of a patch are signed words, and the scale is positive. -/
def Scaled : Command → Prop
  | patch _ offset _ scale _ => offset < 2 ^ 31 ∧ 0 < scale ∧ scale < 2 ^ 31
  | _ => True

/-- Amounts that are the same, by sign and divisibility. What is negative must be a
multiple of the scale. A page is patched in the first page of the code, or in the second one
if the remainders add up to a page. -/
def Exact (d : Int) : Command → Prop
  | patch .objectPage offset _ scale value =>
    offset / scale = (if scale ≤ value % scale + d % scale then 1 else 0) ∧
      Word.Fits (d + value) ∧ -2 ^ 20 ≤ value / scale + d / scale ∧
        value / scale + d / scale < 2 ^ 20
  | patch .object _ _ scale value => (0 ≤ value ∨ scale ∣ value) ∧ (0 ≤ d ∨ scale ∣ d)
  | patch _ _ _ scale value => 0 ≤ value ∨ scale ∣ value
  | _ => True

/-- By how much the quotients in the two directions differ. -/
theorem fdiv_eq_tdiv_sub_ite (hs : 0 < scale) (a : Int) :
    a.fdiv scale = a.tdiv scale - if 0 ≤ a ∨ scale ∣ a then 0 else 1 := by
  rw [fdiv_eq_tdiv, sign_eq_one_of_pos hs]
  by_cases hd : scale ∣ a <;> by_cases ha : 0 ≤ a <;> simp [hd, ha, hs.le]

theorem page_amount_eq_iff {d value : Int} (hs : 0 < scale) (ho : 0 ≤ offset) :
    value.fdiv scale + d.fdiv scale = (d + value).fdiv scale - offset.tdiv scale ↔
      offset / scale = if scale ≤ value % scale + d % scale then 1 else 0 := by
  rw [Int.add_comm d value]
  simp only [fdiv_eq_ediv_of_nonneg _ hs.le, tdiv_eq_ediv_of_nonneg ho,
    add_ediv hs.ne', natAbs_of_nonneg hs.le, sign_eq_one_of_pos hs]
  omega

theorem alike_iff_exact (d : Int) (he : c.Encodable) (hh : c.isShared)
    (hc : c.Scaled) : c.Alike d ↔ c.Exact d := by
  cases c with
  | patch kind offset mask scale value =>
    simp only [Encodable, operands, forall_mem_cons, inRange_unsigned] at he
    obtain ⟨⟨ho, -⟩, -, ⟨hs, hs'⟩, -⟩ := he
    obtain ⟨hps, hp, hm⟩ := hc
    have hu : Bytes.signed 32 scale.toNat = scale := by
      rw [signed_word hs hs', if_pos hm]
    have hg : Bytes.signed 32 offset.toNat = offset := by
      rw [signed_word ho (by omega), if_pos hps]
    cases kind with
    | function =>
      simp only [Alike, Exact, Patcher.amount, Image.amount, hu, fdiv_eq_tdiv_sub_ite hp]
      by_cases hv : 0 ≤ value ∨ scale ∣ value <;> simp [hv, hp.ne']
    | object =>
      simp only [Alike, Exact, Patcher.amount, Image.amount, hu, fdiv_eq_tdiv_sub_ite hp]
      by_cases hv : 0 ≤ value ∨ scale ∣ value <;> by_cases hd : 0 ≤ d ∨ scale ∣ d <;>
        simp only [hv, hd, if_true, if_false]
      all_goals simp [hp.ne']
      omega
    | objectPage =>
      simp only [Alike, Exact, Patcher.amount, Image.amount, hu, hg]
      rw [page_amount_eq_iff hp ho]
      simp only [fdiv_eq_ediv_of_nonneg _ hp.le]
      simp [hp.ne']
    | _ => cases hh
  | _ => exact iff_of_true trivial trivial

end Command

/-! ## One patch -/

namespace Image

variable {p : Placement} {i : Image}

theorem fits_signed {n : Int} (hl : 0 ≤ n) (hh : n < 2 ^ 32) :
    Word.Fits (Bytes.signed 32 n.toNat) := by
  rw [signed_word hl hh, Word.Fits]
  split <;> omega

theorem ofInt_div {a b : Int} (ha : Word.Fits a) (hl : 0 ≤ b) (hh : b < 2 ^ 32) :
    Int32.ofInt a / Int32.ofInt b = Int32.ofInt (a.tdiv (Bytes.signed 32 b.toNat)) := by
  obtain ⟨hs, hs'⟩ := fits_signed hl hh
  rw [← ofInt_signed hl hh]
  exact (ofInt_tdiv ha.1 (le_of_lt_add_one ha.2) hs (le_of_lt_add_one hs')).symm

theorem patchWord_amount {d : Int} {mask value : Int}
    (he : (patch kind offset mask scale value).Encodable)
    (hh : (patch kind offset mask scale value).isShared)
    (ha : (patch kind offset mask scale value).Alike d)
    (hd : (patch kind offset mask scale value).isTowardsData → i.dataOffset.toInt = d) :
    patchWord p i kind offset mask scale value =
      kind.put (wrapped mask) (wrapped (amount d kind offset scale value)) := by
  simp only [Command.Encodable, operands, forall_mem_cons, inRange_unsigned,
    inRange_signed] at he
  obtain ⟨⟨ho, ho'⟩, -, ⟨hs, hs'⟩, hv, -⟩ := he
  obtain ⟨hn, -, hg⟩ := ha
  have hq := ofInt_div hv hs hs'
  cases kind with
  | function => rw [patchWord, hq]; rfl
  | object =>
    have hds : Int32.ofInt d = i.dataOffset := by rw [← hd rfl, ofInt_toInt]
    have hf : Word.Fits d := by rw [← hd rfl]; exact ⟨i.dataOffset.le_toInt, i.dataOffset.toInt_lt⟩
    rw [patchWord, hq, ← hds, ofInt_div hf hs hs', ← ofInt_add]
    rfl
  | objectPage =>
    have hds : Int32.ofInt d = i.dataOffset := by rw [← hd rfl, ofInt_toInt]
    have hu : Bytes.signed 32 scale.toNat ≠ 0 := by
      rw [signed_word hs hs']
      split <;> omega
    have hp : Int32.ofInt offset / Int32.ofInt scale =
        Int32.ofInt ((Bytes.signed 32 offset.toNat).tdiv (Bytes.signed 32 scale.toNat)) := by
      rw [← ofInt_signed ho ho']
      exact ofInt_div (fits_signed ho ho') hs hs'
    rw [patchWord, hp, ← hds, ← ofInt_add, ← ofInt_signed hs hs',
      Stencil.floorDiv_ofInt (hg rfl).1 (fits_signed hs hs') hu, ← ofInt_sub]
    rfl
  | _ => cases hh

theorem patched_amount {d : Int} {mask value : Int}
    (he : (patch kind offset mask scale value).Encodable)
    (hs : (patch kind offset mask scale value).isShared)
    (ha : (patch kind offset mask scale value).Alike d)
    (hd : (patch kind offset mask scale value).isTowardsData → i.dataOffset.toInt = d)
    (bs : Bytes) :
    i.patched p bs kind offset mask scale value = mapWord bs offset.toNat
      (kind.put (wrapped mask) (wrapped (amount d kind offset scale value))) := by
  rw [patched, patchWord_amount he hs ha hd]
  rintro rfl
  cases hs

/-- The distance is `d` whenever a command is reached to which it matters. -/
def Finds (p : Placement) (d : Int) : Image → List Command → Prop
  | _, [] => True
  | i, c :: cs =>
    (c.isTowardsData = true → i.dataOffset.toInt = d) ∧ Finds p d (i.execute p c).image cs

instance decidableFinds (p : Placement) (d : Int) : (i : Image) → DecidablePred (i.Finds p d)
  | _, [] => .isTrue trivial
  | i, c :: cs =>
    have := decidableFinds p d (i.execute p c).image cs
    inferInstanceAs (Decidable ((_ → _) ∧ Finds p d (i.execute p c).image cs))

end Image

/-- A write that stays inside replaces as many bytes as it has. -/
theorem Bytes.overwrite_eq_splice {bs r : Bytes} {start : Nat} (h : start + r.length ≤ bs.length) :
    bs.overwrite start r = bs.splice start (start + r.length) r := by
  rw [overwrite, take_of_length_le]
  simp [splice]
  omega

namespace Patcher

variable {p : Placement} {o : Options} {e : Extent} {i : Image} {q : Patcher}

theorem wordOf_eq_wrapped (i : Int) : wordOf i = Image.wrapped i := by
  apply UInt32.toNat_inj.1
  rw [wordOf, toNat_wrapped, UInt32.toNat_ofNat']
  change (i % 2 ^ 32).toNat % 2 ^ 32 = (i % 2 ^ 32).toNat
  omega

theorem mapWord_eq_mapWord {bs : Bytes} {offset : Nat} (h : offset + 4 ≤ bs.length)
    (f : Word → Word) : mapWord .little bs offset f = Image.mapWord bs offset f := by
  rw [mapWord, putWord, Image.mapWord, overwrite_eq_splice (by simpa using h)]
  simp [Image.wordAt, wordAt]

theorem patchPage_ok {page : Int} (h : -2 ^ 20 ≤ page ∧ page < 2 ^ 20) (offset : Nat) :
    ∃ report, patchPage o q offset page = .ok
      { code := mapWord o.order q.code offset (Field.page (wordOf page)), report } := ⟨_, if_pos h⟩

theorem execute_patch {mask value : Int}
    (hs : (patch kind offset mask scale value).isShared)
    (ha : (patch kind offset mask scale value).Alike o.dataOffset) :
    ∃ report, q.execute o (.patch kind offset mask scale value) = .ok
      { code := mapWord o.order q.code offset.toNat
          (kind.put (wordOf mask) (wordOf (amount o.dataOffset kind scale value))), report } := by
  obtain ⟨hc, -, hp⟩ := ha
  have hq : ∀ a, quotient a scale = .ok (a.fdiv scale) := fun a => if_neg hc
  cases kind with
  | function =>
    simp only [execute, hq]
    exact ⟨_, rfl⟩
  | object =>
    simp only [execute, hq]
    exact ⟨_, rfl⟩
  | objectPage =>
    obtain ⟨report, hr⟩ := patchPage_ok (o := o) (q := q) (hp rfl).2 offset.toNat
    simp only [amount] at hr
    simp only [execute, hq, bind, Except.bind, pure, Except.pure, hr]
    exact ⟨_, rfl⟩
  | _ => cases hs

/-! ## Side by side -/

/-- The patcher has the code of the runner, and it is as long as the stream said. -/
structure Follows (e : Extent) (i : Image) (q : Patcher) : Prop where
  code : i.code.getD [] = q.code
  length : i.code.map (fun bs => (bs.length : Int)) = e.code

theorem Follows.of_inside (h : Follows e i q) {size : Int} (hn : Extent.Inside offset size e.code) :
    i.code = some q.code ∧ 0 ≤ offset ∧ 0 ≤ size ∧ offset + size ≤ q.code.length := by
  obtain ⟨hc, hl⟩ := h
  cases hi : i.code with
  | none =>
    rw [hi] at hl
    rw [← hl] at hn
    exact hn.elim
  | some bs =>
    rw [hi] at hl hc
    rw [← hl] at hn
    obtain rfl : bs = q.code := hc
    exact ⟨rfl, hn⟩

/-- Both keep the same code, command by command. -/
theorem Follows.step (h : Follows e i q) (he : c.Encodable) (hz : c.Sized)
    (hh : c.isShared) (ha : Extent.Admits 8 e c) (hl : c.Alike o.dataOffset)
    (hd : c.isTowardsData → i.dataOffset.toInt = o.dataOffset) (ho : o.order = .little)
    (hr : (p.data - p.code).natAbs ≤ 0x7fffffff) (hm : (i.execute p c).image.Mapped) :
    (i.execute p c).result = none ∧
      ∃ q', q.execute o c = .ok q' ∧ Follows (e.after c) (i.execute p c).image q' := by
  cases c with
  | allocateData size =>
    rw [Image.execute, measured_near hr (mapped_measured.1 hm)]
    exact ⟨rfl, _, rfl, h.code, h.length⟩
  | allocateCode size =>
    have hs : (0 : Int) ≤ size := by
      simp only [Command.Encodable, operands, forall_mem_cons, inRange_unsigned] at he
      exact he.1.1
    rw [Image.execute, measured_near hr (mapped_measured.1 hm)]
    exact ⟨rfl, _, rfl, rfl, by simp [Extent.after, hs]⟩
  | copyData offset size payload => exact ⟨rfl, _, rfl, h.code, h.length⟩
  | copyCode offset size payload =>
    obtain ⟨hc, hf, -, hin⟩ := h.of_inside ha
    obtain rfl : size = payload.length := hz
    have hsp : (offset + payload.length).toNat = offset.toNat + payload.length := by omega
    have hi : offset.toNat + payload.length ≤ q.code.length := by omega
    have hp := overwrite_eq_splice hi
    refine ⟨rfl, _, rfl, ?_, ?_⟩
    · simp [Image.execute, hc, hp, hsp, say]
    · simp [Image.execute, Extent.after, ← h.length, length_overwrite, Function.comp_def]
  | patch kind offset mask scale value =>
    obtain ⟨hc, hf, -, hin⟩ := h.of_inside ha
    obtain ⟨report, ht⟩ := execute_patch (q := q) hh hl
    have hs : 4 ≤ Extent.patchSize 8 kind := by cases kind <;> decide
    have hsm := patched_amount (p := p) he hh hl hd q.code
    rw [← hl.2.1, ← wordOf_eq_wrapped, ← wordOf_eq_wrapped,
      ← mapWord_eq_mapWord (by omega), ← ho] at hsm
    refine ⟨rfl, _, ht, ?_, ?_⟩
    · simp [Image.execute, hc, hsm]
    · have hn := h.length
      rw [hc] at hn
      simp [Image.execute, hc, length_patched, ← hn, Extent.after]
  | entryPoint offset => exact ⟨rfl, _, rfl, h.code, h.length⟩
  | freeMemory =>
    obtain rfl : e = {} := ha
    have hno : i.code = none := by simpa using h.length
    have hemp : q.code = [] := by rw [← h.code, hno]; rfl
    exact ⟨rfl, _, rfl, hemp.symm, rfl⟩
  | _ => cases hh

/-! ## Streams -/

/-- Carries out commands until one of them ends the stream. -/
def obey (o : Options) : Patcher → List Command → Except Fault Patcher
  | _, [] => .error .domain
  | q, c :: cs => do
    let q ← q.execute o c
    if c.isLast then return q else obey o q cs

theorem executeUpTo_bytes (he : ∀ c ∈ cs, c.Encodable)
    (hz : ∀ c ∈ cs, c.Sized) {steps : Nat} (hs : cs.length < steps) (behind : Bytes) :
    executeUpTo o steps q (.between o.order behind (cs.flatMap (bytes o.order))) =
      obey o q cs := by
  obtain ⟨steps, rfl⟩ : ∃ n, steps = n + 1 := ⟨steps - 1, by omega⟩
  induction cs generalizing q steps behind with
  | nil =>
    rw [flatMap_nil, executeUpTo, read_between_nil]
    rfl
  | cons c rest ih =>
    have hr := read_bytes o.order (he c mem_cons_self)
      (hz c mem_cons_self) behind (rest.flatMap (bytes o.order))
    obtain ⟨n, rfl⟩ : ∃ n, steps = n + 1 := ⟨steps - 1, by simp at hs; omega⟩
    have hrs := fun q' => @ih q' (fun d hd => he d (mem_cons_of_mem c hd))
      (fun d hd => hz d (mem_cons_of_mem c hd)) (behind ++ bytes o.order c) n
      (by simpa using hs)
    rw [flatMap_cons, executeUpTo, hr, obey]
    simp only [bind, Except.bind, hrs]

theorem extract_bytes (he : ∀ c ∈ cs, c.Encodable) (hs : ∀ c ∈ cs, c.Sized) :
    extract o (cs.flatMap (bytes o.order)) = obey o {} cs :=
  executeUpTo_bytes he hs (Nat.lt_succ_of_le (length_le_flatMap_bytes o.order cs)) []

/-- A stream that both can carry out: of commands that they share, which stay inside the
memories, with the distance that the runner finds. Memories are not empty, because the runner
could not allocate them. The entry point is set last, because the runner makes the code read-only
then. -/
structure Comparable (p : Placement) (o : Options) (i : Image) (e : Extent) (cs : List Command) :
    Prop where
  encodable : ∀ c ∈ cs, c.Encodable
  sized : ∀ c ∈ cs, c.Sized
  shared : ∀ c ∈ cs, c.isShared = true
  inside : Extent.AdmitsAll 8 e cs
  mapped : i.Mapped
  allocates : ∀ c ∈ cs, c.Allocates
  entryLast : ∀ c ∈ cs.dropLast, c.isEntryPoint = false
  distance : i.Finds p o.dataOffset cs
  near : (p.data - p.code).natAbs ≤ 0x7fffffff
  order : o.order = .little

theorem Comparable.tail (h : Comparable p o i e (c :: cs)) :
    Comparable p o (i.execute p c).image (e.after c) cs where
  encodable := fun d hd => h.encodable d (mem_cons_of_mem c hd)
  sized := fun d hd => h.sized d (mem_cons_of_mem c hd)
  shared := fun d hd => h.shared d (mem_cons_of_mem c hd)
  inside := h.inside.2
  mapped := h.mapped.execute (h.allocates c mem_cons_self)
  allocates := fun d hd => h.allocates d (mem_cons_of_mem c hd)
  entryLast := by
    cases cs with
    | nil => simp
    | cons d ds => exact fun c' hc' => h.entryLast c' (mem_cons_of_mem c hc')
  distance := h.distance.2
  near := h.near
  order := h.order

/-- Both leave the same code. -/
theorem Follows.obey {last : Command} (h : Follows e i q)
    (hc : Comparable p o i e cs) (ha : ∀ c ∈ cs, c.Alike o.dataOffset) (hl : last.isLast) :
    ∃ q', obey o q (cs ++ [last]) = .ok q' ∧
      (Image.obey p i (cs ++ [last])).result = (if last = .dumpCode then some 2 else some 1) ∧
      (Image.obey p i (cs ++ [last])).image.code.getD [] = q'.code := by
  induction cs generalizing e i q with
  | nil =>
    cases last with
    | endCommands => exact ⟨_, rfl, rfl, h.code⟩
    | dumpCode => exact ⟨_, rfl, rfl, h.code⟩
    | _ => cases hl
  | cons c rest ih =>
    have hm : c ∈ c :: rest := mem_cons_self
    obtain ⟨hr, q₁, hq₁, hf⟩ := h.step (p := p) (hc.encodable c hm)
      (hc.sized c hm) (hc.shared c hm) hc.inside.1 (ha c hm) hc.distance.1 hc.order
      hc.near hc.tail.mapped
    obtain ⟨q', ho, he, hcd⟩ := ih hf hc.tail fun d hd => ha d (mem_cons_of_mem c hd)
    have hmo : c.isLast = false := by
      have hs := hc.shared c hm
      cases c <;> first | rfl | cases hs
    refine ⟨q', ?_, ?_, ?_⟩
    · simp only [cons_append, Patcher.obey, hq₁, hmo]
      exact ho
    · simp only [cons_append, Image.obey, hr, he]
    · simp only [cons_append, Image.obey, hr, hcd]

def stream (cs : List Command) (last : Command) : Bytes :=
  (cs ++ [last]).flatMap (Command.bytes .little)

/-- **The patcher and the runner leave the same code** if the amounts of every patch are the
same. The runner has no code yet, or the stream frees it first. -/
theorem extract_eq_run {cs : List Command} {last : Command} (h : Comparable p o i {} cs)
    (halike : ∀ c ∈ cs, c.Alike o.dataOffset) (hlast : last.isLast = true)
    (hstart : i.code = none ∨ cs.head? = some .freeMemory) :
    (∃ q, extract o (stream cs last) = .ok q ∧
      (Image.run p i (stream cs last)).result = (if last = .dumpCode then some 2 else some 1) ∧
      (Image.run p i (stream cs last)).image.code.getD [] = q.code) ∧
      ∀ d (c : Command), c.Encodable → c.isShared = true → c.Scaled → (c.Alike d ↔ c.Exact d) := by
  refine ⟨?_, fun d c => Command.alike_iff_exact d⟩
  obtain ⟨hencLast, hsizedLast⟩ := Command.encodable_of_isLast hlast
  have he : ∀ c ∈ cs ++ [last], c.Encodable :=
    List.forall_mem_append.2 ⟨h.encodable, by simpa using hencLast⟩
  have hs : ∀ c ∈ cs ++ [last], c.Sized :=
    List.forall_mem_append.2 ⟨h.sized, by simpa using hsizedLast⟩
  rw [stream, Image.run_bytes p i he hs, ← h.order, extract_bytes he hs]
  by_cases hn : i.code = none
  · exact Follows.obey ⟨by rw [hn]; rfl, by rw [hn]; rfl⟩ h halike hlast
  · obtain ⟨rest, rfl⟩ : ∃ rest, cs = .freeMemory :: rest :=
      List.head?_eq_some_iff.1 (hstart.resolve_left hn)
    obtain ⟨q, hq⟩ := Follows.obey (q := ({} : Patcher).say ["READ_DATA"]) ⟨rfl, rfl⟩ h.tail
      (fun c hc => halike c (List.mem_cons_of_mem _ hc)) hlast
    exact ⟨q, hq⟩

def threePatches : List Command :=
  [.freeMemory, .allocateData 8, .copyData 0 2 [1, 2], .allocateCode 12,
    .copyCode 0 12 (List.replicate 12 0x91), .patch .function 0 0xffff00 4 (-8),
    .patch .object 4 0xffffffff 1 4, .patch .objectPage 8 0 0x1000 4, .entryPoint 0]

def leftOver : Image := { data := some [0], code := some [1, 2, 3], entry := 1 }

theorem threePatches_extract_eq_run :
    Comparable {} { dataOffset := 0x10000000 } leftOver {} threePatches ∧
      (∀ c ∈ threePatches, c.Alike 0x10000000) ∧
      ∃ q, extract { dataOffset := 0x10000000 } (stream threePatches .dumpCode) = .ok q ∧
        (Image.run {} leftOver (stream threePatches .dumpCode)).result = some 2 ∧
        (Image.run {} leftOver (stream threePatches .dumpCode)).image.code.getD [] = q.code := by
  have h : Comparable {} { dataOffset := 0x10000000 } leftOver {} threePatches :=
    ⟨by decide, by decide, by decide, by decide, ⟨by decide, by decide⟩, by decide, by decide,
      by decide, by decide, rfl⟩
  have ha : ∀ c ∈ threePatches, c.Alike 0x10000000 := by decide
  exact ⟨h, ha, (extract_eq_run h ha rfl (.inr rfl)).1⟩

def negativeQuotient : List Command := [.allocateCode 4, .patch .function 0 0xffffffff 4 (-5)]

def secondPage : List Command := [.allocateData 4, .allocateCode 8, .patch .objectPage 4 0 4 0]

/-- The patcher rounds a negative quotient down and the runner rounds it up. The patcher does
not subtract the page that is patched. -/
theorem codes_differ :
    Comparable {} {} {} {} negativeQuotient ∧
      (extract {} (stream negativeQuotient .endCommands)).toOption.map code =
        some (Command.word .little (-2)) ∧
      (Image.run {} {} (stream negativeQuotient .endCommands)).image.code =
        some (Command.word .little (-1)) ∧
      Comparable { data := 0x7f0000000040 } { dataOffset := 64 } {} {} secondPage ∧
      (extract { dataOffset := 64 } (stream secondPage .endCommands)).toOption.map code =
        some ([0, 0, 0, 0] ++ Command.word .little (Field.page 16 0).toNat) ∧
      (Image.run { data := 0x7f0000000040 } {} (stream secondPage .endCommands)).image.code =
        some ([0, 0, 0, 0] ++ Command.word .little (Field.page 15 0).toNat) := by
  refine ⟨⟨by decide, by decide, by decide, by decide, ⟨nofun, nofun⟩, by decide, by decide,
      by decide, by decide, rfl⟩, ?_, ?_,
    ⟨by decide, by decide, by decide, by decide, ⟨nofun, nofun⟩, by decide, by decide, by decide,
      by decide, rfl⟩, ?_, ?_⟩
  all_goals decide +kernel

end Patcher

end Patchwork
