import Patchwork.Proofs.Program.Linking
import Patchwork.Proofs.Program.Patcher
import Mathlib.Tactic.IntervalCases

/-!
# Addresses in immediates

Some machines take an address from two instructions: the first has the distance to its page in
pages, and the second has what the address lies above that page. A branch has its distance in
words. The patches for them are made in one place and completed in another, where the distance
of the memories is known; together they put the exact address into the immediates, and keep all
other bits. A load or store takes fewer bits than its immediate has. The others are kept, and
are part of the address if they are set. The position of an address instruction is taken for a
signed word, so from two gigabytes on its page is not found.
-/

namespace Patchwork

open Field Bytes Image Int Int32

/-! ## Immediates -/

namespace Field

variable {mask : Word} {lo n : Nat}

/-- The signed offset in pages of an address instruction: 19 bits from bit 5 and, below them,
two bits from bit 29. -/
def pageOffset (w : Word) : Int :=
  (w.toBitVec.extractLsb' 5 19 ++ w.toBitVec.extractLsb' 29 2).toInt

/-- The immediate of an addition, a load or a store: 12 bits from bit 10. -/
def immediate (w : Word) : Nat := (w.toBitVec.extractLsb' 10 12).toNat

def branchOffset (w : Word) : Int := (w.toBitVec.extractLsb' 0 26).toInt

/-- All bits of a word are kept but those that are said to change. -/
def Keeps (changed : Nat → Prop) (w w' : Word) : Prop :=
  ∀ b, ¬ changed b → w'.toBitVec.getLsbD b = w.toBitVec.getLsbD b

/-- A mask of bits that stand side by side: `n` of them from bit `lo`. -/
structure Spans (mask : Word) (lo n : Nat) : Prop where
  lowest : (lowestBit mask).toBitVec = BitVec.twoPow 32 lo
  bits : ∀ b < 32, mask.toBitVec.getLsbD b = decide (lo ≤ b ∧ b < lo + n)

theorem getLsbD_replace (mask bits word : Word) {b : Nat} (hb : b < 32) :
    (replace mask bits word).toBitVec.getLsbD b =
      if mask.toBitVec.getLsbD b then bits.toBitVec.getLsbD b else word.toBitVec.getLsbD b := by
  simp only [replace, UInt32.toBitVec_and, UInt32.toBitVec_or, UInt32.toBitVec_not,
    BitVec.getLsbD_and, BitVec.getLsbD_or, BitVec.getLsbD_not, hb]
  cases mask.toBitVec.getLsbD b <;> simp

theorem Spans.getLsbD_masked (h : Spans mask lo n) (value word : Word) {b : Nat} (hb : b < 32) :
    (masked mask value word).toBitVec.getLsbD b =
      if lo ≤ b ∧ b < lo + n then value.toBitVec.getLsbD (b - lo) else word.toBitVec.getLsbD b := by
  have hs : (value * lowestBit mask).toBitVec = value.toBitVec <<< lo := by
    rw [UInt32.toBitVec_mul, h.lowest, BitVec.mul_twoPow_eq_shiftLeft]
  rw [masked, getLsbD_replace _ _ _ hb, h.bits b hb, hs]
  by_cases hi : lo ≤ b ∧ b < lo + n
  · rw [BitVec.getLsbD_shiftLeft]
    simp [hi, hb, Nat.not_lt.2 hi.1]
  · simp [hi]

theorem Spans.keeps (h : Spans mask lo n) (value word : Word) :
    Keeps (fun b => lo ≤ b ∧ b < lo + n) word (masked mask value word) := by
  intro b hb
  by_cases hl : b < 32
  · rw [h.getLsbD_masked value word hl, if_neg hb]
  · rw [BitVec.getLsbD_of_ge _ _ (Nat.not_lt.1 hl), BitVec.getLsbD_of_ge _ _ (Nat.not_lt.1 hl)]

/-- The immediate has what was put into it, and above that what was there. -/
theorem immediate_masked (h : Spans mask 10 n) (hn : n ≤ 12) (value word : Word) :
    immediate (masked mask value word) =
      2 ^ n * (immediate word / 2 ^ n) + value.toNat % 2 ^ n := by
  refine Nat.eq_of_testBit_eq fun b => ?_
  rw [Nat.testBit_two_pow_mul_add _ (Nat.mod_lt _ (by positivity)), Nat.testBit_div_two_pow]
  simp only [immediate, BitVec.testBit_toNat, BitVec.getLsbD_extractLsb', Nat.testBit_mod_two_pow]
  by_cases hb : b < 12
  · rw [h.getLsbD_masked value word (by omega)]
    by_cases hbn : b < n
    · simp [hb, hbn, ← BitVec.testBit_toNat]
    · simp [hb, hbn, Nat.not_lt.1 hbn]
  · have hbn : ¬ b < n := by omega
    have hk : b - n + n = b := by omega
    simp [hb, hbn, hk]

theorem extract_wrapped (x : Int) (hn : n ≤ 32) :
    (wrapped x).toBitVec.extractLsb' 0 n = BitVec.ofInt n x := by
  refine BitVec.eq_of_toNat_eq ?_
  have hd : (2 : Int) ^ n ∣ 2 ^ 32 := pow_dvd_pow 2 hn
  rw [BitVec.extractLsb'_toNat, UInt32.toNat_toBitVec, toNat_wrapped, BitVec.toNat_ofInt]
  refine ofNat_inj.1 ?_
  push_cast
  rw [toNat_of_nonneg (emod_nonneg x (by norm_num)),
    toNat_of_nonneg (emod_nonneg x (by positivity))]
  simpa using emod_emod_of_dvd x hd

/-- A number that was put into a field, taken as a signed one. -/
theorem toInt_wrapped (x : Int) (hn : n ≤ 32) :
    ((wrapped x).toBitVec.extractLsb' 0 n).toInt = x.bmod (2 ^ n) := by
  rw [extract_wrapped x hn, BitVec.toInt_ofInt]

/-- The offset of a branch is what was put into it, up to the width of the field. -/
theorem branchOffset_masked (h : Spans mask 0 26) (x : Int) (word : Word) :
    branchOffset (masked mask (wrapped x) word) = x.bmod (2 ^ 26) := by
  have ht : (masked mask (wrapped x) word).toBitVec.extractLsb' 0 26 =
      (wrapped x).toBitVec.extractLsb' 0 26 := by
    refine BitVec.eq_of_getLsbD_eq fun b hb => ?_
    rw [BitVec.getLsbD_extractLsb', h.getLsbD_masked _ _ (by omega), if_pos (by omega)]
    simp
  rw [branchOffset, ht, toInt_wrapped x (by omega)]

theorem page_pieces (offset word : Word) :
    (page offset word).toBitVec.extractLsb' 5 19 ++ (page offset word).toBitVec.extractLsb' 29 2 =
      offset.toBitVec.extractLsb' 0 21 := by
  have hh : ∀ b < 19, (page offset word).toBitVec.getLsbD (5 + b) =
      offset.toBitVec.getLsbD (2 + b) := by
    intro b hb
    rw [page, getLsbD_replace _ _ _ (by omega)]
    simp only [pageHigh, pageLow, UInt32.toBitVec_and, UInt32.toBitVec_or,
      UInt32.toBitVec_shiftLeft, UInt32.toBitVec_shiftRight]
    interval_cases b <;> simp
  have hl : ∀ b < 2, (page offset word).toBitVec.getLsbD (29 + b) = offset.toBitVec.getLsbD b := by
    intro b hb
    rw [page, getLsbD_replace _ _ _ (by omega)]
    simp only [pageHigh, pageLow, UInt32.toBitVec_and, UInt32.toBitVec_or,
      UInt32.toBitVec_shiftLeft, UInt32.toBitVec_shiftRight]
    interval_cases b <;> simp
  refine BitVec.eq_of_getLsbD_eq fun b hb => ?_
  rw [BitVec.getLsbD_append]
  by_cases hb' : b < 2
  · simp [hb', hl b hb', hb]
  · obtain ⟨k, rfl⟩ := Nat.exists_eq_add_of_le (Nat.not_lt.1 hb')
    have hk : k < 19 := by omega
    rw [if_neg hb']
    simp [hh k hk, hk, hb]

theorem pageOffset_page {x : Int} (hl : -2 ^ 20 ≤ x) (hh : x < 2 ^ 20) (word : Word) :
    pageOffset (page (wrapped x) word) = x := by
  rw [pageOffset, page_pieces, toInt_wrapped x (by omega)]
  exact bmod_eq_of_le (by omega) (by omega)

theorem page_keeps (offset word : Word) :
    Keeps (fun b => (5 ≤ b ∧ b < 24) ∨ (29 ≤ b ∧ b < 31)) word (page offset word) := by
  intro b hb
  by_cases hl : b < 32
  · have hm : (0x60ffffe0 : Word).toBitVec.getLsbD b = false := by
      have ha : ∀ b < 32, ¬ ((5 ≤ b ∧ b < 24) ∨ (29 ≤ b ∧ b < 31)) →
          (0x60ffffe0 : Word).toBitVec.getLsbD b = false := by decide
      exact ha b hl hb
    rw [page, getLsbD_replace _ _ _ hl, hm]
    rfl
  · rw [BitVec.getLsbD_of_ge _ _ (Nat.not_lt.1 hl), BitVec.getLsbD_of_ge _ _ (Nat.not_lt.1 hl)]

end Field

/-! ## Words of code -/

namespace Image

variable {bs : Bytes} {k j : Nat}

theorem wordAt_mapWord_self (h : k + 4 ≤ bs.length) (f : Word → Word) :
    wordAt (mapWord bs k f) k = f (wordAt bs k) := by
  have hb : ((mapWord bs k f).drop k).take 4 = Bytes.ofNat .little 4 (f (wordAt bs k)).toNat := by
    have hi : k + (Bytes.ofNat .little 4 (f (wordAt bs k)).toNat).length ≤ bs.length := by
      simpa using h
    have hk := take_drop_overwrite_self hi
    rwa [length_ofNat] at hk
  have hl := (f (wordAt bs k)).toNat_lt
  rw [wordAt, hb, toNat_ofNat, Nat.mod_eq_of_lt (by omega), UInt32.ofNat_toNat]

theorem wordAt_mapWord_of_apart (h : j + 4 ≤ bs.length) (ha : j + 4 ≤ k ∨ k + 4 ≤ j)
    (f : Word → Word) : wordAt (mapWord bs k f) j = wordAt bs j := by
  rw [wordAt, mapWord, take_drop_overwrite_of_apart h (by simpa using ha)]
  rfl

theorem getElem?_mapWord (f : Word → Word) {x : Nat} (hx : x < k ∨ k + 4 ≤ x) :
    (mapWord bs k f)[x]? = bs[x]? := by
  by_cases hl : x < bs.length
  · rw [mapWord, getElem?_overwrite _ _ _ hl, if_neg (by simp; omega)]
  · rw [List.getElem?_eq_none (by rw [mapWord, length_overwrite]; omega),
      List.getElem?_eq_none (by omega)]

theorem length_mapWord (bs : Bytes) (k : Nat) (f : Word → Word) :
    (mapWord bs k f).length = bs.length := length_overwrite _ _ _

theorem execute_patch_word {p : Placement} {i : Image} {code : Bytes} (hi : i.code = some code)
    {kind : PatchKind} (hk : kind ≠ .objectRelative) (offset mask scale value : Int) :
    i.execute p (.patch kind offset mask scale value) =
      { image := { i with code := some (mapWord code offset.toNat
          (patchWord p i kind offset mask scale value)) } } := by
  rw [execute, hi]
  cases kind with
  | objectRelative => exact absurd rfl hk
  | _ => rfl

theorem patchWord_page {p : Placement} {i : Image} {d value : Int}
    (hd : i.dataOffset = Int32.ofInt d) (hs : Word.Fits (d + value)) (offset : Int) :
    patchWord p i .objectPage offset 0 4096 value =
      page (wrapped ((d + value) / 4096 - (Int32.ofInt offset).toInt.tdiv 4096)) := by
  have hp := ofInt_div (a := (Int32.ofInt offset).toInt) (b := 4096)
    ⟨le_toInt _, toInt_lt _⟩ (by omega) (by omega)
  rw [ofInt_toInt] at hp
  rw [patchWord, hd, ← ofInt_add, hp,
    Stencil.floorDiv_ofInt hs (by decide) (by decide), ← ofInt_sub,
    fdiv_eq_ediv_of_nonneg _ (by decide)]
  rfl

theorem signedPage_bounds (k : Int) : -2 ^ 19 ≤ (Int32.ofInt k).toInt.tdiv 4096 ∧
    (Int32.ofInt k).toInt.tdiv 4096 < 2 ^ 19 := by
  have hl := (Int32.ofInt k).le_toInt
  have hh := (Int32.ofInt k).toInt_lt
  rw [tdiv_eq_ediv]
  split
  · omega
  · rw [show (4096 : Int).sign = 1 from rfl]
    omega

/-- The pages by which an address instruction misses. Its position is taken for a signed number,
and the page of that is found by dividing towards zero. -/
def missedPages (position : Int) : Int :=
  position / 4096 - (Int32.ofInt position).toInt.tdiv 4096

theorem missedPages_of_near {k : Int} (hl : 0 ≤ k) (hh : k < 2 ^ 31) : missedPages k = 0 := by
  rw [missedPages, toInt_ofInt, bmod_eq_of_le (by omega) (by norm_num; omega),
    tdiv_eq_ediv_of_nonneg hl, Int.sub_self]

/-- In the upper half of the words, nearly four gigabytes are missed. -/
theorem missedPages_of_far {k : Int} (hl : 2 ^ 31 ≤ k) (hh : k < 2 ^ 32) :
    2 ^ 20 - 1 ≤ missedPages k := by
  have hs : (Int32.ofInt k).toInt = -(2 ^ 32 - k) := by
    rw [toInt_ofInt, bmod_def]
    norm_num
    omega
  rw [missedPages, hs, Int.neg_tdiv, tdiv_eq_ediv_of_nonneg (by omega)]
  omega

theorem patchWord_branch {p : Placement} {i : Image} {offset value : Int} (hv : Word.Fits value)
    (hm : 4 ∣ value) :
    patchWord p i .function offset 0x3ffffff 4 value =
      masked (wrapped 0x3ffffff) (wrapped (value / 4)) := by
  have hu : Bytes.signed 32 (4 : Int).toNat = 4 := by decide
  have hq := ofInt_div (b := 4) hv (by omega) (by omega)
  rw [hu, tdiv_eq_ediv_of_dvd hm] at hq
  rw [patchWord, hq]
  rfl

/-- The address that an address instruction at one place and an immediate at another make up:
the page of the first, its offset in pages, and the second in its unit, a power of two. -/
def addressAt (p : Placement) (code : Bytes) (k j unit : Nat) : Int :=
  (p.code + k) / 4096 * 4096 + 4096 * Field.pageOffset (wordAt code k) +
    2 ^ unit * Field.immediate (wordAt code j)

end Image

/-! ## Relocations -/

namespace Assembly

def relocationCommand (o : Object) (e : RelocationEntry) (symbol start command : Int) :
    Except Fault Command := do
  patchCommand (← Database.patch o e symbol start command)

/-- The relocations of what an address lies above its page, and the unit of the immediate as a
power of two. -/
inductive LowPart : String → Nat → Prop
  | addition : LowPart "R_AARCH64_ADD_ABS_LO12_NC" 0
  | words : LowPart "R_AARCH64_LDST32_ABS_LO12_NC" 2
  | doubles : LowPart "R_AARCH64_LDST64_ABS_LO12_NC" 3

/-- Two relocations of one address, in code at given places. The address is a multiple of
the unit, the memories begin at pages, and the instructions lie apart from each other in a code
memory that a word measures. -/
structure PagePair (p : Placement) (o : Object) (e f : RelocationEntry) (symbol start start' : Int)
    (unit : Nat) (code : Bytes) : Prop where
  little : o.order = .little
  page : e.relocation.type = "R_AARCH64_ADR_PREL_PG_HI21"
  low : LowPart f.relocation.type unit
  addend : f.relocation.addend = e.relocation.addend
  multiple : 2 ^ unit ∣ symbol + e.relocation.addend
  codeAligned : 4096 ∣ p.code
  dataAligned : 4096 ∣ p.data
  sum : Word.Fits (p.data - p.code + (symbol + e.relocation.addend))
  measured : code.length ≤ 2 ^ 32
  pageInside : 0 ≤ e.position + start ∧ e.position + start + 4 ≤ code.length
  lowInside : 0 ≤ f.position + start' ∧ f.position + start' + 4 ≤ code.length
  apart : e.position + start + 4 ≤ f.position + start' ∨
    f.position + start' + 4 ≤ e.position + start

/-- What the patches of an address leave: the instructions make up the address, and above it
the pages that the first misses and those that stood in the immediate of the second above the
bits that were patched. They are exact if there are none of either. All other bits and bytes are
those that were there. -/
structure Addressed (p : Placement) (code code' : Bytes) (k j unit : Nat) (address : Int) :
    Prop where
  decoded : addressAt p code' k j unit = address +
    4096 * (missedPages k + (Field.immediate (wordAt code j) / 2 ^ (12 - unit) : Nat))
  exact_iff : addressAt p code' k j unit = address ↔
    k < 2 ^ 31 ∧ Field.immediate (wordAt code j) < 2 ^ (12 - unit)
  page : Field.Keeps (fun b => (5 ≤ b ∧ b < 24) ∨ (29 ≤ b ∧ b < 31)) (wordAt code k)
    (wordAt code' k)
  low : Field.Keeps (fun b => 10 ≤ b ∧ b < 22 - unit) (wordAt code j)
    (wordAt code' j)
  elsewhere : ∀ x, (x < k ∨ k + 4 ≤ x) → (x < j ∨ j + 4 ≤ x) → code'[x]? = code[x]?

/-- The relocation of a branch, in code at a given place. The distance is a multiple of
four. -/
structure Branch (o : Object) (e : RelocationEntry) (symbol start : Int) (code : Bytes) : Prop where
  little : o.order = .little
  branch : e.relocation.type = "R_AARCH64_CALL26" ∨ e.relocation.type = "R_AARCH64_JUMP26"
  multiple : 4 ∣ symbol + e.relocation.addend - (e.position + start)
  fits : Word.Fits (symbol + e.relocation.addend - (e.position + start))
  measured : code.length ≤ 2 ^ 32
  inside : 0 ≤ e.position + start ∧ e.position + start + 4 ≤ code.length

/-- What the patch of a branch leaves: the distance in the branch, exact as far as the branch
reaches, and all other bits and bytes as they were. -/
structure Branched (code code' : Bytes) (k : Nat) (distance : Int) : Prop where
  decoded : 4 * Field.branchOffset (wordAt code' k) = distance.bmod (2 ^ 28)
  exact_iff : 4 * Field.branchOffset (wordAt code' k) = distance ↔
    -2 ^ 27 ≤ distance ∧ distance < 2 ^ 27
  kept : Field.Keeps (fun b => b < 26) (wordAt code k) (wordAt code' k)
  elsewhere : ∀ x, (x < k ∨ k + 4 ≤ x) → code'[x]? = code[x]?

/-! ## Their commands -/

variable {p : Placement} {i : Image} {o : Object} {e f : RelocationEntry}
  {symbol start start' : Int} {unit : Nat} {code : Bytes}

theorem relocationCommand_page (h : PagePair p o e f symbol start start' unit code) :
    relocationCommand o e symbol start towardsData =
      .ok (.patch .objectPage (e.position + start) 0 4096 (symbol + e.relocation.addend)) := by
  have hr : PatchRule.ofName? "R_AARCH64_ADR_PREL_PG_HI21" = some .page := by decide +kernel
  have hc : Opcode.ofCode? (towardsData + 1) = some (.patch .objectPage) := by decide
  simp [relocationCommand, Database.patch, h.page, hr, PatchRule.patch, h.little,
    PatchRule.mask, PatchRule.scale, PatchRule.value, PatchRule.variant, bind, Except.bind,
    patchCommand, hc, RelocationEntry.position]

theorem LowPart.command (h : LowPart f.relocation.type unit) (o : Object) (symbol start' : Int) :
    ∃ mask : Int, (0 ≤ mask ∧ mask < 2 ^ 32) ∧ Field.Spans (wrapped mask) 10 (12 - unit) ∧
      relocationCommand o f symbol start' towardsData = .ok (.patch .objectAbsolute
        (f.position + start') mask (2 ^ unit) (symbol + f.relocation.addend)) := by
  have hd : Opcode.ofCode? (towardsData + 2) = some (.patch .objectAbsolute) := by decide
  have hc : ∀ rule, PatchRule.ofName? f.relocation.type = some rule →
      rule = .low12 ∨ rule = .low12Words ∨ rule = .low12Doubles →
      relocationCommand o f symbol start' towardsData = .ok (.patch .objectAbsolute
        (f.position + start') rule.mask rule.scale (symbol + f.relocation.addend)) := by
    intro rule hr hl
    obtain rfl | rfl | rfl := hl <;>
      simp [relocationCommand, Database.patch, hr, PatchRule.patch, PatchRule.littleOnly,
        PatchRule.value, PatchRule.variant, bind, Except.bind, patchCommand, hd,
        RelocationEntry.position]
  generalize ht : f.relocation.type = type at h
  cases h with
  | addition =>
    refine ⟨_, by decide, ⟨by decide, by decide⟩, hc .low12 ?_ (.inl rfl)⟩
    rw [ht]
    decide +kernel
  | words =>
    refine ⟨_, by decide, ⟨by decide, by decide⟩, hc .low12Words ?_ (.inr (.inl rfl))⟩
    rw [ht]
    decide +kernel
  | doubles =>
    refine ⟨_, by decide, ⟨by decide, by decide⟩, hc .low12Doubles ?_ (.inr (.inr rfl))⟩
    rw [ht]
    decide +kernel

theorem relocationCommand_branch (h : Branch o e symbol start code) :
    relocationCommand o e symbol start towardsCode = .ok (.patch .function (e.position + start)
      0x3ffffff 4 (symbol + e.relocation.addend - (e.position + start))) := by
  have hr : PatchRule.ofName? e.relocation.type = some .branch26 := by
    obtain hb | hb := h.branch <;> rw [hb] <;> decide +kernel
  have hc : Opcode.ofCode? towardsCode = some (.patch .function) := by decide
  simp [relocationCommand, Database.patch, hr, PatchRule.patch, h.little, PatchRule.mask,
    PatchRule.scale, PatchRule.value, PatchRule.variant, bind, Except.bind, patchCommand, hc,
    RelocationEntry.position]

/-! ## Their effect -/

theorem LowPart.le {type : String} (h : LowPart type unit) : unit ≤ 12 := by
  cases h <;> decide

theorem LowPart.amount {type : String} (h : LowPart type unit) {v : Int} (hv : 2 ^ unit ∣ v) :
    (2 : Int) ^ unit *
      ((Int32.ofInt v / Int32.ofInt (2 ^ unit)).toUInt32.toNat % 2 ^ (12 - unit) : Nat) =
      v % 4096 := by
  -- The word of the address may have wrapped around, by a multiple of the page.
  have hf : Word.Fits (Int32.ofInt v).toInt := ⟨le_toInt _, toInt_lt _⟩
  have hw : (Int32.ofInt v).toInt % 2 ^ 32 = v % 2 ^ 32 := by
    rw [toInt_ofInt]
    exact bmod_emod
  have hq : ∀ b : Int, 0 < b → b < 2 ^ 31 → b ∣ (Int32.ofInt v).toInt →
      (Int32.ofInt v / Int32.ofInt b).toUInt32.toNat =
        ((Int32.ofInt v).toInt / b % 2 ^ 32).toNat := by
    intro b hl hh hdvd
    have hd := ofInt_div hf hl.le (by omega)
    rw [ofInt_toInt, Command.signed_word hl.le (by omega), if_pos hh,
      tdiv_eq_ediv_of_dvd hdvd] at hd
    rw [hd]
    exact toNat_wrapped _
  cases h with
  | addition =>
    norm_num at hw
    rw [hq _ (by decide) (by decide) (by norm_num)]
    norm_num
    omega
  | words =>
    norm_num at hv hw
    rw [hq _ (by decide) (by decide) (by norm_num; omega)]
    norm_num
    omega
  | doubles =>
    norm_num at hv hw
    rw [hq _ (by decide) (by decide) (by norm_num; omega)]
    norm_num
    omega

/-- The code after the two patches of an address: an offset in pages into the word at one place,
and an amount into that at another. -/
def addressedCode (code : Bytes) (k j : Nat) (offset : Int) (mask amount : Word) : Bytes :=
  mapWord (mapWord code k (Field.page (wrapped offset))) j
    (Field.masked mask amount)

theorem wordAt_addressedCode_page {k j : Nat} (hk : k + 4 ≤ code.length)
    (ha : k + 4 ≤ j ∨ j + 4 ≤ k) (offset : Int) (mask amount : Word) :
    wordAt (addressedCode code k j offset mask amount) k =
      page (wrapped offset) (wordAt code k) := by
  rw [addressedCode, wordAt_mapWord_of_apart (by rwa [length_mapWord]) ha, wordAt_mapWord_self hk]

theorem wordAt_addressedCode_low {k j : Nat} (hj : j + 4 ≤ code.length)
    (ha : k + 4 ≤ j ∨ j + 4 ≤ k) (offset : Int) (mask amount : Word) :
    wordAt (addressedCode code k j offset mask amount) j =
      masked mask amount (wordAt code j) := by
  rw [addressedCode, wordAt_mapWord_self (by rwa [length_mapWord]),
    wordAt_mapWord_of_apart hj ha.symm]

/-- The two patches of an address put it into the instructions. -/
theorem PagePair.addressed (h : PagePair p o e f symbol start start' unit code) {mask : Word}
    (hm : Field.Spans mask 10 (12 - unit)) :
    Addressed p code (addressedCode code (e.position + start).toNat (f.position + start').toNat
        ((p.data - p.code + (symbol + e.relocation.addend)) / 4096 -
          (Int32.ofInt (e.position + start)).toInt.tdiv 4096)
        mask (Int32.ofInt (symbol + e.relocation.addend) / Int32.ofInt (2 ^ unit)).toUInt32)
      (e.position + start).toNat (f.position + start').toNat unit
      (p.data + (symbol + e.relocation.addend)) := by
  obtain ⟨hk, hh⟩ := h.pageInside
  obtain ⟨hj, hi⟩ := h.lowInside
  obtain ⟨hsumLow, hsumHigh⟩ := h.sum
  have hmea := h.measured
  have ht := h.apart
  have hdt := h.dataAligned
  have hcd := h.codeAligned
  have ha := h.low.amount h.multiple
  have hle := h.low.le
  generalize e.position + start = K at *
  generalize f.position + start' = J at *
  generalize symbol + e.relocation.addend = v at *
  have hg := @wordAt_addressedCode_page code K.toNat J.toNat (by omega) (by omega)
  have hl := @wordAt_addressedCode_low code K.toNat J.toNat (by omega) (by omega)
  have hd : addressAt p (addressedCode code K.toNat J.toNat
      ((p.data - p.code + v) / 4096 - (Int32.ofInt K).toInt.tdiv 4096) mask
      (Int32.ofInt v / Int32.ofInt (2 ^ unit)).toUInt32) K.toNat J.toNat unit = p.data + v + 4096 *
        (missedPages K +
          (immediate (wordAt code J.toNat) / 2 ^ (12 - unit) : Nat)) := by
    -- Both terms of the offset are pages of words, so their difference fits the field.
    have ho := signedPage_bounds K
    have hp : (2 : Int) ^ unit * 2 ^ (12 - unit) = 4096 := by
      rw [← pow_add, Nat.add_sub_cancel' hle]
      rfl
    rw [addressAt, hg, hl, pageOffset_page (by omega) (by omega),
      immediate_masked hm (by omega), Nat.cast_add, Nat.cast_mul, mul_add, ← mul_assoc,
      Nat.cast_pow, Nat.cast_ofNat, hp, ha, missedPages]
    omega
  have hc : immediate (wordAt code J.toNat) / 2 ^ (12 - unit) = 0 ↔
      immediate (wordAt code J.toNat) < 2 ^ (12 - unit) :=
    Nat.div_eq_zero_iff_lt (by positivity)
  refine ⟨?_, ?_, ?_, ?_, ?_⟩
  · rwa [toNat_of_nonneg hk]
  · rw [hd, ← hc]
    generalize immediate (wordAt code J.toNat) / 2 ^ (12 - unit) = high
    by_cases hn : K < 2 ^ 31
    · rw [missedPages_of_near hk hn]
      omega
    · have hs := missedPages_of_far (k := K) (by omega) (by omega)
      omega
  · rw [hg]
    exact page_keeps _ _
  · rw [hl]
    have he := hm.keeps (Int32.ofInt v / Int32.ofInt (2 ^ unit)).toUInt32
      (wordAt code J.toNat)
    rwa [show 10 + (12 - unit) = 22 - unit by omega] at he
  · intro x hx hx'
    rw [addressedCode, getElem?_mapWord _ hx', getElem?_mapWord _ hx]

/-- The patch of a branch puts the distance into it. -/
theorem Branch.branched (h : Branch o e symbol start code) :
    Branched code (mapWord code (e.position + start).toNat
      (masked (wrapped 0x3ffffff)
        (wrapped ((symbol + e.relocation.addend - (e.position + start)) / 4))))
      (e.position + start).toNat (symbol + e.relocation.addend - (e.position + start)) := by
  obtain ⟨hl, hh⟩ := h.inside
  have hs : Field.Spans (wrapped 0x3ffffff) 0 26 := ⟨by decide, by decide⟩
  have hm := h.multiple
  generalize symbol + e.relocation.addend - (e.position + start) = d at *
  generalize e.position + start = K at *
  have hw := @wordAt_mapWord_self code K.toNat (by omega)
    (masked (wrapped 0x3ffffff) (wrapped (d / 4)))
  have hd : 4 * branchOffset (wordAt (mapWord code K.toNat
      (masked (wrapped 0x3ffffff) (wrapped (d / 4)))) K.toNat) =
        d.bmod (2 ^ 28) := by
    rw [hw, branchOffset_masked hs, bmod_def, bmod_def]
    norm_num
    omega
  refine ⟨hd, ?_, ?_, fun x hx => getElem?_mapWord _ hx⟩
  · rw [hd, bmod_def]
    norm_num
    omega
  · rw [hw]
    simpa [Field.Keeps] using hs.keeps (wrapped (d / 4)) (wordAt code K.toNat)

/-! ## Their streams -/

/-- What commands leave in the code memory, carried out one by one. -/
def LeavesCode (p : Placement) (i : Image) (cs : List Command) (code : Bytes) : Prop :=
  i.executeAll p cs = some { i with code := some code }

def StreamLeavesCode (p : Placement) (i : Image) (cs : List Command) (code : Bytes) : Prop :=
  ∃ output, Image.run p i
    (cs.flatMap (Command.bytes .little) ++ Command.bytes .little .endCommands) =
      { image := { i with code := some code }, result := some 1, output }

theorem encodable_patch {kind : PatchKind} {offset mask scale value : Int}
    (ho : 0 ≤ offset ∧ offset < 2 ^ 32) (hm : 0 ≤ mask ∧ mask < 2 ^ 32)
    (hs : 0 ≤ scale ∧ scale < 2 ^ 32) (hv : Word.Fits value) :
    (Command.patch kind offset mask scale value).Encodable := by
  simp only [Command.Encodable, Command.operands, List.forall_mem_cons]
  exact ⟨inRange_unsigned.2 ho, inRange_unsigned.2 hm,
    inRange_unsigned.2 hs, inRange_signed.2 hv, by simp⟩

theorem leavesCode_address (hi : i.code = some code) {v : Int}
    (hd : i.dataOffset = Int32.ofInt (p.data - p.code)) (hs : Word.Fits (p.data - p.code + v))
    (k j mask : Int) (unit : Nat) : LeavesCode p i
      [.patch .objectPage k 0 4096 v, .patch .objectAbsolute j mask (2 ^ unit) v]
      (addressedCode code k.toNat j.toNat
        ((p.data - p.code + v) / 4096 - (Int32.ofInt k).toInt.tdiv 4096) (wrapped mask)
        (Int32.ofInt v / Int32.ofInt (2 ^ unit)).toUInt32) := by
  rw [LeavesCode, executeAll_cons (execute_patch_word hi (by decide) _ _ _ _), patchWord_page hd hs]
  rfl

theorem leavesCode_branch (hi : i.code = some code) {v : Int} (hf : Word.Fits v)
    (hm : 4 ∣ v) (k : Int) : LeavesCode p i [.patch .function k 0x3ffffff 4 v]
      (mapWord code k.toNat
        (masked (wrapped 0x3ffffff) (wrapped (v / 4)))) := by
  rw [LeavesCode, executeAll_cons (execute_patch_word hi (by decide) _ _ _ _),
    patchWord_branch hf hm]
  rfl

/-- The relocations of an address are resolved to commands that put it into the code. -/
theorem PagePair.exists_addressed (h : PagePair p o e f symbol start start' unit code)
    (hi : i.code = some code) (hd : i.dataOffset = Int32.ofInt (p.data - p.code)) :
    ∃ c d code', relocationCommand o e symbol start towardsData = .ok c ∧
      relocationCommand o f symbol start' towardsData = .ok d ∧ LeavesCode p i [c, d] code' ∧
      (Word.Fits (symbol + e.relocation.addend) → StreamLeavesCode p i [c, d] code') ∧
      Addressed p code code' (e.position + start).toNat (f.position + start').toNat unit
        (p.data + (symbol + e.relocation.addend)) := by
  obtain ⟨mask, hm, hs, hl⟩ := h.low.command o symbol start'
  rw [h.addend] at hl
  have hv := leavesCode_address hi hd h.sum (e.position + start) (f.position + start') mask unit
  refine ⟨_, _, _, relocationCommand_page h, hl, hv, fun hf => ?_, h.addressed hs⟩
  have he := h.measured
  have hp := h.pageInside
  have hn := h.lowInside
  have hu : (0 : Int) ≤ 2 ^ unit ∧ (2 : Int) ^ unit < 2 ^ 32 :=
    ⟨by positivity, pow_lt_pow_right₀ (by norm_num) (Nat.lt_of_le_of_lt h.low.le (by decide))⟩
  refine run_commands ?_ (by simp [Command.Sized]) hv
  simp only [List.forall_mem_cons]
  exact ⟨encodable_patch (by omega) (by omega) (by omega) hf,
    encodable_patch (by omega) hm hu hf, by simp⟩

/-- The relocation of a branch is resolved to a command that puts the distance into it. -/
theorem Branch.exists_branched (h : Branch o e symbol start code) (hi : i.code = some code) :
    ∃ c code', relocationCommand o e symbol start towardsCode = .ok c ∧ LeavesCode p i [c] code' ∧
      StreamLeavesCode p i [c] code' ∧ Branched code code' (e.position + start).toNat
        (symbol + e.relocation.addend - (e.position + start)) := by
  have hl := leavesCode_branch (p := p) hi h.fits h.multiple (e.position + start)
  have hm := h.measured
  have hn := h.inside
  refine ⟨_, _, relocationCommand_branch h, hl,
    run_commands ?_ (by simp [Command.Sized]) hl, h.branched⟩
  simp only [List.forall_mem_cons]
  exact ⟨encodable_patch (by omega) (by omega) (by omega) h.fits, by simp⟩

/-- **The patches put exact addresses into the immediates**, and keep all other bits. The two of
an address are exact if the first instruction lies in the first two gigabytes of the code, and
the second one has no bit above those that are patched; the one of a branch is exact if the
branch reaches its target. -/
theorem immediates_exact (p : Placement) (o : Object) (i : Image) (code : Bytes)
    (hi : i.code = some code) :
    (∀ e f symbol start start' unit, PagePair p o e f symbol start start' unit code →
      i.dataOffset = Int32.ofInt (p.data - p.code) →
      ∃ c d code', relocationCommand o e symbol start towardsData = .ok c ∧
        relocationCommand o f symbol start' towardsData = .ok d ∧ LeavesCode p i [c, d] code' ∧
        (Word.Fits (symbol + e.relocation.addend) → StreamLeavesCode p i [c, d] code') ∧
        Addressed p code code' (e.position + start).toNat (f.position + start').toNat unit
          (p.data + (symbol + e.relocation.addend))) ∧
    (∀ e symbol start, Branch o e symbol start code →
      ∃ c code', relocationCommand o e symbol start towardsCode = .ok c ∧ LeavesCode p i [c] code' ∧
        StreamLeavesCode p i [c] code' ∧
        Branched code code' (e.position + start).toNat
          (symbol + e.relocation.addend - (e.position + start))) :=
  ⟨fun _ _ _ _ _ _ h hd => h.exists_addressed hi hd, fun _ _ _ h => h.exists_branched hi⟩

def relocationAt (offset : Nat) (type : String) (addend : Int) : RelocationEntry where
  symbolName := "dummy"
  symbolKind := .object
  symbolOffset := 0
  sectionIndex := 0
  functionOffset := 0
  start := 0
  relocation := { offset, type, addend, symbol := none, target := none }

def threeInstructions : Bytes :=
  [0x00, 0x00, 0x00, 0x90, 0x00, 0x00, 0x40, 0xb9, 0x00, 0x00, 0x00, 0x94]

def bareObject : Object where
  raw := []
  order := .little
  sections := []
  symbols := []

def dataBelow : Placement where
  code := 0x20000000
  data := 0x10000000

def threeLoaded : Image where
  data := some (List.replicate 16 0)
  code := some threeInstructions
  dataOffset := -0x10000000

theorem threeInstructions_exact :
    executeAll dataBelow {} [.allocateData 16, .allocateCode 12,
      .copyCode 0 12 threeInstructions] = some threeLoaded ∧
    (∃ c d code', LeavesCode dataBelow threeLoaded [c, d] code' ∧
      addressAt dataBelow code' 0 4 2 = 0x10000000 + (8 + 4)) ∧
    ∃ c code', LeavesCode dataBelow threeLoaded [c] code' ∧
      4 * Field.branchOffset (wordAt code' 8) = -1000 + 0 - 8 := by
  obtain ⟨hp, hb⟩ :=
    immediates_exact dataBelow bareObject threeLoaded threeInstructions rfl
  obtain ⟨c, d, code', _, _, hl, _, ha⟩ := hp
    (relocationAt 0 "R_AARCH64_ADR_PREL_PG_HI21" 4)
    (relocationAt 4 "R_AARCH64_LDST32_ABS_LO12_NC" 4) 8 0 0 2
    ⟨rfl, rfl, .words, rfl, by decide, by decide, by decide, by decide, by decide, by decide,
      by decide, by decide⟩ (by decide)
  obtain ⟨b, code'', _, hl', _, hr⟩ := hb
    (relocationAt 8 "R_AARCH64_CALL26" 0) (-1000) 0
    ⟨rfl, .inl rfl, by decide, by decide, by decide, by decide⟩
  exact ⟨rfl, ⟨c, d, code', hl, ha.exact_iff.2 (by decide)⟩,
    ⟨b, code'', hl', hr.exact_iff.2 (by decide)⟩⟩

/-- The instructions, with a bit in the immediate of the load that is not patched. -/
def loadAhead : Bytes :=
  [0x00, 0x00, 0x00, 0x90, 0x00, 0x00, 0x50, 0xb9, 0x00, 0x00, 0x00, 0x94]

/-- A bit that a load has above the patched ones stays there, and the address is a page too far.
At two gigabytes the offset of an address instruction is four gigabytes too large, and a branch
that is to go forward by its whole reach goes back. -/
theorem immediates_inexact :
    PagePair dataBelow bareObject (relocationAt 0 "R_AARCH64_ADR_PREL_PG_HI21" 4)
      (relocationAt 4 "R_AARCH64_LDST32_ABS_LO12_NC" 4) 8 0 0 2 loadAhead ∧
    relocationCommand bareObject (relocationAt 0 "R_AARCH64_ADR_PREL_PG_HI21" 4) 8 0 towardsData =
      .ok (.patch .objectPage 0 0 4096 12) ∧
    relocationCommand bareObject (relocationAt 4 "R_AARCH64_LDST32_ABS_LO12_NC" 4) 8 0
      towardsData = .ok (.patch .objectAbsolute 4 0xffc00 4 12) ∧
    (executeAll dataBelow { threeLoaded with code := some loadAhead }
      [.patch .objectPage 0 0 4096 12, .patch .objectAbsolute 4 0xffc00 4 12]).map
        (fun i => addressAt dataBelow (i.code.getD []) 0 4 2) =
          some (0x10000000 + (8 + 4) + 4096) ∧
    4096 * Field.pageOffset (patchWord dataBelow threeLoaded .objectPage (2 ^ 31) 0 4096 0
      0x90000000) = -0x10000000 - 2 ^ 31 + 2 ^ 32 ∧
    4 * Field.branchOffset (patchWord dataBelow threeLoaded .function 0 0x3ffffff 4 (2 ^ 27)
      0x94000000) = -2 ^ 27 :=
  ⟨⟨rfl, rfl, .words, rfl, by decide, by decide, by decide, by decide, by decide, by decide,
    by decide, by decide⟩, by decide +kernel, by decide +kernel, by decide +kernel,
    by decide +kernel, by decide +kernel⟩

end Assembly

end Patchwork
