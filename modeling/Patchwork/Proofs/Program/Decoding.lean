import Patchwork.Proofs.Program.Pages

/-!
# Writing and decoding immediates

A machine reads the immediate of an instruction from pieces of its word. What a writer puts into
the pieces is what the machine then reads, as far as the pieces have bits for it, and all other bits
of the word are kept.
-/

namespace Patchwork

open Image BitVec Bits Nat Word

namespace Field

variable {mask : Word} {lo n : Nat}

/-! ## Fields under a mask -/

/-- A number that was put into a field, taken without a sign. -/
theorem toNat_wrapped (x : Int) (hn : n ≤ 32) :
    (((wrapped x).toBitVec.extractLsb' 0 n).toNat : Int) = x % 2 ^ n := by
  rw [extract_wrapped x hn, toNat_ofInt, Int.toNat_of_nonneg (Int.emod_nonneg x (by positivity))]
  norm_cast

theorem replace_keeps (mask bits word : Word) :
    Keeps (fun b => mask.toBitVec.getLsbD b) word (replace mask bits word) := by
  intro b hb
  by_cases hl : b < 32
  · rw [getLsbD_replace _ _ _ hl, if_neg hb]
  · rw [getLsbD_of_ge _ _ (Nat.not_lt.1 hl), getLsbD_of_ge _ _ (Nat.not_lt.1 hl)]

/-- A contiguous mask: it has the `n` bits from bit `lo` on and no others. -/
def Contiguous (mask : Word) (lo n : Nat) : Prop :=
  lo + n ≤ 32 ∧ ∀ b < 32, mask.toBitVec.getLsbD b = decide (lo ≤ b ∧ b < lo + n)

theorem Contiguous.spans (h : Contiguous mask lo n) (hn : 0 < n) : Spans mask lo n := by
  obtain ⟨hf, ht⟩ := h
  refine ⟨eq_of_getLsbD_eq fun b hb => ?_, ht⟩
  have he : (0 - mask).toBitVec = -mask.toBitVec := by
    simp
  rw [lowestBit, UInt32.toBitVec_and, he, getLsbD_and, getLsbD_neg, ht b hb, getLsbD_twoPow]
  by_cases hi : lo ≤ b ∧ b < lo + n
  · -- below a bit of the mask stands another one unless it is the lowest
    have hl : (∃ j < b, mask.toBitVec.getLsbD j) ↔ lo < b := by
      constructor
      · rintro ⟨j, hj, hbit⟩
        rw [ht j (by omega), decide_eq_true_iff] at hbit
        omega
      · intro hlt
        exact ⟨lo, hlt, by rw [ht lo (by omega), decide_eq_true_iff]; omega⟩
    obtain rfl | hlt := Nat.eq_or_lt_of_le hi.1
    · simp [hl, hi.2, hb]
    · simp [hl, hi, hb, hlt, hlt.ne]
  · have hne : lo ≠ b := by omega
    simp [hi, hne]

/-- A field has what was put into it, up to its width. -/
theorem extract_masked (h : Contiguous mask lo n) (x : Int) (word : Word) :
    (((masked mask (wrapped x) word).toBitVec.extractLsb' lo n).toNat : Int) = x % 2 ^ n := by
  obtain rfl | hn := Nat.eq_zero_or_pos n
  · simp
  · have ht : (masked mask (wrapped x) word).toBitVec.extractLsb' lo n =
        (wrapped x).toBitVec.extractLsb' 0 n := by
      refine eq_of_getLsbD_eq fun b hb => ?_
      have hf := h.1
      rw [getLsbD_extractLsb', (h.spans hn).getLsbD_masked _ _ (by omega), if_pos (by omega)]
      simp
    rw [ht, toNat_wrapped x (le_of_add_left_le h.1)]

/-! ## Immediates in pieces -/

def moveImmediate (w : Word) : BitVec 16 :=
  w.toBitVec.extractLsb' 16 4 ++ w.toBitVec.extractLsb' 0 12

/-- The immediate of a move of the short encoding: four bits and one bit of the first half, three
and eight of the second. -/
def moveThumbImmediate (w : Word) : BitVec 16 :=
  w.toBitVec.extractLsb' 0 4 ++ w.toBitVec.extractLsb' 10 1 ++ w.toBitVec.extractLsb' 28 3 ++
    w.toBitVec.extractLsb' 16 8

/-- The immediate of a branch of the short encoding: the sign, two bits that are complemented where
they differ from it, ten bits of the first half and eleven of the second. -/
def branchThumbImmediate (w : Word) : BitVec 24 :=
  let sign := w.toBitVec.extractLsb' 10 1
  sign ++ ~~~(w.toBitVec.extractLsb' 29 1 ^^^ sign) ++ ~~~(w.toBitVec.extractLsb' 27 1 ^^^ sign) ++
    w.toBitVec.extractLsb' 0 10 ++ w.toBitVec.extractLsb' 16 11

/-- The signed offset of a branch of the short encoding, in bytes; its immediate counts half
words. -/
def branchThumbOffset (w : Word) : Int := (branchThumbImmediate w ++ 0#1).toInt

theorem moveImmediate_move (immediate word : Word) :
    moveImmediate (move immediate word) = immediate.toBitVec.extractLsb' 0 16 := by
  refine eq_of_getLsbD_eq fun b hb => ?_
  simp only [moveImmediate, getLsbD_append, getLsbD_extractLsb', move, replace,
    UInt32.toBitVec_and, UInt32.toBitVec_or, UInt32.toBitVec_not, UInt32.toBitVec_shiftLeft,
    UInt32.toBitVec_shiftRight]
  interval_cases b <;> simp

theorem moveThumbImmediate_moveThumb (immediate word : Word) :
    moveThumbImmediate (moveThumb immediate word) = immediate.toBitVec.extractLsb' 0 16 := by
  refine eq_of_getLsbD_eq fun b hb => ?_
  simp only [moveThumbImmediate, getLsbD_append, getLsbD_extractLsb', moveThumb,
    replace, UInt32.toBitVec_and, UInt32.toBitVec_or, UInt32.toBitVec_not,
    UInt32.toBitVec_shiftLeft, UInt32.toBitVec_shiftRight]
  interval_cases b <;> simp

/-- The immediate of a branch is half of the offset: complementing the two bits below the sign
twice gives them back. -/
theorem branchThumbImmediate_branchThumb (offset word : Word) :
    branchThumbImmediate (branchThumb offset word) =
      (offset.toInt32 >>> 1).toUInt32.toBitVec.extractLsb' 0 24 := by
  rw [branchThumb]
  refine eq_of_getLsbD_eq fun b hb => ?_
  simp only [branchThumbImmediate, getLsbD_append, getLsbD_extractLsb', replace,
    UInt32.toBitVec_and, UInt32.toBitVec_or, UInt32.toBitVec_not, UInt32.toBitVec_xor,
    UInt32.toBitVec_shiftLeft, UInt32.toBitVec_shiftRight, getLsbD_not, getLsbD_xor]
  interval_cases b <;> simp

/-- The offset of a branch is what was put into it, if it is even and in reach. -/
theorem branchThumbOffset_branchThumb {x : Int} (he : 2 ∣ x) (hl : -2 ^ 24 ≤ x)
    (hi : x < 2 ^ 24) (word : Word) :
    branchThumbOffset (branchThumb (wrapped x) word) = x := by
  have hf : Word.Fits x := ⟨by omega, by omega⟩
  have hh : ((wrapped x).toInt32 >>> 1).toUInt32 = wrapped (x.fdiv (2 ^ 1)) :=
    congrArg Int32.toUInt32 (Stencil.shiftRight_ofInt hf (by decide))
  have hq : x.fdiv (2 ^ 1) = x / 2 := Int.fdiv_eq_ediv_of_nonneg _ (by decide)
  rw [branchThumbOffset, branchThumbImmediate_branchThumb, toInt_append_zero, hh,
    toInt_wrapped _ (by decide), Int.bmod_eq_of_le (by omega) (by omega)]
  omega

/-! ## Writers and readers -/

/-- A writer of an immediate is undone by its reader. Of a number that the writer is meant for,
the reader finds what it should; and whatever is written, all bits outside the fields are kept. -/
structure Decodes (write : Word → Word → Word) (read : Word → Int) (meant : Int → Prop)
    (found : Int → Int) (fields : Word) : Prop where
  read_write : ∀ x, meant x → ∀ w, read (write (Image.wrapped x) w) = found x
  kept : ∀ v w, Keeps (fun b => fields.toBitVec.getLsbD b = true) w (write v w)

theorem Contiguous.decodes (h : Contiguous mask lo n) :
    Decodes (masked mask) (fun w => (w.toBitVec.extractLsb' lo n).toNat) (fun _ => True)
      (· % 2 ^ n) mask where
  read_write x _ w := extract_masked h x w
  kept _ _ := replace_keeps _ _ _

theorem decodes_page : Decodes page pageOffset (fun _ => True) (·.bmod (2 ^ 21)) 0x60ffffe0 where
  read_write x _ w := by rw [pageOffset, page_pieces, toInt_wrapped x (by decide)]
  kept _ _ := replace_keeps _ _ _

theorem decodes_move :
    Decodes move (fun w => (moveImmediate w).toNat) (fun _ => True) (· % 2 ^ 16) 0x000f0fff where
  read_write x _ w := by rw [moveImmediate_move, toNat_wrapped x (by decide)]
  kept _ _ := replace_keeps _ _ _

theorem decodes_moveThumb :
    Decodes moveThumb (fun w => (moveThumbImmediate w).toNat) (fun _ => True) (· % 2 ^ 16)
      0x70ff040f where
  read_write x _ w := by rw [moveThumbImmediate_moveThumb, toNat_wrapped x (by decide)]
  kept _ _ := replace_keeps _ _ _

theorem decodes_branchThumb :
    Decodes branchThumb branchThumbOffset (fun x => 2 ∣ x ∧ -2 ^ 24 ≤ x ∧ x < 2 ^ 24) id
      0x2fff07ff where
  read_write _ hx w := branchThumbOffset_branchThumb hx.1 hx.2.1 hx.2.2 w
  kept _ _ := replace_keeps _ _ _

end Field

/-! ## Without the bounds of a word -/

namespace Word

theorem not_whole (i : Int) : ~~~whole i = whole i.lnot := by
  refine eq_whole_of_testBit fun k hk => ?_
  rw [UInt32.toBitVec_not, getLsbD_not, toBitVec_whole, getLsbD_ofInt i hk]
  simp [hk]

theorem mul_whole (i j : Int) : whole i * whole j = whole (i * j) :=
  UInt32.toBitVec_inj.1 (ofInt_mul i j).symm

theorem neg_whole (i : Int) : 0 - whole i = whole (-i) := by
  refine UInt32.toBitVec_inj.1 ?_
  rw [UInt32.toBitVec_sub, toBitVec_whole, toBitVec_whole, ofInt_neg]
  simp

end Word

namespace Field

/-- A mask and a value put together with integers of any size, as they stand. -/
def unbounded (mask value word : Int) : Int :=
  Bits.or (Bits.and word (Bits.not mask)) (Bits.and (value * Bits.and mask (-mask)) mask)

theorem whole_unbounded (mask value word : Int) :
    Word.whole (unbounded mask value word) =
      masked (wrapped mask) (wrapped value) (Word.whole word) := by
  change _ = (Word.whole word &&& ~~~Word.whole mask) |||
    (Word.whole value * (Word.whole mask &&& (0 - Word.whole mask))) &&& Word.whole mask
  rw [unbounded, or_eq_lor, and_eq_land, and_eq_land, and_eq_land,
    not_eq_lnot, not_whole, neg_whole, and_whole, and_whole, mul_whole, and_whole, or_whole]

theorem exists_and_natCast (i : Int) (m : Nat) : ∃ k ≤ m, Bits.and i m = (k : Int) := by
  cases i with
  | ofNat k => exact ⟨k &&& m, and_le_right, rfl⟩
  | negSucc k => exact ⟨m - (m &&& k), sub_le _ _, rfl⟩

theorem unbounded_bounds {mask : Int} (hl : 0 ≤ mask) (hh : mask < 2 ^ 32) (value : Int)
    (word : Word) : ∃ k : Nat, unbounded mask value word.toNat = k ∧ k < 2 ^ 32 := by
  obtain ⟨m, rfl⟩ := Int.eq_ofNat_of_zero_le hl
  have hw := word.toNat_lt
  have hkp : Bits.and word.toNat (Bits.not m) = (word.toNat - (word.toNat &&& m) : Nat) := by
    rw [not_eq_lnot]
    rfl
  obtain ⟨k, hk, hp⟩ := exists_and_natCast (value * Bits.and m (-m)) m
  refine ⟨(word.toNat - (word.toNat &&& m)) ||| k, ?_, or_lt_two_pow (by omega) (by omega)⟩
  rw [unbounded, hkp, hp, or_eq_lor]
  rfl

theorem unbounded_eq_masked {mask : Int} (hl : 0 ≤ mask) (hi : mask < 2 ^ 32) (value : Int)
    (word : Word) :
    unbounded mask value word.toNat =
      (masked (Image.wrapped mask) (Image.wrapped value) word).toNat := by
  obtain ⟨k, hk, ht⟩ := unbounded_bounds hl hi value word
  have hd : Word.whole word.toNat = word := by
    refine UInt32.toNat_inj.1 ?_
    have hd := word.toNat_lt
    have hw := Image.toNat_wrapped word.toNat
    change (Word.whole word.toNat).toNat = _ at hw
    omega
  have hh := whole_unbounded mask value word.toNat
  rw [hd, hk] at hh
  have hw := Image.toNat_wrapped k
  change (Word.whole k).toNat = _ at hw
  rw [← hh]
  omega

end Field

/-! ## Patches of whole images -/

/-- A patch without a machine leaves the word that a machine would, in either byte order. -/
theorem Patcher.wordAt_execute_patch {o : Options} {q : Patcher} {offset : Int}
    (hl : 0 ≤ offset) (hh : offset + 4 ≤ q.code.length) (mask value : Int) :
    ∃ q', q.execute o (.patch .function offset mask 1 value) = .ok q' ∧
      wordAt o.order q'.code offset.toNat = Field.masked (wrapped mask) (wrapped value)
        (wordAt o.order q.code offset.toNat) := by
  have hq : quotient value 1 = .ok value := by simp [quotient]
  refine ⟨_, by rw [execute, hq]; rfl, ?_⟩
  change wordAt o.order (mapWord o.order q.code offset.toNat _) offset.toNat = _
  rw [wordOf_eq_wrapped, wordOf_eq_wrapped]
  generalize Field.masked (wrapped mask) (wrapped value) = f
  have hi : offset.toNat +
      (Bytes.ofNat o.order 4 (f (wordAt o.order q.code offset.toNat)).toNat).length ≤
        q.code.length := by
    rw [Bytes.length_ofNat]
    omega
  have hb := Bytes.take_drop_overwrite_self hi
  have ht := (f (wordAt o.order q.code offset.toNat)).toNat_lt
  rw [Bytes.overwrite_eq_splice hi, Bytes.length_ofNat] at hb
  rw [wordAt, mapWord, putWord, hb, Bytes.toNat_ofNat, mod_eq_of_lt (by omega), UInt32.ofNat_toNat]

namespace Image

/-- The moves that take an address in halves: the kind of their patches, their immediate, and
the bits of it. -/
inductive Moves : PatchKind → (Word → Word → Word) → (Word → BitVec 16) → Word → Prop
  | long : Moves .objectMove Field.move Field.moveImmediate 0x000f0fff
  | short : Moves .objectMoveThumb Field.moveThumb Field.moveThumbImmediate 0x70ff040f

variable {p : Placement} {i : Image} {kind : PatchKind} {write : Word → Word → Word}
  {read : Word → BitVec 16} {fields : Word}

theorem Moves.patchWord_eq (h : Moves kind write read fields) (i : Image)
    (offset mask scale value : Int) :
    patchWord p i kind offset mask scale value = write (addressPart p i mask scale value) := by
  cases h <;> rfl

theorem addressPart_low (p : Placement) (i : Image) (value : Int) :
    ((addressPart p i 0xffff 1 value).toNat : Int) = (i.dataAddress p + value) % 2 ^ 16 := by
  have hm : (wrapped 0xffff).toNat = 2 ^ 16 - 1 := by decide
  have hs : (wrapped 1).toNat = 1 := by decide
  rw [addressPart, hm, and_two_pow_sub_one_eq_mod, UInt32.toNat_div, UInt32.toNat_ofNat', hs]
  omega

theorem and_upper_half (a : Nat) : a &&& 0xffff0000 = a / 2 ^ 16 % 2 ^ 16 * 2 ^ 16 := by
  have hm : (0xffff0000 : Nat) = (2 ^ 16 - 1) <<< 16 := by decide
  rw [hm, ← Nat.shiftLeft_eq, ← shiftRight_eq_div_pow, ← and_two_pow_sub_one_eq_mod]
  refine eq_of_testBit_eq fun k => ?_
  simp only [testBit_and, testBit_shiftLeft, testBit_shiftRight]
  by_cases hk : 16 ≤ k
  · simp [hk, Nat.add_sub_cancel' hk]
  · simp [hk]

theorem addressPart_high (p : Placement) (i : Image) (value : Int) :
    ((addressPart p i 0xffff0000 0x10000 value).toNat : Int) =
      (i.dataAddress p + value) / 2 ^ 16 % 2 ^ 16 := by
  have hm : (wrapped 0xffff0000).toNat = 0xffff0000 := by decide
  have hs : (wrapped 0x10000).toNat = 2 ^ 16 := by decide
  rw [addressPart, hm, and_upper_half, UInt32.toNat_div, UInt32.toNat_ofNat', hs]
  omega

theorem Moves.patched (h : Moves kind write read fields) (part word : Word) :
    (read (write part word)).toNat = part.toNat % 2 ^ 16 ∧
      Field.Keeps (fun b => fields.toBitVec.getLsbD b) word (write part word) := by
  cases h with
  | long =>
    refine ⟨?_, Field.replace_keeps _ _ _⟩
    rw [Field.moveImmediate_move]
    simp
  | short =>
    refine ⟨?_, Field.replace_keeps _ _ _⟩
    rw [Field.moveThumbImmediate_moveThumb]
    simp

/-- The patch that puts the lower half of an address into a move. -/
def lowHalf (kind : PatchKind) (offset value : Int) : Command := .patch kind offset 0xffff 1 value

/-- The patch that puts the upper half of an address into a move. -/
def highHalf (kind : PatchKind) (offset value : Int) : Command :=
  .patch kind offset 0xffff0000 0x10000 value

/-- What the patches of two moves leave: the moves make up the address, and all other bits and
bytes are those that were there. -/
structure Moved (read : Word → BitVec 16) (fields : Word) (code code' : Bytes) (k j : Nat)
    (address : Int) : Prop where
  decoded : ((read (wordAt code' k)).toNat : Int) + 2 ^ 16 * (read (wordAt code' j)).toNat =
    address % 2 ^ 32
  low : Field.Keeps (fun b => fields.toBitVec.getLsbD b = true) (wordAt code k) (wordAt code' k)
  high : Field.Keeps (fun b => fields.toBitVec.getLsbD b = true) (wordAt code j) (wordAt code' j)
  elsewhere : ∀ x, (x < k ∨ k + 4 ≤ x) → (x < j ∨ j + 4 ≤ x) → code'[x]? = code[x]?

theorem Moves.executeAll_eq (h : Moves kind write read fields) {code : Bytes}
    (hi : i.code = some code) (k j mask mask' scale scale' value : Int) :
    i.executeAll p [.patch kind k mask scale value, .patch kind j mask' scale' value] =
      some { i with code := some (mapWord (mapWord code k.toNat
        (write (addressPart p i mask scale value))) j.toNat
          (write (addressPart p i mask' scale' value))) } := by
  have hk : kind ≠ .objectRelative := by
    cases h <;> decide
  rw [executeAll_cons (execute_patch_word hi hk k mask scale value),
    executeAll_cons (execute_patch_word rfl hk j mask' scale' value), h.patchWord_eq,
    h.patchWord_eq]
  rfl

/-- Two words that lie apart, replaced one after the other: each is replaced, and all other bytes
are kept. -/
theorem wordAt_mapWord_mapWord {code : Bytes} {a b : Nat} (ha : a + 4 ≤ code.length)
    (hb : b + 4 ≤ code.length) (hp : a + 4 ≤ b ∨ b + 4 ≤ a) (f f' : Word → Word) :
    wordAt (mapWord (mapWord code a f) b f') a = f (wordAt code a) ∧
      wordAt (mapWord (mapWord code a f) b f') b = f' (wordAt code b) ∧
      ∀ x, (x < a ∨ a + 4 ≤ x) → (x < b ∨ b + 4 ≤ x) →
        (mapWord (mapWord code a f) b f')[x]? = code[x]? := by
  refine ⟨?_, ?_, fun x hx hxb => ?_⟩
  · rw [wordAt_mapWord_of_apart (by rwa [length_mapWord]) hp, wordAt_mapWord_self ha]
  · rw [wordAt_mapWord_self (by rwa [length_mapWord]), wordAt_mapWord_of_apart hb hp.symm]
  · rw [getElem?_mapWord f' hxb, getElem?_mapWord f hx]

theorem Moves.moved_of_words (h : Moves kind write read fields) {code code' : Bytes} {k j : Nat}
    {value : Int} (hl : wordAt code' k = write (addressPart p i 0xffff 1 value) (wordAt code k))
    (hh : wordAt code' j = write (addressPart p i 0xffff0000 0x10000 value) (wordAt code j))
    (he : ∀ x, (x < k ∨ k + 4 ≤ x) → (x < j ∨ j + 4 ≤ x) → code'[x]? = code[x]?) :
    Moved read fields code code' k j (i.dataAddress p + value) := by
  have hlowPart := addressPart_low p i value
  have hhighPart := addressPart_high p i value
  refine ⟨?_, ?_, ?_, he⟩
  · rw [hl, hh, (h.patched _ _).1, (h.patched _ _).1]
    omega
  · rw [hl]
    exact (h.patched _ _).2
  · rw [hh]
    exact (h.patched _ _).2

/-- The patches of two moves put an address into them, in whichever order they are made. -/
theorem Moves.moved (h : Moves kind write read fields) {code : Bytes} (hi : i.code = some code)
    {k j : Int} (hk : 0 ≤ k ∧ k + 4 ≤ code.length) (hj : 0 ≤ j ∧ j + 4 ≤ code.length)
    (ha : k + 4 ≤ j ∨ j + 4 ≤ k) (value : Int) {cs : List Command}
    (hc : cs = [lowHalf kind k value, highHalf kind j value] ∨
      cs = [highHalf kind j value, lowHalf kind k value]) :
    ∃ i' code', i.executeAll p cs = some i' ∧ i'.code = some code' ∧
      Moved read fields code code' k.toNat j.toNat (i.dataAddress p + value) := by
  have hk' : k.toNat + 4 ≤ code.length := by omega
  have hj' : j.toNat + 4 ≤ code.length := by omega
  have ha' : k.toNat + 4 ≤ j.toNat ∨ j.toNat + 4 ≤ k.toNat := by omega
  obtain rfl | rfl := hc
  · obtain ⟨hl, hh, hp⟩ := wordAt_mapWord_mapWord hk' hj' ha'
      (write (addressPart p i 0xffff 1 value)) (write (addressPart p i 0xffff0000 0x10000 value))
    exact ⟨_, _, h.executeAll_eq hi .., rfl, h.moved_of_words hl hh hp⟩
  · obtain ⟨hh, hl, hp⟩ := wordAt_mapWord_mapWord hj' hk' ha'.symm
      (write (addressPart p i 0xffff0000 0x10000 value)) (write (addressPart p i 0xffff 1 value))
    exact ⟨_, _, h.executeAll_eq hi .., rfl, h.moved_of_words hl hh fun x hx hx' => hp x hx' hx⟩

end Image

/-- **Immediates decode to what was written into them.** Under any mask only the bits of the mask
change, and under a contiguous one the field is the value up to its width; integers of any size and
the patcher put together the same word. The page offset of an address instruction, the immediates
of moves and the offset of a branch are read as they were written, up to their width or within
their reach. The two moves of an object make up the low word of its address. In each case all bits
outside the fields are kept. -/
theorem immediates_decoded :
    (∀ mask value word : Word, Field.Keeps (fun b => mask.toBitVec.getLsbD b = true) word
      (Field.masked mask value word)) ∧
    (∀ (mask : Word) (lo n : Nat), Field.Contiguous mask lo n →
      Field.Decodes (Field.masked mask) (fun w => (w.toBitVec.extractLsb' lo n).toNat)
        (fun _ => True) (· % 2 ^ n) mask) ∧
    (∀ (mask value : Int) (word : Word), 0 ≤ mask → mask < 2 ^ 32 →
      Field.unbounded mask value word.toNat =
        (Field.masked (Image.wrapped mask) (Image.wrapped value) word).toNat) ∧
    (∀ (o : Patcher.Options) (q : Patcher) (offset mask value : Int), 0 ≤ offset →
      offset + 4 ≤ q.code.length →
      ∃ q', q.execute o (.patch .function offset mask 1 value) = .ok q' ∧
        Patcher.wordAt o.order q'.code offset.toNat = Field.masked (Image.wrapped mask)
          (Image.wrapped value) (Patcher.wordAt o.order q.code offset.toNat)) ∧
    Field.Decodes Field.page Field.pageOffset (fun _ => True) (·.bmod (2 ^ 21)) 0x60ffffe0 ∧
    Field.Decodes Field.move (fun w => (Field.moveImmediate w).toNat) (fun _ => True) (· % 2 ^ 16)
      0x000f0fff ∧
    Field.Decodes Field.moveThumb (fun w => (Field.moveThumbImmediate w).toNat) (fun _ => True)
      (· % 2 ^ 16) 0x70ff040f ∧
    (∀ (p : Placement) (i : Image) (kind : PatchKind) (write : Word → Word → Word)
      (read : Word → BitVec 16) (fields : Word) (code : Bytes) (k j value : Int)
      (cs : List Command), Image.Moves kind write read fields → i.code = some code →
      0 ≤ k ∧ k + 4 ≤ code.length → 0 ≤ j ∧ j + 4 ≤ code.length → k + 4 ≤ j ∨ j + 4 ≤ k →
      (cs = [Image.lowHalf kind k value, Image.highHalf kind j value] ∨
        cs = [Image.highHalf kind j value, Image.lowHalf kind k value]) →
      ∃ i' code', i.executeAll p cs = some i' ∧ i'.code = some code' ∧
        Image.Moved read fields code code' k.toNat j.toNat (i.dataAddress p + value)) ∧
    Field.Decodes Field.branchThumb Field.branchThumbOffset
      (fun x => 2 ∣ x ∧ -2 ^ 24 ≤ x ∧ x < 2 ^ 24) id 0x2fff07ff :=
  ⟨fun _ _ _ => Field.replace_keeps _ _ _, fun _ _ _ h => h.decodes,
    fun _ value word hlow hhigh => Field.unbounded_eq_masked hlow hhigh value word,
    fun _ _ _ mask value hlow hhigh => Patcher.wordAt_execute_patch hlow hhigh mask value,
    Field.decodes_page, Field.decodes_move, Field.decodes_moveThumb,
    fun _ _ _ _ _ _ _ _ _ value _ h hi hk hj hapart hcs => h.moved hi hk hj hapart value hcs,
    Field.decodes_branchThumb⟩

/-- Two moves of the short encoding, with nothing in their immediates. -/
def twoMoves : Bytes := [0x40, 0xf2, 0x00, 0x00, 0xc0, 0xf2, 0x00, 0x00]

def twoMovesLoaded : Image where
  data := some (List.replicate 16 0)
  code := some twoMoves

/-- A call of the instruction before, an address moved in halves with the upper one patched first,
and a branch back by its whole reach. -/
theorem backward_and_moved_decoded :
    ((Field.masked 0x3ffffff (Image.wrapped (-1)) 0x94000000).toBitVec.extractLsb' 0 26).toNat =
      (-1 : Int) % 2 ^ 26 ∧
    Field.unbounded 0x3ffffff (-1) (0x94000000 : Word).toNat =
      (Field.masked (Image.wrapped 0x3ffffff) (Image.wrapped (-1)) 0x94000000).toNat ∧
    (∃ q', Patcher.execute { order := .big } { code := [0x94, 0x00, 0x00, 0x00] }
        (.patch .function 0 0x3ffffff 1 (-1)) = .ok q' ∧
      Patcher.wordAt .big q'.code 0 = Field.masked (Image.wrapped 0x3ffffff) (Image.wrapped (-1))
        (Patcher.wordAt .big [0x94, 0x00, 0x00, 0x00] 0)) ∧
    (∃ i' code', twoMovesLoaded.executeAll { data := 0x72345678 }
        [Image.highHalf .objectMoveThumb 4 8, Image.lowHalf .objectMoveThumb 0 8] = some i' ∧
      i'.code = some code' ∧
      Image.Moved Field.moveThumbImmediate 0x70ff040f twoMoves code' 0 4 0x72345680) ∧
    Field.branchThumbOffset (Field.branchThumb (Image.wrapped (-2 ^ 24)) 0xd000f800) = -2 ^ 24 := by
  obtain ⟨_, hf, hu, hp, _, _, _, hm, hb⟩ := immediates_decoded
  exact ⟨(hf 0x3ffffff 0 26 ⟨by decide, by decide⟩).read_write (-1) trivial 0x94000000,
    hu 0x3ffffff (-1) 0x94000000 (by decide) (by decide),
    hp { order := .big } { code := [0x94, 0x00, 0x00, 0x00] } 0 0x3ffffff (-1) (by decide)
      (by decide),
    hm { data := 0x72345678 } twoMovesLoaded _ _ _ _ twoMoves 0 4 8 _ .short rfl (by decide)
      (by decide) (by decide) (.inr rfl),
    hb.read_write (-2 ^ 24) (by decide) 0xd000f800⟩

end Patchwork
