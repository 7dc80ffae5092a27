import Patchwork.Machine.Stencil
import Patchwork.Number.Arithmetic
import Patchwork.Proofs.Number.Equality

/-!
# Integers in words

The stencils on integer cells compute on signed words that wrap around. On words of integers
that fit they compute what the operations mean on integers, as long as the result fits as well;
sums, products, left shifts and bitwise operations do so even modulo the size of a word.
-/

namespace Patchwork

open BitVec Int Int32 Word

namespace Word

def whole (i : Int) : Word := ofSigned (Int32.ofInt i)

def Fits (i : Int) : Prop := -2 ^ 31 ≤ i ∧ i < 2 ^ 31

instance (i : Int) : Decidable (Fits i) := inferInstanceAs (Decidable (_ ∧ _))

variable {i j : Int}

theorem fits_truth (p : Prop) [Decidable p] : Fits (if p then 1 else 0) := by
  split <;> decide

@[simp] theorem signed_whole (i : Int) : (whole i).signed = Int32.ofInt i := rfl

theorem toInt_ofInt (h : Fits i) : (Int32.ofInt i).toInt = i := toInt_ofInt_of_le h.1 h.2

theorem ofInt_of_fits (h : Fits i) : ofInt i = .ok (whole i) := by
  have hf : fits i := by
    rw [fits, Bool.and_eq_true, decide_eq_true_iff, decide_eq_true_iff]
    exact h
  rw [ofInt, if_pos hf, whole]

theorem ofBool_eq_whole (b : Bool) : ofBool b = whole (if b then 1 else 0) := by
  cases b <;> rfl

theorem ofNumber_eq_whole {n : Number} (hn : n.whole? = some i) (h : Fits i) :
    ofNumber n = .ok (whole i) := by
  cases n with
  | int j =>
    obtain rfl := Option.some.inj hn
    exact ofInt_of_fits h
  | bool b =>
    obtain rfl := Option.some.inj hn
    exact congrArg _ (ofBool_eq_whole b)
  | float x => cases hn

/-! ## Order -/

theorem ofInt_inj (hi : Fits i) (hj : Fits j) : Int32.ofInt i = Int32.ofInt j ↔ i = j := by
  rw [← Int32.toInt_inj, toInt_ofInt hi, toInt_ofInt hj]

theorem ofInt_lt (hi : Fits i) (hj : Fits j) : Int32.ofInt i < Int32.ofInt j ↔ i < j := by
  rw [lt_iff_toInt_lt, toInt_ofInt hi, toInt_ofInt hj]

theorem ofInt_le (hi : Fits i) (hj : Fits j) : Int32.ofInt i ≤ Int32.ofInt j ↔ i ≤ j := by
  rw [le_iff_toInt_le, toInt_ofInt hi, toInt_ofInt hj]

theorem ofInt_lt_zero (hi : Fits i) : Int32.ofInt i < 0 ↔ i < 0 := ofInt_lt hi (j := 0) (by decide)

theorem zero_lt_ofInt (hi : Fits i) : 0 < Int32.ofInt i ↔ 0 < i := ofInt_lt (i := 0) (by decide) hi

/-! ## Bits -/

theorem toBitVec_whole (i : Int) : (whole i).toBitVec = BitVec.ofInt 32 i := rfl

theorem getLsbD_ofInt (i : Int) {k : Nat} (hk : k < 32) :
    (BitVec.ofInt 32 i).getLsbD k = i.testBit k := by
  cases i with
  | ofNat m =>
    change (BitVec.ofInt 32 (m : Int)).getLsbD k = m.testBit k
    rw [ofInt_natCast, getLsbD_ofNat]
    simp [hk]
  | negSucc m =>
    rw [ofInt_negSucc_eq_not_ofNat, getLsbD_not, getLsbD_ofNat]
    simp [hk, Int.testBit]

theorem eq_whole_of_testBit {w : Word} {i : Int}
    (h : ∀ k < 32, w.toBitVec.getLsbD k = i.testBit k) : w = whole i := by
  refine UInt32.toBitVec_inj.1 (eq_of_getLsbD_eq fun k hk => ?_)
  rw [h k hk, toBitVec_whole, getLsbD_ofInt i hk]

theorem and_whole (i j : Int) : whole i &&& whole j = whole (i.land j) := by
  refine eq_whole_of_testBit fun k hk => ?_
  rw [UInt32.toBitVec_and, getLsbD_and, toBitVec_whole, toBitVec_whole, getLsbD_ofInt i hk,
    getLsbD_ofInt j hk, testBit_land]

theorem or_whole (i j : Int) : whole i ||| whole j = whole (i.lor j) := by
  refine eq_whole_of_testBit fun k hk => ?_
  rw [UInt32.toBitVec_or, getLsbD_or, toBitVec_whole, toBitVec_whole, getLsbD_ofInt i hk,
    getLsbD_ofInt j hk, testBit_lor]

theorem xor_whole (i j : Int) : whole i ^^^ whole j = whole (i.xor j) := by
  refine eq_whole_of_testBit fun k hk => ?_
  rw [UInt32.toBitVec_xor, getLsbD_xor, toBitVec_whole, toBitVec_whole, getLsbD_ofInt i hk,
    getLsbD_ofInt j hk, testBit_lxor]

end Word

/-! ## Bits of plain integers -/

namespace Bits

theorem sub_and_eq_ldiff (m n : Nat) : m - (m &&& n) = m.ldiff n := by
  suffices h : (m &&& n) + m.ldiff n = m by omega
  induction m using Nat.binaryRec generalizing n with
  | zero => simp [Nat.ldiff]
  | bit b m ih =>
    cases n using Nat.bitCasesOn with
    | bit c n =>
      have hm := ih n
      rw [Nat.land_bit, Nat.ldiff_bit]
      cases b <;> cases c <;> simp only [Nat.bit_val, Bool.toNat, cond] <;> simp <;> omega

theorem and_eq_land (i j : Int) : Bits.and i j = i.land j := by
  cases i <;> cases j <;> simp only [Bits.and, sub_and_eq_ldiff] <;> rfl

theorem not_eq_lnot (i : Int) : Bits.not i = i.lnot := by
  cases i with
  | ofNat m =>
    change -(m : Int) - 1 = Int.negSucc m
    rw [negSucc_eq]
    omega
  | negSucc m =>
    rw [Bits.not, Int.lnot, negSucc_eq]
    omega

theorem or_eq_lor (i j : Int) : Bits.or i j = i.lor j := by
  rw [Bits.or, and_eq_land, not_eq_lnot, not_eq_lnot, not_eq_lnot]
  cases i <;> cases j <;> simp [Int.lnot, Int.land, Int.lor]

theorem xor_eq_xor (i j : Int) : Bits.xor i j = i.xor j := by
  cases i <;> cases j <;> rfl

end Bits

/-! ## Stencils -/

namespace Stencil

open Word

variable {i j : Int}

/-- The floor of a quotient is the quotient towards zero, less one if a remainder is left and
the signs differ. -/
theorem fdiv_eq_tdiv_sub (i : Int) (hj : j ≠ 0) :
    i.fdiv j = i.tdiv j - if !decide (j ∣ i) && (decide (i < 0) != decide (j < 0)) then 1 else 0 := by
  rw [fdiv_eq_tdiv]
  by_cases hd : j ∣ i
  · simp [hd]
  · obtain hn | hp := Int.lt_or_gt_of_ne hj
    · simp [hd, hn, Int.not_le.2 hn, sign_eq_neg_one_of_neg hn]
    · by_cases hi : i < 0 <;>
        simp [hd, hi, hp.le, hp.not_gt, Int.not_le.2, Int.not_lt.1, sign_eq_one_of_pos hp]

theorem floorDiv_ofInt (hi : Fits i) (hj : Fits j) (hn : j ≠ 0) :
    floorDiv (Int32.ofInt i) (Int32.ofInt j) = Int32.ofInt (i.fdiv j) := by
  have hd := ofInt_tdiv hi.1 (le_of_lt_add_one hi.2) hj.1 (le_of_lt_add_one hj.2)
  have hm := toInt_mod (Int32.ofInt i) (Int32.ofInt j)
  rw [toInt_ofInt hi, toInt_ofInt hj] at hm
  have hv : (Int32.ofInt i % Int32.ofInt j != 0) = !decide (j ∣ i) := by
    rw [bne, Bool.not_inj_iff, Bool.eq_iff_iff, beq_iff_eq, decide_eq_true_iff, ← Int32.toInt_inj,
      hm, dvd_iff_tmod_eq_zero]
    rfl
  have hs : (decide (Int32.ofInt i < 0) != decide (Int32.ofInt j < 0)) =
      (decide (i < 0) != decide (j < 0)) := by
    simp only [ofInt_lt_zero hi, ofInt_lt_zero hj]
  rw [floorDiv, ← hd, hv, hs, fdiv_eq_tdiv_sub i hn]
  split
  · rw [ofInt_sub]
    rfl
  · rw [Int.sub_zero]

theorem smod_count {n : Nat} (hn : n < 32) : (BitVec.ofInt 32 n).smod 32 = BitVec.ofNat 32 n := by
  have ha : ∀ k : Fin 32, (BitVec.ofInt 32 k).smod 32 = BitVec.ofNat 32 k := by decide
  exact ha ⟨n, hn⟩

theorem shiftLeft_ofInt (i : Int) {n : Nat} (hn : n < 32) :
    Int32.ofInt i <<< Int32.ofInt n = Int32.ofInt (i * 2 ^ n) := by
  refine toBitVec_inj.1 ?_
  rw [Int32.toBitVec_shiftLeft, toBitVec_ofInt, toBitVec_ofInt, toBitVec_ofInt,
    smod_count hn, BitVec.shiftLeft_eq', toNat_ofNat, Nat.mod_eq_of_lt (by omega),
    shiftLeft_eq_mul_twoPow, BitVec.ofInt_mul]
  refine congrArg (BitVec.ofInt 32 i * ·) ?_
  have hp : ((2 : Int) ^ n) = ((2 ^ n : Nat) : Int) := by norm_cast
  rw [hp, ofInt_natCast]
  exact eq_of_toNat_eq (by simp)

theorem shiftRight_ofInt (hi : Fits i) {n : Nat} (hn : n < 32) :
    Int32.ofInt i >>> Int32.ofInt n = Int32.ofInt (i.fdiv (2 ^ n)) := by
  have hp : (0 : Int) < 2 ^ n := Int.pow_pos (by decide)
  have hf : Fits (i.fdiv (2 ^ n)) := by
    have hl : 1 ≤ (2 : Int) ^ n := hp
    rw [fdiv_eq_ediv_of_nonneg _ hp.le]
    constructor
    · have := hi.1
      exact (Int.le_ediv_iff_mul_le hp).2 (by nlinarith)
    · have := hi.2
      exact Int.ediv_lt_of_lt_mul hp (by nlinarith)
  rw [← Int32.toInt_inj, toInt_ofInt hf, ← toInt_toBitVec, Int32.toBitVec_shiftRight,
    toBitVec_ofInt n, smod_count hn, toInt_sshiftRight', toNat_ofNat, Nat.mod_eq_of_lt (by omega),
    toInt_toBitVec, toInt_ofInt hi, shiftRight_eq_div_pow, fdiv_eq_ediv_of_nonneg _ hp.le]
  norm_cast

end Stencil

/-- The stencil of an operation computes an integer from two others, in both orders if the
operation is marked as commutative. -/
structure Operation.Computes (o : Operation) (c : Bool) (i j m : Int) : Prop where
  typed : o.result? [.int, .int] = some .int
  word : Stencil.native o [.int, .int] (.whole i) (.whole j) = .whole m
  exchanged : c = true → Stencil.native o [.int, .int] (.whole j) (.whole i) = .whole m
  fits : Word.Fits m

namespace Operation

open Word (Fits whole)

variable {i j : Int}

theorem Computes.commutative {o : Operation} {m : Int} (ht : o.result? [.int, .int] = some .int)
    (hw : Stencil.native o [.int, .int] (whole i) (whole j) = whole m)
    (hc : ∀ a b, Stencil.native o [.int, .int] a b = Stencil.native o [.int, .int] b a)
    (h : Fits m) : o.Computes true i j m := ⟨ht, hw, fun _ => (hc _ _).trans hw, h⟩

theorem Computes.ordered {o : Operation} {m : Int} (ht : o.result? [.int, .int] = some .int)
    (hw : Stencil.native o [.int, .int] (whole i) (whole j) = whole m) (h : Fits m) :
    o.Computes false i j m := ⟨ht, hw, nofun, h⟩

theorem computes_add (h : Fits (i + j)) : add.Computes true i j (i + j) :=
  .commutative rfl (congrArg Word.ofSigned (Int32.ofInt_add i j).symm)
    (fun _ _ => congrArg Word.ofSigned (Int32.add_comm _ _)) h

theorem computes_mul (h : Fits (i * j)) : mul.Computes true i j (i * j) :=
  .commutative rfl (congrArg Word.ofSigned (Int32.ofInt_mul i j).symm)
    (fun _ _ => congrArg Word.ofSigned (Int32.mul_comm _ _)) h

theorem computes_sub (h : Fits (i - j)) : sub.Computes false i j (i - j) :=
  .ordered rfl (congrArg Word.ofSigned (ofInt_sub i j).symm) h

theorem computes_floordiv (hi : Fits i) (hj : Fits j) (hn : j ≠ 0) (h : Fits (i.fdiv j)) :
    floordiv.Computes false i j (i.fdiv j) :=
  .ordered rfl (congrArg Word.ofSigned (Stencil.floorDiv_ofInt hi hj hn)) h

theorem computes_bwand (h : Fits (i.land j)) : bwand.Computes true i j (i.land j) :=
  .commutative rfl (and_whole i j) UInt32.and_comm h

theorem computes_bwor (h : Fits (i.lor j)) : bwor.Computes true i j (i.lor j) :=
  .commutative rfl (or_whole i j) UInt32.or_comm h

theorem computes_bwxor (h : Fits (i.xor j)) : bwxor.Computes true i j (i.xor j) :=
  .commutative rfl (xor_whole i j) UInt32.xor_comm h

theorem computes_lshift {n : Nat} (hn : n < 32) (h : Fits (i * 2 ^ n)) :
    lshift.Computes false i n (i * 2 ^ n) :=
  .ordered rfl (congrArg Word.ofSigned (Stencil.shiftLeft_ofInt i hn)) h

theorem computes_rshift (hi : Fits i) {n : Nat} (hn : n < 32) (h : Fits (i.fdiv (2 ^ n))) :
    rshift.Computes false i n (i.fdiv (2 ^ n)) :=
  .ordered rfl (congrArg Word.ofSigned (Stencil.shiftRight_ofInt hi hn)) h

section

variable (hi : Fits i) (hj : Fits j)

include hi hj

theorem computes_min : min.Computes false i j (if i < j then i else j) := by
  refine .ordered rfl ?_ (by split <;> assumption)
  change Word.ofSigned (if Int32.ofInt i < Int32.ofInt j then _ else _) = _
  simp only [ofInt_lt hi hj, whole]
  split <;> rfl

theorem computes_max : max.Computes false i j (if j < i then i else j) := by
  refine .ordered rfl ?_ (by split <;> assumption)
  change Word.ofSigned (if Int32.ofInt j < Int32.ofInt i then _ else _) = _
  simp only [ofInt_lt hj hi, whole]
  split <;> rfl

/-! ### Comparisons -/

theorem computes_gt : gt.Computes false i j (if j < i then 1 else 0) := by
  refine .ordered rfl ?_ (fits_truth _)
  change Word.ofBool (decide (Int32.ofInt j < Int32.ofInt i)) = _
  simp only [ofInt_lt hj hi, ofBool_eq_whole, decide_eq_true_eq]

theorem computes_ge : ge.Computes false i j (if j ≤ i then 1 else 0) := by
  refine .ordered rfl ?_ (fits_truth _)
  change Word.ofBool (decide (Int32.ofInt j ≤ Int32.ofInt i)) = _
  simp only [ofInt_le hj hi, ofBool_eq_whole, decide_eq_true_eq]

theorem native_eq :
    Stencil.native eq [.int, .int] (whole i) (whole j) = whole (if i = j then 1 else 0) := by
  change Word.ofBool (Int32.ofInt i == Int32.ofInt j) = _
  simp only [ofBool_eq_whole, beq_iff_eq, ofInt_inj hi hj]

theorem native_ne :
    Stencil.native ne [.int, .int] (whole i) (whole j) = whole (if i ≠ j then 1 else 0) := by
  change Word.ofBool (Int32.ofInt i != Int32.ofInt j) = _
  simp only [ofBool_eq_whole, bne_iff_ne, ne_eq, ofInt_inj hi hj]

theorem computes_eq : eq.Computes true i j (if i = j then 1 else 0) :=
  ⟨rfl, native_eq hi hj, fun _ => by rw [native_eq hj hi]; simp only [eq_comm], fits_truth _⟩

theorem computes_ne : ne.Computes true i j (if i ≠ j then 1 else 0) :=
  ⟨rfl, native_ne hi hj, fun _ => by rw [native_ne hj hi]; simp only [ne_comm], fits_truth _⟩

end

/-! ### Functions of one operand -/

theorem native_neg (i : Int) (b : Word) : Stencil.native neg [.int] (whole i) b = whole (-i) :=
  congrArg Word.ofSigned (Int32.ofInt_neg i).symm

theorem native_abs (hi : Fits i) (b : Word) :
    Stencil.native abs [.int] (whole i) b = whole i.natAbs := by
  change Word.ofSigned (if Int32.ofInt i < 0 then -Int32.ofInt i else Int32.ofInt i) = _
  simp only [ofInt_lt_zero hi, whole]
  split
  · rw [← Int32.ofInt_neg, ofNat_natAbs_of_nonpos (by omega)]
  · rw [natAbs_of_nonneg (by omega)]

theorem native_sign (hi : Fits i) (b : Word) :
    Stencil.native sign [.int] (whole i) b = whole i.sign := by
  change Word.ofSigned (Stencil.intSign (Int32.ofInt i)) = _
  simp only [Stencil.intSign, zero_lt_ofInt hi, ofInt_lt_zero hi, whole]
  split
  · next h => rw [sign_eq_one_of_pos h]; rfl
  · split
    · next h => rw [sign_eq_neg_one_of_neg h]; rfl
    · have h : i = 0 := by omega
      rw [h]
      rfl

end Operation

end Patchwork
