import Patchwork.Number.Arithmetic
import Mathlib

/-!
# Whole doubles

Sums of whole doubles are exact as long as they do not go beyond 2^53. A whole double is a
zero, or a mantissa of 53 bits with an exponent from -52 to 1; aligning two of them and
rounding their sum cuts off zeros only. The next whole number after 2^53 is no double.
-/

namespace Patchwork

open Binary64 Nat

variable {i : Int} {m : Nat} {u : UnpackedFloat}

open Float.Model (Format UnpackedFloat totalExponent)
open Float.Model.UnpackedFloat

namespace Binary64

/-- A double stands for a whole number: it is a zero, or its mantissa has 53 bits of which
the last one counts `2 ^ (level - 52)`. -/
inductive StandsFor : UnpackedFloat → Int → Prop
  | zero (s : Sign) : StandsFor (.zero s) 0
  | finite {s : Sign} {m level : Nat} {i : Int} (hpos : 0 < m) (hlevel : level ≤ 53)
      (hlow : 2 ^ 52 ≤ m) (hhigh : m < 2 ^ 53) (hi : i * 2 ^ 52 = s.apply (m * 2 ^ level)) :
      StandsFor (.finite s m (level - 52) hpos) i

theorem apply_mul (s : Sign) (a b : Int) : s.apply (a * b) = s.apply a * b := by
  cases s
  · exact (Int.neg_mul a b).symm
  · rfl

/-! ## Rounding -/

theorem shiftRight_exact (m n : Nat) :
    (⟨m * 2 ^ n, false, false⟩ : ExtendedMantissa) >>> n = ⟨m, false, false⟩ := by
  induction n generalizing m with
  | zero => simp [HShiftRight.hShiftRight, Nat.repeat]
  | succ n ih =>
    have hs : (⟨m * 2 ^ (n + 1), false, false⟩ : ExtendedMantissa) >>> (n + 1) =
        ((⟨(m * 2) * 2 ^ n, false, false⟩ : ExtendedMantissa) >>> n).shiftRightOne := by
      rw [Nat.pow_succ', ← Nat.mul_assoc]
      rfl
    rw [hs, ih]
    simp [ExtendedMantissa.shiftRightOne]

theorem log2_normal (hl : 2 ^ 52 ≤ m) (hh : m < 2 ^ 53) : m.log2 = 52 :=
  (log2_eq_iff (by omega)).2 ⟨hl, hh⟩

theorem log2_mul_two_pow (hm : m ≠ 0) (n : Nat) : (m * 2 ^ n).log2 = m.log2 + n := by
  induction n with
  | zero => simp
  | succ n ih =>
    have hn : m * 2 ^ n ≠ 0 := Nat.mul_ne_zero hm (Nat.two_pow_pos n).ne'
    rw [Nat.pow_succ, ← Nat.mul_assoc, Nat.mul_comm, log2_two_mul hn]
    omega

theorem targetExponent_normal {e : Int} (hl : 2 ^ 52 ≤ m) (hh : m < 2 ^ 53)
    (he : -1074 ≤ e) (n : Nat) :
    Format.binary64.targetExponent (totalExponent (m * 2 ^ n) (e - n)) = e := by
  simp only [Format.targetExponent, totalExponent, log2_mul_two_pow (show m ≠ 0 by omega),
    log2_normal hl hh, Format.mantissaBits, Format.minExponent]
  omega

/-- A mantissa of 53 bits, with zeros behind it, is rounded to itself. -/
theorem roundWithAccuracy_exact (s : Sign) {e : Int} (hp : 0 < m) (hl : 2 ^ 52 ≤ m)
    (hh : m < 2 ^ 53) (he : -1074 ≤ e) (n : Nat) :
    roundWithAccuracy .binary64 s (m * 2 ^ n) (e - n) .exact = .finite s m e hp := by
  have hf : shiftToTargetExponent .binary64 (m * 2 ^ n) (e - n) .exact =
      (⟨m, false, false⟩, e) := by
    have hs : (e - (e - n)).toNat = n := by omega
    rw [shiftToTargetExponent, targetExponent_normal hl hh he n, shiftToExponent, hs]
    simp only [ExtendedMantissa.ofMantissaAndAccuracy, shiftRight_exact, Prod.mk.injEq, true_and]
    omega
  have hn : shiftToTargetExponent .binary64 m e .exact = (⟨m, false, false⟩, e) := by
    have ht := targetExponent_normal hl hh he 0
    simp only [Nat.pow_zero, Nat.mul_one, cast_zero, Int.sub_zero] at ht
    simp [shiftToTargetExponent, ht, shiftToExponent, HShiftRight.hShiftRight, Nat.repeat,
      ExtendedMantissa.ofMantissaAndAccuracy]
  have hr : (⟨m, false, false⟩ : ExtendedMantissa).roundedMantissa = m := rfl
  simp [roundWithAccuracy, hf, hn, hr, Nat.ne_of_gt hp]

theorem round_exact (s : Sign) {M : Nat} {e E : Int} (hp : 0 < m) (hl : 2 ^ 52 ≤ m)
    (hh : m < 2 ^ 53) (he : -1074 ≤ e)
    (h : (∃ n : Nat, M = m * 2 ^ n ∧ E = e - n) ∨ ∃ n : Nat, m = M * 2 ^ n ∧ E = e + n) :
    UnpackedFloat.round .binary64 s M E = .finite s m e hp := by
  rcases h with ⟨n, rfl, rfl⟩ | ⟨n, rfl, rfl⟩
  · have h0 : (e - n - e).toNat = 0 := by omega
    simp only [UnpackedFloat.round, targetExponent_normal hl hh he, decreaseExponent, h0,
      shiftLeft_zero, cast_zero, Int.sub_zero]
    exact roundWithAccuracy_exact s hp hl hh he n
  · have hM : M ≠ 0 := by
      rintro rfl
      simp at hp
    have ho : M.log2 + n = 52 := by rw [← log2_mul_two_pow hM, log2_normal hl hh]
    have ht : Format.binary64.targetExponent (totalExponent M (e + n)) = e := by
      simp only [Format.targetExponent, totalExponent, Format.mantissaBits, Format.minExponent]
      omega
    have hs : (e + n - e).toNat = n := by omega
    have hb : e + n - (n : Int) = e := by omega
    have hr := roundWithAccuracy_exact s hp hl hh he 0
    simp only [Nat.pow_zero, Nat.mul_one, cast_zero, Int.sub_zero] at hr
    simp only [UnpackedFloat.round, ht, decreaseExponent, hs, shiftLeft_eq, hb]
    exact hr

theorem exists_mantissa {n : Nat} (hp : 0 < n) (he : n ≤ 2 ^ 53) :
    ∃ m level, level ≤ 53 ∧ 2 ^ 52 ≤ m ∧ m < 2 ^ 53 ∧ n * 2 ^ 52 = m * 2 ^ level := by
  by_cases ht : n = 2 ^ 53
  · exact ⟨2 ^ 52, 53, by omega, by omega, by omega, by rw [ht, Nat.mul_comm]⟩
  · have hn : n ≠ 0 := by omega
    have hl : n.log2 ≤ 52 := by
      have := (log2_lt hn).2 (show n < 2 ^ 53 by omega)
      omega
    have hs : 2 ^ 52 = 2 ^ (52 - n.log2) * 2 ^ n.log2 := by rw [← Nat.pow_add]; congr 1; omega
    refine ⟨n * 2 ^ (52 - n.log2), n.log2, by omega, ?_, ?_, ?_⟩
    · calc 2 ^ 52 = 2 ^ n.log2 * 2 ^ (52 - n.log2) := by rw [hs, Nat.mul_comm]
        _ ≤ n * 2 ^ (52 - n.log2) := Nat.mul_le_mul_right _ (log2_self_le hn)
    · calc n * 2 ^ (52 - n.log2) < 2 ^ (n.log2 + 1) * 2 ^ (52 - n.log2) :=
          Nat.mul_lt_mul_of_pos_right lt_log2_self (Nat.two_pow_pos _)
        _ = 2 ^ 53 := by rw [← Nat.pow_add]; congr 1; omega
    · rw [Nat.mul_assoc, ← hs]

/-- A whole number up to 2^53 is rounded to itself, however many of its digits are in the
mantissa. -/
theorem standsFor_round (s : Sign) {M k n : Nat} (hs : 0 < n) (he : n ≤ 2 ^ 53)
    (h : M * 2 ^ k = n * 2 ^ 52) :
    StandsFor (UnpackedFloat.round .binary64 s M (k - 52)) (s.apply n) := by
  obtain ⟨m, level, hl, ho, hh, hm⟩ := exists_mantissa hs he
  have hp : 0 < m := by omega
  have hi : (∃ d : Nat, M = m * 2 ^ d ∧ (k - 52 : Int) = level - 52 - d) ∨
      ∃ d : Nat, m = M * 2 ^ d ∧ (k - 52 : Int) = level - 52 + d := by
    rw [hm] at h
    by_cases hk : k ≤ level
    · refine .inl ⟨level - k, ?_, by omega⟩
      refine eq_of_mul_eq_mul_right (Nat.two_pow_pos k) ?_
      rw [h, Nat.mul_assoc, ← Nat.pow_add, Nat.sub_add_cancel hk]
    · refine .inr ⟨k - level, ?_, by omega⟩
      refine eq_of_mul_eq_mul_right (Nat.two_pow_pos level) ?_
      rw [← h, Nat.mul_assoc, ← Nat.pow_add, Nat.sub_add_cancel (by omega)]
  rw [round_exact s hp ho hh (by omega) hi]
  refine .finite hp hl ho hh ?_
  rw [← apply_mul]
  exact congrArg s.apply (by exact_mod_cast hm)

/-! ## Sums and negatives -/

theorem standsFor_normalize {M : Int} {k : Nat} (hi : i.natAbs ≤ 2 ^ 53)
    (h : M * 2 ^ k = i * 2 ^ 52) (s : Sign) :
    StandsFor (UnpackedFloat.normalize .binary64 M (k - 52) s) i := by
  have hp : (0 : Int) < 2 ^ k := by positivity
  have ha : M.natAbs * 2 ^ k = i.natAbs * 2 ^ 52 := by
    have := congrArg Int.natAbs h
    simpa [Int.natAbs_mul] using this
  unfold UnpackedFloat.normalize
  rcases lt_trichotomy M 0 with hM | rfl | hM
  · have hi' : i < 0 := by
      have := Int.mul_neg_of_neg_of_pos hM hp
      omega
    rw [Int.compare_eq_lt.2 hM]
    have hr := standsFor_round .negative (M := (-M).toNat) (n := i.natAbs) (by omega) hi
      (by rw [← ha]; congr 1; omega)
    have hn : Sign.negative.apply i.natAbs = i := by
      simp only [Sign.apply]
      omega
    rwa [hn] at hr
  · have hi' : i = 0 := by omega
    subst hi'
    exact .zero s
  · have hi' : 0 < i := by
      by_contra hl
      have := Int.mul_pos hM hp
      omega
    rw [Int.compare_eq_gt.2 hM]
    have hr := standsFor_round .positive (M := M.toNat) (n := i.natAbs) (by omega) hi
      (by rw [← ha]; congr 1; omega)
    have hs : Sign.positive.apply i.natAbs = i := by
      simp only [Sign.apply]
      omega
    rwa [hs] at hr

/-- Aligning a mantissa with a lower level keeps what it stands for. -/
theorem decreaseExponent_level (m : Nat) {level k : Nat} (hk : k ≤ level) :
    (decreaseExponent m (level - 52) (k - 52)).1 * 2 ^ k = m * 2 ^ level := by
  have hs : ((level : Int) - 52 - (k - 52)).toNat = level - k := by omega
  simp only [decreaseExponent, hs, shiftLeft_eq]
  rw [Nat.mul_assoc, ← Nat.pow_add, Nat.sub_add_cancel hk]

theorem standsFor_add {v : UnpackedFloat} {j : Int} (hu : StandsFor u i) (hv : StandsFor v j)
    (hij : (i + j).natAbs ≤ 2 ^ 53) : StandsFor (add .binary64 u v) (i + j) := by
  cases hu with
  | zero s =>
    rw [Int.zero_add] at hij ⊢
    cases hv with
    | zero t =>
      simp only [add]
      split <;> exact .zero _
    | finite hp hl ho hh hi => exact .finite hp hl ho hh hi
  | @finite s m level _ hp hl ho hh hi =>
    cases hv with
    | zero t =>
      rw [Int.add_zero]
      exact .finite hp hl ho hh hi
    | @finite t n level' _ hp' hl' ho' hh' hj =>
      have hmin : min ((level : Int) - 52) (level' - 52) = (min level level' : Nat) - 52 := by omega
      have hm := decreaseExponent_level m (Nat.min_le_left level level')
      have hn := decreaseExponent_level n (Nat.min_le_right level level')
      simp only [add, hmin]
      refine standsFor_normalize hij ?_ _
      rw [Int.add_mul, Int.add_mul, hi, hj, ← apply_mul, ← apply_mul]
      congr 2
      · exact_mod_cast hm
      · exact_mod_cast hn

theorem standsFor_neg (h : StandsFor u i) : StandsFor u.neg (-i) := by
  cases h with
  | zero s => exact .zero _
  | @finite s m level _ hp hl ho hh hi =>
    refine .finite hp hl ho hh ?_
    rw [Int.neg_mul, hi]
    cases s
    · exact Int.neg_neg _
    · rfl

/-! ## Packing -/

theorem unpackSign_packComponents (spec : Format) (s : Sign) (e : BitVec spec.exponentBits)
    (m : BitVec spec.mantissaBitsWithoutImplicit) :
    unpackSign (packComponents spec s e m) = s.toBitVec := by
  ext i hi
  have hi' : i = 0 := by omega
  subst hi'
  simp [unpackSign, packComponents, BitVec.getLsbD_eq_getElem, BitVec.getLsbD_append,
    BitVec.getElem_append]

theorem ofBitVec_toBitVec (s : Sign) : Sign.ofBitVec s.toBitVec = s := by
  cases s <;> rfl

theorem finite_congr {s : Sign} {n : Nat} {e f : Int} (hm : 0 < m) (hn : 0 < n) (hmn : m = n)
    (he : e = f) : UnpackedFloat.finite s m e hm = .finite s n f hn := by
  subst hmn he
  rfl

theorem toNat_implicit (hl : 2 ^ 52 ≤ m) (hh : m < 2 ^ 53) :
    (1#1 ++ BitVec.ofNat 52 m).toNat = m := by
  have hm : m % 2 ^ 52 < 2 ^ 52 := mod_lt _ (by omega)
  rw [BitVec.toNat_append, BitVec.toNat_ofNat, BitVec.toNat_ofNat, ← shiftLeft_add_eq_or_of_lt hm]
  omega

theorem unpack_pack (h : StandsFor u i) : (Float.Model.pack u).unpack = u := by
  cases h with
  | zero s => cases s <;> rfl
  | @finite s m level _ ho he hl hh hi =>
    have hs : ¬ 2 ^ 11 ≤ ((level : Int) - 52 + (1023 : Nat) + (52 : Nat)).toNat + 1 := by omega
    have hx : ((level : Int) - 52 + (1023 : Nat) + (52 : Nat)).toNat = level + 1023 := by omega
    have hp : UnpackedFloat.pack .binary64 (.finite s m (level - 52) ho) =
        packComponents .binary64 s (BitVec.ofNat 11 (level + 1023)) (BitVec.ofNat 52 m) := by
      have hb : Format.binary64.exponentBias = 1023 := rfl
      unfold UnpackedFloat.pack
      rw [hb, if_neg hs, if_pos (by rw [log2_normal hl hh]; rfl)]
      exact congrArg (fun n => packComponents .binary64 s (BitVec.ofNat 11 n) _) hx
    have hv : (BitVec.ofNat 11 (level + 1023)).toNat = level + 1023 := by
      rw [BitVec.toNat_ofNat, mod_eq_of_lt (by omega)]
    have hn : BitVec.ofNat 11 (level + 1023) ≠ -1#11 := by
      intro h
      rw [h] at hv
      simp at hv
      omega
    have h0 : BitVec.ofNat 11 (level + 1023) ≠ 0#11 := by
      intro h
      rw [h] at hv
      simp at hv
    change UnpackedFloat.unpack .binary64 (UnpackedFloat.pack .binary64 _) = _
    rw [hp]
    unfold UnpackedFloat.unpack
    simp only [unpackExponent_packComponents, unpackMantissa_packComponents,
      unpackSign_packComponents, ofBitVec_toBitVec]
    rw [if_neg hn, if_neg h0]
    refine finite_congr _ _ (toNat_implicit hl hh) ?_
    rw [hv]
    change ((level + 1023 : Nat) : Int) - ((1023 : Nat) + (52 : Nat)) = _
    omega

/-! ## Reading a double -/

theorem toNat_unpackExponent (b : BitVec 64) :
    (@unpackExponent .binary64 b).toNat = b.toNat / 2 ^ 52 % 2 ^ 11 := by
  simp [unpackExponent, shiftRight_eq_div_pow]

theorem toNat_unpackMantissa (b : BitVec 64) :
    (@unpackMantissa .binary64 b).toNat = b.toNat % 2 ^ 52 := by
  simp [unpackMantissa]

theorem ofBitVec_unpackSign (b : BitVec 64) :
    (Sign.ofBitVec (@unpackSign .binary64 b) == .negative) = (b.toNat / 2 ^ 63 == 1) := by
  have hl := b.isLt
  have hb : (@unpackSign .binary64 b).toNat = b.toNat / 2 ^ 63 := by
    simp only [unpackSign, BitVec.toNat_cast, BitVec.extractLsb_toNat, shiftRight_eq_div_pow]
    change b.toNat / 2 ^ 63 % 2 ^ 1 = _
    omega
  rw [Sign.ofBitVec]
  split
  · next h0 =>
    rw [h0] at hb
    rw [← hb]
    rfl
  · next ho =>
    have hn : b.toNat / 2 ^ 63 ≠ 0 := by
      intro h
      exact ho (BitVec.eq_of_toNat_eq (by rw [hb, h]; rfl))
    have heq : b.toNat / 2 ^ 63 = 1 := by omega
    rw [heq]
    rfl

theorem decode_eq (x : Float) : decode x = match x.toModel.unpack with
    | .infinity s => .infinite (s == .negative)
    | .notANumber => .nan
    | .zero s => .finite (s == .negative) 0 (-1074)
    | .finite s m e _ => .finite (s == .negative) m e := by
  have hb : x.toBits.toNat = x.toModel.toBits.toBitVec.toNat := rfl
  unfold decode Float.Model.unpack UnpackedFloat.unpack
  rw [hb]
  generalize x.toModel.toBits.toBitVec = b
  dsimp only
  rw [← ofBitVec_unpackSign, ← toNat_unpackExponent, ← toNat_unpackMantissa]
  have ha : ∀ v : BitVec 11, v = -1#11 ↔ v.toNat = 2047 := by
    intro v
    rw [← BitVec.toNat_inj]
    rfl
  have hn : ∀ {w : Nat} (v : BitVec w), v = 0#w ↔ v.toNat = 0 := by
    intro w v
    rw [← BitVec.toNat_inj]
    simp
  by_cases he : (@unpackExponent .binary64 b).toNat = 2047
  · rw [if_pos he, if_pos ((ha _).2 he)]
    by_cases hm : (@unpackMantissa .binary64 b).toNat = 0
    · rw [if_pos hm, if_pos ((hn _).2 hm)]
    · rw [if_neg hm, if_neg (fun h => hm ((hn _).1 h))]
  · rw [if_neg he, if_neg (fun h => he ((ha _).1 h))]
    by_cases h0 : (@unpackExponent .binary64 b).toNat = 0
    · rw [if_pos h0, if_pos ((hn _).2 h0), h0]
      by_cases hm : (@unpackMantissa .binary64 b).toNat = 0
      · rw [dif_pos ((hn _).2 hm), hm]
      · rw [dif_neg (fun h => hm ((hn _).1 h))]
        rfl
    · rw [if_neg h0, if_neg (fun h => h0 ((hn _).1 h))]
      have ht : (1#1 ++ @unpackMantissa .binary64 b).toNat =
          (@unpackMantissa .binary64 b).toNat + 2 ^ 52 := by
        have hl : (@unpackMantissa .binary64 b).toNat < 2 ^ 52 := (@unpackMantissa .binary64 b).isLt
        rw [BitVec.toNat_append]
        change 1 <<< 52 ||| _ = _
        rw [← shiftLeft_add_eq_or_of_lt hl]
        omega
      exact congrArg (Parts.finite _ · _) ht.symm

theorem compare_mul_right {a b c : Int} (hc : 0 < c) : compare (a * c) (b * c) = compare a b := by
  rcases lt_trichotomy a b with h | rfl | h
  · rw [Int.compare_eq_lt.2 h, Int.compare_eq_lt.2 (Int.mul_lt_mul_of_pos_right h hc)]
  · rw [Int.compare_eq_eq.2 rfl, Int.compare_eq_eq.2 rfl]
  · rw [Int.compare_eq_gt.2 h, Int.compare_eq_gt.2 (Int.mul_lt_mul_of_pos_right h hc)]

theorem compareInt_eq {x : Float} (h : StandsFor x.toModel.unpack i) (j : Int) :
    compareInt j x = compare j i := by
  rw [compareInt, decode_eq]
  generalize x.toModel.unpack = u at h
  cases h with
  | zero s =>
    have hp : (0 : Int) < 2 ^ 1074 := by positivity
    have hs := compare_mul_right (a := j) (b := 0) hp
    rw [Int.zero_mul] at hs
    cases s <;> exact hs
  | @finite s m level _ hpos hl hw hh hi =>
    have hg : (if (s == Sign.negative) then -(m : Int) else m) = s.apply m := by
      cases s <;> rfl
    rw [apply_mul] at hi
    dsimp only
    rw [hg]
    by_cases hlt : level < 52
    · have hn : (level : Int) - 52 < 0 := by omega
      have ha : ((level : Int) - 52).natAbs = 52 - level := by omega
      have hp : (2 : Int) ^ 52 = 2 ^ (52 - level) * 2 ^ level := by
        rw [← Int.pow_add]
        congr 1
        omega
      have hm : s.apply m = i * 2 ^ (52 - level) := by
        rw [hp, ← Int.mul_assoc] at hi
        exact (Int.eq_of_mul_eq_mul_right (by positivity) hi).symm
      rw [if_pos hn, ha, hm]
      exact compare_mul_right (by positivity)
    · have ho : ¬ (level : Int) - 52 < 0 := by omega
      have ht : ((level : Int) - 52).toNat = level - 52 := by omega
      have hp : (2 : Int) ^ level = 2 ^ (level - 52) * 2 ^ 52 := by
        rw [← Int.pow_add]
        congr 1
        omega
      have hm : s.apply m * 2 ^ (level - 52) = i := by
        rw [hp, ← Int.mul_assoc] at hi
        exact (Int.eq_of_mul_eq_mul_right (by positivity) hi).symm
      rw [if_neg ho, ht, hm]

theorem isNaN_eq_false {x : Float} (h : StandsFor x.toModel.unpack i) : x.isNaN = false := by
  change x.toModel.unpack.isNaN = false
  generalize x.toModel.unpack = u at h
  cases h <;> rfl

end Binary64

namespace Number

/-- A plain number stands for a whole number: it is a whole double, or the integer zero. -/
inductive StandsFor : Number → Int → Prop
  | zero : StandsFor (.int 0) 0
  | float {x : Float} {i : Int} (h : Binary64.StandsFor x.toModel.unpack i) : StandsFor (.float x) i

theorem StandsFor.eq_iff {n : Number} (h : n.StandsFor i) (j : Int) : n.eq (.int j) ↔ i = j := by
  cases h with
  | zero => simp [eq, compare?, whole?]
  | float h =>
    simp only [eq, compare?, isNaN_eq_false h, whole?, compareInt_eq h,
      Bool.false_eq_true, if_false, Option.map_some, beq_iff_eq, Option.some.injEq,
      Ordering.swap_eq_eq, Int.compare_eq_eq]
    exact eq_comm

theorem standsFor_one : StandsFor (.float 1.0) 1 := by
  refine .float ?_
  have hu : (1.0).toModel.unpack =
      .finite .positive (2 ^ 52) ((0 : Nat) - 52) (Nat.two_pow_pos 52) := rfl
  rw [hu]
  exact .finite _ (by omega) (by omega) (by omega) (by decide)

theorem standsFor_zero : StandsFor (.float 0.0) 0 := .float (.zero .positive)

theorem StandsFor.neg {n : Number} (h : n.StandsFor i) : n.neg.StandsFor (-i) := by
  cases h with
  | zero => exact .zero
  | @float x i h =>
    have hn := standsFor_neg h
    refine .float ?_
    have hu : (-x).toModel.unpack = x.toModel.unpack.neg := unpack_pack hn
    rwa [hu]

theorem StandsFor.exists_add {m n : Number} {j : Int} (hm : m.StandsFor i) (hn : n.StandsFor j)
    (hi : (i + j).natAbs ≤ 2 ^ 53) : ∃ k, m.add n = .ok k ∧ k.StandsFor (i + j) := by
  have hf : ∀ {x y : Float}, Binary64.StandsFor x.toModel.unpack i →
      Binary64.StandsFor y.toModel.unpack j → (Number.float (x + y)).StandsFor (i + j) := by
    intro x y hx hy
    have ha := standsFor_add hx hy hi
    refine .float ?_
    have hu : (x + y).toModel.unpack =
        UnpackedFloat.add .binary64 x.toModel.unpack y.toModel.unpack := unpack_pack ha
    rwa [hu]
  cases hm with
  | zero =>
    cases hn with
    | zero => exact ⟨.int 0, rfl, .zero⟩
    | @float y j hy => exact ⟨.float (0.0 + y), rfl, hf (.zero .positive) hy⟩
  | @float x i hx =>
    cases hn with
    | zero => exact ⟨.float (x + 0.0), rfl, hf hx (.zero .positive)⟩
    | @float y j hy => exact ⟨.float (x + y), rfl, hf hx hy⟩

end Number

end Patchwork
